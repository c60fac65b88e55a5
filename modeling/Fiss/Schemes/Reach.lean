import Mathlib

/-! Reachability and acyclicity of a relation, and the worklist search that decides reachability.

    `search` pops a node, skips it when it was visited, and otherwise records it and pushes its
    successors. `mem_search` says that, started with enough fuel, it returns exactly the nodes
    reachable from the start other than the start itself. `layered_addEdge` is the cycle test: an
    edge `p → t` closes no cycle when `t` does not reach `p`. `ancestorCount` is the measure that
    grows along every edge of an acyclic relation. -/

namespace Fiss
open Relation List Option

variable {α : Type} {r : α → α → Prop} {nodes : List α}

/-! ### Acyclic relations -/

/-- No element reaches itself. -/
def Acyclic (r : α → α → Prop) : Prop := ∀ a, ¬ TransGen r a a

/-- Two elements that reach each other are the same: no cycle but self-loops. -/
def Layered (r : α → α → Prop) : Prop :=
  ∀ a b, ReflTransGen r a b → ReflTransGen r b a → a = b

/-- The relation `r` with the pair `(p, t)` added. -/
def AddEdge (r : α → α → Prop) (p t : α) : α → α → Prop := fun a b => r a b ∨ (a = p ∧ b = t)

theorem Acyclic.mono {r s : α → α → Prop} (hs : Acyclic s) (h : ∀ a b, r a b → s a b) : Acyclic r :=
  fun a ha => hs a (TransGen.mono h _ _ ha)

theorem acyclic_of_rank {f : α → ℕ} (h : ∀ a b, r a b → f a < f b) : Acyclic r := by
  intro a ha
  have hlt : ∀ b, TransGen r a b → f a < f b := by
    intro b hb
    induction hb with
    | single hab => exact h _ _ hab
    | tail _ hbc ih => exact ih.trans (h _ _ hbc)
  exact absurd (hlt a ha) (lt_irrefl _)

theorem acyclic_of_layered (hr : Layered r) (hself : ∀ a, ¬ r a a) : Acyclic r := by
  intro a ha
  obtain ⟨c, hac, hca⟩ := TransGen.head'_iff.mp ha
  obtain rfl : a = c := hr a c (.single hac) hca
  exact hself a hac

theorem reflTransGen_addEdge {p t a b : α} (h : ReflTransGen (AddEdge r p t) a b) :
    ReflTransGen r a b ∨ (ReflTransGen r a p ∧ ReflTransGen r t b) := by
  induction h with
  | refl => exact .inl .refl
  | tail _ hbc ih =>
    rcases hbc with hbc | ⟨rfl, rfl⟩
    · rcases ih with ih | ⟨hap, htb⟩
      · exact .inl (ih.tail hbc)
      · exact .inr ⟨hap, htb.tail hbc⟩
    · rcases ih with ih | ⟨hap, _⟩
      · exact .inr ⟨ih, .refl⟩
      · exact .inr ⟨hap, .refl⟩

theorem layered_addEdge {p t : α} (hr : Layered r)
    (hne : ReflTransGen r t p → t = p) : Layered (AddEdge r p t) := by
  intro a b hab hba
  rcases reflTransGen_addEdge hab with hab' | ⟨hap, htb⟩
  · rcases reflTransGen_addEdge hba with hba' | ⟨hbp, hta⟩
    · exact hr a b hab' hba'
    · have hpt := hne ((hta.trans hab').trans hbp)
      exact hr a b hab' ((hpt ▸ hbp).trans hta)
  · rcases reflTransGen_addEdge hba with hba' | ⟨hbp, hta⟩
    · have hpt := hne ((htb.trans hba').trans hap)
      exact hr a b ((hpt ▸ hap).trans htb) hba'
    · have hpt := hne (htb.trans hbp)
      exact hr a b ((hpt ▸ hap).trans htb) ((hpt ▸ hbp).trans hta)

section Count
open Classical

/-- How many of `nodes` are proper ancestors of `t`. -/
noncomputable def ancestorCount (r : α → α → Prop) (nodes : List α) (t : α) : ℕ :=
  nodes.countP fun a => TransGen r a t

theorem ancestorCount_le (r : α → α → Prop) (nodes : List α) (t : α) :
    ancestorCount r nodes t ≤ nodes.length := countP_le_length

theorem countP_lt_countP {p q : α → Bool} : ∀ {l : List α} {a : α}, a ∈ l →
    (∀ x, p x = true → q x = true) → p a = false → q a = true → l.countP p < l.countP q
  | x :: l, a, hmem, hpq, hpa, hqa => by
    rw [countP_cons, countP_cons]
    have hle : l.countP p ≤ l.countP q := countP_mono_left fun x _ => hpq x
    rcases mem_cons.mp hmem with rfl | hl
    · rw [hpa, hqa, if_pos rfl, if_neg Bool.false_ne_true]; omega
    · have ih := countP_lt_countP hl hpq hpa hqa
      by_cases hp : p x = true
      · rw [if_pos hp, if_pos (hpq x hp)]; omega
      · rw [if_neg hp]; omega

theorem ancestorCount_lt {p t : α} (hr : Acyclic r)
    (hpt : r p t) (hp : p ∈ nodes) : ancestorCount r nodes p < ancestorCount r nodes t := by
  refine countP_lt_countP hp (fun x hx => ?_) ?_ ?_
  · rw [decide_eq_true_iff] at hx ⊢; exact hx.tail hpt
  · rw [decide_eq_false_iff_not]; exact hr p
  · rw [decide_eq_true_iff]; exact .single hpt

end Count

/-! ### Worklist search -/

variable [DecidableEq α]

/-- The search loop on a stack of nodes to look at, the visited nodes and the recorded ones. -/
def search (next : α → List α) : ℕ → List α → List α → List α → List α
  | 0, _, _, found => found
  | _ + 1, [], _, found => found
  | n + 1, top :: stack, visited, found =>
    if top ∈ visited then search next n stack visited found
    else search next n (next top ++ stack) (top :: visited) (top :: found)

/-- Pushes the search can still make: the successors of the nodes it has not visited. -/
def work (next : α → List α) (nodes visited : List α) : ℕ :=
  ((nodes.filter fun a => a ∉ visited).map fun a => (next a).length).sum

theorem work_mono (next : α → List α) (nodes visited : List α) (a : α) :
    work next nodes (a :: visited) ≤ work next nodes visited := by
  refine List.Sublist.sum_le_sum ?_ (fun _ _ => Nat.zero_le _)
  refine List.Sublist.map _ (monotone_filter_right nodes fun y hy => ?_)
  simp only [mem_cons, not_or, decide_eq_true_iff] at hy ⊢
  exact hy.2

theorem work_cons (next : α → List α) (x : α) (nodes visited : List α) :
    work next (x :: nodes) visited =
      (if x ∈ visited then 0 else (next x).length) + work next nodes visited := by
  by_cases hx : x ∈ visited
  · simp [work, hx]
  · simp [work, hx]

theorem work_visit (next : α → List α) {nodes visited : List α} {a : α} (ha : a ∈ nodes)
    (hv : a ∉ visited) :
    work next nodes (a :: visited) + (next a).length ≤ work next nodes visited := by
  induction nodes with
  | nil => exact absurd ha not_mem_nil
  | cons x l ih =>
    rw [work_cons, work_cons]
    rcases eq_or_ne x a with rfl | hx
    · have hmono := work_mono next l visited x
      rw [if_pos (mem_cons_self ..), if_neg hv]
      omega
    · have hrest := ih ((mem_cons.mp ha).resolve_left hx.symm)
      by_cases hxv : x ∈ visited
      · rw [if_pos (mem_cons_of_mem a hxv), if_pos hxv]
        omega
      · rw [if_neg (by simp [hxv, hx]), if_neg hxv]
        omega

theorem search_sound (next : α → List α) (start : α) : ∀ (n : ℕ) (stack visited found : List α),
    (∀ a ∈ stack, TransGen (fun a b => b ∈ next a) start a) →
    (∀ a ∈ found, TransGen (fun a b => b ∈ next a) start a ∧ a ≠ start) → start ∈ visited →
    ∀ a ∈ search next n stack visited found, TransGen (fun a b => b ∈ next a) start a ∧ a ≠ start
  | 0, _, _, _, _, hf, _ => hf
  | _ + 1, [], _, _, _, hf, _ => hf
  | n + 1, top :: stack, visited, found, hs, hf, hv => by
    have htop := hs top (mem_cons_self ..)
    have hrest : ∀ a ∈ stack, TransGen (fun a b => b ∈ next a) start a :=
      fun a ha => hs a (mem_cons_of_mem _ ha)
    rw [search]
    by_cases hmem : top ∈ visited
    · rw [if_pos hmem]; exact search_sound next start n stack visited found hrest hf hv
    · rw [if_neg hmem]
      refine search_sound next start n _ _ _ ?_ ?_ (mem_cons_of_mem _ hv)
      · exact forall_mem_append.mpr ⟨fun a h => htop.tail h, hrest⟩
      · exact forall_mem_cons.mpr ⟨⟨htop, fun h => hmem (h ▸ hv)⟩, hf⟩

/-- With fuel for the whole stack and all pushes to come, the result is closed under `next`. -/
theorem search_closed (next : α → List α) (start : α) (nodes : List α)
    (hnodes : ∀ a ∈ nodes, ∀ b ∈ next a, b ∈ nodes) : ∀ (n : ℕ) (stack visited found : List α),
    (∀ a ∈ stack, a ∈ nodes) → (∀ a, a ∈ visited ↔ a = start ∨ a ∈ found) →
    (∀ a ∈ visited, ∀ b ∈ next a, b ∈ visited ∨ b ∈ stack) →
    stack.length + work next nodes visited ≤ n →
    ∀ a, a = start ∨ a ∈ search next n stack visited found →
      ∀ b ∈ next a, b = start ∨ b ∈ search next n stack visited found
  | 0, stack, visited, found, _, hv, hc, hn => by
    have hnil : stack = [] := length_eq_zero_iff.mp (by omega)
    subst hnil
    intro a ha b hb
    rcases hc a ((hv a).mpr ha) b hb with h | h
    · exact (hv b).mp h
    · simp at h
  | n + 1, [], visited, found, _, hv, hc, _ => by
    intro a ha b hb
    rcases hc a ((hv a).mpr ha) b hb with h | h
    · exact (hv b).mp h
    · simp at h
  | n + 1, top :: stack, visited, found, hs, hv, hc, hn => by
    have htop := hs top (mem_cons_self ..)
    rw [length_cons] at hn
    rw [search]
    by_cases hmem : top ∈ visited
    · rw [if_pos hmem]
      refine search_closed next start nodes hnodes n stack visited found
        (fun a ha => hs a (mem_cons_of_mem _ ha)) hv ?_ (by omega)
      intro a ha b hb
      rcases hc a ha b hb with h | h
      · exact .inl h
      · rcases mem_cons.mp h with rfl | h
        · exact .inl hmem
        · exact .inr h
    · rw [if_neg hmem]
      have hwork := work_visit next htop hmem
      refine search_closed next start nodes hnodes n (next top ++ stack) (top :: visited)
        (top :: found) ?_ ?_ ?_ (by rw [length_append]; omega)
      · exact forall_mem_append.mpr ⟨hnodes top htop, (forall_mem_cons.mp hs).2⟩
      · intro a
        rw [mem_cons, mem_cons, hv a]; tauto
      · intro a ha b hb
        rcases mem_cons.mp ha with rfl | ha
        · exact .inr (mem_append_left _ hb)
        · rcases hc a ha b hb with h | h
          · exact .inl (mem_cons_of_mem _ h)
          · rcases mem_cons.mp h with rfl | h
            · exact .inl (mem_cons_self ..)
            · exact .inr (mem_append_right _ h)

theorem mem_search {next : α → List α} {start a : α}
    (hnodes : ∀ a ∈ nodes, ∀ b ∈ next a, b ∈ nodes) (hstart : start ∈ nodes) :
    a ∈ search next (work next nodes []) (next start) [start] [] ↔
      TransGen (fun a b => b ∈ next a) start a ∧ a ≠ start := by
  constructor
  · exact search_sound next start _ _ _ _ (fun a ha => .single ha) (by simp) (by simp) a
  · rintro ⟨hreach, hne⟩
    have hfuel : (next start).length + work next nodes [start] ≤ work next nodes [] := by
      have := work_visit next hstart (not_mem_nil (a := start)); omega
    have hclosed := search_closed next start nodes hnodes _ (next start) [start] []
      (hnodes start hstart) (by simp) (fun b hb c hc => by
        rw [mem_singleton] at hb; subst hb; exact .inr hc) hfuel
    suffices h : a = start ∨ a ∈ search next (work next nodes []) (next start) [start] [] from
      h.resolve_left hne
    clear hne
    induction hreach with
    | single hb => exact hclosed start (.inl rfl) _ hb
    | tail _ hc ih => exact hclosed _ ih _ hc

/-- The loop with a lookup that may fail: no result when one does, nor when the steps run out. -/
def searchAt (next : α → Option (List α)) : ℕ → List α → List α → List α → Option (List α)
  | _, [], _, found => some found
  | 0, _ :: _, _, _ => none
  | n + 1, top :: stack, visited, found =>
    if top ∈ visited then searchAt next n stack visited found
    else (next top).bind fun l => searchAt next n (l ++ stack) (top :: visited) (top :: found)

theorem searchAt_eq {next : α → Option (List α)}
    (hnodes : ∀ a ∈ nodes, ∃ l, next a = some l ∧ ∀ b ∈ l, b ∈ nodes) :
    ∀ (n : ℕ) (stack visited found : List α), (∀ a ∈ stack, a ∈ nodes) →
      stack.length + work (fun a => (next a).getD []) nodes visited ≤ n →
      searchAt next n stack visited found =
        some (search (fun a => (next a).getD []) n stack visited found)
  | 0, [], _, _, _, _ => rfl
  | _ + 1, [], _, _, _, _ => rfl
  | 0, top :: stack, _, _, _, hn => absurd hn (by simp)
  | n + 1, top :: stack, visited, found, hs, hn => by
    obtain ⟨htop, hstack⟩ := forall_mem_cons.mp hs
    rw [length_cons] at hn
    rw [searchAt, search]
    split
    · exact searchAt_eq hnodes n stack visited found hstack (by omega)
    · next hv =>
      obtain ⟨l, hl, hmem⟩ := hnodes top htop
      have hwork := work_visit (fun a => (next a).getD []) htop hv
      simp only [hl, getD_some] at hwork
      rw [hl, bind_some, getD_some]
      refine searchAt_eq hnodes n (l ++ stack) _ _ ?_ (by rw [length_append]; omega)
      exact fun a ha => (mem_append.mp ha).elim (hmem a) (hstack a)

end Fiss
