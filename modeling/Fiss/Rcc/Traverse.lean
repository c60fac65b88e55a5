import Fiss.Rcc.Graph
import Fiss.Schemes.Traverse

/-! `Graph::TraversePred` (`deptran/rcc/graph.h`) with unlimited depth: a depth-first search over the
    parents found in the graph, which marks the vertices themselves and cleans up in the outermost
    call. The visitor's answer depends on the vertex; `Rcc.Sched` has the walk with a visitor that
    changes the records, as a `Tour`. -/

namespace Fiss.Rcc
open Relation List

/-- The vertices whose `walked_` is set, the vector `walked`, and the visitor's calls so far. -/
structure Search where
  flags : List ℕ
  walked : List ℕ := []
  visited : List ℕ := []

/-- The visitor is called on `p`. -/
def Search.ask (s : Search) (p : ℕ) : Search := { s with visited := s.visited ++ [p] }

/-- The loop over the parents; `ret` is the last answer. -/
def Search.parents (func : ℕ → SearchHint) (call : ℕ → Search → Option (SearchHint × Search)) :
    List ℕ → SearchHint → Search → Option (SearchHint × Search)
  | [], ret, s => some (ret, s)
  | p :: ps, _, s =>
    match func p with
    | .exit => some (.exit, s.ask p)
    | .skip => Search.parents func call ps .skip (s.ask p)
    | .ok => (call p (s.ask p)).bind fun r =>
        if r.1 = .exit then some r else Search.parents func call ps r.1 r.2

/-- A call with a vector handed down, `n` calls deep at most. -/
def Search.pred (g : Dtxns) (func : ℕ → SearchHint) : ℕ → ℕ → Search → Option (SearchHint × Search)
  | 0, _, _ => none
  | n + 1, v, s =>
    if v ∈ s.flags then some (.ok, s)
    else Search.parents func (Search.pred g func n) (parentsIn g v) .ok
      { s with flags := v :: s.flags, walked := s.walked ++ [v] }

/-- `TraversePred(vertex, -1, func)`: the answer, the flags left set, and the visitor's calls. -/
def Search.traversePred (g : Dtxns) (func : ℕ → SearchHint) (v : ℕ) (flags : List ℕ) :
    Option (SearchHint × List ℕ × List ℕ) :=
  (Search.pred g func (g.keys.dedup.length + 2) v { flags := flags }).map fun r =>
    (r.1, r.2.flags.filter (fun u => u ∉ r.2.walked), r.2.visited)

variable {g : Dtxns} {func : ℕ → SearchHint}

/-- An `Exit` is the last call and the answer; otherwise there is none. -/
def Ends (func : ℕ → SearchHint) (ret : SearchHint) (visited : List ℕ) : Prop :=
  (ret = .exit → ∃ l x, visited = l ++ [x] ∧ func x = .exit ∧ ∀ y ∈ l, func y ≠ .exit) ∧
    (ret ≠ .exit → ∀ y ∈ visited, func y ≠ .exit)

/-- The visitor was called on `p`, and `p` was walked if it answered `Ok`. -/
def Asked (func : ℕ → SearchHint) (s : Search) (p : ℕ) : Prop :=
  p ∈ s.visited ∧ (func p = .ok → p ∈ s.flags)

/-- What a call or a loop that answered `ret` has done between two states. -/
structure Searched (g : Dtxns) (func : ℕ → SearchHint) (s s' : Search) (ret : SearchHint) : Prop where
  flags : s.flags ⊆ s'.flags
  walked : s.walked ⊆ s'.walked
  visited : s.visited ⊆ s'.visited
  marked : ∀ u ∈ s'.flags, u ∈ s.flags ∨ u ∈ s'.walked
  ends : Ends func ret s'.visited
  closed : ret ≠ .exit → ∀ u ∈ s'.flags, u ∉ s.flags → ∀ p ∈ parentsIn g u, Asked func s' p

theorem Asked.mono {s s' : Search} {p : ℕ} (h : Asked func s p) (hv : s.visited ⊆ s'.visited)
    (hf : s.flags ⊆ s'.flags) : Asked func s' p :=
  ⟨hv h.1, fun hok => hf (h.2 hok)⟩

theorem Searched.trans {s s' s'' : Search} {r r' : SearchHint} (h : Searched g func s s' r)
    (h' : Searched g func s' s'' r') (hr : r ≠ .exit) : Searched g func s s'' r' where
  flags := List.Subset.trans h.flags h'.flags
  walked := List.Subset.trans h.walked h'.walked
  visited := List.Subset.trans h.visited h'.visited
  marked u hu := by
    rcases h'.marked u hu with hu | hu
    · exact (h.marked u hu).imp_right fun hw => h'.walked hw
    · exact .inr hu
  ends := h'.ends
  closed hr' u hu hnew p hp := by
    by_cases hu' : u ∈ s'.flags
    · exact (h.closed hr u hu' hnew p hp).mono h'.visited h'.flags
    · exact h'.closed hr' u hu hu' p hp

theorem searched_ask {s : Search} {p : ℕ} {r : SearchHint} (hs : Ends func .ok s.visited)
    (hp : func p ≠ .exit) (hr : r ≠ .exit) : Searched g func s (s.ask p) r where
  flags := List.Subset.refl _
  walked := List.Subset.refl _
  visited := subset_append_left _ _
  marked u hu := .inl hu
  ends := by
    refine ⟨fun h => absurd h hr, fun _ y hy => ?_⟩
    rcases mem_append.mp hy with hy | hy
    · exact hs.2 (by simp) y hy
    · rwa [mem_singleton.mp hy]
  closed _ u hu hnew := absurd hu hnew

/-- The loop over the parents, given what the calls do. -/
theorem parents_searched {nodes : List ℕ} {n : ℕ} {call : ℕ → Search → Option (SearchHint × Search)}
    (hcall : ∀ p s, p ∈ nodes → unwalked nodes s.flags < n → Ends func .ok s.visited →
      ∃ r s', call p s = some (r, s') ∧ Searched g func s s' r ∧ (r ≠ .exit → p ∈ s'.flags)) :
    ∀ (ps : List ℕ) (ret : SearchHint) (s : Search), (∀ p ∈ ps, p ∈ nodes) → ret ≠ .exit →
      unwalked nodes s.flags < n → Ends func .ok s.visited →
      ∃ r s', Search.parents func call ps ret s = some (r, s') ∧ Searched g func s s' r ∧
        (r ≠ .exit → ∀ p ∈ ps, Asked func s' p)
  | [], ret, s, _, hret, _, hs => by
    refine ⟨ret, s, rfl, ⟨List.Subset.refl _, List.Subset.refl _, List.Subset.refl _,
      fun u hu => .inl hu, ⟨fun h => absurd h hret, fun _ => hs.2 (by simp)⟩,
      fun _ u hu hnew => absurd hu hnew⟩, by simp⟩
  | p :: ps, ret, s, hps, _, hn, hs => by
    obtain ⟨hp, hps⟩ := forall_mem_cons.mp hps
    rw [Search.parents]
    cases hfunc : func p with
    | exit =>
      refine ⟨.exit, s.ask p, rfl, ⟨List.Subset.refl _, List.Subset.refl _,
        subset_append_left _ _, fun u hu => .inl hu, ⟨fun _ => ?_, by simp⟩, by simp⟩, by simp⟩
      exact ⟨s.visited, p, rfl, hfunc, hs.2 (by simp)⟩
    | skip =>
      have hask : Searched g func s (s.ask p) .skip :=
        searched_ask hs (by simp [hfunc]) (by simp)
      obtain ⟨r, s', hr, hw, hall⟩ := parents_searched hcall ps .skip (s.ask p) hps (by simp) hn
        ⟨by simp, fun _ => hask.ends.2 (by simp)⟩
      refine ⟨r, s', hr, hask.trans hw (by simp), fun hne => forall_mem_cons.mpr ⟨?_, hall hne⟩⟩
      exact ⟨hw.visited (by simp [Search.ask]), by simp [hfunc]⟩
    | ok =>
      have hask : Searched g func s (s.ask p) .ok :=
        searched_ask hs (by simp [hfunc]) (by simp)
      obtain ⟨r1, s1, hr1, hw1, hp1⟩ := hcall p (s.ask p) hp hn hask.ends
      simp only [hr1, Option.bind_some]
      by_cases hex : r1 = .exit
      · exact ⟨r1, s1, by rw [if_pos hex], hask.trans hw1 (by simp), fun h => absurd hex h⟩
      · obtain ⟨r, s', hr, hw, hall⟩ := parents_searched hcall ps r1 s1 hps hex
          ((unwalked_le hw1.flags).trans_lt hn) ⟨by simp, fun _ => hw1.ends.2 hex⟩
        refine ⟨r, s', by rw [if_neg hex, hr], (hask.trans hw1 (by simp)).trans hw hex, fun hne =>
          forall_mem_cons.mpr ⟨?_, hall hne⟩⟩
        exact ⟨hw.visited (hw1.visited (by simp [Search.ask])), fun _ => hw.flags (hp1 hex)⟩

theorem pred_searched {nodes : List ℕ} (hnodes : ∀ a ∈ nodes, ∀ b ∈ parentsIn g a, b ∈ nodes) :
    ∀ (n v : ℕ) (s : Search), v ∈ nodes → unwalked nodes s.flags < n → Ends func .ok s.visited →
      ∃ r s', Search.pred g func n v s = some (r, s') ∧ Searched g func s s' r ∧
        (r ≠ .exit → v ∈ s'.flags)
  | 0, _, _, _, hn, _ => absurd hn (Nat.not_lt_zero _)
  | n + 1, v, s, hv, hn, hs => by
    rw [Search.pred]
    split
    case isTrue hmem =>
      exact ⟨.ok, s, rfl, ⟨List.Subset.refl _, List.Subset.refl _, List.Subset.refl _,
        fun u hu => .inl hu, hs, fun _ u hu hnew => absurd hu hnew⟩, fun _ => hmem⟩
    case isFalse hmem =>
      have hlt := unwalked_cons_lt hv hmem
      obtain ⟨r, s', hr, hw, hall⟩ := parents_searched (pred_searched hnodes n) (parentsIn g v) .ok
        { s with flags := v :: s.flags, walked := s.walked ++ [v] } (hnodes v hv) (by simp)
        (Nat.lt_of_lt_of_le hlt (Nat.le_of_lt_succ hn)) hs
      refine ⟨r, s', hr, ⟨fun u hu => hw.flags (mem_cons_of_mem v hu),
        fun u hu => hw.walked (mem_append_left _ hu), hw.visited, fun u hu => ?_, hw.ends,
        fun hne u hu hnew p hp => ?_⟩, fun _ => hw.flags mem_cons_self⟩
      · rcases hw.marked u hu with hu | hu
        · rcases mem_cons.mp hu with rfl | hu
          · exact .inr (hw.walked (by simp))
          · exact .inl hu
        · exact .inr hu
      · by_cases huv : u = v
        · exact hall hne p (huv ▸ hp)
        · exact hw.closed hne u hu (by simp [huv, hnew]) p hp

/-- From clear flags the search returns with clear flags, visits nothing after an `Exit`, and without
    one visits every parent of what is reached over vertices that answered `Ok`. -/
theorem traversePred_complete (g : Dtxns) (func : ℕ → SearchHint) (v : ℕ) :
    ∃ ret visited, Search.traversePred g func v [] = some (ret, [], visited) ∧
      ((∃ x ∈ visited, func x = .exit) ∨
        ∀ b y, ReflTransGen (fun a c => c ∈ parentsIn g a ∧ func c = .ok) v b →
          y ∈ parentsIn g b → y ∈ visited) ∧
      ∀ l1 x l2, visited = l1 ++ x :: l2 → func x = .exit → l2 = [] := by
  have hnodes : ∀ a ∈ v :: g.keys.dedup, ∀ b ∈ parentsIn g a, b ∈ v :: g.keys.dedup :=
    fun a _ b hb => mem_cons_of_mem v
      (mem_dedup.mpr (Dict.mem_keys.mpr (mem_parentsIn.mp hb).2))
  have hfuel : unwalked (v :: g.keys.dedup) [] < g.keys.dedup.length + 2 :=
    Nat.lt_succ_of_le (countP_le_length.trans (length_cons ..).le)
  have hstart : Ends func .ok [] := ⟨by simp, by simp⟩
  obtain ⟨ret, s, hret, hw, hv⟩ :=
    pred_searched hnodes _ v { flags := [] } mem_cons_self hfuel hstart
  have hclear : s.flags.filter (fun u => u ∉ s.walked) = [] := by
    refine filter_eq_nil_iff.mpr fun u hu => ?_
    simpa using hw.marked u hu
  refine ⟨ret, s.visited, by rw [Search.traversePred, hret, Option.map_some, hclear], ?_, ?_⟩
  · by_cases hex : ret = .exit
    · obtain ⟨l, x, hl, hx, -⟩ := hw.ends.1 hex
      exact .inl ⟨x, by simp [hl], hx⟩
    · have hflag : ∀ b, ReflTransGen (fun a c => c ∈ parentsIn g a ∧ func c = .ok) v b →
          b ∈ s.flags := by
        intro b hb
        induction hb with
        | refl => exact hv hex
        | tail _ hbc ih => exact (hw.closed hex _ ih (by simp) _ hbc.1).2 hbc.2
      exact .inr fun b y hb hy => (hw.closed hex b (hflag b hb) (by simp) y hy).1
  · intro l1 x l2 hl hx
    by_cases hex : ret = .exit
    · obtain ⟨l, z, hvis, -, hno⟩ := hw.ends.1 hex
      rcases eq_nil_or_concat l2 with rfl | ⟨l3, y, rfl⟩
      · rfl
      · have hsame : (l1 ++ x :: l3) ++ [y] = l ++ [z] := by simpa using hl.symm.trans hvis
        obtain ⟨hsame, -⟩ := append_inj' hsame rfl
        exact absurd hx (hno x (by simp [← hsame]))
    · exact absurd hx (hw.ends.2 hex x (by simp [hl]))

end Fiss.Rcc
