import Fiss.Schemes.Reach

/-! A depth-first walk that asks a visitor at every edge whether to go on, to skip what lies behind
    it, or to stop altogether. The visitor keeps a state of its own. `tour_reaches` says what a walk
    that was never stopped tells: everything behind the start was accepted by the visitor, or lies
    behind something it skipped. -/

namespace Fiss
open Relation List

inductive SearchHint where
  | exit
  | ok
  | skip
  deriving DecidableEq

/-- Where a walk stands: the vertices walked, the visitor's state, and whether it has been stopped. -/
structure Tour (α σ : Type) where
  walked : List α := []
  state : σ
  exited : Bool := false

variable {α σ : Type} [DecidableEq α]

/-- One edge, to `p`. A stopped walk looks at no further edge. -/
def Tour.look (visit : σ → α → SearchHint × σ) (call : α → Tour α σ → Tour α σ) (t : Tour α σ)
    (p : α) : Tour α σ :=
  if t.exited then t
  else
    match visit t.state p with
    | (.exit, s) => { t with state := s, exited := true }
    | (.skip, s) => { t with state := s }
    | (.ok, s) => call p { t with state := s }

/-- The walk from `v`, with at most `n` vertices on the way. -/
def Tour.walk (next : α → List α) (visit : σ → α → SearchHint × σ) : ℕ → α → Tour α σ → Tour α σ
  | 0, _, t => t
  | n + 1, v, t =>
    if v ∈ t.walked then t
    else (next v).foldl (Tour.look visit (Tour.walk next visit n)) { t with walked := v :: t.walked }

section Spec

variable {next : α → List α} {visit : σ → α → SearchHint × σ} {I : σ → Prop} {S K : α → Prop}
  {call : α → Tour α σ → Tour α σ}

/-! ### What the visitor keeps -/

omit [DecidableEq α] in
theorem look_inv (hvisit : ∀ s p, I s → I (visit s p).2)
    (hcall : ∀ p t, I t.state → I (call p t).state) {t : Tour α σ} (ht : I t.state) (p : α) :
    I (t.look visit call p).state := by
  rw [Tour.look]
  split
  · exact ht
  · have hp := hvisit t.state p ht
    split
    · next s hs => rw [hs] at hp; exact hp
    · next s hs => rw [hs] at hp; exact hp
    · next s hs => rw [hs] at hp; exact hcall p _ hp

theorem walk_inv (hvisit : ∀ s p, I s → I (visit s p).2) :
    ∀ (n : ℕ) (v : α) (t : Tour α σ), I t.state → I (t.walk next visit n v).state
  | 0, _, _, ht => ht
  | n + 1, v, t, ht => by
    rw [Tour.walk]
    split
    · exact ht
    · refine List.foldlRecOn (motive := fun t : Tour α σ => I t.state) _ _ ht fun t ht p _ => ?_
      exact look_inv hvisit (walk_inv hvisit n) ht p

/-! ### Where an unstopped walk has been -/

/-- Every vertex of `w` beyond `old` was accepted, and each edge from it was skipped or walked. -/
def Closed (next : α → List α) (S K : α → Prop) (old w : List α) : Prop :=
  ∀ u ∈ w, u ∈ old ∨ K u ∧ ∀ p ∈ next u, S p ∨ p ∈ w

omit [DecidableEq α] in
theorem Closed.trans {old w w' : List α} (h : Closed next S K old w) (h' : Closed next S K w w')
    (hsub : w ⊆ w') : Closed next S K old w' := fun u hu => by
  rcases h' u hu with hu | hu
  · rcases h u hu with hu | ⟨hK, hp⟩
    · exact .inl hu
    · exact .inr ⟨hK, fun p hpu => (hp p hpu).imp_right fun hw => hsub hw⟩
  · exact .inr hu

/-- How many of the vertices are still to be walked. -/
def unwalked (nodes walked : List α) : ℕ := nodes.countP fun x => x ∉ walked

theorem unwalked_le {nodes w w' : List α} (h : w ⊆ w') : unwalked nodes w' ≤ unwalked nodes w := by
  refine countP_mono_left fun x _ hx => ?_
  rw [decide_eq_true_eq] at hx ⊢
  exact fun hw => hx (h hw)

theorem unwalked_cons_lt {nodes w : List α} {v : α} (hv : v ∈ nodes) (hw : v ∉ w) :
    unwalked nodes (v :: w) < unwalked nodes w := by
  refine countP_lt_countP hv (fun x hx => ?_) (by simp) (by simpa using hw)
  rw [decide_eq_true_eq] at hx ⊢
  exact fun h => hx (mem_cons_of_mem v h)

/-- What a call has done to the walk it was given. -/
structure Went (next : α → List α) (I : σ → Prop) (S K : α → Prop) (v : α) (t t' : Tour α σ) :
    Prop where
  inv : I t'.state
  sub : t.walked ⊆ t'.walked
  closed : t'.exited = false → v ∈ t'.walked ∧ Closed next S K t.walked t'.walked

variable {nodes : List α}

section
variable (hvisit : ∀ s p, I s →
  I (visit s p).2 ∧ ((visit s p).1 = .ok → K p) ∧ ((visit s p).1 = .skip → S p))
include hvisit

theorem look_went {n : ℕ}
    (hcall : ∀ p t, I t.state → K p → p ∈ nodes → unwalked nodes t.walked ≤ n →
      Went next I S K p t (call p t))
    {t : Tour α σ} {p : α} (ht : I t.state) (hp : p ∈ nodes) (hn : unwalked nodes t.walked ≤ n) :
    I (t.look visit call p).state ∧ t.walked ⊆ (t.look visit call p).walked ∧
      ((t.look visit call p).exited = false → t.exited = false ∧
        (S p ∨ p ∈ (t.look visit call p).walked) ∧
        Closed next S K t.walked (t.look visit call p).walked) := by
  rw [Tour.look]
  split
  · next hex => exact ⟨ht, List.Subset.refl _, fun h => absurd hex (by simp [h])⟩
  · next hex =>
    obtain ⟨hI, hok, hskip⟩ := hvisit t.state p ht
    split
    · next s hs => rw [hs] at hI; exact ⟨hI, List.Subset.refl _, fun h => by cases h⟩
    · next s hs =>
      rw [hs] at hI hskip
      exact ⟨hI, List.Subset.refl _, fun h => ⟨h, .inl (hskip rfl), fun u hu => .inl hu⟩⟩
    · next s hs =>
      rw [hs] at hI hok
      have hw := hcall p { t with state := s } hI (hok rfl) hp hn
      exact ⟨hw.inv, hw.sub, fun h => ⟨eq_false_of_ne_true hex, .inr (hw.closed h).1,
        (hw.closed h).2⟩⟩

theorem foldl_look_went {n : ℕ}
    (hcall : ∀ p t, I t.state → K p → p ∈ nodes → unwalked nodes t.walked ≤ n →
      Went next I S K p t (call p t)) :
    ∀ (ps : List α) (t : Tour α σ), I t.state → (∀ p ∈ ps, p ∈ nodes) →
      unwalked nodes t.walked ≤ n → I (ps.foldl (Tour.look visit call) t).state ∧
        t.walked ⊆ (ps.foldl (Tour.look visit call) t).walked ∧
        ((ps.foldl (Tour.look visit call) t).exited = false → t.exited = false ∧
          (∀ p ∈ ps, S p ∨ p ∈ (ps.foldl (Tour.look visit call) t).walked) ∧
          Closed next S K t.walked (ps.foldl (Tour.look visit call) t).walked)
  | [], t, ht, _, _ => ⟨ht, List.Subset.refl _, fun h =>
      ⟨h, forall_mem_nil _, fun _ hu => .inl hu⟩⟩
  | p :: ps, t, ht, hps, hn => by
    obtain ⟨hp, hps⟩ := forall_mem_cons.mp hps
    obtain ⟨hI, hsub, hlook⟩ := look_went hvisit hcall ht hp hn
    obtain ⟨hI', hsub', hrest⟩ := foldl_look_went hcall ps _ hI hps
      ((unwalked_le hsub).trans hn)
    rw [foldl_cons]
    refine ⟨hI', List.Subset.trans hsub hsub', fun h => ?_⟩
    obtain ⟨hex, hall, hcl⟩ := hrest h
    obtain ⟨hex0, hone, hcl0⟩ := hlook hex
    exact ⟨hex0, forall_mem_cons.mpr ⟨hone.imp_right fun hw => hsub' hw, hall⟩,
      hcl0.trans hcl hsub'⟩

end

theorem walk_went (hnodes : ∀ a ∈ nodes, ∀ b ∈ next a, b ∈ nodes)
    (hvisit : ∀ s p, I s → I (visit s p).2 ∧ ((visit s p).1 = .ok → K p) ∧
      ((visit s p).1 = .skip → S p)) :
    ∀ (n : ℕ) (v : α) (t : Tour α σ), I t.state → K v → v ∈ nodes → unwalked nodes t.walked ≤ n →
      Went next I S K v t (t.walk next visit n v)
  | 0, v, t, ht, _, hv, hn => by
    refine ⟨ht, List.Subset.refl _, fun _ => ⟨?_, fun u hu => .inl hu⟩⟩
    rw [Tour.walk]
    -- with no vertex left to walk, `v` is among the walked
    by_contra hw
    exact absurd (unwalked_cons_lt hv hw) (by omega)
  | n + 1, v, t, ht, hK, hv, hn => by
    rw [Tour.walk]
    split
    · next hw => exact ⟨ht, List.Subset.refl _, fun _ => ⟨hw, fun u hu => .inl hu⟩⟩
    · next hw =>
      have hlt := unwalked_cons_lt hv hw
      obtain ⟨hI, hsub, hrest⟩ := foldl_look_went hvisit
        (walk_went hnodes hvisit n) (next v)
        { t with walked := v :: t.walked } ht (hnodes v hv) (Nat.le_of_lt_succ (hlt.trans_le hn))
      refine ⟨hI, fun u hu => hsub (mem_cons_of_mem v hu), fun h => ?_⟩
      obtain ⟨-, hall, hcl⟩ := hrest h
      refine ⟨hsub mem_cons_self, fun u hu => ?_⟩
      rcases hcl u hu with hold | hnew
      · rcases mem_cons.mp hold with rfl | hold
        · exact .inr ⟨hK, hall⟩
        · exact .inl hold
      · exact .inr hnew

omit [DecidableEq α] in
theorem Closed.reaches {w : List α} {v y : α} (h : Closed next S K [] w) (hv : v ∈ w)
    (hy : ReflTransGen (fun a b => b ∈ next a) v y) :
    y ∈ w ∨ ∃ z, S z ∧ ReflTransGen (fun a b => b ∈ next a) z y := by
  induction hy with
  | refl => exact .inl hv
  | @tail b c _ hbc ih =>
    rcases ih with hb | ⟨z, hz, hzb⟩
    · rcases h b hb with hb | ⟨-, hp⟩
      · exact absurd hb not_mem_nil
      · exact (hp c hbc).elim (fun hS => .inr ⟨c, hS, .refl⟩) .inl
    · exact .inr ⟨z, hz, hzb.tail hbc⟩

theorem tour_reaches (hnodes : ∀ a ∈ nodes, ∀ b ∈ next a, b ∈ nodes)
    (hvisit : ∀ s p, I s → I (visit s p).2 ∧ ((visit s p).1 = .ok → K p) ∧
      ((visit s p).1 = .skip → S p)) {v y : α} {s : σ} (hs : I s) (hv : v ∈ nodes)
    (hex : (Tour.walk next visit nodes.length v { state := s }).exited = false)
    (hy : ReflTransGen (fun a b => b ∈ next a) v y) :
    (y = v ∨ K y) ∨ ∃ z, S z ∧ ReflTransGen (fun a b => b ∈ next a) z y := by
  have hw := walk_went (K := fun u => u = v ∨ K u) hnodes
    (fun s p hs => ⟨(hvisit s p hs).1, fun h => .inr ((hvisit s p hs).2.1 h),
      (hvisit s p hs).2.2⟩) nodes.length v { state := s } hs (.inl rfl) hv countP_le_length
  obtain ⟨hvw, hcl⟩ := hw.closed hex
  refine (hcl.reaches hvw hy).imp_left fun hyw => ?_
  rcases hcl y hyw with h | ⟨hK, -⟩
  · exact absurd h not_mem_nil
  · exact hK

end Spec

end Fiss
