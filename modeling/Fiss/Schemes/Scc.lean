import Fiss.Schemes.Dict
import Fiss.Schemes.Reach

/-! Strongly connected components by Tarjan's walk, as one call of it from one vertex: every vertex
    gets an index when it is entered, `low` is the smallest index on the stack its part of the walk
    has come across, and a vertex that leaves with `low` equal to its index takes its component off
    the stack.

    `Inv` holds between calls, `Ext` says what the call on `v` has done so far, and `mem_component`
    is the result: the walk from `v` returns the vertices that `v` reaches and that reach `v`, `v`
    last. -/

namespace Fiss
open Relation List Option Dict

variable {α : Type} [DecidableEq α]

/-- The maps, the counter and the stack of the walk, the last vertex pushed first. -/
structure Walk (α : Type) where
  indexes : Dict α ℕ := {}
  lowlinks : Dict α ℕ := {}
  index : ℕ := 0
  stack : List α := []

namespace Walk

/-- The index of `v` was given. -/
def Seen (w : Walk α) (v : α) : Prop := (w.indexes.find v).isSome = true

instance (w : Walk α) (v : α) : Decidable (w.Seen v) := inferInstanceAs (Decidable (_ = true))

def idx (w : Walk α) (v : α) : ℕ := (w.indexes.find v).getD 0

def low (w : Walk α) (v : α) : ℕ := (w.lowlinks.find v).getD 0

/-- `v` gets the next index and goes on the stack. -/
def enter (w : Walk α) (v : α) : Walk α where
  indexes := w.indexes.set v w.index
  lowlinks := w.lowlinks.set v w.index
  index := w.index + 1
  stack := v :: w.stack

/-- `lowlinks[v] = min(lowlinks[v], k)`. -/
def lower (w : Walk α) (v : α) (k : ℕ) : Walk α :=
  { w with lowlinks := w.lowlinks.set v (min (w.low v) k) }

/-- Look at the successor `p` of `v`, with `call` for the recursive call. -/
def look (call : α → Walk α → Walk α) (v : α) (w : Walk α) (p : α) : Walk α :=
  if w.Seen p then
    if p ∈ w.stack then w.lower v (w.idx p) else w
  else (call p w).lower v ((call p w).low p)

end Walk

/-- Pop down to `v`, which is popped as well: what came off, in that order, and what is left. -/
def popUntil (v : α) : List α → List α × List α
  | [] => ([], [])
  | a :: l => if a = v then ([a], l) else (a :: (popUntil v l).1, (popUntil v l).2)

/-- The walk at `v`, `n` calls deep at most: the state it leaves and the component it took off. -/
def strongConnect (next : α → List α) : ℕ → α → Walk α → Walk α × List α
  | 0, _, w => (w, [])
  | n + 1, v, w =>
    let w := (next v).foldl (Walk.look (fun p w => (strongConnect next n p w).1) v) (w.enter v)
    if w.low v = w.idx v then
      ({ w with stack := (popUntil v w.stack).2 }, (popUntil v w.stack).1)
    else (w, [])

/-- What the walk takes off at `v` when it starts there. -/
def component (next : α → List α) (n : ℕ) (v : α) : List α := (strongConnect next n v {}).2

theorem popUntil_append {v : α} : ∀ {l l' : List α}, v ∉ l →
    popUntil v (l ++ v :: l') = (l ++ [v], l')
  | [], _, _ => by rw [nil_append, popUntil, if_pos rfl, nil_append]
  | a :: l, l', h => by
    obtain ⟨ha, hl⟩ := not_or.mp (mt mem_cons.mpr h)
    rw [cons_append, popUntil, if_neg (Ne.symm ha), popUntil_append hl, cons_append]

namespace Walk

variable {w : Walk α} {v x y : α} {k : ℕ}

theorem find_enter : (w.enter v).indexes.find x = if x = v then some w.index else w.indexes.find x :=
  find_set ..

theorem seen_enter : (w.enter v).Seen x ↔ x = v ∨ w.Seen x := by
  rw [Seen, find_enter]
  split
  · next hx => simp [hx]
  · next hx => simp [hx, Seen]

theorem idx_enter_self : (w.enter v).idx v = w.index := by
  rw [idx, find_enter, if_pos rfl, getD_some]

theorem idx_congr {w' : Walk α} (h : w'.indexes.find x = w.indexes.find x) : w'.idx x = w.idx x := by
  rw [idx, idx, h]

theorem seen_congr {w' : Walk α} (h : w'.indexes.find x = w.indexes.find x) :
    w'.Seen x ↔ w.Seen x := by
  rw [Seen, Seen, h]

theorem low_enter_self : (w.enter v).low v = w.index := by
  rw [low, enter, find_set_self, getD_some]

theorem low_lower_self : (w.lower v k).low v = min (w.low v) k := by
  rw [low, lower, find_set_self, getD_some]

theorem lowlinks_lower (hx : x ≠ v) : (w.lower v k).lowlinks.find x = w.lowlinks.find x := by
  rw [lower, find_set_ne _ hx]

/-! ### What holds between two calls -/

/-- `act` are the vertices whose calls have not returned. What is on the stack reaches one of them
    below it, and what left the stack leads nowhere but to what left it. -/
structure Inv (next : α → List α) (act : α → Prop) (w : Walk α) : Prop where
  sorted : w.stack.Pairwise fun a b => w.idx b < w.idx a
  below : ∀ x, w.Seen x → w.idx x < w.index
  seen : ∀ x ∈ w.stack, w.Seen x
  active : ∀ x, act x → w.Seen x
  grounded : ∀ y ∈ w.stack, ∃ x ∈ w.stack, act x ∧ w.idx x ≤ w.idx y ∧
    ReflTransGen (fun a b => b ∈ next a) y x
  left : ∀ x, w.Seen x → ¬ act x → ∀ y ∈ next x, w.Seen y
  closed : ∀ x, w.Seen x → x ∉ w.stack → ∀ y ∈ next x, w.Seen y ∧ y ∉ w.stack

/-- What the call on `v` from `w0` has done by `w`, when it has looked at the successors `ps`. -/
structure Ext (next : α → List α) (ps : List α) (v : α) (w0 w : Walk α) : Prop where
  find : ∀ x, w0.Seen x → w.indexes.find x = w0.indexes.find x
  low : ∀ x, w0.Seen x → w.lowlinks.find x = w0.lowlinks.find x
  own : w.indexes.find v = some w0.index
  low_le : w.low v ≤ w0.index
  lowest : w.low v < w0.index → ∃ z ∈ w0.stack, w0.idx z = w.low v ∧
    ReflTransGen (fun a b => b ∈ next a) v z
  reached : ∀ x, w.Seen x → w0.Seen x ∨
    w0.index ≤ w.idx x ∧ ReflTransGen (fun a b => b ∈ next a) v x
  mono : w0.index ≤ w.index
  suffix : w0.stack <:+ w.stack
  fresh : ∀ y ∈ w.stack, w0.Seen y → y ∈ w0.stack
  edges : ∀ y ∈ w.stack, ¬ w0.Seen y → ∀ z ∈ next y, (y = v → z ∈ ps) → z ∈ w0.stack →
    w.low v ≤ w0.idx z
  looked : ∀ p ∈ ps, w.Seen p

namespace Ext

variable {next : α → List α} {ps : List α} {w0 : Walk α}

section
variable (h : Ext next ps v w0 w)
include h

theorem idx_eq (hx : w0.Seen x) : w.idx x = w0.idx x :=
  idx_congr (h.find x hx)

theorem seen (hx : w0.Seen x) : w.Seen x :=
  (seen_congr (h.find x hx)).mpr hx

theorem seen_self : w.Seen v := by
  rw [Seen, h.own, isSome_some]

theorem idx_self : w.idx v = w0.index := by
  rw [idx, h.own, getD_some]

end

end Ext

variable {next : α → List α} {act : α → Prop} {w0 : Walk α}

theorem ext_enter (hw : Inv next act w) (hv : ¬ w.Seen v) : Ext next [] v w (w.enter v) where
  find x hx := by rw [find_enter, if_neg (by rintro rfl; exact hv hx)]
  low x hx := by rw [enter, find_set_ne _ (by rintro rfl; exact hv hx)]
  own := by rw [find_enter, if_pos rfl]
  low_le := low_enter_self.le
  lowest h := absurd h (by rw [low_enter_self]; exact lt_irrefl _)
  reached x hx := by
    rcases seen_enter.mp hx with rfl | hx
    · exact .inr ⟨idx_enter_self.ge, .refl⟩
    · exact .inl hx
  mono := Nat.le_succ _
  suffix := suffix_cons v w.stack
  fresh y hy hs := (mem_cons.mp hy).resolve_left fun h => hv (h ▸ hs)
  edges y hy hs z _ hz _ := by
    rcases mem_cons.mp hy with rfl | hy
    · exact absurd (hz rfl) not_mem_nil
    · exact absurd (hw.seen y hy) hs
  looked := forall_mem_nil _

theorem inv_enter (hw : Inv next act w) (hv : ¬ w.Seen v) :
    Inv next (fun x => act x ∨ x = v) (w.enter v) := by
  have hE := ext_enter hw hv
  have hlt : ∀ x, w.Seen x → (w.enter v).idx x < (w.enter v).idx v := fun x hx => by
    rw [hE.idx_eq hx, hE.idx_self]; exact hw.below x hx
  refine ⟨?_, fun x hx => ?_, fun x hx => ?_, fun x hx => ?_, fun y hy => ?_,
    fun x hx ha y hy => ?_, fun x hx hs y hy => ?_⟩
  · refine pairwise_cons.mpr ⟨fun x hx => hlt x (hw.seen x hx), ?_⟩
    refine hw.sorted.imp_of_mem fun {a b} ha hb hab => ?_
    rw [hE.idx_eq (hw.seen a ha), hE.idx_eq (hw.seen b hb)]; exact hab
  · rcases seen_enter.mp hx with rfl | hx
    · rw [hE.idx_self]; exact Nat.lt_succ_self _
    · rw [hE.idx_eq hx]; exact (hw.below x hx).trans (Nat.lt_succ_self _)
  · exact forall_mem_cons.mpr ⟨hE.seen_self, fun x hx => hE.seen (hw.seen x hx)⟩ x hx
  · rcases hx with hx | rfl
    · exact hE.seen (hw.active x hx)
    · exact hE.seen_self
  · rcases mem_cons.mp hy with rfl | hy
    · exact ⟨y, mem_cons_self, .inr rfl, le_rfl, .refl⟩
    · obtain ⟨x, hx, ha, hle, hr⟩ := hw.grounded y hy
      refine ⟨x, mem_cons_of_mem _ hx, .inl ha, ?_, hr⟩
      rw [hE.idx_eq (hw.seen x hx), hE.idx_eq (hw.seen y hy)]; exact hle
  · obtain ⟨ha, hne⟩ := not_or.mp ha
    exact hE.seen (hw.left x ((seen_enter.mp hx).resolve_left hne) ha y hy)
  · obtain ⟨hne, hs⟩ := not_or.mp (mt mem_cons.mpr hs)
    obtain ⟨hy, hys⟩ := hw.closed x ((seen_enter.mp hx).resolve_left hne) hs y hy
    exact ⟨hE.seen hy, fun h => hys ((mem_cons.mp h).resolve_left fun h => hv (h ▸ hy))⟩

/-! ### The loop over the successors -/

/-- The call on `v` from `w0` in its loop, the successors `ps` behind it. -/
structure Loop (next : α → List α) (act : α → Prop) (ps : List α) (v : α) (w0 w : Walk α) : Prop
    extends Ext next ps v w0 w where
  start : Inv next act w0
  new : ¬ w0.Seen v
  inv : Inv next (fun x => act x ∨ x = v) w
  bottom : v :: w0.stack <:+ w.stack

theorem Inv.lower (h : Inv next act w) (v : α) (k : ℕ) : Inv next act (w.lower v k) :=
  ⟨h.sorted, h.below, h.seen, h.active, h.grounded, h.left, h.closed⟩

variable {ps : List α} {p : α}

theorem Ext.old_of_idx_lt (h : Ext next ps v w0 w) (hw : Inv next act w) (hx : x ∈ w.stack)
    (hlt : w.idx x < w0.index) : x ∈ w0.stack ∧ w0.idx x = w.idx x := by
  rcases h.reached x (hw.seen x hx) with hs | ⟨hge, -⟩
  · exact ⟨h.fresh x hx hs, (h.idx_eq hs).symm⟩
  · exact absurd hlt (not_lt.mpr hge)

theorem loop_onStack (h : Loop next act ps v w0 w) (hp : p ∈ next v) (hs : p ∈ w.stack) :
    Loop next act (ps ++ [p]) v w0 (w.lower v (w.idx p)) where
  find := h.find
  low x hx := by rw [lowlinks_lower (by rintro rfl; exact h.new hx)]; exact h.low x hx
  own := h.own
  low_le := by rw [low_lower_self]; exact (min_le_left _ _).trans h.low_le
  lowest hlt := by
    rw [low_lower_self] at hlt ⊢
    rcases le_total (w.low v) (w.idx p) with hle | hle
    · rw [min_eq_left hle] at hlt ⊢; exact h.lowest hlt
    · rw [min_eq_right hle] at hlt ⊢
      obtain ⟨hold, hidx⟩ := h.old_of_idx_lt h.inv hs hlt
      exact ⟨p, hold, hidx, .single hp⟩
  reached := h.reached
  mono := h.mono
  suffix := h.suffix
  fresh := h.fresh
  edges y hy hy0 z hz hps hz0 := by
    rw [low_lower_self]
    by_cases hold : y = v → z ∈ ps
    · exact (min_le_left _ _).trans (h.edges y hy hy0 z hz hold hz0)
    · obtain ⟨rfl, hnot⟩ := Classical.not_imp.mp hold
      obtain rfl := mem_singleton.mp ((mem_append.mp (hps rfl)).resolve_left hnot)
      rw [← h.idx_eq (h.start.seen z hz0)]
      exact min_le_right _ _
  looked := forall_mem_append.mpr ⟨h.looked, forall_mem_singleton.mpr (h.inv.seen p hs)⟩
  start := h.start
  new := h.new
  inv := h.inv.lower v _
  bottom := h.bottom

theorem loop_popped (h : Loop next act ps v w0 w) (hp : w.Seen p) (hs : p ∉ w.stack) :
    Loop next act (ps ++ [p]) v w0 w where
  toExt := { h.toExt with
    edges := fun y hy hy0 z hz hps hz0 => h.edges y hy hy0 z hz (fun hyv =>
      (mem_append.mp (hps hyv)).resolve_right fun hzp =>
        hs (mem_singleton.mp hzp ▸ h.suffix.subset hz0)) hz0
    looked := forall_mem_append.mpr ⟨h.looked, forall_mem_singleton.mpr hp⟩ }
  start := h.start
  new := h.new
  inv := h.inv
  bottom := h.bottom

/-- A successor met for the first time: `v` is lowered to what its call brought back. -/
theorem loop_call (h : Loop next act ps v w0 w) (hp : p ∈ next v) (hns : ¬ w.Seen p) {w1 : Walk α}
    (hE : Ext next (next p) p w w1) (hw1 : Inv next (fun x => act x ∨ x = v) w1) :
    Loop next act (ps ++ [p]) v w0 (w1.lower v (w1.low p)) := by
  have hlow : w1.low v = w.low v := by rw [Walk.low, Walk.low, hE.low v h.seen_self]
  have hold : ∀ z ∈ w0.stack, z ∈ w.stack := fun z hz => h.suffix.subset hz
  refine
    { find := fun x hx => (hE.find x (h.seen hx)).trans (h.find x hx)
      low := fun x hx => ?_
      own := (hE.find v h.seen_self).trans h.own
      low_le := ?_
      lowest := fun hlt => ?_
      reached := fun x hx => ?_
      mono := h.mono.trans hE.mono
      suffix := h.suffix.trans hE.suffix
      fresh := fun y hy hs => h.fresh y (hE.fresh y hy (h.seen hs)) hs
      edges := fun y hy hy0 z hz hps hz0 => ?_
      looked := fun q hq => ?_
      start := h.start
      new := h.new
      inv := hw1.lower v _
      bottom := h.bottom.trans hE.suffix }
  · rw [lowlinks_lower (by rintro rfl; exact h.new hx), hE.low x (h.seen hx)]; exact h.low x hx
  · rw [low_lower_self, hlow]; exact (min_le_left _ _).trans h.low_le
  · rw [low_lower_self, hlow] at hlt ⊢
    rcases le_total (w.low v) (w1.low p) with hle | hle
    · rw [min_eq_left hle] at hlt ⊢; exact h.lowest hlt
    · rw [min_eq_right hle] at hlt ⊢
      obtain ⟨z, hz, hidx, hr⟩ := hE.lowest (hlt.trans_le h.mono)
      obtain ⟨hz0, hidx0⟩ := h.old_of_idx_lt h.inv hz (hidx.trans_lt hlt)
      exact ⟨z, hz0, hidx0.trans hidx, hr.head hp⟩
  · rcases hE.reached x hx with hs | ⟨hge, hr⟩
    · rcases h.reached x hs with hs0 | ⟨hge, hr⟩
      · exact .inl hs0
      · exact .inr ⟨hge.trans (hE.idx_eq hs).ge, hr⟩
    · exact .inr ⟨h.mono.trans hge, hr.head hp⟩
  · rw [low_lower_self, hlow]
    by_cases hs : w.Seen y
    · refine (min_le_left _ _).trans (h.edges y (hE.fresh y hy hs) hy0 z hz (fun hyv => ?_) hz0)
      refine (mem_append.mp (hps hyv)).resolve_right fun hzp => hns ?_
      rw [← mem_singleton.mp hzp]
      exact h.inv.seen z (hold z hz0)
    · rw [← h.idx_eq (h.start.seen z hz0)]
      exact (min_le_right _ _).trans (hE.edges y hy hs z hz (fun hyp => hyp ▸ hz) (hold z hz0))
  · exact forall_mem_append.mpr
      ⟨fun q hq => hE.seen (h.looked q hq), forall_mem_singleton.mpr hE.seen_self⟩ q hq

/-- How many of `nodes` have no index yet: the depth the walk can still reach. -/
def unseen (nodes : List α) (w : Walk α) : ℕ := nodes.countP fun x => ¬ w.Seen x

theorem unseen_lt {nodes : List α} (h : Ext next ps v w0 w) (hv : v ∈ nodes) (hnew : ¬ w0.Seen v) :
    unseen nodes w < unseen nodes w0 := by
  refine countP_lt_countP hv (fun x hx => ?_) ?_ ?_
  · rw [decide_eq_true_iff] at hx ⊢; exact mt h.seen hx
  · rw [decide_eq_false_iff_not, not_not]; exact h.seen_self
  · rw [decide_eq_true_iff]; exact hnew

/-- `call` does what a call on an unseen vertex should, as long as few vertices are unseen. -/
def Calls (next : α → List α) (nodes : List α) (n : ℕ) (call : α → Walk α → Walk α) : Prop :=
  ∀ p w act, p ∈ nodes → ¬ w.Seen p → Inv next act w → unseen nodes w ≤ n →
    Ext next (next p) p w (call p w) ∧ Inv next act (call p w)

theorem loop_foldl {nodes : List α} {n : ℕ} {call : α → Walk α → Walk α}
    (hcall : Calls next nodes n call) (hnext : ∀ p ∈ next v, p ∈ nodes) (hv : v ∈ nodes)
    (hw : Inv next act w0) (hnew : ¬ w0.Seen v) (hn : unseen nodes w0 ≤ n + 1) :
    ∀ ps : List α, (∀ p ∈ ps, p ∈ next v) →
      Loop next act ps v w0 (ps.foldl (look call v) (w0.enter v)) := by
  intro ps
  induction ps using List.reverseRecOn with
  | nil => exact fun _ => ⟨ext_enter hw hnew, hw, hnew, inv_enter hw hnew, suffix_rfl⟩
  | append_singleton ps p ih =>
    intro hps
    have hp : p ∈ next v := hps p (mem_append_right _ (mem_singleton_self p))
    have h := ih fun q hq => hps q (mem_append_left _ hq)
    rw [foldl_append, foldl_cons, foldl_nil, look]
    split
    · next hs =>
      split
      · next hmem => exact loop_onStack h hp hmem
      · next hmem => exact loop_popped h hs hmem
    · next hs =>
      have hlt := unseen_lt h.toExt hv hnew
      obtain ⟨hE, hI⟩ := hcall p _ _ (hnext p hp) hs h.inv (by omega)
      exact loop_call h hp hs hE hI

/-! ### Leaving a vertex -/

theorem Loop.popUntil_eq (h : Loop next act ps v w0 w) :
    ∃ l, v ∉ l ∧ w.stack = l ++ v :: w0.stack ∧ popUntil v w.stack = (l ++ [v], w0.stack) := by
  obtain ⟨l, hl⟩ := h.bottom
  have hv : v ∉ l := fun hmem => by
    have hsorted := h.inv.sorted
    rw [← hl, pairwise_append] at hsorted
    exact lt_irrefl _ (hsorted.2.2 v hmem v mem_cons_self)
  exact ⟨l, hv, hl.symm, by rw [← hl, popUntil_append hv]⟩

theorem loop_pop (h : Loop next act (next v) v w0 w) (hlow : w.low v = w.idx v) :
    Ext next (next v) v w0 { w with stack := w0.stack } ∧
      Inv next act { w with stack := w0.stack } := by
  have hseen : ∀ x ∈ w0.stack, w0.Seen x := h.start.seen
  refine ⟨{ h.toExt with
    suffix := suffix_rfl
    fresh := fun y hy _ => hy
    edges := fun y hy hy0 => absurd (hseen y hy) hy0 }, ?_⟩
  refine
    { sorted := h.inv.sorted.sublist h.suffix.sublist
      below := h.inv.below
      seen := fun x hx => h.seen (hseen x hx)
      active := fun x hx => h.seen (h.start.active x hx)
      grounded := fun y hy => ?_
      left := fun x hx ha y hy => ?_
      closed := fun x hx hs y hy => ?_ }
  · obtain ⟨x, hx, ha, hle, hr⟩ := h.start.grounded y hy
    exact ⟨x, hx, ha, (h.idx_eq (hseen x hx)).le.trans (hle.trans (h.idx_eq (hseen y hy)).ge), hr⟩
  · rcases eq_or_ne x v with rfl | hxv
    · exact h.looked y hy
    · exact h.inv.left x hx (not_or.mpr ⟨ha, hxv⟩) y hy
  · by_cases hxs : x ∈ w.stack
    · have hx0 : ¬ w0.Seen x := fun h0 => hs (h.fresh x hxs h0)
      refine ⟨?_, fun hy0 => ?_⟩
      · rcases eq_or_ne x v with rfl | hxv
        · exact h.looked y hy
        · exact h.inv.left x hx (not_or.mpr ⟨fun ha => hx0 (h.start.active x ha), hxv⟩) y hy
      · have hle := h.edges x hxs hx0 y hy (fun hxv => hxv ▸ hy) hy0
        have hlt := h.start.below y (hseen y hy0)
        rw [hlow, h.idx_self] at hle
        omega
    · obtain ⟨hys, hyn⟩ := h.inv.closed x hx hxs y hy
      exact ⟨hys, fun hy0 => hyn (h.suffix.subset hy0)⟩

theorem loop_keep (h : Loop next act (next v) v w0 w) (hlow : w.low v ≠ w.idx v) :
    Inv next act w := by
  refine ⟨h.inv.sorted, h.inv.below, h.inv.seen, fun x hx => h.inv.active x (.inl hx),
    fun y hy => ?_, fun x hx ha y hy => ?_, h.inv.closed⟩
  · obtain ⟨x, hx, ha | rfl, hle, hr⟩ := h.inv.grounded y hy
    · exact ⟨x, hx, ha, hle, hr⟩
    · rw [h.idx_self] at hlow hle
      have hlt : w.low x < w0.index := lt_of_le_of_ne h.low_le hlow
      obtain ⟨z, hz, hidx, hxz⟩ := h.lowest hlt
      obtain ⟨a, ha0, ha, haz, hza⟩ := h.start.grounded z hz
      refine ⟨a, h.suffix.subset ha0, ha, ?_, (hr.trans hxz).trans hza⟩
      rw [h.idx_eq (h.start.seen a ha0)]
      omega
  · rcases eq_or_ne x v with rfl | hxv
    · exact h.looked y hy
    · exact h.inv.left x hx (not_or.mpr ⟨ha, hxv⟩) y hy

end Walk

/-! ### The walk -/

section
open Walk

variable {next : α → List α} {nodes : List α}

theorem strongConnect_calls (hnodes : ∀ a ∈ nodes, ∀ b ∈ next a, b ∈ nodes) :
    ∀ n, Calls next nodes n fun p w => (strongConnect next n p w).1
  | 0 => fun p w _ hp hs _ hn => by
    have hpos : 0 < unseen nodes w := countP_pos_iff.mpr ⟨p, hp, decide_eq_true hs⟩
    omega
  | n + 1 => fun p w act hp hs hw hn => by
    have h := loop_foldl (strongConnect_calls hnodes n) (hnodes p hp) hp hw hs hn (next p)
      fun _ hq => hq
    simp only [strongConnect]
    split
    · next hlow =>
      obtain ⟨l, -, -, hpop⟩ := h.popUntil_eq
      rw [hpop]
      exact loop_pop h hlow
    · next hlow => exact ⟨h.toExt, loop_keep h hlow⟩

theorem inv_start : Inv next (fun _ => False) ({} : Walk α) where
  sorted := .nil
  below _ hx := by cases hx
  seen _ hx := by cases hx
  active _ hx := hx.elim
  grounded _ hy := by cases hy
  left _ hx := by cases hx
  closed _ hx := by cases hx

section
variable (hnodes : ∀ a ∈ nodes, ∀ b ∈ next a, b ∈ nodes)
include hnodes

theorem component_eq {v : α} (hv : v ∈ nodes) :
    ∃ w l, Loop next (fun _ => False) (next v) v {} w ∧ v ∉ l ∧ w.stack = l ++ [v] ∧
      component next nodes.length v = l ++ [v] := by
  obtain ⟨n, hn⟩ : ∃ n, nodes.length = n + 1 :=
    Nat.exists_eq_add_one.mpr (length_pos_of_mem hv)
  have hnew : ¬ ({} : Walk α).Seen v := Bool.false_ne_true
  have h := loop_foldl (strongConnect_calls hnodes n) (hnodes v hv) hv inv_start hnew
    (hn ▸ countP_le_length) (next v) fun _ hq => hq
  obtain ⟨l, hl, hstack, hpop⟩ := h.popUntil_eq
  refine ⟨_, l, h, hl, hstack, ?_⟩
  -- the first vertex has index 0, and nothing is lower
  have hlow := Nat.le_zero.mp h.low_le
  rw [component, hn, strongConnect, hlow, h.idx_self, if_pos rfl, hpop]

theorem mem_component {v x : α} (hv : v ∈ nodes) : x ∈ component next nodes.length v ↔
      ReflTransGen (fun a b => b ∈ next a) v x ∧ ReflTransGen (fun a b => b ∈ next a) x v := by
  obtain ⟨w, l, h, -, hstack, heq⟩ := component_eq hnodes hv
  rw [heq, ← hstack]
  constructor
  · intro hx
    obtain ⟨a, -, ha | rfl, -, hr⟩ := h.inv.grounded x hx
    · exact ha.elim
    · rcases h.reached x (h.inv.seen x hx) with hs | ⟨-, hvx⟩
      · cases hs
      · exact ⟨hvx, hr⟩
  · rintro ⟨hvx, hxv⟩
    have hseen : w.Seen x := by
      induction hvx with
      | refl => exact h.seen_self
      | @tail b c _ hbc ih =>
        rcases eq_or_ne b v with rfl | hb
        · exact h.looked c hbc
        · exact h.inv.left b (ih (hxv.head hbc)) (not_or.mpr ⟨id, hb⟩) c hbc
    -- had `x` left the stack, so would everything it reaches, `v` among it
    by_contra hx
    have hout : ∀ y, ReflTransGen (fun a b => b ∈ next a) x y → w.Seen y ∧ y ∉ w.stack := by
      intro y hy
      induction hy with
      | refl => exact ⟨hseen, hx⟩
      | tail _ hbc ih => exact h.inv.closed _ ih.1 ih.2 _ hbc
    exact (hout v hxv).2 (h.bottom.subset mem_cons_self)

theorem nodup_component {v : α} (hv : v ∈ nodes) : (component next nodes.length v).Nodup := by
  obtain ⟨w, l, h, -, hstack, heq⟩ := component_eq hnodes hv
  rw [heq, ← hstack]
  refine List.Pairwise.imp (fun {a b} hlt => ?_) h.inv.sorted
  rintro rfl
  exact lt_irrefl _ hlt

theorem getLast_component {v : α}
    (hv : v ∈ nodes) : (component next nodes.length v).getLast? = some v := by
  obtain ⟨-, l, -, -, -, heq⟩ := component_eq hnodes hv
  rw [heq, getLast?_concat]

end

end

end Fiss
