import Mathlib

/-! The keys under which tables are filled (`deptran/sharding.cc`): a map from positions to numbers
    below a bound is counted up, the lowest position first or, in the reverse form, the highest.
    Positions that are bound together count as the first of them: the others are taken out, and come
    back as its copies. The numbers are the digits of how often it was called. -/

namespace Fiss.Sharding
open List Function

/-- `index`: the positions that it has, and under each the current number and its bound. -/
structure Index where
  positions : Finset ℕ
  entry : ℕ → ℕ × ℕ

def initIndex (m : Index) : Index := { m with entry := fun p => (0, (m.entry p).2) }

/-- The loop over the positions; `false` is the return of -1 at the end. Its `verify` asks that a
    number above its bound is equal to it, which is so as long as the numbers stay below. -/
def increase : List ℕ → (ℕ → ℕ × ℕ) → Bool × (ℕ → ℕ × ℕ)
  | [], f => (false, f)
  | p :: ps, f =>
    if (f p).1 + 1 < (f p).2 then (true, update f p ((f p).1 + 1, (f p).2))
    else increase ps (update f p ((f p).1 + 1 - (f p).2, (f p).2))

/-- From `begin()`, or from `rbegin()`. -/
def walk (rev : Bool) (s : Finset ℕ) : List ℕ :=
  if rev then (s.sort (· ≤ ·)).reverse else s.sort (· ≤ ·)

/-- `index_increase` or, with `rev`, `index_reverse_increase`, without bound positions. -/
def count (rev : Bool) (m : Index) : Bool × Index :=
  let r := increase (walk rev m.positions) m.entry
  (r.1, { m with entry := r.2 })

/-- The same with a list of bound positions: all but the first are erased before, and get what is
    under the first after. -/
def indexIncrease (rev : Bool) (bound : List ℕ) (m : Index) : Bool × Index :=
  if bound.length ≤ 1 then count rev m
  else
    let r := count rev { m with positions := m.positions \ bound.tail.toFinset }
    (r.1, ⟨r.2.positions ∪ bound.tail.toFinset,
      fun p => if p ∈ bound.tail then r.2.entry (bound.headD 0) else r.2.entry p⟩)

/-! ### Digits -/

section Digits
variable {b : ℕ → ℕ}

/-- The digit of `k` at `q`, for the bounds of `ps` as bases. -/
def digit (b : ℕ → ℕ) : List ℕ → ℕ → ℕ → ℕ
  | [], _, _ => 0
  | p :: ps, k, q => if q = p then k % b p else digit b ps (k / b p) q

@[simp] theorem digit_zero : ∀ (ps : List ℕ) (q : ℕ), digit b ps 0 q = 0
  | [], _ => rfl
  | p :: ps, q => by simp [digit, digit_zero ps]

theorem digit_lt {q : ℕ} (hq : 0 < b q) : ∀ {ps : List ℕ} {k : ℕ}, digit b ps k q < b q
  | [], _ => hq
  | p :: ps, k => by
    rw [digit]
    split
    · next h => rw [← h]; exact Nat.mod_lt k hq
    · exact digit_lt hq

theorem digit_prod (q : ℕ) : ∀ {ps : List ℕ}, (∀ p ∈ ps, 0 < b p) → digit b ps (ps.map b).prod q = 0
  | [], _ => rfl
  | p :: ps, h => by
    obtain ⟨hp, hps⟩ := forall_mem_cons.mp h
    simp [digit, Nat.mul_div_cancel_left _ hp, digit_prod q hps]

theorem digit_inj : ∀ {ps : List ℕ} {i j : ℕ}, ps.Nodup →
    (∀ p ∈ ps, digit b ps i p = digit b ps j p) → i < (ps.map b).prod → j < (ps.map b).prod → i = j
  | [], i, j, _, _, hi, hj => by simp_all
  | p :: ps, i, j, hnodup, h, hi, hj => by
    obtain ⟨hp, hps⟩ := forall_mem_cons.mp h
    obtain ⟨hnot, hnodup⟩ := nodup_cons.mp hnodup
    rw [map_cons, prod_cons] at hi hj
    have hdiv : i / b p = j / b p := by
      refine digit_inj hnodup (fun q hq => ?_) (Nat.div_lt_of_lt_mul hi) (Nat.div_lt_of_lt_mul hj)
      simpa [digit, ne_of_mem_of_not_mem hq hnot] using hps q hq
    have hmod : i % b p = j % b p := by simpa [digit] using hp
    rw [← Nat.div_add_mod i (b p), hdiv, hmod, Nat.div_add_mod]

/-- The loop goes from the digits of `k` to those of `k + 1`, and comes to the end if they are 0. -/
theorem increase_digit : ∀ {ps : List ℕ} {f : ℕ → ℕ × ℕ} {k : ℕ}, ps.Nodup →
    (∀ p ∈ ps, 0 < b p) → (∀ p ∈ ps, f p = (digit b ps k p, b p)) →
    ((increase ps f).1 = true ↔ ¬ (ps.map b).prod ∣ k + 1) ∧
      (∀ p ∈ ps, (increase ps f).2 p = (digit b ps (k + 1) p, b p)) ∧
      ∀ p ∉ ps, (increase ps f).2 p = f p
  | [], f, k, _, _, _ => by simp [increase]
  | p :: ps, f, k, hnodup, hpos, hf => by
    obtain ⟨hp, hps⟩ := forall_mem_cons.mp hpos
    obtain ⟨hnot, hnodup⟩ := nodup_cons.mp hnodup
    obtain ⟨hfp, hfs⟩ := forall_mem_cons.mp hf
    have hother : ∀ q ∈ ps, ∀ n, digit b (p :: ps) n q = digit b ps (n / b p) q := fun q hq n =>
      if_neg (ne_of_mem_of_not_mem hq hnot)
    have hself : ∀ n, digit b (p :: ps) n p = n % b p := fun n => if_pos rfl
    have hupdate : ∀ q ∈ ps, ∀ x, update f p x q = (digit b ps (k / b p) q, b q) := fun q hq x => by
      rw [update_of_ne (ne_of_mem_of_not_mem hq hnot), hfs q hq, hother q hq]
    rw [map_cons, prod_cons, increase, hfp, hself]
    have hk := Nat.mod_add_div k (b p)
    have hlt := Nat.mod_lt k hp
    split
    · next hroom =>
      obtain ⟨hdiv, hmod⟩ := (Nat.div_mod_unique hp).mpr
        ⟨show k % b p + 1 + b p * (k / b p) = k + 1 by omega, hroom⟩
      refine ⟨iff_of_true rfl fun h => ?_, forall_mem_cons.mpr ⟨?_, fun q hq => ?_⟩,
        fun q hq => update_of_ne (ne_of_not_mem_cons hq) _ f⟩
      · have hzero := Nat.mod_eq_zero_of_dvd (dvd_of_mul_right_dvd h)
        omega
      · rw [hself, hmod]
        exact update_self p _ f
      · rw [hother q hq, hdiv]
        exact hupdate q hq _
    · next hfull =>
      -- the digit becomes 0 and the rest is counted up
      obtain ⟨hdiv, hmod⟩ := (Nat.div_mod_unique hp).mpr
        ⟨show 0 + b p * (k / b p + 1) = k + 1 by rw [Nat.mul_add_one]; omega, hp⟩
      obtain ⟨hret, hin, hout⟩ := increase_digit hnodup hps fun q hq => hupdate q hq (0, b p)
      rw [show k % b p + 1 - b p = 0 by omega]
      rw [← hdiv] at hret hin
      refine ⟨hret.trans (not_congr (Nat.dvd_div_iff_mul_dvd (Nat.dvd_of_mod_eq_zero hmod))),
        forall_mem_cons.mpr ⟨?_, fun q hq => ?_⟩, fun q hq => ?_⟩
      · rw [hout p hnot, update_self, hself, hmod]
      · rw [hin q hq, hother q hq]
      · rw [hout q (mt (mem_cons_of_mem p) hq), update_of_ne (ne_of_not_mem_cons hq)]

end Digits

/-! ### Runs -/

section Runs

variable {rev : Bool} {bound : List ℕ} {m : Index} {k : ℕ}

theorem nodup_walk (rev : Bool) (s : Finset ℕ) : (walk rev s).Nodup := by
  cases rev <;> simp [walk]

theorem mem_walk {s : Finset ℕ} {p : ℕ} : p ∈ walk rev s ↔ p ∈ s := by
  cases rev <;> simp [walk]

theorem prod_walk (rev : Bool) (b : ℕ → ℕ) (s : Finset ℕ) :
    ((walk rev s).map b).prod = ∏ p ∈ s, b p := by
  rw [← prod_toFinset _ (nodup_walk rev s)]
  congr 1
  ext p
  rw [mem_toFinset, mem_walk]

/-- The positions that are counted: of the bound ones the first only. -/
def free (bound : List ℕ) (m : Index) : Finset ℕ := m.positions \ bound.tail.toFinset

/-- The state before the call with number `k`. -/
def visited (rev : Bool) (bound : List ℕ) (m : Index) (k : ℕ) : Index :=
  (fun m => (indexIncrease rev bound m).2)^[k] (initIndex m)

theorem indexIncrease_eq (rev : Bool) (bound : List ℕ) (m : Index) :
    let r := increase (walk rev (free bound m)) m.entry
    indexIncrease rev bound m = (r.1, ⟨free bound m ∪ bound.tail.toFinset,
      fun p => if p ∈ bound.tail then r.2 (bound.headD 0) else r.2 p⟩) := by
  rw [indexIncrease]
  split
  · next h =>
    have htail : bound.tail = [] := length_eq_zero_iff.mp (by rw [length_tail]; omega)
    simp [count, free, htail]
  · rfl

/-- `m'` has the digits of `k` where `m` is free, and what is bound is equal. -/
structure Counted (rev : Bool) (bound : List ℕ) (m : Index) (k : ℕ) (m' : Index) : Prop where
  positions : m'.positions = m.positions
  digits : ∀ p ∈ free bound m, m'.entry p =
    (digit (fun q => (m.entry q).2) (walk rev (free bound m)) k p, (m.entry p).2)
  tied : ∀ p ∈ bound, m'.entry p = m'.entry (bound.headD 0)

variable (hnodup : bound.Nodup) (hmem : ∀ p ∈ bound, p ∈ m.positions)
  (hpos : ∀ p ∈ m.positions, 0 < (m.entry p).2)
include hnodup hmem hpos

theorem Counted.step {m' : Index} (h : Counted rev bound m k m') :
    ((indexIncrease rev bound m').1 = true ↔ ¬ ∏ p ∈ free bound m, (m.entry p).2 ∣ k + 1) ∧
      Counted rev bound m (k + 1) (indexIncrease rev bound m').2 := by
  have hfree : free bound m' = free bound m := by rw [free, h.positions, free]
  obtain ⟨hret, hin, -⟩ := increase_digit (nodup_walk rev (free bound m))
    (fun p hp => hpos p (Finset.mem_sdiff.mp (mem_walk.mp hp)).1)
    fun p hp => h.digits p (mem_walk.mp hp)
  rw [prod_walk] at hret
  rw [indexIncrease_eq, hfree]
  refine ⟨hret, Finset.sdiff_union_of_subset fun p hp => ?_, fun p hp => ?_, fun p hp => ?_⟩
  · exact hmem p (mem_of_mem_tail (mem_toFinset.mp hp))
  · have hout : p ∉ bound.tail := by simpa using (Finset.mem_sdiff.mp hp).2
    simp only [if_neg hout, hin p (mem_walk.mpr hp)]
  · cases bound with
    | nil => cases hp
    | cons c bound =>
      have hc := (nodup_cons.mp hnodup).1
      rcases mem_cons.mp hp with rfl | hp <;> simp [*]

variable (hsame : ∀ p ∈ bound, ∀ q ∈ bound, (m.entry p).2 = (m.entry q).2)
include hsame

theorem visited_counted (rev : Bool) : ∀ k, Counted rev bound m k (visited rev bound m k)
  | 0 => by
    refine ⟨rfl, fun p _ => by simp [visited, initIndex], fun p hp => ?_⟩
    cases bound with
    | nil => cases hp
    | cons c bound => exact congrArg (Prod.mk 0) (hsame p hp c mem_cons_self)
  | k + 1 => by
    rw [visited, iterate_succ_apply']
    exact ((visited_counted rev k).step hnodup hmem hpos).2

end Runs

/-- From all zeros, the first call that returns -1 is the one whose number is the product of the
    bounds, with positions that are bound together counted once. The states before the calls up to
    it are distinct, these positions are always equal, numbers stay below their bounds, and it
    leaves all zeros. -/
theorem enumerates (rev : Bool) (bound : List ℕ) (m : Index)
    (hpos : ∀ p ∈ m.positions, 0 < (m.entry p).2) (hnodup : bound.Nodup)
    (hmem : ∀ p ∈ bound, p ∈ m.positions)
    (hsame : ∀ p ∈ bound, ∀ q ∈ bound, (m.entry p).2 = (m.entry q).2) :
    let n := ∏ p ∈ m.positions \ bound.tail.toFinset, (m.entry p).2
    let state := visited rev bound m
    0 < n ∧ (∀ k < n, (indexIncrease rev bound (state k)).1 = decide (k + 1 < n)) ∧
      (∀ i < n, ∀ j < n, (∀ p ∈ m.positions, (state i).entry p = (state j).entry p) → i = j) ∧
      (∀ k, ∀ p ∈ bound, ∀ q ∈ bound, (state k).entry p = (state k).entry q) ∧
      (∀ k, ∀ p ∈ m.positions, ((state k).entry p).1 < ((state k).entry p).2) ∧
      ∀ p ∈ m.positions, ((state n).entry p).1 = 0 := by
  intro n state
  have hrun := visited_counted hnodup hmem hpos hsame rev
  have hfree : ∀ p ∈ free bound m, 0 < (m.entry p).2 := fun p hp =>
    hpos p (Finset.mem_sdiff.mp hp).1
  -- a position that is not counted has what is under the first bound one
  have hall : ∀ {P : ℕ × ℕ → Prop} {k}, (∀ p ∈ free bound m, P ((state k).entry p)) →
      ∀ p ∈ m.positions, P ((state k).entry p) := fun {P k} h p hp => by
    by_cases htail : p ∈ bound.tail
    · rw [(hrun k).tied p (mem_of_mem_tail htail)]
      cases bound with
      | nil => cases htail
      | cons c bound =>
        refine h c (Finset.mem_sdiff.mpr ⟨hmem c mem_cons_self, ?_⟩)
        simpa using (nodup_cons.mp hnodup).1
    · exact h p (Finset.mem_sdiff.mpr ⟨hp, by simpa using htail⟩)
  refine ⟨Finset.prod_pos hfree, fun k hk => ?_, fun i hi j hj hij => ?_,
    fun k p hp q hq => ((hrun k).tied p hp).trans ((hrun k).tied q hq).symm,
    fun k => hall (P := fun e => e.1 < e.2) fun p hp => ?_, hall (P := fun e => e.1 = 0) ?_⟩
  · have hret := ((hrun k).step hnodup hmem hpos).1
    rw [Bool.eq_iff_iff, decide_eq_true_iff]
    refine hret.trans ⟨fun h => ?_, fun h hdvd => ?_⟩
    · exact lt_of_le_of_ne hk fun heq => h (heq ▸ dvd_rfl)
    · exact (Nat.le_of_dvd k.succ_pos hdvd).not_gt h
  · refine digit_inj (nodup_walk rev (free bound m)) (fun p hp => ?_)
      (hi.trans_eq (prod_walk rev _ _).symm) (hj.trans_eq (prod_walk rev _ _).symm)
    rw [mem_walk] at hp
    have hp' := hij p (Finset.mem_sdiff.mp hp).1
    rw [(hrun i).digits p hp, (hrun j).digits p hp] at hp'
    exact congrArg Prod.fst hp'
  · rw [(hrun k).digits p hp]
    exact digit_lt (hfree p hp)
  · intro p hp
    rw [(hrun n).digits p hp]
    show digit _ _ (∏ p ∈ free bound m, (m.entry p).2) p = 0
    rw [← prod_walk rev]
    exact digit_prod p fun q hq => hfree q (mem_walk.mp hq)

/-- Two positions with the bound 3 that are bound together, and one with the bound 2. -/
theorem enumerates_six :
    let m : Index := ⟨{0, 1, 2}, fun p => (0, if p = 0 then 2 else 3)⟩
    (∏ p ∈ m.positions \ [1, 2].tail.toFinset, (m.entry p).2) = 6 ∧
      (indexIncrease true [1, 2] (visited true [1, 2] m 5)).1 = false := by
  intro m
  have h := (enumerates true [1, 2] m (by decide) (by decide) (by decide) (by decide)).2.1 5
    (by decide)
  exact ⟨by decide, h⟩

end Fiss.Sharding
