import Mathlib

/-! Containers that are kept in the order of a key and may hold several entries with one key. A
    search in one returns a position, the end of the front part whose entries satisfy a predicate,
    and what lies between two positions is what a filter selects. The last part is about two such
    sequences given out as one by a choice between their heads. -/

namespace Fiss.Multi
open List

variable {α : Type}

/-- The position past the front part whose entries satisfy `p`. -/
def bound (p : α → Bool) (l : List α) : ℕ := l.findIdx fun a => !p a

/-- The entries that satisfy `p` form a front part. -/
def Front (p : α → Bool) (l : List α) : Prop := l.Pairwise fun a b => p b = true → p a = true

/-- The entries from one position up to another. -/
def between (l : List α) (i j : ℕ) : List α := (l.take j).drop i

theorem bound_cons_pos {p : α → Bool} {a : α} (h : p a = true) (l : List α) :
    bound p (a :: l) = bound p l + 1 := by simp [bound, findIdx_cons, h]

theorem bound_cons_neg {p : α → Bool} {a : α} (h : p a = false) (l : List α) :
    bound p (a :: l) = 0 := by simp [bound, findIdx_cons, h]

theorem Front.none_after {p : α → Bool} {a : α} {l : List α} (h : Front p (a :: l))
    (ha : p a = false) {b : α} (hb : b ∈ l) : p b = false := by
  by_contra hpb
  have := (pairwise_cons.mp h).1 b hb (by simpa using hpb)
  simp [ha] at this

theorem between_bound {p q : α → Bool} {l : List α} (hp : Front p l) (hq : Front q l) :
    between l (bound p l) (bound q l) = l.filter fun a => !p a && q a := by
  induction l with
  | nil => rfl
  | cons a l ih =>
    have ih := ih (pairwise_cons.mp hp).2 (pairwise_cons.mp hq).2
    cases hqa : q a with
    | false =>
      have hnone : (a :: l).filter (fun a => !p a && q a) = [] := by
        refine filter_eq_nil_iff.mpr fun b hb => ?_
        rcases mem_cons.mp hb with rfl | hb
        · simp [hqa]
        · simp [hq.none_after hqa hb]
      rw [hnone, bound_cons_neg hqa, between, take_zero, drop_nil]
    | true =>
      cases hpa : p a with
      | true =>
        rw [bound_cons_pos hpa, bound_cons_pos hqa]
        simpa [between, hpa] using ih
      | false =>
        have hzero : bound p l = 0 := by
          cases l with
          | nil => rfl
          | cons b l => exact bound_cons_neg (hp.none_after hpa mem_cons_self) l
        rw [hzero] at ih
        rw [bound_cons_neg hpa, bound_cons_pos hqa]
        simpa [between, hpa, hqa] using ih

theorem bound_false (l : List α) : bound (fun _ => false) l = 0 := by
  cases l with
  | nil => rfl
  | cons a l => exact bound_cons_neg rfl l

theorem bound_true (l : List α) : bound (fun _ => true) l = l.length := by
  induction l with
  | nil => rfl
  | cons a l ih => rw [bound_cons_pos rfl, ih, length_cons]

theorem front_false (l : List α) : Front (fun _ => false) l :=
  pairwise_of_forall fun _ _ h => h

theorem front_true (l : List α) : Front (fun _ => true) l :=
  pairwise_of_forall fun _ _ h => h

theorem front_of_rank {κ : Type} [Preorder κ] {f : α → κ} {l : List α} {p : α → Bool}
    (hl : l.Pairwise fun a b => f a ≤ f b)
    (hp : ∀ a b, f a ≤ f b → p b = true → p a = true) : Front p l :=
  hl.imp fun {a b} hab => hp a b hab

/-! ### Two sequences given out as one -/

section
variable (le : α → α → Prop) (pick : α → α → Bool)

/-- Each time the two heads are compared, the one picked may come first. -/
def Agrees : List α → List α → Prop
  | a :: as, b :: bs =>
    if pick a b then le a b ∧ Agrees as (b :: bs) else le b a ∧ Agrees (a :: as) bs
  | _, _ => True
termination_by as bs => as.length + bs.length

variable {le pick}

theorem pairwise_merge_iff (htrans : ∀ {a b c}, le a b → le b c → le a c) {as bs : List α}
    (ha : as.Pairwise le) (hb : bs.Pairwise le) :
    (as.merge bs pick).Pairwise le ↔ Agrees le pick as bs := by
  fun_induction Agrees le pick as bs with
  | case1 a as b bs hpick ih =>
    obtain ⟨haa, ha'⟩ := pairwise_cons.mp ha
    rw [merge, if_pos hpick, pairwise_cons, ih ha' hb]
    refine and_congr_left fun _ => ⟨fun h => h b (by simp [mem_merge]), fun hab x hx => ?_⟩
    rcases mem_merge.mp hx with hx | hx
    · exact haa x hx
    · rcases mem_cons.mp hx with rfl | hx
      · exact hab
      · exact htrans hab ((pairwise_cons.mp hb).1 x hx)
  | case2 a as b bs hpick ih =>
    obtain ⟨hbb, hb'⟩ := pairwise_cons.mp hb
    rw [merge, if_neg hpick, pairwise_cons, ih ha hb']
    refine and_congr_left fun _ => ⟨fun h => h a (by simp [mem_merge]), fun hba x hx => ?_⟩
    rcases mem_merge.mp hx with hx | hx
    · rcases mem_cons.mp hx with rfl | hx
      · exact hba
      · exact htrans hba ((pairwise_cons.mp ha).1 x hx)
    · exact hbb x hx
  | case3 as bs hne =>
    refine iff_of_true ?_ trivial
    cases as with
    | nil => simpa using hb
    | cons a as =>
      cases bs with
      | nil => simpa using ha
      | cons b bs => exact (hne a as b bs rfl rfl).elim

end

end Fiss.Multi
