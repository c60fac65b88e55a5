import Mathlib

/-! A cursor over a list whose entries are done in any order. It stands before the first that is not
    done, and moves on when that one is. -/

namespace Fiss
open List

variable {α : Type} {done : α → Bool} {xs : List α} {i : ℕ} {x : α}

/-- Everything before `i` is done, and what stands at `i`, if anything does, is not. -/
structure AtGap (done : α → Bool) (xs : List α) (i : ℕ) : Prop where
  before : ∀ j < i, ∃ x, xs[j]? = some x ∧ done x = true
  gap : ∀ x, xs[i]? = some x → done x = false

/-- Where the cursor comes to from `i`. -/
def advance (done : α → Bool) (xs : List α) (i : ℕ) : ℕ := i + ((xs.drop i).takeWhile done).length

theorem AtGap.nil : AtGap done [] 0 :=
  ⟨fun j hj => absurd hj (Nat.not_lt_zero j), fun _ h => by cases h⟩

theorem AtGap.le (h : AtGap done xs i) : i ≤ xs.length := by
  by_contra hlt
  obtain ⟨x, hx, -⟩ := h.before xs.length (by omega)
  rw [getElem?_eq_none le_rfl] at hx
  cases hx

theorem AtGap.concat (h : AtGap done xs i) (hx : done x = false) : AtGap done (xs ++ [x]) i where
  before j hj := by
    obtain ⟨y, hy, hdone⟩ := h.before j hj
    have hlt : j < xs.length := (List.getElem?_eq_some_iff.mp hy).1
    exact ⟨y, by rw [getElem?_append_left hlt, hy], hdone⟩
  gap y hy := by
    rcases h.le.lt_or_eq with hlt | rfl
    · exact h.gap y (by rw [← hy, getElem?_append_left hlt])
    · rw [getElem?_concat_length] at hy
      rw [← Option.some.inj hy]
      exact hx

theorem done_of_takeWhile : ∀ {xs : List α} {j : ℕ}, j < (xs.takeWhile done).length →
    ∃ x, xs[j]? = some x ∧ done x = true
  | [], _, hj => by cases hj
  | x :: xs, j, hj => by
    rw [takeWhile_cons] at hj
    split at hj
    · next hx =>
      cases j with
      | zero => exact ⟨x, rfl, hx⟩
      | succ j =>
        have hlt : j < (xs.takeWhile done).length := Nat.lt_of_succ_lt_succ hj
        obtain ⟨y, hy, hdone⟩ := done_of_takeWhile hlt
        exact ⟨y, hy, hdone⟩
    · cases hj

theorem not_done_takeWhile : ∀ {xs : List α}, xs[(xs.takeWhile done).length]? = some x →
    done x = false
  | [], h => by cases h
  | y :: xs, h => by
    rw [takeWhile_cons] at h
    split at h
    · exact not_done_takeWhile h
    · next hy =>
      rw [← Option.some.inj h]
      exact eq_false_of_ne_true hy

theorem advance_atGap (h : ∀ j < i, ∃ x, xs[j]? = some x ∧ done x = true) :
    AtGap done xs (advance done xs i) where
  before j hj := by
    rcases lt_or_ge j i with hlt | hge
    · exact h j hlt
    · obtain ⟨n, rfl⟩ := Nat.exists_eq_add_of_le hge
      rw [← getElem?_drop]
      exact done_of_takeWhile (Nat.lt_of_add_lt_add_left hj)
  gap x hx := by
    rw [advance, ← getElem?_drop] at hx
    exact not_done_takeWhile hx

theorem advance_le (h : i ≤ xs.length) : advance done xs i ≤ xs.length := by
  have hle := (takeWhile_sublist done (l := xs.drop i)).length_le
  rw [length_drop] at hle
  rw [advance]
  omega

end Fiss
