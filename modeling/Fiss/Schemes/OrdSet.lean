import Mathlib

/-! Ordered sets, as the tree sets of the C++ library are used: iteration goes through the elements
    in ascending order, and two sets with the same elements are the same set. A set is the list of
    its elements, strictly ascending. -/

namespace Fiss
open List

/-- A finite set whose elements are walked in ascending order. -/
structure OrdSet (α : Type) [LinearOrder α] where
  elems : List α
  sorted : elems.Pairwise (· < ·)

namespace OrdSet

variable {α : Type} [LinearOrder α] {s : OrdSet α}

instance : DecidableEq (OrdSet α) := fun s t =>
  decidable_of_iff (s.elems = t.elems)
    ⟨fun h => by cases s; cases t; cases h; rfl, fun h => congrArg elems h⟩

instance : Membership α (OrdSet α) := ⟨fun s a => a ∈ s.elems⟩

instance (a : α) (s : OrdSet α) : Decidable (a ∈ s) := inferInstanceAs (Decidable (a ∈ s.elems))

instance : EmptyCollection (OrdSet α) := ⟨⟨[], .nil⟩⟩

instance : Inhabited (OrdSet α) := ⟨∅⟩

/-- Put `a` at its place unless it is there. -/
def place (a : α) : List α → List α
  | [] => [a]
  | b :: l => if a < b then a :: b :: l else if a = b then b :: l else b :: place a l

theorem mem_place {a x : α} : ∀ {l : List α}, x ∈ place a l ↔ x = a ∨ x ∈ l
  | [] => by simp [place]
  | b :: l => by
    rw [place]
    split
    · exact mem_cons
    · split
      · next hab => rw [hab, mem_cons, or_self_left]
      · rw [mem_cons, mem_place, mem_cons, or_left_comm]

theorem sorted_place {a : α} : ∀ {l : List α}, l.Pairwise (· < ·) → (place a l).Pairwise (· < ·)
  | [], _ => pairwise_singleton _ a
  | b :: l, h => by
    obtain ⟨hb, hl⟩ := pairwise_cons.mp h
    rw [place]
    split
    · next hab =>
      exact pairwise_cons.mpr
        ⟨forall_mem_cons.mpr ⟨hab, fun x hx => hab.trans (hb x hx)⟩, h⟩
    · next hab =>
      split
      · exact h
      · next hne =>
        refine pairwise_cons.mpr ⟨fun x hx => ?_, sorted_place hl⟩
        rcases mem_place.mp hx with rfl | hx
        · exact lt_of_le_of_ne (not_lt.mp hab) (Ne.symm hne)
        · exact hb x hx

/-- `s.insert(a)`. -/
def insert (s : OrdSet α) (a : α) : OrdSet α := ⟨place a s.elems, sorted_place s.sorted⟩

instance : Singleton α (OrdSet α) := ⟨fun a => (∅ : OrdSet α).insert a⟩

instance : Insert α (OrdSet α) := ⟨fun a s => s.insert a⟩

/-- `s.insert(t.begin(), t.end())`. -/
def union (s t : OrdSet α) : OrdSet α := t.elems.foldl insert s

/-- `s.erase(a)`. -/
def erase (s : OrdSet α) (a : α) : OrdSet α := ⟨s.elems.filter (· ≠ a), s.sorted.filter _⟩

/-- `*s.begin()`, if there is one. -/
def first (s : OrdSet α) : Option α := s.elems.head?

@[ext] theorem ext {s t : OrdSet α} (h : ∀ a, a ∈ s ↔ a ∈ t) : s = t := by
  obtain ⟨l, hl⟩ := s
  obtain ⟨l', hl'⟩ := t
  obtain rfl : l = l' := hl.eq_of_mem_iff hl' h
  rfl

theorem mem_elems {a : α} : a ∈ s.elems ↔ a ∈ s := Iff.rfl

@[simp] theorem notMem_empty (a : α) : a ∉ (∅ : OrdSet α) := not_mem_nil

@[simp] theorem mem_insert {a x : α} : x ∈ s.insert a ↔ x = a ∨ x ∈ s := mem_place

theorem mem_foldl_insert {x : α} : ∀ {l : List α} {s : OrdSet α},
    x ∈ l.foldl insert s ↔ x ∈ s ∨ x ∈ l
  | [], _ => by simp
  | a :: l, s => by
    rw [foldl_cons, mem_foldl_insert, mem_insert, mem_cons, or_assoc, or_left_comm]

@[simp] theorem mem_union {s t : OrdSet α} {x : α} : x ∈ s.union t ↔ x ∈ s ∨ x ∈ t :=
  mem_foldl_insert

@[simp] theorem mem_erase {a x : α} : x ∈ s.erase a ↔ x ∈ s ∧ x ≠ a := by
  rw [← mem_elems, erase, mem_filter, decide_eq_true_eq, mem_elems]

theorem mem_foldl_erase {x : α} : ∀ {l : List α} {s : OrdSet α}, x ∈ l.foldl erase s ↔ x ∈ s ∧ x ∉ l
  | [], _ => by simp
  | a :: l, s => by
    rw [foldl_cons, mem_foldl_erase, mem_erase, mem_cons, not_or, and_assoc]

theorem first_eq_none : s.first = none ↔ ∀ x, x ∉ s := by
  rw [first, head?_eq_none_iff]
  exact eq_nil_iff_forall_not_mem

theorem first_le {a x : α} (h : s.first = some a) (hx : x ∈ s) : a ≤ x := by
  obtain ⟨l, hl⟩ := s
  cases l with
  | nil => cases h
  | cons b l =>
    obtain rfl : b = a := Option.some.inj h
    exact forall_mem_cons.mpr ⟨le_rfl, fun x hx => ((pairwise_cons.mp hl).1 x hx).le⟩ x hx

theorem first_mem {a : α} (h : s.first = some a) : a ∈ s := mem_of_head? h

end OrdSet

end Fiss
