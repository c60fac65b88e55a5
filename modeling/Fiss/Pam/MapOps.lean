import Mathlib

/-! The search trees under the maps of the analytical engine (`OLAP/PAM/c++/map_ops.h`): `find`,
    `insert` and `range`, which see the keys only through `Entry::comp`. `node_join` also balances
    its result; it is taken as the plain node, since balancing keeps the entries and their order.
    Over a `comp` that compares a rank of the keys, each operation is said in terms of the entries:
    keys of one rank are one key. -/

namespace Fiss.Pam
open List Option

/-- A `node*`. -/
inductive SearchTree (K V : Type) where
  | null
  | node (lc : SearchTree K V) (key : K) (val : V) (rc : SearchTree K V)

namespace SearchTree

variable {K V : Type}

/-- The entries from left to right. -/
def entries : SearchTree K V → List (K × V)
  | null => []
  | node lc k v rc => lc.entries ++ (k, v) :: rc.entries

section
variable (comp : K → K → Bool)

def find (key : K) : SearchTree K V → Option (K × V)
  | null => none
  | node lc k v rc =>
    if comp key k then find key lc else if comp k key then find key rc else some (k, v)

/-- `insert`, with the new entry in place of one it finds under its key. -/
def insert (e : K × V) : SearchTree K V → SearchTree K V
  | null => node null e.1 e.2 null
  | node lc k v rc =>
    if comp k e.1 then node lc k v (insert e rc)
    else if comp e.1 k then node (insert e lc) k v rc
    else node lc e.1 e.2 rc

/-- `range_root`: the highest node inside the bounds. -/
def rangeRoot (low high : K) : SearchTree K V → SearchTree K V
  | null => null
  | node lc k v rc =>
    if comp high k then rangeRoot low high lc
    else if comp k low then rangeRoot low high rc
    else node lc k v rc

/-- `left`: what is not above `e`. -/
def left (e : K) : SearchTree K V → SearchTree K V
  | null => null
  | node lc k v rc => if comp e k then left e lc else node lc k v (left e rc)

/-- `right`: what is not below `e`. -/
def right (e : K) : SearchTree K V → SearchTree K V
  | null => null
  | node lc k v rc => if comp k e then right e rc else node (right e lc) k v rc

def range (low high : K) (b : SearchTree K V) : SearchTree K V :=
  match rangeRoot comp low high b with
  | null => null
  | node lc k v rc => node (right comp low lc) k v (left comp high rc)

end

/-! ### Entries over a rank -/

variable {α : Type} [LinearOrder α] (rank : K → α)

/-- The ranks increase strictly from left to right. -/
def Sorted : SearchTree K V → Prop
  | null => True
  | node lc k _ rc => Sorted lc ∧ Sorted rc ∧
      (∀ x ∈ lc.entries, rank x.1 < rank k) ∧ ∀ x ∈ rc.entries, rank k < rank x.1

theorem filter_all {l : List (K × V)} {p : K × V → Prop} [DecidablePred p] (h : ∀ x ∈ l, p x) :
    l.filter (fun x => p x) = l :=
  filter_eq_self.mpr fun x hx => decide_eq_true (h x hx)

theorem filter_none {l : List (K × V)} {p : K × V → Prop} [DecidablePred p]
    (h : ∀ x ∈ l, ¬ p x) : l.filter (fun x => p x) = [] :=
  filter_eq_nil_iff.mpr fun x hx hp => h x hx (of_decide_eq_true hp)

variable {rank} {comp : K → K → Bool} (hcomp : ∀ a b, comp a b ↔ rank a < rank b)
  {b : SearchTree K V}

include hcomp

section
variable (hb : Sorted rank b)
include hb

theorem entries_insert (e : K × V) :
    (insert comp e b).entries = b.entries.filter (fun x => rank x.1 < rank e.1) ++
      e :: b.entries.filter fun x => rank e.1 < rank x.1 := by
  induction b with
  | null => rfl
  | node lc k v rc ihl ihr =>
    obtain ⟨hl, hr, hlk, hrk⟩ := hb
    simp only [insert, hcomp]
    split_ifs with h1 h2 <;>
      simp only [entries, filter_append, filter_cons, decide_eq_true_eq]
    · -- the new entry goes to the right: the node and what is left of it come before it
      have hle : ∀ x ∈ lc.entries, rank x.1 < rank e.1 := fun x hx => (hlk x hx).trans h1
      rw [filter_all hle, filter_none fun x hx => (hle x hx).not_gt, if_pos h1, if_neg h1.not_gt,
        ihr hr]
      simp
    · have her : ∀ x ∈ rc.entries, rank e.1 < rank x.1 := fun x hx => h2.trans (hrk x hx)
      rw [filter_all her, filter_none fun x hx => (her x hx).not_gt, if_pos h2, if_neg h2.not_gt,
        ihl hl]
      simp
    · have hk : rank k = rank e.1 := le_antisymm (not_lt.mp h2) (not_lt.mp h1)
      rw [hk] at hlk hrk
      rw [filter_all hlk, filter_all hrk, filter_none fun x hx => (hlk x hx).not_gt,
        filter_none fun x hx => (hrk x hx).not_gt, if_neg h1, if_neg h2]
      simp

theorem mem_insert (e x : K × V) :
    x ∈ (insert comp e b).entries ↔ x = e ∨ x ∈ b.entries ∧ rank x.1 ≠ rank e.1 := by
  rw [entries_insert hcomp hb, mem_append, mem_cons, mem_filter, mem_filter,
    ne_iff_lt_or_gt]
  simp only [decide_eq_true_eq]
  tauto

theorem sorted_insert (e : K × V) : Sorted rank (insert comp e b) := by
  induction b with
  | null => exact ⟨trivial, trivial, by simp [entries], by simp [entries]⟩
  | node lc k v rc ihl ihr =>
    obtain ⟨hl, hr, hlk, hrk⟩ := hb
    simp only [insert, hcomp]
    split_ifs with h1 h2
    · refine ⟨hl, ihr hr, hlk, fun x hx => ?_⟩
      rcases (mem_insert hcomp hr e x).mp hx with rfl | ⟨hx, -⟩
      · exact h1
      · exact hrk x hx
    · refine ⟨ihl hl, hr, fun x hx => ?_, hrk⟩
      rcases (mem_insert hcomp hl e x).mp hx with rfl | ⟨hx, -⟩
      · exact h2
      · exact hlk x hx
    · have hk : rank k = rank e.1 := le_antisymm (not_lt.mp h2) (not_lt.mp h1)
      rw [hk] at hlk hrk
      exact ⟨hl, hr, hlk, hrk⟩

theorem find_eq (key : K) : find comp key b = b.entries.find? fun x => rank x.1 = rank key := by
  have hnone : ∀ l : List (K × V), (∀ x ∈ l, rank x.1 ≠ rank key) →
      l.find? (fun x => rank x.1 = rank key) = none := by
    intro l h
    exact find?_eq_none.mpr fun x hx hk => h x hx (of_decide_eq_true hk)
  induction b with
  | null => rfl
  | node lc k v rc ihl ihr =>
    obtain ⟨hl, hr, hlk, hrk⟩ := hb
    simp only [find, hcomp, entries, find?_append, find?_cons]
    split_ifs with h1 h2
    · rw [ihl hl, decide_eq_false h1.ne', hnone _ fun x hx => (h1.trans (hrk x hx)).ne',
        or_none]
    · rw [ihr hr, decide_eq_false h2.ne, hnone _ fun x hx => ((hlk x hx).trans h2).ne,
        none_or]
    · have hk : rank k = rank key := le_antisymm (not_lt.mp h1) (not_lt.mp h2)
      rw [hnone lc.entries fun x hx => hk ▸ (hlk x hx).ne, decide_eq_true hk, none_or]

theorem entries_left (e : K) :
    (left comp e b).entries = b.entries.filter fun x => ¬ rank e < rank x.1 := by
  induction b with
  | null => rfl
  | node lc k v rc ihl ihr =>
    obtain ⟨hl, hr, hlk, hrk⟩ := hb
    simp only [left, hcomp]
    split_ifs with h <;> simp only [entries, filter_append, filter_cons]
    · rw [ihl hl, filter_none (l := rc.entries) fun x hx => not_not.mpr (h.trans (hrk x hx)),
        if_neg (by simpa using h), append_nil]
    · have hle : ∀ x ∈ lc.entries, ¬ rank e < rank x.1 :=
        fun x hx => not_lt.mpr ((hlk x hx).le.trans (not_lt.mp h))
      rw [ihr hr, filter_all hle, if_pos (by simpa using h)]

theorem entries_right (e : K) :
    (right comp e b).entries = b.entries.filter fun x => ¬ rank x.1 < rank e := by
  induction b with
  | null => rfl
  | node lc k v rc ihl ihr =>
    obtain ⟨hl, hr, hlk, hrk⟩ := hb
    simp only [right, hcomp]
    split_ifs with h <;> simp only [entries, filter_append, filter_cons]
    · rw [ihr hr, filter_none (l := lc.entries) fun x hx => not_not.mpr ((hlk x hx).trans h),
        if_neg (by simpa using h), nil_append]
    · have hle : ∀ x ∈ rc.entries, ¬ rank x.1 < rank e :=
        fun x hx => not_lt.mpr ((not_lt.mp h).trans (hrk x hx).le)
      rw [ihl hl, filter_all hle, if_pos (by simpa using h)]

theorem entries_range (low high : K) : (range comp low high b).entries =
      b.entries.filter fun x => ¬ rank x.1 < rank low ∧ ¬ rank high < rank x.1 := by
  induction b with
  | null => rfl
  | node lc k v rc ihl ihr =>
    obtain ⟨hl, hr, hlk, hrk⟩ := hb
    simp only [range, rangeRoot, hcomp] at ihl ihr ⊢
    split_ifs with h1 h2 <;> simp only [entries, filter_append, filter_cons]
    · -- the root is above the bounds, and so is all that is right of it
      rw [ihl hl, filter_none (l := rc.entries) fun x hx hp => hp.2 (h1.trans (hrk x hx)),
        if_neg (by simp [h1]), append_nil]
    · rw [ihr hr, filter_none (l := lc.entries) fun x hx hp => hp.1 ((hlk x hx).trans h2),
        if_neg (by simp [h2]), nil_append]
    · -- the root is inside: left of it only the lower bound matters, right of it only the upper
      have hlow : lc.entries.filter (fun x => ¬ rank x.1 < rank low) =
          lc.entries.filter fun x => ¬ rank x.1 < rank low ∧ ¬ rank high < rank x.1 := by
        refine filter_congr fun x hx => decide_eq_decide.mpr ?_
        have := not_lt.mpr ((hlk x hx).le.trans (not_lt.mp h1))
        exact (and_iff_left this).symm
      have hhigh : rc.entries.filter (fun x => ¬ rank high < rank x.1) =
          rc.entries.filter fun x => ¬ rank x.1 < rank low ∧ ¬ rank high < rank x.1 := by
        refine filter_congr fun x hx => decide_eq_decide.mpr ?_
        have := not_lt.mpr ((not_lt.mp h2).trans (hrk x hx).le)
        exact (and_iff_right this).symm
      rw [entries_right hcomp hl, entries_left hcomp hr, hlow, hhigh, if_pos (by simp [h1, h2])]

end

end SearchTree

end Fiss.Pam
