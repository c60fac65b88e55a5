import Fiss.Pam.MapOps
import Fiss.Pam.Tables

/-! The order of dates (`Date::less` of `OLAP/PAM/tpch/lineitem.h`) and the maps keyed by dates
    (`date_entry` of `utils.h`). The order is read off the 32 bits that overlap the day and the
    month, so dates are ordered as within one year, whatever their years are: it is the calendar's
    order exactly among dates whose later years also come later within the year. -/

namespace Fiss.Pam
open List Prod

namespace Date

def less (a b : Date) : Bool := a.c < b.c

/-- Earlier within the year. -/
def EarlierInYear (a b : Date) : Prop :=
  a.month < b.month ∨ a.month = b.month ∧ a.day < b.day

/-- Earlier by the calendar: `(year, month, day)` is lexicographically smaller. -/
def Before (a b : Date) : Prop :=
  a.year < b.year ∨ a.year = b.year ∧ a.EarlierInYear b

instance (a b : Date) : Decidable (a.EarlierInYear b) :=
  inferInstanceAs (Decidable (_ ∨ _))

instance (a b : Date) : Decidable (a.Before b) :=
  inferInstanceAs (Decidable (_ ∨ _))

theorem less_iff (a b : Date) : less a b ↔ a.c < b.c := decide_eq_true_iff

theorem less_iff_earlierInYear (a b : Date) : less a b ↔ a.EarlierInYear b := by
  have ha := a.day.toNat_lt
  have hb := b.day.toNat_lt
  rw [less_iff, EarlierInYear, UInt16.lt_iff_toNat_lt, UInt16.lt_iff_toNat_lt,
    ← UInt16.toNat_inj, c, c]
  omega

theorem field_trichotomy (x y : UInt16) : x < y ∨ x = y ∨ y < x := by
  rw [UInt16.lt_iff_toNat_lt, UInt16.lt_iff_toNat_lt, ← UInt16.toNat_inj]
  exact lt_trichotomy _ _

theorem before_trichotomous (a b : Date) : a.Before b ∨ a = b ∨ b.Before a := by
  rcases field_trichotomy a.year b.year with hy | hy | hy
  · exact .inl (.inl hy)
  · rcases field_trichotomy a.month b.month with hm | hm | hm
    · exact .inl (.inr ⟨hy, .inl hm⟩)
    · rcases field_trichotomy a.day b.day with hd | hd | hd
      · exact .inl (.inr ⟨hy, .inr ⟨hm, hd⟩⟩)
      · obtain ⟨_, _, _⟩ := a
        obtain ⟨_, _, _⟩ := b
        subst hy hm hd
        exact .inr (.inl rfl)
      · exact .inr (.inr (.inr ⟨hy.symm, .inr ⟨hm.symm, hd⟩⟩))
    · exact .inr (.inr (.inr ⟨hy.symm, .inl hm⟩))
  · exact .inr (.inr (.inl hy))

end Date

open SearchTree

variable {V : Type}

/-- A `date_map` into which the entries were inserted one after another. -/
def dateMap (es : List (Date × V)) : SearchTree Date V :=
  es.foldl (fun b e => insert Date.less e b) null

/-- Dates under which a later year comes with a later day of the year. -/
def YearsInStep (S : Set Date) : Prop :=
  ∀ a ∈ S, ∀ b ∈ S, a.year < b.year → a.EarlierInYear b

/-- Among the dates of `S` the code's order is the calendar's, a `date_map` keeps distinct dates
    apart, and its range queries return the dates in the range. -/
structure Chronological (V : Type) (S : Set Date) : Prop where
  less : ∀ a ∈ S, ∀ b ∈ S, (Date.less a b ↔ a.Before b)
  keys : ∀ es : List (Date × V), (∀ e ∈ es, e.1 ∈ S) → ∀ d ∈ S,
    (find Date.less d (dateMap es)).map fst = if d ∈ es.map fst then some d else none
  ranges : ∀ es : List (Date × V), (∀ e ∈ es, e.1 ∈ S) → ∀ low ∈ S, ∀ high ∈ S, ∀ d,
    d ∈ (range Date.less low high (dateMap es)).entries.map fst ↔
      d ∈ es.map fst ∧ ¬ d.Before low ∧ ¬ high.Before d

theorem sorted_dateMap (es : List (Date × V)) : Sorted Date.c (dateMap es) :=
  foldlRecOn (motive := Sorted Date.c) es _ trivial
    fun _ hb e _ => sorted_insert Date.less_iff hb e

theorem dateMap_concat (es : List (Date × V)) (e : Date × V) :
    dateMap (es ++ [e]) = insert Date.less e (dateMap es) :=
  foldl_concat _ _ _ _

variable {S : Set Date}

section
variable (hS : YearsInStep S)
include hS

theorem eq_of_c_eq {a b : Date} (ha : a ∈ S) (hb : b ∈ S) (h : a.c = b.c) : a = b := by
  have hab : ¬ a.EarlierInYear b := by
    rw [← Date.less_iff_earlierInYear, Date.less_iff]; exact h.not_lt
  have hba : ¬ b.EarlierInYear a := by
    rw [← Date.less_iff_earlierInYear, Date.less_iff]; exact h.not_gt
  rcases Date.before_trichotomous a b with hb' | rfl | hb'
  · rcases hb' with hy | ⟨-, he⟩
    · exact absurd (hS a ha b hb hy) hab
    · exact absurd he hab
  · rfl
  · rcases hb' with hy | ⟨-, he⟩
    · exact absurd (hS b hb a ha hy) hba
    · exact absurd he hba

theorem less_iff_before {a b : Date} (ha : a ∈ S) (hb : b ∈ S) : Date.less a b ↔ a.Before b := by
  rw [Date.less_iff_earlierInYear]
  constructor
  · intro he
    rcases Date.field_trichotomy a.year b.year with hy | hy | hy
    · exact .inl hy
    · exact .inr ⟨hy, he⟩
    · -- a later year would put `b` before `a` within the year as well
      have h := (Date.less_iff_earlierInYear b a).mpr (hS b hb a ha hy)
      rw [← Date.less_iff_earlierInYear, Date.less_iff] at he
      exact absurd he ((Date.less_iff b a).mp h).not_gt
  · rintro (hy | ⟨-, he⟩)
    · exact hS a ha b hb hy
    · exact he

theorem mem_keys_dateMap {es : List (Date × V)} (hes : ∀ e ∈ es, e.1 ∈ S)
    (d : Date) : d ∈ (dateMap es).entries.map fst ↔ d ∈ es.map fst := by
  induction es using reverseRecOn with
  | nil => rfl
  | append_singleton es e ih =>
    have hes' : ∀ x ∈ es, x.1 ∈ S := fun x hx => hes x (mem_append_left _ hx)
    have heS : e.1 ∈ S := hes e (by simp)
    have ih := ih hes'
    rw [map_append, mem_append, ← ih, dateMap_concat]
    simp only [mem_map, mem_insert Date.less_iff (sorted_dateMap es), map_cons,
      map_nil, mem_singleton]
    constructor
    · rintro ⟨x, rfl | ⟨hx, -⟩, rfl⟩
      · exact .inr rfl
      · exact .inl ⟨x, hx, rfl⟩
    · rintro (⟨x, hx, rfl⟩ | rfl)
      · -- an entry is replaced only by one of its own date
        by_cases hc : x.1.c = e.1.c
        · obtain ⟨y, hy, hyx⟩ := mem_map.mp (ih.mp (mem_map_of_mem hx))
          exact ⟨e, .inl rfl, (eq_of_c_eq hS (hyx ▸ hes' y hy) heS hc).symm⟩
        · exact ⟨x, .inr ⟨hx, hc⟩, rfl⟩
      · exact ⟨e, .inl rfl, rfl⟩

theorem find_dateMap {es : List (Date × V)} (hes : ∀ e ∈ es, e.1 ∈ S)
    {d : Date} (hd : d ∈ S) : (find Date.less d (dateMap es)).map fst =
      if d ∈ es.map fst then some d else none := by
  rw [find_eq Date.less_iff (sorted_dateMap es)]
  have hmem := mem_keys_dateMap hS hes
  have hkey : ∀ x ∈ (dateMap es).entries, x.1.c = d.c → x.1 = d := by
    intro x hx hc
    obtain ⟨y, hy, hyx⟩ := mem_map.mp ((hmem x.1).mp (mem_map_of_mem hx))
    exact eq_of_c_eq hS (hyx ▸ hes y hy) hd hc
  cases hf : (dateMap es).entries.find? fun x => x.1.c = d.c with
  | none =>
    rw [if_neg, Option.map_none]
    intro h
    obtain ⟨x, hx, rfl⟩ := mem_map.mp ((hmem d).mpr h)
    exact find?_eq_none.mp hf x hx (decide_eq_true rfl)
  | some x =>
    have hx := mem_of_find?_eq_some hf
    have hxd : x.1 = d := hkey x hx (by simpa using find?_some hf)
    rw [if_pos ((hmem d).mp (hxd ▸ mem_map_of_mem hx)), Option.map_some, hxd]

theorem mem_range_dateMap {es : List (Date × V)} (hes : ∀ e ∈ es, e.1 ∈ S)
    {low high : Date} (hlow : low ∈ S) (hhigh : high ∈ S) (d : Date) :
    d ∈ (range Date.less low high (dateMap es)).entries.map fst ↔
      d ∈ es.map fst ∧ ¬ d.Before low ∧ ¬ high.Before d := by
  rw [entries_range Date.less_iff (sorted_dateMap es), ← mem_keys_dateMap hS hes]
  have hbounds : ∀ x ∈ (dateMap es).entries, (¬ x.1.c < low.c ∧ ¬ high.c < x.1.c ↔
      ¬ x.1.Before low ∧ ¬ high.Before x.1) := by
    intro x hx
    have hk := (mem_keys_dateMap hS hes x.1).mp (mem_map_of_mem hx)
    obtain ⟨y, hy, hyx⟩ := mem_map.mp hk
    have hxS : x.1 ∈ S := hyx ▸ hes y hy
    rw [← less_iff_before hS hxS hlow, ← less_iff_before hS hhigh hxS, Date.less_iff, Date.less_iff]
  simp only [mem_map, mem_filter, decide_eq_true_eq]
  constructor
  · rintro ⟨x, ⟨hx, hr⟩, rfl⟩
    exact ⟨⟨x, hx, rfl⟩, (hbounds x hx).mp hr⟩
  · rintro ⟨⟨x, hx, rfl⟩, hr⟩
    exact ⟨x, ⟨hx, (hbounds x hx).mpr hr⟩, rfl⟩

end

/-- The order of a set of dates is chronological, with the maps over them, exactly when a later
    year always comes with a later day of the year. -/
theorem chronological_iff (V : Type) (S : Set Date) : Chronological V S ↔ YearsInStep S := by
  constructor
  · intro h a ha b hb hy
    rw [← Date.less_iff_earlierInYear]
    exact (h.less a ha b hb).mpr (.inl hy)
  · intro hS
    exact ⟨fun _ ha _ hb => less_iff_before hS ha hb, fun _ hes _ hd => find_dateMap hS hes hd,
      fun _ hes _ hlow _ hhigh => mem_range_dateMap hS hes hlow hhigh⟩

/-- New year's day of 1998 counts as earlier than the day after that of 1997, takes its place in a
    map that holds the new year's day of 1997, and a range query for 1998 returns a day of 1997. -/
theorem years_ignored :
    (Date.less ⟨1, 1, 1998⟩ ⟨2, 1, 1997⟩ ∧ ¬ Date.Before ⟨1, 1, 1998⟩ ⟨2, 1, 1997⟩) ∧
    (dateMap [(⟨1, 1, 1997⟩, ()), (⟨1, 1, 1998⟩, ())]).entries = [(⟨1, 1, 1998⟩, ())] ∧
    (range Date.less ⟨1, 1, 1998⟩ ⟨31, 12, 1998⟩ (dateMap [(⟨2, 1, 1997⟩, ())])).entries =
      [(⟨2, 1, 1997⟩, ())] := by
  decide

end Fiss.Pam
