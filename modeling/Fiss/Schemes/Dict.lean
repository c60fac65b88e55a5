import Mathlib

/-! Finite maps, as the ordered and hashed containers of the C++ library are used: look a key up,
    insert without overwriting, rewrite in place, erase, walk the keys. A map is the list
    of its entries in the order the keys were first stored; a reader only ever sees it through
    `find` and `keys`, so every operation comes with its `find` equation. -/

namespace Fiss
open List

/-- A finite map from `K` to `V`. -/
structure Dict (K V : Type) where
  entries : List (K × V) := []
  deriving DecidableEq, Repr

namespace Dict

variable {K V : Type} [DecidableEq K] {d : Dict K V}

/-- The map with no entry. -/
def empty : Dict K V := {}

variable (d)

/-- `m.find(k)`: the value stored under `k`. -/
def find (k : K) : Option V := d.entries.lookup k

/-- The stored keys. -/
def keys : List K := d.entries.map Prod.fst

/-- `m.empty()`. -/
def isEmpty : Bool := d.entries.isEmpty

/-- `m.insert(make_pair(k, v))` and `m.emplace(k, v)`: a key already there keeps its value. -/
def insert (k : K) (v : V) : Dict K V :=
  if (d.find k).isSome then d else ⟨d.entries ++ [(k, v)]⟩

/-- Rewrite the value under `k` where there is one. -/
def modify (k : K) (f : V → V) : Dict K V :=
  ⟨d.entries.map fun e => if e.1 = k then (e.1, f e.2) else e⟩

/-- `m[k] = v`. -/
def set (k : K) (v : V) : Dict K V := (d.insert k v).modify k fun _ => v

/-- `m.erase(k)`. -/
def erase (k : K) : Dict K V := ⟨d.entries.filter fun e => e.1 ≠ k⟩

variable {d}

@[simp] theorem find_empty (k : K) : (empty : Dict K V).find k = none := rfl

theorem lookup_map_modify (l : List (K × V)) (k k' : K) (f : V → V) :
    (l.map fun e => if e.1 = k then (e.1, f e.2) else e).lookup k' =
      if k' = k then (l.lookup k).map f else l.lookup k' := by
  induction l with
  | nil => simp
  | cons e l ih =>
    obtain ⟨a, v⟩ := e
    rw [map_cons]
    by_cases ha : a = k
    · subst ha
      by_cases hk : k' = a
      · subst hk; simp
      · simp only [lookup_cons, if_true, beq_eq_false_iff_ne.mpr hk, ih, if_neg hk]
    · simp only [if_neg ha, lookup_cons]
      by_cases hk : k' = a
      · subst hk; simp [ha]
      · rw [beq_eq_false_iff_ne.mpr hk, ih, beq_eq_false_iff_ne.mpr (Ne.symm ha)]

theorem lookup_filter_ne (l : List (K × V)) (k k' : K) :
    (l.filter fun e => e.1 ≠ k).lookup k' = if k' = k then none else l.lookup k' := by
  induction l with
  | nil => simp
  | cons e l ih =>
    obtain ⟨a, v⟩ := e
    by_cases ha : a = k
    · subst ha
      rw [filter_cons_of_neg (by simp), ih]
      by_cases hk : k' = a
      · rw [if_pos hk, if_pos hk]
      · rw [if_neg hk, if_neg hk, lookup_cons, beq_eq_false_iff_ne.mpr hk]
    · rw [filter_cons_of_pos (by simpa using ha), lookup_cons, lookup_cons, ih]
      by_cases hk : k' = a
      · subst hk; simp [ha]
      · rw [beq_eq_false_iff_ne.mpr hk]

theorem find_insert (d : Dict K V) (k k' : K) (v : V) :
    (d.insert k v).find k' = if k' = k then some ((d.find k).getD v) else d.find k' := by
  unfold insert
  cases hf : d.find k with
  | some w =>
    rw [Option.isSome_some, if_pos rfl]
    by_cases hk : k' = k
    · rw [if_pos hk, hk, hf, Option.getD_some]
    · rw [if_neg hk]
  | none =>
    rw [Option.isSome_none, if_neg (by simp)]
    simp only [find, lookup_append, Option.getD_none]
    by_cases hk : k' = k
    · rw [if_pos hk, hk]; unfold find at hf; simp [hf]
    · rw [if_neg hk, lookup_cons, beq_eq_false_iff_ne.mpr hk]; simp

theorem find_modify (d : Dict K V) (k k' : K) (f : V → V) :
    (d.modify k f).find k' = if k' = k then (d.find k).map f else d.find k' :=
  lookup_map_modify d.entries k k' f

theorem modify_idem {k : K} {f : V → V} (hf : ∀ v, f (f v) = f v) :
    (d.modify k f).modify k f = d.modify k f := by
  simp only [modify, map_map, Function.comp_def]
  refine congrArg mk (map_congr_left fun e _ => ?_)
  by_cases he : e.1 = k <;> simp [he, hf]

theorem modify_comm {k k' : K} {f : V → V} :
    (d.modify k f).modify k' f = (d.modify k' f).modify k f := by
  simp only [modify, map_map, Function.comp_def]
  refine congrArg mk (map_congr_left fun e _ => ?_)
  split_ifs <;> simp_all

theorem find_set (d : Dict K V) (k k' : K) (v : V) :
    (d.set k v).find k' = if k' = k then some v else d.find k' := by
  rw [set, find_modify, find_insert, find_insert, if_pos rfl]
  rcases eq_or_ne k' k with rfl | hk
  · rw [if_pos rfl, if_pos rfl, Option.map_some]
  · rw [if_neg hk, if_neg hk, if_neg hk]

theorem find_set_self (d : Dict K V) (k : K) (v : V) : (d.set k v).find k = some v := by
  rw [find_set, if_pos rfl]

theorem find_set_ne (d : Dict K V) {k k' : K} (h : k' ≠ k) (v : V) :
    (d.set k v).find k' = d.find k' := by
  rw [find_set, if_neg h]

theorem find_erase (d : Dict K V) (k k' : K) :
    (d.erase k).find k' = if k' = k then none else d.find k' :=
  lookup_filter_ne d.entries k k'

theorem mem_entries_insert {k : K} {v : V} {e : K × V} (he : e ∈ (d.insert k v).entries) :
    e ∈ d.entries ∨ d.find k = none ∧ e = (k, v) := by
  rw [insert] at he
  split at he
  · exact .inl he
  · next hnew =>
    exact (mem_append.mp he).imp_right fun he =>
      ⟨Option.not_isSome_iff_eq_none.mp hnew, mem_singleton.mp he⟩

theorem mem_entries_of_find {k : K} {v : V} (h : d.find k = some v) : (k, v) ∈ d.entries := by
  obtain ⟨l, l', hl, -⟩ := lookup_eq_some_iff.mp h
  rw [hl]
  exact mem_append_right l mem_cons_self

theorem find_of_mem_entries (h : d.keys.Nodup) {e : K × V} (he : e ∈ d.entries) :
    d.find e.1 = some e.2 := by
  unfold keys at h
  unfold find
  induction hl : d.entries generalizing d with
  | nil => rw [hl] at he; exact absurd he not_mem_nil
  | cons a l ih =>
    rw [hl] at h he
    obtain ⟨ha, hnd⟩ := nodup_cons.mp h
    rw [lookup_cons]
    rcases mem_cons.mp he with rfl | he
    · rw [beq_self_eq_true]
    · have hne : e.1 ≠ a.1 := fun heq => ha (heq ▸ mem_map_of_mem he)
      rw [beq_eq_false_iff_ne.mpr hne]
      exact ih (d := ⟨l⟩) hnd he rfl

theorem mem_keys {k : K} : k ∈ d.keys ↔ (d.find k).isSome := by
  unfold keys find
  induction d.entries with
  | nil => simp
  | cons e l ih =>
    obtain ⟨a, v⟩ := e
    rw [map_cons, mem_cons, lookup_cons]
    by_cases hk : k = a
    · subst hk; simp
    · rw [beq_eq_false_iff_ne.mpr hk, ← ih]; simp [hk]

theorem keys_modify (d : Dict K V) (k : K) (f : V → V) : (d.modify k f).keys = d.keys := by
  rw [keys, modify, map_map]
  refine map_congr_left fun e _ => ?_
  simp only [Function.comp]
  split <;> rfl

theorem nodup_keys_insert (h : d.keys.Nodup) (k : K) (v : V) : (d.insert k v).keys.Nodup := by
  unfold insert
  split
  · exact h
  · rename_i hk
    have hkeys : (⟨d.entries ++ [(k, v)]⟩ : Dict K V).keys = d.keys ++ [k] := by simp [keys]
    rw [hkeys, nodup_append]
    refine ⟨h, nodup_singleton k, fun a ha b hb hab => ?_⟩
    rw [mem_singleton.mp hb] at hab
    exact hk (mem_keys.mp (hab ▸ ha))

theorem nodup_keys_set (h : d.keys.Nodup) (k : K) (v : V) : (d.set k v).keys.Nodup := by
  rw [set, keys_modify]
  exact nodup_keys_insert h k v

theorem entries_set_new {k : K} (h : k ∉ d.keys) (v : V) :
    (d.set k v).entries = d.entries ++ [(k, v)] := by
  have hnone : (d.find k).isSome = false := by
    rw [← Bool.not_eq_true, ← mem_keys]; exact h
  have hmap : d.entries.map (fun e => if e.1 = k then (e.1, v) else e) = d.entries := by
    conv_rhs => rw [← map_id d.entries]
    refine map_congr_left fun e he => if_neg ?_
    rintro rfl
    exact h (mem_map_of_mem he)
  rw [set, insert, hnone, if_neg Bool.false_ne_true, modify, map_append, hmap]
  simp

theorem entries_foldl_set (xs : List (K × V)) (d : Dict K V)
    (h : (d.keys ++ xs.map Prod.fst).Nodup) :
    (xs.foldl (fun d e => d.set e.1 e.2) d).entries = d.entries ++ xs := by
  induction xs generalizing d with
  | nil => simp
  | cons e xs ih =>
    have hk : e.1 ∉ d.keys := fun hmem =>
      (nodup_append.mp h).2.2 e.1 hmem e.1 (by simp) rfl
    have hset := entries_set_new hk e.2
    have hkeys : (d.set e.1 e.2).keys = d.keys ++ [e.1] := by simp [keys, hset]
    rw [foldl_cons, ih _ (by rw [hkeys]; simpa using h), hset]
    simp

theorem set_set (d : Dict K V) (k : K) (v w : V) : (d.set k v).set k w = d.set k w := by
  have hsome : ((d.set k v).find k).isSome := by rw [find_set_self]; rfl
  have htwice : ∀ f : V → V, ((d.insert k v).modify k f).modify k (fun _ => w) =
      (d.insert k v).modify k fun _ => w := fun f => by
    simp only [modify, map_map]
    congr 1
    refine map_congr_left fun e _ => ?_
    simp only [Function.comp]
    split <;> rfl
  rw [set, insert, if_pos hsome, set, htwice, set]
  by_cases hk : (d.find k).isSome
  · rw [insert, if_pos hk, insert, if_pos hk]
  · rw [insert, if_neg hk, insert, if_neg hk]
    simp [modify]

theorem find_of_isEmpty (h : d.isEmpty = true) (k : K) : d.find k = none := by
  rw [find, isEmpty_iff.mp h]; rfl

/-! ### Properties of all entries -/

/-- `P` holds of every entry. -/
def All (P : K → V → Prop) (d : Dict K V) : Prop := ∀ e ∈ d.entries, P e.1 e.2

section All
variable {P : K → V → Prop} {d : Dict K V} {k : K}

omit [DecidableEq K] in
theorem all_empty : All P (empty : Dict K V) := forall_mem_nil _

theorem all_insert (h : All P d) {v : V} (hv : P k v) : All P (d.insert k v) := by
  unfold insert
  split
  · exact h
  · exact forall_mem_append.mpr ⟨h, forall_mem_singleton.mpr hv⟩

theorem all_modify (h : All P d) {f : V → V} (hf : ∀ v, P k v → P k (f v)) :
    All P (d.modify k f) := by
  intro e he
  obtain ⟨e', he', rfl⟩ := mem_map.mp he
  split
  case isTrue hk => exact hk ▸ hf _ (hk ▸ h e' he')
  case isFalse => exact h e' he'

theorem all_erase (h : All P d) (k : K) : All P (d.erase k) :=
  fun e he => h e (mem_of_mem_filter he)

end All

/-! ### Two maps with the same keys -/

/-- The maps have the same keys, and under each of them values in relation. -/
def Rel (R : K → V → V → Prop) (d d' : Dict K V) : Prop :=
  ∀ k, Option.Rel (R k) (d.find k) (d'.find k)

section Rel
variable {R R' R'' : K → V → V → Prop} {d d' d'' : Dict K V} {k : K} {v v' : V}

theorem rel_refl (h : ∀ k v, R k v v) (d : Dict K V) : Rel R d d := fun k => by
  cases d.find k with
  | none => exact .none
  | some v => exact .some (h k v)

theorem Rel.trans (h : Rel R d d') (h' : Rel R' d' d'')
    (ht : ∀ k a b c, R k a b → R' k b c → R'' k a c) : Rel R'' d d'' := fun k =>
  match d.find k, d'.find k, d''.find k, h k, h' k with
  | _, _, _, .none, .none => .none
  | _, _, _, .some hab, .some hbc => .some (ht k _ _ _ hab hbc)

theorem Rel.mono (h : Rel R d d') (hR : ∀ k a b, R k a b → R' k a b) : Rel R' d d' := fun k =>
  match d.find k, d'.find k, h k with
  | _, _, .none => .none
  | _, _, .some hab => .some (hR k _ _ hab)

theorem Rel.find (h : Rel R d d') (hv : d.find k = some v) :
    ∃ v', d'.find k = some v' ∧ R k v v' := by
  have hk := h k
  rw [hv] at hk
  cases hv' : d'.find k with
  | none => rw [hv'] at hk; cases hk
  | some v' =>
    rw [hv'] at hk
    cases hk with
    | some hab => exact ⟨v', rfl, hab⟩

theorem Rel.find_rev (h : Rel R d d') (hv : d'.find k = some v') :
    ∃ v, d.find k = some v ∧ R k v v' := by
  have hk := h k
  rw [hv] at hk
  cases hv' : d.find k with
  | none => rw [hv'] at hk; cases hk
  | some v =>
    rw [hv'] at hk
    cases hk with
    | some hab => exact ⟨v, rfl, hab⟩

theorem rel_set (hrefl : ∀ k v, R k v v) (hv : d.find k = some v) (hR : R k v v') :
    Rel R d (d.set k v') := fun k' => by
  rw [find_set]
  rcases eq_or_ne k' k with rfl | hk
  · rw [if_pos rfl, hv]; exact .some hR
  · rw [if_neg hk]; exact rel_refl hrefl d k'

end Rel

end Dict

end Fiss
