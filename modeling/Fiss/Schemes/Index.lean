import Mathlib

/-! Finite maps that nest and are compared as mathematical maps, and the ways to build one from rows:
    a primary index (one row under each key), a secondary index (the rows of a key as an index of
    their own), the same for the entries of an index, and the pairing of two indices on their common
    keys. A key that several rows share gets the first of them. -/

namespace Fiss
open Option List

/-- A finite map from `K` to `V`; two are equal when they look up the same values. -/
abbrev Index (K V : Type) := Finmap fun _ : K => V

namespace Index

variable {K L V W X : Type} [DecidableEq K] [DecidableEq L]

/-- The map that holds `f k` under those keys of `s` for which it is a value. -/
def tabulate (s : Finset K) (f : K → Option V) : Index K V :=
  Finmap.keysLookupEquiv.symm ⟨(s.filter fun k => (f k).isSome, fun k => if k ∈ s then f k else none),
    fun k => by by_cases hk : k ∈ s <;> simp [hk]⟩

theorem lookup_tabulate (s : Finset K) (f : K → Option V) (k : K) :
    (tabulate s f).lookup k = if k ∈ s then f k else none :=
  Finmap.keysLookupEquiv_symm_apply_lookup _ k

theorem lookup_tabulate_of_some {s : Finset K} {f : K → Option V} {k : K}
    (h : ∀ v, f k = some v → k ∈ s) : (tabulate s f).lookup k = f k := by
  rw [lookup_tabulate]
  cases hf : f k with
  | none => exact ite_self none
  | some v => rw [if_pos (h v hf)]

/-- Rewrite the value under `k` where there is one. -/
def update (m : Index K V) (k : K) (f : V → V) : Index K V :=
  match m.lookup k with
  | none => m
  | some v => m.insert k (f v)

/-- The entries whose values satisfy `p`. -/
def filter (p : V → Bool) (m : Index K V) : Index K V :=
  tabulate m.keys fun k => (m.lookup k).filter p

/-- The rows under their keys. -/
def primaryIndex (key : X → K) (xs : List X) : Index K X :=
  tabulate (xs.map key).toFinset fun k => xs.find? fun x => key x = k

/-- The rows under their keys, each with a value computed for it. -/
def makePairedIndex (key : X → K) (val : X → V) (xs : List X) : Index K (X × V) :=
  tabulate (xs.map key).toFinset fun k => (xs.find? fun x => key x = k).map fun x => (x, val x)

/-- The rows grouped by `key`, each group an index by `inner`. -/
def secondaryIndex (key : X → K) (inner : X → L) (xs : List X) : Index K (Index L X) :=
  tabulate (xs.map key).toFinset fun k => some (primaryIndex inner (xs.filter fun x => key x = k))

/-- The entries of an index grouped by `key`, each group an index by the same keys as before. -/
def regroupIndex (key : V → L) (m : Index K V) : Index L (Index K V) :=
  tabulate (m.entries.map fun e => key e.2).toFinset fun k => some (m.filter fun v => key v = k)

/-- The values two indices hold under a common key, in pairs. -/
def pairedIndex (a : Index K V) (b : Index K W) : Index K (V × W) :=
  tabulate a.keys fun k => (a.lookup k).bind fun v => (b.lookup k).map fun w => (v, w)

/-! ### What they look up -/

theorem lookup_insert_ite (m : Index K V) (k k' : K) (v : V) :
    (m.insert k v).lookup k' = if k' = k then some v else m.lookup k' := by
  rcases eq_or_ne k' k with rfl | hk
  · rw [if_pos rfl, Finmap.lookup_insert]
  · rw [if_neg hk, Finmap.lookup_insert_of_ne m hk]

theorem lookup_update (m : Index K V) (k k' : K) (f : V → V) :
    (m.update k f).lookup k' = if k' = k then (m.lookup k).map f else m.lookup k' := by
  unfold update
  cases hm : m.lookup k with
  | none =>
    rcases eq_or_ne k' k with rfl | hk
    · rw [if_pos rfl, map_none]; exact hm
    · rw [if_neg hk]
  | some v => exact lookup_insert_ite m k k' (f v)

@[simp] theorem lookup_filter (p : V → Bool) (m : Index K V) (k : K) :
    (m.filter p).lookup k = (m.lookup k).filter p := by
  refine lookup_tabulate_of_some fun v hv => ?_
  obtain ⟨hv, -⟩ := filter_eq_some_iff.mp hv
  exact Finmap.mem_keys.mpr (Finmap.mem_of_lookup_eq_some hv)

theorem update_comm (m : Index K V) {k k' : K} {f g : V → V} (h : ∀ v, f (g v) = g (f v)) :
    (m.update k g).update k' f = (m.update k' f).update k g := by
  refine Finmap.ext_lookup fun a => ?_
  simp only [lookup_update]
  rcases eq_or_ne k k' with rfl | hk
  · split <;> simp [Function.comp_def, h]
  · by_cases ha : a = k' <;> by_cases hb : a = k <;> simp_all [Ne.symm]

theorem key_eq_of_find {key : X → K} {xs : List X} {k : K} {x : X}
    (h : xs.find? (fun x => key x = k) = some x) : key x = k := by
  have hk := find?_some h
  exact of_decide_eq_true hk

theorem mem_keys_of_find {key : X → K} {xs : List X} {k : K} {x : X}
    (h : xs.find? (fun x => key x = k) = some x) : k ∈ (xs.map key).toFinset := by
  rw [List.mem_toFinset, ← key_eq_of_find h]
  exact mem_map_of_mem (mem_of_find?_eq_some h)

@[simp] theorem lookup_primaryIndex (key : X → K) (xs : List X) (k : K) :
    (primaryIndex key xs).lookup k = xs.find? fun x => key x = k :=
  lookup_tabulate_of_some fun _ h => mem_keys_of_find h

@[simp] theorem lookup_makePairedIndex (key : X → K) (val : X → V) (xs : List X) (k : K) :
    (makePairedIndex key val xs).lookup k =
      (xs.find? fun x => key x = k).map fun x => (x, val x) := by
  refine lookup_tabulate_of_some fun _ h => ?_
  obtain ⟨x, hx, -⟩ := map_eq_some_iff.mp h
  exact mem_keys_of_find hx

theorem lookup_secondaryIndex (key : X → K) (inner : X → L) (xs : List X) (k : K) :
    (secondaryIndex key inner xs).lookup k =
      if k ∈ xs.map key then some (primaryIndex inner (xs.filter fun x => key x = k)) else none := by
  rw [secondaryIndex, lookup_tabulate]
  simp only [List.mem_toFinset]

theorem lookup_regroupIndex_eq_some {key : V → L} {m : Index K V} {k : L} {g : Index K V} :
    (regroupIndex key m).lookup k = some g ↔
      (∃ a v, m.lookup a = some v ∧ key v = k) ∧ m.filter (fun v => key v = k) = g := by
  rw [regroupIndex, lookup_tabulate, ite_none_right_eq_some, some.injEq]
  refine and_congr_left fun _ => ?_
  simp only [Multiset.mem_toFinset, Multiset.mem_map, Finmap.lookup_eq_some_iff]
  exact ⟨fun ⟨e, he, hk⟩ => ⟨e.1, e.2, he, hk⟩, fun ⟨a, v, he, hk⟩ => ⟨⟨a, v⟩, he, hk⟩⟩

theorem lookup_regroupIndex_bind (key : V → L) (m : Index K V) (k : L) (a : K) :
    ((regroupIndex key m).lookup k).bind (fun g => g.lookup a) =
      (m.lookup a).filter fun v => key v = k := by
  cases hg : (regroupIndex key m).lookup k with
  | some g => rw [bind_some, ← (lookup_regroupIndex_eq_some.mp hg).2, lookup_filter]
  | none =>
    rw [bind_none, eq_comm, filter_eq_none_iff]
    intro v hv hk
    have hsome := lookup_regroupIndex_eq_some.mpr ⟨⟨a, v, hv, of_decide_eq_true hk⟩, rfl⟩
    rw [hg] at hsome
    cases hsome

theorem regroupIndex_injective (key : V → L) :
    Function.Injective (regroupIndex key : Index K V → Index L (Index K V)) := by
  intro m m' h
  refine Finmap.ext_lookup fun a => ext fun v => ?_
  have hbind := lookup_regroupIndex_bind key m (key v) a
  rw [h, lookup_regroupIndex_bind] at hbind
  have hv := congrArg (fun o => o = some v) hbind
  simpa [filter_eq_some_iff] using hv.symm

@[simp] theorem lookup_pairedIndex (a : Index K V) (b : Index K W) (k : K) :
    (pairedIndex a b).lookup k = (a.lookup k).bind fun v => (b.lookup k).map fun w => (v, w) := by
  refine lookup_tabulate_of_some fun _ h => ?_
  obtain ⟨v, hv, -⟩ := bind_eq_some_iff.mp h
  exact Finmap.mem_keys.mpr (Finmap.mem_of_lookup_eq_some hv)

theorem lookup_of_regroupIndex {key : V → L} {m g : Index K V} {k : L} {a : K} {v : V}
    (hg : (regroupIndex key m).lookup k = some g) (hv : g.lookup a = some v) :
    m.lookup a = some v := by
  rw [← (lookup_regroupIndex_eq_some.mp hg).2, lookup_filter] at hv
  exact (filter_eq_some_iff.mp hv).1

theorem lookup_of_pairedIndex {a : Index L X} {key : V → L} {m : Index K V} {k : L}
    {e : X × Index K V} {b : K} {v : V}
    (he : (pairedIndex a (regroupIndex key m)).lookup k = some e) (hv : e.2.lookup b = some v) :
    m.lookup b = some v := by
  rw [lookup_pairedIndex] at he
  obtain ⟨x, -, he⟩ := bind_eq_some_iff.mp he
  obtain ⟨g, hg, rfl⟩ := map_eq_some_iff.mp he
  exact lookup_of_regroupIndex hg hv

/-! ### Rows with distinct keys -/

section
variable {key : X → K} {xs ys : List X} {k : K} {x : X}

/-- No two of the rows share a key. -/
def Distinct (key : X → K) (xs : List X) : Prop := ∀ x ∈ xs, ∀ y ∈ xs, key x = key y → x = y

theorem find_key_eq_some (h : Distinct key xs) :
    xs.find? (fun x => key x = k) = some x ↔ x ∈ xs ∧ key x = k := by
  constructor
  · intro hf
    exact ⟨mem_of_find?_eq_some hf, key_eq_of_find hf⟩
  · rintro ⟨hx, hk⟩
    obtain ⟨y, hy⟩ : ∃ y, xs.find? (fun x => key x = k) = some y :=
      isSome_iff_exists.mp (find?_isSome.mpr ⟨x, hx, decide_eq_true hk⟩)
    rw [hy, h y (mem_of_find?_eq_some hy) x hx ((key_eq_of_find hy).trans hk.symm)]

theorem map_entries_primaryIndex (h : (xs.map key).Nodup) :
    (primaryIndex key xs).entries.map (fun e => e.2) = (xs : Multiset X) := by
  have hd : Distinct key xs := fun _ hx _ hy hk => inj_on_of_nodup_map h hx hy hk
  have hentries : (primaryIndex key xs).entries =
      (xs.map (fun x => ⟨key x, x⟩) : List (Σ _ : K, X)) := by
    refine (Multiset.Nodup.ext (Finmap.nodup_entries _) ?_).mpr fun e => ?_
    · exact Multiset.coe_nodup.mpr (.of_map Sigma.fst (by rwa [List.map_map]))
    · rw [← Finmap.lookup_eq_some_iff, lookup_primaryIndex, find_key_eq_some hd,
        Multiset.mem_coe, List.mem_map]
      constructor
      · rintro ⟨hx, hk⟩
        exact ⟨e.2, hx, by rw [hk]⟩
      · rintro ⟨x, hx, rfl⟩
        exact ⟨hx, rfl⟩
  rw [hentries, Multiset.map_coe, List.map_map]
  exact congrArg _ (map_id xs)

theorem primaryIndex_congr (h : Distinct key ys) (hmem : ∀ x, x ∈ xs ↔ x ∈ ys) :
    primaryIndex key xs = primaryIndex key ys := by
  have hxs : Distinct key xs := fun x hx y hy => h x ((hmem x).mp hx) y ((hmem y).mp hy)
  refine Finmap.ext_lookup fun k => ext fun x => ?_
  rw [lookup_primaryIndex, lookup_primaryIndex, find_key_eq_some hxs, find_key_eq_some h, hmem]

end

end Index

end Fiss
