import Fiss.Schemes.Dict

/-! Ordered maps, as the tree maps of the C++ library are used where they are walked: iteration goes
    through the entries by ascending key. A map is the list of its entries, strictly ascending. -/

namespace Fiss
open List Option Prod

/-- A finite map whose entries are walked by ascending key. -/
structure OrdMap (K V : Type) [LinearOrder K] where
  entries : List (K × V) := []
  sorted : entries.Pairwise fun a b => a.1 < b.1 := by exact List.Pairwise.nil

namespace OrdMap

variable {K V : Type} [LinearOrder K] {m : OrdMap K V} {k k' : K} {v w : V}

instance [DecidableEq V] : DecidableEq (OrdMap K V) := fun m n =>
  decidable_of_iff (m.entries = n.entries)
    ⟨fun h => by cases m; cases n; cases h; rfl, fun h => congrArg entries h⟩

def empty : OrdMap K V := {}

def keys (m : OrdMap K V) : List K := m.entries.map fst

def isEmpty (m : OrdMap K V) : Bool := m.entries.isEmpty

/-- Put `v` at the place of `k`, over what was there. -/
def place (k : K) (v : V) : List (K × V) → List (K × V)
  | [] => [(k, v)]
  | e :: l => if k < e.1 then (k, v) :: e :: l else if k = e.1 then (k, v) :: l else e :: place k v l

theorem mem_place {e : K × V} : ∀ {l : List (K × V)}, e ∈ place k v l → e = (k, v) ∨ e ∈ l
  | [], h => .inl (mem_singleton.mp h)
  | b :: l, h => by
    rw [place] at h
    split at h
    · exact mem_cons.mp h
    · split at h
      · exact (mem_cons.mp h).imp_right (mem_cons_of_mem b)
      · rcases mem_cons.mp h with rfl | h
        · exact .inr mem_cons_self
        · exact (mem_place h).imp_right (mem_cons_of_mem b)

theorem sorted_place : ∀ {l : List (K × V)}, (l.Pairwise fun a b => a.1 < b.1) →
    (place k v l).Pairwise fun a b => a.1 < b.1
  | [], _ => pairwise_singleton _ _
  | b :: l, h => by
    obtain ⟨hb, hl⟩ := pairwise_cons.mp h
    rw [place]
    split
    · next hkb =>
      exact pairwise_cons.mpr
        ⟨forall_mem_cons.mpr ⟨hkb, fun e he => hkb.trans (hb e he)⟩, h⟩
    · next hkb =>
      split
      · next heq => exact pairwise_cons.mpr ⟨fun e he => heq ▸ hb e he, hl⟩
      · next hne =>
        refine pairwise_cons.mpr ⟨fun e he => ?_, sorted_place hl⟩
        rcases mem_place he with rfl | he
        · exact lt_of_le_of_ne (not_lt.mp hkb) (Ne.symm hne)
        · exact hb e he

def find (m : OrdMap K V) (k : K) : Option V := m.entries.lookup k

/-- `m[k] = v`. -/
def set (m : OrdMap K V) (k : K) (v : V) : OrdMap K V := ⟨place k v m.entries, sorted_place m.sorted⟩

/-- `m.erase(k)`. -/
def erase (m : OrdMap K V) (k : K) : OrdMap K V :=
  ⟨m.entries.filter fun e => e.1 ≠ k, m.sorted.filter _⟩

theorem lookup_cons_ite (e : K × V) (l : List (K × V)) :
    (e :: l).lookup k = if k = e.1 then some e.2 else l.lookup k := by
  rw [lookup_cons]
  rcases eq_or_ne k e.1 with rfl | hk
  · simp
  · simp [beq_eq_false_iff_ne.mpr hk, hk]

theorem lookup_place (l : List (K × V)) : (place k v l).lookup k' =
    if k' = k then some v else l.lookup k' := by
  induction l with
  | nil => rw [place, lookup_cons_ite]
  | cons e l ih =>
    rw [place]
    split
    · rw [lookup_cons_ite]
    · split
      · next heq =>
        rw [lookup_cons_ite, lookup_cons_ite, ← heq]
        split <;> rfl
      · next hne =>
        rw [lookup_cons_ite, lookup_cons_ite, ih]
        rcases eq_or_ne k' k with rfl | hk
        · rw [if_neg hne, if_pos rfl, if_pos rfl]
        · rw [if_neg hk, if_neg hk]

theorem find_set (m : OrdMap K V) (k k' : K) (v : V) :
    (m.set k v).find k' = if k' = k then some v else m.find k' := lookup_place m.entries

theorem find_set_self (m : OrdMap K V) (k : K) (v : V) : (m.set k v).find k = some v := by
  rw [find_set, if_pos rfl]

theorem find_set_ne (m : OrdMap K V) (h : k' ≠ k) (v : V) : (m.set k v).find k' = m.find k' := by
  rw [find_set, if_neg h]

theorem getD_find_touch (m : OrdMap K V) (k k' : K) (v : V) :
    ((m.set k ((m.find k).getD v)).find k').getD v = (m.find k').getD v := by
  rw [find_set]
  split
  case isTrue h => rw [h, getD_some]
  case isFalse => rfl

theorem find_erase (m : OrdMap K V) (k k' : K) :
    (m.erase k).find k' = if k' = k then none else m.find k' :=
  Dict.lookup_filter_ne m.entries k k'

theorem find_foldl_set (f : K → V) : ∀ (l : List K) (m : OrdMap K V),
    (l.foldl (fun m k => m.set k (f k)) m).find k = if k ∈ l then some (f k) else m.find k
  | [], _ => (if_neg not_mem_nil).symm
  | a :: l, m => by
    rw [foldl_cons, find_foldl_set f l (m.set a (f a)), find_set]
    rcases eq_or_ne k a with rfl | hk
    · rw [if_pos rfl, if_pos mem_cons_self, ite_self]
    · rw [if_neg hk]
      exact if_congr (by rw [mem_cons, or_iff_right hk]) rfl rfl

/-- The entries of both; where both have a key, that of `n`. -/
def union (m n : OrdMap K V) : OrdMap K V := n.entries.foldr (fun e m => m.set e.1 e.2) m

theorem find_union (m n : OrdMap K V) (k : K) : (m.union n).find k = (n.find k).or (m.find k) := by
  rw [union, find, find]
  induction n.entries with
  | nil => rfl
  | cons e l ih =>
    rw [foldr_cons, ← find, find_set, lookup_cons_ite]
    split
    · rfl
    · exact ih

/-- The map with its values changed. -/
def mapVal {W : Type} (f : V → W) (m : OrdMap K V) : OrdMap K W where
  entries := m.entries.map fun e => (e.1, f e.2)
  sorted := pairwise_map.mpr m.sorted

theorem find_mapVal {W : Type} (f : V → W) (m : OrdMap K V) :
    (m.mapVal f).find k = (m.find k).map f := by
  change (m.entries.map fun e => (e.1, f e.2)).lookup k = (m.entries.lookup k).map f
  induction m.entries with
  | nil => rfl
  | cons e l ih =>
    rw [map_cons, lookup_cons_ite, lookup_cons_ite, ih]
    split <;> rfl

theorem lookup_eq_some : ∀ {l : List (K × V)}, (l.Pairwise fun a b => a.1 < b.1) →
    (l.lookup k = some v ↔ (k, v) ∈ l)
  | [], _ => by simp
  | e :: l, h => by
    obtain ⟨he, hl⟩ := pairwise_cons.mp h
    rw [lookup_cons_ite, mem_cons]
    rcases eq_or_ne k e.1 with rfl | hk
    · rw [if_pos rfl]
      constructor
      · intro hv
        exact .inl (Prod.ext rfl (some.inj hv).symm)
      · rintro (heq | hmem)
        · rw [← heq]
        · exact absurd (he _ hmem) (lt_irrefl _)
    · rw [if_neg hk, lookup_eq_some hl]
      exact ⟨.inr, fun h => h.resolve_left fun heq => hk (congrArg fst heq)⟩

theorem find_eq_some : m.find k = some v ↔ (k, v) ∈ m.entries := lookup_eq_some m.sorted

theorem nodup_keys (m : OrdMap K V) : m.keys.Nodup :=
  pairwise_map.mpr (m.sorted.imp fun h => h.ne)

theorem mem_keys : k ∈ m.keys ↔ (m.find k).isSome := by
  simp [keys, isSome_iff_exists, find_eq_some]

theorem length_eq {l : List K} (hl : l.Nodup) (h : ∀ k, (m.find k).isSome ↔ k ∈ l) :
    m.entries.length = l.length := by
  have hperm : m.keys.Perm l :=
    (perm_ext_iff_of_nodup m.nodup_keys hl).mpr fun k => mem_keys.trans (h k)
  rw [← hperm.length_eq, keys, length_map]

theorem filter_lookup : ∀ {l : List (K × V)}, (l.Pairwise fun a b => a.1 < b.1) →
    l.filter (fun e => e.1 = k) = ((l.lookup k).map fun v => (k, v)).toList
  | [], _ => rfl
  | e :: l, h => by
    obtain ⟨he, hl⟩ := pairwise_cons.mp h
    rw [lookup_cons_ite]
    rcases eq_or_ne k e.1 with rfl | hk
    · have hnone : l.filter (fun a => a.1 = e.1) = [] := by
        simpa using fun a b hab => (he (a, b) hab).ne'
      simp [hnone]
    · simp [hk, hk.symm, filter_lookup hl]

theorem filter_key (m : OrdMap K V) (k : K) :
    m.entries.filter (fun e => e.1 = k) = ((m.find k).map fun v => (k, v)).toList :=
  filter_lookup m.sorted

end OrdMap

end Fiss
