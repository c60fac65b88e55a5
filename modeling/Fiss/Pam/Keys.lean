import Fiss.Pam.UpdateMap

/-! The keys of the change stream. `RccDTxn::WriteColumn` prints the key columns of a row and
    `updateMap` splits them again (`OLAP/PAM/tpch/utils.h`); out of warehouse, district and id it
    makes the one number, `pkey`, under which orders and customers are stored. -/

namespace Fiss.Pam
open List Prod Dict

/-! ### Key columns, printed and split -/

/-- A `std::string`. -/
abbrev Text := List Char

def npos : ℕ := 2 ^ 64 - 1

/-- One column after the other, each followed by a semicolon. -/
def joined (cols : List Text) : Text := cols.flatMap fun c => c ++ [';']

/-- The key columns of a row with their printed values. `Schema::do_add_column` refuses a name it
    has, and a string is shorter than `npos`. -/
structure KeyColumns where
  cols : List (Text × Text)
  distinct : (cols.map fst).Nodup
  fits : (joined (cols.map fst)).length < npos ∧ (joined (cols.map snd)).length < npos

/-- `p_key_col_name` and `row_key` of `WriteColumn`. -/
def KeyColumns.encode (k : KeyColumns) : Text × Text :=
  (joined (k.cols.map fst), joined (k.cols.map snd))

/-- The loop of `split` from `last` on. The unsigned difference `npos - last` is tested at the end. -/
def splitFrom (s : Text) : ℕ → ℕ → List Text
  | 0, _ => []
  | n + 1, last =>
    match (s.drop last).findIdx? (· = ';') with
    | some k => (s.drop last).take k :: splitFrom s n (last + k + 1)
    | none => if 0 < (npos + 2 ^ 64 - last) % 2 ^ 64 then [s.drop last] else []

def split (s : Text) : List Text := splitFrom s (s.length + 1) 0

/-- The loop of `updateMap` that fills `col_map`; it leaves the last element of the names out. -/
def colMap (pkeyColName pkeyVal : Text) : Dict Text Text :=
  ((split pkeyColName).dropLast.zip (split pkeyVal)).foldl (fun m e => m.set e.1 e.2) .empty

theorem splitFrom_joined {cols : List Text} (h : ∀ c ∈ cols, ';' ∉ c) :
    ∀ {pre : Text} {n : ℕ}, cols.length < n → (pre ++ joined cols).length < npos →
      splitFrom (pre ++ joined cols) n pre.length = cols ++ [[]] := by
  induction cols with
  | nil =>
    intro pre n hn hlen
    obtain ⟨n, rfl⟩ := Nat.exists_eq_add_one.mpr hn
    have hpos : 0 < (npos + 2 ^ 64 - pre.length) % 2 ^ 64 := by
      simp [joined, npos] at hlen ⊢
      omega
    have hdrop : (pre ++ joined []).drop pre.length = [] := by simp [joined]
    rw [splitFrom, hdrop, findIdx?_nil]
    exact if_pos hpos
  | cons c cols ih =>
    intro pre n hn hlen
    obtain ⟨n, rfl⟩ := Nat.exists_eq_add_one.mpr (Nat.zero_lt_of_lt hn)
    obtain ⟨hc, hcols⟩ := forall_mem_cons.mp h
    have hidx : (c ++ ';' :: joined cols).findIdx? (· = ';') = some c.length := by
      have hnone : c.findIdx? (· = ';') = none :=
        findIdx?_eq_none_iff.mpr fun x hx => decide_eq_false fun heq => hc (heq ▸ hx)
      simp [findIdx?_append, hnone, findIdx?_cons]
    have hcons : joined (c :: cols) = c ++ ';' :: joined cols := by simp [joined]
    have hnext : pre ++ (c ++ ';' :: joined cols) = (pre ++ (c ++ [';'])) ++ joined cols := by simp
    rw [hcons, hnext] at hlen
    have hrest := ih hcols (Nat.lt_of_succ_lt_succ hn) hlen
    rw [← hnext] at hrest
    rw [hcons, splitFrom, drop_left, hidx]
    simpa [Nat.add_assoc] using hrest

theorem split_joined {cols : List Text} (h : ∀ c ∈ cols, ';' ∉ c)
    (hlen : (joined cols).length < npos) : split (joined cols) = cols ++ [[]] := by
  have hle : cols.length ≤ (joined cols).length := by
    rw [joined, length_flatMap]
    exact (length_map (fun c : Text => (c ++ [';']).length)).symm.le.trans
      (length_le_sum_of_one_le _ fun i hi => by
        obtain ⟨c, -, rfl⟩ := mem_map.mp hi
        simp)
  exact @splitFrom_joined cols h [] _ (Nat.lt_succ_of_le hle) hlen

/-- What was printed is split into as many names as values, and read back column by column. -/
theorem colMap_encode (k : KeyColumns) (h : ∀ e ∈ k.cols, ';' ∉ e.1 ∧ ';' ∉ e.2) :
    (split k.encode.1).length = (split k.encode.2).length ∧
      ∀ name value, (colMap k.encode.1 k.encode.2).find name = some value ↔
        (name, value) ∈ k.cols := by
  have hnames : split k.encode.1 = k.cols.map fst ++ [[]] := by
    refine split_joined (fun c hc => ?_) k.fits.1
    obtain ⟨e, he, rfl⟩ := mem_map.mp hc
    exact (h e he).1
  have hvalues : split k.encode.2 = k.cols.map snd ++ [[]] := by
    refine split_joined (fun c hc => ?_) k.fits.2
    obtain ⟨e, he, rfl⟩ := mem_map.mp hc
    exact (h e he).2
  have hzip : (k.cols.map fst).zip (k.cols.map snd ++ [[]]) = k.cols := by
    rw [← append_nil (k.cols.map fst), zip_append (by simp), zip_nil_left,
      append_nil, ← unzip_fst, ← unzip_snd, zip_unzip]
  have hentries : (colMap k.encode.1 k.encode.2).entries = k.cols := by
    rw [colMap, hnames, hvalues, dropLast_concat, hzip, entries_foldl_set]
    · rfl
    · simpa [Dict.keys, Dict.empty] using k.distinct
  refine ⟨by simp [hnames, hvalues], fun name value => ⟨fun hfind => ?_, fun hmem => ?_⟩⟩
  · exact hentries ▸ mem_entries_of_find hfind
  · rw [← hentries] at hmem
    refine find_of_mem_entries ?_ hmem
    rw [Dict.keys, hentries]
    exact k.distinct

/-- The key columns of a district's row, one of them printed as nothing. -/
def districtKey : KeyColumns where
  cols := [(['d', '_', 'i', 'd'], ['7']), (['d', '_', 'w', '_', 'i', 'd'], [])]
  distinct := by decide
  fits := by decide

theorem colMap_encode_districtKey :
    (split districtKey.encode.1).length = (split districtKey.encode.2).length ∧
      ∀ name value, (colMap districtKey.encode.1 districtKey.encode.2).find name = some value ↔
        (name, value) ∈ districtKey.cols :=
  colMap_encode districtKey (by decide)

/-! ### Keys made of a warehouse, a district and an id -/

/-- `CHBENCHMARK_NEW_ORDER_0`: the order's id, and what is written back to `d_next_o_id`. -/
def newOrder0 (dNextOId : ℕ) : ℕ × ℕ := (dNextOId, dNextOId + 1)

/-- The next id of a district and the ids it has given out, from the 3000 orders it is loaded with
    on, after `n` new orders. -/
def districtIds : ℕ → ℕ × List ℕ
  | 0 => (3001, List.range' 1 3000)
  | n + 1 => ((newOrder0 (districtIds n).1).2, (districtIds n).2 ++ [(newOrder0 (districtIds n).1).1])

/-- The triples of `W` warehouses whose districts have had `n` new orders each. -/
def Reached (W n : ℕ) (t : ℕ × ℕ × ℕ) : Prop :=
  (1 ≤ t.1 ∧ t.1 ≤ W) ∧ (1 ≤ t.2.1 ∧ t.2.1 ≤ 10) ∧ t.2.2 ∈ (districtIds n).2

def tripleKey (t : ℕ × ℕ × ℕ) : ℕ := pkey t.1 t.2.1 t.2.2

/-- Two triples have different keys, and inserting or updating the order of the first, or updating
    its customer, leaves what is stored for the second. -/
structure Apart (t u : ℕ × ℕ × ℕ) : Prop where
  keys : tripleKey t ≠ tripleKey u
  insert : ∀ s txnId o, (o.oWId, o.oDId, o.oId) = t →
    (insertOrder s txnId o).m.om.lookup (tripleKey u) = s.m.om.lookup (tripleKey u)
  update : ∀ s col v, (updateMap s (.order t.2.2 t.2.1 t.1 col v)).m.om.lookup (tripleKey u) =
    s.m.om.lookup (tripleKey u)
  customer : ∀ s col v, (updateMap s (.customer t.2.2 t.2.1 t.1 col v)).m.cm.lookup (tripleKey u) =
    s.m.cm.lookup (tripleKey u)

theorem apart_of_ne {t u : ℕ × ℕ × ℕ} (h : tripleKey t ≠ tripleKey u) : Apart t u where
  keys := h
  insert s txnId o ho := by
    subst ho
    exact (Index.lookup_insert_ite ..).trans (if_neg h.symm)
  update s col v := by
    rw [updateMap]
    cases col.write v with
    | none => rfl
    | some f => exact (Index.lookup_update ..).trans (if_neg h.symm)
  customer s col v := by
    rw [updateMap]
    cases col.write v with
    | none => rfl
    | some f => exact (Index.lookup_update ..).trans (if_neg h.symm)

theorem mem_districtIds (n : ℕ) : (districtIds n).1 = 3001 + n ∧
    ∀ i, i ∈ (districtIds n).2 ↔ 1 ≤ i ∧ i ≤ 3000 + n := by
  induction n with
  | zero => exact ⟨rfl, fun i => by simp [districtIds, mem_range'_1]; omega⟩
  | succ n ih =>
    refine ⟨by simp [districtIds, newOrder0, ih.1]; omega, fun i => ?_⟩
    simp only [districtIds, newOrder0, mem_append, ih.2, ih.1, mem_singleton]
    omega

theorem keys_apart_iff (W n : ℕ) : (∀ t u, Reached W n t → Reached W n u → t ≠ u → Apart t u) ↔
      W = 0 ∨ W ≤ 42949 ∧ n ≤ 7000 := by
  have hids := (mem_districtIds n).2
  constructor
  · intro h
    by_contra hno
    rw [not_or, not_and_or] at hno
    obtain ⟨hW, hW' | hn⟩ := hno
    · exact (h (42950, 8, 1) (1, 1, 2705) (by simp [Reached, hids]; omega)
        (by simp [Reached, hids]; omega) (by decide)).keys rfl
    · exact (h (1, 1, 10001) (1, 2, 1) (by simp [Reached, hids]; omega)
        (by simp [Reached, hids]; omega) (by decide)).keys rfl
  · rintro hbound ⟨w, d, i⟩ ⟨w', d', i'⟩ ht hu hne
    simp only [Reached, hids] at ht hu
    refine apart_of_ne fun hkey => hne ?_
    simp only [tripleKey, pkey] at hkey
    have hsame : 100000 * w + 10000 * d + i = 100000 * w' + 10000 * d' + i' := by omega
    have : w = w' ∧ d = d' ∧ i = i' := by omega
    simp [this]

theorem carry_into_district : Reached 1 7001 (1, 1, 10001) ∧ Reached 1 7001 (1, 2, 1) ∧
    tripleKey (1, 1, 10001) = tripleKey (1, 2, 1) := by
  have hids := (mem_districtIds 7001).2
  exact ⟨by simp [Reached, hids], by simp [Reached, hids], rfl⟩

end Fiss.Pam
