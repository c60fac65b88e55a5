import Fiss.Schemes.OrdSet

/-! Which columns a transaction announces: `GetTouchedTblCols` (`deptran/brq/sched.cc`) is called
    for each of its pieces, brings the piece's id to that of its family, and counts the columns
    listed for the family in a set of pairs. The table name it returns is used by no caller. -/

namespace Fiss.Brq.Touched
open Function OrdSet

/-- The pieces of the update transactions (`chBenchmark/piece.h`). -/
inductive Piece
  | newOrder (n : Fin 5)
  | newOrderRI (i : Fin 1000)
  | newOrderRS (i : Fin 1000)
  | newOrderWS (i : Fin 1000)
  | newOrderWOL (i : Fin 1000)
  | payment (n : Fin 6)
  | orderStatus (n : Fin 4)
  | delivery (n : Fin 4)
  | stockLevel (n : Fin 2)
  | stockLevelRS (i : Fin 1000)
  deriving DecidableEq

def Piece.innId : Piece → ℕ
  | .newOrder n => 1000 + n
  | .newOrderRI i => 15000 + i
  | .newOrderRS i => 16000 + i
  | .newOrderWS i => 17000 + i
  | .newOrderWOL i => 18000 + i
  | .payment n => 200 + n
  | .orderStatus n => 300 + n
  | .delivery n => 400 + n
  | .stockLevel n => 500 + n
  | .stockLevelRS i => 52000 + i

/-- The id of the family: that of a fixed piece itself, of an indexed piece the one with index 0. -/
def Piece.family : Piece → ℕ
  | .newOrderRI _ => 15000
  | .newOrderRS _ => 16000
  | .newOrderWS _ => 17000
  | .newOrderWOL _ => 18000
  | .stockLevelRS _ => 52000
  | p => p.innId

/-- `touch_col_map`, where a list is not empty. The keys of the queries have six digits. -/
def touchColMap : ℕ → List String
  | 1000 => ["district.d_next_o_id"]
  | 17000 => ["stock.s_quantity", "stock.s_ytd", "stock.s_order_cnt", "stock.s_remote_cnt"]
  | 202 => ["district.d_ytd"]
  | 204 => ["customer.c_balance", "customer.c_ytd_payment", "customer.c_data"]
  | 401 => ["order.o_carrier_id"]
  | 402 => ["order_line.ol_delivery_d"]
  | 403 => ["customer.c_balance", "customer.c_delivery_cnt"]
  | _ => []

/-- The loop `while (id >= 100) id /= 10`, a `uint32_t` having ten digits at most. -/
def truncate : ℕ → ℕ → ℕ
  | 0, id => id
  | n + 1, id => if 100 ≤ id then truncate n (id / 10) else id

def normalized (id : ℕ) : ℕ := if 1000 ≤ id then truncate 10 id * 1000 else id

/-- The columns of a partition with their counts. -/
abbrev Cols := OrdSet (String ×ₗ ℕ)

/-- The loop body for one column: its pair is erased and inserted with the next count. -/
def bump (s : Cols) (col : String) : Cols :=
  match s.elems.find? fun e => (ofLex e).1 = col with
  | some e => (s.erase e).insert (toLex (col, (ofLex e).2 + 1))
  | none => s.insert (toLex (col, 1))

/-- `GetTouchedTblCols`, for an update. -/
def getTouchedTblCols (cols : ℕ → Cols) (innId par : ℕ) : ℕ → Cols :=
  update cols par ((touchColMap (normalized innId)).foldl bump (cols par))

/-- The calls for the pieces of a transaction, each with its partition. -/
def announce (ps : List (Piece × ℕ)) : ℕ → Cols :=
  ps.foldl (fun cols p => getTouchedTblCols cols p.1.innId p.2) fun _ => ∅

/-- The set holds exactly the columns with a positive count, each with its count. -/
def Counts (s : Cols) (f : String → ℕ) : Prop :=
  ∀ c n, toLex (c, n) ∈ s ↔ n = f c ∧ 0 < n

/-- How many of the pieces at a partition are of a family that touches the column. -/
def touching (cols : Piece → List String) (ps : List (Piece × ℕ)) (par : ℕ) (c : String) : ℕ :=
  ps.countP fun p => p.2 = par ∧ c ∈ cols p.1

theorem counts_bump {s : Cols} {f : String → ℕ} (h : Counts s f) (col : String) :
    Counts (bump s col) fun c => f c + if c = col then 1 else 0 := by
  intro c n
  rw [bump]
  cases hfind : s.elems.find? fun e => (ofLex e).1 = col with
  | none =>
    have hzero : f col = 0 := by
      by_contra hne
      have hmem := (h col (f col)).mpr ⟨rfl, by omega⟩
      simpa using List.find?_eq_none.mp hfind _ hmem
    have hnew : (toLex (c, n) = toLex (col, 1)) ↔ c = col ∧ n = 1 := by simp
    rw [mem_insert, h, hnew]
    by_cases hc : c = col
    · subst hc
      simp [hzero]
      omega
    · simp [hc]
  | some e =>
    obtain ⟨rfl⟩ : (ofLex e).1 = col := by simpa using List.find?_some hfind
    have he : (ofLex e).2 = f (ofLex e).1 ∧ 0 < (ofLex e).2 :=
      (h (ofLex e).1 (ofLex e).2).mp (List.mem_of_find?_eq_some hfind)
    have hnew : toLex (c, n) = toLex ((ofLex e).1, (ofLex e).2 + 1) ↔
        c = (ofLex e).1 ∧ n = (ofLex e).2 + 1 := by simp
    have hold : toLex (c, n) = e ↔ c = (ofLex e).1 ∧ n = (ofLex e).2 := by
      rw [← ofLex_inj, ofLex_toLex, Prod.ext_iff]
    rw [mem_insert, mem_erase, h, hnew, ne_eq, hold]
    by_cases hc : c = (ofLex e).1
    · subst hc
      simp
      omega
    · simp [hc]

theorem counts_foldl_bump {s : Cols} {f : String → ℕ} (h : Counts s f) (l : List String) :
    Counts (l.foldl bump s) fun c => f c + l.count c := by
  induction l generalizing s f with
  | nil => simpa using h
  | cons col l ih =>
    rw [List.foldl_cons]
    convert ih (counts_bump h col) using 2 with c
    rw [List.count_cons, beq_eq_decide]
    by_cases hc : c = col
    · simp [hc]; omega
    · simp [hc, Ne.symm hc]

theorem nodup_touchColMap (k : ℕ) : (touchColMap k).Nodup := by
  unfold touchColMap
  split <;> decide

theorem counts_announce (ps : List (Piece × ℕ)) (par : ℕ) :
    Counts (announce ps par) (touching (fun p => touchColMap (normalized p.innId)) ps par) := by
  induction ps using List.reverseRecOn with
  | nil => intro c n; simp [announce, touching]
  | append_singleton ps p ih =>
    rw [announce, List.foldl_append, List.foldl_cons, List.foldl_nil, ← announce,
      getTouchedTblCols]
    by_cases hp : p.2 = par
    · subst hp
      rw [update_self]
      convert counts_foldl_bump ih _ using 1
      funext c
      rw [touching, List.countP_append, List.countP_singleton, touching]
      by_cases hc : c ∈ touchColMap (normalized p.1.innId)
      · simp [hc, List.count_eq_one_of_mem (nodup_touchColMap _) hc]
      · simp [hc, List.count_eq_zero.mpr hc]
    · rw [update_of_ne (Ne.symm hp)]
      convert ih using 1
      funext c
      simp [touching, List.countP_append, hp]

theorem touchColMap_indexed {k : ℕ} (i : Fin 1000) (hk : 10 ≤ k) (hk' : k < 100) :
    touchColMap (normalized (1000 * k + i)) = touchColMap (1000 * k) := by
  have h1 : (1000 * k + i) / 10 / 10 / 10 = k := by omega
  have h2 : 100 ≤ (1000 * k + i) / 10 / 10 := by omega
  have h3 : 100 ≤ (1000 * k + i) / 10 := by omega
  rw [normalized, if_pos (by omega), truncate, if_pos (by omega), truncate, if_pos h3, truncate,
    if_pos h2, h1, truncate, if_neg (by omega), mul_comm]

theorem touchColMap_normalized (p : Piece) (hp : p ≠ .newOrder 0) :
    touchColMap (normalized p.innId) = touchColMap p.family := by
  cases p with
  | newOrder n => revert n; decide
  | newOrderRI i => exact touchColMap_indexed (k := 15) i (by omega) (by omega)
  | newOrderRS i => exact touchColMap_indexed (k := 16) i (by omega) (by omega)
  | newOrderWS i => exact touchColMap_indexed (k := 17) i (by omega) (by omega)
  | newOrderWOL i => exact touchColMap_indexed (k := 18) i (by omega) (by omega)
  | payment n | orderStatus n | delivery n | stockLevel n => revert n; decide
  | stockLevelRS i => exact touchColMap_indexed (k := 52) i (by omega) (by omega)

theorem le_truncate (n : ℕ) {id : ℕ} (h : 10 ≤ id) : 10 ≤ truncate n id := by
  induction n generalizing id with
  | zero => exact h
  | succ n ih =>
    rw [truncate]
    split
    · exact ih (by omega)
    · exact h

theorem normalized_ne (id : ℕ) : normalized id ≠ 1000 := by
  rw [normalized]
  split
  · have : 10 ≤ truncate 10 id := le_truncate 10 (by omega)
    omega
  · omega

theorem eq_of_d_next_o_id {k : ℕ} (h : "district.d_next_o_id" ∈ touchColMap k) : k = 1000 := by
  unfold touchColMap at h
  split at h <;> simp_all

/-- The announced columns are those of the pieces' families, counted, exactly when no piece is the
    first of a new order. -/
theorem announced_iff (ps : List (Piece × ℕ)) :
    (∀ par, Counts (announce ps par) (touching (fun p => touchColMap p.family) ps par)) ↔
      ∀ p ∈ ps, p.1 ≠ .newOrder 0 := by
  constructor
  · rintro h ⟨p, par⟩ hmem rfl
    have hpos : 0 < touching (fun p => touchColMap p.family) ps par "district.d_next_o_id" :=
      List.countP_pos_iff.mpr ⟨_, hmem, by simp [touchColMap, Piece.family, Piece.innId]⟩
    have hfound := (h par _ _).mpr ⟨rfl, hpos⟩
    obtain ⟨hn, -⟩ := (counts_announce ps par _ _).mp hfound
    have hzero : touching (fun p => touchColMap (normalized p.innId)) ps par
        "district.d_next_o_id" = 0 :=
      List.countP_eq_zero.mpr fun p _ => by
        simpa using fun _ h => normalized_ne _ (eq_of_d_next_o_id h)
    omega
  · intro h par
    have hsame : touching (fun p => touchColMap p.family) ps par =
        touching (fun p => touchColMap (normalized p.innId)) ps par := by
      funext c
      refine List.countP_congr fun p hp => ?_
      simp [touchColMap_normalized p.1 (h p hp)]
    rw [hsame]
    exact counts_announce ps par

theorem newOrder_not_announced : announce [(.newOrder 0, 3)] 3 = ∅ ∧
    touchColMap (Piece.newOrder 0).family = ["district.d_next_o_id"] := by decide

end Fiss.Brq.Touched
