import Fiss.Schemes.Dict
import Fiss.Schemes.Frames

/-! How `op` (`OLAP/PAM/tpch/test.cpp`) puts the rows of a transaction together. The columns of an
    inserted row come one at a time; `op` collects them in one buffer for the whole transaction and
    calls `insertOrder` or `insertOrderline` by counting what the buffer holds. Only the branch for
    INSERT is modelled here, and a call is observed through its arguments. -/

namespace Fiss.Pam
open List Dict

/-- The tables a transaction inserts rows into. -/
inductive Table where | order | orderLine | newOrder | history
  deriving DecidableEq, Repr

/-- The columns of a row, as `tp_info_` lists them. -/
def Table.columns : Table → List String
  | .order => ["o_d_id", "o_w_id", "o_id", "o_c_id", "o_entry_d", "o_carrier_id", "o_ol_cnt",
      "o_all_local"]
  | .orderLine => ["ol_d_id", "ol_w_id", "ol_o_id", "ol_number", "ol_i_id", "ol_supply_w_id",
      "ol_delivery_d", "ol_quantity", "ol_amount", "ol_dist_info"]
  | .newOrder => ["no_d_id", "no_w_id", "no_o_id"]
  | .history => ["h_key", "h_c_id", "h_c_d_id", "h_c_w_id", "h_d_id", "h_w_id", "h_date",
      "h_amount", "h_data"]

/-- The "useless cols" that `op` drops. -/
def useless (col : String) : Bool := col = "o_all_local" || col = "ol_dist_info"

/-- The columns of a row that reach the buffer. -/
def Table.kept (tb : Table) : List String := tb.columns.filter fun c => !useless c

/-- One INSERT as `op` receives it: a column of the row `pkeyVal` of a table. -/
structure Insert where
  txnid : ℕ
  table : Table
  pkeyVal : String
  colName : String
  value : String
  deriving DecidableEq, Repr

/-- A call of `insertOrder` (`table` is `order`) or `insertOrderline` (`table` is `orderLine`). -/
structure Call where
  table : Table
  txnid : ℕ
  v : List Insert
  deriving DecidableEq, Repr

/-- `ready_insert`, and the calls made so far. The source stores the column name and the value of an
    INSERT; the model keeps all of it, so that a value can be traced to its row. -/
structure Assembly where
  readyInsert : Dict ℕ (List Insert) := .empty
  calls : List Call := []

/-- `op` with `op_type == 1`. -/
def op (s : Assembly) (x : Insert) : Assembly :=
  if useless x.colName then s
  else
    let ready := if (s.readyInsert.find x.txnid).isNone then s.readyInsert.insert x.txnid [x]
      else s.readyInsert.modify x.txnid fun v => v ++ [x]
    let v := (ready.find x.txnid).getD []
    -- Order has 8 cols
    if x.table = .order ∧ v.length = 7 then
      ⟨ready.erase x.txnid, s.calls ++ [⟨.order, x.txnid, v⟩]⟩
    -- Orderline has 10 cols
    else if x.table = .orderLine ∧ v.length = 9 then
      ⟨ready.erase x.txnid, s.calls ++ [⟨.orderLine, x.txnid, v⟩]⟩
    else ⟨ready, s.calls⟩

/-- The state after the INSERTs `ds`, in the order in which they reach `op`. -/
def assemble (ds : List Insert) : Assembly := ds.foldl op {}

/-! ### One transaction's part of the state -/

/-- The count at which a column of the table makes `op` call the insert function. -/
def Table.width : Table → Option ℕ
  | .order => some 7
  | .orderLine => some 9
  | .newOrder => none
  | .history => none

/-- The test `op` makes on a transaction's buffer: the last column's table against the count. -/
def rowFull (v : List Insert) : Bool := v.getLast?.bind (fun x => x.table.width) = some v.length

/-- The buffers handed over for a transaction, and the one being filled. -/
def Assembly.handed (s : Assembly) (t : ℕ) : List (List Insert) × List Insert :=
  ((s.calls.filter fun c => c.txnid = t).map Call.v, (s.readyInsert.find t).getD [])

/-- The INSERTs of a transaction that are not dropped. -/
def stream (t : ℕ) (ds : List Insert) : List Insert :=
  ds.filter fun x => !useless x.colName && x.txnid = t

theorem rowFull_concat (v : List Insert) (x : Insert) :
    rowFull (v ++ [x]) = decide (x.table.width = some (v.length + 1)) := by
  simp [rowFull]

theorem op_eq {s : Assembly} {x : Insert} (hx : useless x.colName = false) :
    ∃ ready : Dict ℕ (List Insert),
      (∀ t, ready.find t = if t = x.txnid then some ((s.handed t).2 ++ [x])
        else s.readyInsert.find t) ∧ op s x = if rowFull ((s.handed x.txnid).2 ++ [x]) then
          ⟨ready.erase x.txnid, s.calls ++ [⟨x.table, x.txnid, (s.handed x.txnid).2 ++ [x]⟩]⟩
        else ⟨ready, s.calls⟩ := by
  refine ⟨if (s.readyInsert.find x.txnid).isNone then s.readyInsert.insert x.txnid [x]
      else s.readyInsert.modify x.txnid fun v => v ++ [x], ?_, ?_⟩
  · intro t
    unfold Assembly.handed
    cases hf : s.readyInsert.find x.txnid <;> rcases eq_or_ne t x.txnid with rfl | ht <;>
      simp [find_insert, find_modify, *]
  · rw [op, if_neg (by simp [hx]), rowFull_concat]
    cases hf : s.readyInsert.find x.txnid <;> cases ht : x.table <;>
      simp [find_insert, find_modify, Assembly.handed, Table.width, *]

theorem handed_op (s : Assembly) (x : Insert) (t : ℕ) :
    (op s x).handed t = if useless x.colName = false ∧ x.txnid = t then feed rowFull (s.handed t) x
      else s.handed t := by
  cases hx : useless x.colName with
  | true => rw [if_neg (by simp), op, if_pos hx]
  | false =>
    obtain ⟨ready, hready, hop⟩ := op_eq (s := s) hx
    rcases eq_or_ne x.txnid t with rfl | ht
    · rw [if_pos ⟨rfl, rfl⟩, hop, feed]
      by_cases hf : rowFull ((s.handed x.txnid).2 ++ [x]) = true
      · rw [if_pos hf, if_pos hf]
        simp [Assembly.handed, find_erase]
      · rw [if_neg hf, if_neg hf]
        simp [Assembly.handed, hready]
    · rw [if_neg fun h => ht h.2, hop]
      split
      · simp [Assembly.handed, find_erase, hready, ht, ht.symm]
      · simp [Assembly.handed, hready, ht.symm]

theorem assemble_concat (ds : List Insert) (x : Insert) :
    assemble (ds ++ [x]) = op (assemble ds) x := by
  rw [assemble, foldl_append]; rfl

theorem stream_concat (ds : List Insert) (x : Insert) (t : ℕ) :
    stream t (ds ++ [x]) = if useless x.colName = false ∧ x.txnid = t then stream t ds ++ [x]
      else stream t ds := by
  unfold stream
  rw [filter_append]
  split
  case isTrue h => rw [filter_cons_of_pos (by simpa using h), filter_nil]
  case isFalse h =>
    rw [filter_cons_of_neg (by simpa using h), filter_nil, append_nil]

theorem handed_assemble (ds : List Insert) (t : ℕ) :
    (assemble ds).handed t = cut rowFull (stream t ds) := by
  induction ds using reverseRecOn with
  | nil => rfl
  | append_singleton ds x ih =>
    rw [assemble_concat, handed_op, ih, stream_concat]
    split
    · rw [cut_concat]
    · rfl

theorem exists_mem_table (ds : List Insert) :
    ∀ c ∈ (assemble ds).calls, ∃ x ∈ c.v, x.table = c.table := by
  induction ds using reverseRecOn with
  | nil => exact forall_mem_nil _
  | append_singleton ds x ih =>
    intro c hc
    rw [assemble_concat] at hc
    cases hx : useless x.colName with
    | true =>
      rw [op, if_pos hx] at hc
      exact ih c hc
    | false =>
      obtain ⟨ready, -, hop⟩ := op_eq (s := assemble ds) hx
      rw [hop] at hc
      split at hc
      · exact forall_mem_append.mpr ⟨ih, forall_mem_singleton.mpr
          ⟨x, mem_append_right _ (mem_singleton_self x), rfl⟩⟩ c hc
      · exact ih c hc

/-! ### Rows -/

/-- What names a column of a row: transaction, table, row, column. -/
def Insert.key (x : Insert) : ℕ × Table × String × String :=
  (x.txnid, x.table, x.pkeyVal, x.colName)

/-- `v` holds the kept columns of the row `r`, each once, and nothing else. -/
def IsRow (t : ℕ) (tb : Table) (r : String) (v : List Insert) : Prop :=
  (v.map Insert.key).Perm (tb.kept.map fun c => (t, tb, r, c))

instance (t : ℕ) (tb : Table) (r : String) (v : List Insert) : Decidable (IsRow t tb r v) :=
  inferInstanceAs (Decidable (List.Perm _ _))

/-- Every column of the row `r` has been delivered. -/
def Complete (ds : List Insert) (t : ℕ) (tb : Table) (r : String) : Prop :=
  ∀ c ∈ tb.columns, (t, tb, r, c) ∈ ds.map Insert.key

instance (ds : List Insert) (t : ℕ) (tb : Table) (r : String) : Decidable (Complete ds t tb r) :=
  inferInstanceAs (Decidable (∀ c ∈ tb.columns, _))

/-- The INSERTs name columns of their tables, and each column of a row comes once. -/
structure Deliverable (ds : List Insert) : Prop where
  columns : ∀ x ∈ ds, x.colName ∈ x.table.columns
  once : (ds.map Insert.key).Nodup

/-- Every call receives one row of its table, and every delivered row of `order` and `order_line`
    is received by one call. -/
structure RowsAssembled (ds : List Insert) : Prop where
  one_row : ∀ c ∈ (assemble ds).calls, ∃ r, IsRow c.txnid c.table r c.v
  once : ∀ t tb r, tb = .order ∨ tb = .orderLine → Complete ds t tb r →
    (assemble ds).calls.countP (fun c => IsRow t tb r c.v) = 1

/-- A transaction's columns come row by row: first rows of `order` and `order_line`, each in one
    piece, then columns that do not reach the count of their table at its place, among them none
    of a row of the two tables that is delivered in full. -/
structure RowByRow (ds : List Insert) (t : ℕ) (rows : List (List Insert)) (rest : List Insert) :
    Prop where
  split : stream t ds = rows.flatten ++ rest
  whole : ∀ b ∈ rows, ∃ tb r, (tb = .order ∨ tb = .orderLine) ∧ IsRow t tb r b
  quiet : ∀ n x, rest[n]? = some x → x.table.width ≠ some (n + 1)
  unfinished : ∀ x ∈ rest, x.table = .order ∨ x.table = .orderLine →
    ¬ Complete ds t x.table x.pkeyVal

section Rows
variable {ds : List Insert} {t : ℕ} {tb : Table} {r : String} {v rest : List Insert} {x : Insert}
  {rows : List (List Insert)}

theorem width_eq_of_assembled (h : tb = .order ∨ tb = .orderLine) :
    tb.width = some tb.kept.length := by
  rcases h with rfl | rfl <;> decide

theorem assembled_of_width {n : ℕ} (h : tb.width = some n) : tb = .order ∨ tb = .orderLine := by
  cases tb with
  | order => exact .inl rfl
  | orderLine => exact .inr rfl
  | newOrder | history => cases h

theorem mem_kept {c : String} : c ∈ tb.kept ↔ c ∈ tb.columns ∧ useless c = false := by
  simp [Table.kept]

theorem exists_mem_kept (h : tb = .order ∨ tb = .orderLine) : ∃ c, c ∈ tb.kept := by
  refine exists_mem_of_ne_nil _ ?_
  rcases h with rfl | rfl <;> decide

theorem mem_stream : x ∈ stream t ds ↔ x ∈ ds ∧ useless x.colName = false ∧ x.txnid = t := by
  simp [stream]

theorem IsRow.of_mem (h : IsRow t tb r v) (hx : x ∈ v) :
    x.txnid = t ∧ x.table = tb ∧ x.pkeyVal = r := by
  obtain ⟨c, -, hc⟩ := mem_map.mp (h.mem_iff.mp (mem_map_of_mem hx))
  simp only [Insert.key, Prod.mk.injEq] at hc
  exact ⟨hc.1.symm, hc.2.1.symm, hc.2.2.1.symm⟩

theorem IsRow.exists_mem (h : IsRow t tb r v) {c : String} (hc : c ∈ tb.kept) :
    ∃ x ∈ v, x.key = (t, tb, r, c) :=
  mem_map.mp (h.mem_iff.mpr (mem_map_of_mem hc))

theorem IsRow.length_eq (h : IsRow t tb r v) : v.length = tb.kept.length := by
  simpa using List.Perm.length_eq h

theorem IsRow.frame (h : IsRow t tb r v) (htb : tb = .order ∨ tb = .orderLine) :
    Frame rowFull v := by
  have hw : ∀ x ∈ v, x.table.width = some v.length := by
    intro x hx
    rw [(h.of_mem hx).2.1, width_eq_of_assembled htb, h.length_eq]
  rcases eq_nil_or_concat' v with rfl | ⟨u, x, rfl⟩
  · have hlen := h.length_eq
    rcases htb with rfl | rfl <;> exact absurd hlen (by decide)
  · refine ⟨u, x, rfl, ?_, ?_⟩
    · intro w hwu hne
      obtain rfl | ⟨w, y, rfl⟩ := eq_nil_or_concat' w
      · exact absurd rfl hne
      · rw [rowFull_concat, hw y ((hwu.trans (prefix_append u [x])).subset (by simp))]
        have hlen := hwu.length_le
        simp only [length_append, length_singleton] at hlen ⊢
        exact decide_eq_false fun heq => by have := Option.some.inj heq; omega
    · rw [rowFull_concat, hw x (by simp)]
      simp

theorem open_iff_quiet :
    Open rowFull rest ↔ ∀ n x, rest[n]? = some x → x.table.width ≠ some (n + 1) := by
  constructor
  · intro h n x hx
    have hn : n < rest.length := (List.getElem?_eq_some_iff.mp hx).1
    have htake : rest.take (n + 1) = rest.take n ++ [x] := by rw [take_add_one, hx]; rfl
    have hfull := h _ ( take_prefix (n + 1) rest) (by simp [htake])
    rw [htake, rowFull_concat, length_take_of_le hn.le] at hfull
    exact of_decide_eq_false hfull
  · intro h u hu hne
    obtain rfl | ⟨w, x, rfl⟩ := eq_nil_or_concat' u
    · exact absurd rfl hne
    · obtain ⟨z, rfl⟩ := hu
      rw [rowFull_concat]
      exact decide_eq_false (h w.length x (by simp))

/-! ### The calls of a transaction -/

theorem mem_cut_iff : v ∈ (cut rowFull (stream t ds)).1 ↔
    ∃ c ∈ (assemble ds).calls, c.txnid = t ∧ c.v = v := by
  rw [← handed_assemble]
  simp [Assembly.handed, and_assoc]

theorem txnid_of_mem_call {c : Call} (hc : c ∈ (assemble ds).calls) (hx : x ∈ c.v) :
    x.txnid = c.txnid := by
  have hv : c.v ∈ (cut rowFull (stream c.txnid ds)).1 := mem_cut_iff.mpr ⟨c, hc, rfl, rfl⟩
  have hmem : x ∈ stream c.txnid ds := by
    rw [← flatten_cut (stream c.txnid ds)]
    exact mem_append_left _ (mem_flatten.mpr ⟨c.v, hv, hx⟩)
  exact (mem_stream.mp hmem).2.2

theorem txnid_of_isRow {c : Call} (hc : c ∈ (assemble ds).calls) (hr : IsRow t tb r c.v) :
    c.txnid = t := by
  obtain ⟨x, hx, -⟩ := exists_mem_table ds c hc
  rw [← txnid_of_mem_call hc hx]
  exact (hr.of_mem hx).1

theorem countP_calls : (assemble ds).calls.countP (fun c => IsRow t tb r c.v) =
    (cut rowFull (stream t ds)).1.countP fun v => IsRow t tb r v := by
  rw [← handed_assemble, Assembly.handed, countP_map, countP_filter]
  refine countP_congr fun c hc => ?_
  simp only [Function.comp, decide_eq_true_eq, Bool.and_eq_true]
  exact ⟨fun hr => ⟨hr, txnid_of_isRow hc hr⟩, fun hr => hr.1⟩

theorem nodup_stream (h : Deliverable ds) (t : ℕ) : ((stream t ds).map Insert.key).Nodup :=
  h.once.sublist (filter_sublist.map _)

theorem countP_isRow (hd : (rows.flatten.map Insert.key).Nodup)
    (htb : tb = .order ∨ tb = .orderLine) (hv : v ∈ rows) (hr : IsRow t tb r v) :
    rows.countP (fun v => IsRow t tb r v) = 1 := by
  obtain ⟨ls, us, rfl⟩ := append_of_mem hv
  obtain ⟨c, hc⟩ := exists_mem_kept htb
  -- the column `c` of the row stands in the piece `v` and in no other
  have hother : ∀ w, w ∈ ls ∨ w ∈ us → ¬ IsRow t tb r w := by
    intro w hw hrow
    obtain ⟨x, hx, hxk⟩ := hr.exists_mem hc
    obtain ⟨y, hy, hyk⟩ := hrow.exists_mem hc
    rw [flatten_append, flatten_cons, map_append, map_append] at hd
    simp only [nodup_append, mem_append, mem_map] at hd
    rcases hw with hw | hw
    · exact hd.2.2 _ ⟨y, mem_flatten.mpr ⟨w, hw, hy⟩, rfl⟩ _ (.inl ⟨x, hx, rfl⟩)
        (hyk.trans hxk.symm)
    · exact hd.2.1.2.2 _ ⟨x, hx, rfl⟩ _ ⟨y, mem_flatten.mpr ⟨w, hw, hy⟩, rfl⟩
        (hxk.trans hyk.symm)
  rw [countP_append, countP_cons_of_pos (by simpa using hr),
    countP_eq_zero.mpr fun w hw => by simpa using hother w (.inl hw),
    countP_eq_zero.mpr fun w hw => by simpa using hother w (.inr hw)]

theorem RowByRow.cut_eq (h : RowByRow ds t rows rest) : cut rowFull (stream t ds) = (rows, rest) :=
  cut_eq_iff.mpr ⟨h.split,
    fun b hb => by
      obtain ⟨tb, r, htb, hr⟩ := h.whole b hb
      exact hr.frame htb,
    open_iff_quiet.mpr h.quiet⟩

theorem RowByRow.exists_row (h : RowByRow ds t rows rest) (htb : tb = .order ∨ tb = .orderLine)
    (hc : Complete ds t tb r) : ∃ v ∈ rows, IsRow t tb r v := by
  obtain ⟨c, hmem⟩ := exists_mem_kept htb
  obtain ⟨hcol, huse⟩ := mem_kept.mp hmem
  obtain ⟨x, hx, hkey⟩ := mem_map.mp (hc c hcol)
  obtain ⟨rfl, rfl, rfl, rfl⟩ : x.txnid = t ∧ x.table = tb ∧ x.pkeyVal = r ∧ x.colName = c := by
    simpa [Insert.key] using hkey
  have hxs : x ∈ rows.flatten ++ rest := h.split ▸ mem_stream.mpr ⟨hx, huse, rfl⟩
  rcases mem_append.mp hxs with hxs | hxs
  · obtain ⟨b, hb, hxb⟩ := mem_flatten.mp hxs
    obtain ⟨tb, r, -, hr⟩ := h.whole b hb
    obtain ⟨-, rfl, rfl⟩ := hr.of_mem hxb
    exact ⟨b, hb, hr⟩
  · exact absurd hc (h.unfinished x hxs htb)

theorem rowsAssembled_of_rowByRow (hd : Deliverable ds)
    (h : ∀ t, ∃ rows rest, RowByRow ds t rows rest) : RowsAssembled ds where
  one_row c hc := by
    obtain ⟨rows, rest, hrow⟩ := h c.txnid
    have hv : c.v ∈ (cut rowFull (stream c.txnid ds)).1 := mem_cut_iff.mpr ⟨c, hc, rfl, rfl⟩
    rw [hrow.cut_eq] at hv
    obtain ⟨tb, r, -, hr⟩ := hrow.whole c.v hv
    obtain ⟨x, hx, htable⟩ := exists_mem_table ds c hc
    exact ⟨r, by rw [← htable, (hr.of_mem hx).2.1]; exact hr⟩
  once t tb r htb hc := by
    obtain ⟨rows, rest, hrow⟩ := h t
    obtain ⟨v, hv, hr⟩ := hrow.exists_row htb hc
    have hnodup := nodup_stream hd t
    rw [hrow.split, map_append] at hnodup
    rw [countP_calls, hrow.cut_eq]
    exact countP_isRow hnodup.of_append_left htb hv hr

theorem rowByRow_of_rowsAssembled (hd : Deliverable ds) (h : RowsAssembled ds) (t : ℕ) :
    RowByRow ds t (cut rowFull (stream t ds)).1 (cut rowFull (stream t ds)).2 where
  split := (flatten_cut _).symm
  whole b hb := by
    obtain ⟨v, x, rfl, -, hfull⟩ := frame_of_mem_cut _ b hb
    obtain ⟨c, hc, rfl, hv⟩ := mem_cut_iff.mp hb
    obtain ⟨r, hr⟩ := h.one_row c hc
    rw [hv] at hr
    rw [rowFull_concat, decide_eq_true_eq] at hfull
    have hx := hr.of_mem (mem_append_right v (mem_singleton_self x))
    exact ⟨c.table, r, hx.2.1 ▸ assembled_of_width hfull, hr⟩
  quiet := open_iff_quiet.mp (open_cut _)
  unfinished x hx htb hc := by
    -- the row has a call, so its column `x` stands in a frame and cannot be left over as well
    have hpos : 0 < (cut rowFull (stream t ds)).1.countP fun v => IsRow t x.table x.pkeyVal v := by
      rw [← countP_calls, h.once t x.table x.pkeyVal htb hc]; exact Nat.one_pos
    obtain ⟨v, hv, hr⟩ := countP_pos_iff.mp hpos
    have hxs : x ∈ stream t ds := by
      rw [← flatten_cut (stream t ds)]; exact mem_append_right _ hx
    obtain ⟨hxd, huse, ht⟩ := mem_stream.mp hxs
    obtain ⟨y, hy, hyk⟩ := (of_decide_eq_true hr).exists_mem
      (mem_kept.mpr ⟨hd.columns x hxd, huse⟩)
    have hnodup := nodup_stream hd t
    rw [← flatten_cut (stream t ds), map_append, nodup_append] at hnodup
    refine hnodup.2.2 _ (mem_map_of_mem (mem_flatten.mpr ⟨v, hv, hy⟩)) _
      (mem_map_of_mem hx) ?_
    rw [hyk, Insert.key, ht]

end Rows

/-- The rows are put together right exactly when every transaction's columns come row by row. -/
theorem rows_assembled_iff {ds : List Insert} (hd : Deliverable ds) :
    RowsAssembled ds ↔ ∀ t, ∃ rows rest, RowByRow ds t rows rest :=
  ⟨fun h t => ⟨_, _, rowByRow_of_rowsAssembled hd h t⟩, rowsAssembled_of_rowByRow hd⟩

/-- The INSERTs of one row, column by column. -/
def rowOf (t : ℕ) (tb : Table) (r : String) : List Insert :=
  tb.columns.map fun c => ⟨t, tb, r, c, "1"⟩

/-- An order, an order line and then a new-order row, one after the other. -/
theorem rows_assembled_one_by_one :
    Deliverable (rowOf 1 .order "1" ++ rowOf 1 .orderLine "1" ++ rowOf 1 .newOrder "1") ∧
      RowsAssembled (rowOf 1 .order "1" ++ rowOf 1 .orderLine "1" ++ rowOf 1 .newOrder "1") := by
  have hd : Deliverable (rowOf 1 .order "1" ++ rowOf 1 .orderLine "1" ++ rowOf 1 .newOrder "1") :=
    ⟨by decide, by decide⟩
  refine ⟨hd, (rows_assembled_iff hd).mpr fun t => ?_⟩
  rcases eq_or_ne t 1 with rfl | ht
  · refine ⟨[stream 1 (rowOf 1 .order "1"), stream 1 (rowOf 1 .orderLine "1")],
      rowOf 1 .newOrder "1", by decide, ?_, ?_, by decide⟩
    · rintro b hb
      rcases mem_pair.mp hb with rfl | rfl
      · exact ⟨.order, "1", .inl rfl, by decide⟩
      · exact ⟨.orderLine, "1", .inr rfl, by decide⟩
    · intro n x hx
      have hnone : ∀ x ∈ rowOf 1 .newOrder "1", x.table.width = none := by decide
      rw [hnone x (mem_of_getElem? hx)]
      exact nofun
  · refine ⟨[], [], ?_, by simp, by simp, by simp⟩
    have hone : ∀ x ∈ rowOf 1 .order "1" ++ rowOf 1 .orderLine "1" ++ rowOf 1 .newOrder "1",
        x.txnid = 1 := by decide
    refine filter_eq_nil_iff.mpr fun x hx => ?_
    simp [hone x hx, ht.symm]

/-- With the new-order row first, its three columns are counted for the order: `insertOrder` is
    called after the fourth column of the order, with the three among its arguments. -/
theorem new_order_columns_in_order : Deliverable (rowOf 1 .newOrder "1" ++ rowOf 1 .order "1") ∧
      ¬ RowsAssembled (rowOf 1 .newOrder "1" ++ rowOf 1 .order "1") := by
  refine ⟨⟨by decide, by decide⟩, fun h => ?_⟩
  have hmem : (⟨.order, 1, rowOf 1 .newOrder "1" ++ (rowOf 1 .order "1").take 4⟩ : Call) ∈
      (assemble (rowOf 1 .newOrder "1" ++ rowOf 1 .order "1")).calls := by decide
  obtain ⟨r, hr⟩ := h.one_row _ hmem
  obtain ⟨-, htable, -⟩ := hr.of_mem (mem_append_left _ (mem_cons_self ..))
  cases htable

end Fiss.Pam
