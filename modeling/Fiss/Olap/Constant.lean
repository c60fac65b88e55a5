import Fiss.Schemes.Dict

/-! The table of `OLAP/utilities/Constant.h` that says which columns each analytical query reads.
    A key is `600000 + 10000 * q + 1000 * i` for the `i`-th table of query `q`; `APServer::query`
    looks the keys up by arithmetic on its iteration counter. -/

namespace Fiss.Olap

/-! Columns that many queries read together. -/

def customerKey : List String := ["customer.c_id", "customer.c_d_id", "customer.c_w_id"]

def orderKey : List String := ["order.o_id", "order.o_d_id", "order.o_w_id"]

def orderLineKey : List String := ["order_line.ol_o_id", "order_line.ol_d_id", "order_line.ol_w_id"]

def stockSupplier : List String := ["stock.s_i_id", "stock.s_w_id", "stock.s_su_suppkey"]

def queryTouchColMap : Dict ℕ (List String) where
  entries := [
    (611000, ["order_line.ol_number", "order_line.ol_delivery_d", "order_line.ol_amount",
      "order_line.ol_quantity"]),
    (621000, ["stock.s_i_id", "stock.s_quantity", "stock.s_su_suppkey"]),
    (622000, ["supplier.su_suppkey", "supplier.su_name", "supplier.su_address", "supplier.su_phone",
      "supplier.su_comment", "supplier.su_nationkey"]),
    (623000, ["item.i_id", "item.i_name", "item.i_data"]),
    (624000, ["nation.n_nationkey", "nation.n_name", "nation.n_regionkey"]),
    (625000, ["region.r_regionkey", "region.r_name"]),
    (631000, ["customer.c_state", "customer.c_id", "customer.c_w_id", "customer.c_d_id"]),
    (632000, ["new_order.no_w_id", "new_order.no_d_id", "new_order.no_o_id"]),
    (633000, orderKey ++ ["order.o_c_id", "order.o_entry_d"]),
    (634000, orderLineKey ++ ["order_line.ol_amount"]),
    (641000, orderKey ++ ["order.o_entry_d", "order.o_ol_cnt"]),
    (642000, orderLineKey ++ ["order_line.ol_delivery_d"]),
    (651000, customerKey ++ ["customer.c_n_nationkey"]),
    (652000, orderKey ++ ["order.o_c_id", "order.o_entry_d"]),
    (653000, orderLineKey ++ ["order_line.ol_i_id", "order_line.ol_amount"]),
    (654000, stockSupplier),
    (655000, ["supplier.su_suppkey", "supplier.su_nationkey"]),
    (656000, ["nation.n_nationkey", "nation.n_name", "nation.n_regionkey"]),
    (657000, ["region.r_regionkey", "region.r_name"]),
    (661000, ["order_line.ol_delivery_d", "order_line.ol_quantity", "order_line.ol_amount"]),
    (671000, ["supplier.su_suppkey", "supplier.su_nationkey"]),
    (672000, stockSupplier),
    (673000, orderLineKey ++ ["order_line.ol_i_id", "order_line.ol_supply_w_id",
      "order_line.ol_delivery_d", "order_line.ol_amount"]),
    (674000, orderKey ++ ["order.o_c_id", "order.o_entry_d"]),
    (675000, customerKey ++ ["customer.c_state", "customer.c_n_nationkey"]),
    (676000, ["nation.n_nationkey", "nation.n_name"]),
    (681000, ["item.i_id", "item.i_data"]),
    (682000, ["supplier.su_suppkey", "supplier.su_nationkey"]),
    (683000, stockSupplier),
    (684000, orderLineKey ++ ["order_line.ol_i_id", "order_line.ol_supply_w_id",
      "order_line.ol_amount"]),
    (685000, orderKey ++ ["order.o_c_id", "order.o_entry_d"]),
    (686000, customerKey ++ ["customer.c_n_nationkey"]),
    (687000, ["region.r_name", "region.r_regionkey"]),
    (688000, ["nation.n_nationkey", "nation.n_name", "nation.n_regionkey"]),
    (691000, ["item.i_id", "item.i_data"]),
    (692000, ["supplier.su_suppkey", "supplier.su_nationkey"]),
    (693000, stockSupplier),
    (694000, orderLineKey ++ ["order_line.ol_i_id", "order_line.ol_supply_w_id",
      "order_line.ol_amount"]),
    (695000, orderKey ++ ["order.o_entry_d"]),
    (696000, ["nation.n_nationkey", "nation.n_name"]),
    (701000, customerKey ++ ["customer.c_last", "customer.c_city", "customer.c_phone",
      "customer.c_n_nationkey"]),
    (703000, orderLineKey ++ ["order_line.ol_delivery_d", "order_line.ol_amount"]),
    (702000, orderKey ++ ["order.o_c_id", "order.o_entry_d"]),
    (704000, ["nation.n_nationkey", "nation.n_name"]),
    (712000, ["supplier.su_suppkey", "supplier.su_nationkey"]),
    (711000, ["stock.s_i_id", "stock.s_order_cnt", "stock.s_su_suppkey"]),
    (713000, ["nation.n_nationkey", "nation.n_name"]),
    (722000, orderLineKey ++ ["order_line.ol_delivery_d"]),
    (721000, orderKey ++ ["order.o_entry_d", "order.o_ol_cnt", "order.o_carrier_id"]),
    (732000, orderKey ++ ["order.o_c_id", "order.o_carrier_id"]),
    (731000, customerKey),
    (741000, ["order_line.ol_i_id", "order_line.ol_delivery_d", "order_line.ol_amount"]),
    (742000, ["item.i_id", "item.i_data"]),
    (753000, ["supplier.su_suppkey", "supplier.su_name", "supplier.su_address",
      "supplier.su_phone"]),
    (752000, stockSupplier),
    (751000, ["order_line.ol_i_id", "order_line.ol_supply_w_id", "order_line.ol_delivery_d",
      "order_line.ol_amount"]),
    (762000, ["item.i_id", "item.i_data", "item.i_name", "item.i_price"]),
    (763000, ["supplier.su_suppkey", "supplier.su_comment"]),
    (761000, ["stock.s_i_id", "stock.s_su_suppkey"]),
    (772000, ["order_line.ol_i_id", "order_line.ol_quantity", "order_line.ol_amount"]),
    (771000, ["item.i_id", "item.i_data"]),
    (781000, customerKey ++ ["customer.c_last"]),
    (783000, orderLineKey ++ ["order_line.ol_amount"]),
    (782000, orderKey ++ ["order.o_c_id", "order.o_entry_d", "order.o_ol_cnt"]),
    (791000, ["order_line.ol_i_id", "order_line.ol_w_id", "order_line.ol_quantity",
      "order_line.ol_amount"]),
    (792000, ["item.i_id", "item.i_data", "item.i_price"]),
    (805000, ["item.i_id", "item.i_data"]),
    (801000, ["supplier.su_suppkey", "supplier.su_nationkey", "supplier.su_name",
      "supplier.su_address"]),
    (803000, ["stock.s_i_id", "stock.s_w_id", "stock.s_quantity"]),
    (804000, ["order_line.ol_i_id", "order_line.ol_delivery_d", "order_line.ol_quantity"]),
    (802000, ["nation.n_nationkey", "nation.n_name"]),
    (811000, ["supplier.su_suppkey", "supplier.su_nationkey", "supplier.su_name"]),
    (814000, stockSupplier),
    (812000, orderLineKey ++ ["order_line.ol_i_id", "order_line.ol_delivery_d"]),
    (813000, orderKey ++ ["order.o_entry_d"]),
    (815000, ["nation.n_nationkey", "nation.n_name"]),
    (822000, ["order.o_d_id", "order.o_w_id", "order.o_c_id", "order.o_carrier_id"]),
    (821000, customerKey ++ ["customer.c_state", "customer.c_phone", "customer.c_balance"])
  ]

/-- The columns the table lists for query number `q`. -/
def queryCols (q : ℕ) : List String :=
  (queryTouchColMap.entries.filter fun e => e.1 / 10000 = 60 + q).flatMap Prod.snd

/-- The columns `APServer::query` finds in iteration `count`: it tries the keys
    `base + 1000, …, base + 9000` with `base = 610000 + count * 10000`. -/
def scanCols (count : ℕ) : List String :=
  (List.range' 1 9).flatMap fun i =>
    (queryTouchColMap.find (610000 + count * 10000 + i * 1000)).getD []

theorem queryCols_subset_scanCols : ∀ count < 22, ∀ c ∈ queryCols (count % 22 + 1),
    c ∈ scanCols count := by
  decide

theorem scanCols_eq_nil {count : ℕ} (h : 22 ≤ count) : scanCols count = [] := by
  have hkeys : ∀ e ∈ queryTouchColMap.entries, e.1 < 830000 := by decide
  rw [scanCols, List.flatMap_eq_nil_iff]
  intro i _
  cases hf : queryTouchColMap.find (610000 + count * 10000 + i * 1000) with
  | none => rfl
  | some cs =>
    have hmem : 610000 + count * 10000 + i * 1000 ∈ queryTouchColMap.keys := by
      rw [Dict.mem_keys, hf]; rfl
    obtain ⟨e, he, hk⟩ := List.mem_map.mp hmem
    have := hkeys e he
    omega

theorem queryCols_ne_nil : ∀ q < 22, queryCols (q + 1) ≠ [] := by decide

end Fiss.Olap
