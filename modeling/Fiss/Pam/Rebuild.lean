import Fiss.Pam.Tables

/-! Indices kept up to date row by row against indices built anew. A new order is fed to the engine
    as its order lines, through `insertOrderline`, and then its order row, through `insertOrder`;
    the reference is what `make_maps_test` builds from the table files with the same rows added. -/

namespace Fiss.Pam

open Index List Option Prod

/-- A new order with its order lines, inserted by one transaction. -/
structure NewOrder where
  txnId : ℕ
  order : Order
  lines : List OrderLine

/-- The engine after `make_maps_test`. -/
def load (d : DataSet) : Engine := { m := makeMapsTest d }

/-- The order lines of a transaction, one after the other. -/
def insertLines (s : Engine) (txnId : ℕ) (ls : List OrderLine) : Engine :=
  ls.foldl (fun s l => insertOrderline s txnId l) s

/-- All order lines, then the order. -/
def insertNewOrder (s : Engine) (n : NewOrder) : Engine :=
  insertOrder (insertLines s n.txnId n.lines) n.txnId n.order

def insertNewOrders (s : Engine) (ns : List NewOrder) : Engine := ns.foldl insertNewOrder s

/-- The table files with the rows of a new order added. -/
def DataSet.add (d : DataSet) (n : NewOrder) : DataSet :=
  { d with orders := d.orders ++ [n.order], orderlines := d.orderlines ++ n.lines }

def DataSet.extend (d : DataSet) (ns : List NewOrder) : DataSet := ns.foldl DataSet.add d

/-- The lines are numbered from 1 to the count in the order row and belong to the order. -/
structure NewOrder.WellFormed (n : NewOrder) : Prop where
  count : n.order.oOlCnt = n.lines.length
  max : n.order.oOlCnt ≤ 15
  numbers : (n.lines.map OrderLine.olNumber).Perm (range' 1 n.lines.length)
  own : ∀ l ∈ n.lines, l.olOId = n.order.oId ∧ l.olDId = n.order.oDId ∧ l.olWId = n.order.oWId

/-- The orders are new: their keys are those of no order or order line in the files and of no other
    new order, and each comes from a transaction of its own. -/
structure NewOrders (d : DataSet) (ns : List NewOrder) : Prop where
  wellFormed : ∀ n ∈ ns, n.WellFormed
  txns : (ns.map NewOrder.txnId).Nodup
  pkeys : (ns.map fun n => n.order.oPkey).Nodup
  fresh : ∀ n ∈ ns, n.order.oPkey ∉ d.orders.map Order.oPkey
  freshLines : ∀ n ∈ ns, n.order.oPkey ∉ d.orderlines.map OrderLine.olPkey

variable {n : NewOrder}

theorem NewOrder.WellFormed.olPkey_eq (h : n.WellFormed) {l : OrderLine}
    (hl : l ∈ n.lines) : l.olPkey = n.order.oPkey := by
  obtain ⟨ho, hd, hw⟩ := h.own l hl
  rw [OrderLine.olPkey, Order.oPkey, ho, hd, hw]

variable {d : DataSet} {ns : List NewOrder}

theorem NewOrders.oPkey_ne {m n : NewOrder}
    (h : NewOrders d (n :: ns)) (hm : m ∈ ns) : m.order.oPkey ≠ n.order.oPkey :=
  fun heq => (nodup_cons.mp h.pkeys).1 (mem_map.mpr ⟨m, hm, heq⟩)

theorem NewOrders.tail (h : NewOrders d (n :: ns)) : NewOrders (d.add n) ns where
  wellFormed m hm := h.wellFormed m (mem_cons_of_mem n hm)
  txns := (nodup_cons.mp h.txns).2
  pkeys := (nodup_cons.mp h.pkeys).2
  fresh m hm := by
    have hne := h.oPkey_ne hm
    simpa [DataSet.add, hne, Ne.symm hne] using h.fresh m (mem_cons_of_mem n hm)
  freshLines m hm := by
    have hne := h.oPkey_ne hm
    rw [DataSet.add, map_append, mem_append, not_or]
    refine ⟨h.freshLines m (mem_cons_of_mem n hm), fun hmem => ?_⟩
    obtain ⟨l, hl, hk⟩ := mem_map.mp hmem
    exact hne (hk.symm.trans ((h.wellFormed n mem_cons_self).olPkey_eq hl))

/-! ### The array of order lines -/

/-- The array after the lines have been written to it. -/
def lineArray (ls : List OrderLine) : List OrderLine :=
  ls.foldl (fun a l => a.set (l.olNumber - 1) l) (replicate 15 default)

theorem lineArray_concat (ls : List OrderLine) (l : OrderLine) :
    lineArray (ls ++ [l]) = (lineArray ls).set (l.olNumber - 1) l := by
  rw [lineArray, foldl_append]; rfl

theorem length_lineArray (ls : List OrderLine) : (lineArray ls).length = 15 := by
  induction ls using reverseRecOn with
  | nil => rfl
  | append_singleton ls l ih => rw [lineArray_concat, length_set, ih]

theorem getElem_lineArray {ls : List OrderLine} (hd : (ls.map OrderLine.olNumber).Nodup)
    (hr : ∀ l ∈ ls, 1 ≤ l.olNumber ∧ l.olNumber ≤ 15) :
    ∀ l ∈ ls, (lineArray ls)[l.olNumber - 1]? = some l := by
  induction ls using reverseRecOn with
  | nil => exact forall_mem_nil _
  | append_singleton ls l ih =>
    rw [map_append, nodup_append] at hd
    intro l' hl'
    rw [lineArray_concat]
    rcases mem_append.mp hl' with hmem | hmem
    · have hne : l'.olNumber ≠ l.olNumber :=
        hd.2.2 _ (mem_map_of_mem hmem) _ (mem_map_of_mem (mem_singleton_self l))
      have h1 := hr l' hl'
      have h2 := hr l (mem_append_right ls (mem_singleton_self l))
      rw [getElem?_set_ne (by omega)]
      exact ih hd.1 (fun l hl => hr l (mem_append_left _ hl)) l' hmem
    · have h2 := hr l' hl'
      rw [mem_singleton.mp hmem] at h2 ⊢
      rw [getElem?_set_self (by rw [length_lineArray]; omega)]

section WellFormed
variable {n : NewOrder} (h : n.WellFormed)
include h

theorem NewOrder.WellFormed.nodup_numbers : (n.lines.map OrderLine.olNumber).Nodup :=
  h.numbers.nodup_iff.mpr nodup_range'

theorem NewOrder.WellFormed.mem_numbers {k : ℕ} :
    k ∈ n.lines.map OrderLine.olNumber ↔ 1 ≤ k ∧ k ≤ n.lines.length := by
  rw [h.numbers.mem_iff, mem_range'_1]
  omega

theorem NewOrder.WellFormed.mem_take_lineArray (l : OrderLine) :
    l ∈ (lineArray n.lines).take n.order.oOlCnt ↔ l ∈ n.lines := by
  have hcount := h.count
  have hmax := h.max
  have hrange : ∀ l ∈ n.lines, 1 ≤ l.olNumber ∧ l.olNumber ≤ 15 := fun l hl => by
    have := h.mem_numbers.mp (mem_map_of_mem hl)
    omega
  have hget := getElem_lineArray h.nodup_numbers hrange
  constructor
  · intro hl
    obtain ⟨i, hi⟩ := mem_iff_getElem?.mp hl
    rw [getElem?_take] at hi
    split at hi
    · have hmem : i + 1 ∈ n.lines.map OrderLine.olNumber := h.mem_numbers.mpr (by omega)
      obtain ⟨l', hl', hnum⟩ := mem_map.mp hmem
      have hat := hget l' hl'
      rw [hnum, Nat.add_sub_cancel, hi] at hat
      exact some.inj hat ▸ hl'
    · cases hi
  · intro hl
    have := h.mem_numbers.mp (mem_map_of_mem hl)
    refine mem_iff_getElem?.mpr ⟨l.olNumber - 1, ?_⟩
    rw [getElem?_take, if_pos (by omega), hget l hl]

theorem NewOrder.WellFormed.distinct : Distinct OrderLine.key n.lines := by
  intro l hl l' hl' hk
  simp only [OrderLine.key, Prod.mk.injEq] at hk
  exact inj_on_of_nodup_map h.nodup_numbers hl hl' hk.2.2.2

theorem NewOrder.WellFormed.primaryIndex_lineArray :
    primaryIndex OrderLine.key ((lineArray n.lines).take n.order.oOlCnt) =
      primaryIndex OrderLine.key n.lines :=
  primaryIndex_congr h.distinct h.mem_take_lineArray

end WellFormed

/-! ### The engine's bookkeeping -/

/-- The engine has no array and no count for the transaction. -/
def Unused (s : Engine) (t : ℕ) : Prop :=
  s.orderlineObject.find t = none ∧ s.orderlineCnt.find t = none

section Bookkeeping
variable {s : Engine} {t u : ℕ} {l : OrderLine} {o : Order}

@[simp] theorem storeLine_m (s : Engine) (t : ℕ) (l : OrderLine) : (storeLine s t l).m = s.m := by
  unfold storeLine
  split
  · rfl
  · dsimp only
    split <;> rfl

theorem unused_storeLine (h : Unused s u) (hne : u ≠ t) : Unused (storeLine s t l) u := by
  unfold storeLine Unused
  split
  · simp [Dict.find_insert, hne, h.1, h.2]
  · dsimp only
    split <;> simp [Dict.find_erase, Dict.find_modify, hne, h.1, h.2]

theorem unused_insertOrder (h : Unused s u) (hne : u ≠ t) : Unused (insertOrder s t o) u := by
  unfold insertOrder Unused
  dsimp only
  refine ⟨by simp [Dict.find_insert, hne, h.1], ?_⟩
  split <;> simp [Dict.find_insert, Dict.find_modify, hne, h.2]

theorem unused_insertLines (h : Unused s u) (hne : u ≠ t) (ls : List OrderLine) :
    Unused (insertLines s t ls) u := by
  induction ls using reverseRecOn with
  | nil => exact h
  | append_singleton ls l ih =>
    rw [insertLines, foldl_append]
    exact unused_storeLine ih hne

theorem insertLines_concat (s : Engine) (t : ℕ) (ls : List OrderLine) (l : OrderLine) :
    insertLines s t (ls ++ [l]) = insertOrderline (insertLines s t ls) t l := by
  rw [insertLines, foldl_append]; rfl

theorem insertLines_frame (s : Engine) (t : ℕ) (ls : List OrderLine) :
    (insertLines s t ls).m.om = s.m.om ∧ (insertLines s t ls).m.cm = s.m.cm ∧
      (insertLines s t ls).m.oom = s.m.oom ∧ (insertLines s t ls).m.dm = s.m.dm := by
  induction ls using reverseRecOn with
  | nil => exact ⟨rfl, rfl, rfl, rfl⟩
  | append_singleton ls l ih =>
    rw [insertLines_concat]
    rw [← storeLine_m (insertLines s t ls) t l] at ih
    exact ih

theorem find_storeLine_none (h : Unused s t) : (storeLine s t l).orderlineObject.find t =
        some ((replicate 15 default).set (l.olNumber - 1) l) ∧
      (storeLine s t l).orderlineCnt.find t = some (1, 0) := by
  simp [storeLine, h.1, h.2, Dict.find_insert]

theorem find_storeLine_some {a : List OrderLine} {c : ℕ} (ha : s.orderlineObject.find t = some a)
    (hc : s.orderlineCnt.find t = some (c, 0)) :
    (storeLine s t l).orderlineObject.find t = some (a.set (l.olNumber - 1) l) ∧
      (storeLine s t l).orderlineCnt.find t = some (c + 1, 0) := by
  simp [storeLine, ha, hc, Dict.find_modify]

theorem find_insertLines (h : Unused s t) {ls : List OrderLine} (hne : ls ≠ []) :
    (insertLines s t ls).orderlineObject.find t = some (lineArray ls) ∧
      (insertLines s t ls).orderlineCnt.find t = some (ls.length, 0) := by
  induction ls using reverseRecOn with
  | nil => exact absurd rfl hne
  | append_singleton ls l ih =>
    rw [insertLines_concat, lineArray_concat, length_append]
    rcases eq_or_ne ls [] with rfl | hls
    · exact find_storeLine_none h
    · exact find_storeLine_some (ih hls).1 (ih hls).2

end Bookkeeping

theorem primaryIndex_orderArray {s : Engine} (h : n.WellFormed) (hs : Unused s n.txnId) :
    primaryIndex OrderLine.key
        ((orderArray (insertLines s n.txnId n.lines) n.txnId n.order).take n.order.oOlCnt) =
      primaryIndex OrderLine.key n.lines := by
  rcases eq_or_ne n.lines [] with hnil | hne
  · rw [h.count, hnil, length_nil, take_zero]
  · rw [orderArray, (find_insertLines hs hne).1, getD_some, h.primaryIndex_lineArray]

/-! ### The order index -/

theorem lookup_om (d : DataSet) (k : ℕ) :
    d.om.lookup k = (d.orders.find? fun o => o.oPkey = k).map fun o =>
      (o, primaryIndex OrderLine.key (d.orderlines.filter fun l => l.olPkey = k)) := by
  rw [DataSet.om, lookup_makePairedIndex]
  refine map_congr fun o ho => ?_
  obtain rfl : o.oPkey = k := key_eq_of_find ho
  -- the lines of the group are those with the order's key, as the order is found under it
  have hkey : ∀ l : OrderLine,
      (((primaryIndex Order.oPkey d.orders).lookup l.olPkey).map Order.oCPkey).getD 0 = o.oCPkey ∧
        l.olPkey = o.oPkey ↔ l.olPkey = o.oPkey := by
    refine fun l => and_iff_right_of_imp fun hl => ?_
    rw [hl, lookup_primaryIndex, ho]; rfl
  refine congrArg (mk o) ?_
  rw [DataSet.comap, lookup_secondaryIndex]
  simp only [mk.injEq, hkey]
  split
  · rfl
  case isFalse hnone =>
    have hnil : d.orderlines.filter (fun l => l.olPkey = o.oPkey) = [] := by
      refine filter_eq_nil_iff.mpr fun l hl hk => hnone (mem_map.mpr ⟨l, hl, ?_⟩)
      exact Prod.ext_iff.mpr ((hkey l).mpr (of_decide_eq_true hk))
    rw [hnil]; rfl

theorem lookup_om_eq_none {k : ℕ} : d.om.lookup k = none ↔ k ∉ d.orders.map Order.oPkey := by
  rw [lookup_om, map_eq_none_iff, find?_eq_none]
  simp

theorem om_add (hn : n.WellFormed) (hfresh : n.order.oPkey ∉ d.orders.map Order.oPkey)
    (hlines : n.order.oPkey ∉ d.orderlines.map OrderLine.olPkey) : (d.add n).om =
      d.om.insert n.order.oPkey (n.order, primaryIndex OrderLine.key n.lines) := by
  refine Finmap.ext_lookup fun k => ?_
  rw [lookup_insert_ite, lookup_om, lookup_om]
  simp only [DataSet.add, find?_append, filter_append]
  rcases eq_or_ne k n.order.oPkey with rfl | hk
  · have hold : d.orders.find? (fun o => o.oPkey = n.order.oPkey) = none := by
      rw [find?_eq_none]
      exact fun o ho hk => hfresh (mem_map.mpr ⟨o, ho, of_decide_eq_true hk⟩)
    have hnil : d.orderlines.filter (fun l => l.olPkey = n.order.oPkey) = [] :=
      filter_eq_nil_iff.mpr fun l hl hk =>
        hlines (mem_map.mpr ⟨l, hl, of_decide_eq_true hk⟩)
    have hall : n.lines.filter (fun l => l.olPkey = n.order.oPkey) = n.lines :=
      filter_eq_self.mpr fun l hl => decide_eq_true (hn.olPkey_eq hl)
    simp [hold, hnil, hall]
  · have hnone : n.lines.filter (fun l => l.olPkey = k) = [] :=
      filter_eq_nil_iff.mpr fun l hl hlk =>
        hk ((of_decide_eq_true hlk).symm.trans (hn.olPkey_eq hl))
    simp [hnone, hk, Ne.symm hk]

theorem om_insertNewOrder {s : Engine} (hs : s.m.om = d.om)
    (hn : n.WellFormed) (hu : Unused s n.txnId) (hfresh : n.order.oPkey ∉ d.orders.map Order.oPkey)
    (hlines : n.order.oPkey ∉ d.orderlines.map OrderLine.olPkey) :
    (insertNewOrder s n).m.om = (d.add n).om := by
  rw [om_add hn hfresh hlines, ← hs, ← primaryIndex_orderArray hn hu,
    ← (insertLines_frame s n.txnId n.lines).1]
  rfl

theorem NewOrders.unused_tail {s : Engine} {m n : NewOrder}
    (h : NewOrders d (n :: ns)) (hu : ∀ m ∈ n :: ns, Unused s m.txnId) (hm : m ∈ ns) :
    Unused (insertNewOrder s n) m.txnId := by
  have hne : m.txnId ≠ n.txnId := fun heq =>
    (nodup_cons.mp h.txns).1 (mem_map.mpr ⟨m, hm, heq⟩)
  exact unused_insertOrder (unused_insertLines (hu m (mem_cons_of_mem n hm)) hne _) hne

theorem om_insertNewOrders : ∀ {d : DataSet} {s : Engine}, NewOrders d ns →
    s.m.om = d.om → (∀ n ∈ ns, Unused s n.txnId) →
    (insertNewOrders s ns).m.om = (d.extend ns).om := by
  induction ns with
  | nil => exact fun _ hs _ => hs
  | cons n ns ih =>
    intro d s h hs hu
    refine ih h.tail ?_ fun m hm => h.unused_tail hu hm
    exact om_insertNewOrder hs (h.wellFormed n mem_cons_self) (hu n mem_cons_self)
      (h.fresh n mem_cons_self) (h.freshLines n mem_cons_self)

/-! ### The date indices -/

theorem dates_insertNewOrders (s : Engine) (ns : List NewOrder) :
    (insertNewOrders s ns).m.oom = s.m.oom ∧ (insertNewOrders s ns).m.dm = s.m.dm := by
  induction ns generalizing s with
  | nil => exact ⟨rfl, rfl⟩
  | cons n ns ih =>
    obtain ⟨-, -, hoom, hdm⟩ := insertLines_frame s n.txnId n.lines
    obtain ⟨hoom', hdm'⟩ := ih (insertNewOrder s n)
    exact ⟨hoom'.trans hoom, hdm'.trans hdm⟩

theorem orders_extend (d : DataSet) (ns : List NewOrder) :
    (d.extend ns).orders = d.orders ++ ns.map NewOrder.order := by
  induction ns generalizing d with
  | nil => exact (append_nil _).symm
  | cons n ns ih =>
    rw [DataSet.extend, foldl_cons, ← DataSet.extend, ih, DataSet.add, append_assoc]; rfl

theorem oom_extend_ne (h : NewOrders d (n :: ns)) : d.oom ≠ (d.extend (n :: ns)).oom := by
  intro heq
  have hom : d.om = (d.extend (n :: ns)).om := regroupIndex_injective _ heq
  have hnone : d.om.lookup n.order.oPkey = none :=
    lookup_om_eq_none.mpr (h.fresh n mem_cons_self)
  rw [hom, lookup_om_eq_none, orders_extend] at hnone
  exact hnone (mem_map_of_mem (mem_append_right _ mem_cons_self))

theorem ne_rebuild (h : NewOrders d (n :: ns)) :
    (insertNewOrders (load d) (n :: ns)).m ≠ makeMapsTest (d.extend (n :: ns)) := by
  refine fun heq => oom_extend_ne h ?_
  calc d.oom = (insertNewOrders (load d) (n :: ns)).m.oom :=
        (dates_insertNewOrders (load d) (n :: ns)).1.symm
    _ = (d.extend (n :: ns)).oom := congrArg Maps.oom heq

/-- The order index ends as if built anew; the seven together do so only without new orders. -/
theorem maps_eq_rebuild_iff {d : DataSet} {ns : List NewOrder} (h : NewOrders d ns) :
    (insertNewOrders (load d) ns).m.om = (makeMapsTest (d.extend ns)).om ∧
      ((insertNewOrders (load d) ns).m = makeMapsTest (d.extend ns) ↔ ns = []) := by
  refine ⟨om_insertNewOrders h rfl fun n _ => ⟨rfl, rfl⟩, fun heq => ?_, ?_⟩
  · cases ns with
    | nil => rfl
    | cons n ns => exact absurd heq (ne_rebuild h)
  · rintro rfl
    rfl

/-- A district with one customer, one item in stock at its supplier, and one order of it. -/
def smallShop : DataSet where
  orders := [⟨1, 1, 1, 1, ⟨1, 1, 2023⟩, 0, 1⟩]
  orderlines := [⟨1, 1, 1, 1, 1, 1, ⟨2, 1, 2023⟩, 5, 10⟩]
  customers := [⟨1, 1, 1, 0, 0⟩]
  stocks := [⟨1, 1, 100, 0, 1⟩]
  suppliers := [⟨1, 0⟩]
  items := [⟨1, 2⟩]

/-- The same customer orders the same item again, a month later. -/
def secondOrder : NewOrder where
  txnId := 1
  order := ⟨2, 1, 1, 1, ⟨1, 2, 2023⟩, 0, 1⟩
  lines := [⟨2, 1, 1, 1, 1, 1, ⟨2, 2, 2023⟩, 5, 10⟩]

theorem newOrders_secondOrder : NewOrders smallShop [secondOrder] where
  wellFormed := by
    rintro n hn
    rw [mem_singleton.mp hn]
    exact ⟨rfl, by decide, by decide, by decide⟩
  txns := by decide
  pkeys := by decide
  fresh := by decide
  freshLines := by decide

theorem secondOrder_in_order_index : NewOrders smallShop [secondOrder] ∧
      (insertNewOrders (load smallShop) [secondOrder]).m.om =
        (makeMapsTest (smallShop.extend [secondOrder])).om :=
  ⟨newOrders_secondOrder, (maps_eq_rebuild_iff newOrders_secondOrder).1⟩

/-- The second order is missing from the index by entry date. -/
theorem secondOrder_not_by_date : NewOrders smallShop [secondOrder] ∧
      (insertNewOrders (load smallShop) [secondOrder]).m ≠
        makeMapsTest (smallShop.extend [secondOrder]) :=
  ⟨newOrders_secondOrder, ne_rebuild newOrders_secondOrder⟩

end Fiss.Pam
