import Fiss.Pam.Dates
import Fiss.Pam.Rebuild
import Fiss.Schemes.OrdMap

/-! Two queries over the index of the customers, `Q3` and `Q22` (`OLAP/PAM/tpch`). The index has the
    customers with orders only, so `Q22`, which asks for those without, finds nobody. The result of
    `Q3` is a set ordered by revenue alone, in which the later of two orders of one revenue stands.
    `map_reduce` and `map_index` go through the entries by ascending key. -/

namespace Fiss.Pam
open List Index Prod OrdMap

/-- `Customer` with its texts, as bytes up to the final zero. -/
structure CustomerRow extends Customer where
  cState : List UInt8
  cPhone : List UInt8
  deriving DecidableEq

/-- `m.cm`, for a customer file with the texts. -/
def DataSet.customerMap (d : DataSet) (rows : List CustomerRow) :
    Index ℕ (CustomerRow × OrderMap) :=
  pairedIndex (primaryIndex (fun c => c.cPkey) rows) (regroupIndex (fun e => e.1.oCPkey) d.om)

/-- The order is the customer's. -/
def OrderedBy (o : Order) (c : CustomerRow) : Prop :=
  o.oWId = c.cWId ∧ o.oDId = c.cDId ∧ o.oCId = c.cId

instance instDecidableOrderedBy (o : Order) (c : CustomerRow) : Decidable (OrderedBy o c) :=
  inferInstanceAs (Decidable (_ ∧ _))

/-! ### Q22 -/

def getCountrycode (phone : List UInt8) : UInt8 := phone.headD 0

/-- `a_type`: balance, code, and whether there are no orders. -/
abbrev AType := ℚ × UInt8 × Bool

/-- `Q22`: how many customers are kept and their balances, for each of 32 prefixes; `none` is
    `abort()`. No balance is above the average of none, which is not a number. -/
def q22 (cm : Index ℕ (CustomerRow × OrderMap)) (countrycode : Fin 7 → UInt8) :
    Option (List (ℕ × ℚ)) :=
  let res : Multiset AType := cm.entries.map fun e =>
    (e.2.1.cBalance, getCountrycode e.2.1.cPhone, e.2.2.keys.card == 0)
  let a : Multiset AType := res.filter fun x => ∃ i, x.2.1 = countrycode i
  let vals : Multiset ℚ := (a.map fst).filter fun balance => 1 / 100000 < balance
  let avebal : ℚ := vals.sum / vals.card
  let r : Multiset AType := a.filter fun x => vals ≠ 0 ∧ avebal < x.1 ∧ x.2.2 = true
  if ∀ x ∈ r, x.2.1 ≤ 31 then
    some ((List.range 32).map fun k =>
      let group := r.filter fun x => x.2.1.toNat = k
      (group.card, (group.map fst).sum))
  else none

section Q22
variable (d : DataSet) (rows : List CustomerRow) (countrycode : Fin 7 → UInt8)

/-- The average positive balance among the customers with one of the codes. -/
def average : ℚ :=
  let balances := (rows.filter fun c => 0 < c.cBalance ∧
    ∃ i, getCountrycode c.cPhone = countrycode i).map fun c => c.cBalance
  balances.sum / balances.length

/-- The customers that the query asks for, with a phone that starts with `code`. -/
def asked (code : UInt8) : List CustomerRow :=
  rows.filter fun c => getCountrycode c.cPhone = code ∧ average rows countrycode < c.cBalance ∧
    ∀ o ∈ d.orders, ¬ OrderedBy o c

theorem size_ne_zero {e : Σ _ : ℕ, CustomerRow × OrderMap} (he : e ∈ (d.customerMap rows).entries) :
    e.2.2.keys.card ≠ 0 := by
  have hlook := Finmap.lookup_eq_some_iff.mpr he
  rw [DataSet.customerMap, lookup_pairedIndex] at hlook
  obtain ⟨c, -, hmap⟩ := Option.bind_eq_some_iff.mp hlook
  obtain ⟨g, hg, heq⟩ := Option.map_eq_some_iff.mp hmap
  obtain ⟨⟨k, o, ho, hkey⟩, rfl⟩ := lookup_regroupIndex_eq_some.mp hg
  -- the order that made the group is in it
  have hin : (d.om.filter fun v => v.1.oCPkey = e.1).lookup k = some o := by simp [ho, hkey]
  rw [← heq]
  exact Finset.card_ne_zero_of_mem (Finmap.mem_keys.mpr (Finmap.mem_of_lookup_eq_some hin))

theorem q22_eq : q22 (d.customerMap rows) countrycode = some (replicate 32 (0, 0)) := by
  simp only [q22]
  rw [Multiset.filter_eq_nil.mpr]
  · simp
  · rintro x hx ⟨-, -, hzero⟩
    obtain ⟨e, he, rfl⟩ := Multiset.mem_map.mp (Multiset.mem_filter.mp hx).1
    exact size_ne_zero d rows he (eq_of_beq hzero)

/-- The query answers right exactly when the codes are numbers below 32 and nobody is asked for. -/
theorem q22_answers_iff : (∃ sums, q22 (d.customerMap rows) countrycode = some sums ∧
      ∀ i, sums[(countrycode i).toNat]? = some ((asked d rows countrycode (countrycode i)).length,
        ((asked d rows countrycode (countrycode i)).map fun c => c.cBalance).sum)) ↔
    ∀ i, (countrycode i).toNat < 32 ∧ asked d rows countrycode (countrycode i) = [] := by
  simp only [q22_eq, Option.some.injEq, exists_eq_left', getElem?_replicate]
  refine forall_congr' fun i => ⟨fun h => ?_, ?_⟩
  · split at h
    · next hlt =>
      have hlen := congrArg fst (Option.some.inj h)
      exact ⟨hlt, length_eq_zero_iff.mp hlen.symm⟩
    · cases h
  · rintro ⟨hlt, hnone⟩
    simp [hlt, hnone]

end Q22

/-- Two customers without orders: the richer one is asked for and not found. -/
theorem q22_misses :
    let rows : List CustomerRow := [⟨⟨1, 1, 1, 1, 0⟩, [], [49]⟩, ⟨⟨2, 1, 1, 3, 0⟩, [], [49]⟩]
    let codes : Fin 7 → UInt8 := fun i => 49 + UInt8.ofNat i
    (asked {} rows codes 49).length = 1 ∧
      q22 (DataSet.customerMap {} rows) codes = some (replicate 32 (0, 0)) :=
  ⟨by decide +kernel, q22_eq _ _ _⟩

/-! ### Q3 -/

structure Q3result where
  olOId : ℕ
  olWId : ℕ
  olDId : ℕ
  revenue : ℚ
  oEntryD : Date
  deriving DecidableEq

/-- `result_list`: what `set_entry::comp` orders, the highest revenue first. -/
abbrev ResultList := OrdMap ℚᵒᵈ Q3result

/-- The values of an index, by ascending key. -/
def values {V : Type} (m : Index ℕ V) : List V := (m.keys.sort (· ≤ ·)).filterMap m.lookup

/-- `map_reduce` by `Union`: of two entries of one key, `map_union` keeps the later. -/
def reduceUnion {V : Type} (f : V → ResultList) (m : Index ℕ V) : ResultList :=
  (values m).foldl (fun r v => r.union (f v)) {}

section Q3
variable (d : DataSet) (rows : List CustomerRow) (seg : List UInt8) (date : Date)

/-- What `order_f` puts into its list. -/
def orderResult (o : Order × OlMap) : Option Q3result :=
  let revenue := (o.2.entries.map fun e => e.2.olAmount).sum
  if Date.less date o.1.oEntryD ∧ 0 < revenue then
    some ⟨o.1.oId, o.1.oWId, o.1.oDId, revenue, o.1.oEntryD⟩
  else none

def orderF (o : Order × OlMap) : ResultList :=
  (orderResult date o).elim {} fun x => empty.set (.toDual x.revenue) x

def customerF (c : CustomerRow × OrderMap) : ResultList :=
  if seg <+: c.1.cState then reduceUnion (orderF date) c.2 else {}

def q3 (cm : Index ℕ (CustomerRow × OrderMap)) : ResultList := reduceUnion (customerF seg date) cm

/-- The total amount of an order's lines. -/
def total (o : Order) : ℚ :=
  ((d.orderlines.filter fun l => l.olWId = o.oWId ∧ l.olDId = o.oDId ∧ l.olOId = o.oId).map
    fun l => l.olAmount).sum

/-- One entry for each order that was entered after the date, by the calendar, by a customer of the
    state and with a positive total. -/
def qualifying : List Q3result :=
  (d.orders.filter fun o => date.Before o.oEntryD ∧ 0 < total d o ∧
    ∃ c ∈ rows, OrderedBy o c ∧ seg <+: c.cState).map
      fun o => ⟨o.oId, o.oWId, o.oDId, total d o, o.oEntryD⟩

/-- The keys tell the rows of the files apart, and no order of another year lies on the wrong side
    of the date within the year. -/
structure Clean : Prop where
  orders : Distinct Order.oPkey d.orders
  customers : Distinct (fun c : CustomerRow => c.cPkey) rows
  lines : (d.orderlines.map OrderLine.key).Nodup
  owner : ∀ o ∈ d.orders, ∀ c ∈ rows, o.oCPkey = c.cPkey → OrderedBy o c
  lineOf : ∀ o ∈ d.orders, ∀ l ∈ d.orderlines, l.olPkey = o.oPkey →
    l.olWId = o.oWId ∧ l.olDId = o.oDId ∧ l.olOId = o.oId
  dates : ∀ o ∈ d.orders, date.EarlierInYear o.oEntryD ↔ date.Before o.oEntryD

/-- The entries that the query comes by, in its order: those of the indexed orders that `Date::less`
    has after the date. -/
def selected : List Q3result :=
  (values (d.customerMap rows)).flatMap fun c =>
    if seg <+: c.1.cState then (values c.2).filterMap (orderResult date) else []

/-- For each revenue, the list has the last of the entries `l`. -/
def Keeps (r : ResultList) (l : List Q3result) : Prop :=
  ∀ k, r.find (.toDual k) = (l.filter fun x => x.revenue = k).getLast?

variable {seg date}

theorem keeps_nil : Keeps {} [] := fun _ => rfl

theorem Keeps.union {r r' : ResultList} {l l' : List Q3result} (h : Keeps r l) (h' : Keeps r' l') :
    Keeps (r.union r') (l ++ l') := by
  intro k
  rw [find_union, h k, h' k, filter_append, getLast?_append]

theorem keeps_reduceUnion {V : Type} {f : V → ResultList} {g : V → List Q3result}
    (h : ∀ v, Keeps (f v) (g v)) (m : Index ℕ V) :
    Keeps (reduceUnion f m) ((values m).flatMap g) := by
  have hrun : ∀ (vs : List V) (r : ResultList) (l : List Q3result), Keeps r l →
      Keeps (vs.foldl (fun r v => r.union (f v)) r) (l ++ vs.flatMap g) := by
    intro vs
    induction vs with
    | nil =>
      intro r l hr
      simpa using hr
    | cons v vs ih =>
      intro r l hr
      rw [foldl_cons, flatMap_cons, ← append_assoc]
      exact ih _ _ (hr.union (h v))
  exact hrun (values m) {} [] keeps_nil

theorem keeps_orderF (o : Order × OlMap) : Keeps (orderF date o) (orderResult date o).toList := by
  intro k
  rw [orderF]
  cases orderResult date o with
  | none => rfl
  | some x =>
    rw [Option.elim_some, find_set, Option.toList_some]
    by_cases hk : k = x.revenue
    · simp [hk]
    · simp [hk, Ne.symm hk]
      rfl

theorem keeps_q3 : Keeps (q3 seg date (d.customerMap rows)) (selected d rows seg date) := by
  refine keeps_reduceUnion (fun c => ?_) _
  rw [customerF]
  split
  · rw [filterMap_eq_flatMap_toList]
    exact keeps_reduceUnion keeps_orderF c.2
  · exact keeps_nil

section Keeps
variable {r : ResultList} {l : List Q3result} (h : Keeps r l)
include h

theorem Keeps.key_eq {e : ℚᵒᵈ × Q3result} (he : e ∈ r.entries) : e.1 = .toDual e.2.revenue := by
  have hlast := (h (OrderDual.ofDual e.1)).symm.trans (find_eq_some.mpr he)
  have hrev := (mem_filter.mp (mem_of_getLast? hlast)).2
  exact (congrArg OrderDual.toDual (of_decide_eq_true hrev)).symm

theorem Keeps.mem_iff (x : Q3result) : x ∈ r.entries.map snd ↔
    (l.filter fun y => y.revenue = x.revenue).getLast? = some x := by
  rw [← h, find_eq_some, mem_map]
  constructor
  · rintro ⟨e, he, rfl⟩
    rwa [← h.key_eq he]
  · intro he
    exact ⟨_, he, rfl⟩

theorem Keeps.descending : (r.entries.map snd).Pairwise fun a b => b.revenue < a.revenue := by
  refine pairwise_map.mpr (r.sorted.imp_of_mem fun ha hb hlt => ?_)
  rw [h.key_eq ha, h.key_eq hb] at hlt
  exact hlt

theorem Keeps.nodup : ((r.entries.map snd).map fun x => x.revenue).Nodup :=
  pairwise_map.mpr (h.descending.imp fun hlt => hlt.ne')

end Keeps

/-! ### What is selected -/

theorem mem_values {V : Type} {m : Index ℕ V} {v : V} : v ∈ values m ↔ ∃ k, m.lookup k = some v := by
  simp only [values, mem_filterMap, Finset.mem_sort]
  exact exists_congr fun k => and_iff_right_of_imp fun h =>
    Finmap.mem_keys.mpr (Finmap.mem_of_lookup_eq_some h)

theorem mem_customerMap {c : CustomerRow} {v : Order × OlMap}
    (hrows : Distinct (fun c => c.cPkey) rows) :
    (∃ e ∈ values (d.customerMap rows), e.1 = c ∧ v ∈ values e.2) ↔
      c ∈ rows ∧ v.1.oCPkey = c.cPkey ∧ v ∈ values d.om := by
  simp only [mem_values, DataSet.customerMap, lookup_pairedIndex, lookup_primaryIndex,
    Option.bind_eq_some_iff, Option.map_eq_some_iff, find_key_eq_some hrows,
    lookup_regroupIndex_eq_some]
  constructor
  · rintro ⟨_, ⟨k, c', ⟨hc, rfl⟩, g, ⟨-, rfl⟩, rfl⟩, rfl, k', hv⟩
    rw [lookup_filter, Option.filter_eq_some_iff] at hv
    exact ⟨hc, of_decide_eq_true hv.2, k', hv.1⟩
  · rintro ⟨hc, hkey, k', hv⟩
    refine ⟨(c, _), ⟨_, c, ⟨hc, rfl⟩, _, ⟨⟨k', v, hv, hkey⟩, rfl⟩, rfl⟩, rfl, k', ?_⟩
    rw [lookup_filter, Option.filter_eq_some_iff]
    exact ⟨hv, decide_eq_true hkey⟩

section Clean
variable {d rows} (h : Clean d rows date)
include h

theorem Clean.sum_lines {o : Order} (ho : o ∈ d.orders) :
    ((primaryIndex OrderLine.key (d.orderlines.filter fun l => l.olPkey = o.oPkey)).entries.map
      fun e => e.2.olAmount).sum = total d o := by
  have hlines : d.orderlines.filter (fun l => l.olPkey = o.oPkey) = d.orderlines.filter fun l =>
      l.olWId = o.oWId ∧ l.olDId = o.oDId ∧ l.olOId = o.oId := by
    refine filter_congr fun l hl => decide_eq_decide.mpr ⟨h.lineOf o ho l hl, ?_⟩
    rintro ⟨hw, hd, ho⟩
    rw [OrderLine.olPkey, hw, hd, ho, Order.oPkey]
  have hnodup : ((d.orderlines.filter fun l => l.olPkey = o.oPkey).map OrderLine.key).Nodup :=
    h.lines.sublist (filter_sublist.map _)
  have hsum := congrArg (fun s => (s.map fun l => l.olAmount).sum) (map_entries_primaryIndex hnodup)
  rw [Multiset.map_map, Multiset.map_coe, Multiset.sum_coe] at hsum
  rw [total, ← hlines]
  exact hsum

theorem Clean.mem_om {v : Order × OlMap} : v ∈ values d.om ↔ v.1 ∈ d.orders ∧
    v.2 = primaryIndex OrderLine.key (d.orderlines.filter fun l => l.olPkey = v.1.oPkey) := by
  simp only [mem_values, lookup_om, Option.map_eq_some_iff, find_key_eq_some h.orders]
  constructor
  · rintro ⟨k, o, ⟨ho, rfl⟩, rfl⟩
    exact ⟨ho, rfl⟩
  · rintro ⟨ho, hls⟩
    exact ⟨_, v.1, ⟨ho, rfl⟩, by rw [← hls]⟩

theorem Clean.mem_selected {x : Q3result} :
    x ∈ selected d rows seg date ↔ x ∈ qualifying d rows seg date := by
  have hsel : x ∈ selected d rows seg date ↔ ∃ c v, (c ∈ rows ∧ v.1.oCPkey = c.cPkey ∧
      v ∈ values d.om) ∧ seg <+: c.cState ∧ orderResult date v = some x := by
    simp only [← mem_customerMap d rows h.customers, selected, mem_flatMap, mem_ite_nil_right,
      mem_filterMap]
    constructor
    · rintro ⟨e, he, hseg, v, hv, hx⟩
      exact ⟨e.1, v, ⟨e, he, rfl, hv⟩, hseg, hx⟩
    · rintro ⟨c, v, ⟨e, he, rfl, hv⟩, hseg, hx⟩
      exact ⟨e, he, hseg, v, hv, hx⟩
  rw [hsel, qualifying, mem_map]
  simp only [mem_filter, decide_eq_true_eq, orderResult, Option.ite_none_right_eq_some,
    Option.some.injEq, h.mem_om, Date.less_iff_earlierInYear]
  constructor
  · rintro ⟨c, ⟨o, ls⟩, ⟨hc, hkey, ho, hls⟩, hseg, ⟨hless, hpos⟩, rfl⟩
    rw [hls, h.sum_lines ho] at hpos
    rw [hls, h.sum_lines ho]
    exact ⟨o, ⟨ho, (h.dates o ho).mp hless, hpos, c, hc, h.owner o ho c hc hkey, hseg⟩, rfl⟩
  · rintro ⟨o, ⟨ho, hdate, hpos, c, hc, hby, hseg⟩, rfl⟩
    have hkey : o.oCPkey = c.cPkey := by
      rw [Order.oCPkey, hby.1, hby.2.1, hby.2.2, Customer.cPkey]
    rw [← h.sum_lines ho] at hpos ⊢
    exact ⟨c, (o, _), ⟨hc, hkey, ho, rfl⟩, hseg, ⟨(h.dates o ho).mpr hdate, hpos⟩, rfl⟩

end Clean

end Q3

/-- Two orders of one customer after the date, with a line each. -/
def twins (amount amount' : ℚ) : DataSet where
  orders := [⟨1, 1, 1, 1, ⟨2, 1, 2023⟩, 0, 1⟩, ⟨2, 1, 1, 1, ⟨3, 1, 2023⟩, 0, 1⟩]
  orderlines := [⟨1, 1, 1, 1, 1, 1, ⟨4, 1, 2023⟩, 5, amount⟩,
    ⟨2, 1, 1, 1, 1, 1, ⟨4, 1, 2023⟩, 5, amount'⟩]

def twinsRows : List CustomerRow := [⟨⟨1, 1, 1, 0, 0⟩, [65], []⟩]

theorem clean_twins (amount amount' : ℚ) : Clean (twins amount amount') twinsRows ⟨1, 1, 2023⟩ := by
  constructor <;> simp [twins, twinsRows, Distinct, OrderedBy, OrderLine.key, OrderLine.olPkey,
    Order.oPkey, Order.oCPkey, Customer.cPkey, pkey, Date.EarlierInYear, Date.Before]

end Fiss.Pam
