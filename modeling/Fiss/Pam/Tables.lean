import Fiss.Schemes.Dict
import Fiss.Schemes.Index

/-! The tables of the analytical engine and the seven indices over them: how `make_maps_test`
    (`OLAP/PAM/tpch/tables.h`) builds the indices from the table files, and how `insertOrder` and
    `insertOrderline` (`OLAP/PAM/tpch/test.cpp`) add a row to them. The maps of the PAM library are
    taken at their specification: finite maps whose `insert` replaces and whose `update` does
    nothing where the key is missing. Unsigned arithmetic wraps at 32 bits. -/

namespace Fiss.Pam

open Index

/-! ### Rows -/

structure Date where
  day : UInt16
  month : UInt16
  year : UInt16
  deriving DecidableEq, Repr, Inhabited

/-- `Date::v.c`, the 32 bits that `Date::less` compares: they do not reach the year. -/
def Date.c (d : Date) : ℕ := d.day.toNat + 65536 * d.month.toNat

/-- The key made of a warehouse, a district and an id. -/
def pkey (w d id : ℕ) : ℕ := (100000 * w + 10000 * d + id) % 2 ^ 32

structure Order where
  oId : ℕ
  oDId : ℕ
  oWId : ℕ
  oCId : ℕ
  oEntryD : Date
  oCarrierId : ℕ
  oOlCnt : ℕ
  deriving DecidableEq, Repr

def Order.oPkey (o : Order) : ℕ := pkey o.oWId o.oDId o.oId

def Order.oCPkey (o : Order) : ℕ := pkey o.oWId o.oDId o.oCId

structure OrderLine where
  olOId : ℕ
  olDId : ℕ
  olWId : ℕ
  olNumber : ℕ
  olIId : ℕ
  olSupplyWId : ℕ
  olDeliveryD : Date
  olQuantity : ℕ
  olAmount : ℚ
  deriving DecidableEq, Repr, Inhabited

def OrderLine.olPkey (l : OrderLine) : ℕ := pkey l.olWId l.olDId l.olOId

def OrderLine.olSuppkey (l : OrderLine) : ℕ := l.olIId * l.olWId % 2 ^ 32 % 10000

/-- What `ol_entry::comp` compares. -/
def OrderLine.key (l : OrderLine) : ℕ × ℕ × ℕ × ℕ := (l.olOId, l.olDId, l.olWId, l.olNumber)

/-- `Customer`, without the texts. -/
structure Customer where
  cId : ℕ
  cDId : ℕ
  cWId : ℕ
  cBalance : ℚ
  cNNationkey : ℕ
  deriving DecidableEq, Repr

def Customer.cPkey (c : Customer) : ℕ := pkey c.cWId c.cDId c.cId

structure Stock where
  sIId : ℕ
  sWId : ℕ
  sQuantity : ℕ
  sOrderCnt : ℕ
  sSuSuppkey : ℕ
  deriving DecidableEq, Repr

/-- `Supplier`, without the texts. -/
structure Supplier where
  suSuppkey : ℕ
  suNationkey : ℕ
  deriving DecidableEq, Repr

/-- `Item`, without the texts. -/
structure Item where
  iId : ℕ
  iPrice : ℚ
  deriving DecidableEq, Repr

/-- The parsed table files. -/
structure DataSet where
  orderlines : List OrderLine := []
  orders : List Order := []
  customers : List Customer := []
  stocks : List Stock := []
  suppliers : List Supplier := []
  items : List Item := []

/-! ### Indices -/

/-- `ol_map`: a set of order lines. -/
abbrev OlMap := Index (ℕ × ℕ × ℕ × ℕ) OrderLine

abbrev OrderMap := Index ℕ (Order × OlMap)

abbrev ItemSuppAndOrderlineMap := Index (ℕ × ℕ) (Stock × OlMap)

abbrev ItemSuppAndOrderlineMapTmp := Index ℕ (Stock × OlMap)

/-- `maps`. -/
@[ext] structure Maps where
  om : OrderMap
  dm : Index ℕ OlMap
  cm : Index ℕ (Customer × OrderMap)
  oom : Index ℕ OrderMap
  ism2 : Index ℕ (Item × ItemSuppAndOrderlineMap)
  sim2 : Index ℕ (Supplier × ItemSuppAndOrderlineMap)
  sim22 : Index ℕ (Supplier × ItemSuppAndOrderlineMapTmp)

namespace DataSet
variable (d : DataSet)

/-- `comap`: the lines under their order's customer and key. -/
def comap : Index (ℕ × ℕ) OlMap :=
  let orderPrimary := primaryIndex Order.oPkey d.orders
  secondaryIndex
    (fun ol => (((orderPrimary.lookup ol.olPkey).map Order.oCPkey).getD 0, ol.olPkey))
    OrderLine.key d.orderlines

def om : OrderMap :=
  makePairedIndex Order.oPkey (fun o => (d.comap.lookup (o.oCPkey, o.oPkey)).getD ∅) d.orders

def dm : Index ℕ OlMap := secondaryIndex (fun ol => ol.olDeliveryD.c) OrderLine.key d.orderlines

def oom : Index ℕ OrderMap := regroupIndex (fun e => e.1.oEntryD.c) d.om

def cm : Index ℕ (Customer × OrderMap) :=
  pairedIndex (primaryIndex Customer.cPkey d.customers) (regroupIndex (fun e => e.1.oCPkey) d.om)

/-- `isom`: stock and its lines under item and warehouse. -/
def isom : ItemSuppAndOrderlineMap :=
  pairedIndex (primaryIndex (fun s => (s.sIId, s.sWId)) d.stocks)
    (secondaryIndex (fun ol => (ol.olIId, ol.olSupplyWId)) OrderLine.key d.orderlines)

/-- `isom_temp`: the same under the item alone. -/
def isomTemp : ItemSuppAndOrderlineMapTmp :=
  pairedIndex (primaryIndex Stock.sIId d.stocks)
    (secondaryIndex OrderLine.olIId OrderLine.key d.orderlines)

def sim2 : Index ℕ (Supplier × ItemSuppAndOrderlineMap) :=
  pairedIndex (primaryIndex Supplier.suSuppkey d.suppliers)
    (regroupIndex (fun e => e.1.sSuSuppkey) d.isom)

def sim22 : Index ℕ (Supplier × ItemSuppAndOrderlineMapTmp) :=
  pairedIndex (primaryIndex Supplier.suSuppkey d.suppliers)
    (regroupIndex (fun e => e.1.sSuSuppkey) d.isomTemp)

def ism2 : Index ℕ (Item × ItemSuppAndOrderlineMap) :=
  pairedIndex (primaryIndex Item.iId d.items) (regroupIndex (fun e => e.1.sIId) d.isom)

end DataSet

def makeMapsTest (d : DataSet) : Maps where
  om := d.om
  dm := d.dm
  cm := d.cm
  oom := d.oom
  ism2 := d.ism2
  sim2 := d.sim2
  sim22 := d.sim22

/-! ### Inserting a row -/

/-- The globals of `test.cpp`: the indices, the array of order lines each transaction has begun,
    and how many of them have come and are expected. -/
structure Engine where
  m : Maps
  orderlineObject : Dict ℕ (List OrderLine) := .empty
  orderlineCnt : Dict ℕ (ℕ × ℕ) := .empty

/-- The array `insertOrder` finds or makes for the transaction. -/
def orderArray (s : Engine) (txnId : ℕ) (o : Order) : List OrderLine :=
  (s.orderlineObject.find txnId).getD (List.replicate o.oOlCnt default)

/-- `insertOrder`, on the parsed row. -/
def insertOrder (s : Engine) (txnId : ℕ) (o : Order) : Engine :=
  let orderline := orderArray s txnId o
  let oe := (o, primaryIndex OrderLine.key (orderline.take o.oOlCnt))
  { m := { s.m with
      cm := s.m.cm.update o.oCPkey fun e => (e.1, e.2.insert o.oPkey oe)
      om := s.m.om.insert o.oPkey oe }
    orderlineObject := s.orderlineObject.insert txnId orderline
    orderlineCnt :=
      if (s.orderlineObject.find txnId).isNone then s.orderlineCnt.insert txnId (0, o.oOlCnt)
      else s.orderlineCnt.modify txnId fun c => (c.1, o.oOlCnt) }

/-- The bookkeeping of `insertOrderline`: the line goes into the transaction's array, which is
    dropped from the map when the last expected line has come. -/
def storeLine (s : Engine) (txnId : ℕ) (l : OrderLine) : Engine :=
  match s.orderlineObject.find txnId with
  | none => { s with
      -- 15 is the max orderline number (decided by data generator)
      orderlineObject := s.orderlineObject.insert txnId
        ((List.replicate 15 default).set (l.olNumber - 1) l)
      orderlineCnt := s.orderlineCnt.insert txnId (1, 0) }
  | some _ =>
    let cnt := s.orderlineCnt.modify txnId fun c => (c.1 + 1, c.2)
    if (cnt.find txnId).any fun c => c.1 = c.2 then { s with
      orderlineObject := s.orderlineObject.erase txnId
      orderlineCnt := cnt.erase txnId }
    else { s with
      orderlineObject := s.orderlineObject.modify txnId fun a => a.set (l.olNumber - 1) l
      orderlineCnt := cnt }

/-- `insertOrderline`, on the parsed row. -/
def insertOrderline (s : Engine) (txnId : ℕ) (l : OrderLine) : Engine :=
  let addLine : Stock × OlMap → Stock × OlMap := fun e => (e.1, e.2.insert l.key l)
  let s := storeLine s txnId l
  { s with m := { s.m with
      sim2 := s.m.sim2.update l.olSuppkey fun e =>
        (e.1, e.2.update (l.olIId, l.olSupplyWId) addLine)
      sim22 := s.m.sim22.update l.olSuppkey fun e => (e.1, e.2.update l.olIId addLine)
      ism2 := s.m.ism2.update l.olIId fun e => (e.1, e.2.update (l.olIId, l.olSuppkey) addLine) } }

end Fiss.Pam
