import Fiss.Olap.Graph

/-! The state of the OLAP replica (`OLAP/APServer.h`) and the functions its threads run under the
    mutex of one shard and column: what `TransferUpdate` and `TransferOrder` do with one message
    part, and the mutual recursion `ApplyUpdateByOrder` / `TriggerCheckParent` that passes a
    transaction's updates to `DeltaManager::ingestup` once its parents are done.

        TransferUpdate ──▶ updateMap ──┐
                                       ├──▶ ApplyUpdateByOrder ──▶ ingestup
        TransferOrder ──▶ orderMap ────┘        │      ▲
                          orderVec              ▼      │ parent with status 0
                                          TriggerCheckParent -/

namespace Fiss.Olap
open Function

/-- Transaction ids (`ulong`); the replica only compares them. -/
abbrev TxnId := ℕ

inductive OpType where | update | insert | remove
  deriving DecidableEq, Repr

structure Update where
  pkeyColName : String
  pkeyVal : String
  value : String
  opType : OpType
  txnId : TxnId
  deriving DecidableEq, Repr

/-- `state_transfer::UpdateReq`: updates of one column of one shard. -/
structure UpdateReq where
  shardId : ℤ
  colId : String
  updates : List Update
  deriving DecidableEq, Repr

/-- `state_transfer::Order`: a transaction, its parents and the columns it touches. -/
structure Order where
  txnId : TxnId
  estimatedLat : ℕ := 0
  parentsTid : List TxnId
  touchedCols : List String
  deriving DecidableEq, Repr

structure OrderReq where
  shardId : ℤ
  orders : List Order
  deriving DecidableEq, Repr

/-- The two outer keys `[shard_id][col_id]` of the server's maps. -/
structure Slot where
  shard : ℤ
  col : String
  deriving DecidableEq, Repr

/-- `odVertex`; the default is what `operator[]` creates. -/
structure OdVertex where
  status : ℕ := 0
  upCnt : ℕ := 0
  estimatedTime : ℕ := 0
  deriving DecidableEq, Repr

/-- `waitlist_`: transaction, shard, column, and a flag that turns 1 when the update is ingested. -/
abbrev Waitlist := Dict TxnId (Dict ℤ (Dict String ℕ))

/-- The static maps of `APServer`, the calls of `ingestup` made so far, oldest first, and how often the
    parents of a transaction were walked. -/
structure Server where
  orderMap : Slot → Graph TxnId := fun _ => .empty
  orderVec : Slot → Dict TxnId OdVertex := fun _ => .empty
  updateMap : Slot → Dict TxnId (List Update) := fun _ => .empty
  waitlist : Waitlist := .empty
  ingested : List (Slot × Update) := []
  walks : ℕ := 0

/-- What the C++ runtime leaves open. `get_parents` returns a copy, and the loop over the parents of a
    transaction takes `begin()` and `end()` of two copies that are gone: what `*it` reads in the
    `n`-th walk, over the parents `ps`, is `reads n ps`, any ids at all. `depth` is how many calls
    of `ApplyUpdateByOrder` fit on a thread's stack. -/
structure Host where
  reads : ℕ → List TxnId → List TxnId
  depth : ℕ

/-! ### One message part under the lock -/

variable (h : Host) (s : Server) (k : Slot) (t : TxnId)

/-- `TransferUpdate` on one update: the new `updateMap`, and whether `backUpdate` is called next.
    Only an UPDATE whose transaction has nothing pending in the column is stored. -/
def recvUpdate (up : Update) : Server × Bool :=
  match up.opType with
  | .update =>
    if ((s.updateMap k).find up.txnId).isSome then (s, false)
    else ({ s with
      updateMap := update s.updateMap k ((s.updateMap k).insert up.txnId [up]) }, true)
  | .insert => (s, false)
  | .remove => (s, false)

/-- The record `TransferOrder` makes for the order's own transaction. -/
def announcedVertex (od : Order) : OdVertex :=
  { status := 0, upCnt := 1, estimatedTime := od.estimatedLat }

/-- The record `TransferOrder` makes for a parent that has none yet. -/
def placeholderVertex : OdVertex := { status := 1, upCnt := 1, estimatedTime := 0 }

/-- One round of the loop over `parents_tid`: vertex, record, and the edge unless it closes a cycle. -/
def addParent (gv : Graph TxnId × Dict TxnId OdVertex) (p : TxnId) : Graph TxnId × Dict TxnId
    OdVertex :=
  let g := gv.1.addVertex p
  (if g.parentExist t p then g else g.addEdge p t, gv.2.insert p placeholderVertex)

/-- The graph and the records of a column after an order that touches it. -/
def addOrder (gv : Graph TxnId × Dict TxnId OdVertex) (od : Order) :
    Graph TxnId × Dict TxnId OdVertex :=
  od.parentsTid.foldl (addParent od.txnId)
    (gv.1.addVertex od.txnId, gv.2.insert od.txnId (announcedVertex od))

/-- `TransferOrder` on one touched column of one order. -/
def recvOrder (od : Order) : Server :=
  let gv := addOrder (s.orderMap k, s.orderVec k) od
  { s with
    orderMap := update s.orderMap k gv.1
    orderVec := update s.orderVec k gv.2 }

/-! ### Applying updates in order -/

/-- `orderVec[shard_id][col_id][tid].status`. -/
def statusOf : ℕ := (((s.orderVec k).find t).getD {}).status

/-- `orderVec[shard_id][col_id][tid].up_cnt`. -/
def upCntOf : ℕ := (((s.orderVec k).find t).getD {}).upCnt

/-- Set the waitlist flag of `(t, k)` where there is one. -/
def markWait (w : Waitlist) (t : TxnId) (k : Slot) : Waitlist :=
  w.modify t fun shards => shards.modify k.shard fun cols => cols.modify k.col fun _ => 1

/-- The tail of `TriggerCheckParent`: ingest what is pending for `t`, flag it, mark it applied and
    drop it from `updateMap`. -/
def ingestTxn : Server :=
  { s with
    ingested := s.ingested ++ (((s.updateMap k).find t).getD []).map fun up => (k, up)
    waitlist := markWait s.waitlist t k
    orderVec := update s.orderVec k
      (((s.orderVec k).insert t {}).modify t fun v => { v with status := 1 })
    updateMap := update s.updateMap k ((s.updateMap k).erase t) }

/-- `orderVec[shard_id][col_id][id]`: a default record is made where there is none. -/
def touch (id : TxnId) : Server :=
  { s with orderVec := update s.orderVec k ((s.orderVec k).insert id {}) }

/-- The loop over the parents: what is read and has status 0 has to be applied first. -/
def checkParents (k : Slot) (apply : Server → TxnId → Option (Server × Bool)) :
    List TxnId → Server → Option (Server × Bool)
  | [], s => some (s, true)
  | p :: ps, s =>
    if statusOf s k p = 0 then
      match apply (touch s k p) p with
      | none => none
      | some (s', false) => some (s', false)
      | some (s', true) => checkParents k apply ps s'
    else checkParents k apply ps s

/-- `TriggerCheckParent`, over the `ApplyUpdateByOrder` it calls for what it reads. -/
def triggerCheckParent (apply : Server → TxnId → Option (Server × Bool)) (s : Server) (t : TxnId) :
    Option (Server × Bool) :=
  let parents := (s.orderMap k).getParents t
  if parents = [] then some (ingestTxn s k t, true)
  else
    match checkParents k apply (h.reads s.walks parents) { s with walks := s.walks + 1 } with
    | none => none
    | some (s', true) => some (ingestTxn s' k t, true)
    | some (s', false) => some (s', false)

/-- `ApplyUpdateByOrder` with room for `n` nested calls; `none` is a call that needs more. -/
def applyUpdateByOrder (h : Host) (k : Slot) : ℕ → Server → TxnId → Option (Server × Bool)
  | 0, _, _ => none
  | n + 1, s, t =>
    if (s.orderMap k).isExist t = false ∨ (s.updateMap k).find t = none then some (s, false)
    else if upCntOf s k t ≠ (((s.updateMap k).find t).getD []).length then some (s, false)
    else triggerCheckParent h k (applyUpdateByOrder h k n) s t

def backUpdate (up : Update) : Option Server :=
  (applyUpdateByOrder h k h.depth s up.txnId).map Prod.fst

def backOrder (od : Order) : Option Server :=
  (applyUpdateByOrder h k h.depth s od.txnId).map Prod.fst

end Fiss.Olap
