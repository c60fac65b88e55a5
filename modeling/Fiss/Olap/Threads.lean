import Fiss.Olap.Server
import Fiss.Olap.Constant
import Fiss.Schemes.Runs

/-! The threads of the OLAP replica and all their interleavings. Each RPC stream has a handler that
    runs its requests part by part; a part is two critical sections, `recv` and then `back`
    (`backUpdate` or `backOrder`), and any other thread may run between them. The query thread is
    started by the first `TransferUpdate`; it scans the columns of the next query, waits until its
    waitlist is empty, and calls `run_query`. A run is any list of events: requests arriving on any
    stream, and threads taking their next critical section. -/

namespace Fiss.Olap
open Function Dict

/-- A part of a request: one update, or one touched column of one order. -/
inductive Msg where
  | update (k : Slot) (up : Update)
  | order (k : Slot) (od : Order)
  deriving DecidableEq, Repr

/-- The column a part belongs to. -/
def Msg.slot : Msg → Slot
  | .update k _ => k
  | .order k _ => k

/-- The transaction a part is about. -/
def Msg.txn : Msg → TxnId
  | .update _ up => up.txnId
  | .order _ od => od.txnId

/-- The two critical sections of a part. -/
inductive Op where
  | recv (m : Msg)
  | back (m : Msg)
  deriving DecidableEq, Repr

/-- The loop of `TransferUpdate` over the updates of a request. -/
def UpdateReq.parts (req : UpdateReq) : List Msg :=
  req.updates.map fun up => .update ⟨req.shardId, req.colId⟩ up

/-- The loops of `TransferOrder` over the orders of a request and their touched columns. -/
def OrderReq.parts (req : OrderReq) : List Msg :=
  req.orders.flatMap fun od => od.touchedCols.map fun c => .order ⟨req.shardId, c⟩ od

/-- The effect of a `recv` section on the maps. -/
def recv (s : Server) : Msg → Server
  | .update k up => (recvUpdate s k up).1
  | .order k od => recvOrder s k od

/-- One critical section: the new maps, and the section its handler runs next for the same part. -/
def exec (h : Host) (s : Server) : Op → Option (Server × List Op)
  | .recv (.update k up) =>
    let r := recvUpdate s k up
    some (r.1, if r.2 then [.back (.update k up)] else [])
  | .recv (.order k od) => some (recvOrder s k od, [.back (.order k od)])
  | .back (.update k up) => (backUpdate h s k up).map fun s' => (s', [])
  | .back (.order k od) => (backOrder h s k od).map fun s' => (s', [])

/-! ### The query thread -/

/-- The transactions the scan of a column puts on the waitlist: vertices with a status 0 record. -/
def waiting (s : Server) (k : Slot) : List TxnId :=
  (s.orderMap k).vertices.filter fun t =>
    match (s.orderVec k).find t with
    | none => false
    | some v => v.status = 0

/-- Put `(t, k)` on the waitlist with flag 0, creating the levels that are missing. -/
def addWait (k : Slot) (w : Waitlist) (t : TxnId) : Waitlist :=
  match w.find t with
  | none => w.insert t (empty.insert k.shard (empty.insert k.col 0))
  | some shards =>
    match shards.find k.shard with
    | none => w.modify t fun shards => shards.insert k.shard (empty.insert k.col 0)
    | some _ => w.modify t fun shards => shards.modify k.shard fun cols => cols.insert k.col 0

/-- The flag of `(t, k)`. -/
def flagOf (w : Waitlist) (t : TxnId) (k : Slot) : Option ℕ :=
  (w.find t).bind fun shards => (shards.find k.shard).bind fun cols => cols.find k.col

/-- Remove an inner map that became empty. -/
def dropEmpty {K A B : Type} [DecidableEq K] [DecidableEq A] (d : Dict K (Dict A B)) (k : K) :
    Dict K (Dict A B) :=
  match d.find k with
  | none => d
  | some inner => if inner.isEmpty then d.erase k else d

/-- `TriggerCleanWaitlist` after the call for `(t, k)`: a raised flag is removed. -/
def pruneWait (w : Waitlist) (t : TxnId) (k : Slot) : Waitlist :=
  match flagOf w t k with
  | some (_ + 1) =>
    dropEmpty (w.modify t fun shards =>
      dropEmpty (shards.modify k.shard fun cols => cols.erase k.col) k.shard) t
  | _ => w

/-- The entries a pass of `TriggerCleanWaitlist` walks. -/
def waitEntries (w : Waitlist) : List (TxnId × Slot) :=
  w.entries.flatMap fun e => e.2.entries.flatMap fun f => f.2.entries.map fun c => (e.1, ⟨f.1, c.1⟩)

/-- The 30 shards of a list of columns. -/
def slotsOf (cols : List String) : List Slot :=
  cols.flatMap fun c => (List.range 30).map fun i : ℕ => ⟨(i : ℤ), c⟩

/-- Where the query thread stands in its iteration. -/
inductive QueryPc where
  /-- About to start the scan. -/
  | start
  /-- The columns still to be scanned. -/
  | scan (todo : List Slot)
  /-- In `TriggerCleanWaitlist`, with the entries still to be tried. -/
  | clean (todo : List (TxnId × Slot))
  /-- `ApplyUpdateByOrder` was called for an entry; its flag is looked at next. -/
  | prune (t : TxnId) (k : Slot) (todo : List (TxnId × Slot))

/-- The query thread: iteration, position, and for the record the transactions that had status 0 in
    a column of the iteration's query when its scan started or came to that column. -/
structure QueryThread where
  count : ℕ := 0
  pc : QueryPc := .start
  due : List (Slot × TxnId) := []

/-- The pairs of `slots` and the transactions waiting there. -/
def waitingIn (s : Server) (slots : List Slot) : List (Slot × TxnId) :=
  slots.flatMap fun k => (waiting s k).map fun t => (k, t)

/-- The next critical section of `APServer::query`. From `clean []` with an empty waitlist it calls
    `run_query(count % 22)` and goes on to the next iteration. -/
def queryStep (h : Host) (s : Server) (q : QueryThread) : Option (Server × QueryThread) :=
  match q.pc with
  | .start => some (s, { q with
      pc := .scan (slotsOf (scanCols q.count))
      due := waitingIn s (slotsOf (queryCols (q.count % 22 + 1))) })
  | .scan [] => some (s, { q with pc := .clean (waitEntries s.waitlist) })
  | .scan (k :: ks) => some ({ s with waitlist := (waiting s k).foldl (addWait k) s.waitlist },
      { q with pc := .scan ks, due := q.due ++ waitingIn s [k] })
  | .clean ((t, k) :: todo) =>
    (applyUpdateByOrder h k h.depth s t).map fun r => (r.1, { q with pc := .prune t k todo })
  | .prune t k todo =>
    some ({ s with waitlist := pruneWait s.waitlist t k }, { q with pc := .clean todo })
  | .clean [] =>
    if s.waitlist.isEmpty then some (s, { count := q.count + 1, pc := .start, due := [] })
    else some (s, { q with pc := .clean (waitEntries s.waitlist) })

/-! ### The whole replica -/

/-- The maps, what each stream's handler has still to run, the query thread once it is started, and
    for the record the parts whose `recv` section has run, oldest first. -/
structure Replica where
  server : Server := {}
  streams : ℕ → List Op := fun _ => []
  query : Option QueryThread := none
  received : List Msg := []

/-- What can happen next. -/
inductive Event where
  /-- A `TransferOrder` request is read on a stream. -/
  | order (i : ℕ) (req : OrderReq)
  /-- A `TransferUpdate` request is read on a stream. -/
  | update (i : ℕ) (req : UpdateReq)
  /-- The handler of a stream runs its next critical section. -/
  | run (i : ℕ)
  /-- The query thread runs its next critical section. -/
  | query

/-- The parts of the request an event brings. -/
def Event.parts : Event → List Msg
  | .order _ req => req.parts
  | .update _ req => req.parts
  | _ => []

/-- All parts sent in a run. -/
def sent (es : List Event) : List Msg := es.flatMap Event.parts

/-- The section an event runs on a stream. -/
def Replica.next (y : Replica) : Event → Option Op
  | .run i => (y.streams i).head?
  | _ => none

/-- `received` after a critical section. -/
def record (tr : List Msg) : Op → List Msg
  | .recv m => tr ++ [m]
  | .back _ => tr

/-- One event; `none` when a call did not return. -/
def step (h : Host) (y : Replica) : Event → Option Replica
  | .order i req =>
    some { y with streams := update y.streams i (y.streams i ++ req.parts.map .recv) }
  | .update i req => some { y with
      streams := update y.streams i (y.streams i ++ req.parts.map .recv)
      query := y.query.or (some {}) }
  | .run i =>
    match y.streams i with
    | [] => some y
    | op :: rest => (exec h y.server op).map fun r => { y with
        server := r.1
        streams := update y.streams i (r.2 ++ rest)
        received := record y.received op }
  | .query =>
    match y.query with
    | none => some y
    | some q => (queryStep h y.server q).map fun r => { y with server := r.1, query := some r.2 }

end Fiss.Olap
