import Fiss.Brq.Coord
import Fiss.Schemes.Rounds
import Fiss.Schemes.OrdMap

/-! The phases of a coordinator (`GotoNextPhase`): pre-accept, then commit if the pre-accept replies
    allow the fast path and accept if they do not, then the end or another attempt. Every message is
    broadcast to all replicas of the partitions of the transaction; an acknowledgement comes with the
    number of the phase it belongs to and is dropped in any other.

    A failed `verify` makes a handler return nothing. The number of the phase is unbounded here. A
    request that is not answered is kept in the ledger, and a broadcast in the log with the
    acknowledgements that had come by then. Forwarding a request to another site, the vertex field
    `fast_path_` and the counters of pieces, which nothing here reads, are left out. -/

namespace Fiss.Brq
open Fiss.Rcc

inductive BrqCoord.Phase where
  | initEnd
  | dispatch
  | prepare
  | preAccept
  | accept
  | commit
  deriving DecidableEq

/-- The phase that a phase number stands for. -/
def BrqCoord.phaseOf (n : ℕ) : BrqCoord.Phase :=
  match n % 6 with
  | 0 => .initEnd
  | 1 => .dispatch
  | 2 => .prepare
  | 3 => .preAccept
  | 4 => .accept
  | _ => .commit

inductive Res where
  | success
  | reject
  | other
  deriving DecidableEq

/-- What `FastQuorumGraphCheck` returns: a fast quorum of the same, different ones, or too few. -/
inductive GraphCheck where
  | same
  | differ
  | few
  deriving DecidableEq

/-- A request to one replica, with the phase number its acknowledgement is to come back with. -/
structure Request where
  kind : BrqCoord.Phase
  txn : ℕ
  phase : ℕ
  par : ℕ
  replica : ℕ
  deriving DecidableEq

/-- A broadcast, and the acknowledgements that had come before it. -/
structure Broadcast where
  kind : BrqCoord.Phase
  txn : ℕ
  fast : Bool
  heard : List (Request × Graph)

/-- The replicas of each partition, and the partitions each attempt has pieces for. -/
structure Layout where
  /-- `GetPartitionSize` -/
  size : ℕ → ℕ
  touched : ℕ → OrdSet ℕ
  /-- `max_retry_` -/
  maxRetry : ℤ
  size_pos : ∀ par, 0 < size par
  touched_nonempty : ∀ t, touched t ≠ ∅

/-- The coordinator with all that the phases read. -/
structure Coordinator extends BrqCoord where
  phase : ℕ := 0
  /-- the id of the attempt -/
  txnId : ℕ := 0
  nextTxnId : ℕ := 0
  nRetry : ℕ := 0
  /-- of the transaction -/
  partitionIds : OrdSet ℕ := ∅
  nFastAcceptOks : Dict ℕ ℕ := {}
  fastAcceptGraphCheckCaches : Dict ℕ GraphCheck := {}
  nAcceptOks : Dict ℕ ℕ := {}
  nCommitOks : OrdMap ℕ ℕ := {}
  fastCommit : Bool := false
  committed : Bool := false
  aborted : Bool := false
  ledger : Ledger Request Graph := {}
  log : List Broadcast := []

/-- `counts[par]++`. -/
def bump (counts : Dict ℕ ℕ) (par : ℕ) : Dict ℕ ℕ := counts.set par ((counts.find par).getD 0 + 1)

def Layout.getFastQuorum (L : Layout) (par : ℕ) : ℕ := L.size par

def Layout.getSlowQuorum (L : Layout) (par : ℕ) : ℕ := L.size par / 2 + 1

namespace Coordinator

variable (L : Layout) (c : Coordinator)

/-! ### Quorums -/

def graphsOf (par : ℕ) : List Graph := (c.nFastAcceptGraphs.find par).getD []

/-- The loop of `FastQuorumGraphCheck`, up to the first graph with other parents. -/
def compareParents (t : ℕ) (parentSet : OrdSet ℕ) : List Graph → Option GraphCheck
  | [] => some .same
  | graph :: graphs => (graph.find t).bind fun vv =>
      if parentSet = vv.parents then compareParents t parentSet graphs else some .differ

def setCaches (caches : Dict ℕ GraphCheck) : Coordinator :=
  { c with fastAcceptGraphCheckCaches := caches }

def fastQuorumGraphCheck (par : ℕ) : Option (GraphCheck × Coordinator) :=
  if (c.graphsOf par).length < L.getFastQuorum par then some (.few, c)
  else match c.fastAcceptGraphCheckCaches.find par with
    | some res => some (res, c)
    | none =>
      if (c.graphsOf par).length = L.getFastQuorum par then
        match c.graphsOf par with
        | [] => none
        | graph :: graphs => (graph.find c.txnId).bind fun v =>
            (compareParents c.txnId v.parents graphs).map fun res =>
              (res, c.setCaches (c.fastAcceptGraphCheckCaches.set par res))
      else none

/-- `FastpathPossible`, over the partitions `pars`: all of them are checked. -/
def fastpathPossible (L : Layout) : List ℕ → Coordinator → Option (Bool × Coordinator)
  | [], c => some (true, c)
  | par :: pars, c => (c.fastQuorumGraphCheck L par).bind fun r =>
      (fastpathPossible L pars r.2).map fun q => (r.1 ≠ .differ && q.1, q.2)

/-- `AllFastQuorumsReached`, over the partitions `pars`: up to the first that has not. -/
def allFastQuorumsReached (L : Layout) : List ℕ → Coordinator → Option (Bool × Coordinator)
  | [], c => some (true, c)
  | par :: pars, c => (c.fastQuorumGraphCheck L par).bind fun r =>
      if r.1 = .same then allFastQuorumsReached L pars r.2 else some (false, r.2)

def preAcceptAllSlowQuorumsReached : Bool :=
  c.partitionIds.elems.all fun par => L.getSlowQuorum par ≤ (c.nFastAcceptOks.find par).getD 0

def acceptQuorumReached : Bool :=
  c.partitionIds.elems.all fun par => L.getSlowQuorum par ≤ (c.nAcceptOks.find par).getD 0

/-! ### The messages of a phase -/

/-- The requests to all replicas of the partitions. -/
def requests (kind : BrqCoord.Phase) (pars : List ℕ) : List Request :=
  pars.flatMap fun par =>
    (List.range (L.size par)).map fun k => ⟨kind, c.txnId, c.phase, par, k⟩

def broadcast (kind : BrqCoord.Phase) (pars : List ℕ) : Coordinator :=
  { c with
    ledger := c.ledger.send (c.requests L kind pars)
    log := c.log ++ [⟨kind, c.txnId, c.fastPath, c.ledger.answered⟩] }

/-- `GetAllCmds`: the pieces of the attempt are made, and nothing is committed yet. -/
def getAllCmds : Coordinator :=
  { c with
    partitionIds := c.partitionIds.union (L.touched c.txnId)
    nCommitOks := (L.touched c.txnId).elems.foldl (fun m par => m.set par 0) c.nCommitOks }

/-- The graph gets the vertex of the attempt. -/
def createV : Coordinator := { c with toBrqCoord := c.toBrqCoord.preAccept c.txnId }

/-- `txn().partition_ids_.size() == dtxn->partition_.size()`. -/
def partitionsKnown : Bool :=
  (c.graph.find c.txnId).any fun dtxn =>
    c.partitionIds.elems.length = dtxn.partition.elems.length

def preAccept : Option Coordinator :=
  if c.createV.partitionsKnown then
    some ((c.createV.getAllCmds L).broadcast L .preAccept (L.touched c.txnId).elems)
  else none

/-- `ChooseGraph`. -/
def choose : Coordinator := { c with toBrqCoord := c.toBrqCoord.chooseGraph }

/-- `UpgradeStatus` to `TXN_CMT`. -/
def upgrade : Coordinator :=
  { c with graph := c.graph.modify c.txnId fun dtxn => dtxn.unionStatus txnCmt }

def accept : Option Coordinator :=
  if c.fastPath = false ∧ c.choose.partitionsKnown then
    some (c.choose.upgrade.broadcast L .accept c.partitionIds.elems)
  else none

def setCommitted : Coordinator := { c with committed := true }

def setAborted : Coordinator := { c with aborted := true }

/-- `Commit`; `next` is `GotoNextPhase`. -/
def commit (next : Coordinator → Option Coordinator) (c : Coordinator) : Option Coordinator :=
  if c.partitionsKnown then
    if c.fastCommit then next (c.upgrade.broadcast L .commit c.partitionIds.elems).setCommitted
    else some (c.upgrade.broadcast L .commit c.partitionIds.elems)
  else none

/-- `End`. -/
def endTxn : Option Coordinator :=
  if c.committed || c.aborted then some c else none

def reset : Coordinator :=
  { c with
    toBrqCoord := {}
    nFastAcceptOks := {}
    fastAcceptGraphCheckCaches := {}
    nAcceptOks := {}
    nCommitOks := {}
    fastCommit := false
    committed := false
    aborted := false }

/-- The next id, for an attempt of a transaction that no partition is known of. -/
def newAttempt (nRetry : ℕ) : Coordinator :=
  { c with txnId := c.nextTxnId, nextTxnId := c.nextTxnId + 1, partitionIds := ∅, nRetry := nRetry }

/-- `Restart`; `next` is `GotoNextPhase`. -/
def restart (next : Coordinator → Option Coordinator) (c : Coordinator) : Option Coordinator :=
  if c.aborted then
    if L.maxRetry < c.nRetry + 1 ∧ 0 ≤ L.maxRetry then (c.newAttempt (c.nRetry + 1)).endTxn
    else next (c.newAttempt (c.nRetry + 1)).reset
  else none

/-! ### The phases -/

def advance (n : ℕ) : Coordinator := { c with phase := c.phase + n }

/-- The phase a case of `GotoNextPhase` expects to have come to. -/
def expect (phase : BrqCoord.Phase) (k : Coordinator → Option Coordinator) (c : Coordinator) :
    Option Coordinator :=
  if BrqCoord.phaseOf c.phase = phase then k c else none

/-- `GotoNextPhase`, calling itself `fuel` times at most. -/
def gotoNextPhase (L : Layout) : ℕ → Coordinator → Option Coordinator
  | 0, _ => none
  | fuel + 1, c =>
    match BrqCoord.phaseOf c.phase with
    | .initEnd => (c.advance 1).expect .dispatch (gotoNextPhase L fuel)
    | .dispatch => (c.advance 2).expect .preAccept (preAccept L)
    | .preAccept =>
      if c.fastPath then (c.advance 2).expect .commit (commit L (gotoNextPhase L fuel))
      else (c.advance 1).expect .accept (accept L)
    | .accept => (c.advance 1).expect .commit (commit L (gotoNextPhase L fuel))
    | .commit => (c.advance 1).expect .initEnd fun c =>
        if c.committed ≠ c.aborted then
          if c.committed then c.endTxn else c.restart L (gotoNextPhase L fuel)
        else none
    | .prepare => none

/-- A commit that ends at once and is tried again goes through four phases. -/
def goto : Option Coordinator := gotoNextPhase L 4 c

def doOne : Option Coordinator := (c.newAttempt 0).reset.goto L

/-! ### Acknowledgements -/

/-- A reply to the pre-accept is filed and counted. -/
def filePreAccept (par : ℕ) (graph : Graph) : Coordinator :=
  { c with
    toBrqCoord := c.toBrqCoord.preAcceptAck (par, graph)
    nFastAcceptOks := bump c.nFastAcceptOks par }

def setFastPath : Coordinator := { c with fastPath := true }

/-- `PreAcceptAck`, after the reply is filed. -/
def preAcceptCounted : Option Coordinator :=
  (fastpathPossible L c.partitionIds.elems c).bind fun r =>
    if r.1 then
      (allFastQuorumsReached L c.partitionIds.elems r.2).bind fun q =>
        if q.1 then q.2.setFastPath.choose.goto L else some q.2
    else if r.2.preAcceptAllSlowQuorumsReached L then
      if r.2.fastPath then none else r.2.goto L
    else some r.2

def preAcceptAck (phase par : ℕ) (res : Res) (graph : Graph) : Option Coordinator :=
  if phase ≠ c.phase then some c
  else if res = .success then (c.filePreAccept par graph).preAcceptCounted L
  else none

def countAccept (par : ℕ) : Coordinator :=
  { c with nAcceptOks := bump c.nAcceptOks par }

def acceptAck (phase par : ℕ) (res : Res) : Option Coordinator :=
  if phase ≠ c.phase then some c
  else if res = .success then
    if (c.countAccept par).acceptQuorumReached L then (c.countAccept par).goto L
    else some (c.countAccept par)
  else none

def countCommit (par : ℕ) : Coordinator :=
  { c with nCommitOks := c.nCommitOks.set par ((c.nCommitOks.find par).getD 0 + 1) }

/-- `CommitAck`, after the result is noted. -/
def commitCounted (par : ℕ) : Option Coordinator :=
  if 1 < (c.nCommitOks.find par).getD 0 then some c
  else if c.nCommitOks.entries.any fun e => e.2 = 0 then some c
  else c.goto L

def commitAck (phase par : ℕ) (res : Res) : Option Coordinator :=
  if phase ≠ c.phase then some c
  else if c.fastCommit then some c
  else match res with
    | .success => (c.setCommitted.countCommit par).commitCounted L par
    | .reject => (c.setAborted.countCommit par).commitCounted L par
    | .other => none

def receive (r : Request) (graph : Graph) : Coordinator :=
  { c with ledger := c.ledger.answer r graph }

/-- What happens at a coordinator. The graph of a reply is read by `PreAcceptAck` only. -/
inductive Event where
  | doOne
  | ack (r : Request) (res : Res) (graph : Graph)

def step : Event → Option Coordinator
  | .doOne => c.doOne L
  | .ack r res graph =>
    match r.kind with
    | .preAccept => (c.receive r graph).preAcceptAck L r.phase r.par res graph
    | .accept => (c.receive r graph).acceptAck L r.phase r.par res
    | .commit => (c.receive r graph).commitAck L r.phase r.par res
    | _ => none

end Coordinator

end Fiss.Brq
