import Fiss.Classic.Coord

/-! The coordinator of TAPIR. It dispatches like the one of two-phase commit, whatever the servers
    answer; when the whole transaction is out and answered it asks every replica of every partition
    to accept it. A partition has a fast quorum when all its replicas accept, so the first rejection
    decides for an abort. The decision is broadcast at once, without waiting for an answer, and the
    transaction ends or is tried again under a new id.

    An event for which a check fails gives no state. A phase of `GotoNextPhase` calls it again only
    for the phase after it, so each phase has its definition. The slow path (`Accept`, `AcceptAck`)
    is called by nothing; the latencies, the statistics and the reply to the client are left out. -/

namespace Fiss.Tapir

open Classic

/-- What a server answers. -/
inductive Res where
  | success
  | reject
  deriving DecidableEq

namespace TapirCoord

inductive Phase where
  | initEnd
  | dispatch
  | fastAccept
  | decide
  deriving DecidableEq

/-- The phase that a phase number stands for. -/
def phaseOf (n : ℕ) : Phase :=
  match n % 4 with
  | 0 => .initEnd
  | 1 => .dispatch
  | 2 => .fastAccept
  | _ => .decide

/-- Pieces sent to a partition; their acknowledgement comes back with the number of the phase. -/
structure DispatchReq where
  txn : ℕ
  phase : ℕ
  par : ℕ
  pieces : List ℕ
  deriving DecidableEq

/-- A fast accept sent to a replica. -/
structure Request where
  txn : ℕ
  phase : ℕ
  par : ℕ
  replica : ℕ
  deriving DecidableEq

/-- The decision broadcast for an attempt to its partitions, and the fast accepts sent and answered
    until then. -/
structure Decision where
  commit : Bool
  txn : ℕ
  pars : OrdSet ℕ
  ledger : Ledger Request Res

/-- The number of replicas of a partition, and the place of the coordinator's own among them. -/
structure Cluster where
  size : ℕ → ℕ
  locId : ℕ

end TapirCoord

open TapirCoord in
structure TapirCoord (τ : Type) extends Coordinator τ where
  nFastAcceptOks : OrdMap ℕ ℕ := .empty
  nFastAcceptRejects : OrdMap ℕ ℕ := .empty
  dispatched : List DispatchReq := []
  ledger : Ledger Request Res := {}
  log : List Decision := []

namespace TapirCoord

variable {τ O : Type} (T : TxnLogic τ O) (N : Cluster) (maxRetry : ℤ) (c : TapirCoord τ)

/-- `Dispatch`; each partition has a replica where the coordinator is. -/
def dispatch : Option (TapirCoord τ) :=
  (c.toCoordinator.dispatch T).bind fun r =>
    if r.1.all fun b => N.locId < N.size b.1 then
      some { c with
        toCoordinator := r.2
        dispatched := c.dispatched ++ r.1.map fun b => ⟨c.txnId, c.phase, b.1, b.2⟩ }
    else none

/-- `GetCmdsByPartition`: how many pieces a partition has. -/
def cmdsByPartition (par : ℕ) : ℕ :=
  ((T.cmds c.cmd).filter fun e => e.2 = par).length

/-- The fast accepts of this phase. -/
def requests : List Request :=
  c.partitionIds.elems.flatMap fun par =>
    (List.range (N.size par)).map fun replica => ⟨c.txnId, c.phase, par, replica⟩

def fastAccept : Option (TapirCoord τ) :=
  let pars := c.partitionIds.elems
  if 0 < pars.length ∧
      (∀ par ∈ pars, 0 < c.cmdsByPartition T par ∧ c.cmdsByPartition T par < 10000) ∧
      (pars.map (c.cmdsByPartition T)).sum = (T.cmds c.cmd).length then
    some { c with
      nFastAcceptOks := pars.foldl (fun m par => m.set par 0) c.nFastAcceptOks
      nFastAcceptRejects := pars.foldl (fun m par => m.set par 0) c.nFastAcceptRejects
      ledger := c.ledger.send (c.requests N) }
  else none

/-- `Decide`; `next` is `GotoNextPhase`. -/
def decide (next : TapirCoord τ → Option (TapirCoord τ)) (c : TapirCoord τ) :
    Option (TapirCoord τ) :=
  if c.committed ≠ c.aborted then
    next { c with log := c.log ++ [⟨c.committed, c.txnId, c.partitionIds, c.ledger⟩] }
  else none

/-- `End`. -/
def endTxn : Option (TapirCoord τ) :=
  if c.committed ∨ c.aborted then some c else none

/-- `Reset`, with what `TapirCoord` has of its own. -/
def clear (b : Coordinator τ) : TapirCoord τ :=
  { c with toCoordinator := b, nFastAcceptOks := .empty, nFastAcceptRejects := .empty }

def newId : TapirCoord τ := { c with toCoordinator := c.toCoordinator.newId }

/-- `ClassicCoord::Restart` counts the attempt and takes another id. -/
def retry : TapirCoord τ :=
  { c with toCoordinator := { c.toCoordinator.newId with nRetry := c.nRetry + 1 } }

/-- `Restart` takes an id before `ClassicCoord::Restart` does; `next` is `GotoNextPhase`. -/
def restart (next : TapirCoord τ → Option (TapirCoord τ)) (c : TapirCoord τ) : Option
    (TapirCoord τ) :=
  if c.newId.aborted then
    let c := c.newId.retry
    if c.givesUp maxRetry then c.endTxn else next (c.clear (c.toCoordinator.again T))
  else none

def advance : TapirCoord τ :=
  { c with toCoordinator := { c.toCoordinator with phase := c.phase + 1 } }

/-- The phase a case of `GotoNextPhase` expects to have come to. -/
def expect (phase : Phase) (k : TapirCoord τ → Option (TapirCoord τ)) (c : TapirCoord τ) :
    Option (TapirCoord τ) :=
  if phaseOf c.phase = phase then k c else none

/-- `GotoNextPhase` out of `INIT_END`. -/
def fromInitEnd : Option (TapirCoord τ) :=
  (c.advance.dispatch T N).bind (expect .dispatch some)

/-- `GotoNextPhase` out of `DECIDE`. -/
def fromDecide : Option (TapirCoord τ) :=
  c.advance.expect .initEnd fun c =>
    if c.committed then c.endTxn
    else if c.aborted then c.restart T maxRetry (fromInitEnd T N)
    else none

def gotoNextPhase : Option (TapirCoord τ) :=
  match phaseOf c.phase with
  | .initEnd => c.fromInitEnd T N
  | .dispatch => c.advance.expect .fastAccept (fastAccept T N)
  | .fastAccept => c.advance.expect .decide (decide (fromDecide T N maxRetry))
  | .decide => c.fromDecide T N maxRetry

/-- `do_one`, with the transaction made of the request. -/
def doOne (cmd : τ) : Option (TapirCoord τ) :=
  gotoNextPhase T N maxRetry (c.clear (c.toCoordinator.take cmd))

/-! ### Acknowledgements -/

def countDispatch (n : ℕ) : TapirCoord τ :=
  { c with toCoordinator := { c.toCoordinator with nDispatchAck := c.nDispatchAck + n } }

/-- `DispatchAck`, which does not look at the result; an acknowledgement it looks up is there. -/
def dispatchAck (phase : ℕ) (outputs : List (ℕ × O)) : Option (TapirCoord τ) :=
  if phase ≠ c.phase then some c
  else
    let c := c.countDispatch outputs.length
    (c.toCoordinator.mergeOutputs T (fun acked => acked.getD false = false) outputs).bind fun b =>
      (T.hasMoreSubCmdReadyNotOut b.cmd).bind fun more =>
        if more then dispatch T N { c with toCoordinator := b }
        else b.allDispatchAcked.bind fun acked =>
          if acked then gotoNextPhase T N maxRetry { c with toCoordinator := b }
          else some { c with toCoordinator := b }

def getFastQuorum (par : ℕ) : ℕ := N.size par

def fastQuorumPossible : Bool :=
  c.partitionIds.elems.all fun par =>
    (c.nFastAcceptRejects.find par).getD 0 ≤ N.size par - getFastQuorum N par

def allFastQuorumReached : Bool :=
  c.partitionIds.elems.all fun par => getFastQuorum N par ≤ (c.nFastAcceptOks.find par).getD 0

/-- An answer is counted for its partition. -/
def count (par : ℕ) (res : Res) : TapirCoord τ :=
  match res with
  | .success => { c with
      nFastAcceptOks := c.nFastAcceptOks.set par ((c.nFastAcceptOks.find par).getD 0 + 1) }
  | .reject => { c with
      nFastAcceptRejects :=
        c.nFastAcceptRejects.set par ((c.nFastAcceptRejects.find par).getD 0 + 1) }

/-- `committed_` or `aborted_`. -/
def settle (committed : Bool) : TapirCoord τ :=
  if committed then { c with toCoordinator := { c.toCoordinator with committed := true } }
  else { c with toCoordinator := { c.toCoordinator with aborted := true } }

def fastAcceptAck (phase par : ℕ) (res : Res) : Option (TapirCoord τ) :=
  if c.phase > phase then some c
  else
    let c := c.count par res
    if c.fastQuorumPossible N then
      if c.allFastQuorumReached N then gotoNextPhase T N maxRetry (c.settle true) else some c
    else gotoNextPhase T N maxRetry (c.settle false)

def receive (r : Request) (res : Res) : TapirCoord τ :=
  { c with ledger := c.ledger.answer r res }

/-- What happens at a coordinator. -/
inductive Event (τ O : Type) where
  | doOne (cmd : τ)
  | dispatchAck (r : DispatchReq) (outputs : List (ℕ × O))
  | fastAcceptAck (r : Request) (res : Res)

def step : Event τ O → Option (TapirCoord τ)
  | .doOne cmd => c.doOne T N maxRetry cmd
  | .dispatchAck r outputs => c.dispatchAck T N maxRetry r.phase outputs
  | .fastAcceptAck r res => (c.receive r res).fastAcceptAck T N maxRetry r.phase r.par res

end TapirCoord

end Fiss.Tapir
