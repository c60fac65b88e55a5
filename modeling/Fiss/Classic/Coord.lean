import Fiss.Schemes.OrdMap
import Fiss.Schemes.OrdSet
import Fiss.Schemes.Rounds
import Fiss.Schemes.Runs

/-! The two-phase-commit coordinator: `Dispatch` sends the pieces that are ready until the whole
    transaction is out and answered, `Prepare` asks every partition for its vote, `Commit` sends the
    decision and the transaction ends or is tried again under a new id. An acknowledgement comes with
    the number of the phase it belongs to and is dropped in any other.

    A failed `verify` ends the process; of the checks the one of the two commit flags is told from
    the others. The number of the phase and the ids are unbounded here, and a request not yet answered
    is in the ledger. Forwarding a request to another site, the latencies and the statistics are
    left out; `n_prepare_req_`, `site_commit_` and `site_abort_` are read by nothing. -/

namespace Fiss.Classic

/-- What the coordinators need of a transaction, whose pieces put out values of type `O`. -/
structure TxnLogic (τ O : Type) where
  /-- `GetReadyCmds`: the pieces that are ready, by partition. -/
  getReadyCmds : τ → Option (List (ℕ × List ℕ) × τ)
  /-- `Merge` -/
  merge : ℕ → O → τ → Option τ
  hasMoreSubCmdReadyNotOut : τ → Option Bool
  reset : τ → τ
  /-- what `Reset` makes of `commit_`: most types of transaction set it, some leave it as it is -/
  resetCommit : Bool → Bool
  /-- `cmds_`: the pieces that were made, with their partitions -/
  cmds : τ → List (ℕ × ℕ)
  /-- the pieces sent in this attempt -/
  gone : τ → List ℕ
  gone_getReadyCmds : ∀ {x batches x'}, getReadyCmds x = some (batches, x') →
    gone x' = gone x ++ batches.flatMap Prod.snd ∧ ∀ b ∈ batches, b.2 ≠ []
  gone_merge : ∀ {i out x x'}, merge i out x = some x' → gone x' = gone x
  /-- a piece that was sent is not made ready again -/
  nodup_gone : ∀ x, (gone x).Nodup

/-- A transaction whose pieces are all sent at once, and that were or not. -/
def TxnLogic.oneShot (batches : List (ℕ × List ℕ)) (hne : ∀ b ∈ batches, b.2 ≠ [])
    (hnodup : (batches.flatMap Prod.snd).Nodup) : TxnLogic Bool Unit where
  getReadyCmds sent := if sent then none else some (batches, true)
  merge _ _ sent := some sent
  hasMoreSubCmdReadyNotOut sent := some !sent
  reset _ := false
  resetCommit _ := true
  cmds sent := if sent then batches.flatMap fun b => b.2.map (·, b.1) else []
  gone sent := if sent then batches.flatMap Prod.snd else []
  gone_getReadyCmds {sent _ _} h := by
    cases sent with
    | true => cases h
    | false =>
      cases h
      exact ⟨rfl, hne⟩
  gone_merge h := by
    cases h
    rfl
  nodup_gone sent := by
    cases sent with
    | true => exact hnodup
    | false => exact List.nodup_nil

/-- What all coordinators have. -/
structure Coordinator (τ : Type) where
  cmd : τ
  phase : ℕ := 0
  /-- the id of the attempt -/
  txnId : ℕ := 0
  nextTxnId : ℕ := 0
  nRetry : ℕ := 0
  /-- of the transaction -/
  partitionIds : OrdSet ℕ := ∅
  nDispatch : ℕ := 0
  nDispatchAck : ℕ := 0
  dispatchAcks : OrdMap ℕ Bool := .empty
  committed : Bool := false
  aborted : Bool := false

namespace Coordinator

variable {τ O : Type} (T : TxnLogic τ O) (c : Coordinator τ)

/-- `Dispatch`, with the pieces to send. -/
def dispatch : Option (List (ℕ × List ℕ) × Coordinator τ) :=
  (T.getReadyCmds c.cmd).map fun r => (r.1, { c with
    cmd := r.2
    partitionIds := (r.1.map Prod.fst).foldl OrdSet.insert c.partitionIds
    nDispatch := c.nDispatch + (r.1.flatMap Prod.snd).length
    dispatchAcks := (r.1.flatMap Prod.snd).foldl (fun m i => m.set i false) c.dispatchAcks })

def allDispatchAcked : Option Bool :=
  if c.dispatchAcks.entries.all Prod.snd then
    if c.nDispatchAck = c.nDispatch then some true else none
  else some false

/-- The loop of `DispatchAck` over the outputs; `waits` is its check of an entry of `dispatch_acks_`. -/
def mergeOutputs (T : TxnLogic τ O) (waits : Option Bool → Bool) :
    List (ℕ × O) → Coordinator τ → Option (Coordinator τ)
  | [], c => some c
  | o :: outputs, c =>
    if waits (c.dispatchAcks.find o.1) then
      (T.merge o.1 o.2 c.cmd).bind fun cmd =>
        mergeOutputs T waits outputs { c with cmd, dispatchAcks := c.dispatchAcks.set o.1 true }
    else none

theorem mergeOutputs_spec {T : TxnLogic τ O} {waits : Option Bool → Bool} :
    ∀ {outputs : List (ℕ × O)} {b b' : Coordinator τ}, b.mergeOutputs T waits outputs = some b' →
      b' = { b with cmd := b'.cmd, dispatchAcks := b'.dispatchAcks } ∧
        T.gone b'.cmd = T.gone b.cmd ∧
        ∀ i, i ∉ outputs.map Prod.fst → b'.dispatchAcks.find i = b.dispatchAcks.find i
  | [], b, b', h => by
    obtain rfl : b = b' := Option.some.inj h
    exact ⟨rfl, rfl, fun _ _ => rfl⟩
  | o :: outputs, b, b', h => by
    rw [mergeOutputs] at h
    split at h
    · obtain ⟨cmd, hcmd, h⟩ := Option.bind_eq_some_iff.mp h
      obtain ⟨heq, hgone, hfind⟩ := mergeOutputs_spec h
      refine ⟨heq, hgone.trans (T.gone_merge hcmd), fun i hi => ?_⟩
      rw [List.map_cons, List.mem_cons, not_or] at hi
      rw [hfind i hi.2]
      exact OrdMap.find_set_ne _ hi.1 true
    · cases h

def reset : Coordinator τ :=
  { c with
    nDispatch := 0, nDispatchAck := 0, dispatchAcks := .empty, committed := false, aborted := false }

/-- The next id. -/
def newId : Coordinator τ :=
  { c with txnId := c.nextTxnId, nextTxnId := c.nextTxnId + 1 }

/-- `do_one`, up to the first phase: a new transaction. -/
def take (cmd : τ) : Coordinator τ :=
  { c.newId with cmd, partitionIds := ∅, nRetry := 0 }.reset

/-- The transaction is reset with its coordinator. -/
def again : Coordinator τ :=
  { c with cmd := T.reset c.cmd, partitionIds := ∅ }.reset

/-- `Restart` gives up after `max_retry_` retries. -/
def givesUp (maxRetry : ℤ) : Bool := maxRetry < c.nRetry ∧ 0 ≤ maxRetry

end Coordinator

namespace ClassicCoord

inductive Phase where
  | initEnd
  | dispatch
  | prepare
  | commit
  deriving DecidableEq

/-- The phase that a phase number stands for. -/
def phaseOf (n : ℕ) : Phase :=
  match n % 4 with
  | 0 => .initEnd
  | 1 => .dispatch
  | 2 => .prepare
  | _ => .commit

/-- The order of the phases of an attempt; `INIT_END` is also where it has ended. -/
def rank : Phase → ℕ
  | .dispatch => 1
  | .prepare => 2
  | .commit => 3
  | .initEnd => 4

/-- What a server answers. -/
inductive Res where
  | success
  | reject
  deriving DecidableEq

/-- A request to a partition, with the phase number its acknowledgement is to come back with. -/
structure Request where
  kind : Phase
  txn : ℕ
  phase : ℕ
  par : ℕ
  /-- of a dispatch -/
  pieces : List ℕ := []
  deriving DecidableEq

def Request.stamp (r : Request) : Stamp := ⟨r.txn, rank r.kind, r.phase⟩

/-- The decision sent for an attempt, and all that was sent and answered before it. -/
structure Finish where
  commit : Bool
  txn : ℕ
  pars : OrdSet ℕ
  ledger : Ledger Request Res

/-- Which check ended the process. -/
inductive Verify where
  /-- `verify(commit_ == committed_)` -/
  | commitFlag
  /-- no check of the source: the phases called one another too often -/
  | depth
  | other
  deriving DecidableEq

end ClassicCoord

open ClassicCoord in
structure ClassicCoord (τ : Type) extends Coordinator τ where
  /-- `commit_` of the transaction -/
  commit : Bool := true
  /-- `reply_.res_` of the transaction -/
  reply : Res := .success
  sitePrepare : Dict ℕ ℕ := {}
  nPrepareAck : ℕ := 0
  nFinishReq : ℕ := 0
  nFinishAck : ℕ := 0
  ledger : Ledger Request Res := {}
  log : List Finish := []

namespace ClassicCoord

/-- The coordinator, unless a check of it fails. -/
abbrev Checked (τ : Type) := Except Verify (ClassicCoord τ)

variable {τ O : Type} (T : TxnLogic τ O) (maxRetry : ℤ) (c : ClassicCoord τ)

/-- A request of the current phase to each of the partitions. -/
def requests (kind : Phase) : List Request :=
  c.partitionIds.elems.map fun par => ⟨kind, c.txnId, c.phase, par, []⟩

/-- The requests of `Dispatch`. -/
def dispatches (batches : List (ℕ × List ℕ)) : List Request :=
  batches.map fun b => ⟨.dispatch, c.txnId, c.phase, b.1, b.2⟩

def dispatch : Checked τ :=
  match c.toCoordinator.dispatch T with
  | none => .error .other
  | some (batches, b) =>
    .ok { c with toCoordinator := b, ledger := c.ledger.send (c.dispatches batches) }

def prepare : Checked τ :=
  if c.partitionIds.elems.all fun par => (c.sitePrepare.find par).getD 0 = 0 then
    .ok { c with
      sitePrepare := c.partitionIds.elems.foldl (fun m par => m.set par 1) c.sitePrepare
      ledger := c.ledger.send (c.requests .prepare) }
  else .error .other

/-- `SendCommit` or `SendAbort` to every partition. -/
def finish (committed : Bool) : ClassicCoord τ :=
  { c with
    reply := if committed then .success else .reject
    nFinishReq := c.nFinishReq + c.partitionIds.elems.length
    ledger := c.ledger.send (c.requests .commit)
    log := c.log ++ [⟨committed, c.txnId, c.partitionIds, c.ledger⟩] }

/-- `Commit`; `next` is `GotoNextPhase`. -/
def commitTxn (next : ClassicCoord τ → Checked τ) (c : ClassicCoord τ) : Checked τ :=
  if c.commit = c.committed then
    if c.committed then next (c.finish true)
    else if c.aborted then next (c.finish false)
    else .error .other
  else .error .commitFlag

/-- `End`. -/
def endTxn : Checked τ :=
  if c.committed then .ok { c with reply := .success }
  else if c.aborted then .ok { c with reply := .reject }
  else .error .other

/-- `Reset`, of what `ClassicCoord` has of its own. -/
def clear (b : Coordinator τ) : ClassicCoord τ :=
  { c with
    toCoordinator := b
    sitePrepare := ⟨c.sitePrepare.entries.map fun e => (e.1, 0)⟩
    nPrepareAck := 0
    nFinishReq := 0
    nFinishAck := 0 }

/-- The next attempt has an id, and is counted. -/
def retry : ClassicCoord τ :=
  { c with toCoordinator := { c.toCoordinator.newId with nRetry := c.nRetry + 1 } }

/-- `Reset` and `txn->Reset`. -/
def again : ClassicCoord τ :=
  { c.clear (c.toCoordinator.again T) with commit := T.resetCommit c.commit }

/-- `Restart`; `next` is `GotoNextPhase`. -/
def restart (next : ClassicCoord τ → Checked τ) (c : ClassicCoord τ) : Checked τ :=
  if c.aborted then
    if c.retry.givesUp maxRetry then c.retry.endTxn else next (c.retry.again T)
  else .error .other

def advance (n : ℕ) : ClassicCoord τ :=
  { c with toCoordinator := { c.toCoordinator with phase := c.phase + n } }

/-- The phase a case of `GotoNextPhase` expects to have come to. -/
def expect (phase : Phase) (k : ClassicCoord τ → Checked τ) (c : ClassicCoord τ) : Checked τ :=
  if phaseOf c.phase = phase then k c else .error .other

/-- `GotoNextPhase`, calling itself `fuel` times at most. -/
def gotoNextPhase (T : TxnLogic τ O) (maxRetry : ℤ) : ℕ → ClassicCoord τ → Checked τ
  | 0, _ => .error .depth
  | fuel + 1, c =>
    match phaseOf c.phase with
    | .initEnd => (dispatch T (c.advance 1)).bind (expect .dispatch .ok)
    | .dispatch => (c.advance 1).expect .prepare fun c =>
        if c.committed then .error .other
        else if c.aborted then commitTxn (gotoNextPhase T maxRetry fuel) (c.advance 1)
        else prepare c
    | .prepare => (c.advance 1).expect .commit (commitTxn (gotoNextPhase T maxRetry fuel))
    | .commit => (c.advance 1).expect .initEnd fun c =>
        if c.committed then endTxn c
        else if c.aborted then restart T maxRetry (gotoNextPhase T maxRetry fuel) c
        else .error .other

/-- A decision that is followed by another attempt goes through three phases. -/
def goto : Checked τ :=
  gotoNextPhase T maxRetry 3 c

/-- `do_one`, with the transaction made of the request. -/
def doOne (cmd : τ) : Checked τ :=
  goto T maxRetry { c.clear (c.toCoordinator.take cmd) with commit := true }

/-! ### Acknowledgements -/

def reject : ClassicCoord τ :=
  { c with toCoordinator := { c.toCoordinator with aborted := true }, commit := false }

/-- A rejection is noted. -/
def note (res : Res) : ClassicCoord τ :=
  match res with
  | .success => c
  | .reject => c.reject

def countDispatch (n : ℕ) : ClassicCoord τ :=
  { c with toCoordinator := { c.toCoordinator with nDispatchAck := c.nDispatchAck + n } }

/-- `DispatchAck`, with the answers counted and none rejected. -/
def dispatchMerged (outputs : List (ℕ × O)) (c : ClassicCoord τ) : Checked τ :=
  match c.toCoordinator.mergeOutputs T (· = some false) outputs with
  | none => .error .other
  | some b =>
    match T.hasMoreSubCmdReadyNotOut b.cmd, b.allDispatchAcked with
    | some true, _ => dispatch T { c with toCoordinator := b }
    | some false, some true => goto T maxRetry { c with toCoordinator := b }
    | some false, some false => .ok { c with toCoordinator := b }
    | _, _ => .error .other

def dispatchAck (phase : ℕ) (res : Res) (outputs : List (ℕ × O)) : Checked τ :=
  if phase ≠ c.phase then .ok c
  else
    let c := (c.note res).countDispatch outputs.length
    if c.aborted then if c.nDispatchAck = c.nDispatch then goto T maxRetry c else .ok c
    else dispatchMerged T maxRetry outputs c

def countPrepare : ClassicCoord τ := { c with nPrepareAck := c.nPrepareAck + 1 }

def setCommitted : ClassicCoord τ :=
  { c with toCoordinator := { c.toCoordinator with committed := true }, commit := true }

def prepareAck (phase : ℕ) (res : Res) : Checked τ :=
  if phase ≠ c.phase then .ok c
  else
    let c := c.countPrepare.note res
    if c.nPrepareAck = c.partitionIds.elems.length then
      goto T maxRetry (if c.aborted then c else c.setCommitted)
    else .ok c

def commitAck (phase : ℕ) : Checked τ :=
  if phase ≠ c.phase then .ok c
  else if c.partitionIds.elems.length = c.nFinishReq then
    if c.nFinishAck + 1 = c.partitionIds.elems.length then
      match c.reply with
      | .reject => .ok { c with nFinishAck := c.nFinishAck + 1, aborted := true }
      | .success => .ok { c with nFinishAck := c.nFinishAck + 1, committed := true }
    else .ok { c with nFinishAck := c.nFinishAck + 1 }
  else .error .other

def receive (r : Request) (res : Res) : ClassicCoord τ :=
  { c with ledger := c.ledger.answer r res }

/-- What happens at a coordinator; the outputs are those of a dispatch. -/
inductive Event (τ O : Type) where
  | doOne (cmd : τ)
  | ack (r : Request) (res : Res) (outputs : List (ℕ × O))

def handle : Event τ O → Checked τ
  | .doOne cmd => c.doOne T maxRetry cmd
  | .ack r res outputs =>
    match r.kind with
    | .dispatch => (c.receive r res).dispatchAck T maxRetry r.phase res outputs
    | .prepare => (c.receive r res).prepareAck T maxRetry r.phase res
    | .commit => (c.receive r res).commitAck r.phase
    | .initEnd => .error .other

def step (e : Event τ O) : Option (ClassicCoord τ) :=
  (handle T maxRetry c e).toOption

end ClassicCoord

end Fiss.Classic
