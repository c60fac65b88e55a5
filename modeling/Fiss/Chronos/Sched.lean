import Fiss.Chronos.Tx

/-! The scheduler of a site: transactions wait in `ready_txns_` by their timestamps, and
    `CheckExecutableTxns` walks over them in that order and runs their callbacks.

    A handler is cut where it calls `HandlePiggyInfo`, `CheckExecutableTxns` or `GenerateChrTs`: what
    it does itself is one event, and each of these calls is one (`Event`). `handle` puts the handlers
    together again, and `handle_run` says that a handler is a run of its events.

    A record is named by its transaction, as none is ever destroyed. The notifications a site sends
    along with its messages, the lists they are made from and the field `handler_site_`, which is only
    written, are left out. -/

namespace Fiss.Chronos
open Fiss.Rcc Option TxChronos

/-- The pieces of a transaction, by partition. -/
abbrev Cmds := OrdMap ℕ (List SimpleCommand)

structure ChrTxnInfo where
  txnId : ℕ
  ts : ChrTs
  regionLeader : ℕ
  deriving DecidableEq

/-! ### What a client asks for -/

/-- All partitions of a transaction over several regions. -/
def allPars (cmdsByRegion : OrdMap ℕ Cmds) : List ℕ :=
  cmdsByRegion.entries.flatMap fun r => r.2.keys

/-- The piece that may wait for a remote input does. -/
def tpccWaitInput (cmdsByRegion : OrdMap ℕ Cmds) : Bool :=
  cmdsByRegion.entries.any fun r => r.2.entries.any fun p =>
    p.2.any fun c => c.innId = 204 && !c.input.pieceInputReady

/-- `par_input_ready`: only the coordinator's partition is ever said to wait. -/
def parInputReady (site : Site) (cmdsByRegion : OrdMap ℕ Cmds) : OrdMap ℕ ℤ :=
  let ready := (allPars cmdsByRegion).foldl (fun m par => m.set par 1) {}
  if tpccWaitInput cmdsByRegion then ready.set site.parId 0 else ready

/-- The pieces for the coordinator's own partition; the region is computed as the source has it. -/
def ownPieces (site : Site) (cmdsByRegion : OrdMap ℕ Cmds) : List SimpleCommand :=
  ((cmdsByRegion.find (site.parId / (site.nReplicas * site.nShardPerRegion))).bind fun cmds =>
    cmds.find site.parId).getD []

/-- `DastPrepareCRTReq`. -/
structure PrepareCRTReq where
  anticipatedTs : ChrTs
  coordSite : ℕ
  shardLeader : ℕ
  inputReady : ℤ := 1
  deriving DecidableEq

/-! ### What the handlers do to a record -/

namespace TxChronos

variable (site : Site) (d : TxChronos)

/-- The pieces are there, none of them executed, with the callback that executes them. What is
    received has not been executed: the mark of it is not part of a message. -/
def deliver (cmds : List SimpleCommand) (callback : Callback) : TxChronos :=
  { d with
    pieces := cmds.map SimpleCommand.clear
    nLocalPieces := some cmds.length
    nExecutedPieces := 0
    distOutput := {}
    callback := callback }

/-- The record of `HandleIRT`. -/
def irt (pars : List ℕ) (cmds : List SimpleCommand) (ts : ChrTs) : TxChronos :=
  { ({ isIrt := true } : TxChronos).deliver cmds .handleIRT with
    chrPhase := .localNotStored
    ts := ts
    regionHandler := site.siteId
    distPartitionAcks := ⟨pars.map fun par => (par, ∅)⟩ }

/-- The record of `OnPrepareIRT`. -/
def prepareIRT (cmds : List SimpleCommand) (ts : ChrTs) : TxChronos :=
  { d.deliver cmds .prepareIRT with
    ts := ts
    -- `sites_for_same_par`
    regionHandler := if site.siteId / site.nReplicas = ts.siteId / site.nReplicas then ts.siteId
      else site.siteId
    chrPhase := .localCanExe
    isIrt := true }

/-- The record of `HandlePiggyInfo`. -/
def notified (info : ChrTxnInfo) : TxChronos :=
  { ts := info.ts
    regionHandler := info.regionLeader
    chrPhase := .localCanExe
    isIrt := site.unsetIrt info.txnId }

def acks (par : ℕ) : OrdSet ℕ := (d.distPartitionAcks.find par).getD ∅

def addAck (par site : ℕ) : TxChronos :=
  { d with distPartitionAcks := d.distPartitionAcks.set par ((d.acks par).insert site) }

/-- Every partition has acknowledged often enough. -/
def allParMajorityAcks : Bool :=
  d.distPartitionAcks.entries.all fun e => (site.nReplicas - 1) / 2 ≤ e.2.elems.length

def settle : TxChronos :=
  if d.allParMajorityAcks site then { d with chrPhase := .localCanExe } else d

/-- The record of `OnSubmitCRT`. -/
def submitCRT (cmdsByRegion : OrdMap ℕ Cmds) : TxChronos :=
  { d.deliver (ownPieces site cmdsByRegion) .submitCRT with
    regionHandler := site.siteId
    isIrt := false
    inputReady := if tpccWaitInput cmdsByRegion then 0 else d.inputReady
    distPartitionStatus := (allPars cmdsByRegion).foldl (fun m par => m.set par .remoteSent)
      d.distPartitionStatus
    distPartitionAcks := (allPars cmdsByRegion).foldl (fun m par => m.set par ∅)
      d.distPartitionAcks
    distShardMgrAcked := (allPars cmdsByRegion).foldl (fun m par => m.set par false)
      d.distShardMgrAcked
    chrPhase := .distRemoteSent
    sendOutputClient := true }

def anticipate (region : ℕ) (ts : ChrTs) : TxChronos :=
  { d with anticipatedTs := d.anticipatedTs.set region ts }

def mgrAck (par : ℕ) (isManager : Bool) : TxChronos :=
  if isManager then { d with distShardMgrAcked := d.distShardMgrAcked.set par true } else d

def setStatus (par : ℕ) (status : DistPartStatus) : TxChronos :=
  { d with distPartitionStatus := d.distPartitionStatus.set par status }

/-- `dist_partition_status_[par]` makes an entry where there is none. -/
def touchStatus (par : ℕ) : TxChronos :=
  if (d.distPartitionStatus.find par).isSome then d else d.setStatus par .notReceived

def partPrepared (par : ℕ) : Bool :=
  d.distPartitionStatus.find par = some .remoteSent &&
    (site.nReplicas + 1) / 2 ≤ (d.acks par).elems.length &&
    (d.distShardMgrAcked.find par).getD false

def remotePrepared : Bool :=
  d.distPartitionStatus.entries.all fun e => DistPartStatus.remotePrepared.rank ≤ e.2.rank

/-- The timestamp `CheckRemotePrepared` decides on. -/
def maxAnticipatedTs : ChrTs :=
  d.anticipatedTs.entries.foldl (fun m e => if m < e.2 then e.2 else m) {}

def touchedRegions : OrdSet ℕ :=
  d.distPartitionStatus.keys.foldl (fun s par => s.insert (par / site.nShardPerRegion)) ∅

/-- The record at its decided timestamp. -/
def decide (ts : ChrTs) : TxChronos := { d with ts := ts, chrPhase := .distCanExe }

/-- The timestamp of a transaction holds the site back no longer; the decided one does while it waits
    for input. -/
def rehold (ts : ChrTs) (c : Clock) : Clock :=
  if d.allPiecesInputReady then c.release d.ts else (c.release d.ts).hold ts

def setTs (ts : ChrTs) : TxChronos := { d with ts := ts }

def setInputReady (n : ℤ) : TxChronos := { d with inputReady := n }

/-- The record of `OnPrepareCRT`. -/
def prepareCRT (cmds : List SimpleCommand) (req : PrepareCRTReq) : TxChronos :=
  { d.deliver cmds .prepareCRT with
    ts := req.anticipatedTs
    regionHandler := req.shardLeader
    inputReady := req.inputReady
    isIrt := false }

def answer (leads : Bool) : TxChronos :=
  if leads then { d with sendOutputToHandler := true } else d

/-- The record of `OnSendOutput`. -/
def merge (values : Dict ℕ Value) : TxChronos :=
  { d with inputReady := 2, pieces := (mergeCheckReadyPieces values d.pieces).1 }

def addOutput (output : TxnOutput) : TxChronos :=
  { d with distOutput := output.entries.foldl (fun m e => m.set e.1 e.2) d.distOutput }

end TxChronos

/-! ### The scheduler -/

/-- What a site sends. -/
inductive Msg where
  | prepareIRT (site txn : ℕ) (cmds : List SimpleCommand) (ts : ChrTs)
  | prepareRemote (region txn : ℕ) (cmds : Cmds) (parInputReady : OrdMap ℕ ℤ) (srcTs : ChrTs)
  | remotePrepared (coord txn shardManager : ℕ) (anticipatedTs : ChrTs)
  | distExe (par txn : ℕ) (decisionTs : ChrTs)
  | distExeReply (txn : ℕ) (isRegionLeader : Bool) (output : TxnOutput)
  | notiWait (region txn : ℕ) (originalTs : ChrTs) (wait : Option (ChrTs × List ℕ))
  | sendOutput (par txn : ℕ) (values : Dict ℕ Value)
  | client (txn : ℕ) (output : TxnOutput)
  deriving DecidableEq

/-- One run of a callback, for the record: the place in `ready_txns_`, what the site knew before it,
    the record after it, and whether the transaction was then removed. -/
structure Ran where
  key : ChrTs
  txn : ℕ
  dtxns : Dict ℕ TxChronos
  maxTs : OrdMap ℕ ChrTs
  after : Option TxChronos
  removed : Bool
  deriving DecidableEq

structure Sched where
  clock : Clock
  dtxns : Dict ℕ TxChronos := {}
  readyTxns : OrdMap ChrTs ℕ := {}
  irSiteMaxTs : OrdMap ℕ ChrTs := {}
  irSiteWaitTs : OrdMap ChrTs (OrdSet ℕ) := {}
  distributedTxnsByMe : OrdSet ℕ := ∅
  newInput : Bool := false
  rows : List Row := []
  sent : List Msg := []
  ran : List Ran := []

/-- The scheduler as it is constructed: nothing heard of any other site of the region. The offset is
    not initialised. -/
def newSched (site : Site) (offset : ℤ) : Sched :=
  { clock := { siteId := site.siteId, clockOffset := offset }
    irSiteMaxTs := site.others.foldl (fun m s => m.set s {}) {} }

namespace Sched

variable (site : Site) (id : ℕ) (d : TxChronos) (s : Sched)

def put : Sched := { s with dtxns := s.dtxns.set id d }

def setReady (ts : ChrTs) (id : ℕ) : Sched :=
  { s with readyTxns := s.readyTxns.set ts id }

def eraseReady (ts : ChrTs) : Sched := { s with readyTxns := s.readyTxns.erase ts }

def setClock (c : Clock) : Sched := { s with clock := c }

def hold (ts : ChrTs) : Sched := s.setClock (s.clock.hold ts)

def release (ts : ChrTs) : Sched := s.setClock (s.clock.release ts)

def setWait (w : OrdMap ChrTs (OrdSet ℕ)) : Sched := { s with irSiteWaitTs := w }

def setMaxTs (m : OrdMap ℕ ChrTs) : Sched := { s with irSiteMaxTs := m }

def setByMe (ids : OrdSet ℕ) : Sched := { s with distributedTxnsByMe := ids }

def setNewInput (b : Bool) (s : Sched) : Sched := { s with newInput := b }

def setRows (rows : List Row) : Sched := { s with rows := rows }

def send (ms : List Msg) : Sched := { s with sent := s.sent ++ ms }

def log (r : Ran) : Sched := { s with ran := s.ran ++ [r] }

/-- The record of a transaction, as `GetOrCreateDTxn` gives it. -/
def record : TxChronos :=
  (s.dtxns.find id).getD { isIrt := site.unsetIrt id }

/-- `GenerateChrTs(true)`. -/
def tick (now : ℤ) (s : Sched) : Sched := s.setClock (s.clock.generate now).2

/-! ### Executing -/

def checkSendOutputToClient : Option Sched :=
  if d.chrPhase = .outputSent then some (s.put id d)
  else if d.distPartitionStatus.entries.all fun e => DistPartStatus.outputReceived.rank ≤ e.2.rank then
    -- the default `send_output_client` ends in `verify(0)`
    if d.sendOutputClient then
      some ((s.send [.client id d.distOutput]).put id { d with chrPhase := .outputSent })
    else none
  else some (s.put id d)

/-- What a callback does once all pieces are executed. -/
def finish : Option Sched :=
  match d.callback with
  | .handleIRT => some (s.send [.client id d.distOutput])
  | .prepareCRT => some (if d.sendOutputToHandler then s.send [.distExeReply id true d.distOutput]
      else s)
  | .submitCRT =>
    if id ∈ s.distributedTxnsByMe then
      ((s.setByMe (s.distributedTxnsByMe.erase id)).release d.ts).checkSendOutputToClient id
        { d with distPartitionStatus := d.distPartitionStatus.set site.parId .outputReceived }
    else none
  | _ => some s

/-- The end of a callback: whether the transaction has finished. -/
def conclude (pending : OrdSet ℕ) : Option (Bool × OrdSet ℕ × Sched) :=
  if d.nLocalPieces = some d.nExecutedPieces then
    (s.finish site id d).map fun s => (true, pending, s)
  else some (false, pending, s)

/-- The outputs collected for the other partitions. -/
def outputMsgs (ret : Dict ℕ (Dict ℕ Value)) : List Msg :=
  (ret.entries.filter fun e => e.1 ≠ site.parId).map fun e => .sendOutput e.1 id e.2

/-- `execute_callback_` of the record `d`. -/
def execute (pending : OrdSet ℕ) : Option (Bool × OrdSet ℕ × Sched) :=
  if d.callback = .unset then some (false, pending, s)
  else if d.callback = .submitCRT ∧ d.pieces = [] then s.conclude site id d pending
  else (d.recursiveExecuteReadyPieces site pending s.rows).bind fun st =>
    (((s.put id st.dtxn).setRows st.rows).send (outputMsgs site id st.ret)).conclude site id st.dtxn
      (st.dtxn.addPending pending)

/-- The loop state of `CheckExecutableTxns`. -/
structure Loop where
  sched : Sched
  pending : OrdSet ℕ := ∅
  foundPending : ℕ := 0

/-- The callback, and the record of its run. -/
def Loop.call (k : ChrTs) (id : ℕ) (d : TxChronos) (l : Loop) : Option (Bool × Loop) :=
  (l.sched.execute site id d l.pending).map fun r =>
    (r.1, ⟨r.2.2.log ⟨k, id, l.sched.dtxns, l.sched.irSiteMaxTs, r.2.2.dtxns.find id,
      r.1 || d.regionHandler ≠ site.siteId⟩, r.2.1, l.foundPending⟩)

/-- The loop body for a transaction that is not passed over. -/
def Loop.visit (k : ChrTs) (id : ℕ) (d : TxChronos) (l : Loop) : Option Loop :=
  if d.regionHandler = site.siteId then
    if d.exeTried = false ∨ l.sched.newInput = true then
      (l.call site k id d).map fun r =>
        if r.1 then { r.2 with sched := (r.2.sched.eraseReady k).setNewInput true }
        else { r.2 with foundPending := r.2.foundPending + 1 }
    else some { l with foundPending := l.foundPending + 1 }
  else (l.call site k id d).map fun r => { r.2 with sched := r.2.sched.eraseReady k }

/-- The loop stops at a transaction not below what some site has told, or not yet executable. -/
def stops : Bool :=
  (s.irSiteMaxTs.entries.any fun e => !decide (d.commitTs < e.2)) || d.chrPhase.rank < phaseCanExe

def maxPendingTxns : ℕ := 5

/-- The loop over the ready transactions. -/
def Loop.walk (site : Site) : List (ChrTs × ℕ) → Loop → Option Sched
  | [], l => some l.sched
  | (k, id) :: rest, l =>
    match l.sched.dtxns.find id with
    | none => none
    | some d =>
      if l.sched.stops d then some l.sched
      else (l.visit site k id d).bind fun l =>
        if maxPendingTxns < l.foundPending then some l.sched else Loop.walk site rest l

/-- `CheckExecutableTxns`. -/
def check : Option Sched :=
  (Loop.walk site s.readyTxns.entries { sched := s }).map (setNewInput false)

/-! ### Transactions of the region -/

/-- `GenerateChrTs(true)` until the timestamp is not one of a ready transaction. -/
def generateFree : List ℤ → Sched → Option (ChrTs × Sched)
  | [], _ => none
  | now :: nows, s =>
    match s.readyTxns.find (s.clock.generate now).1 with
    | none => some ((s.clock.generate now).1, s.tick now)
    | some id =>
      if ((s.dtxns.find id).map chrPhase) = some .distCanExe then
        generateFree nows (s.tick now)
      else none

/-- Everyone who is to store a transaction of the region, this site apart. -/
def prepareMsgs (cmdsByPar : Cmds) (ts : ChrTs) : List Msg :=
  cmdsByPar.entries.flatMap fun e =>
    ((site.sitesOf e.1).filter fun x => x ≠ site.siteId).map fun x => .prepareIRT x id e.2 ts

def handleIRT (cmdsByPar : Cmds) (nows : List ℤ) : Option Sched :=
  -- `verify(!cmds_by_par.begin()->second.empty())`
  if cmdsByPar.entries.head?.map (fun e => e.2.isEmpty) = some false ∧ s.dtxns.find id = none then
    (cmdsByPar.find site.parId).bind fun cmds => (s.generateFree nows).map fun r =>
      ((r.2.put id (irt site cmdsByPar.keys cmds r.1)).setReady r.1 id).send
        (prepareMsgs site id cmdsByPar r.1)
  else none

/-- `OnPrepareIRT`, up to `HandlePiggyInfo`. -/
def prepareIRT (cmds : List SimpleCommand) (ts : ChrTs) : Option Sched :=
  if cmds ≠ [] ∧ (s.readyTxns.find ts).getD id = id then
    some ((s.put id ((s.record site id).prepareIRT site cmds ts)).setReady ts id)
  else none

/-- The loop body of `HandlePiggyInfo`: an unknown transaction gets a record without pieces. -/
def notify (info : ChrTxnInfo) : Sched :=
  if s.dtxns.find info.txnId = none then
    (s.put info.txnId (notified site info)).setReady info.ts info.txnId
  else s

/-- A site waited for at a timestamp has passed it; with the last one the timestamp is released. -/
def unblock (remoteSite : ℕ) (s : Sched) (e : ChrTs × OrdSet ℕ) : Sched :=
  if (e.2.erase remoteSite).elems = [] then (s.release e.1).setWait (s.irSiteWaitTs.erase e.1)
  else s.setWait (s.irSiteWaitTs.set e.1 (e.2.erase remoteSite))

/-- What a site has told last; `ir_site_max_ts[s]` makes an entry where there is none. -/
def maxTs (x : ℕ) : ChrTs := (s.irSiteMaxTs.find x).getD {}

/-- The second half of `HandlePiggyInfo`. -/
def hear (remoteSite : ℕ) (remoteTs : ChrTs) (now : ℤ) : Sched :=
  if s.maxTs remoteSite < remoteTs then
    (s.irSiteWaitTs.entries.takeWhile fun e => !decide (remoteTs < e.1)).foldl (unblock remoteSite)
      ((s.setClock (s.clock.catchUp remoteTs now)).setMaxTs (s.irSiteMaxTs.set remoteSite remoteTs))
  else s.setMaxTs (s.irSiteMaxTs.set remoteSite (s.maxTs remoteSite))

/-- `HandlePiggyInfo`. -/
def piggy (remoteSite : ℕ) (remoteTs : ChrTs) (notiTxns : List ChrTxnInfo) (now : ℤ) : Sched :=
  (notiTxns.foldl (notify site) s).hear remoteSite remoteTs now

/-- `PrepareIRTACK`, from `HandlePiggyInfo` to `CheckExecutableTxns`. -/
def irtAck (par target : ℕ) : Option Sched :=
  (s.dtxns.find id).map fun d =>
    if d.chrPhase = .localCanExe then s else s.put id ((d.addAck par target).settle site)

/-! ### Transactions over several regions -/

/-- `OnSubmitCRT`. -/
def submitCRT (cmdsByRegion : OrdMap ℕ Cmds) (now : ℤ) : Option Sched :=
  -- the first partition of the first region has a piece
  if (cmdsByRegion.entries.head?.bind fun r => r.2.entries.head?).map (fun e => e.2.isEmpty) =
      some false ∧ id ∉ s.distributedTxnsByMe then
    some ((((s.setByMe (s.distributedTxnsByMe.insert id)).put id
      ((s.record site id).submitCRT site cmdsByRegion)).tick now).send
        (cmdsByRegion.entries.map fun r => .prepareRemote r.1 id r.2
          (parInputReady site cmdsByRegion) (s.clock.generate now).1))
  else none

/-- What the decision makes a site send. -/
def decisionMsgs (ts : ChrTs) : List Msg :=
  d.distPartitionStatus.keys.map (fun par => .distExe par id ts) ++
    (d.touchedRegions site).elems.map fun r =>
      .notiWait r id ((d.anticipatedTs.find r).getD {})
        (if d.allPiecesInputReady = false ∧ r = site.myRid then some (ts, site.sitesOf site.parId)
          else none)

/-- `CheckRemotePrepared`, up to `CheckExecutableTxns`. -/
def checkRemotePrepared (now : ℤ) : Option Sched :=
  if d.remotePrepared then
    if s.readyTxns.find d.maxAnticipatedTs = none ∧ d.chrPhase = .distRemoteSent then
      some ((((s.setClock ((d.rehold d.maxAnticipatedTs s.clock).generate now).2).setReady
        d.maxAnticipatedTs id).put id (d.decide d.maxAnticipatedTs)).send
          (decisionMsgs site id d d.maxAnticipatedTs))
    else none
  else some (s.put id d)

/-- A partition with a majority of its acknowledgements, its shard manager's among them, is
    prepared. -/
def advance (par : ℕ) (d : TxChronos) (now : ℤ) : Option Sched :=
  if d.partPrepared site par then s.checkRemotePrepared site id (d.setStatus par .remotePrepared) now
  else some (s.put id (d.touchStatus par))

/-- `OnRemotePrepared`, up to `CheckExecutableTxns`. -/
def remotePrepared (par target shardManager : ℕ) (anticipatedTs : ChrTs) (now : ℤ) : Option Sched :=
  if ((s.record site id).distPartitionAcks.find par).isSome then
    s.advance site id par (((s.record site id).addAck par target).anticipate
      (par / site.nShardPerRegion) anticipatedTs |>.mgrAck par (shardManager = target)) now
  else none

/-- `OnPrepareCRT`, up to `CheckExecutableTxns`. -/
def prepareCRT (cmds : List SimpleCommand) (req : PrepareCRTReq) (now : ℤ) : Option Sched :=
  if cmds = [] ∨ req.anticipatedTs ∈ s.clock.distTxnTss ∨
      (s.readyTxns.find req.anticipatedTs).isSome then none
  else match s.dtxns.find id with
    | some d =>
      if d.chrPhase = .distRemoteSent then
        (s.hold req.anticipatedTs).advance site id site.parId
          ((((d.mgrAck site.parId true).addAck site.parId site.siteId).anticipate
            (site.parId / site.nShardPerRegion) req.anticipatedTs).setTs req.anticipatedTs) now
      else some (s.put id (if d.inputReady = 1 then d.setInputReady req.inputReady else d))
    | none => some ((((s.hold req.anticipatedTs).put id
        ((s.record site id).prepareCRT cmds req)).setReady req.anticipatedTs id).send
          [.remotePrepared req.coordSite id req.shardLeader req.anticipatedTs])

/-- `OnDistExe`, up to `CheckExecutableTxns`. -/
def distExe (decisionTs : ChrTs) : Option Sched :=
  match s.dtxns.find id with
  | none => some (s.put id (s.record site id))
  | some d =>
    if (s.readyTxns.erase d.ts).find decisionTs = none then
      some (((((s.setClock (d.rehold decisionTs s.clock)).eraseReady d.ts).setReady decisionTs id).put id
        ((d.decide decisionTs).answer (d.regionHandler = site.siteId))).send
          -- the region handler answers with its output, the others at once
          (if d.regionHandler = site.siteId then [] else [.distExeReply id false {}]))
    else none

/-- `OnSendOutput`, up to `CheckExecutableTxns`. -/
def sendOutput (values : Dict ℕ Value) : Sched :=
  match s.dtxns.find id with
  | none => s
  | some d =>
    -- `input_ready_` is 2 here, so the timestamp is released in any phase
    (((s.setClock (if d.isIrt then s.clock else s.clock.release d.ts)).send
      (if d.isIrt then [] else [.notiWait site.myRid id d.ts none])).setNewInput true).put id
        (d.merge values)

def distExeAck (par : ℕ) (isRegionLeader : Bool) (output : TxnOutput) : Option Sched :=
  if isRegionLeader = false then some s
  else if output.entries.all fun e => (s.record site id).distOutput.find e.1 = none then
    s.checkSendOutputToClient id (((s.record site id).addOutput output).setStatus par .outputReceived)
  else none

/-- The sites waited for at a timestamp. -/
def await (ts : ChrTs) (touched : List ℕ) : Sched :=
  (s.hold ts).setWait (s.irSiteWaitTs.set ts
    (touched.foldl OrdSet.insert ((s.irSiteWaitTs.find ts).getD ∅)))

/-- `OnNotiCRT`. -/
def notiCRT (anticipatedTs : ChrTs) (touched : List ℕ) : Option Sched :=
  if s.dtxns.find id = none then some (s.await anticipatedTs touched) else none

/-- `OnNotiCommit`; what to wait for now, if there is something. -/
def notiCommit (originalTs : ChrTs) (wait : Option (ChrTs × List ℕ)) : Sched :=
  let s := (s.release originalTs).setWait (s.irSiteWaitTs.erase originalTs)
  wait.elim s fun w => s.await w.1 w.2

end Sched

/-! ### Events and handlers -/

/-- What a handler does itself, and the calls it makes. -/
inductive Event where
  | handleIRT (id : ℕ) (cmdsByPar : Cmds) (nows : List ℤ)
  | prepareIRT (id : ℕ) (cmds : List SimpleCommand) (ts : ChrTs)
  | piggy (remoteSite : ℕ) (remoteTs : ChrTs) (notiTxns : List ChrTxnInfo) (now : ℤ)
  | irtAck (id par target : ℕ)
  | submitCRT (id : ℕ) (cmdsByRegion : OrdMap ℕ Cmds) (now : ℤ)
  | remotePrepared (id par target shardManager : ℕ) (anticipatedTs : ChrTs) (now : ℤ)
  | prepareCRT (id : ℕ) (cmds : List SimpleCommand) (req : PrepareCRTReq) (now : ℤ)
  | distExe (id : ℕ) (decisionTs : ChrTs)
  | sendOutput (id : ℕ) (values : Dict ℕ Value)
  | distExeAck (id par : ℕ) (isRegionLeader : Bool) (output : TxnOutput)
  | notiCRT (id : ℕ) (anticipatedTs : ChrTs) (touched : List ℕ)
  | notiCommit (originalTs : ChrTs) (wait : Option (ChrTs × List ℕ))
  | tick (now : ℤ)
  | check

def step (site : Site) (s : Sched) : Event → Option Sched
  | .handleIRT id cmdsByPar nows => s.handleIRT site id cmdsByPar nows
  | .prepareIRT id cmds ts => s.prepareIRT site id cmds ts
  | .piggy remoteSite remoteTs notiTxns now => some (s.piggy site remoteSite remoteTs notiTxns now)
  | .irtAck id par target => s.irtAck site id par target
  | .submitCRT id cmdsByRegion now => s.submitCRT site id cmdsByRegion now
  | .remotePrepared id par target shardManager anticipatedTs now =>
      s.remotePrepared site id par target shardManager anticipatedTs now
  | .prepareCRT id cmds req now => s.prepareCRT site id cmds req now
  | .distExe id decisionTs => s.distExe site id decisionTs
  | .sendOutput id values => some (s.sendOutput site id values)
  | .distExeAck id par isRegionLeader output => s.distExeAck site id par isRegionLeader output
  | .notiCRT id anticipatedTs touched => s.notiCRT id anticipatedTs touched
  | .notiCommit originalTs wait => some (s.notiCommit originalTs wait)
  | .tick now => some (s.tick now)
  | .check => s.check site

/-- What a site is told, and the readings of its clock while it handles it. -/
inductive Request where
  | handleIRT (id : ℕ) (cmdsByPar : Cmds) (nows : List ℤ)
  | prepareIRT (id : ℕ) (cmds : List SimpleCommand) (ts : ChrTs) (notiTxns : List ChrTxnInfo)
      (now replyNow : ℤ)
  | prepareIRTACK (id par target : ℕ) (remoteTs : ChrTs) (notiTxns : List ChrTxnInfo) (now : ℤ)
  | irSync (remoteSite : ℕ) (remoteTs : ChrTs) (notiTxns : List ChrTxnInfo) (now : ℤ)
  | submitCRT (id : ℕ) (cmdsByRegion : OrdMap ℕ Cmds) (now : ℤ)
  | remotePrepared (id par target shardManager : ℕ) (anticipatedTs : ChrTs) (now : ℤ)
  | prepareCRT (id : ℕ) (cmds : List SimpleCommand) (req : PrepareCRTReq) (now : ℤ)
  | distExe (id : ℕ) (decisionTs : ChrTs)
  | sendOutput (id : ℕ) (values : Dict ℕ Value)
  | distExeAck (id par : ℕ) (isRegionLeader : Bool) (output : TxnOutput)
  | notiCRT (id : ℕ) (anticipatedTs : ChrTs) (touched : List ℕ)
  | notiCommit (originalTs : ChrTs) (wait : Option (ChrTs × List ℕ))
  | syncLoop (now : ℤ)

namespace Sched

def phaseOf (s : Sched) (id : ℕ) : Option TxnPhase := (s.dtxns.find id).map chrPhase

/-- The transaction has been decided on between the two states. -/
def Decided (s s' : Sched) (id : ℕ) : Prop :=
  s.phaseOf id = some .distRemoteSent ∧ s'.phaseOf id = some .distCanExe

instance (s s' : Sched) (id : ℕ) : Decidable (Decided s s' id) :=
  inferInstanceAs (Decidable (_ ∧ _))

/-- `CheckExecutableTxns`, where the handler comes to it. -/
def checkIf (site : Site) (c : Prop) [Decidable c] (s : Sched) : Option Sched :=
  if c then s.check site else some s

/-- The outputs make a piece of an executable transaction ready. -/
def MoreToRun (s : Sched) (id : ℕ) (values : Dict ℕ Value) : Prop :=
  ∃ d, s.dtxns.find id = some d ∧ (mergeCheckReadyPieces values d.pieces).2 = true ∧
    TxnPhase.localCanExe.rank ≤ d.chrPhase.rank

instance (s : Sched) (id : ℕ) (values : Dict ℕ Value) : Decidable (s.MoreToRun id values) :=
  match h : s.dtxns.find id with
  | none => isFalse fun ⟨_, hd, _⟩ => nomatch h.symm.trans hd
  | some d => decidable_of_iff ((mergeCheckReadyPieces values d.pieces).2 = true ∧
      TxnPhase.localCanExe.rank ≤ d.chrPhase.rank)
        ⟨fun hd => ⟨d, h, hd⟩, fun ⟨_, hd, hd'⟩ => some.inj (h.symm.trans hd) ▸ hd'⟩

end Sched

/-- The handlers. -/
def handle (site : Site) (s : Sched) : Request → Option Sched
  | .handleIRT id cmdsByPar nows => s.handleIRT site id cmdsByPar nows
  | .prepareIRT id cmds ts notiTxns now replyNow => (s.prepareIRT site id cmds ts).bind fun s =>
      ((s.piggy site ts.siteId ts notiTxns now).check site).map (Sched.tick replyNow)
  | .prepareIRTACK id par target remoteTs notiTxns now =>
      (s.dtxns.find id).bind fun _ =>
        ((s.piggy site target remoteTs notiTxns now).irtAck site id par target).bind fun s' =>
          -- the record has only now become executable
          s'.checkIf site (s.phaseOf id ≠ some .localCanExe ∧ s'.phaseOf id = some .localCanExe)
  | .irSync remoteSite remoteTs notiTxns now => (s.piggy site remoteSite remoteTs notiTxns now).check site
  | .submitCRT id cmdsByRegion now => s.submitCRT site id cmdsByRegion now
  | .remotePrepared id par target shardManager anticipatedTs now =>
      (s.remotePrepared site id par target shardManager anticipatedTs now).bind fun s' =>
        s'.checkIf site (Sched.Decided s s' id)
  | .prepareCRT id cmds req now => (s.prepareCRT site id cmds req now).bind fun s' =>
      s'.checkIf site (Sched.Decided s s' id)
  | .distExe id decisionTs => (s.distExe site id decisionTs).bind fun s' =>
      s'.checkIf site (s.dtxns.find id ≠ none)
  | .sendOutput id values => (s.sendOutput site id values).checkIf site (s.MoreToRun id values)
  | .distExeAck id par isRegionLeader output => s.distExeAck site id par isRegionLeader output
  | .notiCRT id anticipatedTs touched => s.notiCRT id anticipatedTs touched
  | .notiCommit originalTs wait => some (s.notiCommit originalTs wait)
  | .syncLoop now => some (s.tick now)

section Handle

variable {site : Site} {s s' t : Sched}

theorem run_single {e : Event} (h : step site s e = some s') : run (step site) s [e] = some s' :=
  run_cons.mpr ⟨s', h, rfl⟩

theorem run_checkIf {e : Event} {c : Prop} [Decidable c] (he : step site s e = some t)
    (h : t.checkIf site c = some s') : ∃ es, run (step site) s es = some s' := by
  unfold Sched.checkIf at h
  split at h
  · exact ⟨[e, .check], run_cons.mpr ⟨t, he, run_single h⟩⟩
  · exact ⟨[e], run_single (he.trans h)⟩

/-- A handler is a run of its events. -/
theorem handle_run {r : Request} (h : handle site s r = some s') :
    ∃ es, run (step site) s es = some s' := by
  cases r with
  | handleIRT id cmdsByPar nows => exact ⟨[.handleIRT id cmdsByPar nows], run_single h⟩
  | prepareIRT id cmds ts notiTxns now replyNow =>
    obtain ⟨s1, h1, h⟩ := bind_eq_some_iff.mp h
    obtain ⟨s2, h2, rfl⟩ := map_eq_some_iff.mp h
    exact ⟨[.prepareIRT id cmds ts, .piggy ts.siteId ts notiTxns now, .check, .tick replyNow],
      run_cons.mpr ⟨s1, h1, run_cons.mpr ⟨_, rfl, run_cons.mpr ⟨s2, h2, run_single rfl⟩⟩⟩⟩
  | prepareIRTACK id par target remoteTs notiTxns now =>
    obtain ⟨d, -, h⟩ := bind_eq_some_iff.mp h
    obtain ⟨s1, h1, h⟩ := bind_eq_some_iff.mp h
    obtain ⟨es, hes⟩ := run_checkIf (e := .irtAck id par target) h1 h
    exact ⟨.piggy target remoteTs notiTxns now :: es, run_cons.mpr ⟨_, rfl, hes⟩⟩
  | irSync remoteSite remoteTs notiTxns now =>
    exact ⟨[.piggy remoteSite remoteTs notiTxns now, .check], run_cons.mpr ⟨_, rfl, run_single h⟩⟩
  | submitCRT id cmdsByRegion now => exact ⟨[.submitCRT id cmdsByRegion now], run_single h⟩
  | remotePrepared id par target shardManager anticipatedTs now =>
    obtain ⟨s1, h1, h⟩ := bind_eq_some_iff.mp h
    exact run_checkIf (e := .remotePrepared id par target shardManager anticipatedTs now) h1 h
  | prepareCRT id cmds req now =>
    obtain ⟨s1, h1, h⟩ := bind_eq_some_iff.mp h
    exact run_checkIf (e := .prepareCRT id cmds req now) h1 h
  | distExe id decisionTs =>
    obtain ⟨s1, h1, h⟩ := bind_eq_some_iff.mp h
    exact run_checkIf (e := .distExe id decisionTs) h1 h
  | sendOutput id values => exact run_checkIf (e := .sendOutput id values) rfl h
  | distExeAck id par isRegionLeader output =>
    exact ⟨[.distExeAck id par isRegionLeader output], run_single h⟩
  | notiCRT id anticipatedTs touched => exact ⟨[.notiCRT id anticipatedTs touched], run_single h⟩
  | notiCommit originalTs wait => exact ⟨[.notiCommit originalTs wait], run_single h⟩
  | syncLoop now => exact ⟨[.tick now], run_single h⟩

theorem run_handle_run : ∀ {rs : List Request} {s : Sched}, run (handle site) s rs = some s' →
    ∃ es, run (step site) s es = some s'
  | [], _, h => ⟨[], h⟩
  | r :: rs, s, h => by
    obtain ⟨t, ht, h⟩ := run_cons.mp h
    obtain ⟨es, hes⟩ := handle_run ht
    obtain ⟨fs, hfs⟩ := run_handle_run h
    exact ⟨es ++ fs, by rw [run_append, hes, bind_some, hfs]⟩

end Handle

end Fiss.Chronos
