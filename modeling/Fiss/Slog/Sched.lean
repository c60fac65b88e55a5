import Fiss.Slog.Batch
import Fiss.Slog.Raft
import Fiss.Slog.Tx

/-! A site of a region (`SchedulerSlog`): transactions are submitted to it by clients, come in batches
    with their places in the queue, and are executed along the queue (`ExecTxnQueue`) as far as their
    inputs are there. Inputs come from other partitions and may come before the transaction.

    `next_execute_index_` starts at 0. The queue holds a transaction by its id. What a site sends to
    the managers, and the columns a notification computes for its log line, are left out. -/

namespace Fiss.Slog
open Fiss.Rcc Option List

/-- What a site sends: the reply to a client, an output to the coordinating site, and values to the
    replicas of a partition. -/
inductive Out where
  | reply (t : ℕ) (output : TxnOutput)
  | txnOutput (coordSite par t : ℕ) (output : TxnOutput)
  | depValues (par t : ℕ) (values : Dict ℕ Value)
  deriving DecidableEq

/-- The state of a site. For the record it keeps the indices notified, the executions and what it has
    sent. -/
structure Sched (DB : Type) where
  db : DB
  dtxns : Dict ℕ TxSlog := {}
  txnQueue : List (Option ℕ) := []
  nextExecuteIndex : ℕ := 0
  nextNotifyIndex : ℕ := 0
  pendingDepValues : List (ℕ × Dict ℕ Value) := []
  notified : List ℕ := []
  ran : List Execution := []
  sent : List Out := []

/-- Which `verify` of `OnSendBatch` fails. -/
inductive Fault where
  /-- the lists of the message differ in length -/
  | malformed
  /-- `coord_sites[i].second == site_id_`, or the same of the record -/
  | coordSite
  /-- `txn_id == all_touched_shards[i].first` -/
  | touched
  /-- `txn_queue_[start_index + i] == nullptr` -/
  | occupied
  deriving DecidableEq

section Handlers

variable {DB : Type} (site : Site DB) (t : ℕ) (d : TxSlog) (st : Sched DB)

/-! ### Along the queue -/

/-- `reply_callback`. -/
def TxSlog.reply : List Out :=
  match d.callback with
  | .client =>
    if d.parOutputReceived.entries.all fun e => e.2 then [.reply t d.distOutput] else []
  | .replica => []
  | .coord =>
    if d.nLocalPieces ≠ 0 ∧ d.distOutput.isEmpty = false then
      [.txnOutput d.coordSite site.parId t d.distOutput] else []

/-- All local pieces are executed. -/
def TxSlog.finished : Bool := d.nLocalPieces = d.nExecutedPieces

/-- The record of a finished transaction, before it is replied. -/
def TxSlog.finish : TxSlog :=
  { d with
    executed := true
    parOutputReceived := if d.distOutput.isEmpty then d.parOutputReceived
      else d.parOutputReceived.set site.parId true }

/-- The loop state of `ExecTxnQueue`. -/
structure Loop (DB : Type) where
  sched : Sched DB
  pendingPieces : OrdSet ℕ := ∅
  foundPending : ℕ := 0

/-- The values for the other partitions. -/
def Pass.messages (st : Pass DB) : List Out :=
  (st.ret.entries.filter fun e => e.1 ≠ site.parId).map fun e => .depValues e.1 t e.2

/-- `TryExecute` of a transaction that is not executed, and what the loop does with its result. -/
def Loop.tryExecute (l : Loop DB) : Loop DB :=
  let pass := d.recursiveExecuteReadyPieces site l.pendingPieces t l.sched.db l.sched.ran
  let pending := pass.dtxn.addPending l.pendingPieces
  if pass.dtxn.finished then
    let d' := pass.dtxn.finish site
    { sched := { l.sched with
        db := pass.db
        dtxns := l.sched.dtxns.set t d'
        nextExecuteIndex := l.sched.nextExecuteIndex + if l.foundPending = 0 then 1 else 0
        ran := pass.ran
        sent := l.sched.sent ++ d'.reply site t ++ pass.messages site t }
      pendingPieces := pending
      foundPending := l.foundPending }
  else
    { sched := { l.sched with
        db := pass.db
        dtxns := l.sched.dtxns.set t pass.dtxn
        ran := pass.ran
        sent := l.sched.sent ++ pass.messages site t }
      pendingPieces := pending
      foundPending := l.foundPending + 1 }

/-- The cursor moves over a transaction that was executed before, if nothing pends before it. -/
def Loop.skip (l : Loop DB) : Loop DB :=
  { l with sched := { l.sched with
      nextExecuteIndex := l.sched.nextExecuteIndex + if l.foundPending = 0 then 1 else 0 } }

/-- The loop body at a transaction. -/
def Loop.visit (l : Loop DB) : Loop DB :=
  match l.sched.dtxns.find t with
  | none => l
  | some d => if d.executed then l.skip else l.tryExecute site t d

/-- The loop over the slots, up to an empty one or to too many pending transactions. -/
def Loop.slots (site : Site DB) : List (Option ℕ) → Loop DB → Loop DB
  | some t :: slots, l =>
    if site.maxPendingTxns < (l.visit site t).foundPending then l.visit site t
    else Loop.slots site slots (l.visit site t)
  | _, l => l

def Sched.execTxnQueue : Sched DB :=
  (Loop.slots site (st.txnQueue.drop st.nextExecuteIndex) { sched := st }).sched

/-! ### Values from other partitions -/

/-- The record with the values handed to its pieces. -/
def TxSlog.merge (values : Dict ℕ Value) : TxSlog :=
  { d with pieces := (mergeCheckReadyPieces values d.pieces).1 }

def Sched.onSendDepValues (values : Dict ℕ Value) : Sched DB :=
  match st.dtxns.find t with
  | none => { st with pendingDepValues := st.pendingDepValues ++ [(t, values)] }
  | some d =>
    let st' := { st with dtxns := st.dtxns.set t (d.merge values) }
    if (mergeCheckReadyPieces values d.pieces).2 then st'.execTxnQueue site else st'

/-- The loop of `CheckPendingDeps`: the state, the values kept, and whether a piece became ready. -/
def Sched.mergePending : List (ℕ × Dict ℕ Value) → Sched DB → Sched DB × Bool
  | [], st => ({ st with pendingDepValues := [] }, false)
  | (t, values) :: l, st =>
    match st.dtxns.find t with
    | none =>
      let r := Sched.mergePending l st
      ({ r.1 with pendingDepValues := (t, values) :: r.1.pendingDepValues }, r.2)
    | some d =>
      let r := Sched.mergePending l { st with dtxns := st.dtxns.set t (d.merge values) }
      (r.1, (mergeCheckReadyPieces values d.pieces).2 || r.2)

def Sched.checkPendingDeps : Sched DB :=
  let r := st.mergePending st.pendingDepValues
  if r.2 then r.1.execTxnQueue site else r.1

/-! ### Transactions -/

/-- A new record. -/
def Site.newTx : TxSlog where
  nLocalPieces := site.unsetNLocalPieces t
  callback := .client

/-- The record of a transaction with the pieces for this partition; without any `n_local_pieces_`
    stays as it was. -/
def TxSlog.own (cmds : Cmds) : TxSlog :=
  match cmds.find site.parId with
  | some pieces =>
    { d with pieces := pieces.map SimpleCommand.clear, nLocalPieces := pieces.length }
  | none => d

/-- The record of a transaction that is submitted here. -/
def TxSlog.submit (cmds : Cmds) : TxSlog :=
  { d.own site cmds with
    nExecutedPieces := 0
    distOutput := {}
    parOutputReceived := cmds.keys.foldl (fun m p => m.set p false) d.parOutputReceived
    coordSite := site.siteId
    callback := .client }

def Sched.onSubmitTxn (cmds : Cmds) : Option (Sched DB) :=
  -- `verify(cmd_by_par.begin()->second.size() > 0)`
  (cmds.entries.head?.bind fun p => p.2.head?).map fun c =>
    let t := site.rootId c
    { st with dtxns := st.dtxns.set t (((st.dtxns.find t).getD (site.newTx t)).submit site cmds) }

/-- A transaction takes its slot. -/
def Sched.enqueue (k t : ℕ) (st : Sched DB) : Except Fault (Sched DB) :=
  if st.txnQueue[k]? = some none then .ok { st with txnQueue := st.txnQueue.set k (some t) }
  else .error .occupied

/-- The record a site other than the coordinating one makes. -/
def Site.received (pieces : List SimpleCommand) (coordSite : ℕ) : TxSlog where
  pieces := pieces.map SimpleCommand.clear
  nLocalPieces := pieces.length
  coordSite := coordSite
  callback := if coordSite / nRepPerShard = site.siteId / nRepPerShard then .replica else .coord

/-- The loop body of `OnSendBatch`. -/
def Sched.insert (b : Batch) (i : ℕ) : Except Fault (Sched DB) :=
  match b.cmds[i]?, b.coordSites[i]?, b.allTouchedShards[i]? with
  | some cmd, some coord, some touched =>
    if cmd.1 ≠ touched.1 then .error .touched
    else match st.dtxns.find cmd.1 with
      | some d =>
        if coord.2 = site.siteId ∧ d.coordSite = site.siteId then st.enqueue (b.startIndex + i) cmd.1
        else .error .coordSite
      | none => Sched.enqueue (b.startIndex + i) cmd.1
          { st with dtxns := st.dtxns.set cmd.1 (site.received cmd.2 coord.2) }
  | _, _, _ => .error .malformed

def Sched.insertAll (site : Site DB) (b : Batch) : List ℕ → Sched DB → Except Fault (Sched DB)
  | [], st => .ok st
  | i :: is, st => (st.insert site b i).bind fun st => Sched.insertAll site b is st

/-- The slots of a batch. -/
def Sched.extend (b : Batch) : Sched DB :=
  { st with txnQueue := st.txnQueue ++
      replicate (b.startIndex + b.cmds.length - st.txnQueue.length) none }

/-- The indices up to the first empty slot are notified, by the leader of a shard. -/
def Sched.notify : Sched DB :=
  if site.siteId % nRepPerShard = 0 then
    let next := advance isSome st.txnQueue st.nextNotifyIndex
    { st with
      nextNotifyIndex := next
      notified := st.notified ++ range' st.nextNotifyIndex (next - st.nextNotifyIndex) }
  else st

def Sched.onSendBatch (b : Batch) : Except Fault (Sched DB) :=
  ((st.extend b).insertAll site b (range b.cmds.length)).map fun st =>
    ((st.notify site).execTxnQueue site).checkPendingDeps site

/-- `OnSendTxnOutput`: the output itself is not looked at. -/
def Sched.onSendTxnOutput (par : ℕ) (_output : TxnOutput) : Option (Sched DB) :=
  -- `verify(GetDTxn(txn_id) != nullptr)` and `verify(par_output_received_.count(par_id) > 0)`
  (st.dtxns.find t).bind fun d => (d.parOutputReceived.find par).map fun got =>
    if got then st
    else
      let d' := { d with parOutputReceived := d.parOutputReceived.set par true }
      { st with
        dtxns := st.dtxns.set t d'
        sent := st.sent ++ d'.reply site t }

end Handlers

inductive SiteEvent where
  | submitTxn (cmds : Cmds)
  | sendBatch (b : Batch)
  | sendDepValues (t : ℕ) (values : Dict ℕ Value)
  | sendTxnOutput (t par : ℕ) (output : TxnOutput)

/-- One step of a site. -/
def siteStep {DB : Type} (site : Site DB) (st : Sched DB) : SiteEvent → Option (Sched DB)
  | .submitTxn cmds => st.onSubmitTxn site cmds
  | .sendBatch b => (st.onSendBatch site b).toOption
  | .sendDepValues t values => some (st.onSendDepValues site t values)
  | .sendTxnOutput t par output => st.onSendTxnOutput site t par output

/-! ### How a record gets on -/

section

variable {DB : Type} {d d' : TxSlog} {dtxns : Dict ℕ TxSlog} {t : ℕ}

theorem execute_filed (site : Site DB) (t k : ℕ) (c : SimpleCommand) (pass : Pass DB) :
    ∃ o, (pass.execute site t k c).dtxn.pieces = filedAt pass.dtxn.pieces k o :=
  ⟨_, execute_pieces site t k c pass⟩

theorem merge_pieces (values : Dict ℕ Value) (d : TxSlog) :
    (d.merge values).pieces = d.pieces.map fun c => c.offers values.entries := by
  rw [TxSlog.merge, mergeCheckReadyPieces_eq]

/-- A piece gets on: it may have been offered values, and does not become unexecuted. -/
structure Fed (c c' : SimpleCommand) : Prop where
  offered : ∃ l, c' = { c.offers l with localExecuted := c'.localExecuted }
  executed : c.localExecuted = true → c'.localExecuted = true

theorem fed_offers (c : SimpleCommand) (l : List (ℕ × Value)) : Fed c (c.offers l) :=
  ⟨⟨l, rfl⟩, fun h => by rw [localExecuted_offers]; exact h⟩

theorem fed_mark (c : SimpleCommand) : Fed c c.mark := ⟨⟨[], rfl⟩, fun _ => rfl⟩

theorem offers_setExecuted (c : SimpleCommand) (b : Bool) (l : List (ℕ × Value)) :
    { c with localExecuted := b }.offers l = { c.offers l with localExecuted := b } := by
  induction l generalizing c with
  | nil => rfl
  | cons e l ih => exact ih (c.offer e.1 e.2)

theorem Fed.trans {c c' c'' : SimpleCommand} (h : Fed c c') (h' : Fed c' c'') : Fed c c'' := by
  obtain ⟨l, hl⟩ := h.offered
  obtain ⟨l', hl'⟩ := h'.offered
  refine ⟨⟨l ++ l', ?_⟩, fun hx => h'.executed (h.executed hx)⟩
  rw [hl, offers_setExecuted] at hl'
  rw [SimpleCommand.offers, foldl_append]
  exact hl'

theorem Fed.innId {c c' : SimpleCommand} (h : Fed c c') : c'.innId = c.innId := by
  obtain ⟨l, hl⟩ := h.offered
  rw [hl]
  exact innId_offers c l

/-- A record gets on: its pieces stay the same ones and get on. -/
structure Advanced (d d' : TxSlog) : Prop where
  pieces : ∀ (k : ℕ) (c' : SimpleCommand), d'.pieces[k]? = some c' →
    ∃ c, d.pieces[k]? = some c ∧ Fed c c'
  length : d'.pieces.length = d.pieces.length
  executed : d.executed = true → d'.executed = true
  nLocal : d'.nLocalPieces = d.nLocalPieces
  callback : d'.callback = d.callback
  coordSite : d'.coordSite = d.coordSite

theorem Advanced.refl (d : TxSlog) : Advanced d d :=
  ⟨fun _ c' h => ⟨c', h, fed_offers c' []⟩, rfl, id, rfl, rfl, rfl⟩

theorem Advanced.trans {d'' : TxSlog} (h : Advanced d d') (h' : Advanced d' d'') :
    Advanced d d'' where
  pieces k c'' hc'' := by
    obtain ⟨c', hc', hfed'⟩ := h'.pieces k c'' hc''
    obtain ⟨c, hc, hfed⟩ := h.pieces k c' hc'
    exact ⟨c, hc, hfed.trans hfed'⟩
  length := h'.length.trans h.length
  executed hx := h'.executed (h.executed hx)
  nLocal := h'.nLocal.trans h.nLocal
  callback := h'.callback.trans h.callback
  coordSite := h'.coordSite.trans h.coordSite

theorem advanced_execute (site : Site DB) (t k : ℕ) (c : SimpleCommand) (pass : Pass DB) :
    Advanced pass.dtxn (pass.execute site t k c).dtxn := by
  obtain ⟨o, ho⟩ := execute_filed site t k c pass
  refine ⟨fun i c' hc' => ?_, by rw [ho, length_filedAt], id, rfl, rfl, rfl⟩
  rw [ho, getElem_filedAt] at hc'
  obtain ⟨c0, hc0, rfl⟩ := Option.map_eq_some_iff.mp hc'
  refine ⟨c0, hc0, ?_⟩
  split
  · exact (fed_mark c0).trans (fed_offers _ o)
  · exact fed_offers c0 o

theorem advanced_merge (values : Dict ℕ Value) (d : TxSlog) : Advanced d (d.merge values) := by
  refine ⟨fun i c' hc' => ?_, by rw [merge_pieces, length_map], id, rfl, rfl, rfl⟩
  rw [merge_pieces, getElem?_map] at hc'
  obtain ⟨c, hc, rfl⟩ := Option.map_eq_some_iff.mp hc'
  exact ⟨c, hc, fed_offers c _⟩

theorem advanced_finish (site : Site DB) (d : TxSlog) : Advanced d (d.finish site) :=
  { Advanced.refl d with executed := fun _ => rfl }

theorem advanced_recursive (site : Site DB) (pending : OrdSet ℕ) (t : ℕ) (d : TxSlog) (db : DB)
    (ran : List Execution) :
    Advanced d (d.recursiveExecuteReadyPieces site pending t db ran).dtxn :=
  sweeps_inv (I := fun st => Advanced d st.dtxn) (fun _ _ h => h)
    (fun st i c h _ _ => h.trans (advanced_execute site t i c st)) (Advanced.refl d)

/-- The record of a transaction submitted here, or one of `made` that got on. -/
def From (made : ℕ → TxSlog → Prop) (t : ℕ) (d : TxSlog) : Prop :=
  d.callback = .client ∨ ∃ d0, made t d0 ∧ Advanced d0 d

theorem From.of {made : ℕ → TxSlog → Prop} (h : made t d) : From made t d :=
  .inr ⟨d, h, Advanced.refl d⟩

/-- All records are such ones. -/
def Recorded (made : ℕ → TxSlog → Prop) (dtxns : Dict ℕ TxSlog) : Prop :=
  ∀ t d, dtxns.find t = some d → From made t d

theorem Recorded.bind {made made' : ℕ → TxSlog → Prop} (h : Recorded made dtxns)
    (hmade : ∀ t d, made t d → From made' t d) : Recorded made' dtxns := by
  intro t d hd
  rcases h t d hd with hclient | ⟨d1, h1, had⟩
  · exact .inl hclient
  · rcases hmade t d1 h1 with hclient | ⟨d0, h0, had0⟩
    · exact .inl (had.callback.trans hclient)
    · exact .inr ⟨d0, h0, had0.trans had⟩

/-- The records are those of before, or submitted here. -/
abbrev RecordsKept (dtxns : Dict ℕ TxSlog) : Dict ℕ TxSlog → Prop :=
  Recorded fun t d => dtxns.find t = some d

theorem kept_set (h : From (fun t d => dtxns.find t = some d) t d) :
    RecordsKept dtxns (dtxns.set t d) := by
  intro u e he
  rw [Dict.find_set] at he
  split at he
  · next hu =>
    obtain rfl := some.inj he
    exact hu ▸ h
  · exact .of he

end

/-! ### What the handlers leave alone -/

section

variable {DB : Type} {site : Site DB} {t : ℕ} {l : Loop DB} {st st' : Sched DB}

/-- The queue and the notifications are the same, and the records are kept. -/
structure QueueKept (st st' : Sched DB) : Prop where
  queue : st'.txnQueue = st.txnQueue
  next : st'.nextNotifyIndex = st.nextNotifyIndex
  notified : st'.notified = st.notified
  records : RecordsKept st.dtxns st'.dtxns

theorem QueueKept.refl (st : Sched DB) : QueueKept st st :=
  ⟨rfl, rfl, rfl, fun _ _ hd => .of hd⟩

theorem QueueKept.trans {st'' : Sched DB} (h : QueueKept st st') (h' : QueueKept st' st'') :
    QueueKept st st'' :=
  ⟨h'.queue.trans h.queue, h'.next.trans h.next, h'.notified.trans h.notified,
    h'.records.bind h.records⟩

theorem visit_queue (site : Site DB) (t : ℕ) (l : Loop DB) :
    QueueKept l.sched (l.visit site t).sched := by
  rw [Loop.visit]
  split
  · exact QueueKept.refl _
  · next d hd =>
    split
    · exact { QueueKept.refl l.sched with }
    · have had := advanced_recursive site l.pendingPieces t d l.sched.db l.sched.ran
      rw [Loop.tryExecute]
      split
      · exact ⟨rfl, rfl, rfl, kept_set (.inr ⟨d, hd, had.trans (advanced_finish site _)⟩)⟩
      · exact ⟨rfl, rfl, rfl, kept_set (.inr ⟨d, hd, had⟩)⟩

theorem slots_queue (site : Site DB) : ∀ (slots : List (Option ℕ)) (l : Loop DB),
    QueueKept l.sched (Loop.slots site slots l).sched
  | [], l => QueueKept.refl _
  | none :: _, l => QueueKept.refl _
  | some t :: slots, l => by
    rw [Loop.slots]
    split
    · exact visit_queue site t l
    · exact (visit_queue site t l).trans (slots_queue site slots _)

theorem execTxnQueue_queue (site : Site DB) (st : Sched DB) : QueueKept st (st.execTxnQueue site) :=
  slots_queue site (st.txnQueue.drop st.nextExecuteIndex) { sched := st }

theorem visit_pending (site : Site DB) (t : ℕ) (l : Loop DB) :
    (l.visit site t).sched.pendingDepValues = l.sched.pendingDepValues := by
  rw [Loop.visit]
  split
  · rfl
  · split
    · rfl
    · rw [Loop.tryExecute]
      split <;> rfl

theorem slots_pending (site : Site DB) : ∀ (slots : List (Option ℕ)) (l : Loop DB),
    (Loop.slots site slots l).sched.pendingDepValues = l.sched.pendingDepValues
  | [], _ => rfl
  | none :: _, _ => rfl
  | some t :: slots, l => by
    rw [Loop.slots]
    split
    · exact visit_pending site t l
    · exact (slots_pending site slots _).trans (visit_pending site t l)

theorem execTxnQueue_pending (site : Site DB) (st : Sched DB) :
    (st.execTxnQueue site).pendingDepValues = st.pendingDepValues :=
  slots_pending site _ _

theorem mergePending_queue : ∀ (l : List (ℕ × Dict ℕ Value)) (st : Sched DB),
    QueueKept st (st.mergePending l).1
  | [], st => { QueueKept.refl st with }
  | (t, values) :: l, st => by
    rw [Sched.mergePending]
    split
    · exact { mergePending_queue l st with }
    · next d hd =>
      have hset : RecordsKept st.dtxns (st.dtxns.set t (d.merge values)) :=
        kept_set (.inr ⟨d, hd, advanced_merge values d⟩)
      have h := mergePending_queue l { st with dtxns := st.dtxns.set t (d.merge values) }
      exact ⟨h.queue, h.next, h.notified, h.records.bind hset⟩

theorem checkPendingDeps_queue (site : Site DB) (st : Sched DB) :
    QueueKept st (st.checkPendingDeps site) := by
  have h := mergePending_queue st.pendingDepValues st
  rw [Sched.checkPendingDeps]
  split
  · exact h.trans (execTxnQueue_queue site _)
  · exact h

theorem onSendDepValues_queue (site : Site DB) (t : ℕ) (values : Dict ℕ Value) (st : Sched DB) :
    QueueKept st (st.onSendDepValues site t values) := by
  rw [Sched.onSendDepValues]
  split
  · exact { QueueKept.refl st with }
  · next d hd =>
    have h : QueueKept st { st with dtxns := st.dtxns.set t (d.merge values) } :=
      ⟨rfl, rfl, rfl, kept_set (.inr ⟨d, hd, advanced_merge values d⟩)⟩
    dsimp only
    split
    · exact h.trans (execTxnQueue_queue site _)
    · exact h

theorem onSubmitTxn_queue {cmds : Cmds} (h : st.onSubmitTxn site cmds = some st') :
    QueueKept st st' := by
  obtain ⟨c, -, rfl⟩ := map_eq_some_iff.mp h
  exact ⟨rfl, rfl, rfl, kept_set (.inl rfl)⟩

theorem onSendTxnOutput_queue {par : ℕ} {output : TxnOutput}
    (h : st.onSendTxnOutput site t par output = some st') : QueueKept st st' := by
  obtain ⟨d, hd, h⟩ := bind_eq_some_iff.mp h
  obtain ⟨got, -, rfl⟩ := map_eq_some_iff.mp h
  split
  · exact QueueKept.refl _
  · exact ⟨rfl, rfl, rfl, kept_set (.inr ⟨d, hd, { Advanced.refl d with }⟩)⟩

theorem slot_extend {q : List (Option ℕ)} {n j u : ℕ}
    (h : (q ++ replicate n none)[j]? = some (some u)) : q[j]? = some (some u) := by
  rcases lt_or_ge j q.length with hlt | hge
  · rwa [getElem?_append_left hlt] at h
  · rw [getElem?_append_right hge, getElem?_replicate] at h
    split at h <;> cases h

theorem slot_set {q : List (Option ℕ)} {k j u : ℕ} (h : (q.set k (some t))[j]? = some (some u)) :
    (j = k ∧ u = t) ∨ q[j]? = some (some u) := by
  rw [getElem?_set] at h
  split at h
  · next hk =>
    obtain ⟨-, h⟩ := ite_none_right_eq_some.mp h
    exact .inl ⟨hk.symm, (some.inj (some.inj h)).symm⟩
  · exact .inr h

theorem enqueue_ok {k t : ℕ} (h : st.enqueue k t = .ok st') :
    st.txnQueue[k]? = some none ∧ st' = { st with txnQueue := st.txnQueue.set k (some t) } := by
  rw [Sched.enqueue] at h
  split at h
  · next hfree =>
    cases h
    exact ⟨hfree, rfl⟩
  · cases h

theorem insertAll_cons {b : Batch} {i : ℕ} {is : List ℕ}
    (h : st.insertAll site b (i :: is) = .ok st') :
    ∃ st1, st.insert site b i = .ok st1 ∧ st1.insertAll site b is = .ok st' := by
  rw [Sched.insertAll] at h
  cases hfirst : st.insert site b i with
  | error f =>
    rw [hfirst] at h
    cases h
  | ok st1 => exact ⟨st1, rfl, by rwa [hfirst] at h⟩

theorem onSendBatch_ok {b : Batch} (h : st.onSendBatch site b = .ok st') :
    ∃ st1, (st.extend b).insertAll site b (range b.cmds.length) = .ok st1 ∧
      st' = ((st1.notify site).execTxnQueue site).checkPendingDeps site := by
  rw [Sched.onSendBatch] at h
  cases hall : (st.extend b).insertAll site b (range b.cmds.length) with
  | error f =>
    rw [hall] at h
    cases h
  | ok st1 =>
    rw [hall] at h
    exact ⟨st1, rfl, (Except.ok.inj h).symm⟩

end

end Fiss.Slog
