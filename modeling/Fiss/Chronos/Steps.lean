import Fiss.Chronos.Walk

/-! What one event does: every event but `CheckExecutableTxns` runs no callback, forgets no site and
    no transaction, and changes records in one of three ways (`Change`). The invariants of the records
    follow from that. -/

namespace Fiss.Chronos
open Fiss.Rcc Option List OrdMap

/-- The two records agree on the pieces, how many of them are executed, the callback and
    `commit_ts_`. -/
structure Same (d d' : TxChronos) : Prop where
  pieces : d'.pieces = d.pieces
  nLocalPieces : d'.nLocalPieces = d.nLocalPieces
  nExecutedPieces : d'.nExecutedPieces = d.nExecutedPieces
  callback : d'.callback = d.callback
  commitTs : d'.commitTs = d.commitTs

/-- How an event changes a record: the pieces stay as they are, are delivered, or are handed
    values. -/
inductive Change (d d' : TxChronos) : Prop
  | same (h : Same d d')
  | deliver (cmds : List SimpleCommand) (callback : Callback) (hset : callback ≠ .unset)
      (h : Same (d.deliver cmds callback) d')
  | merge (values : Dict ℕ Value) (h : Same (d.merge values) d')

theorem Same.refl (d : TxChronos) : Same d d := ⟨rfl, rfl, rfl, rfl, rfl⟩

theorem Same.trans {d d' d'' : TxChronos} (h : Same d d') (h' : Same d' d'') : Same d d'' :=
  ⟨h'.pieces.trans h.pieces, h'.nLocalPieces.trans h.nLocalPieces,
    h'.nExecutedPieces.trans h.nExecutedPieces, h'.callback.trans h.callback,
    h'.commitTs.trans h.commitTs⟩

section Record

variable (d : TxChronos) (site : Site)

theorem same_addAck (par x : ℕ) : Same d (d.addAck par x) := ⟨rfl, rfl, rfl, rfl, rfl⟩

theorem same_settle : Same d (d.settle site) := by
  unfold TxChronos.settle
  split
  · exact ⟨rfl, rfl, rfl, rfl, rfl⟩
  · exact Same.refl d

theorem acks_settle : (d.settle site).distPartitionAcks = d.distPartitionAcks := by
  unfold TxChronos.settle
  split <;> rfl

theorem answer_frame (b : Bool) : ∃ o, d.answer b = { d with sendOutputToHandler := o } := by
  unfold TxChronos.answer
  split
  · exact ⟨true, rfl⟩
  · exact ⟨d.sendOutputToHandler, rfl⟩

end Record

/-- What an event other than `CheckExecutableTxns` does. -/
structure Quiet (site : Site) (s s' : Sched) : Prop where
  ran : s'.ran = s.ran
  told : ∀ x, (s.irSiteMaxTs.find x).isSome → (s'.irSiteMaxTs.find x).isSome
  known : ∀ id, (s.dtxns.find id).isSome → (s'.dtxns.find id).isSome
  records : ∀ id d', s'.dtxns.find id = some d' → s.dtxns.find id = some d' ∨
    Change (s.record site id) d'

namespace Quiet

variable {site : Site} {id : ℕ} {d : TxChronos} {s s' t : Sched}

theorem of_eq (hran : s'.ran = s.ran) (htold : s'.irSiteMaxTs = s.irSiteMaxTs)
    (hdtxns : s'.dtxns = s.dtxns) : Quiet site s s' :=
  ⟨hran, fun _ h => htold ▸ h, fun _ h => hdtxns ▸ h, fun _ _ h => .inl (hdtxns ▸ h)⟩

end Quiet

namespace Sched

variable {site : Site} {id : ℕ} {d : TxChronos} {s s' : Sched}

theorem record_of_find (h : s.dtxns.find id = some d) : s.record site id = d := by
  rw [record, h, getD_some]

theorem generateFree_eq : ∀ {nows : List ℤ} {s : Sched} {ts : ChrTs} {s' : Sched},
    s.generateFree nows = some (ts, s') → s.readyTxns.find ts = none ∧ ∃ c, s' = s.setClock c
  | [], _, _, _, h => by cases h
  | now :: nows, s, ts, s', h => by
    unfold generateFree at h
    split at h
    · next hfree =>
      obtain ⟨rfl, rfl⟩ := Prod.mk.inj (some.inj h)
      exact ⟨hfree, _, rfl⟩
    · obtain ⟨-, h⟩ := ite_none_right_eq_some.mp h
      obtain ⟨hfree, c, rfl⟩ := generateFree_eq h
      exact ⟨hfree, c, rfl⟩

theorem handleIRT_eq {cmdsByPar : Cmds} {nows : List ℤ}
    (h : s.handleIRT site id cmdsByPar nows = some s') : ∃ cmds ts c,
      s.dtxns.find id = none ∧ cmdsByPar.find site.parId = some cmds ∧ s.readyTxns.find ts = none ∧
      s' = (((s.setClock c).put id (TxChronos.irt site cmdsByPar.keys cmds ts)).setReady ts id).send
        (prepareMsgs site id cmdsByPar ts) := by
  obtain ⟨⟨-, hnew⟩, h⟩ := ite_none_right_eq_some.mp h
  obtain ⟨cmds, hcmds, h⟩ := bind_eq_some_iff.mp h
  obtain ⟨⟨ts, s1⟩, hr, rfl⟩ := map_eq_some_iff.mp h
  obtain ⟨hfree, c, rfl⟩ := generateFree_eq hr
  exact ⟨cmds, ts, c, hnew, hcmds, hfree, rfl⟩

/-- What notifications do: they make records of unknown transactions, and enter them. -/
structure Notified (site : Site) (infos : List ChrTxnInfo) (s s' : Sched) : Prop where
  ran : s'.ran = s.ran
  maxTs : s'.irSiteMaxTs = s.irSiteMaxTs
  known : ∀ id d, s.dtxns.find id = some d → s'.dtxns.find id = some d
  records : ∀ id d', s'.dtxns.find id = some d' → s.dtxns.find id = some d' ∨
    s.dtxns.find id = none ∧ ∃ info ∈ infos, info.txnId = id ∧ d' = TxChronos.notified site info

theorem notify_find (info : ChrTxnInfo) (x : ℕ) : (notify site s info).dtxns.find x =
    if x = info.txnId ∧ s.dtxns.find x = none then some (TxChronos.notified site info)
    else s.dtxns.find x := by
  unfold notify
  split
  · next hnew =>
    show (s.dtxns.set _ _).find x = _
    rw [Dict.find_set]
    rcases eq_or_ne x info.txnId with rfl | hx
    · rw [if_pos rfl, if_pos ⟨rfl, hnew⟩]
    · rw [if_neg hx, if_neg fun h => hx h.1]
  · next hold =>
    rw [if_neg]
    rintro ⟨rfl, h⟩
    exact hold h

theorem notify_ran (info : ChrTxnInfo) : (notify site s info).ran = s.ran := by
  unfold notify
  split <;> rfl

theorem notify_maxTs (info : ChrTxnInfo) : (notify site s info).irSiteMaxTs = s.irSiteMaxTs := by
  unfold notify
  split <;> rfl

theorem foldl_notified (site : Site) : ∀ (infos : List ChrTxnInfo) (s : Sched),
    Notified site infos s (infos.foldl (notify site) s)
  | [], _ => ⟨rfl, rfl, fun _ _ h => h, fun _ _ h => .inl h⟩
  | info :: infos, s => by
    have ih := foldl_notified site infos (notify site s info)
    refine ⟨ih.ran.trans (notify_ran info), ih.maxTs.trans (notify_maxTs info), fun id d hd => ?_,
      fun id d' hd' => ?_⟩
    · refine ih.known id d ?_
      rw [notify_find, if_neg, hd]
      exact fun h => by cases h.2.symm.trans hd
    · rcases ih.records id d' hd' with h | ⟨hnone, info', hinfo', hid, hd'⟩
      · rw [notify_find] at h
        split at h
        · next hnew =>
          exact .inr ⟨hnew.2, info, mem_cons_self, hnew.1.symm, (some.inj h).symm⟩
        · exact .inl h
      · rw [notify_find] at hnone
        split at hnone
        · cases hnone
        · exact .inr ⟨hnone, info', mem_cons_of_mem _ hinfo', hid, hd'⟩

theorem foldl_unblock (x : ℕ) : ∀ (l : List (ChrTs × OrdSet ℕ)) (s : Sched),
    ∃ c w, l.foldl (unblock x) s = (s.setClock c).setWait w
  | [], s => ⟨s.clock, s.irSiteWaitTs, rfl⟩
  | e :: l, s => by
    obtain ⟨c, w, h⟩ := foldl_unblock x l (unblock x s e)
    refine ⟨c, w, h.trans ?_⟩
    unfold unblock
    split <;> rfl

theorem hear_eq (x : ℕ) (ts : ChrTs) (now : ℤ) (s : Sched) : ∃ c w,
    s.hear x ts now = ((s.setClock c).setMaxTs (s.irSiteMaxTs.set x
      (if s.maxTs x < ts then ts else s.maxTs x))).setWait w := by
  unfold hear
  split
  · obtain ⟨c, w, h⟩ := foldl_unblock x (s.irSiteWaitTs.entries.takeWhile fun e =>
      !decide (ts < e.1)) ((s.setClock (s.clock.catchUp ts now)).setMaxTs (s.irSiteMaxTs.set x ts))
    exact ⟨c, w, h⟩
  · exact ⟨s.clock, s.irSiteWaitTs, rfl⟩

theorem piggy_quiet (x : ℕ) (ts : ChrTs) (infos : List ChrTxnInfo) (now : ℤ) :
    Quiet site s (s.piggy site x ts infos now) := by
  have hn := foldl_notified site infos s
  obtain ⟨c, w, h⟩ := hear_eq x ts now (infos.foldl (notify site) s)
  refine ⟨?_, fun y hy => ?_, fun id hid => ?_, fun id d' hd' => ?_⟩
  · rw [piggy, h]
    exact hn.ran
  · rw [piggy, h]
    show (find (set _ x _) y).isSome
    rw [find_set]
    split
    · rfl
    · rw [hn.maxTs]
      exact hy
  · obtain ⟨d, hd⟩ := isSome_iff_exists.mp hid
    rw [piggy, h]
    exact isSome_iff_exists.mpr ⟨d, hn.known id d hd⟩
  · rw [piggy, h] at hd'
    rcases hn.records id d' hd' with h | ⟨hnone, info, -, -, rfl⟩
    · exact .inl h
    · refine .inr (.same ?_)
      rw [record, hnone]
      exact ⟨rfl, rfl, rfl, rfl, rfl⟩

/-! ### The other events, one by one -/

theorem prepareIRT_eq {cmds : List SimpleCommand} {ts : ChrTs}
    (h : s.prepareIRT site id cmds ts = some s') : (s.readyTxns.find ts).getD id = id ∧
      s' = (s.put id ((s.record site id).prepareIRT site cmds ts)).setReady ts id := by
  obtain ⟨⟨-, hready⟩, h⟩ := ite_none_right_eq_some.mp h
  exact ⟨hready, (some.inj h).symm⟩

theorem irtAck_eq {par x : ℕ} (h : s.irtAck site id par x = some s') : ∃ d,
    s.dtxns.find id = some d ∧ (d.chrPhase = .localCanExe ∧ s' = s ∨
      d.chrPhase ≠ .localCanExe ∧ s' = s.put id ((d.addAck par x).settle site)) := by
  obtain ⟨d, hd, rfl⟩ := map_eq_some_iff.mp h
  refine ⟨d, hd, ?_⟩
  split
  · next hphase => exact .inl ⟨hphase, rfl⟩
  · next hphase => exact .inr ⟨hphase, rfl⟩

theorem submitCRT_eq {cmdsByRegion : OrdMap ℕ Cmds} {now : ℤ}
    (h : s.submitCRT site id cmdsByRegion now = some s') : ∃ ids c ms,
      s' = (((s.setByMe ids).put id ((s.record site id).submitCRT site cmdsByRegion)).setClock
        c).send ms := by
  obtain ⟨-, h⟩ := ite_none_right_eq_some.mp h
  exact ⟨_, _, _, (some.inj h).symm⟩

/-- The status of a partition has changed, or been made. -/
structure Noted (par : ℕ) (d d' : TxChronos) : Prop extends Same d d' where
  acks : d'.distPartitionAcks = d.distPartitionAcks
  anticipated : d'.anticipatedTs = d.anticipatedTs
  known : ∀ p, (d.distPartitionStatus.find p).isSome → (d'.distPartitionStatus.find p).isSome
  status : ∀ p st, d'.distPartitionStatus.find p = some st →
    p = par ∨ d.distPartitionStatus.find p = some st

theorem noted_setStatus (d : TxChronos) (par : ℕ) (st : DistPartStatus) :
    Noted par d (d.setStatus par st) := by
  refine ⟨⟨rfl, rfl, rfl, rfl, rfl⟩, rfl, rfl, fun p hp => ?_, fun p st' hp => ?_⟩
  · rw [TxChronos.setStatus, find_set]
    split
    · rfl
    · exact hp
  · rw [TxChronos.setStatus, find_set] at hp
    split at hp
    · next heq => exact .inl heq
    · exact .inr hp

theorem noted_touchStatus (d : TxChronos) (par : ℕ) : Noted par d (d.touchStatus par) := by
  unfold TxChronos.touchStatus
  split
  · exact ⟨Same.refl d, rfl, rfl, fun _ h => h, fun _ _ h => .inr h⟩
  · exact noted_setStatus d par .notReceived

/-- A partition is prepared, and with the last one the transaction decided on. -/
inductive Advanced (id par : ℕ) (d : TxChronos) (s s' : Sched) : Prop
  | noted (d' : TxChronos) (kept : Noted par d d') (phase : d'.chrPhase = d.chrPhase)
      (eq : s' = s.put id d')
  | decided (d' : TxChronos) (kept : Noted par d d') (phase : d'.chrPhase = .distCanExe)
      (sent : d.chrPhase = .distRemoteSent) (ts : d'.ts = d.maxAnticipatedTs)
      (all : d'.remotePrepared = true) (free : s.readyTxns.find d'.ts = none) (c : Clock)
      (ms : List Msg) (eq : s' = (((s.setClock c).setReady d'.ts id).put id d').send ms)

theorem advance_advanced {par : ℕ} {now : ℤ} (h : s.advance site id par d now = some s') :
    Advanced id par d s s' := by
  have hnoted := noted_setStatus d par .remotePrepared
  unfold advance at h
  split at h
  · unfold checkRemotePrepared at h
    split at h
    · next hall =>
      obtain ⟨⟨hfree, hphase⟩, h⟩ := ite_none_right_eq_some.mp h
      obtain rfl := some.inj h
      exact .decided ((d.setStatus par .remotePrepared).decide
        (d.setStatus par .remotePrepared).maxAnticipatedTs)
          ⟨⟨rfl, rfl, rfl, rfl, rfl⟩, rfl, rfl, hnoted.known, hnoted.status⟩ rfl hphase rfl hall hfree
            _ _ rfl
    · exact .noted (d.setStatus par .remotePrepared) hnoted rfl (some.inj h).symm
  · have hphase : (d.touchStatus par).chrPhase = d.chrPhase := by
      unfold TxChronos.touchStatus
      split <;> rfl
    exact .noted (d.touchStatus par) (noted_touchStatus d par) hphase (some.inj h).symm

/-- A site has told the coordinator the timestamp that is anticipated in its region. -/
structure Reported (region : ℕ) (ts : ChrTs) (d d' : TxChronos) : Prop extends Same d d' where
  phase : d'.chrPhase = d.chrPhase
  anticipated : d'.anticipatedTs = d.anticipatedTs.set region ts
  status : d'.distPartitionStatus = d.distPartitionStatus

theorem reported_anticipate (d : TxChronos) (par x region : ℕ) (ts : ChrTs) :
    Reported region ts d ((d.addAck par x).anticipate region ts) :=
  ⟨⟨rfl, rfl, rfl, rfl, rfl⟩, rfl, rfl, rfl⟩

theorem mgrAck_eq (d : TxChronos) (par : ℕ) (b : Bool) :
    ∃ acked, d.mgrAck par b = { d with distShardMgrAcked := acked } := by
  cases b with
  | false => exact ⟨d.distShardMgrAcked, rfl⟩
  | true => exact ⟨_, rfl⟩

theorem reported_mgrAck (d : TxChronos) (par x region : ℕ) (ts : ChrTs) (b : Bool) :
    Reported region ts d (((d.addAck par x).anticipate region ts).mgrAck par b) := by
  obtain ⟨same, hphase, hant, hstatus⟩ := reported_anticipate d par x region ts
  obtain ⟨acked, heq⟩ := mgrAck_eq ((d.addAck par x).anticipate region ts) par b
  rw [heq]
  exact ⟨⟨same.1, same.2, same.3, same.4, same.5⟩, hphase, hant, hstatus⟩

theorem reported_own (d : TxChronos) (par x region : ℕ) (ts : ChrTs) :
    Reported region ts d ((((d.mgrAck par true).addAck par x).anticipate region ts).setTs ts) := by
  obtain ⟨acked, heq⟩ := mgrAck_eq d par true
  rw [heq]
  obtain ⟨same, hphase, hant, hstatus⟩ :=
    reported_anticipate { d with distShardMgrAcked := acked } par x region ts
  exact ⟨⟨same.1, same.2, same.3, same.4, same.5⟩, hphase, hant, hstatus⟩

theorem remotePrepared_eq {par x y : ℕ} {ts : ChrTs} {now : ℤ}
    (h : s.remotePrepared site id par x y ts now = some s') :
    ∃ d, Reported (par / site.nShardPerRegion) ts (s.record site id) d ∧
      (d.distPartitionAcks.find par).isSome ∧ Advanced id par d s s' := by
  obtain ⟨-, h⟩ := ite_none_right_eq_some.mp h
  refine ⟨_, reported_mgrAck _ par x _ ts _, ?_, advance_advanced h⟩
  have hacks : ((((s.record site id).addAck par x).anticipate (par / site.nShardPerRegion)
      ts).distPartitionAcks.find par).isSome := by
    show (((s.record site id).distPartitionAcks.set par _).find par).isSome
    rw [Dict.find_set_self]
    rfl
  unfold TxChronos.mgrAck
  split <;> exact hacks

/-- `OnPrepareCRT` finds the coordinator's record, another record, or none. -/
inductive Prepared (site : Site) (id : ℕ) (cmds : List SimpleCommand) (req : PrepareCRTReq)
    (s s' : Sched) : Prop
  | coordinator (d d' : TxChronos) (find : s.dtxns.find id = some d)
      (phase : d.chrPhase = .distRemoteSent)
      (reported : Reported (site.parId / site.nShardPerRegion) req.anticipatedTs d d')
      (advanced : Advanced id site.parId d' (s.hold req.anticipatedTs) s')
  | known (d : TxChronos) (find : s.dtxns.find id = some d) (phase : d.chrPhase ≠ .distRemoteSent)
      (eq : s' = s.put id (if d.inputReady = 1 then d.setInputReady req.inputReady else d))
  | new (find : s.dtxns.find id = none) (ms : List Msg)
      (eq : s' = (((s.hold req.anticipatedTs).put id ((s.record site id).prepareCRT cmds req)).setReady
        req.anticipatedTs id).send ms)

theorem prepareCRT_prepared {cmds : List SimpleCommand} {req : PrepareCRTReq} {now : ℤ}
    (h : s.prepareCRT site id cmds req now = some s') :
    s.readyTxns.find req.anticipatedTs = none ∧ Prepared site id cmds req s s' := by
  unfold prepareCRT at h
  obtain ⟨hverify, h⟩ := ite_none_left_eq_some.mp h
  rw [not_or, not_or, Bool.not_eq_true, isSome_eq_false_iff, isNone_iff_eq_none]
    at hverify
  refine ⟨hverify.2.2, ?_⟩
  split at h
  · next d hd =>
    split at h
    · next hphase =>
      exact .coordinator d _ hd hphase (reported_own d site.parId site.siteId _ _) (advance_advanced h)
    · next hphase => exact .known d hd hphase (some.inj h).symm
  · next hd => exact .new hd _ (some.inj h).symm

theorem distExe_eq {ts : ChrTs} (h : s.distExe site id ts = some s') :
    s.dtxns.find id = none ∧ s' = s.put id (s.record site id) ∨
    ∃ d c ms, s.dtxns.find id = some d ∧ (s.readyTxns.erase d.ts).find ts = none ∧
      s' = ((((s.setClock c).eraseReady d.ts).setReady ts id).put id
        ((d.decide ts).answer (d.regionHandler = site.siteId))).send ms := by
  unfold distExe at h
  split at h
  · next hd => exact .inl ⟨hd, (some.inj h).symm⟩
  · next d hd =>
    obtain ⟨hfree, h⟩ := ite_none_right_eq_some.mp h
    exact .inr ⟨d, _, _, hd, hfree, (some.inj h).symm⟩

theorem sendOutput_eq (site : Site) (id : ℕ) (values : Dict ℕ Value) (s : Sched) :
    s.dtxns.find id = none ∧ s.sendOutput site id values = s ∨
    ∃ d c ms, s.dtxns.find id = some d ∧ s.sendOutput site id values =
      (((s.setClock c).send ms).setNewInput true).put id (d.merge values) := by
  unfold sendOutput
  split
  · next hd => exact .inl ⟨hd, rfl⟩
  · next d hd => exact .inr ⟨d, _, _, hd, rfl⟩

theorem await_eq (ts : ChrTs) (touched : List ℕ) (s : Sched) :
    ∃ c w, s.await ts touched = (s.setClock c).setWait w := ⟨_, _, rfl⟩

theorem notiCommit_eq (ts : ChrTs) (wait : Option (ChrTs × List ℕ)) (s : Sched) :
    ∃ c w, s.notiCommit ts wait = (s.setClock c).setWait w := by
  cases wait with
  | none => exact ⟨_, _, rfl⟩
  | some w =>
    obtain ⟨c, w', h⟩ := await_eq w.1 w.2 ((s.release ts).setWait (s.irSiteWaitTs.erase ts))
    exact ⟨c, w', h⟩

theorem distExeAck_only {par : ℕ} {leads : Bool} {output : TxnOutput}
    (h : s.distExeAck site id par leads output = some s') :
    s' = s ∨ ∃ phase status, (phase = (s.record site id).chrPhase ∨ phase = .outputSent) ∧
      Only id (((s.record site id).addOutput output).close status phase) s s' := by
  unfold distExeAck at h
  split at h
  · exact .inl (some.inj h).symm
  · obtain ⟨-, h⟩ := ite_none_right_eq_some.mp h
    obtain ⟨phase, hphase, honly⟩ := checkSendOutputToClient_only h
    exact .inr ⟨phase, _, hphase, honly⟩

end Sched

/-! ### What an event is about -/

/-- The transaction an event is about. -/
def Event.subject : Event → Option ℕ
  | .handleIRT id _ _ => some id
  | .prepareIRT id _ _ => some id
  | .irtAck id _ _ => some id
  | .submitCRT id _ _ => some id
  | .remotePrepared id _ _ _ _ _ => some id
  | .prepareCRT id _ _ _ => some id
  | .distExe id _ => some id
  | .sendOutput id _ => some id
  | .distExeAck id _ _ _ => some id
  | .notiCRT id _ _ => some id
  | .piggy _ _ _ _ | .notiCommit _ _ | .tick _ | .check => none

/-- The transaction an event takes for one submitted here, acknowledged here, or over several
    regions. -/
def Event.claims : Event → Option ℕ
  | .handleIRT id _ _ => some id
  | .irtAck id _ _ => some id
  | .submitCRT id _ _ => some id
  | .remotePrepared id _ _ _ _ _ => some id
  | .prepareCRT id _ _ _ => some id
  | _ => none

theorem Event.subject_of_claims {id : ℕ} (e : Event) (h : e.claims = some id) : e.subject = some id := by
  cases e with
  | handleIRT | irtAck | submitCRT | remotePrepared | prepareCRT => exact h
  | _ => cases h

/-- The transaction whose pieces an event brings. -/
def Event.brings : Event → Option ℕ
  | .handleIRT id _ _ => some id
  | .prepareIRT id _ _ => some id
  | .submitCRT id _ _ => some id
  | .prepareCRT id _ _ _ => some id
  | _ => none

/-- The values an event brings for a transaction. -/
def Event.valuesFor (id : ℕ) : Event → List (ℕ × Value)
  | .sendOutput x values => if x = id then values.entries else []
  | _ => []

/-- The record of `x` is written, and only `x` entered anew in `ready_txns_`. -/
structure Wrote (x : ℕ) (d' : TxChronos) (s s' : Sched) : Prop where
  ran : s'.ran = s.ran
  maxTs : s'.irSiteMaxTs = s.irSiteMaxTs
  find : ∀ y, s'.dtxns.find y = if y = x then some d' else s.dtxns.find y
  ready : ∀ k y, s'.readyTxns.find k = some y → y = x ∨ s.readyTxns.find k = some y

/-- What an event other than `CheckExecutableTxns` does: it leaves the records as they are, writes the
    one it is about, or is a notification. -/
inductive Does (site : Site) (e : Event) (s s' : Sched) : Prop
  | idle (ran : s'.ran = s.ran) (maxTs : s'.irSiteMaxTs = s.irSiteMaxTs) (dtxns : s'.dtxns = s.dtxns)
      (ready : s'.readyTxns = s.readyTxns)
      (values : ∀ id, e.valuesFor id = [] ∨ s.dtxns.find id = none)
  | writes (x : ℕ) (d' : TxChronos) (subject : e.subject = some x) (wrote : Wrote x d' s s')
      (change : Change (s.record site x) d')
      (pieces : e.brings = some x ∨
        d'.pieces = (s.record site x).pieces.map fun c => c.offers (e.valuesFor x))
      (counts : e.claims = some x ∨ d'.distPartitionAcks = (s.record site x).distPartitionAcks ∧
        d'.anticipatedTs = (s.record site x).anticipatedTs)
  | notifies (remoteSite : ℕ) (remoteTs : ChrTs) (infos : List ChrTxnInfo) (now : ℤ)
      (event : e = .piggy remoteSite remoteTs infos now)
      (eq : s' = s.piggy site remoteSite remoteTs infos now)

section Step

variable {site : Site} {s s' t : Sched} {e : Event} {x : ℕ} {d d' : TxChronos} {ts : ChrTs}

theorem wrote_put (hran : s'.ran = s.ran) (hmax : s'.irSiteMaxTs = s.irSiteMaxTs)
    (hready : s'.readyTxns = s.readyTxns) (hdtxns : s'.dtxns = s.dtxns.set x d') :
    Wrote x d' s s' where
  ran := hran
  maxTs := hmax
  find y := by rw [hdtxns, Dict.find_set]
  ready _ _ h := .inr (hready ▸ h)

theorem wrote_enter (hran : s'.ran = s.ran) (hmax : s'.irSiteMaxTs = s.irSiteMaxTs)
    (hready : s'.readyTxns = s.readyTxns.set ts x) (hdtxns : s'.dtxns = s.dtxns.set x d') :
    Wrote x d' s s' where
  ran := hran
  maxTs := hmax
  find y := by rw [hdtxns, Dict.find_set]
  ready k y h := by
    rw [hready, find_set] at h
    split at h
    · exact .inl (some.inj h).symm
    · exact .inr h

theorem Does.same (hsub : e.subject = some x) (hw : Wrote x d' s s') (h : Same (s.record site x) d')
    (hvalues : e.valuesFor x = [])
    (hcounts : e.claims = some x ∨ d'.distPartitionAcks = (s.record site x).distPartitionAcks ∧
      d'.anticipatedTs = (s.record site x).anticipatedTs) : Does site e s s' := by
  refine .writes x d' hsub hw (.same h) (.inr ?_) hcounts
  rw [hvalues, h.pieces]
  exact (map_id _).symm

theorem Does.advanced {par : ℕ} (hsub : e.subject = some x) (hvalues : e.valuesFor x = [])
    (hclaims : e.claims = some x) (ht : t.ran = s.ran ∧ t.irSiteMaxTs = s.irSiteMaxTs ∧
      t.dtxns = s.dtxns ∧ t.readyTxns = s.readyTxns) (hd : Same (s.record site x) d)
    (h : Sched.Advanced x par d t s') : Does site e s s' := by
  obtain ⟨hran, hmax, hdtxns, hready⟩ := ht
  cases h with
  | noted d' kept phase eq =>
    subst eq
    exact .same hsub (wrote_put hran hmax hready (congrArg (Dict.set · x d') hdtxns))
      (hd.trans kept.toSame) hvalues (.inl hclaims)
  | decided d' kept phase sent ts all free c ms eq =>
    subst eq
    exact .same hsub (wrote_enter hran hmax (congrArg (set · d'.ts x) hready)
      (congrArg (Dict.set · x d') hdtxns)) (hd.trans kept.toSame) hvalues (.inl hclaims)

theorem step_does (he : e ≠ .check) (h : step site s e = some s') : Does site e s s' := by
  cases e with
  | handleIRT id cmdsByPar nows =>
    obtain ⟨cmds, ts, c, hnew, -, -, rfl⟩ := Sched.handleIRT_eq h
    refine .writes id _ rfl (wrote_enter rfl rfl rfl rfl)
      (.deliver cmds .handleIRT (fun h => by cases h) ?_) (.inl rfl) (.inl rfl)
    rw [Sched.record, hnew]
    exact ⟨rfl, rfl, rfl, rfl, rfl⟩
  | prepareIRT id cmds ts =>
    obtain ⟨-, rfl⟩ := Sched.prepareIRT_eq h
    exact .writes id _ rfl (wrote_enter rfl rfl rfl rfl)
      (.deliver cmds .prepareIRT (fun h => by cases h) ⟨rfl, rfl, rfl, rfl, rfl⟩) (.inl rfl)
        (.inr ⟨rfl, rfl⟩)
  | piggy remoteSite remoteTs notiTxns now =>
    exact .notifies remoteSite remoteTs notiTxns now rfl (some.inj h).symm
  | irtAck id par target =>
    obtain ⟨d, hd, ⟨-, rfl⟩ | ⟨-, rfl⟩⟩ := Sched.irtAck_eq h
    · exact .idle rfl rfl rfl rfl fun _ => .inl rfl
    · refine .same rfl (wrote_put rfl rfl rfl rfl) ?_ rfl (.inl rfl)
      rw [Sched.record_of_find hd]
      exact (same_addAck d par target).trans (same_settle _ site)
  | submitCRT id cmdsByRegion now =>
    obtain ⟨ids, c, ms, rfl⟩ := Sched.submitCRT_eq h
    exact .writes id _ rfl (wrote_put rfl rfl rfl rfl)
      (.deliver (ownPieces site cmdsByRegion) .submitCRT (fun h => by cases h)
        ⟨rfl, rfl, rfl, rfl, rfl⟩) (.inl rfl) (.inl rfl)
  | remotePrepared id par target shardManager anticipatedTs now =>
    obtain ⟨d, hd, -, hadv⟩ := Sched.remotePrepared_eq h
    exact .advanced rfl rfl rfl ⟨rfl, rfl, rfl, rfl⟩ hd.toSame hadv
  | prepareCRT id cmds req now =>
    obtain ⟨-, hprep⟩ := Sched.prepareCRT_prepared h
    cases hprep with
    | coordinator d d' find phase reported advanced =>
      exact .advanced (t := s.hold req.anticipatedTs) rfl rfl rfl ⟨rfl, rfl, rfl, rfl⟩
        (Sched.record_of_find find ▸ reported.toSame) advanced
    | known d find phase eq =>
      subst eq
      refine .same rfl (wrote_put rfl rfl rfl rfl) ?_ rfl (.inl rfl)
      rw [Sched.record_of_find find]
      split
      · exact ⟨rfl, rfl, rfl, rfl, rfl⟩
      · exact Same.refl d
    | new find ms eq =>
      subst eq
      exact .writes id _ rfl (wrote_enter rfl rfl rfl rfl)
        (.deliver cmds .prepareCRT (fun h => by cases h) ⟨rfl, rfl, rfl, rfl, rfl⟩) (.inl rfl)
          (.inl rfl)
  | distExe id decisionTs =>
    obtain ⟨-, rfl⟩ | ⟨d, c, ms, hd, -, rfl⟩ := Sched.distExe_eq h
    · exact .same rfl (wrote_put rfl rfl rfl rfl) (Same.refl _) rfl (.inr ⟨rfl, rfl⟩)
    · obtain ⟨o, ho⟩ := answer_frame (d.decide decisionTs) (d.regionHandler = site.siteId)
      rw [ho]
      refine .same rfl ⟨rfl, rfl, fun y => Dict.find_set _ _ y _, fun k y hk => ?_⟩ ?_ rfl (.inr ?_)
      · have hk : ((s.readyTxns.erase d.ts).set decisionTs id).find k = some y := hk
        rw [find_set, find_erase] at hk
        split at hk
        · exact .inl (some.inj hk).symm
        · exact .inr (ite_none_left_eq_some.mp hk).2
      · rw [Sched.record_of_find hd]
        exact ⟨rfl, rfl, rfl, rfl, rfl⟩
      · rw [Sched.record_of_find hd]
        exact ⟨rfl, rfl⟩
  | sendOutput id values =>
    obtain rfl := some.inj h
    obtain ⟨hnone, heq⟩ | ⟨d, c, ms, hd, heq⟩ := Sched.sendOutput_eq site id values s
    · rw [heq]
      refine .idle rfl rfl rfl rfl fun x => ?_
      rw [Event.valuesFor]
      split
      · next hx => exact .inr (hx ▸ hnone)
      · exact .inl rfl
    · rw [heq]
      refine .writes id (d.merge values) rfl (wrote_put rfl rfl rfl rfl) (.merge values ?_)
        (.inr ?_) (.inr ?_)
      · rw [Sched.record_of_find hd]
        exact Same.refl _
      · rw [Sched.record_of_find hd, Event.valuesFor, if_pos rfl, TxChronos.merge,
          mergeCheckReadyPieces_eq]
      · rw [Sched.record_of_find hd]
        exact ⟨rfl, rfl⟩
  | distExeAck id par leads output =>
    obtain rfl | ⟨phase, status, -, honly⟩ := Sched.distExeAck_only h
    · exact .idle rfl rfl rfl rfl fun _ => .inl rfl
    · exact .same rfl ⟨honly.ran, honly.maxTs, honly.find, fun _ _ h => .inr (honly.ready ▸ h)⟩
        ⟨rfl, rfl, rfl, rfl, rfl⟩ rfl (.inr ⟨rfl, rfl⟩)
  | notiCRT id anticipatedTs touched =>
    obtain ⟨-, h⟩ := ite_none_right_eq_some.mp h
    obtain rfl := some.inj h
    exact .idle rfl rfl rfl rfl fun _ => .inl rfl
  | notiCommit originalTs wait =>
    obtain ⟨c, w, heq⟩ := Sched.notiCommit_eq originalTs wait s
    obtain rfl := some.inj h
    rw [heq]
    exact .idle rfl rfl rfl rfl fun _ => .inl rfl
  | tick now =>
    obtain rfl := some.inj h
    exact .idle rfl rfl rfl rfl fun _ => .inl rfl
  | check => exact absurd rfl he

/-- Every event but `CheckExecutableTxns` is quiet. -/
theorem step_quiet (he : e ≠ .check) (h : step site s e = some s') : Quiet site s s' := by
  cases step_does he h with
  | idle ran maxTs dtxns ready values => exact Quiet.of_eq ran maxTs dtxns
  | writes x d' subject wrote change pieces counts =>
    refine ⟨wrote.ran, fun y hy => wrote.maxTs ▸ hy, fun y hy => ?_, fun y d hd => ?_⟩
    · rw [wrote.find]
      split
      · rfl
      · exact hy
    · rw [wrote.find] at hd
      split at hd
      · next hy => exact .inr (hy ▸ some.inj hd ▸ change)
      · exact .inl hd
  | notifies remoteSite remoteTs infos now event eq =>
    exact eq ▸ Sched.piggy_quiet remoteSite remoteTs infos now

end Step

/-! ### The records of any run -/

/-- No handler ever sets `commit_ts_`; the executed pieces are counted, and with a callback comes the
    number of pieces. -/
structure Sound (d : TxChronos) : Prop where
  commitTs : d.commitTs = {}
  counted : d.Counted
  nLocal : d.callback ≠ .unset → d.nLocalPieces = some d.pieces.length

section Sound

variable {site : Site} {d d' : TxChronos} {s s' : Sched} {e : Event}

theorem Sound.same (h : Sound d) (hs : Same d d') : Sound d' where
  commitTs := hs.commitTs.trans h.commitTs
  counted := by
    rw [TxChronos.Counted, hs.nExecutedPieces, hs.pieces]
    exact h.counted
  nLocal hset := by
    rw [hs.nLocalPieces, hs.pieces]
    exact h.nLocal (hs.callback ▸ hset)

theorem Sound.deliver (h : Sound d) (cmds : List SimpleCommand) (callback : Callback) :
    Sound (d.deliver cmds callback) where
  commitTs := h.commitTs
  counted := by
    show 0 = (cmds.map SimpleCommand.clear).countP fun c => c.localExecuted
    rw [countP_map]
    exact (countP_eq_zero.mpr fun _ _ => Bool.false_ne_true).symm
  nLocal _ := by
    show some cmds.length = some (cmds.map SimpleCommand.clear).length
    rw [length_map]

theorem Sound.merge (h : Sound d) (values : Dict ℕ Value) : Sound (d.merge values) := by
  have hpieces : (d.merge values).pieces = d.pieces.map fun c => c.offers values.entries := by
    rw [TxChronos.merge, mergeCheckReadyPieces_eq]
  refine ⟨h.commitTs, ?_, fun hset => ?_⟩
  · rw [TxChronos.Counted, hpieces, countP_map]
    refine h.counted.trans (congrArg (fun p => countP p d.pieces) (funext fun c => ?_))
    exact (localExecuted_offers c values.entries).symm
  · rw [hpieces, length_map]
    exact h.nLocal hset

theorem Sound.change (h : Sound d) (hc : Change d d') : Sound d' := by
  cases hc with
  | same hs => exact h.same hs
  | deliver cmds callback hset hs => exact (h.deliver cmds callback).same hs
  | merge values hs => exact (h.merge values).same hs

theorem Sound.kept (h : Sound d) (hk : Kept d d') : Sound d' where
  commitTs := hk.commitTs.trans h.commitTs
  counted := hk.counted h.counted
  nLocal hset := by
    rw [hk.nLocalPieces, ← hk.pieces.length_eq]
    exact h.nLocal (hk.callback ▸ hset)

/-- Every record of the scheduler is sound. -/
def AllSound (s : Sched) : Prop := ∀ id d, s.dtxns.find id = some d → Sound d

theorem AllSound.record (h : AllSound s) (id : ℕ) : Sound (s.record site id) := by
  unfold Sched.record
  cases hd : s.dtxns.find id with
  | none => exact ⟨rfl, rfl, fun h => absurd rfl h⟩
  | some d => exact h id d hd

theorem AllSound.since (h : AllSound s) (hs : Sched.Since s s') : AllSound s' := fun id d' hd' => by
  obtain ⟨d, hd, hk⟩ := hs.kept.find_rev hd'
  exact (h id d hd).kept hk.toKept

theorem check_since (h : s.check site = some s') : Sched.Since s s' := by
  obtain ⟨-, l, -, hsince, rfl⟩ := Sched.check_inv (J := fun _ _ => True) trivial
    (fun _ _ _ _ _ _ _ _ => trivial) h
  exact ⟨hsince.maxTs, hsince.kept⟩

theorem step_sound (h : AllSound s) (hs : step site s e = some s') : AllSound s' := by
  rcases Classical.em (e = .check) with rfl | he
  · exact h.since (check_since hs)
  · intro id d' hd'
    rcases (step_quiet he hs).records id d' hd' with hd | hchange
    · exact h id d' hd
    · exact (h.record id).change hchange

end Sound

end Fiss.Chronos
