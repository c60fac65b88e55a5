import Fiss.Chronos.Ready

/-! Transactions a site knows by name only: `HandlePiggyInfo` has entered them into `ready_txns_`, and
    their pieces are still to come. They are meant to block everything after them.

    The record of one is executable from the start and has the default callback, which does nothing;
    so the loop goes past it, and a site that is not the region handler removes it. -/

namespace Fiss.Chronos
open Fiss.Rcc List Option OrdMap

/-- A record as `HandlePiggyInfo` makes it: no pieces were delivered, and nobody acknowledges to
    it. -/
def TxChronos.Waits (d : TxChronos) : Prop :=
  d.callback = .unset ∧ d.chrPhase = .localCanExe ∧ d.distPartitionAcks.isEmpty = true

instance : DecidablePred TxChronos.Waits := fun _ => inferInstanceAs (Decidable (_ ∧ _ ∧ _))

/-- A transaction known by name stays ready. -/
def Stays (s : Sched) : Prop :=
  ∀ id d, s.dtxns.find id = some d → d.Waits → s.readyTxns.find d.ts = some id

/-- No transaction that stands after one known by name has been executed. -/
def First (s : Sched) : Prop :=
  ∀ r ∈ s.ran, (∀ d ∈ r.dtxns.find r.txn, d.callback ≠ .unset) →
    ∀ id d, r.dtxns.find id = some d → d.Waits → ¬ d.ts < r.key

/-- At or before each transaction known by name there is one that stops the loop. -/
def Held (s : Sched) : Prop :=
  ∀ w ∈ s.dtxns.entries, w.2.Waits → ∃ e ∈ s.readyTxns.entries, e.1 ≤ w.2.ts ∧
    ∃ d ∈ s.dtxns.find e.2, s.stops d = true

/-- No two of the transactions told of, and of those known by name, have one timestamp. -/
def Apart (s : Sched) (infos : List ChrTxnInfo) : Prop :=
  ∀ info ∈ infos, s.dtxns.find info.txnId = none →
    (∀ w ∈ s.dtxns.entries, w.2.Waits → w.2.ts ≠ info.ts) ∧
      ∀ info' ∈ infos, info'.ts = info.ts → info'.txnId = info.txnId

/-- The loop is held at what is known by name, and no other transaction takes its timestamp. -/
def Undisturbed (s : Sched) : Event → Prop
  | .check => Held s
  | .piggy _ _ infos _ => Apart s infos
  | .distExe id _ => ∀ d ∈ s.dtxns.find id, ∀ w ∈ s.dtxns.entries, w.2.Waits →
      w.2.ts = d.ts → w.1 = id
  | _ => True

instance (s : Sched) : (e : Event) → Decidable (Undisturbed s e)
  | .check => inferInstanceAs (Decidable (∀ w ∈ s.dtxns.entries, _))
  | .piggy _ _ infos _ => inferInstanceAs (Decidable (∀ info ∈ infos, _))
  | .distExe id _ => inferInstanceAs (Decidable (∀ d ∈ s.dtxns.find id, _))
  | .handleIRT .. | .prepareIRT .. | .irtAck .. | .submitCRT .. | .remotePrepared ..
  | .prepareCRT .. | .sendOutput .. | .distExeAck .. | .notiCRT .. | .notiCommit ..
  | .tick .. => isTrue trivial

section Stays

variable {site : Site} {s s' : Sched} {id : ℕ} {d d' : TxChronos} {ts : ChrTs}

theorem Stays.only (h : Stays s) (hs' : Sched.Only id d' s s') (hd' : d'.Waits → ∃ d,
    s.dtxns.find id = some d ∧ d.Waits ∧ d.ts = d'.ts) : Stays s' := by
  intro x d hd hw
  rw [hs'.find] at hd
  rw [hs'.ready]
  split at hd
  · next hx =>
    obtain rfl := some.inj hd
    obtain ⟨d0, hd0, hw0, hts⟩ := hd' hw
    rw [hx, ← hts]
    exact h id d0 hd0 hw0
  · exact h x d hd hw

theorem Stays.put (h : Stays s) (hd' : d'.Waits → ∃ d, s.dtxns.find id = some d ∧ d.Waits ∧
    d.ts = d'.ts) : Stays (s.put id d') := h.only (Sched.Only.put id d' s) hd'

theorem Stays.enter (h : Stays s) (hd' : ¬ d'.Waits) (hready : (s.readyTxns.find ts).getD id = id) :
    Stays ((s.put id d').setReady ts id) := by
  have hput : Stays (s.put id d') := h.put fun hw => absurd hw hd'
  intro x d hd hw
  have hx : s.readyTxns.find d.ts = some x := hput x d hd hw
  show (s.readyTxns.set ts id).find d.ts = some x
  rw [find_set]
  split
  · next heq =>
    rw [← heq, hx] at hready
    exact congrArg some hready.symm
  · exact hx

theorem Stays.move (h : Stays s) (hd' : ¬ d'.Waits) {old : ChrTs}
    (hold : ∀ x w, s.dtxns.find x = some w → w.Waits → w.ts = old → x = id)
    (hfree : (s.readyTxns.erase old).find ts = none) :
    Stays (((s.eraseReady old).setReady ts id).put id d') := by
  intro x w hx hw
  have hx' : (s.dtxns.set id d').find x = some w := hx
  rw [Dict.find_set] at hx'
  split at hx'
  · exact absurd (some.inj hx' ▸ hw) hd'
  · next hne =>
    have hready : (s.readyTxns.erase old).find w.ts = some x := by
      rw [find_erase, if_neg fun heq => hne (hold x w hx' hw heq)]
      exact h x w hx' hw
    show ((s.readyTxns.erase old).set ts id).find w.ts = some x
    rw [find_set, if_neg, hready]
    rintro rfl
    cases hfree.symm.trans hready

theorem Stays.notify {info : ChrTxnInfo} (h : Stays s) (hnew : s.dtxns.find info.txnId = none →
    ∀ x w, s.dtxns.find x = some w → w.Waits → w.ts ≠ info.ts) :
    Stays (Sched.notify site s info) := by
  unfold Sched.notify
  split
  · next hnone =>
    intro x w hx hw
    have hx : (s.dtxns.set info.txnId (TxChronos.notified site info)).find x = some w := hx
    show (s.readyTxns.set info.ts info.txnId).find w.ts = some x
    rw [Dict.find_set] at hx
    split at hx
    · next heq =>
      rw [← some.inj hx, heq]
      exact find_set_self _ _ _
    · rw [find_set_ne _ (hnew hnone x w hx hw)]
      exact h x w hx hw
  · exact h

theorem foldl_stays : ∀ (infos : List ChrTxnInfo) {s : Sched}, Stays s →
    (∀ info ∈ infos, s.dtxns.find info.txnId = none →
      (∀ x w, s.dtxns.find x = some w → w.Waits → w.ts ≠ info.ts) ∧
        ∀ info' ∈ infos, info'.ts = info.ts → info'.txnId = info.txnId) →
    Stays (infos.foldl (Sched.notify site) s)
  | [], _, h, _ => h
  | info :: infos, s, h, hapart => by
    refine foldl_stays infos
      (h.notify fun hnone => (hapart info mem_cons_self hnone).1) fun info' hinfo' hnone' => ?_
    rw [Sched.notify_find] at hnone'
    split at hnone'
    · cases hnone'
    · next hne =>
      obtain ⟨hold, hpair⟩ := hapart info' (mem_cons_of_mem _ hinfo') hnone'
      refine ⟨fun x w hx hw heq => ?_, fun i hi => hpair i (mem_cons_of_mem _ hi)⟩
      rw [Sched.notify_find] at hx
      split at hx
      · -- the one entered just now would have the timestamp of `info'`
        next hnew =>
        rw [← some.inj hx] at heq
        exact hne ⟨(hpair info mem_cons_self heq).symm, hnone'⟩
      · exact hold x w hx hw heq

theorem Kept.waits {d0 : TxChronos} (h : Kept d0 d) (hd : d.Waits) : d0.Waits := by
  obtain ⟨hunset, hphase, hacks⟩ := hd
  refine ⟨h.callback ▸ hunset, ?_, h.acks ▸ hacks⟩
  rcases h.phase with heq | heq
  · exact heq ▸ hphase
  · cases heq.symm.trans hphase

end Stays

section Events

variable {site : Site} {s s' : Sched} {e : Event}

theorem not_waits_of_set {d : TxChronos} (h : d.callback ≠ .unset) : ¬ d.Waits := fun hw => h hw.1

theorem not_waits_of_phase {d : TxChronos} (h : d.chrPhase ≠ .localCanExe) : ¬ d.Waits :=
  fun hw => h hw.2.1

theorem not_waits_of_acks {d : TxChronos} (par : ℕ) (h : (d.distPartitionAcks.find par).isSome) :
    ¬ d.Waits := fun hw => by
  rw [Dict.find_of_isEmpty hw.2.2] at h
  cases h

theorem Sched.Advanced.stays {t : Sched} {id par : ℕ} {d : TxChronos} (ht : Stays t)
    (hd : d.chrPhase ≠ .localCanExe ∨ ∃ par, (d.distPartitionAcks.find par).isSome)
    (h : Sched.Advanced id par d t s') : Stays s' := by
  cases h with
  | noted d' kept phase eq =>
    subst eq
    refine ht.put fun hw => absurd hw ?_
    rcases hd with hd | ⟨par, hd⟩
    · exact not_waits_of_phase (phase ▸ hd)
    · exact not_waits_of_acks par (kept.acks ▸ hd)
  | decided d' kept phase sent ts all free c ms eq =>
    subst eq
    have hphase : d'.chrPhase ≠ .localCanExe := fun h => by cases phase.symm.trans h
    have henter : Stays ((t.put id d').setReady d'.ts id) :=
      ht.enter (not_waits_of_phase hphase) (by rw [free]; rfl)
    exact henter

/-- Every event but `CheckExecutableTxns` leaves what is known by name ready. -/
theorem step_stays (he : e ≠ .check) (hs : Stays s) (hC : Undisturbed s e)
    (h : step site s e = some s') : Stays s' := by
  cases e with
  | handleIRT id cmdsByPar nows =>
    obtain ⟨cmds, ts, c, -, -, hfree, rfl⟩ := Sched.handleIRT_eq h
    exact hs.enter (not_waits_of_set fun h => by cases h) (by rw [hfree]; rfl)
  | prepareIRT id cmds ts =>
    obtain ⟨hready, rfl⟩ := Sched.prepareIRT_eq h
    exact hs.enter (not_waits_of_set fun h => by cases h) hready
  | piggy remoteSite remoteTs infos now =>
    obtain rfl := some.inj h
    obtain ⟨c, w, heq⟩ := Sched.hear_eq remoteSite remoteTs now (infos.foldl (Sched.notify site) s)
    rw [Sched.piggy, heq]
    refine foldl_stays infos hs fun info hinfo hnone => ?_
    obtain ⟨hold, hpair⟩ := hC info hinfo hnone
    exact ⟨fun x w hx hw => hold (x, w) (Dict.mem_entries_of_find hx) hw, hpair⟩
  | irtAck id par target =>
    obtain ⟨d, hd, ⟨-, rfl⟩ | ⟨-, rfl⟩⟩ := Sched.irtAck_eq h
    · exact hs
    · refine hs.put fun hw => absurd hw (not_waits_of_acks par ?_)
      rw [acks_settle, TxChronos.addAck, Dict.find_set_self]
      rfl
  | submitCRT id cmdsByRegion now =>
    obtain ⟨ids, c, ms, rfl⟩ := Sched.submitCRT_eq h
    exact hs.put fun hw => absurd hw (not_waits_of_set fun h => by cases h)
  | remotePrepared id par target shardManager anticipatedTs now =>
    obtain ⟨d, -, hacks, hadv⟩ := Sched.remotePrepared_eq h
    exact hadv.stays hs (.inr ⟨par, hacks⟩)
  | prepareCRT id cmds req now =>
    obtain ⟨hfree, hprep⟩ := Sched.prepareCRT_prepared h
    cases hprep with
    | coordinator d d' find phase reported advanced =>
      refine Sched.Advanced.stays (t := s.hold req.anticipatedTs) hs (.inl fun h => ?_) advanced
      cases phase.symm.trans (reported.phase.symm.trans h)
    | known d find phase eq =>
      subst eq
      refine hs.put ?_
      split
      · exact fun hw => ⟨d, find, hw, rfl⟩
      · exact fun hw => ⟨d, find, hw, rfl⟩
    | new find ms eq =>
      subst eq
      exact hs.enter (not_waits_of_set fun h => by cases h) (by rw [hfree]; rfl)
  | distExe id decisionTs =>
    obtain ⟨hnone, rfl⟩ | ⟨d, c, ms, hd, hfree, rfl⟩ := Sched.distExe_eq h
    · refine hs.put fun hw => absurd hw (not_waits_of_phase ?_)
      rw [Sched.record, hnone]
      exact fun h => by cases h
    · refine hs.move (not_waits_of_phase ?_) (fun x w hx hw heq => ?_) hfree
      · obtain ⟨o, ho⟩ := answer_frame (d.decide decisionTs) (d.regionHandler = site.siteId)
        rw [ho]
        exact fun h => by cases h
      · exact hC d hd (x, w) (Dict.mem_entries_of_find hx) hw heq
  | sendOutput id values =>
    obtain rfl := some.inj h
    obtain ⟨-, heq⟩ | ⟨d, c, ms, hd, heq⟩ := Sched.sendOutput_eq site id values s
    · rw [heq]
      exact hs
    · rw [heq]
      exact hs.put fun hw => ⟨d, hd, hw, rfl⟩
  | distExeAck id par leads output =>
    obtain rfl | ⟨phase, status, hphase, honly⟩ := Sched.distExeAck_only h
    · exact hs
    · refine hs.only honly fun hw => ?_
      have hphase' : (s.record site id).chrPhase = .localCanExe :=
        hphase.elim (fun heq => heq ▸ hw.2.1) fun heq => by cases heq.symm.trans hw.2.1
      cases hd : s.dtxns.find id with
      | none =>
        rw [Sched.record, hd] at hphase'
        cases hphase'
      | some d =>
        rw [Sched.record_of_find hd] at hw hphase' ⊢
        exact ⟨d, rfl, ⟨hw.1, hphase', hw.2.2⟩, rfl⟩
  | notiCRT id anticipatedTs touched =>
    obtain ⟨-, h⟩ := ite_none_right_eq_some.mp h
    obtain rfl := some.inj h
    exact hs
  | notiCommit originalTs wait =>
    obtain ⟨c, w, heq⟩ := Sched.notiCommit_eq originalTs wait s
    obtain rfl := some.inj h
    rw [heq]
    exact hs
  | tick now =>
    obtain rfl := some.inj h
    exact hs
  | check => exact absurd rfl he

end Events

section Check

variable {site : Site} {s : Sched} {done : List (ChrTs × ℕ)} {k : ChrTs} {id : ℕ} {d : TxChronos}
  {l l' : Sched.Loop}

/-- The loop of `CheckExecutableTxns`, called in `s`, has come past `done` and left what is known by
    name alone. -/
structure LeftAlone (s : Sched) (done : List (ChrTs × ℕ)) (l : Sched.Loop) : Prop where
  passed : ∀ e ∈ done, ∀ d ∈ s.dtxns.find e.2, s.stops d = false
  ready : ∀ x w, s.dtxns.find x = some w → w.Waits →
    l.sched.readyTxns.find w.ts = s.readyTxns.find w.ts
  first : First l.sched

theorem visit_below (hC : Held s) (hv : Sched.Visit site s done k id d l l') (hl : LeftAlone s done l)
    {x : ℕ} {w : TxChronos} (hx : s.dtxns.find x = some w) (hw : w.Waits) : k < w.ts := by
  obtain ⟨e, he, hle, d1, hd1, hstop⟩ := hC (x, w) (Dict.mem_entries_of_find hx) hw
  obtain ⟨rest, hentries⟩ := hv.entries
  have hsorted := s.readyTxns.sorted
  rw [hentries] at he hsorted
  rcases mem_append.mp he with he | he
  · cases (hl.passed e he d1 hd1).symm.trans hstop
  · rcases mem_cons.mp he with rfl | he
    · obtain ⟨d0, hd0, -, hpass⟩ := hv.first
      obtain rfl : d0 = d1 := some.inj (hd0.symm.trans hd1)
      cases hpass.symm.trans hstop
    · have hlt : k < e.1 := (pairwise_cons.mp (pairwise_append.mp hsorted).2.1).1 e he
      exact lt_of_lt_of_le hlt hle

theorem visit_leftAlone (hC : Held s) (hv : Sched.Visit site s done k id d l l')
    (hl : LeftAlone s done l) : LeftAlone s (done ++ [(k, id)]) l' := by
  have hbelow := fun x w => visit_below hC hv hl (x := x) (w := w)
  have hpassed : ∀ e ∈ done ++ [(k, id)], ∀ d ∈ s.dtxns.find e.2, s.stops d = false := by
    intro e he d1 hd1
    rcases mem_append.mp he with he | he
    · exact hl.passed e he d1 hd1
    · obtain rfl := mem_singleton.mp he
      obtain ⟨d0, hd0, -, hpass⟩ := hv.first
      exact some.inj (hd0.symm.trans hd1) ▸ hpass
  cases hv.visited with
  | skip sched pending => exact ⟨hpassed, sched ▸ hl.ready, sched ▸ hl.first⟩
  | call d' removed called ready =>
    refine ⟨hpassed, fun x w hx hw => ?_, fun r hr hset x w hx hw => ?_⟩
    · rw [ready, ← hl.ready x w hx hw]
      split
      · rw [find_erase, if_neg (hbelow x w hx hw).ne']
      · rfl
    · rw [called.ran] at hr
      rcases mem_append.mp hr with hr | hr
      · exact hl.first r hr hset x w hx hw
      · obtain rfl := mem_singleton.mp hr
        obtain ⟨w0, hw0, hk⟩ := hv.since.kept.find_rev hx
        rw [hk.ts]
        exact (hbelow x w0 hw0 (hk.waits hw)).le.not_gt

theorem check_blocks {s' : Sched} (hC : Held s) (hstays : Stays s) (hfirst : First s)
    (h : s.check site = some s') : Stays s' ∧ First s' := by
  obtain ⟨done, l, hl, hsince, rfl⟩ := Sched.check_inv (J := LeftAlone s)
    ⟨forall_mem_nil _, fun _ _ _ _ => rfl, hfirst⟩
    (fun _ _ _ _ _ _ hv hl => visit_leftAlone hC hv hl) h
  refine ⟨fun x w hx hw => ?_, hl.first⟩
  obtain ⟨w0, hw0, hk⟩ := hsince.kept.find_rev hx
  have hready := hl.ready x w0 hw0 (hk.waits hw)
  rw [← hk.ts] at hready
  exact hready.trans (hk.ts ▸ hstays x w0 hw0 (hk.waits hw))

end Check

/-- What is known by name blocks: it stays ready, and nothing after it is executed. -/
structure Blocks (s : Sched) : Prop where
  stays : Stays s
  first : First s

/-- In every undisturbed run what is known by name blocks. -/
theorem blocks_of_undisturbed {site : Site} {offset : ℤ} {es : List Event}
    (h : Along (step site) Undisturbed (newSched site offset) es) :
    Throughout (step site) Blocks (newSched site offset) es := by
  refine throughout_of_inv (fun s e s' hs hC h => ?_) ?_ h
  · rcases Classical.em (e = .check) with rfl | he
    · obtain ⟨hstays, hfirst⟩ := check_blocks hC hs.stays hs.first h
      exact ⟨hstays, hfirst⟩
    · refine ⟨step_stays he hs.stays hC h, fun r hr => ?_⟩
      rw [(step_quiet he h).ran] at hr
      exact hs.first r hr
  · exact ⟨fun _ _ h => (by cases h), forall_mem_nil _⟩

/-- Site 0 tells of a transaction of timestamp 9; its pieces come while site 2 has not been heard
    of. -/
def namedRun : List Event :=
  [.piggy 0 ⟨10, 10, 0⟩ [⟨8, ⟨9, 9, 0⟩, 0⟩] 10, .check, .prepareIRT 8 [plainPiece] ⟨9, 9, 0⟩,
    .piggy 0 ⟨12, 12, 0⟩ [] 12, .check, .tick 13, .piggy 2 ⟨20, 20, 2⟩ [] 20, .check]

theorem blocks_of_undisturbed_run : (run (step threeSite) (newSched threeSite 0) namedRun).map
      (fun s => s.ran.map fun r => (r.txn, r.removed)) = some [(8, true)] ∧
    Throughout (step threeSite) Blocks (newSched threeSite 0) namedRun :=
  ⟨by decide, blocks_of_undisturbed (by decide)⟩

/-- Site 0 tells of transaction 8 of timestamp 9 and sends 9 of timestamp 12; when site 2 has told 20,
    8 is removed before its pieces have come, and 9 is executed. -/
theorem named_passed_run : ∃ s', run (handle threeSite) (newSched threeSite 0)
    [.irSync 0 ⟨10, 10, 0⟩ [⟨8, ⟨9, 9, 0⟩, 0⟩] 10, .prepareIRT 9 [plainPiece] ⟨12, 12, 0⟩ [] 12 13,
      .irSync 2 ⟨20, 20, 2⟩ [] 20] = some s' ∧ ¬ Stays s' ∧ ¬ First s' := by
  have h : (run (handle threeSite) (newSched threeSite 0)
      [.irSync 0 ⟨10, 10, 0⟩ [⟨8, ⟨9, 9, 0⟩, 0⟩] 10, .prepareIRT 9 [plainPiece] ⟨12, 12, 0⟩ [] 12 13,
        .irSync 2 ⟨20, 20, 2⟩ [] 20]).map (fun s => decide (
          (∃ d ∈ s.dtxns.find 8, d.Waits ∧ s.readyTxns.find d.ts = none) ∧
          ∃ r ∈ s.ran, (∀ d ∈ r.dtxns.find r.txn, d.callback ≠ .unset) ∧
            ∃ d ∈ r.dtxns.find 8, d.Waits ∧ d.ts < r.key)) = some true := by decide
  obtain ⟨s', hs', hw⟩ := map_eq_some_iff.mp h
  obtain ⟨⟨d, hd, hwaits, hgone⟩, r, hr, hset, w, hw, hwaits', hlt⟩ := of_decide_eq_true hw
  refine ⟨s', hs', fun hstays => ?_, fun hfirst => hfirst r hr hset 8 w hw hwaits' hlt⟩
  cases hgone.symm.trans (hstays 8 d hd hwaits)

end Fiss.Chronos
