import Fiss.Classic.Coord

/-! What the two-phase-commit coordinator decides, over whole runs of its attempts with the
    acknowledgements in any order, those of earlier phases and attempts among them. Each request is
    answered once at most, and a dispatch with outputs of the pieces it asked for.

    The invariant says of the phase an attempt is in what the answers to its requests were, as far as
    nothing was rejected (`Dispatching`, `Preparing`), and of the decisions so far what they rest on
    (`Logged`). -/

namespace Fiss.Classic.ClassicCoord
open List Prod Bool Nat Request
open Ledger (mem_all_send mem_all_answer mem_all_of_outstanding mem_all_of_answered)

variable {τ O : Type} {r : Request}

/-- What a commit rests on: the partitions of the attempt's dispatches have all answered the prepare
    with success, and no dispatch and no prepare was rejected. -/
structure Acknowledged (f : Finish) : Prop where
  known : ∀ r ∈ f.ledger.all, r.kind = .dispatch → r.txn = f.txn →
    r.par ∈ f.pars ∧ (r, Res.success) ∈ f.ledger.answered
  prepared : ∀ par ∈ f.pars, ∃ r : Request, r.kind = .prepare ∧ r.txn = f.txn ∧ r.par = par ∧
    (r, Res.success) ∈ f.ledger.answered
  unrejected : ∀ e ∈ f.ledger.answered, e.1.txn = f.txn →
    e.1.kind = .dispatch ∨ e.1.kind = .prepare → e.2 = .success

/-- The decisions so far, all of attempts before `next`. -/
abbrev Logged : List Finish → ℕ → Prop :=
  Decided Finish.txn fun f => f.commit = true → Acknowledged f

/-- The current phase of the current attempt. -/
def now (c : ClassicCoord τ) : Stamp := ⟨c.txnId, rank (phaseOf c.phase), c.phase⟩

/-- An attempt that is not decided. -/
structure Running (c : ClassicCoord τ) : Prop where
  ordered : Ordered stamp c.now c.ledger
  fresh : ∀ r ∈ c.ledger.all, r.txn < c.nextTxnId
  lt : c.txnId < c.nextTxnId
  logged : Logged c.log c.txnId
  known : ∀ r ∈ c.ledger.all, r.kind = .dispatch → r.txn = c.txnId → r.par ∈ c.partitionIds
  committed : c.committed = false
  flag : c.aborted = true → c.commit = false
  accepted : c.aborted = false → ∀ e ∈ c.ledger.answered, e.1.txn = c.txnId → e.2 = .success

/-- Pieces are out. -/
structure Dispatching (T : TxnLogic τ O) (c : ClassicCoord τ) : Prop where
  gone : ∀ r ∈ c.ledger.all, r.stamp = c.now → r.pieces ≠ [] ∧ ∀ i ∈ r.pieces, i ∈ T.gone c.cmd
  apart : ∀ r ∈ c.ledger.all, ∀ r' ∈ c.ledger.all, r.stamp = c.now → r'.stamp = c.now →
    ∀ i ∈ r.pieces, i ∈ r'.pieces → r = r'
  waiting : ∀ r ∈ c.ledger.outstanding, r.stamp = c.now →
    ∀ i ∈ r.pieces, c.dispatchAcks.find i = some false
  votes : c.nPrepareAck = 0

/-- The partitions are asked for their votes. -/
structure Preparing (c : ClassicCoord τ) : Prop where
  dispatched : ∀ r ∈ c.ledger.all, r.kind = .dispatch → r.txn = c.txnId →
    (r, Res.success) ∈ c.ledger.answered
  polled : ∀ par ∈ c.partitionIds, ⟨.prepare, c.txnId, c.phase, par, []⟩ ∈ c.ledger.all
  total : asked stamp c.now c.ledger = c.partitionIds.elems.length
  count : c.nPrepareAck = heard stamp c.now c.ledger

/-- The coordinator is between transactions, or waits for the answers of a phase. -/
inductive Inv (T : TxnLogic τ O) (c : ClassicCoord τ) : Prop
  | idle (phase : phaseOf c.phase = .initEnd) (ordered : Ordered stamp c.now c.ledger)
      (fresh : ∀ r ∈ c.ledger.all, r.txn < c.nextTxnId) (logged : Logged c.log c.nextTxnId)
  | dispatching (phase : phaseOf c.phase = .dispatch) (running : Running c) (h : Dispatching T c)
  | preparing (phase : phaseOf c.phase = .prepare) (running : Running c) (h : Preparing c)

/-- A handler keeps the invariant, or stops at a check other than the one of the commit flags. -/
def Safe (T : TxnLogic τ O) : Checked τ → Prop
  | .ok c => Inv T c
  | .error v => v = .other

/-! ### Phase numbers and decisions -/

theorem phaseOf_succ (n : ℕ) : phaseOf (n + 1) =
    match phaseOf n with
    | .initEnd => .dispatch
    | .dispatch => .prepare
    | .prepare => .commit
    | .commit => .initEnd := by
  have hlt : n % 4 < 4 := mod_lt n (by decide)
  rw [phaseOf, phaseOf, add_mod]
  interval_cases n % 4 <;> rfl

theorem rank_inj {p q : Phase} (h : rank p = rank q) : p = q := by
  cases p <;> cases q <;> first | rfl | cases h

section Phases

variable {T : TxnLogic τ O} {maxRetry : ℤ} {c : ClassicCoord τ} {fuel : ℕ}
  {batches : List (ℕ × List ℕ)}

/-! ### Dispatch -/

theorem mem_dispatches :
    r ∈ c.dispatches batches ↔ r.kind = .dispatch ∧ r.txn = c.txnId ∧ r.phase = c.phase ∧
      (r.par, r.pieces) ∈ batches := by
  rw [dispatches, mem_map]
  constructor
  · rintro ⟨b, hb, rfl⟩
    exact ⟨rfl, rfl, rfl, hb⟩
  · rintro ⟨hkind, htxn, hphase, hb⟩
    refine ⟨_, hb, ?_⟩
    rw [← hkind, ← htxn, ← hphase]

theorem batches_apart (hnodup : (batches.flatMap snd).Nodup) :
    ∀ b ∈ batches, ∀ b' ∈ batches, ∀ i ∈ b.2, i ∈ b'.2 → b = b' := by
  have hpairs : batches.Pairwise fun b b' => ∀ i ∈ b.2, i ∈ b'.2 → b = b' :=
    (nodup_flatMap.mp hnodup).2.imp fun hd _ hi hi' => (hd hi hi').elim
  have : Std.Symm fun b b' : ℕ × List ℕ => ∀ i ∈ b.2, i ∈ b'.2 → b = b' :=
    ⟨fun _ _ h i hi hi' => (h i hi' hi).symm⟩
  exact hpairs.forall_of_forall fun _ _ _ _ _ => rfl

theorem nodup_batches (hnodup : (batches.flatMap snd).Nodup)
    (hne : ∀ b ∈ batches, b.2 ≠ []) : batches.Nodup := by
  refine (nodup_flatMap.mp hnodup).2.imp_of_mem fun {a b} ha _ hdisjoint heq => ?_
  obtain ⟨i, hi⟩ := exists_mem_of_ne_nil a.2 (hne a ha)
  exact hdisjoint hi (heq ▸ hi)

/-- `Dispatch` sends pieces that were not sent before. -/
theorem Dispatching.dispatch (h : Dispatching T c) (hrun : Running c)
    (hphase : phaseOf c.phase = .dispatch) : Safe T (dispatch T c) := by
  rw [ClassicCoord.dispatch, Coordinator.dispatch]
  cases hready : T.getReadyCmds c.cmd with
  | none => rfl
  | some r =>
    obtain ⟨batches, cmd⟩ := r
    obtain ⟨hgone, hne⟩ := T.gone_getReadyCmds hready
    have hnodup := T.nodup_gone cmd
    rw [hgone, nodup_append] at hnodup
    obtain ⟨-, hbatches, hnew⟩ := hnodup
    have hstamp : ∀ r ∈ c.dispatches batches, r.stamp = c.now := by
      intro r hr
      obtain ⟨hkind, htxn, hnum, -⟩ := mem_dispatches.mp hr
      rw [stamp, now, hkind, htxn, hnum, hphase]
    -- a piece of a new batch is in no request that was sent
    have hold : ∀ r ∈ c.ledger.all, r.stamp = c.now → ∀ r' ∈ c.dispatches batches,
        ∀ i ∈ r.pieces, i ∉ r'.pieces := by
      intro r hr hs r' hr' i hi hi'
      obtain ⟨-, -, -, hmem⟩ := mem_dispatches.mp hr'
      exact hnew i ((h.gone r hr hs).2 i hi) i (mem_flatMap.mpr ⟨_, hmem, hi'⟩) rfl
    have hfresh : ∀ r ∈ c.dispatches batches, r ∉ c.ledger.all := by
      intro r hr hall
      obtain ⟨i, hi⟩ := exists_mem_of_ne_nil r.pieces (h.gone r hall (hstamp r hr)).1
      exact hold r hall (hstamp r hr) r hr i hi hi
    have hreqs : (c.dispatches batches).Nodup := by
      refine List.Nodup.map_on (fun a _ b _ hab => ?_) (nodup_batches hbatches hne)
      obtain ⟨-, -, -, h1, h2⟩ := Request.mk.inj hab
      exact Prod.ext h1 h2
    refine Inv.dispatching hphase ⟨hrun.ordered.send hreqs hfresh hstamp, fun r hr => ?_, hrun.lt,
      hrun.logged, fun r hr hkind htxn => ?_, hrun.committed, hrun.flag, hrun.accepted⟩
      ⟨fun r hr hs => ?_, fun r hr r' hr' hs hs' i hi hi' => ?_, fun r hr hs i hi => ?_,
        h.votes⟩
    · rcases mem_all_send.mp hr with hr | hr
      · exact hrun.fresh r hr
      · rw [(mem_dispatches.mp hr).2.1]
        exact hrun.lt
    · refine OrdSet.mem_foldl_insert.mpr ?_
      rcases mem_all_send.mp hr with hr | hr
      · exact .inl (hrun.known r hr hkind htxn)
      · exact .inr (mem_map.mpr ⟨_, (mem_dispatches.mp hr).2.2.2, rfl⟩)
    · show r.pieces ≠ [] ∧ ∀ i ∈ r.pieces, i ∈ T.gone cmd
      rw [hgone]
      rcases mem_all_send.mp hr with hr | hr
      · exact ⟨(h.gone r hr hs).1, fun i hi => mem_append_left _ ((h.gone r hr hs).2 i hi)⟩
      · have hmem := (mem_dispatches.mp hr).2.2.2
        exact ⟨hne _ hmem, fun i hi =>
          mem_append_right _ (mem_flatMap.mpr ⟨_, hmem, hi⟩)⟩
    · rcases mem_all_send.mp hr with hr | hr <;> rcases mem_all_send.mp hr' with hr' | hr'
      · exact h.apart r hr r' hr' hs hs' i hi hi'
      · exact absurd hi' (hold r hr hs r' hr' i hi)
      · exact absurd hi (hold r' hr' hs' r hr i hi')
      · obtain ⟨h1, h2, h3, hmem⟩ := mem_dispatches.mp hr
        obtain ⟨g1, g2, g3, hmem'⟩ := mem_dispatches.mp hr'
        obtain ⟨h4, h5⟩ := Prod.mk.inj (batches_apart hbatches _ hmem _ hmem' i hi hi')
        cases r
        cases r'
        simp_all
    · show ((batches.flatMap snd).foldl (fun m i => m.set i false) c.dispatchAcks).find i = _
      rw [OrdMap.find_foldl_set]
      split
      · rfl
      · next hi' =>
        rcases mem_append.mp hr with hr | hr
        · exact h.waiting r hr hs i hi
        · exact absurd (mem_flatMap.mpr ⟨_, (mem_dispatches.mp hr).2.2.2, hi⟩) hi'

theorem start_safe (hphase : phaseOf c.phase = .initEnd) (hnodup : c.ledger.all.Nodup)
    (hbefore : ∀ r ∈ c.ledger.all, r.txn < c.txnId ∧ r.phase ≤ c.phase)
    (hlt : c.txnId < c.nextTxnId) (hlogged : Logged c.log c.txnId) (hcommitted : c.committed = false)
    (haborted : c.aborted = false) (hvotes : c.nPrepareAck = 0) :
    Safe T (gotoNextPhase T maxRetry (fuel + 1) c) := by
  have hphase' : phaseOf (c.phase + 1) = .dispatch := by rw [phaseOf_succ, hphase]
  have hold : ∀ r ∈ c.ledger.all, (c.advance 1).now.Before r.stamp := fun r hr =>
    ⟨lt_succ_of_le (hbefore r hr).2, .inl (hbefore r hr).1⟩
  have hnone : ∀ r ∈ c.ledger.all, r.txn ≠ c.txnId := fun r hr => (hbefore r hr).1.ne
  have hsafe : Safe T (dispatch T (c.advance 1)) := by
    refine Dispatching.dispatch ⟨fun r hr hs => ?_, fun r hr r' _ hs => ?_, fun r hr hs => ?_,
        hvotes⟩ ⟨.of_before hnodup hold, fun r hr => (hbefore r hr).1.trans hlt, hlt, hlogged,
        fun r hr _ htxn => absurd htxn (hnone r hr), hcommitted, fun ha => ?_, fun _ e he htxn => ?_⟩
      hphase'
    · exact absurd hs (hold r hr).ne
    · exact absurd hs (hold r hr).ne
    · exact absurd hs (hold r (mem_all_of_outstanding hr)).ne
    · exact Bool.noConfusion (haborted.symm.trans ha)
    · exact absurd htxn (hnone e.1 (mem_all_of_answered he))
  rw [gotoNextPhase, hphase]
  show Safe T ((dispatch T (c.advance 1)).bind (expect .dispatch .ok))
  cases hd : dispatch T (c.advance 1) with
  | error v =>
    rw [hd] at hsafe
    exact hsafe
  | ok c' =>
    rw [hd] at hsafe
    show Safe T (expect .dispatch .ok c')
    have hsame : c'.phase = c.phase + 1 := by
      simp only [dispatch, Coordinator.dispatch] at hd
      cases hready : T.getReadyCmds (c.advance 1).cmd with
      | none => rw [hready] at hd; cases hd
      | some r => rw [hready] at hd; cases hd; rfl
    rw [expect, hsame, if_pos hphase']
    exact hsafe

/-! ### Decisions -/

theorem mem_requests {kind : Phase} : r ∈ c.requests kind ↔
    r.par ∈ c.partitionIds ∧ r = ⟨kind, c.txnId, c.phase, r.par, []⟩ := by
  rw [requests, mem_map]
  constructor
  · rintro ⟨par, hpar, rfl⟩
    exact ⟨hpar, rfl⟩
  · rintro ⟨hpar, hr⟩
    exact ⟨r.par, hpar, hr.symm⟩

theorem nodup_requests (kind : Phase) (c : ClassicCoord τ) : (c.requests kind).Nodup :=
  List.Nodup.map_on (fun _ _ _ _ hab => (Request.mk.inj hab).2.2.2.1)
    (c.partitionIds.sorted.imp fun h => h.ne)

theorem stamp_requests {kind : Phase} (hphase : phaseOf c.phase = kind)
    (hr : r ∈ c.requests kind) : r.stamp = c.now := by
  rw [(mem_requests.mp hr).2, now, hphase]
  rfl

theorem before_advance {n : ℕ} (h : Ordered stamp c.now c.ledger) (hn : 0 < n)
    (hrank : rank (phaseOf c.phase) < rank (phaseOf (c.phase + n))) :
    ∀ r ∈ c.ledger.all, (c.advance n).now.Before r.stamp :=
  h.later ⟨Nat.lt_add_of_pos_right hn, .inr ⟨rfl, hrank⟩⟩

theorem decided_safe (hphase : phaseOf c.phase = .commit) (hordered : Ordered stamp c.now c.ledger)
    (hfresh : ∀ r ∈ c.ledger.all, r.txn < c.nextTxnId) (hlogged : Logged c.log c.nextTxnId)
    (hresult : c.committed = false → c.aborted = true) :
    Safe T (gotoNextPhase T maxRetry (fuel + 2) c) := by
  have hphase' : phaseOf (c.phase + 1) = .initEnd := by rw [phaseOf_succ, hphase]
  have hbefore := before_advance hordered one_pos (by rw [hphase, hphase']; decide)
  rw [gotoNextPhase, hphase]
  refine (congrArg (Safe T) (if_pos hphase')).mpr ?_
  show Safe T (if c.committed then _ else if c.aborted then _ else _)
  cases hc : c.committed with
  | true =>
    have hend : (c.advance 1).endTxn = .ok { c.advance 1 with reply := .success } := if_pos hc
    rw [if_pos rfl, hend]
    exact .idle hphase' (.of_before hordered.nodup hbefore) hfresh hlogged
  | false =>
    have ha := hresult hc
    rw [if_neg Bool.false_ne_true, if_pos ha, restart, if_pos (show (c.advance 1).aborted = true from ha)]
    split
    · have hend : (c.advance 1).retry.endTxn = .ok { (c.advance 1).retry with reply := .reject } := by
        rw [endTxn, if_neg, if_pos]
        · exact ha
        · exact eq_false_iff.mp hc
      rw [hend]
      refine .idle hphase' ⟨hordered.nodup, fun r hr => .inl ⟨(hbefore r hr).1, .inl ?_⟩⟩
        (fun r hr => (hfresh r hr).trans (lt_succ_self _)) (hlogged.mono (le_succ _))
      exact hfresh r hr
    · refine start_safe hphase' hordered.nodup (fun r hr => ⟨hfresh r hr, ?_⟩) (lt_succ_self _)
        hlogged rfl rfl rfl
      exact (hbefore r hr).1.le

theorem commitTxn_safe (hphase : phaseOf c.phase = .commit) (hnodup : c.ledger.all.Nodup)
    (hbefore : ∀ r ∈ c.ledger.all, c.now.Before r.stamp)
    (hfresh : ∀ r ∈ c.ledger.all, r.txn < c.nextTxnId) (hlt : c.txnId < c.nextTxnId)
    (hlogged : Logged c.log c.txnId) (hflag : c.commit = c.committed)
    (hresult : c.committed = false → c.aborted = true)
    (hack : c.committed = true → Acknowledged ⟨true, c.txnId, c.partitionIds, c.ledger⟩) :
    Safe T (commitTxn (gotoNextPhase T maxRetry (fuel + 2)) c) := by
  have hnew : ∀ r ∈ c.requests .commit, r ∉ c.ledger.all := fun r hr hall =>
    (hbefore r hall).ne (stamp_requests hphase hr)
  have hnext : ∀ b, (b = true → Acknowledged ⟨b, c.txnId, c.partitionIds, c.ledger⟩) →
      Safe T (gotoNextPhase T maxRetry (fuel + 2) (c.finish b)) := by
    intro b hb
    refine decided_safe hphase ((Ordered.of_before hnodup hbefore).send (nodup_requests _ c) hnew
      fun r hr => stamp_requests hphase hr) (fun r hr => ?_)
      (hlogged.concat hb hlt rfl) hresult
    rcases mem_all_send.mp hr with hr | hr
    · exact hfresh r hr
    · rw [(mem_requests.mp hr).2]
      exact hlt
  rw [commitTxn, if_pos hflag]
  cases hc : c.committed with
  | true =>
    rw [if_pos rfl]
    exact hnext true fun _ => hack hc
  | false =>
    rw [if_neg Bool.false_ne_true, if_pos (hresult hc)]
    exact hnext false fun h => by cases h

theorem Running.abort (h : Running c) {n : ℕ} (hn : 0 < n) (hphase : phaseOf (c.phase + n) = .commit)
    (hrank : rank (phaseOf c.phase) < 3) (ha : c.aborted = true) :
    Safe T (commitTxn (gotoNextPhase T maxRetry (fuel + 2)) (c.advance n)) := by
  refine commitTxn_safe hphase h.ordered.nodup (before_advance h.ordered hn ?_) h.fresh h.lt
    h.logged ?_ (fun _ => ha) fun hc => ?_
  · rw [hphase]
    exact hrank
  · exact (h.flag ha).trans h.committed.symm
  · exact Bool.noConfusion (h.committed.symm.trans hc)

/-- The whole transaction is out and answered: the partitions are asked. -/
theorem Running.prepare (h : Running c) (hphase : phaseOf c.phase = .dispatch)
    (ha : c.aborted = false) (hvotes : c.nPrepareAck = 0)
    (hall : ∀ r ∈ c.ledger.all, r.stamp = c.now → ∃ res, (r, res) ∈ c.ledger.answered) :
    Safe T (gotoNextPhase T maxRetry (fuel + 1) c) := by
  have hphase' : phaseOf (c.phase + 1) = .prepare := by rw [phaseOf_succ, hphase]
  have hbefore := before_advance h.ordered one_pos (by rw [hphase, hphase']; decide)
  have hstamp : ∀ r ∈ (c.advance 1).requests .prepare, r.stamp = (c.advance 1).now := fun r hr =>
    stamp_requests hphase' hr
  rw [gotoNextPhase, hphase]
  refine (congrArg (Safe T) (if_pos hphase')).mpr ?_
  show Safe T (if c.committed then _ else if c.aborted then _ else _)
  rw [h.committed, ha, if_neg Bool.false_ne_true, if_neg Bool.false_ne_true, ClassicCoord.prepare]
  split
  · refine .preparing hphase' ⟨(Ordered.of_before h.ordered.nodup hbefore).send (nodup_requests _ _)
        (fun r hr hold => (hbefore r hold).ne (hstamp r hr)) hstamp, fun r hr => ?_, h.lt, h.logged,
        fun r hr hkind htxn => ?_, h.committed, h.flag, h.accepted⟩
      ⟨fun r hr hkind htxn => ?_, fun par hpar => ?_, ?_, ?_⟩
    · rcases mem_all_send.mp hr with hr | hr
      · exact h.fresh r hr
      · rw [(mem_requests.mp hr).2]
        exact h.lt
    · rcases mem_all_send.mp hr with hr | hr
      · exact h.known r hr hkind htxn
      · exact (mem_requests.mp hr).1
    · rcases mem_all_send.mp hr with hr | hr
      · have hs : r.stamp = c.now := h.ordered.eq_of_rank hr htxn (by
          show rank r.kind = rank (phaseOf c.phase)
          rw [hkind, hphase])
        obtain ⟨res, hres⟩ := hall r hr hs
        obtain rfl : res = .success := h.accepted ha _ hres htxn
        exact hres
      · rw [(mem_requests.mp hr).2] at hkind
        cases hkind
    · exact mem_all_send.mpr (.inr (mem_requests.mpr ⟨hpar, rfl⟩))
    · refine (asked_send hbefore hstamp).trans ?_
      exact length_map ..
    · exact hvotes.trans (heard_of_before hbefore).symm
  · rfl

end Phases

/-! ### Acknowledgements -/

section

variable {T : TxnLogic τ O} {maxRetry : ℤ} {c : ClassicCoord τ} {r : Request} {res : Res}
  {outputs : List (ℕ × O)}

theorem not_answered (h : c.ledger.all.Nodup) (hr : r ∈ c.ledger.outstanding) (res : Res) :
    (r, res) ∉ c.ledger.answered := fun hmem =>
  (nodup_append.mp h).2.2 r (mem_map_of_mem hmem) r hr rfl

theorem Running.reject (h : Running c) : Running c.reject :=
  { h with flag := fun _ => rfl, accepted := fun ha => by cases ha }

theorem Running.receive (h : Running c) (hr : r ∈ c.ledger.outstanding)
    (hok : c.aborted = false → r.txn = c.txnId → res = .success) : Running (c.receive r res) :=
  { h with
    ordered := h.ordered.answer hr res
    fresh := fun x hx => h.fresh x ((mem_all_answer hr).mp hx)
    known := fun x hx => h.known x ((mem_all_answer hr).mp hx)
    accepted := fun ha =>
      forall_mem_concat (h.accepted ha) (hok ha) }

theorem Running.note (h : Running c) (hr : r ∈ c.ledger.outstanding) :
    Running ((c.receive r res).note res) := by
  cases res with
  | success => exact h.receive hr fun _ _ => rfl
  | reject => exact h.reject.receive hr fun ha => by cases ha

theorem Dispatching.receive (h : Dispatching T c) (hr : r ∈ c.ledger.outstanding) :
    Dispatching T (c.receive r res) :=
  ⟨fun x hx => h.gone x ((mem_all_answer hr).mp hx),
    fun x hx y hy => h.apart x ((mem_all_answer hr).mp hx) y ((mem_all_answer hr).mp hy),
    fun x hx => h.waiting x (mem_of_mem_erase hx), h.votes⟩

theorem Dispatching.note (h : Dispatching T c) (res : Res) : Dispatching T (c.note res) := by
  cases res with
  | success => exact h
  | reject => exact { h with }

theorem Preparing.receive (h : Preparing c) (hr : r ∈ c.ledger.outstanding) {n : ℕ}
    (hn : n = heard stamp c.now (c.ledger.answer r res)) :
    Preparing { c.receive r res with nPrepareAck := n } where
  dispatched x hx hkind htxn :=
    mem_append_left _ (h.dispatched x ((mem_all_answer hr).mp hx) hkind htxn)
  polled par hpar := (mem_all_answer hr).mpr (h.polled par hpar)
  total := (asked_answer hr res).trans h.total
  count := hn

theorem Inv.stale (h : Inv T c) (hr : r ∈ c.ledger.outstanding) (hne : r.phase ≠ c.phase) :
    Inv T (c.receive r res) := by
  have hstamp : r.stamp ≠ c.now := fun heq => hne (congrArg Stamp.phase heq)
  have hpos : ∀ p : Phase, 0 < rank p := fun p => by cases p <;> decide
  cases h with
  | idle hphase hordered hfresh hlogged =>
    exact .idle hphase (hordered.answer hr res) (fun x hx => hfresh x ((mem_all_answer hr).mp hx))
      hlogged
  | dispatching hphase hrun h =>
    refine .dispatching hphase (hrun.receive hr fun _ htxn => absurd ?_ hstamp) (h.receive hr)
    -- nothing of the attempt comes before its dispatches
    refine (hrun.ordered.order r (mem_all_of_outstanding hr)).resolve_left fun hbefore => ?_
    have hrank : rank r.kind < rank (phaseOf c.phase) :=
      (hbefore.2.resolve_left fun hlt => hlt.ne htxn).2
    rw [hphase] at hrank
    exact absurd hrank (not_lt.mpr (hpos r.kind))
  | preparing hphase hrun h =>
    have hcount : c.nPrepareAck = heard stamp c.now (c.ledger.answer r res) := by
      rw [heard_answer, if_neg hstamp, add_zero, h.count]
    refine .preparing hphase (hrun.receive hr fun _ htxn => ?_) (h.receive hr hcount)
    -- and its dispatches are all answered
    have hbefore := (hrun.ordered.order r (mem_all_of_outstanding hr)).resolve_right hstamp
    have hrank : rank r.kind < rank (phaseOf c.phase) :=
      (hbefore.2.resolve_left fun hlt => hlt.ne htxn).2
    have hkind : r.kind = .dispatch := by
      rw [hphase] at hrank
      cases hk : r.kind <;> rw [hk] at hrank <;> first | rfl | exact absurd hrank (by decide)
    exact absurd (h.dispatched r (mem_all_of_outstanding hr) hkind htxn)
      (not_answered hrun.ordered.nodup hr _)

theorem Dispatching.answered (h : Dispatching T c) (hall : c.dispatchAcks.entries.all snd = true) :
    ∀ x ∈ c.ledger.all, x.stamp = c.now → ∃ res, (x, res) ∈ c.ledger.answered := by
  intro x hx hs
  rcases mem_append.mp hx with hx | hx
  · obtain ⟨e, he, rfl⟩ := mem_map.mp hx
    exact ⟨e.2, he⟩
  · obtain ⟨i, hi⟩ := exists_mem_of_ne_nil x.pieces (h.gone x (mem_all_of_outstanding hx) hs).1
    have hmem := OrdMap.find_eq_some.mp (h.waiting x hx hs i hi)
    exact absurd (all_eq_true.mp hall _ hmem) false_ne_true

theorem Dispatching.merge (h : Dispatching T c) (hnodup : c.ledger.all.Nodup)
    (hr : r ∈ c.ledger.outstanding) (hs : r.stamp = c.now) (houtputs : ∀ o ∈ outputs, o.1 ∈ r.pieces)
    {d : ClassicCoord τ} (hd : d = c.receive r res) {cmd : τ} {acks : OrdMap ℕ Bool}
    (hgone : T.gone cmd = T.gone c.cmd)
    (hfind : ∀ i, i ∉ outputs.map fst → acks.find i = c.dispatchAcks.find i) :
    Dispatching T { d with cmd := cmd, dispatchAcks := acks } := by
  subst hd
  have h' : Dispatching T (c.receive r res) := h.receive hr
  refine ⟨fun x hx hsx => ?_, h'.apart, fun x hx hsx i hi => ?_, h'.votes⟩
  · show x.pieces ≠ [] ∧ ∀ i ∈ x.pieces, i ∈ T.gone cmd
    rw [hgone]
    exact h'.gone x hx hsx
  · have hxr : x ≠ r ∧ x ∈ c.ledger.outstanding :=
      (List.Nodup.mem_erase_iff (nodup_append.mp hnodup).2.1).mp hx
    refine (hfind i fun hout => ?_).trans (h.waiting x hxr.2 hsx i hi)
    obtain ⟨o, ho, rfl⟩ := mem_map.mp hout
    exact hxr.1 (h.apart x (mem_all_of_outstanding hxr.2) r (mem_all_of_outstanding hr) hsx hs _ hi
      (houtputs o ho))

theorem Running.rejected (h : Running c) (hphase : phaseOf c.phase = .dispatch)
    (ha : c.aborted = true) : Safe T (goto T maxRetry c) := by
  have hphase' : phaseOf (c.phase + 1) = .prepare := by rw [phaseOf_succ, hphase]
  have hphase'' : phaseOf (c.phase + 2) = .commit := by rw [phaseOf_succ, hphase']
  rw [goto, gotoNextPhase, hphase]
  refine (congrArg (Safe T) (if_pos hphase')).mpr ?_
  show Safe T (if c.committed then _ else if c.aborted then _ else _)
  rw [h.committed, ha, if_neg Bool.false_ne_true, if_pos rfl]
  refine h.abort (n := 2) (by decide) hphase'' ?_ ha
  rw [hphase]
  decide

/-- An acknowledgement of a dispatch of this phase. -/
theorem Dispatching.ack (h : Dispatching T c) (hrun : Running c) (hphase : phaseOf c.phase = .dispatch)
    (hr : r ∈ c.ledger.outstanding) (hs : r.stamp = c.now) (houtputs : ∀ o ∈ outputs, o.1 ∈ r.pieces) :
    Safe T ((c.receive r res).dispatchAck T maxRetry r.phase res outputs) := by
  have hcurrent : ¬ r.phase ≠ (c.receive r res).phase := not_not.mpr (congrArg Stamp.phase hs)
  rw [dispatchAck, if_neg hcurrent]
  generalize hc' : ((c.receive r res).note res).countDispatch outputs.length = c'
  have hrun' : Running c' := by
    subst hc'
    exact { hrun.note hr with }
  have h' : Dispatching T c' := by
    subst hc'
    exact { (h.receive hr).note res with }
  have hphase' : phaseOf c'.phase = .dispatch := by
    subst hc'
    cases res <;> exact hphase
  cases ha : c'.aborted with
  | true =>
    simp only [ha, if_true]
    split
    · exact hrun'.rejected hphase' ha
    · exact .dispatching hphase' hrun' h'
  | false =>
    simp only [ha, false_eq_true, if_false]
    -- the answer is no rejection
    obtain rfl : res = .success := by
      subst hc'
      cases res with
      | success => rfl
      | reject => cases ha
    rw [dispatchMerged]
    cases hmerge : c'.toCoordinator.mergeOutputs T (· = some false) outputs with
    | none => rfl
    | some b =>
      obtain ⟨hb, hgone, hfind⟩ := Coordinator.mergeOutputs_spec hmerge
      have hrunb : Running { c' with toCoordinator := b } := by
        rw [hb]
        exact { hrun' with }
      have hb' : Dispatching T { c' with toCoordinator := b } := by
        subst hc'
        rw [hb]
        exact { h.merge hrun.ordered.nodup hr hs houtputs rfl hgone hfind with }
      have hphaseb : phaseOf b.phase = .dispatch := by
        rw [hb]
        exact hphase'
      have hab : b.aborted = false := by
        rw [hb]
        exact ha
      dsimp only
      split
      · exact hb'.dispatch hrunb hphaseb
      · next hacked =>
        refine hrunb.prepare hphaseb hab hb'.votes (hb'.answered ?_)
        rw [Coordinator.allDispatchAcked] at hacked
        by_contra hnot
        rw [if_neg hnot] at hacked
        cases hacked
      · exact .dispatching hphaseb hrunb hb'
      · rfl

theorem Preparing.acknowledged (h : Preparing c) (hrun : Running c)
    (hphase : phaseOf c.phase = .prepare) (hfull : c.nPrepareAck = c.partitionIds.elems.length)
    (ha : c.aborted = false) : Acknowledged ⟨true, c.txnId, c.partitionIds, c.ledger⟩ := by
  refine ⟨fun x hx hkind htxn => ⟨hrun.known x hx hkind htxn, h.dispatched x hx hkind htxn⟩,
    fun par hpar => ?_, fun e he htxn _ => hrun.accepted ha e he htxn⟩
  have hall : asked stamp c.now c.ledger ≤ heard stamp c.now c.ledger := by
    rw [h.total, ← h.count, hfull]
  have hstamp : stamp ⟨.prepare, c.txnId, c.phase, par, []⟩ = c.now := by
    rw [now, hphase]
    rfl
  obtain ⟨res, hres⟩ := exists_answer_of_heard hall (h.polled par hpar) hstamp
  obtain rfl : res = .success := hrun.accepted ha _ hres rfl
  exact ⟨_, rfl, rfl, rfl, hres⟩

theorem Preparing.decide (h : Preparing c) (hrun : Running c) (hphase : phaseOf c.phase = .prepare)
    (hfull : c.nPrepareAck = c.partitionIds.elems.length) :
    Safe T (goto T maxRetry (if c.aborted then c else c.setCommitted)) := by
  have hphase' : phaseOf (c.phase + 1) = .commit := by rw [phaseOf_succ, hphase]
  have hrank : rank (phaseOf c.phase) < 3 := by
    rw [hphase]
    decide
  cases ha : c.aborted with
  | true =>
    rw [if_pos rfl, goto, gotoNextPhase, hphase]
    refine (congrArg (Safe T) (if_pos hphase')).mpr ?_
    exact hrun.abort (by decide) hphase' hrank ha
  | false =>
    rw [if_neg Bool.false_ne_true, goto, gotoNextPhase,
      show phaseOf c.setCommitted.phase = .prepare from hphase]
    refine (congrArg (Safe T) (if_pos hphase')).mpr ?_
    refine commitTxn_safe hphase' hrun.ordered.nodup (before_advance hrun.ordered one_pos ?_)
      hrun.fresh hrun.lt hrun.logged rfl (fun hc => by cases hc) fun _ =>
        h.acknowledged hrun hphase hfull ha
    rw [hphase']
    exact hrank

theorem Preparing.ack (h : Preparing c) (hrun : Running c) (hphase : phaseOf c.phase = .prepare)
    (hr : r ∈ c.ledger.outstanding) (hs : r.stamp = c.now) :
    Safe T ((c.receive r res).prepareAck T maxRetry r.phase res) := by
  have hcurrent : ¬ r.phase ≠ (c.receive r res).phase := not_not.mpr (congrArg Stamp.phase hs)
  rw [prepareAck, if_neg hcurrent]
  generalize hc' : (c.receive r res).countPrepare.note res = c'
  have hrun' : Running c' := by
    subst hc'
    have hnote : Running ((c.receive r res).note res) := hrun.note hr
    cases res <;> exact { hnote with }
  have h' : Preparing c' := by
    have hcount : c.nPrepareAck + 1 = heard stamp c.now (c.ledger.answer r res) := by
      rw [heard_answer, if_pos hs, h.count]
    have hdone : Preparing (c.receive r res).countPrepare := h.receive hr hcount
    subst hc'
    cases res with
    | success => exact hdone
    | reject => exact { hdone with }
  have hphase' : phaseOf c'.phase = .prepare := by
    subst hc'
    cases res <;> exact hphase
  dsimp only
  split
  · next hfull => exact h'.decide hrun' hphase' hfull
  · exact .preparing hphase' hrun' h'

end

/-! ### Runs -/

/-- A transaction is given to a coordinator that has none, and a server answers a request that
    waits, a dispatch with outputs of its pieces. -/
def Proper (c : ClassicCoord τ) : Event τ O → Prop
  | .doOne _ => phaseOf c.phase = .initEnd
  | .ack r _ outputs => r ∈ c.ledger.outstanding ∧
      (r.kind = .dispatch → ∀ o ∈ outputs, o.1 ∈ r.pieces)

instance (c : ClassicCoord τ) : (e : Event τ O) → Decidable (Proper c e)
  | .doOne _ => inferInstanceAs (Decidable (phaseOf c.phase = .initEnd))
  | .ack r _ outputs => inferInstanceAs (Decidable (r ∈ c.ledger.outstanding ∧
      (r.kind = .dispatch → ∀ o ∈ outputs, o.1 ∈ r.pieces)))

/-- A commit is sent only for what all partitions have acknowledged, no attempt has two decisions,
    and no event that may come next fails the check of the commit flags. -/
structure Atomic (T : TxnLogic τ O) (maxRetry : ℤ) (c : ClassicCoord τ) : Prop where
  acknowledged : ∀ f ∈ c.log, f.commit = true → Acknowledged f
  once : ∀ f ∈ c.log, ∀ f' ∈ c.log, f.txn = f'.txn → f = f'
  flags : ∀ e : Event τ O, Proper c e → ∀ v, handle T maxRetry c e = .error v → v = .other

section Runs

variable {T : TxnLogic τ O} {maxRetry : ℤ} {c : ClassicCoord τ} {e : Event τ O}

theorem Inv.logged (h : Inv T c) : ∃ next, Logged c.log next := by
  cases h with
  | idle _ _ _ hlogged => exact ⟨_, hlogged⟩
  | dispatching _ hrun | preparing _ hrun => exact ⟨_, hrun.logged⟩

theorem Inv.ordered (h : Inv T c) : Ordered stamp c.now c.ledger := by
  cases h with
  | idle _ hordered => exact hordered
  | dispatching _ hrun | preparing _ hrun => exact hrun.ordered

theorem Inv.current (h : Inv T c) {res : Res} {outputs : List (ℕ × O)}
    (hr : r ∈ c.ledger.outstanding) (hs : r.stamp = c.now)
    (houtputs : r.kind = .dispatch → ∀ o ∈ outputs, o.1 ∈ r.pieces) :
    Safe T (handle T maxRetry c (.ack r res outputs)) := by
  have hkind : r.kind = phaseOf c.phase := rank_inj (congrArg Stamp.rank hs)
  rw [handle]
  cases h with
  | idle hphase =>
    rw [hkind, hphase]
    rfl
  | dispatching hphase hrun h =>
    rw [hphase] at hkind
    rw [hkind]
    exact h.ack hrun hphase hr hs (houtputs hkind)
  | preparing hphase hrun h =>
    rw [hkind, hphase]
    exact h.ack hrun hphase hr hs

theorem Inv.handle (h : Inv T c) (maxRetry : ℤ) (hproper : Proper c e) :
    Safe T (handle T maxRetry c e) := by
  cases e with
  | doOne cmd =>
    cases h with
    | idle hphase hordered hfresh hlogged =>
      refine start_safe hphase hordered.nodup (fun r hr => ⟨hfresh r hr, ?_⟩) (lt_succ_self _)
        hlogged rfl rfl rfl
      rcases hordered.order r hr with hbefore | heq
      · exact hbefore.1.le
      · exact (congrArg Stamp.phase heq).le
    | dispatching hphase | preparing hphase => cases hphase.symm.trans hproper
  | ack r res outputs =>
    obtain ⟨hr, houtputs⟩ := hproper
    by_cases hphase : r.phase = c.phase
    · exact h.current hr (h.ordered.eq_of_phase (mem_all_of_outstanding hr) hphase) houtputs
    · -- every handler drops it
      have hlate : r.phase ≠ (c.receive r res).phase := hphase
      rw [ClassicCoord.handle]
      cases hkind : r.kind with
      | initEnd => rfl
      | dispatch | prepare | commit =>
        exact (congrArg (Safe T) (if_pos hlate)).mpr (h.stale hr hphase)

theorem Inv.atomic (h : Inv T c) : Atomic T maxRetry c := by
  obtain ⟨next, hlogged⟩ := h.logged
  refine ⟨hlogged.sound, fun f hf f' hf' htxn => ?_, fun e hproper v hv => ?_⟩
  · exact inj_on_of_nodup_map hlogged.once hf hf' htxn
  · have hsafe := h.handle maxRetry hproper
    rw [hv] at hsafe
    exact hsafe

theorem inv_step {c' : ClassicCoord τ} (h : Inv T c) (hproper : Proper c e)
    (hstep : step T maxRetry c e = some c') : Inv T c' := by
  have hsafe := h.handle maxRetry hproper
  rw [ok_of_toOption hstep] at hsafe
  exact hsafe

end Runs

/-- In every run of a coordinator, whatever order the acknowledgements come in, a commit is sent for
    an attempt only when all its partitions have acknowledged it, commit and abort are never both
    sent, and the check of the commit flags never fails. -/
theorem coordinator_atomic (T : TxnLogic τ O) (maxRetry : ℤ) (cmd : τ) (es : List (Event τ O))
    (h : Along (step T maxRetry) Proper { cmd } es) :
    Throughout (step T maxRetry) (Atomic T maxRetry) { cmd } es := by
  have hinit : Inv T ({ cmd } : ClassicCoord τ) := by
    refine .idle rfl ⟨nodup_nil, fun r hr => ?_⟩ (fun r hr => ?_) (.nil _)
    · cases hr
    · cases hr
  exact throughout_mono (fun c hc => hc.atomic)
    (throughout_of_inv (fun _ _ _ hinv hproper hstep => inv_step hinv hproper hstep) hinit h)

/-- A transaction of one piece, on partition 0. -/
def onePiece : TxnLogic Bool Unit := .oneShot [(0, [7])] (by decide) (by decide)

/-- Its vote is refused once; the second attempt is committed. -/
def secondTry : List (Event Bool Unit) :=
  [.doOne false, .ack ⟨.dispatch, 0, 1, 0, [7]⟩ .success [(7, ())],
    .ack ⟨.prepare, 0, 2, 0, []⟩ .reject [],
    .ack ⟨.dispatch, 1, 5, 0, [7]⟩ .success [(7, ())], .ack ⟨.commit, 0, 3, 0, []⟩ .success [],
    .ack ⟨.prepare, 1, 6, 0, []⟩ .success []]

theorem coordinator_atomic_second : (run (step onePiece 3) { cmd := false } secondTry).map
        (fun c => c.log.map fun f => (f.txn, f.commit)) = some [(0, false), (1, true)] ∧
      Throughout (step onePiece 3) (Atomic onePiece 3) { cmd := false } secondTry :=
  ⟨by decide, coordinator_atomic onePiece 3 false secondTry (by decide)⟩

end Fiss.Classic.ClassicCoord
