import Fiss.Tapir.Coord

/-! What the TAPIR coordinator decides, over whole runs of its attempts with the acknowledgements in
    any order. Each fast accept is answered once at most; an acknowledgement of a dispatch may come
    any number of times and with any outputs.

    The invariant says of an attempt under way that what was asked and counted is its own, none of it
    rejected, and of the attempts before it that each is decided (`Attempt`, `Asking`). -/

namespace Fiss.Tapir.TapirCoord

open Classic List OrdSet OrdMap
open Ledger (mem_all_send mem_all_answer mem_all_of_outstanding mem_all_of_answered)
open Option (bind_eq_some_iff ite_none_right_eq_some some.inj getD_some)

variable {τ O : Type}

/-- All replicas of all partitions of the attempt have answered with success, and none rejected. -/
structure Accepted (N : Cluster) (f : Decision) : Prop where
  replicas : ∀ par ∈ f.pars, ∀ i < N.size par, ∃ r : Request, r.txn = f.txn ∧ r.par = par ∧
    r.replica = i ∧ (r, Res.success) ∈ f.ledger.answered
  unrejected : ∀ e ∈ f.ledger.answered, e.1.txn = f.txn → e.2 = .success

/-- The last answer is the first rejection of the attempt. -/
def FirstReject (f : Decision) : Prop :=
  ∃ before r, f.ledger.answered = before ++ [(r, Res.reject)] ∧ r.txn = f.txn ∧
    ∀ e ∈ before, e.1.txn = f.txn → e.2 = .success

/-- What a decision rests on. -/
def Decision.Sound (N : Cluster) (f : Decision) : Prop :=
  if f.commit then Accepted N f else FirstReject f

/-- The decisions so far, all of attempts before `next`. -/
abbrev Logged (N : Cluster) : List Decision → ℕ → Prop := Decided Decision.txn (Decision.Sound N)

/-- All attempts so far are decided; the next ids are from `next` on. -/
structure Over (N : Cluster) (c : TapirCoord τ) (next : ℕ) : Prop where
  nodup : c.ledger.all.Nodup
  requests : ∀ r ∈ c.ledger.all, r.txn < next ∧ r.phase < c.phase ∧ ∃ f ∈ c.log, f.txn = r.txn
  logged : Logged N c.log next
  sent : ∀ r ∈ c.dispatched, phaseOf r.phase = .dispatch ∧ r.phase < c.phase

/-- A request of an earlier attempt, which is decided. -/
def Earlier (c : TapirCoord τ) (r : Request) : Prop :=
  r.txn < c.txnId ∧ r.phase < c.phase ∧ ∃ f ∈ c.log, f.txn = r.txn

/-- A request of this phase. -/
def Current (c : TapirCoord τ) (r : Request) : Prop := r.txn = c.txnId ∧ r.phase = c.phase

instance (c : TapirCoord τ) (r : Request) : Decidable (Current c r) :=
  inferInstanceAs (Decidable (_ ∧ _))

/-- An attempt is under way. -/
structure Attempt (N : Cluster) (c : TapirCoord τ) : Prop where
  nodup : c.ledger.all.Nodup
  requests : ∀ r ∈ c.ledger.all, Earlier c r ∨ Current c r
  lt : c.txnId < c.nextTxnId
  logged : Logged N c.log c.txnId
  sent : ∀ r ∈ c.dispatched, phaseOf r.phase = .dispatch ∧ r.phase ≤ c.phase ∧
    (r.phase = c.phase → r.txn = c.txnId)
  sized : ∀ par ∈ c.partitionIds, 0 < N.size par

/-- A request of this phase to the partition. -/
def asks (c : TapirCoord τ) (par : ℕ) (r : Request) : Bool := Current c r ∧ r.par = par

/-- The request of this phase to a replica. -/
def request (c : TapirCoord τ) (par replica : ℕ) : Request := ⟨c.txnId, c.phase, par, replica⟩

/-- The replicas are asked, and those that have answered have accepted. -/
structure Asking (N : Cluster) (c : TapirCoord τ) : Prop where
  own : ∀ r ∈ c.ledger.all, Current c r → r.par ∈ c.partitionIds ∧ r.replica < N.size r.par
  polled : Polled (asks c) (request c) N.size c.partitionIds.elems c.ledger
  oks : ∀ par ∈ c.partitionIds,
    c.nFastAcceptOks.find par = some (c.ledger.answered.countP fun e => asks c par e.1)
  rejects : ∀ par ∈ c.partitionIds, c.nFastAcceptRejects.find par = some 0
  accepted : ∀ e ∈ c.ledger.answered, Current c e.1 → e.2 = .success

/-- The attempt is not decided. -/
def Unsettled (c : TapirCoord τ) : Prop := c.committed = false ∧ c.aborted = false

/-- The pieces go out, and no replica is asked. -/
structure Dispatching (N : Cluster) (c : TapirCoord τ) : Prop extends Attempt N c where
  phase : phaseOf c.phase = .dispatch
  flags : Unsettled c
  unasked : ∀ r ∈ c.ledger.all, ¬ Current c r

/-- The coordinator is between transactions, dispatches, or waits for replicas. -/
inductive Inv (N : Cluster) (c : TapirCoord τ) : Prop
  | idle (phase : phaseOf c.phase = .initEnd) (past : Over N c c.nextTxnId)
  | dispatching (h : Dispatching N c)
  | asking (phase : phaseOf c.phase = .fastAccept) (attempt : Attempt N c) (flags : Unsettled c)
      (asking : Asking N c) (waiting : ∃ r ∈ c.ledger.outstanding, Current c r)

/-! ### Phase numbers and decisions -/

theorem phaseOf_succ (n : ℕ) : phaseOf (n + 1) =
    match phaseOf n with
    | .initEnd => .dispatch
    | .dispatch => .fastAccept
    | .fastAccept => .decide
    | .decide => .initEnd := by
  have hlt : n % 4 < 4 := Nat.mod_lt n (by decide)
  rw [phaseOf, phaseOf, Nat.add_mod]
  interval_cases n % 4 <;> rfl

theorem Over.mono {N : Cluster} {c : TapirCoord τ} {next next' : ℕ} (h : Over N c next)
    (hle : next ≤ next') : Over N c next' :=
  ⟨h.nodup, fun r hr => ⟨(h.requests r hr).1.trans_le hle, (h.requests r hr).2⟩, h.logged.mono hle,
    h.sent⟩

section Phases

variable {T : TxnLogic τ O} {N : Cluster} {maxRetry : ℤ} {c c' : TapirCoord τ}

theorem Dispatching.dispatch (h : Dispatching N c) (hdispatch : dispatch T N c = some c') :
    Inv N c' := by
  obtain ⟨r, hr, hdispatch⟩ := bind_eq_some_iff.mp hdispatch
  obtain ⟨hsized, hdispatch⟩ := ite_none_right_eq_some.mp hdispatch
  obtain ⟨⟨batches, cmd⟩, -, rfl⟩ := Option.map_eq_some_iff.mp hr
  obtain rfl := some.inj hdispatch
  refine .dispatching { h with sent := fun r hr => ?_, sized := fun par hpar => ?_ }
  · refine forall_mem_append.mpr ⟨h.sent, forall_mem_map.mpr fun b _ => ?_⟩ r hr
    exact ⟨h.phase, le_rfl, fun _ => rfl⟩
  · rcases mem_foldl_insert.mp hpar with hpar | hpar
    · exact h.sized par hpar
    · obtain ⟨b, hb, rfl⟩ := mem_map.mp hpar
      have hlt := all_eq_true.mp hsized b hb
      exact Nat.zero_lt_of_lt (of_decide_eq_true hlt)

theorem Over.fromInitEnd (h : Over N c c.txnId) (hlt : c.txnId < c.nextTxnId)
    (hphase : phaseOf c.phase = .initEnd) (hflags : Unsettled c)
    (hpars : c.partitionIds = ∅) (hnext : c.fromInitEnd T N = some c') : Inv N c' := by
  obtain ⟨d, hd, hd'⟩ := bind_eq_some_iff.mp hnext
  obtain ⟨-, hd'⟩ := ite_none_right_eq_some.mp hd'
  obtain rfl := some.inj hd'
  have hphase' : phaseOf (c.phase + 1) = .dispatch := by rw [phaseOf_succ, hphase]
  refine Dispatching.dispatch (c := c.advance) ⟨⟨h.nodup, fun r hr => ?_, hlt, h.logged,
    fun r hr => ?_, fun par hpar => ?_⟩, hphase', hflags, fun r hr hcurrent => ?_⟩ hd
  · obtain ⟨htxn, hnum, hdecided⟩ := h.requests r hr
    exact .inl ⟨htxn, hnum.trans (Nat.lt_succ_self _), hdecided⟩
  · obtain ⟨hkind, hnum⟩ := h.sent r hr
    exact ⟨hkind, (hnum.trans (Nat.lt_succ_self _)).le, fun heq => absurd heq
      (hnum.trans (Nat.lt_succ_self _)).ne⟩
  · rw [show c.advance.partitionIds = ∅ from hpars] at hpar
    exact absurd hpar (notMem_empty par)
  · exact (h.requests r hr).1.ne hcurrent.1

theorem Over.fromDecide (h : Over N c c.nextTxnId) (hphase : phaseOf c.phase = .decide)
    (hnext : c.fromDecide T N maxRetry = some c') : Inv N c' := by
  have hphase' : phaseOf (c.phase + 1) = .initEnd := by rw [phaseOf_succ, hphase]
  have hover : Over N c.advance c.nextTxnId := by
    refine ⟨h.nodup, fun r hr => ?_, h.logged, fun r hr => ?_⟩
    · obtain ⟨htxn, hnum, hdecided⟩ := h.requests r hr
      exact ⟨htxn, hnum.trans (Nat.lt_succ_self _), hdecided⟩
    · exact ⟨(h.sent r hr).1, (h.sent r hr).2.trans (Nat.lt_succ_self _)⟩
  obtain ⟨-, hnext⟩ := ite_none_right_eq_some.mp hnext
  split at hnext
  · obtain ⟨-, hend⟩ := ite_none_right_eq_some.mp hnext
    obtain rfl := some.inj hend
    exact .idle hphase' hover
  · obtain ⟨-, hnext⟩ := ite_none_right_eq_some.mp hnext
    obtain ⟨-, hnext⟩ := ite_none_right_eq_some.mp hnext
    dsimp only at hnext
    split at hnext
    · obtain ⟨-, hend⟩ := ite_none_right_eq_some.mp hnext
      obtain rfl := some.inj hend
      exact .idle hphase' { hover.mono (Nat.le_add_right _ 2) with }
    · -- both `Restart`s take an id
      let d := c.advance.newId.retry
      have hstart : Over N (d.clear (d.toCoordinator.again T)) (c.nextTxnId + 1) :=
        { hover.mono (Nat.le_succ _) with }
      exact hstart.fromInitEnd (Nat.lt_succ_self _) hphase' ⟨rfl, rfl⟩ rfl hnext

theorem asks_request {par par' i : ℕ} : asks c par (request c par' i) = true ↔ par' = par :=
  decide_eq_true_iff.trans (and_iff_right ⟨rfl, rfl⟩)

theorem mem_requests {r : Request} (hr : r ∈ c.requests N) :
    Current c r ∧ r.par ∈ c.partitionIds ∧ r.replica < N.size r.par := by
  obtain ⟨par, hpar, i, hi, rfl⟩ := mem_poll.mp hr
  exact ⟨⟨rfl, rfl⟩, hpar, hi⟩

theorem nodup_partitionIds (c : TapirCoord τ) : c.partitionIds.elems.Nodup :=
  c.partitionIds.sorted.imp fun h => h.ne

theorem nodup_requests (N : Cluster) (c : TapirCoord τ) : (c.requests N).Nodup :=
  nodup_poll (fun h => (Request.mk.inj h).2.2) (nodup_partitionIds c)

/-- The whole transaction is out and answered: the replicas are asked. -/
theorem Dispatching.fastAccept (h : Dispatching N c)
    (hnext : gotoNextPhase T N maxRetry c = some c') : Inv N c' := by
  have hphase' : phaseOf (c.phase + 1) = .fastAccept := by rw [phaseOf_succ, h.phase]
  rw [gotoNextPhase, h.phase] at hnext
  obtain ⟨-, hnext⟩ := ite_none_right_eq_some.mp hnext
  obtain ⟨⟨hsome, -, -⟩, hnext⟩ := ite_none_right_eq_some.mp hnext
  obtain rfl := some.inj hnext
  have hearlier : ∀ r ∈ c.ledger.all, Earlier c.advance r := by
    intro r hr
    obtain ⟨htxn, hnum, hdecided⟩ := (h.requests r hr).resolve_right (h.unasked r hr)
    exact ⟨htxn, hnum.trans (Nat.lt_succ_self _), hdecided⟩
  have hold : ∀ r ∈ c.ledger.all, ¬ Current c.advance r := fun r hr hcurrent =>
    (hearlier r hr).1.ne hcurrent.1
  have hanswered : ∀ e ∈ c.ledger.answered, ¬ Current c.advance e.1 := fun e he =>
    hold e.1 (mem_all_of_answered he)
  have hpolled : Polled (asks c.advance) (request c.advance) N.size c.partitionIds.elems
      (c.ledger.send (c.advance.requests N)) :=
    .send asks_request (nodup_partitionIds c) fun r hr _ hasks =>
      hold r hr (of_decide_eq_true hasks).1
  have hset : ∀ (m : OrdMap ℕ ℕ), ∀ par ∈ c.partitionIds,
      (c.partitionIds.elems.foldl (fun m par => m.set par 0) m).find par = some 0 := by
    intro m par hpar
    rw [find_foldl_set, if_pos (mem_elems.mpr hpar)]
  refine .asking hphase' ⟨?_, fun r hr => ?_, h.lt, h.logged, fun r hr => ?_, h.sized⟩ h.flags
    ⟨fun r hr hcurrent => ?_, hpolled, fun par hpar => ?_,
      hset c.nFastAcceptRejects, fun e he hcurrent => absurd hcurrent (hanswered e he)⟩ ?_
  · rw [Ledger.all_send, nodup_append]
    refine ⟨h.nodup, nodup_requests N _, fun a ha b hb hab => ?_⟩
    exact hold a ha (hab ▸ (mem_requests hb).1)
  · exact (mem_all_send.mp hr).imp (hearlier r) fun hr => (mem_requests hr).1
  · obtain ⟨hkind, hle, -⟩ := h.sent r hr
    exact ⟨hkind, hle.trans (Nat.le_succ _), fun heq => absurd heq (Nat.lt_succ_of_le hle).ne⟩
  · rcases mem_all_send.mp hr with hr | hr
    · exact absurd hcurrent (hold r hr)
    · exact (mem_requests hr).2
  · refine (hset c.nFastAcceptOks par hpar).trans (congrArg some (Eq.symm ?_))
    exact countP_eq_zero.mpr fun e he hasks => hanswered e he (of_decide_eq_true hasks).1
  · -- there is a partition, and it has a replica
    obtain ⟨par, hpar⟩ := exists_mem_of_length_pos hsome
    have hreq : c.advance.request par 0 ∈ c.advance.requests N :=
      mem_poll.mpr ⟨par, hpar, 0, h.sized par hpar, rfl⟩
    exact ⟨_, mem_append_right _ hreq, rfl, rfl⟩

theorem Attempt.decide (h : Attempt N c) (hphase : phaseOf c.phase = .fastAccept)
    (hsound : Decision.Sound N ⟨c.committed, c.txnId, c.partitionIds, c.ledger⟩)
    (hnext : gotoNextPhase T N maxRetry c = some c') : Inv N c' := by
  have hphase' : phaseOf (c.phase + 1) = .decide := by rw [phaseOf_succ, hphase]
  rw [gotoNextPhase, hphase] at hnext
  obtain ⟨-, hnext⟩ := ite_none_right_eq_some.mp hnext
  obtain ⟨-, hnext⟩ := ite_none_right_eq_some.mp hnext
  refine Over.fromDecide (c := { c.advance with log := c.log ++ [⟨c.committed, _, _, _⟩] })
    ⟨h.nodup, fun r hr => ?_, ?_, fun r hr => ?_⟩ hphase' hnext
  · rcases h.requests r hr with ⟨htxn, hnum, f, hf, hdecided⟩ | ⟨htxn, hnum⟩
    · exact ⟨htxn.trans h.lt, hnum.trans (Nat.lt_succ_self _), f, mem_append_left _ hf,
        hdecided⟩
    · exact ⟨htxn.trans_lt h.lt, hnum.trans_lt (Nat.lt_succ_self _), _,
        mem_append_right _ (mem_singleton_self _), htxn.symm⟩
  · exact h.logged.concat hsound h.lt rfl
  · obtain ⟨hkind, hle, -⟩ := h.sent r hr
    exact ⟨hkind, Nat.lt_succ_of_le hle⟩

end Phases

/-! ### Acknowledgements -/

section

variable {T : TxnLogic τ O} {N : Cluster} {maxRetry : ℤ} {c c' : TapirCoord τ} {r : Request}
  {res : Res}

theorem Attempt.receive (h : Attempt N c) (hr : r ∈ c.ledger.outstanding) :
    Attempt N (c.receive r res) :=
  { h with
    nodup := (Ledger.all_answer hr res).nodup_iff.mpr h.nodup
    requests := fun x hx => h.requests x ((mem_all_answer hr).mp hx) }

theorem Asking.answer (h : Asking N c) (hr : r ∈ c.ledger.outstanding)
    (hok : Current c r → res = .success) {oks : OrdMap ℕ ℕ}
    (hoks : ∀ par ∈ c.partitionIds, oks.find par =
      some ((c.ledger.answered.countP fun e => asks c par e.1) + if asks c par r then 1 else 0)) :
    Asking N { c.receive r res with nFastAcceptOks := oks } where
  own x hx := h.own x ((mem_all_answer hr).mp hx)
  polled := h.polled.answer hr res
  oks par hpar := by
    refine (hoks par hpar).trans (congrArg some (Eq.symm ?_))
    change (c.ledger.answered ++ [(r, res)]).countP (fun e => asks c par e.1) = _
    rw [countP_append, countP_singleton]
  rejects := h.rejects
  accepted := forall_mem_concat h.accepted hok

theorem asks_false {par : ℕ} (h : ¬ (Current c r ∧ r.par = par)) : asks c par r = false :=
  decide_eq_false h

theorem Inv.stale (h : Inv N c) (hr : r ∈ c.ledger.outstanding) (hlate : r.phase < c.phase) :
    Inv N (c.receive r res) := by
  have hnot : ¬ Current c r := fun hcurrent => hlate.ne hcurrent.2
  cases h with
  | idle hphase hover =>
    exact .idle hphase { hover with
      nodup := (Ledger.all_answer hr res).nodup_iff.mpr hover.nodup
      requests := fun x hx => hover.requests x ((mem_all_answer hr).mp hx) }
  | dispatching h =>
    exact .dispatching { h with
      toAttempt := h.receive hr
      unasked := fun x hx => h.unasked x ((mem_all_answer hr).mp hx) }
  | asking hphase h hflags hasking hwaiting =>
    obtain ⟨x, hx, hcurrent⟩ := hwaiting
    refine .asking hphase (h.receive hr) hflags
      (hasking.answer hr (fun hcurrent => absurd hcurrent hnot) fun par hpar => ?_)
      ⟨x, (mem_erase_of_ne ?_).mpr hx, hcurrent⟩
    · rw [asks_false fun hasks => hnot hasks.1]
      exact hasking.oks par hpar
    · rintro rfl
      exact hnot hcurrent

theorem Asking.unrejected (h : Asking N c) (hattempt : Attempt N c) :
    ∀ e ∈ c.ledger.answered, e.1.txn = c.txnId → e.2 = .success := by
  intro e he htxn
  refine h.accepted e he
    ((hattempt.requests e.1 (mem_all_of_answered he)).resolve_left fun hearlier => ?_)
  exact hearlier.1.ne htxn

theorem Asking.allAccepted (h : Asking N c) (hattempt : Attempt N c)
    (hall : c.allFastQuorumReached N = true) :
    Accepted N ⟨true, c.txnId, c.partitionIds, c.ledger⟩ := by
  refine ⟨fun par hpar i hi => ?_, h.unrejected hattempt⟩
  have hquorum := all_eq_true.mp hall par hpar
  rw [h.oks par hpar, decide_eq_true_eq, getFastQuorum, getD_some] at hquorum
  obtain ⟨res, hres⟩ := h.polled.exists_answer asks_request hpar hquorum hi
  obtain rfl : res = .success := h.accepted _ hres ⟨rfl, rfl⟩
  exact ⟨_, rfl, rfl, rfl, hres⟩

theorem Asking.waiting (h : Asking N c) (hnot : ¬ c.allFastQuorumReached N = true) :
    ∃ r ∈ c.ledger.outstanding, Current c r := by
  rw [allFastQuorumReached, all_eq_true] at hnot
  push Not at hnot
  obtain ⟨par, hpar, hless⟩ := hnot
  rw [h.oks par hpar, Ne, decide_eq_true_eq, getFastQuorum, getD_some, not_le] at hless
  obtain ⟨r, hr, hasks⟩ := h.polled.exists_outstanding hpar hless
  exact ⟨r, hr, (of_decide_eq_true hasks).1⟩

theorem Asking.ok (h : Asking N c) (hr : r ∈ c.ledger.outstanding) (hcurrent : Current c r) :
    Asking N ((c.receive r .success).count r.par .success) := by
  refine h.answer hr (fun _ => rfl) fun par hpar => ?_
  change (c.nFastAcceptOks.set r.par ((c.nFastAcceptOks.find r.par).getD 0 + 1)).find par = _
  rw [find_set]
  split
  · next heq =>
    subst heq
    have hasks : asks c r.par r = true := decide_eq_true ⟨hcurrent, rfl⟩
    rw [h.oks r.par hpar, hasks]
    rfl
  · next hne =>
    rw [asks_false fun hasks => hne hasks.2.symm]
    exact h.oks par hpar

/-- An acknowledgement of this phase. -/
theorem Asking.ack (h : Asking N c) (hattempt : Attempt N c) (hphase : phaseOf c.phase = .fastAccept)
    (hflags : Unsettled c) (hr : r ∈ c.ledger.outstanding) (hcurrent : Current c r)
    (hack : (c.receive r res).fastAcceptAck T N maxRetry r.phase r.par res = some c') :
    Inv N c' := by
  have hnow : ¬ (c.receive r res).phase > r.phase := hcurrent.2.ge.not_gt
  have hattempt' : Attempt N (c.receive r res) := hattempt.receive hr
  rw [fastAcceptAck, if_neg hnow] at hack
  cases res with
  | success =>
    have h' := h.ok hr hcurrent
    have hattempt1 : Attempt N ((c.receive r .success).count r.par .success) := { hattempt' with }
    have hpossible : ((c.receive r .success).count r.par .success).fastQuorumPossible N = true := by
      refine all_eq_true.mpr fun par hpar => ?_
      rw [h'.rejects par hpar]
      exact decide_eq_true (Nat.zero_le _)
    dsimp only at hack
    rw [if_pos hpossible] at hack
    split at hack
    · next hall =>
      refine Attempt.decide (c := ((c.receive r .success).count r.par .success).settle true)
        { hattempt1 with } hphase ?_ hack
      exact h'.allAccepted hattempt1 hall
    · next hnot =>
      obtain rfl := some.inj hack
      exact .asking hphase hattempt1 hflags h' (h'.waiting hnot)
  | reject =>
    have himpossible :
        ¬ ((c.receive r .reject).count r.par .reject).fastQuorumPossible N = true := by
      intro hpossible
      obtain ⟨hpar, -⟩ := h.own r (mem_all_of_outstanding hr) hcurrent
      have hzero : ((c.nFastAcceptRejects.set r.par
          ((c.nFastAcceptRejects.find r.par).getD 0 + 1)).find r.par).getD 0 ≤
          N.size r.par - getFastQuorum N r.par :=
        of_decide_eq_true (all_eq_true.mp hpossible r.par hpar)
      rw [find_set_self, getD_some, getFastQuorum] at hzero
      omega
    dsimp only at hack
    rw [if_neg himpossible] at hack
    refine Attempt.decide (c := ((c.receive r .reject).count r.par .reject).settle false)
      { hattempt' with } hphase ?_ hack
    have hcommit : (((c.receive r .reject).count r.par .reject).settle false).committed = false :=
      hflags.1
    rw [Decision.Sound, hcommit]
    exact ⟨c.ledger.answered, r, rfl, hcurrent.1, h.unrejected hattempt⟩

theorem Dispatching.dispatchAck (h : Dispatching N c) {phase : ℕ} {outputs : List (ℕ × O)}
    (hack : c.dispatchAck T N maxRetry phase outputs = some c') : Inv N c' := by
  rw [TapirCoord.dispatchAck] at hack
  split at hack
  · obtain rfl := some.inj hack
    exact .dispatching h
  · obtain ⟨b, hb, hack⟩ := bind_eq_some_iff.mp hack
    obtain ⟨more, -, hack⟩ := bind_eq_some_iff.mp hack
    obtain ⟨hsame, -, -⟩ := Coordinator.mergeOutputs_spec hb
    rw [hsame] at hack
    have h' : Dispatching N { c.countDispatch outputs.length with
        toCoordinator := { (c.countDispatch outputs.length).toCoordinator with
          cmd := b.cmd, dispatchAcks := b.dispatchAcks } } := { h with }
    split at hack
    · exact h'.dispatch hack
    · obtain ⟨acked, -, hack⟩ := bind_eq_some_iff.mp hack
      split at hack
      · exact h'.fastAccept hack
      · obtain rfl := some.inj hack
        exact .dispatching h'

end

/-! ### Runs -/

/-- A transaction is given to a coordinator that has none, a dispatch that was sent is acknowledged,
    and a replica answers a fast accept that waits. -/
def Proper (c : TapirCoord τ) : Event τ O → Prop
  | .doOne _ => phaseOf c.phase = .initEnd
  | .dispatchAck r _ => r ∈ c.dispatched
  | .fastAcceptAck r _ => r ∈ c.ledger.outstanding

instance (c : TapirCoord τ) : (e : Event τ O) → Decidable (Proper c e)
  | .doOne _ => inferInstanceAs (Decidable (phaseOf c.phase = .initEnd))
  | .dispatchAck r _ => inferInstanceAs (Decidable (r ∈ c.dispatched))
  | .fastAcceptAck r _ => inferInstanceAs (Decidable (r ∈ c.ledger.outstanding))

/-- What the decisions of a coordinator rest on, and which there are. -/
structure Decisive (T : TxnLogic τ O) (N : Cluster) (maxRetry : ℤ) (c : TapirCoord τ) : Prop where
  /-- the decision is to commit iff the attempt was accepted by all -/
  commit : ∀ f ∈ c.log, f.commit = true ↔ Accepted N f
  /-- and otherwise made with the first rejection -/
  abort : ∀ f ∈ c.log, f.commit = false → FirstReject f
  /-- no attempt has two decisions -/
  once : (c.log.map Decision.txn).Nodup
  /-- an attempt whose replicas were asked is decided, if it is not the one they are asked for now -/
  decided : ∀ r ∈ c.ledger.all,
    r.txn = c.txnId ∧ phaseOf c.phase = .fastAccept ∨ ∃ f ∈ c.log, f.txn = r.txn
  /-- and that one is not decided: nothing was rejected and some replica has not answered -/
  undecided : phaseOf c.phase = .fastAccept → (∀ f ∈ c.log, f.txn ≠ c.txnId) ∧
    (∀ e ∈ c.ledger.answered, e.1.txn = c.txnId → e.2 = .success) ∧
    ∃ par ∈ c.partitionIds, ∃ i < N.size par, ∀ r : Request, r.txn = c.txnId → r.par = par →
      r.replica = i → (r, Res.success) ∉ c.ledger.answered
  /-- an acknowledgement of another attempt changes nothing -/
  late : (∀ r ∈ c.ledger.outstanding, r.txn ≠ c.txnId → ∀ res,
      step T N maxRetry c (.fastAcceptAck r res) = some (c.receive r res)) ∧
    ∀ r ∈ c.dispatched, r.txn ≠ c.txnId → ∀ outputs,
      step T N maxRetry c (.dispatchAck r outputs) = some c

section Runs

variable {T : TxnLogic τ O} {N : Cluster} {maxRetry : ℤ} {c c' : TapirCoord τ} {e : Event τ O}

theorem step_late {r : Request} (hlate : r.phase < c.phase) (res : Res) :
    step T N maxRetry c (.fastAcceptAck r res) = some (c.receive r res) := if_pos hlate

theorem step_lateDispatch {r : DispatchReq} (hlate : r.phase ≠ c.phase) (outputs : List (ℕ × O)) :
    step T N maxRetry c (.dispatchAck r outputs) = some c := if_pos hlate

theorem inv_step (h : Inv N c) (hproper : Proper c e) (hstep : step T N maxRetry c e = some c') :
    Inv N c' := by
  cases e with
  | doOne cmd =>
    cases h with
    | idle hphase hover =>
      have hphase' : phaseOf (c.clear (c.toCoordinator.take cmd)).phase = .initEnd := hphase
      rw [step, TapirCoord.doOne, gotoNextPhase, hphase'] at hstep
      have hstart : Over N (c.clear (c.toCoordinator.take cmd)) c.nextTxnId := { hover with }
      exact hstart.fromInitEnd (Nat.lt_succ_self _) hphase ⟨rfl, rfl⟩ rfl hstep
    | dispatching h => cases h.phase.symm.trans hproper
    | asking hphase => cases hphase.symm.trans hproper
  | dispatchAck r outputs =>
    by_cases hlate : r.phase = c.phase
    · cases h with
      | idle hphase hover => exact absurd hlate (hover.sent r hproper).2.ne
      | dispatching h => exact h.dispatchAck hstep
      | asking hphase h =>
        have hkind := (h.sent r hproper).1
        rw [hlate, hphase] at hkind
        cases hkind
    · rw [step_lateDispatch hlate] at hstep
      exact some.inj hstep ▸ h
  | fastAcceptAck r res =>
    by_cases hlate : r.phase < c.phase
    · rw [step_late hlate] at hstep
      exact some.inj hstep ▸ h.stale hproper hlate
    · have hmem : r ∈ c.ledger.all := mem_append_right _ hproper
      cases h with
      | idle hphase hover => exact absurd (hover.requests r hmem).2.1 hlate
      | dispatching h =>
        exact absurd ((h.requests r hmem).resolve_right (h.unasked r hmem)).2.1 hlate
      | asking hphase h hflags hasking =>
        have hcurrent := (h.requests r hmem).resolve_left fun hearlier => hlate hearlier.2.1
        exact hasking.ack h hphase hflags hproper hcurrent hstep

theorem Inv.logged (h : Inv N c) : ∃ next, Logged N c.log next := by
  cases h with
  | idle _ hover => exact ⟨_, hover.logged⟩
  | dispatching h | asking _ h => exact ⟨_, h.logged⟩

theorem Decision.Sound.commit_iff {f : Decision} (h : f.Sound N) :
    f.commit = true ↔ Accepted N f := by
  rw [Decision.Sound] at h
  split at h
  · next hcommit => exact ⟨fun _ => h, fun _ => hcommit⟩
  · next hcommit =>
    refine ⟨fun hc => absurd hc hcommit, fun haccepted => ?_⟩
    obtain ⟨before, r, hanswered, htxn, -⟩ := h
    have hmem : (r, Res.reject) ∈ f.ledger.answered := by
      rw [hanswered]
      exact mem_append_right _ (mem_singleton_self _)
    cases haccepted.unrejected _ hmem htxn

theorem Inv.decisive (h : Inv N c) : Decisive T N maxRetry c := by
  obtain ⟨next, hlogged⟩ := h.logged
  refine ⟨fun f hf => (hlogged.sound f hf).commit_iff, fun f hf hcommit => ?_, hlogged.once,
    fun r hr => ?_, fun hphase => ?_, fun r hr hother res => step_late ?_ res,
    fun r hr hother outputs => step_lateDispatch ?_ outputs⟩
  · have hsound := hlogged.sound f hf
    rw [Decision.Sound, hcommit] at hsound
    exact hsound
  · cases h with
    | idle _ hover => exact .inr (hover.requests r hr).2.2
    | dispatching h => exact .inr ((h.requests r hr).resolve_right (h.unasked r hr)).2.2
    | asking hphase h =>
      exact (h.requests r hr).symm.imp (fun hcurrent => ⟨hcurrent.1, hphase⟩) fun hearlier =>
        hearlier.2.2
  · cases h with
    | idle hphase' => cases hphase.symm.trans hphase'
    | dispatching h => cases hphase.symm.trans h.phase
    | asking _ h _ hasking hwaiting =>
      obtain ⟨r, hr, hcurrent⟩ := hwaiting
      obtain ⟨hpar, hreplica⟩ := hasking.own r (mem_all_of_outstanding hr) hcurrent
      refine ⟨fun f hf => (h.logged.fresh f hf).ne, hasking.unrejected h, r.par, hpar, r.replica,
        hreplica, fun r' htxn hpar' hreplica' hanswered => ?_⟩
      -- it would be the request that waits
      have hmem : r' ∈ c.ledger.answered.map Prod.fst := mem_map_of_mem hanswered
      have hcurrent' := (h.requests r' (mem_append_left _ hmem)).resolve_left fun hearlier =>
        hearlier.1.ne htxn
      have heq : r' = r := by
        cases r
        cases r'
        simp_all [Current]
      exact (nodup_append.mp h.nodup).2.2 r' hmem r hr heq
  · have hmem : r ∈ c.ledger.all := mem_append_right _ hr
    cases h with
    | idle _ hover => exact (hover.requests r hmem).2.1
    | dispatching h | asking _ h =>
      exact ((h.requests r hmem).resolve_right fun hc => hother hc.1).2.1
  · cases h with
    | idle _ hover => exact (hover.sent r hr).2.ne
    | dispatching h | asking _ h => exact fun hphase => hother ((h.sent r hr).2.2 hphase)

end Runs

/-- In every run of a coordinator, whatever the partitions and in whatever order the
    acknowledgements of its attempts come, its decisions are those of the fast path. -/
theorem fast_path_decisive (T : TxnLogic τ O) (N : Cluster) (maxRetry : ℤ) (cmd : τ)
    (es : List (Event τ O)) (h : Along (step T N maxRetry) Proper { cmd } es) :
    Throughout (step T N maxRetry) (Decisive T N maxRetry) { cmd } es := by
  have hinit : Inv N ({ cmd } : TapirCoord τ) := by
    refine .idle rfl ⟨nodup_nil, fun r hr => ?_, .nil _, fun r hr => ?_⟩
    · cases hr
    · cases hr
  exact throughout_mono (fun c hc => hc.decisive)
    (throughout_of_inv (fun _ _ _ hinv hproper hstep => inv_step hinv hproper hstep) hinit h)

/-- A transaction of two pieces, on partitions 0 and 1. -/
def twoPieces : TxnLogic Bool Unit := .oneShot [(0, [7]), (1, [8])] (by decide) (by decide)

/-- The first attempt is rejected by the only replica of partition 1, before a replica of partition 0
    accepts it; the second one is accepted by all. -/
def secondAttempt : List (Event Bool Unit) :=
  [.doOne false, .dispatchAck ⟨0, 1, 0, [7]⟩ [(7, ())], .dispatchAck ⟨0, 1, 1, [8]⟩ [(8, ())],
    .fastAcceptAck ⟨0, 2, 0, 1⟩ .success, .fastAcceptAck ⟨0, 2, 1, 0⟩ .reject,
    .dispatchAck ⟨2, 5, 1, [8]⟩ [(8, ())], .fastAcceptAck ⟨0, 2, 0, 0⟩ .success,
    .dispatchAck ⟨2, 5, 0, [7]⟩ [(7, ())], .fastAcceptAck ⟨2, 6, 0, 0⟩ .success,
    .fastAcceptAck ⟨2, 6, 1, 0⟩ .success, .fastAcceptAck ⟨2, 6, 0, 1⟩ .success]

theorem fast_path_decisive_second :
    (run (step twoPieces ⟨(2 - ·), 0⟩ 3) { cmd := false } secondAttempt).map
        (fun c => c.log.map fun f => (f.txn, f.commit)) = some [(0, false), (2, true)] ∧
      Throughout (step twoPieces ⟨(2 - ·), 0⟩ 3) (Decisive twoPieces ⟨(2 - ·), 0⟩ 3)
        { cmd := false } secondAttempt :=
  ⟨by decide +kernel,
    fast_path_decisive twoPieces ⟨(2 - ·), 0⟩ 3 false secondAttempt (by decide +kernel)⟩

end Fiss.Tapir.TapirCoord
