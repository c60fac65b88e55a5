import Fiss.Slog.Order

/-! `ExecTxnQueue` leaves nothing behind: of the transactions it comes to, none has a piece left that
    has its inputs and stands after no unexecuted piece in conflict with it. Between its calls the
    handlers keep this, since they call it again whenever a piece becomes ready. -/

namespace Fiss.Slog
open Fiss.Rcc List Dict Bool

section Settled

variable {DB : Type}

/-- The loop comes to slot `j`: the slots before are filled, and not too many unfinished. -/
structure Sched.Reached (site : Site DB) (st : Sched DB) (j : ℕ) : Prop where
  filled : ∀ i < j, ∃ t, st.txnQueue[i]? = some (some t)
  few : st.unfinished j ≤ site.maxPendingTxns

/-- The transaction in slot `j` is executed, or waits for its inputs or for earlier transactions. -/
def Sched.SettledAt (site : Site DB) (st : Sched DB) (j : ℕ) : Prop :=
  ∀ t d, st.Holds j t d → d.executed = true ∨
    (d.finished = false ∧ ∀ c ∈ d.pieces, c.runnable = true → ¬ st.Unhindered site j c.innId)

def Sched.Settled (site : Site DB) (st : Sched DB) : Prop :=
  ∀ j, st.Reached site j → st.SettledAt site j

/-- No transaction is in two slots. -/
def Sched.Distinct (st : Sched DB) : Prop :=
  ∀ (i j t : ℕ), st.txnQueue[i]? = some (some t) → st.txnQueue[j]? = some (some t) → i = j

/-- The loop has come to slot `i`: what pends is unexecuted before it, the unfinished transactions
    there are counted, and all of them are settled. -/
structure Exact (site : Site DB) (i : ℕ) (l : Loop DB) : Prop where
  pending : ∀ x ∈ l.pendingPieces, ∃ i' < i, ∃ t d, l.sched.Holds i' t d ∧
    ∃ c ∈ d.pieces, c.localExecuted = false ∧ c.innId = x
  found : l.foundPending ≤ l.sched.unfinished i
  settled : ∀ i' < i, l.sched.SettledAt site i'

end Settled

/-! ### One visit -/

section

variable {DB : Type} {site : Site DB} {st st' : Sched DB} {i t : ℕ} {d : TxSlog} {l : Loop DB}

theorem Holds.unique {d' : TxSlog} {t' : ℕ} (h : st.Holds i t d) (h' : st.Holds i t' d') :
    t = t' ∧ d = d' := by
  obtain rfl : t = t' := Option.some.inj (Option.some.inj (h.1.symm.trans h'.1))
  exact ⟨rfl, Option.some.inj (h.2.symm.trans h'.2)⟩

theorem unfinished_mono (st : Sched DB) : Monotone st.unfinished := by
  refine monotone_nat_of_le_succ fun i => ?_
  rw [unfinished_succ]
  exact Nat.le_add_right _ _

/-- The slots other than `i` hold what they held. -/
def OthersKept (i : ℕ) (st st' : Sched DB) : Prop :=
  ∀ i' ≠ i, ∀ t d, st'.Holds i' t d ↔ st.Holds i' t d

theorem othersKept_set (hdistinct : st.Distinct) (hslot : st.txnQueue[i]? = some (some t))
    (hqueue : st'.txnQueue = st.txnQueue) (hset : st'.dtxns = st.dtxns.set t d) :
    OthersKept i st st' := by
  intro i' hne u e
  rw [Sched.Holds, Sched.Holds, hqueue, hset]
  refine and_congr_right fun hu => ?_
  have hut : u ≠ t := fun heq => hne (hdistinct i' i t (heq ▸ hu) hslot)
  rw [find_set_ne _ hut]

theorem OthersKept.done (h : OthersKept i st st') {i' : ℕ} (hne : i' ≠ i) :
    st'.done i' = st.done i' := by
  rw [Bool.eq_iff_iff, done_iff, done_iff]
  simp only [h i' hne]

theorem OthersKept.unfinished (h : OthersKept i st st') : st'.unfinished i = st.unfinished i := by
  refine countP_congr fun i' hi' => ?_
  rw [h.done (mem_range.mp hi').ne]

theorem OthersKept.settledAt (h : OthersKept i st st') {i' : ℕ} (hi' : i' < i)
    (hsettled : st.SettledAt site i') : st'.SettledAt site i' := by
  intro t d hat
  rcases hsettled t d ((h i' hi'.ne t d).mp hat) with hx | ⟨hopen, hnone⟩
  · exact .inl hx
  · refine .inr ⟨hopen, fun c hc hrun hfree => hnone c hc hrun fun i1 hi1 => ?_⟩
    obtain ⟨u, e, hate, hclear⟩ := hfree i1 hi1
    exact ⟨u, e, (h i1 (hi1.trans hi').ne u e).mp hate, hclear⟩

theorem Exact.succ {l' : Loop DB} (h : Exact site i l) (hkept : OthersKept i l.sched l'.sched)
    (hpending : ∀ x ∈ l'.pendingPieces, x ∈ l.pendingPieces ∨ ∃ t d, l'.sched.Holds i t d ∧
      ∃ c ∈ d.pieces, c.localExecuted = false ∧ c.innId = x)
    (hfound : l'.foundPending ≤ l.foundPending + if l'.sched.done i then 0 else 1)
    (hsettled : l'.sched.SettledAt site i) : Exact site (i + 1) l' where
  pending x hx := by
    rcases hpending x hx with hold | ⟨t, d, hat, hc⟩
    · obtain ⟨i', hi', t, d, hat, hc⟩ := h.pending x hold
      exact ⟨i', Nat.lt_succ_of_lt hi', t, d, (hkept i' hi'.ne t d).mpr hat, hc⟩
    · exact ⟨i, Nat.lt_succ_self i, t, d, hat, hc⟩
  found := by
    rw [unfinished_succ, hkept.unfinished]
    exact hfound.trans (Nat.add_le_add_right h.found _)
  settled i' hi' := by
    rcases Nat.lt_succ_iff_lt_or_eq.mp hi' with hi' | rfl
    · exact hkept.settledAt hi' (h.settled i' hi')
    · exact hsettled

theorem Exact.hindered (h : Exact site i l) (hkept : OthersKept i l.sched st) {x : ℕ}
    (hconf : site.canExeWoConflict x l.pendingPieces = false) : ¬ st.Unhindered site i x := by
  intro hfree
  have hsome : ¬ ∀ p ∈ l.pendingPieces, site.checkPieceConflict p x = false := by
    rw [← canExeWoConflict_iff, hconf]
    exact false_ne_true
  refine hsome fun p hp => ?_
  obtain ⟨i', hi', t, d, hat, c, hc, hno, rfl⟩ := h.pending p hp
  obtain ⟨t', d', hat', hclear⟩ := hfree i' hi'
  obtain ⟨-, rfl⟩ := Holds.unique ((hkept i' hi'.ne t d).mpr hat) hat'
  exact hclear c hc hno

theorem recursive_executed (site : Site DB) (pending : OrdSet ℕ) (t : ℕ) (d : TxSlog) (db : DB)
    (ran : List Execution) :
    (d.recursiveExecuteReadyPieces site pending t db ran).dtxn.executed = d.executed :=
  sweeps_inv (I := fun pass : Pass DB => pass.dtxn.executed = d.executed) (fun _ _ h => h)
    (fun _ _ _ h _ _ => h) rfl

theorem Exact.tryExecute (h : Exact site i l) (hdistinct : l.sched.Distinct)
    (hat : l.sched.Holds i t d) (hopen : d.executed = false) :
    Exact site (i + 1) (l.tryExecute site t d) := by
  have hleft := recursive_settled site l.pendingPieces t d l.sched.db l.sched.ran
  have hsame := recursive_executed site l.pendingPieces t d l.sched.db l.sched.ran
  rw [Loop.tryExecute]
  dsimp only
  generalize d.recursiveExecuteReadyPieces site l.pendingPieces t l.sched.db l.sched.ran = pass
    at hleft hsame ⊢
  have hpend : ∀ x ∈ pass.dtxn.addPending l.pendingPieces, x ∈ l.pendingPieces ∨
      ∃ c ∈ pass.dtxn.pieces, c.localExecuted = false ∧ c.innId = x := fun x hx => mem_addPending.mp hx
  split
  · refine h.succ (othersKept_set hdistinct hat.1 rfl rfl) (fun x hx => ?_) (Nat.le_add_right _ _)
      fun u e hue => ?_
    · refine (hpend x hx).imp_right fun hc => ?_
      exact ⟨t, pass.dtxn.finish site, ⟨hat.1, find_set_self _ _ _⟩, hc⟩
    · obtain ⟨-, rfl⟩ := Holds.unique hue ⟨hat.1, find_set_self _ _ _⟩
      exact .inl rfl
  · next hfin =>
    have hatPass : (l.sched.withPass t pass).Holds i t pass.dtxn :=
      ⟨hat.1, find_set_self _ _ _⟩
    have hkept : OthersKept i l.sched (l.sched.withPass t pass) :=
      othersKept_set hdistinct hat.1 rfl rfl
    refine h.succ hkept (fun x hx => ?_) ?_ fun u e hue => ?_
    · exact (hpend x hx).imp_right fun hc => ⟨t, pass.dtxn, hatPass, hc⟩
    · rw [if_neg]
      intro hdone
      obtain ⟨u, e, hue, hx⟩ := done_iff.mp hdone
      obtain ⟨-, rfl⟩ := Holds.unique hue hatPass
      rw [hsame, hopen] at hx
      cases hx
    · obtain ⟨-, rfl⟩ := Holds.unique hue hatPass
      refine .inr ⟨eq_false_of_ne_true hfin, fun c hc hrun => ?_⟩
      have hnot := hleft c hc
      rw [Site.free, hrun, Bool.true_and] at hnot
      exact h.hindered hkept hnot

theorem Exact.skip (h : Exact site i l) (hat : l.sched.Holds i t d) (hx : d.executed = true) :
    Exact site (i + 1) l.skip := by
  have hkept : OthersKept i l.sched l.skip.sched := fun _ _ _ _ => Iff.rfl
  refine h.succ hkept (fun x hin => .inl hin) (Nat.le_add_right _ _) fun u e hue => ?_
  obtain ⟨-, rfl⟩ := Holds.unique hue (show l.skip.sched.Holds i t d from hat)
  exact .inl hx

theorem Exact.visit (h : Exact site i l) (hdistinct : l.sched.Distinct)
    (hslot : l.sched.txnQueue[i]? = some (some t)) : Exact site (i + 1) (l.visit site t) := by
  rw [Loop.visit]
  split
  · next hno =>
    refine h.succ (fun _ _ _ _ => Iff.rfl) (fun x hin => .inl hin) (Nat.le_add_right _ _)
      fun u e hue => ?_
    obtain rfl : u = t := Option.some.inj (Option.some.inj (hue.1.symm.trans hslot))
    cases hno.symm.trans hue.2
  · next d hd =>
    split
    · next hx => exact h.skip ⟨hslot, hd⟩ hx
    · next hx => exact h.tryExecute hdistinct ⟨hslot, hd⟩ (eq_false_of_ne_true hx)

end

/-! ### The whole loop -/

section

variable {DB : Type} {site : Site DB} {st : Sched DB}

theorem Exact.done {i : ℕ} {l : Loop DB} (h : Exact site i l)
    (hend : ∀ j, i ≤ j → l.sched.Reached site j → l.sched.SettledAt site j) :
    l.sched.Settled site := by
  intro j hj
  rcases lt_or_ge j i with hlt | hge
  · exact h.settled j hlt
  · exact hend j hge hj

theorem Exact.stop {i : ℕ} {l : Loop DB} (h : Exact site i l)
    (hslot : ∀ t, l.sched.txnQueue[i]? ≠ some (some t)) : l.sched.Settled site := by
  refine h.done fun j hge hj t d hat => ?_
  rcases hge.lt_or_eq with hlt | rfl
  · obtain ⟨u, hu⟩ := hj.filled i hlt
    exact absurd hu (hslot u)
  · exact absurd hat.1 (hslot t)

theorem slots_settled : ∀ {slots : List (Option ℕ)} {i : ℕ} {l : Loop DB},
    l.sched.txnQueue.drop i = slots → l.sched.Distinct → Exact site i l →
      (Loop.slots site slots l).sched.Settled site
  | [], i, l, hslots, _, h | none :: _, i, l, hslots, _, h => by
    refine h.stop fun t ht => ?_
    rw [← head?_drop, hslots] at ht
    cases ht
  | some t :: slots, i, l, hslots, hdistinct, h => by
    have hslot : l.sched.txnQueue[i]? = some (some t) := by
      rw [← head?_drop, hslots]
      rfl
    have hvisit := h.visit hdistinct hslot
    have hqueue := (visit_queue site t l).queue
    rw [Loop.slots]
    split
    · next hmany =>
      refine hvisit.done fun j hge hj => ?_
      have hfew := (hvisit.found.trans (unfinished_mono _ hge)).trans hj.few
      exact absurd hmany (not_lt.mpr hfew)
    · refine slots_settled ?_ ?_ hvisit
      · rw [hqueue, ← tail_drop, hslots]
        rfl
      · rw [Sched.Distinct, hqueue]
        exact hdistinct

theorem Exact.start (hs : Sound st) : Exact site st.nextExecuteIndex { sched := st } where
  pending x hx := absurd hx (OrdSet.notMem_empty x)
  found := Nat.zero_le _
  settled i hi t d hat := by
    obtain ⟨u, e, hue, hx⟩ := done_iff.mp (hs.below i hi)
    obtain ⟨-, rfl⟩ := Holds.unique hue hat
    exact .inl hx

theorem execTxnQueue_settled (hs : Sound st) (hdistinct : st.Distinct) :
    (st.execTxnQueue site).Settled site :=
  slots_settled rfl hdistinct (Exact.start hs)

end

/-! ### Between the calls -/

section

variable {DB : Type} {site : Site DB} {st st' : Sched DB} {t : ℕ} {d d' : TxSlog}

def status (c : SimpleCommand) : ℕ × Bool × Bool :=
  (c.innId, c.localExecuted, c.input.pieceInputReady)

/-- What of a record matters to what can be executed. -/
def TxSlog.view (d : TxSlog) : Bool × Bool × List (ℕ × Bool × Bool) :=
  (d.executed, d.finished, d.pieces.map status)

/-- The queued transactions look the same. -/
structure Alike (st st' : Sched DB) : Prop where
  queue : st'.txnQueue = st.txnQueue
  views : ∀ t, some t ∈ st.txnQueue →
    (st'.dtxns.find t).map TxSlog.view = (st.dtxns.find t).map TxSlog.view

theorem Alike.symm (h : Alike st st') : Alike st' st :=
  ⟨h.queue.symm, fun t ht => (h.views t (h.queue ▸ ht)).symm⟩

theorem Alike.trans {st'' : Sched DB} (h : Alike st st') (h' : Alike st' st'') : Alike st st'' :=
  ⟨h'.queue.trans h.queue, fun t ht => (h'.views t (h.queue.symm ▸ ht)).trans (h.views t ht)⟩

theorem Alike.holds (h : Alike st st') {j : ℕ} (hat : st.Holds j t d) :
    ∃ d', st'.Holds j t d' ∧ d'.view = d.view := by
  have hview := h.views t (mem_of_getElem? hat.1)
  rw [hat.2, Option.map_some] at hview
  obtain ⟨d', hd', heq⟩ := Option.map_eq_some_iff.mp hview
  exact ⟨d', ⟨h.queue ▸ hat.1, hd'⟩, heq⟩

theorem piece_of_view (h : d'.view = d.view) {c : SimpleCommand} (hc : c ∈ d.pieces) :
    ∃ c' ∈ d'.pieces, status c' = status c := by
  have hmap : d'.pieces.map status = d.pieces.map status := congrArg (fun v => v.2.2) h
  exact mem_map.mp (hmap ▸ mem_map_of_mem hc)

theorem Alike.unfinished (h : Alike st st') (j : ℕ) : st'.unfinished j = st.unfinished j := by
  have hdone : ∀ {st st' : Sched DB}, Alike st st' → ∀ {i : ℕ}, st.done i = true →
      st'.done i = true := by
    intro st st' h i hi
    obtain ⟨t, d, hat, hx⟩ := done_iff.mp hi
    obtain ⟨d', hat', hview⟩ := h.holds hat
    exact done_iff.mpr ⟨t, d', hat', (congrArg Prod.fst hview).trans hx⟩
  refine countP_congr fun i _ => ?_
  rw [Bool.eq_iff_iff.mpr ⟨hdone h.symm, hdone h⟩]

theorem Sched.Settled.alike (hst : st.Settled site) (h : Alike st st') : st'.Settled site := by
  intro j hj t d' hat'
  have hreached : st.Reached site j := ⟨fun i hi => h.queue ▸ hj.filled i hi, h.unfinished j ▸ hj.few⟩
  obtain ⟨d, hat, hview⟩ := h.symm.holds hat'
  rcases hst j hreached t d hat with hx | ⟨hopen, hnone⟩
  · exact .inl ((congrArg Prod.fst hview).symm.trans hx)
  · refine .inr ⟨(congrArg (fun v => v.2.1) hview).symm.trans hopen, fun c' hc' hrun hfree => ?_⟩
    obtain ⟨c, hc, hstatus⟩ := piece_of_view hview hc'
    obtain ⟨hid, hflags⟩ := Prod.ext_iff.mp hstatus
    obtain ⟨hexec, hready⟩ := Prod.ext_iff.mp hflags
    dsimp only [status] at hid hexec hready
    refine hnone c hc ?_ fun i hi => ?_
    · rw [SimpleCommand.runnable, hexec, hready]
      exact hrun
    · obtain ⟨u, e', hue', hclear⟩ := hfree i hi
      obtain ⟨e, hue, hsame⟩ := h.symm.holds hue'
      refine ⟨u, e, hue, fun b hb hno => ?_⟩
      obtain ⟨b', hb', hstatus'⟩ := piece_of_view hsame.symm hb
      obtain ⟨hid', hflags'⟩ := Prod.ext_iff.mp hstatus'
      dsimp only [status] at hid' hflags'
      rw [hid, ← hid']
      exact hclear b' hb' ((Prod.ext_iff.mp hflags').1.trans hno)

theorem alike_set (hqueue : st'.txnQueue = st.txnQueue) (hset : st'.dtxns = st.dtxns.set t d')
    (hview : some t ∈ st.txnQueue → ∃ d, st.dtxns.find t = some d ∧ d'.view = d.view) :
    Alike st st' := by
  refine ⟨hqueue, fun u hu => ?_⟩
  rw [hset, find_set]
  split
  · next heq =>
    obtain ⟨d, hd, hsame⟩ := hview (heq ▸ hu)
    rw [heq, hd, Option.map_some, Option.map_some, hsame]
  · rfl

theorem view_merge {values : Dict ℕ Value}
    (hno : (mergeCheckReadyPieces values d.pieces).2 = false) : (d.merge values).view = d.view := by
  have hpieces : (d.merge values).pieces.map status = d.pieces.map status := by
    rw [merge_pieces, map_map]
    refine map_congr_left fun c hc => ?_
    rw [mergeCheckReadyPieces_eq] at hno
    have hkept := eq_false_of_ne_true (any_eq_false.mp hno c hc)
    have hready : (c.offers values.entries).input.pieceInputReady = c.input.pieceInputReady := by
      cases hr : c.input.pieceInputReady with
      | true => rw [offers_of_ready hr, hr]
      | false =>
        rw [hr, Bool.not_false, Bool.true_and] at hkept
        exact hkept
    rw [Function.comp_apply, status, status, innId_offers, localExecuted_offers, hready]
  exact congrArg (fun l => (d.executed, d.finished, l)) hpieces

theorem mergePending_alike : ∀ (l : List (ℕ × Dict ℕ Value)) (st : Sched DB),
    (st.mergePending l).2 = false → Alike st (st.mergePending l).1
  | [], _, _ => ⟨rfl, fun _ _ => rfl⟩
  | (t, values) :: l, st, hno => by
    rw [Sched.mergePending] at hno ⊢
    split
    · next hnone =>
      rw [hnone] at hno
      have hrest := mergePending_alike l st hno
      exact ⟨hrest.queue, hrest.views⟩
    · next d hd =>
      rw [hd, or_eq_false_iff] at hno
      have hfirst : Alike st { st with dtxns := st.dtxns.set t (d.merge values) } :=
        alike_set rfl rfl fun _ => ⟨d, hd, view_merge hno.1⟩
      exact hfirst.trans (mergePending_alike l _ hno.2)

theorem checkPendingDeps_settled (hs : Sound st) (h : Logged site st) (hst : st.Settled site) :
    (st.checkPendingDeps site).Settled site := by
  have hmoves : Moves site .any st (st.mergePending st.pendingDepValues).1 :=
    mergePending_moves st.pendingDepValues [] st rfl (any_pending st)
  rw [Sched.checkPendingDeps]
  split
  · exact execTxnQueue_settled (hs.moves hmoves) (h.moves hs hmoves).distinct
  · next hno => exact hst.alike (mergePending_alike _ st (eq_false_of_ne_true hno))

theorem onSendDepValues_settled (hs : Sound st) (h : Logged site st) (hst : st.Settled site)
    (t : ℕ) (values : Dict ℕ Value) : (st.onSendDepValues site t values).Settled site := by
  rw [Sched.onSendDepValues]
  split
  · exact hst.alike ⟨rfl, fun _ _ => rfl⟩
  · next d hd =>
    have hmerge : Move site Supply.any st { st with dtxns := st.dtxns.set t (d.merge values) } :=
      Move.merge hd trivial (.inl rfl)
    dsimp only
    split
    · exact execTxnQueue_settled (hs.move hmerge) (h.move hmerge).distinct
    · next hno =>
      have halike : Alike st { st with dtxns := st.dtxns.set t (d.merge values) } :=
        alike_set rfl rfl fun _ => ⟨d, hd, view_merge (eq_false_of_ne_true hno)⟩
      exact hst.alike halike

theorem settled_step {ev : SiteEvent} (hs : Sound st) (h : Logged site st) (hst : st.Settled site)
    (hfresh : Fresh site st ev) (hstep : siteStep site st ev = some st') : st'.Settled site := by
  cases ev with
  | submitTxn cmds =>
    obtain ⟨c, -, hno, rfl⟩ := onSubmitTxn_eq hfresh hstep
    refine hst.alike (alike_set rfl rfl fun hin => ?_)
    -- a transaction in the queue has a record
    obtain ⟨j, hj⟩ := mem_iff_getElem?.mp hin
    obtain ⟨d, hd⟩ := hs.known j _ hj
    cases hno.symm.trans hd
  | sendBatch b =>
    obtain ⟨st1, hmoves, rfl⟩ := onSendBatch_queued hfresh (any_allows site st (.sendBatch b))
      (ok_of_toOption hstep)
    have hs1 := hs.moves hmoves
    have h1 := h.moves hs hmoves
    have hexec : Moves site .any st1 (st1.execTxnQueue site) :=
      execTxnQueue_moves hs1
    exact checkPendingDeps_settled (hs1.moves hexec) (h1.moves hs1 hexec)
      (execTxnQueue_settled hs1 h1.distinct)
  | sendDepValues t values =>
    obtain rfl := Option.some.inj hstep
    exact onSendDepValues_settled hs h hst t values
  | sendTxnOutput t par output =>
    obtain ⟨d, hd, ⟨-, rfl⟩ | ⟨-, rfl⟩⟩ := onSendTxnOutput_cases output hstep
    · exact hst
    · exact hst.alike (alike_set rfl rfl fun _ => ⟨d, hd, rfl⟩)

end

end Fiss.Slog
