import Fiss.Slog.Sched

/-! The queue of a site, with the manager that fills it. The batches a site is sent cover the log piece
    by piece without overlap, so that they can be delivered in any order: each finds its slots empty
    and puts the log's transactions there. The leader of a shard notifies the indices one after the
    other up to the first that is missing. -/

namespace Fiss.Slog
open Fiss.Rcc List Batch Region
open Option (some.inj bind_eq_some_iff map_eq_some_iff ite_none_right_eq_some)

/-- A manager and a site of its region, with the batches delivered to it, by their positions. -/
structure Line (DB : Type) where
  sender : Sender := {}
  sched : Sched DB
  delivered : List ℕ := []

inductive LineEvent where
  | manager (ev : SenderEvent)
  /-- the batch sent as the `n`-th arrives -/
  | deliver (n : ℕ)
  | submitTxn (cmds : Cmds)
  | sendDepValues (t : ℕ) (values : Dict ℕ Value)
  | sendTxnOutput (t par : ℕ) (output : TxnOutput)

section Step

variable {DB : Type}

/-- A batch on its way to the site. -/
def Line.UnderWay (site : Site DB) (st : Line DB) (n : ℕ) (b : Batch) : Prop :=
  st.sender.sent[n]? = some (site.siteId, b) ∧ n ∉ st.delivered

/-- The batch that is delivered to the site as the `n`-th. -/
def Line.incoming (site : Site DB) (st : Line DB) (n : ℕ) : Option Batch :=
  if n ∈ st.delivered then none
  else (st.sender.sent[n]?).bind fun p => if p.1 = site.siteId then some p.2 else none

/-- One step of the manager or of the site. -/
def lineStep (reg : Region) (site : Site DB) (st : Line DB) : LineEvent → Option (Line DB)
  | .manager ev => (senderStep reg st.sender ev).map fun s => { st with sender := s }
  | .deliver n => (st.incoming site n).bind fun b =>
      (st.sched.onSendBatch site b).toOption.map fun s =>
        { st with sched := s, delivered := n :: st.delivered }
  | .submitTxn cmds => (st.sched.onSubmitTxn site cmds).map fun s => { st with sched := s }
  | .sendDepValues t values => some { st with sched := st.sched.onSendDepValues site t values }
  | .sendTxnOutput t par output =>
      (st.sched.onSendTxnOutput site t par output).map fun s => { st with sched := s }

/-- The queue is the log as far as it was delivered, with its records, and is notified in order. -/
structure SameQueue (reg : Region) (site : Site DB) (st : Line DB) : Prop where
  /-- a batch that arrives finds its slots empty -/
  never : ∀ n b, st.UnderWay site n b → st.sched.onSendBatch site b ≠ .error .occupied
  /-- an index delivered holds the log's transaction -/
  filled : ∀ n ∈ st.delivered, ∀ b, st.sender.sent[n]? = some (site.siteId, b) →
    ∀ k, b.startIndex ≤ k → k < b.startIndex + b.cmds.length →
      ∃ e t, st.sender.manager.log[k]? = some e ∧ reg.txnId e = some t ∧
        st.sched.txnQueue[k]? = some (some t)
  /-- and nothing else is in the queue -/
  only : ∀ (k t : ℕ), st.sched.txnQueue[k]? = some (some t) →
    ∃ e, st.sender.manager.log[k]? = some e ∧ reg.txnId e = some t
  /-- a record that no client made here has the pieces and the coordinating site of the log -/
  records : Recorded (fun t d => ∃ (k : ℕ) (e : LogEntry) (par : ℕ),
    st.sched.txnQueue[k]? = some (some t) ∧ st.sender.manager.log[k]? = some e ∧
      reg.txnId e = some t ∧ site.siteId ∈ reg.rpcParProxies par ∧
      d = site.received ((e.cmds.find par).getD []) e.coordSite) st.sched.dtxns
  /-- a leader has notified the indices up to the first that is missing -/
  leader : site.siteId % nRepPerShard = 0 →
    st.sched.notified = range st.sched.nextNotifyIndex ∧
      AtGap Option.isSome st.sched.txnQueue st.sched.nextNotifyIndex
  follower : site.siteId % nRepPerShard ≠ 0 → st.sched.notified = []

end Step

/-! ### What the batches cover -/

section

variable {reg : Region} {s s' : Sender} {log log' : List LogEntry} {target : ℕ} {b : Batch}

def Batch.finish (b : Batch) : ℕ := b.startIndex + b.cmds.length

/-- The batch carries the ids of the log, the pieces for the partition of its target, and the
    coordinating sites. -/
def Carries (reg : Region) (log : List LogEntry) (target : ℕ) (b : Batch) : Prop :=
  ∀ (i : ℕ) (p : ℕ × List SimpleCommand), b.cmds[i]? = some p →
    ∃ e par, log[b.startIndex + i]? = some e ∧ reg.txnId e = some p.1 ∧
      target ∈ reg.rpcParProxies par ∧ p.2 = (e.cmds.find par).getD [] ∧
      b.coordSites[i]? = some (p.1, e.coordSite)

/-- The entries stay in their places, with their commands and coordinating sites. -/
def LogKept (log log' : List LogEntry) : Prop :=
  ∀ (k : ℕ) (e : LogEntry), log[k]? = some e →
    ∃ e', log'[k]? = some e' ∧ e'.cmds = e.cmds ∧ e'.coordSite = e.coordSite

theorem Carries.kept (h : Carries reg log target b) (hlog : LogKept log log') :
    Carries reg log' target b := by
  intro i p hp
  obtain ⟨e, par, he, ht, hpar, hpieces, hcoord⟩ := h i p hp
  obtain ⟨e', he', hcmds, hsite⟩ := hlog _ e he
  exact ⟨e', par, he', by rw [txnId, hcmds]; exact ht, hpar, hcmds ▸ hpieces, hsite ▸ hcoord⟩

theorem logKept_grown {m m' : Manager} (h : Grown m m') : LogKept m.log m'.log := by
  intro k e he
  obtain ⟨more, hmore⟩ := h.log
  have hlt : k < m.log.length := (List.getElem?_eq_some_iff.mp he).1
  exact ⟨e, by rw [hmore, getElem?_append_left hlt, he], rfl, rfl⟩

theorem logKept_commit (log : List LogEntry) (index : ℕ) :
    LogKept log (log.modify index LogEntry.markCommitted) := by
  intro k e he
  rcases eq_or_ne index k with rfl | hne
  · exact ⟨e.markCommitted, by rw [getElem?_modify_eq, he]; rfl, rfl, rfl⟩
  · exact ⟨e, by rw [getElem?_modify_ne _ _ hne, he], rfl, rfl⟩

/-- The batches sent to one site cover the log up to `next_send_index_` without overlap. -/
structure Covering (reg : Region) (s : Sender) : Prop where
  sendLe : s.nextSendIndex ≤ s.nextCommitIndex
  commitLe : s.nextCommitIndex ≤ s.manager.log.length
  apart : s.sent.Pairwise fun p q => p.1 = q.1 → p.2.finish ≤ q.2.startIndex
  below : ∀ p ∈ s.sent, p.2.finish ≤ s.nextSendIndex
  carries : ∀ p ∈ s.sent, Carries reg s.manager.log p.1 p.2

theorem Covering.init (reg : Region) : Covering reg {} where
  sendLe := le_rfl
  commitLe := le_rfl
  apart := List.Pairwise.nil
  below := forall_mem_nil _
  carries := forall_mem_nil _

theorem mapM_getElem {α β : Type} {f : α → Option β} : ∀ {l : List α} {l' : List β},
    l.mapM f = some l' → l'.length = l.length ∧
      ∀ (i : ℕ) (y : β), l'[i]? = some y → ∃ x, l[i]? = some x ∧ f x = some y
  | [], l', h => by
    obtain rfl : [] = l' := some.inj h
    exact ⟨rfl, fun i y hy => by cases hy⟩
  | x :: l, l', h => by
    rw [mapM_cons] at h
    obtain ⟨y, hy, h⟩ := bind_eq_some_iff.mp h
    obtain ⟨ys, hys, h⟩ := bind_eq_some_iff.mp h
    obtain rfl := some.inj h
    obtain ⟨hlen, hget⟩ := mapM_getElem hys
    refine ⟨by rw [length_cons, length_cons, hlen], fun i z hz => ?_⟩
    cases i with
    | zero => exact ⟨x, rfl, by rw [hy]; exact hz⟩
    | succ i => exact hget i z hz

theorem batch_covers {par : ℕ} {txns : List (ℕ × LogEntry)} {barriers : List ℕ}
    (hsend : s.nextSendIndex ≤ s.nextCommitIndex) (hcommit : s.nextCommitIndex ≤ s.manager.log.length)
    (htxns : s.txns reg = some txns) (htarget : target ∈ reg.rpcParProxies par) :
    (batch par s.nextSendIndex txns barriers).finish = s.nextCommitIndex ∧
      Carries reg s.manager.log target (batch par s.nextSendIndex txns barriers) := by
  obtain ⟨hlen, hget⟩ := mapM_getElem htxns
  constructor
  · simp only [finish, batch, length_map, hlen, length_drop,
      length_take]
    omega
  · intro i p hp
    simp only [batch, getElem?_map, map_eq_some_iff] at hp
    obtain ⟨⟨t, e⟩, hte, rfl⟩ := hp
    obtain ⟨e', he', ht⟩ := hget i _ hte
    obtain ⟨t', ht', heq⟩ := map_eq_some_iff.mp ht
    cases heq
    rw [getElem?_drop, getElem?_take] at he'
    refine ⟨e, par, (ite_none_right_eq_some.mp he').2, ht', htarget, rfl, ?_⟩
    rw [batch, getElem?_map, hte]
    rfl

/-- What a round sends for the partitions in turn. -/
structure Sends (reg : Region) (pars : List ℕ) (s s' : Sender) : Prop where
  manager : s'.manager = s.manager
  nextSend : s'.nextSendIndex = s.nextSendIndex
  nextCommit : s'.nextCommitIndex = s.nextCommitIndex
  new : ∃ new, s'.sent = s.sent ++ new ∧ new.map Prod.fst = pars.flatMap reg.rpcParProxies ∧
    ∀ p ∈ new, p.2.startIndex = s.nextSendIndex ∧ p.2.finish = s.nextCommitIndex ∧
      Carries reg s.manager.log p.1 p.2

theorem sendTo_sends {par : ℕ} (hsend : s.nextSendIndex ≤ s.nextCommitIndex)
    (hcommit : s.nextCommitIndex ≤ s.manager.log.length) (h : s.sendTo reg par = some s') :
    Sends reg [par] s s' := by
  obtain ⟨txns, htxns, rfl⟩ := map_eq_some_iff.mp h
  refine ⟨rfl, rfl, rfl, _, rfl, ?_, fun p hp => ?_⟩
  · rw [map_map, flatMap_singleton]
    exact map_id _
  · obtain ⟨site, hsite, rfl⟩ := mem_map.mp hp
    exact ⟨rfl, batch_covers hsend hcommit htxns hsite⟩

theorem sendTo_run : ∀ {pars : List ℕ} {s : Sender}, s.nextSendIndex ≤ s.nextCommitIndex →
    s.nextCommitIndex ≤ s.manager.log.length → run (Sender.sendTo reg) s pars = some s' →
      Sends reg pars s s'
  | [], s, _, _, h => by
    obtain rfl := some.inj h
    exact ⟨rfl, rfl, rfl, [], (append_nil _).symm, rfl, forall_mem_nil _⟩
  | par :: pars, s, hsend, hcommit, h => by
    obtain ⟨s1, h1, h⟩ := run_cons.mp h
    obtain ⟨hm, hns, hnc, new, hnew, hsites, hcov⟩ := sendTo_sends hsend hcommit h1
    obtain ⟨hm', hns', hnc', new', hnew', hsites', hcov'⟩ :=
      sendTo_run (by rw [hns, hnc]; exact hsend) (by rw [hm, hnc]; exact hcommit) h
    refine ⟨hm'.trans hm, hns'.trans hns, hnc'.trans hnc, new ++ new', ?_, ?_,
      forall_mem_append.mpr ⟨hcov, hns ▸ hnc ▸ hm ▸ hcov'⟩⟩
    · rw [hnew', hnew, append_assoc]
    · rw [map_append, hsites, hsites', flatMap_singleton, flatMap_cons]

theorem nodup_sites (reg : Region) : (reg.partitions.flatMap reg.rpcParProxies).Nodup :=
  have hpars : reg.partitions.Nodup := nodup_range'
  nodup_flatMap.mpr ⟨fun par _ => reg.nodup par, hpars.imp fun hne => reg.disjoint _ _ hne⟩

section
variable (h : Covering reg s)
include h

theorem Covering.round (hs : s.checkAndSendBacth reg = some s') : Covering reg s' := by
  rw [Sender.checkAndSendBacth] at hs
  split at hs
  · obtain ⟨s1, hrun, rfl⟩ := map_eq_some_iff.mp hs
    obtain ⟨hm, hns, hnc, new, hnew, hsites, hcov⟩ := sendTo_run h.sendLe h.commitLe hrun
    refine ⟨le_rfl, by rw [hm, hnc]; exact h.commitLe, ?_, fun p hp => ?_, fun p hp => ?_⟩
    · rw [hnew]
      refine pairwise_append.mpr ⟨h.apart, ?_, fun p hp q hq _ => ?_⟩
      · -- within the round no two go to one site
        have hnodup : (new.map Prod.fst).Nodup := hsites ▸ nodup_sites reg
        exact (pairwise_map.mp hnodup).imp fun hne heq => absurd heq hne
      · rw [(hcov q hq).1]
        exact h.below p hp
    · rw [hnew] at hp
      rcases mem_append.mp hp with hp | hp
      · exact (h.below p hp).trans (h.sendLe.trans hnc.ge)
      · exact ((hcov p hp).2.1.trans hnc.symm).le
    · rw [hnew] at hp
      rw [hm]
      rcases mem_append.mp hp with hp | hp
      · exact h.carries p hp
      · exact (hcov p hp).2.2
  · exact some.inj hs ▸ h

theorem Covering.grow {m : Manager} (hm : Grown s.manager m) :
    Covering reg { s with manager := m } :=
  ⟨h.sendLe, h.commitLe.trans hm.length_le, h.apart, h.below,
    fun p hp => (h.carries p hp).kept (logKept_grown hm)⟩

theorem Covering.ack {index : ℕ} (hs : s.replicateACK index = some s') : Covering reg s' := by
  obtain ⟨-, hs'⟩ := ite_none_right_eq_some.mp hs
  obtain rfl := some.inj hs'
  refine ⟨h.sendLe.trans (Nat.le_add_right _ _), advance_le ?_, h.apart, h.below,
    fun p hp => (h.carries p hp).kept (logKept_commit _ index)⟩
  rw [length_modify]
  exact h.commitLe

theorem Covering.step {ev : SenderEvent} (hs : senderStep reg s ev = some s') :
    Covering reg s' ∧ LogKept s.manager.log s'.manager.log ∧ s.sent <+: s'.sent := by
  cases ev with
  | orderedCRT msg =>
    obtain ⟨m, hm, rfl⟩ := map_eq_some_iff.mp hs
    have hgrown := slogSendOrderedCRT_grown hm
    exact ⟨h.grow hgrown, logKept_grown hgrown, prefix_rfl⟩
  | rmIRT cmds handlerSite =>
    obtain rfl := some.inj hs
    have hgrown : Grown s.manager (s.manager.sendRmIRT cmds handlerSite) :=
      insertLocalLog_grown none cmds handlerSite cmds.keys
    exact ⟨h.grow hgrown, logKept_grown hgrown, prefix_rfl⟩
  | replicateACK index =>
    refine ⟨h.ack hs, ?_⟩
    obtain ⟨-, hs'⟩ := ite_none_right_eq_some.mp hs
    obtain rfl := some.inj hs'
    exact ⟨logKept_commit _ index, prefix_rfl⟩
  | round =>
    refine ⟨h.round hs, ?_⟩
    have hs : s.checkAndSendBacth reg = some s' := hs
    rw [Sender.checkAndSendBacth] at hs
    split at hs
    · obtain ⟨s1, hrun, rfl⟩ := map_eq_some_iff.mp hs
      obtain ⟨hm, -, -, new, hnew, -, -⟩ := sendTo_run h.sendLe h.commitLe hrun
      refine ⟨fun k e he => ⟨e, by rw [hm]; exact he, rfl, rfl⟩, new, hnew.symm⟩
    · obtain rfl := some.inj hs
      exact ⟨fun k e he => ⟨e, he, rfl, rfl⟩, prefix_rfl⟩

theorem Covering.unique {site m n k : ℕ} {b b' : Batch}
    (hm : s.sent[m]? = some (site, b)) (hn : s.sent[n]? = some (site, b'))
    (hb : b.startIndex ≤ k ∧ k < b.finish) (hb' : b'.startIndex ≤ k ∧ k < b'.finish) : m = n := by
  obtain ⟨hmlt, hmeq⟩ := List.getElem?_eq_some_iff.mp hm
  obtain ⟨hnlt, hneq⟩ := List.getElem?_eq_some_iff.mp hn
  have hapart := pairwise_iff_getElem.mp h.apart
  rcases Nat.lt_trichotomy m n with hlt | heq | hgt
  · have hle : b.finish ≤ b'.startIndex := by
      have hrel := hapart m n hmlt hnlt hlt (by rw [hmeq, hneq])
      rwa [hmeq, hneq] at hrel
    omega
  · exact heq
  · have hle : b'.finish ≤ b.startIndex := by
      have hrel := hapart n m hnlt hmlt hgt (by rw [hmeq, hneq])
      rwa [hmeq, hneq] at hrel
    omega

end

end

/-! ### What a batch does to the queue -/

section

variable {DB : Type} {site : Site DB} {b : Batch} {st st' : Sched DB} {i : ℕ}

/-- The record that the site makes of entry `i` of a batch. -/
def Batch.Makes (site : Site DB) (b : Batch) (i t : ℕ) (d : TxSlog) : Prop :=
  ∃ pieces coord, b.cmds[i]? = some (t, pieces) ∧ b.coordSites[i]? = some coord ∧
    d = site.received pieces coord.2

/-- The transactions `is` of a batch have taken their slots, with records. -/
structure Placed (site : Site DB) (b : Batch) (is : List ℕ) (st st' : Sched DB) : Prop where
  filled : ∀ i ∈ is, ∃ p, b.cmds[i]? = some p ∧ st'.txnQueue[b.startIndex + i]? = some (some p.1)
  others : ∀ (k : ℕ), (∀ i ∈ is, k ≠ b.startIndex + i) → st'.txnQueue[k]? = st.txnQueue[k]?
  next : st'.nextNotifyIndex = st.nextNotifyIndex
  notified : st'.notified = st.notified
  records : Recorded (fun t d => st.dtxns.find t = some d ∨ ∃ i ∈ is, b.Makes site i t d) st'.dtxns

theorem enqueue_error {k t : ℕ} {f : Fault} (h : st.enqueue k t = .error f) :
    st.txnQueue[k]? ≠ some none := by
  rw [Sched.enqueue] at h
  split at h
  · cases h
  · next hfull => exact hfull

theorem insert_placed (h : st.insert site b i = .ok st') : Placed site b [i] st st' := by
  have hplaced : ∀ {dtxns : Dict ℕ TxSlog} {p : ℕ × List SimpleCommand}, b.cmds[i]? = some p →
      Sched.enqueue (b.startIndex + i) p.1 { st with dtxns := dtxns } = .ok st' →
      Recorded (fun t d => st.dtxns.find t = some d ∨ ∃ j ∈ [i], b.Makes site j t d) dtxns →
      Placed site b [i] st st' := by
    intro dtxns p hp henq hrecords
    obtain ⟨hfree, rfl⟩ := enqueue_ok henq
    have hlt := (List.getElem?_eq_some_iff.mp hfree).1
    refine ⟨fun j hj => ?_, fun k hk => ?_, rfl, rfl, hrecords⟩
    · rw [mem_singleton.mp hj]
      exact ⟨p, hp, getElem?_set_self hlt⟩
    · exact getElem?_set_ne (hk i mem_cons_self).symm
  rw [Sched.insert] at h
  split at h
  · next cmd coord touched hcmd hcoord _ =>
    split at h
    · cases h
    · split at h
      · split at h
        · exact hplaced hcmd h fun _ _ hd => .of (.inl hd)
        · cases h
      · refine hplaced hcmd h fun t d hd => ?_
        rw [Dict.find_set] at hd
        split at hd
        · next ht =>
          obtain rfl := some.inj hd
          exact .of (.inr ⟨i, mem_singleton_self i, cmd.2, coord, ht ▸ hcmd, hcoord, rfl⟩)
        · exact .of (.inl hd)
  · cases h

theorem insert_occupied (h : st.insert site b i = .error .occupied) :
    st.txnQueue[b.startIndex + i]? ≠ some none := by
  rw [Sched.insert] at h
  split at h
  · split at h
    · cases h
    · split at h
      · split at h
        · exact enqueue_error h
        · cases h
      · have hfull := enqueue_error h
        exact hfull
  · cases h

theorem Placed.nil (b : Batch) (st : Sched DB) : Placed site b [] st st :=
  ⟨forall_mem_nil _, fun _ _ => rfl, rfl, rfl, fun _ _ hd => .of (.inl hd)⟩

theorem insertAll_placed : ∀ {is : List ℕ} {st : Sched DB}, is.Nodup →
    st.insertAll site b is = .ok st' → Placed site b is st st'
  | [], st, _, h => by
    obtain rfl : st = st' := Except.ok.inj h
    exact Placed.nil b st
  | i :: is, st, hnodup, h => by
    obtain ⟨hi, hnodup⟩ := nodup_cons.mp hnodup
    obtain ⟨st1, hfirst, h⟩ := insertAll_cons h
    have h1 := insert_placed hfirst
    have h2 : Placed site b is st1 st' := insertAll_placed hnodup h
    refine ⟨fun j hj => ?_, fun k hk => ?_, h2.next.trans h1.next, h2.notified.trans h1.notified,
      h2.records.bind fun t d hd => ?_⟩
    · rcases mem_cons.mp hj with rfl | hj
      · -- its slot is none of the later ones
        obtain ⟨p, hp, hslot⟩ := h1.filled j mem_cons_self
        refine ⟨p, hp, (h2.others _ fun j' hj' heq => hi ?_).trans hslot⟩
        rwa [Nat.add_left_cancel heq]
      · exact h2.filled j hj
    · rw [h2.others k fun j hj => hk j (mem_cons_of_mem _ hj)]
      exact h1.others k fun j hj => by
        rw [mem_singleton.mp hj]
        exact hk i mem_cons_self
    · rcases hd with hd | ⟨j, hj, hmade⟩
      · refine h1.records.bind (fun t d hd => .of (hd.imp_right ?_)) t d hd
        rintro ⟨j, hj, hmade⟩
        exact ⟨j, mem_cons.mpr (.inl (mem_singleton.mp hj)), hmade⟩
      · exact .of (.inr ⟨j, mem_cons_of_mem _ hj, hmade⟩)

theorem insertAll_free : ∀ {is : List ℕ} {st : Sched DB}, is.Nodup →
    (∀ i ∈ is, st.txnQueue[b.startIndex + i]? = some none) →
    st.insertAll site b is ≠ .error .occupied
  | [], st, _, _, h => by cases h
  | i :: is, st, hnodup, hfree, h => by
    obtain ⟨hi, hnodup⟩ := nodup_cons.mp hnodup
    rw [Sched.insertAll] at h
    cases hfirst : st.insert site b i with
    | error f =>
      rw [hfirst] at h
      cases h
      exact insert_occupied hfirst (hfree i mem_cons_self)
    | ok st1 =>
      rw [hfirst] at h
      refine insertAll_free hnodup (fun j hj => ?_) h
      rw [(insert_placed hfirst).others]
      · exact hfree j (mem_cons_of_mem _ hj)
      · intro i' hi' heq
        rw [mem_singleton.mp hi'] at heq
        exact hi (Nat.add_left_cancel heq ▸ hj)

theorem extend_slot {k t : ℕ} :
    (st.extend b).txnQueue[k]? = some (some t) ↔ st.txnQueue[k]? = some (some t) := by
  refine ⟨slot_extend, fun h => ?_⟩
  rw [Sched.extend, getElem?_append_left (List.getElem?_eq_some_iff.mp h).1]
  exact h

theorem extend_free (hi : i < b.cmds.length)
    (hfree : ∀ t, st.txnQueue[b.startIndex + i]? ≠ some (some t)) :
    (st.extend b).txnQueue[b.startIndex + i]? = some none := by
  have hlt : b.startIndex + i < (st.extend b).txnQueue.length := by
    simp only [Sched.extend, length_append, length_replicate]
    omega
  have hget := getElem?_eq_getElem hlt
  cases hslot : (st.extend b).txnQueue[b.startIndex + i] with
  | none => rw [hget, hslot]
  | some t => exact absurd (extend_slot.mp (hget.trans (congrArg some hslot))) (hfree t)

theorem onSendBatch_never (hfree : ∀ i < b.cmds.length, ∀ t,
    st.txnQueue[b.startIndex + i]? ≠ some (some t)) : st.onSendBatch site b ≠ .error .occupied := by
  have hnever : (st.extend b).insertAll site b (range b.cmds.length) ≠ .error .occupied :=
    insertAll_free nodup_range fun i hi =>
      extend_free (mem_range.mp hi) (hfree i (mem_range.mp hi))
  intro h
  rw [Sched.onSendBatch] at h
  cases hall : (st.extend b).insertAll site b (range b.cmds.length) with
  | error f =>
    rw [hall] at h
    cases h
    exact hnever hall
  | ok st1 =>
    rw [hall] at h
    cases h

theorem onSendBatch_placed (h : st.onSendBatch site b = .ok st') :
    ∃ st1, Placed site b (range b.cmds.length) (st.extend b) st1 ∧
      QueueKept (st1.notify site) st' := by
  obtain ⟨st1, hall, rfl⟩ := onSendBatch_ok h
  exact ⟨st1, insertAll_placed nodup_range hall,
    (execTxnQueue_queue site _).trans (checkPendingDeps_queue site _)⟩

theorem notify_queue (site : Site DB) (st : Sched DB) :
    (st.notify site).txnQueue = st.txnQueue := by
  rw [Sched.notify]
  split <;> rfl

theorem notify_dtxns (site : Site DB) (st : Sched DB) : (st.notify site).dtxns = st.dtxns := by
  rw [Sched.notify]
  split <;> rfl

theorem onSendBatch_slot (h : st.onSendBatch site b = .ok st') {k t : ℕ}
    (hslot : st'.txnQueue[k]? = some (some t)) : st.txnQueue[k]? = some (some t) ∨
      ∃ i p, b.cmds[i]? = some p ∧ p.1 = t ∧ k = b.startIndex + i := by
  obtain ⟨st1, hplaced, hkept⟩ := onSendBatch_placed h
  rw [hkept.queue, notify_queue] at hslot
  by_cases hin : ∃ i ∈ range b.cmds.length, k = b.startIndex + i
  · obtain ⟨i, hi, rfl⟩ := hin
    obtain ⟨p, hp, hfilled⟩ := hplaced.filled i hi
    exact .inr ⟨i, p, hp, some.inj (some.inj (hfilled.symm.trans hslot)), rfl⟩
  · rw [hplaced.others k fun i hi heq => hin ⟨i, hi, heq⟩] at hslot
    exact .inl (extend_slot.mp hslot)

theorem onSendBatch_filled (h : st.onSendBatch site b = .ok st') {i : ℕ}
    {p : ℕ × List SimpleCommand} (hp : b.cmds[i]? = some p) :
    st'.txnQueue[b.startIndex + i]? = some (some p.1) := by
  obtain ⟨st1, hplaced, hkept⟩ := onSendBatch_placed h
  have hlt := (List.getElem?_eq_some_iff.mp hp).1
  obtain ⟨p', hp', hfilled⟩ := hplaced.filled i (mem_range.mpr hlt)
  rw [hkept.queue, notify_queue, hfilled, some.inj (hp'.symm.trans hp)]

end

/-! ### Runs -/

section

variable {DB : Type} {reg : Region} {site : Site DB} {st st' : Line DB}

/-- Slot `k` was filled with `t` by batch `n`. -/
def Line.FilledBy (site : Site DB) (st : Line DB) (k t n : ℕ) : Prop :=
  ∃ b p, st.sender.sent[n]? = some (site.siteId, b) ∧ b.startIndex ≤ k ∧
    b.cmds[k - b.startIndex]? = some p ∧ p.1 = t

/-- A batch that was delivered made the record of `t`. -/
def Line.Makes (site : Site DB) (st : Line DB) (t : ℕ) (d : TxSlog) : Prop :=
  ∃ n ∈ st.delivered, ∃ b i, st.sender.sent[n]? = some (site.siteId, b) ∧ b.Makes site i t d

/-- The leader notifies in order, up to the first gap; the others do not. -/
structure Notifies (site : Site DB) (s : Sched DB) : Prop where
  leader : site.siteId % nRepPerShard = 0 → s.notified = range s.nextNotifyIndex ∧
    AtGap Option.isSome s.txnQueue s.nextNotifyIndex
  follower : site.siteId % nRepPerShard ≠ 0 → s.notified = []

structure LineInv (reg : Region) (site : Site DB) (st : Line DB) : Prop where
  covering : Covering reg st.sender
  slots : ∀ (k t : ℕ), st.sched.txnQueue[k]? = some (some t) ↔
    ∃ n ∈ st.delivered, st.FilledBy site k t n
  valid : ∀ n ∈ st.delivered, n < st.sender.sent.length
  notifies : Notifies site st.sched
  records : Recorded (st.Makes site) st.sched.dtxns

theorem Notifies.kept {s s' : Sched DB} (h : Notifies site s) (hkept : QueueKept s s') :
    Notifies site s' := by
  refine ⟨fun hlead => ?_, fun hfollow => ?_⟩
  · rw [hkept.notified, hkept.next, hkept.queue]
    exact h.leader hlead
  · rw [hkept.notified]
    exact h.follower hfollow

theorem LineInv.kept {s : Sched DB} (h : LineInv reg site st) (hkept : QueueKept st.sched s) :
    LineInv reg site { st with sched := s } :=
  ⟨h.covering, fun k t => by rw [hkept.queue]; exact h.slots k t, h.valid, h.notifies.kept hkept,
    hkept.records.bind h.records⟩

theorem LineInv.manager {ev : SenderEvent} {s : Sender} (h : LineInv reg site st)
    (hs : senderStep reg st.sender ev = some s) : LineInv reg site { st with sender := s } := by
  obtain ⟨hcov, -, hprefix⟩ := h.covering.step hs
  -- what was sent before stands where it stood
  have hsame : ∀ n ∈ st.delivered, s.sent[n]? = st.sender.sent[n]? := fun n hn => by
    obtain ⟨new, hnew⟩ := hprefix
    rw [← hnew, getElem?_append_left (h.valid n hn)]
  refine ⟨hcov, fun k t => (h.slots k t).trans ?_, fun n hn =>
    (h.valid n hn).trans_le hprefix.length_le, h.notifies, h.records.bind fun t d hd => .of ?_⟩
  · constructor
    · rintro ⟨n, hn, b, p, hsent, hb⟩
      exact ⟨n, hn, b, p, (hsame n hn).trans hsent, hb⟩
    · rintro ⟨n, hn, b, p, hsent, hb⟩
      exact ⟨n, hn, b, p, (hsame n hn).symm.trans hsent, hb⟩
  · obtain ⟨n, hn, b, i, hsent, hmade⟩ := hd
    exact ⟨n, hn, b, i, (hsame n hn).trans hsent, hmade⟩

theorem incoming_eq_some {n : ℕ} {b : Batch} :
    st.incoming site n = some b ↔ st.UnderWay site n b := by
  rw [Line.incoming, Line.UnderWay]
  split
  · next hin => exact iff_of_false (fun h => by cases h) fun h => h.2 hin
  · next hin =>
    rw [and_iff_left hin, bind_eq_some_iff]
    constructor
    · rintro ⟨⟨target, b'⟩, hsent, hb⟩
      obtain ⟨rfl, hb⟩ := ite_none_right_eq_some.mp hb
      obtain rfl : b' = b := some.inj hb
      exact hsent
    · exact fun hsent => ⟨_, hsent, if_pos rfl⟩

theorem LineInv.free {n i : ℕ} {b : Batch} (h : LineInv reg site st) (hway : st.UnderWay site n b)
    (hi : i < b.cmds.length) (t : ℕ) : st.sched.txnQueue[b.startIndex + i]? ≠ some (some t) := by
  intro hslot
  obtain ⟨m, hm, b', p, hsent, hle, hp, -⟩ := (h.slots _ t).mp hslot
  have hlt := (List.getElem?_eq_some_iff.mp hp).1
  have hmn : m = n := h.covering.unique (k := b.startIndex + i) hsent hway.1
    ⟨hle, by rw [finish]; omega⟩ ⟨Nat.le_add_right _ _, by rw [finish]; omega⟩
  exact hway.2 (hmn ▸ hm)

theorem Notifies.notify {s1 : Sched DB} (h : site.siteId % nRepPerShard = 0 →
    s1.notified = range s1.nextNotifyIndex ∧
      ∀ j < s1.nextNotifyIndex, ∃ o, s1.txnQueue[j]? = some o ∧ o.isSome = true)
    (h' : site.siteId % nRepPerShard ≠ 0 → s1.notified = []) : Notifies site (s1.notify site) := by
  rw [Sched.notify]
  split
  · next hlead =>
    obtain ⟨hnotified, hbefore⟩ := h hlead
    refine ⟨fun _ => ⟨?_, advance_atGap hbefore⟩, fun hfollow => absurd hlead hfollow⟩
    have hle : s1.nextNotifyIndex ≤ advance Option.isSome s1.txnQueue s1.nextNotifyIndex :=
      Nat.le_add_right _ _
    dsimp only
    rw [hnotified, range_eq_range', range_eq_range']
    obtain ⟨d, hd⟩ := Nat.exists_eq_add_of_le hle
    have happ := range'_append_1 (s := 0) (m := s1.nextNotifyIndex) (n := d)
    rw [Nat.zero_add] at happ
    rw [hd, Nat.add_sub_cancel_left, happ]
  · next hfollow => exact ⟨fun hlead => absurd hlead hfollow, h'⟩

theorem LineInv.deliver {n : ℕ} {b : Batch} {s : Sched DB} (h : LineInv reg site st)
    (hway : st.UnderWay site n b) (hs : st.sched.onSendBatch site b = .ok s) :
    LineInv reg site { st with sched := s, delivered := n :: st.delivered } := by
  obtain ⟨s1, hplaced, hkept⟩ := onSendBatch_placed hs
  -- a slot outside the batch is as it was
  have hothers : ∀ (k t : ℕ), (k < b.startIndex ∨ b.finish ≤ k) →
      (s1.txnQueue[k]? = some (some t) ↔ st.sched.txnQueue[k]? = some (some t)) := by
    intro k t hk
    rw [hplaced.others k fun i hi heq => by
      have := mem_range.mp hi
      rw [finish] at hk
      omega]
    exact extend_slot
  have hslots : ∀ (k t : ℕ), s1.txnQueue[k]? = some (some t) ↔
      ∃ m ∈ n :: st.delivered, st.FilledBy site k t m := by
    intro k t
    by_cases hk : b.startIndex ≤ k ∧ k < b.finish
    · obtain ⟨hle, hlt⟩ := hk
      obtain ⟨i, rfl⟩ := Nat.exists_eq_add_of_le hle
      have hi : i < b.cmds.length := by rw [finish] at hlt; omega
      obtain ⟨p, hp, hslot⟩ := hplaced.filled i (mem_range.mpr hi)
      rw [hslot]
      constructor
      · intro heq
        refine ⟨n, mem_cons_self, b, p, hway.1, hle, ?_, some.inj (some.inj heq)⟩
        rw [Nat.add_sub_cancel_left]
        exact hp
      · rintro ⟨m, hm, b', p', hsent, hle', hp', rfl⟩
        have hlt' := (List.getElem?_eq_some_iff.mp hp').1
        have hmn : m = n := h.covering.unique hsent hway.1
          ⟨hle', by rw [finish]; omega⟩ ⟨hle, hlt⟩
        rw [hmn, hway.1] at hsent
        obtain rfl : b = b' := congrArg Prod.snd (some.inj hsent)
        rw [Nat.add_sub_cancel_left, hp] at hp'
        rw [some.inj hp']
    · have hout : k < b.startIndex ∨ b.finish ≤ k := by omega
      rw [hothers k t hout, h.slots k t]
      constructor
      · rintro ⟨m, hm, hfill⟩
        exact ⟨m, mem_cons_of_mem _ hm, hfill⟩
      · rintro ⟨m, hm, b', p', hsent, hle', hp', ht⟩
        rcases mem_cons.mp hm with rfl | hm
        · -- the new batch does not reach slot `k`
          rw [hway.1] at hsent
          obtain rfl : b = b' := congrArg Prod.snd (some.inj hsent)
          have hlt' := (List.getElem?_eq_some_iff.mp hp').1
          exact absurd ⟨hle', by rw [finish]; omega⟩ hk
        · exact ⟨m, hm, b', p', hsent, hle', hp', ht⟩
  have hnotify : Notifies site (s1.notify site) := by
    refine Notifies.notify (fun hlead => ?_) fun hfollow => ?_
    · obtain ⟨hnotified, hgap⟩ := h.notifies.leader hlead
      rw [hplaced.notified, hplaced.next]
      refine ⟨hnotified, fun j hj => ?_⟩
      obtain ⟨o, ho, hsome⟩ := hgap.before j hj
      obtain ⟨t, rfl⟩ := Option.isSome_iff_exists.mp hsome
      obtain ⟨m, hm, hfill⟩ := (h.slots j t).mp ho
      exact ⟨some t, (hslots j t).mpr ⟨m, mem_cons_of_mem _ hm, hfill⟩, rfl⟩
    · rw [hplaced.notified]
      exact h.notifies.follower hfollow
  refine ⟨h.covering, fun k t => ?_,
    forall_mem_cons.mpr ⟨(List.getElem?_eq_some_iff.mp hway.1).1, h.valid⟩, hnotify.kept hkept,
    hkept.records.bind ?_⟩
  · rw [hkept.queue, notify_queue]
    exact hslots k t
  · rw [notify_dtxns]
    refine hplaced.records.bind fun t d hd => ?_
    rcases hd with hd | ⟨i, -, hmade⟩
    · refine h.records.bind (fun t d hd => .of ?_) t d hd
      obtain ⟨m, hm, hmade⟩ := hd
      exact ⟨m, mem_cons_of_mem _ hm, hmade⟩
    · exact .of ⟨n, mem_cons_self, b, i, hway.1, hmade⟩

theorem LineInv.step {ev : LineEvent} (h : LineInv reg site st)
    (hs : lineStep reg site st ev = some st') : LineInv reg site st' := by
  cases ev with
  | manager ev =>
    obtain ⟨s, hsender, rfl⟩ := map_eq_some_iff.mp hs
    exact h.manager hsender
  | deliver n =>
    obtain ⟨b, hb, hs⟩ := bind_eq_some_iff.mp hs
    obtain ⟨s, hbatch, rfl⟩ := map_eq_some_iff.mp hs
    exact h.deliver (incoming_eq_some.mp hb) (ok_of_toOption hbatch)
  | submitTxn cmds =>
    obtain ⟨s, hsubmit, rfl⟩ := map_eq_some_iff.mp hs
    exact h.kept (onSubmitTxn_queue hsubmit)
  | sendDepValues t values =>
    obtain rfl := some.inj hs
    exact h.kept (onSendDepValues_queue site t values st.sched)
  | sendTxnOutput t par output =>
    obtain ⟨s, houtput, rfl⟩ := map_eq_some_iff.mp hs
    exact h.kept (onSendTxnOutput_queue houtput)

theorem LineInv.init (reg : Region) (site : Site DB) (db : DB) :
    LineInv reg site { sched := { db := db } } := by
  refine ⟨Covering.init reg, fun k t => ?_, forall_mem_nil _,
    ⟨fun _ => ⟨rfl, AtGap.nil⟩, fun _ => rfl⟩, fun t d hd => by cases hd⟩
  refine iff_of_false (fun h => ?_) ?_
  · rw [getElem?_nil] at h
    cases h
  · rintro ⟨n, hn, -⟩
    exact absurd hn not_mem_nil

theorem LineInv.sameQueue (h : LineInv reg site st) : SameQueue reg site st where
  never n b hway := onSendBatch_never fun i hi => h.free hway hi
  filled n hn b hsent k hle hlt := by
    have hi : k - b.startIndex < b.cmds.length := by omega
    have hp := getElem?_eq_getElem hi
    obtain ⟨e, -, he, ht, -⟩ := h.covering.carries _ (mem_of_getElem? hsent) _ _ hp
    rw [Nat.add_sub_of_le hle] at he
    exact ⟨e, _, he, ht, (h.slots k _).mpr ⟨n, hn, b, _, hsent, hle, hp, rfl⟩⟩
  only k t hslot := by
    obtain ⟨n, -, b, p, hsent, hle, hp, rfl⟩ := (h.slots k t).mp hslot
    obtain ⟨e, -, he, ht, -⟩ := h.covering.carries _ (mem_of_getElem? hsent) _ _ hp
    rw [Nat.add_sub_of_le hle] at he
    exact ⟨e, he, ht⟩
  records := h.records.bind fun t d hd => .of <| by
    obtain ⟨n, hn, b, i, hsent, pieces, coord, hp, hcoord, rfl⟩ := hd
    obtain ⟨e, par, he, ht, hpar, rfl, hcoord'⟩ :=
      h.covering.carries _ (mem_of_getElem? hsent) _ _ hp
    obtain rfl := some.inj (hcoord'.symm.trans hcoord)
    rw [← Nat.add_sub_cancel_left (n := b.startIndex) (m := i)] at hp
    exact ⟨b.startIndex + i, e, par, (h.slots _ t).mpr ⟨n, hn, b, _, hsent,
      Nat.le_add_right _ _, hp, rfl⟩, he, ht, hpar, rfl⟩
  leader := h.notifies.leader
  follower := h.notifies.follower

end

end Fiss.Slog
