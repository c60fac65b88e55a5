import Fiss.Schemes.Cursor
import Fiss.Slog.Manager

/-! What a region manager sends to the sites of its region. An entry of `log_` is committed when its
    replication is acknowledged; a round of `CheckAndSendBacth` sends the entries that were committed
    since the last one, without a gap, to the replicas of every partition, with the barriers recorded
    since then. The barriers are collected anew for each partition, from a cursor that the first one
    moves to the end.

    The flags of a transaction that only its order reads are left out. -/

namespace Fiss.Slog
open Fiss.Rcc List
open Option (some.inj map_eq_some_iff)

/-- A region: its partitions, the sites of each, and the `root_id_` a piece carries. -/
structure Region where
  myRid : ℕ
  nShardPerRegion : ℕ
  /-- `rpc_par_proxies_`, by the sites -/
  rpcParProxies : ℕ → List ℕ
  rootId : SimpleCommand → ℕ
  replicated : ∀ par, rpcParProxies par ≠ []
  nodup : ∀ par, (rpcParProxies par).Nodup
  disjoint : ∀ par par', par ≠ par' → (rpcParProxies par).Disjoint (rpcParProxies par')

/-- The partitions from `start_par` to `end_par`. -/
def Region.partitions (reg : Region) : List ℕ :=
  range' (reg.myRid * reg.nShardPerRegion) reg.nShardPerRegion

/-- A message of `SlogSendBatch`. -/
structure Batch where
  startIndex : ℕ
  cmds : List (ℕ × List SimpleCommand)
  coordSites : List (ℕ × ℕ)
  allTouchedShards : List (ℕ × List ℕ)
  barriers : List ℕ := []
  deriving DecidableEq

/-- The manager with its cursors. For the record it keeps the batches it has sent, with their target
    sites. -/
structure Sender where
  manager : Manager := {}
  nextCommitIndex : ℕ := 0
  nextSendIndex : ℕ := 0
  nextSendBarrierLocal : ℕ := 0
  sent : List (ℕ × Batch) := []
  deriving DecidableEq

/-- `cmds_.begin()->second.at(0).root_id_`. -/
def Region.txnId (reg : Region) (e : LogEntry) : Option ℕ :=
  e.cmds.entries.head?.bind fun p => p.2.head?.map reg.rootId

/-- What the replicas of a partition are sent: the entries, those without pieces for it too. -/
def Region.batch (par startIndex : ℕ) (txns : List (ℕ × LogEntry)) (barriers : List ℕ) : Batch where
  startIndex := startIndex
  cmds := txns.map fun p => (p.1, (p.2.cmds.find par).getD [])
  coordSites := txns.map fun p => (p.1, p.2.coordSite)
  allTouchedShards := txns.map fun p => (p.1, p.2.touchedParsAll)
  barriers := barriers

def LogEntry.markCommitted (e : LogEntry) : LogEntry := { e with committed := true }

section

variable (reg : Region) (s : Sender)

namespace Sender

/-- The entries of a round, with their ids. -/
def txns : Option (List (ℕ × LogEntry)) :=
  ((s.manager.log.take s.nextCommitIndex).drop s.nextSendIndex).mapM fun e =>
    (reg.txnId e).map fun t => (t, e)

/-- The barriers from the cursor on. -/
def unsent : List ℕ := s.manager.barrierLocalIndices.drop s.nextSendBarrierLocal

/-- The body of the loop over the partitions. -/
def sendTo (par : ℕ) : Option Sender :=
  (s.txns reg).map fun txns =>
    { s with
      nextSendBarrierLocal := s.nextSendBarrierLocal + s.unsent.length
      sent := s.sent ++ (reg.rpcParProxies par).map fun site =>
        (site, Region.batch par s.nextSendIndex txns s.unsent) }

/-- A round of `CheckAndSendBacth`. -/
def checkAndSendBacth : Option Sender :=
  if s.nextSendIndex < s.nextCommitIndex then
    (run (sendTo reg) s reg.partitions).map fun s => { s with nextSendIndex := s.nextCommitIndex }
  else some s

def replicateACK (index : ℕ) : Option Sender :=
  -- `verify(log_.size() > index)`
  if index < s.manager.log.length then
    let log := s.manager.log.modify index LogEntry.markCommitted
    some { s with
      manager := { s.manager with log := log }
      nextCommitIndex := advance LogEntry.committed log s.nextCommitIndex }
  else none

end Sender

inductive SenderEvent where
  | orderedCRT (msg : Ordered)
  | rmIRT (cmds : Cmds) (handlerSite : ℕ)
  | replicateACK (index : ℕ)
  | round

/-- One step of a manager. -/
def senderStep : SenderEvent → Option Sender
  | .orderedCRT msg => (s.manager.slogSendOrderedCRT msg).map fun m => { s with manager := m }
  | .rmIRT cmds handlerSite => some { s with manager := s.manager.sendRmIRT cmds handlerSite }
  | .replicateACK index => s.replicateACK index
  | .round => s.checkAndSendBacth reg

/-- The barriers a site was sent. -/
def Sender.barriersTo (site : ℕ) : List ℕ :=
  (s.sent.filter fun p => p.1 = site).flatMap fun p => p.2.barriers

/-- A site of the region. -/
def Region.Serves (site : ℕ) : Prop :=
  ∃ par ∈ reg.partitions, site ∈ reg.rpcParProxies par

/-- Every recorded barrier that was sent to some site, or whose own entry was sent, was sent to the
    replicas of every partition, once. -/
def BarriersDelivered : Prop :=
  ∀ k ∈ s.manager.barrierLocalIndices,
    (k < s.nextSendIndex ∨ ∃ site, reg.Serves site ∧ k ∈ s.barriersTo site) →
    ∀ site, reg.Serves site → (s.barriersTo site).count k = 1

/-- A round that sends finds no barrier to send, or there is only one partition. -/
def NoSplit : SenderEvent → Prop
  | .round => s.nextSendIndex < s.nextCommitIndex → s.unsent = [] ∨ reg.nShardPerRegion ≤ 1
  | _ => True

end

/-! ### How the log and the barriers grow -/

section

variable {m m' m'' : Manager}

/-- The log and the barriers are added to at their ends, a barrier for an entry that is added. -/
structure Grown (m m' : Manager) : Prop where
  log : ∃ more, m'.log = m.log ++ more
  barriers : ∃ new, m'.barrierLocalIndices = m.barrierLocalIndices ++ new ∧
    new.Pairwise (· < ·) ∧ ∀ k ∈ new, m.log.length ≤ k ∧ k < m'.log.length

theorem Grown.refl (m : Manager) : Grown m m :=
  ⟨⟨[], (append_nil _).symm⟩, [], (append_nil _).symm, .nil,
    forall_mem_nil _⟩

theorem Grown.length_le (h : Grown m m') : m.log.length ≤ m'.log.length := by
  obtain ⟨more, hmore⟩ := h.log
  rw [hmore, length_append]
  exact Nat.le_add_right _ _

theorem Grown.trans (h : Grown m m') (h' : Grown m' m'') : Grown m m'' where
  log := by
    obtain ⟨more, hmore⟩ := h.log
    obtain ⟨more', hmore'⟩ := h'.log
    exact ⟨more ++ more', by rw [hmore', hmore, append_assoc]⟩
  barriers := by
    obtain ⟨new, hnew, hsorted, hin⟩ := h.barriers
    obtain ⟨new', hnew', hsorted', hin'⟩ := h'.barriers
    refine ⟨new ++ new', by rw [hnew', hnew, append_assoc],
      pairwise_append.mpr ⟨hsorted, hsorted', fun a ha b hb =>
        (hin a ha).2.trans_le (hin' b hb).1⟩, forall_mem_append.mpr ⟨?_, ?_⟩⟩
    · exact fun k hk => ⟨(hin k hk).1, (hin k hk).2.trans_le h'.length_le⟩
    · exact fun k hk => ⟨h.length_le.trans (hin' k hk).1, (hin' k hk).2⟩

theorem insertLocalLog_grown (globalIndex : Option ℕ) (cmds : Cmds) (site : ℕ) (touched : List ℕ) :
    Grown m (m.insertLocalLog globalIndex cmds site touched) where
  log := ⟨_, rfl⟩
  barriers := by
    rw [Manager.insertLocalLog]
    split
    · refine ⟨[m.log.length], rfl, pairwise_singleton _ _, fun k hk => ?_⟩
      rw [mem_singleton.mp hk, length_append, length_singleton]
      exact ⟨le_rfl, Nat.lt_succ_self _⟩
    · exact ⟨[], (append_nil _).symm, .nil, forall_mem_nil _⟩

theorem insertNext_grown (touched : List ℕ) (e : LogEntry) : Grown m (m.insertNext touched e) := by
  rw [Manager.insertNext]
  split
  · exact ⟨(Grown.refl m).log, (Grown.refl m).barriers⟩
  · have h := insertLocalLog_grown (m := m) (some m.globalNextInsertIndex) e.cmds e.coordSite touched
    exact ⟨h.log, h.barriers⟩

theorem drain_grown (touched : List ℕ) : ∀ (slots : List (Option LogEntry)) (m : Manager),
    Grown m (m.drain touched slots)
  | [], m => Grown.refl m
  | none :: _, m => Grown.refl m
  | some e :: slots, m => (insertNext_grown touched e).trans
      (drain_grown touched slots (m.insertNext touched e))

theorem slogSendOrderedCRT_grown {msg : Ordered} (h : m.slogSendOrderedCRT msg = some m') :
    Grown m m' := by
  obtain ⟨-, hm'⟩ := Option.ite_none_right_eq_some.mp h
  obtain rfl := some.inj hm'
  have hdrain := drain_grown msg.touchedAllPars
    ((m.fill msg).globalLog.drop m.globalNextInsertIndex) (m.fill msg)
  exact ⟨hdrain.log, hdrain.barriers⟩

end

/-! ### The rounds -/

section

variable {reg : Region} {s s' : Sender} {par site : ℕ}

theorem sendTo_frame (h : s.sendTo reg par = some s') :
    s'.manager = s.manager ∧ s'.nextSendIndex = s.nextSendIndex ∧
      s'.nextCommitIndex = s.nextCommitIndex ∧
      s'.nextSendBarrierLocal = s.nextSendBarrierLocal + s.unsent.length := by
  obtain ⟨txns, -, rfl⟩ := map_eq_some_iff.mp h
  exact ⟨rfl, rfl, rfl, rfl⟩

theorem sendTo_atEnd (h : s.sendTo reg par = some s') : s'.unsent = [] := by
  obtain ⟨hm, -, -, hb⟩ := sendTo_frame h
  rw [Sender.unsent, hm, hb, Sender.unsent, length_drop]
  exact drop_eq_nil_iff.mpr (by omega)

theorem sendTo_barriers (h : s.sendTo reg par = some s') (site : ℕ) : s'.barriersTo site =
      s.barriersTo site ++ if site ∈ reg.rpcParProxies par then s.unsent else [] := by
  obtain ⟨txns, -, rfl⟩ := map_eq_some_iff.mp h
  have hto : ((reg.rpcParProxies par).filter fun x => x = site) =
      if site ∈ reg.rpcParProxies par then [site] else [] := by
    rw [filter_eq, (reg.nodup par).count]
    split <;> rfl
  simp only [Sender.barriersTo, filter_append, flatMap_append, filter_map,
    Function.comp_def, hto]
  split
  · simp only [map_cons, map_nil, flatMap_cons, flatMap_nil, Region.batch,
      append_nil]
  · rfl

theorem sendRest_spec : ∀ {pars : List ℕ} {s : Sender}, s.unsent = [] →
    run (Sender.sendTo reg) s pars = some s' →
    s'.manager = s.manager ∧ s'.nextSendIndex = s.nextSendIndex ∧
      s'.nextCommitIndex = s.nextCommitIndex ∧ s'.nextSendBarrierLocal = s.nextSendBarrierLocal ∧
      ∀ site, s'.barriersTo site = s.barriersTo site
  | [], s, _, h => by
    obtain rfl := some.inj h
    exact ⟨rfl, rfl, rfl, rfl, fun _ => rfl⟩
  | par :: pars, s, hend, h => by
    obtain ⟨s1, h1, h⟩ := run_cons.mp h
    obtain ⟨hm, hsend, hcommit, hcursor⟩ := sendTo_frame h1
    obtain ⟨hm', hsend', hcommit', hcursor', hb'⟩ := sendRest_spec (sendTo_atEnd h1) h
    rw [hend] at hcursor
    refine ⟨hm'.trans hm, hsend'.trans hsend, hcommit'.trans hcommit, hcursor'.trans hcursor,
      fun site => ?_⟩
    rw [hb' site, sendTo_barriers h1 site, hend, ite_self, append_nil]

theorem round_spec (h : s.checkAndSendBacth reg = some s')
    (hsend : s.nextSendIndex < s.nextCommitIndex) {first : ℕ} {rest : List ℕ}
    (hpars : reg.partitions = first :: rest) :
    s'.manager = s.manager ∧ s'.nextSendIndex = s.nextCommitIndex ∧
      s'.nextCommitIndex = s.nextCommitIndex ∧
      s'.nextSendBarrierLocal = s.nextSendBarrierLocal + s.unsent.length ∧
      ∀ site, s'.barriersTo site =
        s.barriersTo site ++ if site ∈ reg.rpcParProxies first then s.unsent else [] := by
  rw [Sender.checkAndSendBacth, if_pos hsend, hpars] at h
  obtain ⟨s2, hrun, rfl⟩ := map_eq_some_iff.mp h
  obtain ⟨s1, h1, hrest⟩ := run_cons.mp hrun
  obtain ⟨hm, -, hcommit, hcursor⟩ := sendTo_frame h1
  obtain ⟨hm', -, hcommit', hcursor', hb⟩ := sendRest_spec (sendTo_atEnd h1) hrest
  refine ⟨hm'.trans hm, hcommit'.trans hcommit, hcommit'.trans hcommit, hcursor'.trans hcursor,
    fun site => ?_⟩
  exact (hb site).trans (sendTo_barriers h1 site)

end

/-! ### Which barriers arrive -/

section

variable {reg : Region} {s s' : Sender} {first : ℕ} {rest : List ℕ}

/-- The barriers before the cursor. -/
def Sender.taken (s : Sender) : List ℕ := s.manager.barrierLocalIndices.take s.nextSendBarrierLocal

/-- What every step keeps: the cursors are in order, a barrier still to be sent is for an entry still
    to be sent, and the first partition has been sent all before the cursor. -/
structure Batching (first : ℕ) (reg : Region) (s : Sender) : Prop where
  sorted : s.manager.barrierLocalIndices.Pairwise (· < ·)
  bounded : ∀ k ∈ s.manager.barrierLocalIndices, k < s.manager.log.length
  committed : ∀ j < s.nextCommitIndex, ∃ e, s.manager.log[j]? = some e ∧ e.committed = true
  sendLe : s.nextSendIndex ≤ s.nextCommitIndex
  cursorLe : s.nextSendBarrierLocal ≤ s.manager.barrierLocalIndices.length
  waiting : ∀ k ∈ s.unsent, s.nextSendIndex ≤ k
  only : ∀ site, ∀ k ∈ s.barriersTo site, k ∈ s.taken
  firstHas : ∀ site ∈ reg.rpcParProxies first, s.barriersTo site = s.taken

theorem Batching.init (first : ℕ) (reg : Region) : Batching first reg {} where
  sorted := .nil
  bounded := forall_mem_nil _
  committed j hj := absurd hj (Nat.not_lt_zero j)
  sendLe := le_rfl
  cursorLe := le_rfl
  waiting := forall_mem_nil _
  only _ _ hk := absurd hk not_mem_nil
  firstHas _ _ := rfl

theorem taken_append_unsent (s : Sender) : s.taken ++ s.unsent = s.manager.barrierLocalIndices :=
  take_append_drop _ _

section
variable (h : Batching first reg s)
include h

theorem Batching.commitLe : s.nextCommitIndex ≤ s.manager.log.length := by
  by_contra hlt
  obtain ⟨e, he, -⟩ := h.committed s.manager.log.length (by omega)
  rw [getElem?_eq_none le_rfl] at he
  cases he

theorem Batching.not_taken {k : ℕ} (hk : k ∈ s.unsent) : k ∉ s.taken := by
  have hsorted := h.sorted
  rw [← taken_append_unsent] at hsorted
  intro htaken
  exact lt_irrefl k ((pairwise_append.mp hsorted).2.2 k htaken k hk)

theorem Batching.nodup_taken : s.taken.Nodup :=
  (h.sorted.imp ne_of_lt).sublist (take_sublist _ _)

theorem taken_grown {m : Manager} (hm : Grown s.manager m) :
    Sender.taken { s with manager := m } = s.taken := by
  obtain ⟨new, hnew, -, -⟩ := hm.barriers
  rw [Sender.taken, hnew]
  exact take_append_of_le_length h.cursorLe

theorem Batching.grow {m : Manager} (hm : Grown s.manager m) :
    Batching first reg { s with manager := m } := by
  obtain ⟨more, hmore⟩ := hm.log
  obtain ⟨new, hnew, hsorted, hin⟩ := hm.barriers
  refine ⟨?_, ?_, fun j hj => ?_, h.sendLe, ?_, fun k hk => ?_, fun site k hk => ?_,
    fun site hsite => ?_⟩
  · rw [hnew]
    exact pairwise_append.mpr ⟨h.sorted, hsorted, fun a ha b hb =>
      (h.bounded a ha).trans_le (hin b hb).1⟩
  · rw [hnew]
    exact forall_mem_append.mpr
      ⟨fun k hk => (h.bounded k hk).trans_le hm.length_le, fun k hk => (hin k hk).2⟩
  · obtain ⟨e, he, hcommitted⟩ := h.committed j hj
    have hlt : j < s.manager.log.length := (List.getElem?_eq_some_iff.mp he).1
    exact ⟨e, by rw [hmore, getElem?_append_left hlt, he], hcommitted⟩
  · rw [hnew, length_append]
    exact h.cursorLe.trans (Nat.le_add_right _ _)
  · rw [Sender.unsent, hnew, drop_append_of_le_length h.cursorLe] at hk
    rcases mem_append.mp hk with hk | hk
    · exact h.waiting k hk
    · exact (h.sendLe.trans h.commitLe).trans (hin k hk).1
  · rw [taken_grown h hm]
    exact h.only site k hk
  · rw [taken_grown h hm]
    exact h.firstHas site hsite

theorem Batching.ack {index : ℕ} (hs : s.replicateACK index = some s') : Batching first reg s' := by
  obtain ⟨-, hs'⟩ := Option.ite_none_right_eq_some.mp hs
  obtain rfl := some.inj hs'
  have hbefore : ∀ j < s.nextCommitIndex, ∃ e,
      (s.manager.log.modify index LogEntry.markCommitted)[j]? = some e ∧ e.committed = true := by
    intro j hj
    obtain ⟨e, he, hcommitted⟩ := h.committed j hj
    rcases eq_or_ne index j with rfl | hne
    · exact ⟨e.markCommitted, by rw [getElem?_modify_eq, he]; rfl, rfl⟩
    · exact ⟨e, by rw [getElem?_modify_ne _ _ hne, he], hcommitted⟩
  refine ⟨h.sorted, fun k hk => ?_, (advance_atGap hbefore).before,
    h.sendLe.trans (Nat.le_add_right _ _), h.cursorLe, h.waiting, h.only, h.firstHas⟩
  rw [length_modify]
  exact h.bounded k hk

theorem Batching.cursor_add :
    s.nextSendBarrierLocal + s.unsent.length = s.manager.barrierLocalIndices.length := by
  rw [Sender.unsent, length_drop]
  exact Nat.add_sub_of_le h.cursorLe

theorem Batching.round (hpars : reg.partitions = first :: rest)
    (hs : s.checkAndSendBacth reg = some s') : Batching first reg s' := by
  by_cases hsend : s.nextSendIndex < s.nextCommitIndex
  · obtain ⟨hm, hindex, hcommit, hcursor, hb⟩ := round_spec hs hsend hpars
    rw [h.cursor_add, ← hm] at hcursor
    have htaken : s'.taken = s.taken ++ s.unsent := by
      rw [Sender.taken, hcursor, take_length, hm, taken_append_unsent]
    refine ⟨by rw [hm]; exact h.sorted, by rw [hm]; exact h.bounded,
      by rw [hm, hcommit]; exact h.committed, (hindex.trans hcommit.symm).le, hcursor.le,
      fun k hk => ?_, ?_, ?_⟩
    · rw [Sender.unsent, hcursor, drop_length] at hk
      cases hk
    · intro site k hk
      rw [hb site] at hk
      rw [htaken]
      rcases mem_append.mp hk with hk | hk
      · exact mem_append_left _ (h.only site k hk)
      · split at hk
        · exact mem_append_right _ hk
        · cases hk
    · intro site hsite
      rw [hb site, if_pos hsite, h.firstHas site hsite, htaken]
  · rw [Sender.checkAndSendBacth, if_neg hsend] at hs
    exact some.inj hs ▸ h

end

/-- Unless the barriers are split from it, no partition lags behind the first. -/
def Shared (reg : Region) (s : Sender) : Prop := ∀ site, reg.Serves site → s.barriersTo site = s.taken

theorem Batching.step {ev : SenderEvent} (hpars : reg.partitions = first :: rest)
    (h : Batching first reg s) (hs : senderStep reg s ev = some s') : Batching first reg s' := by
  cases ev with
  | orderedCRT msg =>
    obtain ⟨m, hm, rfl⟩ := map_eq_some_iff.mp hs
    exact h.grow (slogSendOrderedCRT_grown hm)
  | rmIRT cmds handlerSite =>
    obtain rfl := some.inj hs
    exact h.grow (insertLocalLog_grown none cmds handlerSite cmds.keys)
  | replicateACK index => exact h.ack hs
  | round => exact h.round hpars hs

theorem delivered_of_shared (h : Batching first reg s) (hshared : Shared reg s) :
    BarriersDelivered reg s := by
  intro k hk hdue site hsite
  rw [hshared site hsite]
  have htaken : k ∈ s.taken := by
    rcases hdue with hlt | ⟨site', -, hk'⟩
    · rw [← taken_append_unsent s] at hk
      rcases mem_append.mp hk with htaken | hunsent
      · exact htaken
      · exact absurd (h.waiting k hunsent) (Nat.not_le_of_lt hlt)
    · exact h.only site' k hk'
  exact count_eq_one_of_mem h.nodup_taken htaken

theorem partitions_eq_singleton (hpars : reg.partitions = first :: rest)
    (hone : reg.nShardPerRegion ≤ 1) : rest = [] := by
  have hlen := congrArg length hpars
  rw [Region.partitions, length_range', length_cons] at hlen
  exact length_eq_zero_iff.mp (by omega)

theorem Shared.step {ev : SenderEvent} (hpars : reg.partitions = first :: rest)
    (h : Batching first reg s) (hshared : Shared reg s) (hev : NoSplit reg s ev)
    (hs : senderStep reg s ev = some s') : Shared reg s' := by
  intro site hsite
  cases ev with
  | orderedCRT msg =>
    obtain ⟨m, hm, rfl⟩ := map_eq_some_iff.mp hs
    exact (hshared site hsite).trans (taken_grown h (slogSendOrderedCRT_grown hm)).symm
  | rmIRT cmds handlerSite =>
    obtain rfl := some.inj hs
    exact (hshared site hsite).trans
      (taken_grown h (insertLocalLog_grown none cmds handlerSite cmds.keys)).symm
  | replicateACK index =>
    obtain ⟨-, hs'⟩ := Option.ite_none_right_eq_some.mp hs
    obtain rfl := some.inj hs'
    exact hshared site hsite
  | round =>
    by_cases hsend : s.nextSendIndex < s.nextCommitIndex
    · rcases hev hsend with hnone | hone
      · -- with nothing to send, the lists and the cursor stay
        obtain ⟨hm, -, -, hcursor, hb⟩ := round_spec hs hsend hpars
        rw [hb site, hnone, ite_self, append_nil, hshared site hsite, Sender.taken,
          Sender.taken, hm, hcursor, hnone, length_nil, Nat.add_zero]
      · -- the site is one of the first partition
        obtain ⟨par, hpar, hin⟩ := hsite
        rw [hpars, partitions_eq_singleton hpars hone, mem_singleton] at hpar
        exact (h.round hpars hs).firstHas site (hpar ▸ hin)
    · have hs : s.checkAndSendBacth reg = some s' := hs
      rw [Sender.checkAndSendBacth, if_neg hsend] at hs
      exact some.inj hs ▸ hshared site hsite

/-- A round that splits leaves the second partition without the barriers the first gets. -/
theorem noSplit_of_delivered {ev : SenderEvent} (hpars : reg.partitions = first :: rest)
    (h : Batching first reg s) (hs : senderStep reg s ev = some s')
    (hdelivered : BarriersDelivered reg s') : NoSplit reg s ev := by
  cases ev with
  | orderedCRT msg | rmIRT cmds handlerSite | replicateACK index => exact trivial
  | round =>
    intro hsend
    by_contra hsplit
    obtain ⟨hunsent, hmany⟩ := not_or.mp hsplit
    obtain ⟨k, hk⟩ := exists_mem_of_ne_nil _ hunsent
    obtain ⟨hm, -, -, -, hb⟩ := round_spec hs hsend hpars
    obtain ⟨second, hsecond, hne⟩ : ∃ second ∈ reg.partitions, second ≠ first := by
      have hnodup : reg.partitions.Nodup := nodup_range'
      have hlen : reg.partitions.length = reg.nShardPerRegion := length_range'
      rw [hpars] at hnodup hlen ⊢
      have hrest : rest ≠ [] := by
        rintro rfl
        exact hmany (hlen ▸ le_rfl)
      obtain ⟨second, hin⟩ := exists_mem_of_ne_nil _ hrest
      refine ⟨second, mem_cons_of_mem _ hin, ?_⟩
      rintro rfl
      exact (nodup_cons.mp hnodup).1 hin
    obtain ⟨near, hnear⟩ := exists_mem_of_ne_nil _ (reg.replicated first)
    obtain ⟨far, hfar⟩ := exists_mem_of_ne_nil _ (reg.replicated second)
    have hsent : k ∈ s'.barriersTo near := by
      rw [hb near, if_pos hnear]
      exact mem_append_right _ hk
    have hmissing : k ∉ s'.barriersTo far := by
      rw [hb far, if_neg (reg.disjoint second first hne hfar), append_nil]
      exact fun hin => h.not_taken hk (h.only far k hin)
    have hrecorded : k ∈ s'.manager.barrierLocalIndices := by
      rw [hm]
      exact mem_of_mem_drop hk
    have hfirst : first ∈ reg.partitions := hpars ▸ mem_cons_self
    have hcount := hdelivered k hrecorded (.inr ⟨near, ⟨first, hfirst, hnear⟩, hsent⟩) far
      ⟨second, hsecond, hfar⟩
    rw [count_eq_zero_of_not_mem hmissing] at hcount
    cases hcount

end

/-- The barriers arrive everywhere, once, exactly in the runs where no sending round finds a barrier
    to send to several partitions. -/
theorem barriers_delivered_iff (reg : Region) (evs : List SenderEvent) :
    Throughout (senderStep reg) (BarriersDelivered reg) {} evs ↔
      Along (senderStep reg) (NoSplit reg) {} evs := by
  cases hpars : reg.partitions with
  | nil =>
    -- a region without partitions has no site to send to
    have hnone : ∀ s, BarriersDelivered reg s := by
      rintro s k - - site ⟨par, hpar, -⟩
      rw [hpars] at hpar
      cases hpar
    have hzero : reg.nShardPerRegion = 0 := by
      rw [← length_nil, ← hpars, Region.partitions, length_range']
    refine ⟨fun _ => along_mono (fun s ev _ => ?_) (along_true _ _), fun _ =>
      throughout_of_inv (fun _ _ _ _ _ _ => hnone _) (hnone _) (along_true _ _)⟩
    cases ev with
    | round => exact fun _ => .inr (hzero.le.trans zero_le_one)
    | _ => exact trivial
  | cons first rest =>
    constructor
    · exact along_of_throughout (I := Batching first reg) (fun s ev s' h hs => h.step hpars hs)
        (fun s ev s' h hs => noSplit_of_delivered hpars h hs) (Batching.init first reg)
    · intro hev
      have hinv : Throughout (senderStep reg) (fun s => Batching first reg s ∧ Shared reg s) {} evs :=
        throughout_of_inv
          (fun s ev s' h hC hs => ⟨h.1.step hpars hs, Shared.step hpars h.1 h.2 hC hs⟩)
          ⟨Batching.init first reg, fun _ _ => rfl⟩ hev
      exact throughout_mono (fun s h => delivered_of_shared h.1 h.2) hinv

/-- Region 0 with two partitions of three replicas. -/
def twoPartitions : Region where
  myRid := 0
  nShardPerRegion := 2
  rpcParProxies par := [3 * par, 3 * par + 1, 3 * par + 2]
  rootId cmd := cmd.innId
  replicated _ := cons_ne_nil _ _
  nodup par := by simp
  disjoint par par' hne := by
    simp only [disjoint_left, mem_cons, not_mem_nil, or_false]
    omega

/-- One transaction with a barrier: its entry is sent to the second partition, the barrier is not. -/
theorem barrier_not_sent_to_second :
    ¬ Throughout (senderStep twoPartitions) (BarriersDelivered twoPartitions) {}
      [.orderedCRT ⟨onePiece, 0, 0, [0], [0]⟩, .replicateACK 0, .round] := by
  intro h
  have hdelivered := ((h.2 _ rfl).2 _ rfl).2 _ rfl
  have hcount := hdelivered 0 (by decide) (.inl (by decide)) 3 ⟨1, by decide, by decide⟩
  exact absurd hcount (by decide)

end Fiss.Slog
