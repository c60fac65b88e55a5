import Fiss.Brq.Polls
import Fiss.Brq.Verdict
import Fiss.Schemes.Runs

/-! Which path a coordinator takes, over whole runs of its attempts with the acknowledgements in any
    order, those of earlier phases among them. Each request is answered once at most, as a server
    does: with success, and to a pre-accept with a graph that has the attempt's vertex.

    The invariant says where the requests of the current phase are (`Polled`), what the broadcasts
    so far rest on (`Logged`), and what the counters of each phase have counted (`Gathering`,
    `Accepting`, `Committing`). -/

namespace Fiss.Brq.Coordinator
open Fiss.Rcc List OrdSet OrdMap Nat
open BrqCoord (phaseOf)
open Ledger (mem_all_of_outstanding mem_all_of_answered)

/-! ### What a broadcast rests on -/

/-- A majority of each partition's replicas has answered. -/
def Majority (L : Layout) (kind : BrqCoord.Phase) (t : ℕ) (answers : List (Request × Graph)) :
    Prop :=
  ∀ par ∈ L.touched t, ∃ ks : List ℕ, ks.Nodup ∧ L.size par < 2 * ks.length ∧
    ∀ k ∈ ks, k < L.size par ∧ ∃ e ∈ answers, mine kind t par e.1 = true ∧ e.1.replica = k

/-- A slow quorum of each partition has answered. -/
def Quorum (L : Layout) (kind : BrqCoord.Phase) (t : ℕ) (l : Ledger Request Graph) : Prop :=
  ∀ par ∈ L.touched t, L.getSlowQuorum par ≤ (heard kind t par l).length

/-- Some partition has not answered in full. -/
def Few (L : Layout) (kind : BrqCoord.Phase) (t : ℕ) (l : Ledger Request Graph) : Prop :=
  ∃ par ∈ L.touched t, (heard kind t par l).length < L.size par

/-- All replicas of each partition have answered the pre-accept with the same parents. -/
def Unanimous (L : Layout) (t : ℕ) (answers : List (Request × Graph)) : Prop :=
  ∀ par ∈ L.touched t, ∃ parents : OrdSet ℕ, ∀ k < L.size par, ∃ e ∈ answers,
    mine .preAccept t par e.1 = true ∧ e.1.replica = k ∧
      ∃ v, e.2.find t = some v ∧ v.parents = parents

def Justified (L : Layout) (b : Broadcast) : Prop :=
  match b.kind with
  | .accept => Majority L .preAccept b.txn b.heard
  | .commit => if b.fast then Unanimous L b.txn b.heard else Majority L .accept b.txn b.heard
  | _ => True

/-- The attempt has been broadcast as a pre-accept. -/
def Begun (log : List Broadcast) (t : ℕ) : Prop := ∃ b ∈ log, b.kind = .preAccept ∧ b.txn = t

/-- How often the attempt was committed. -/
def commits (log : List Broadcast) (t : ℕ) : ℕ := log.countP fun b => b.kind = .commit && b.txn = t

/-- Every attempt but the one that is `undecided` has been committed once. -/
structure Logged (L : Layout) (log : List Broadcast) (undecided : Option ℕ) (next : ℕ) : Prop where
  justified : ∀ b ∈ log, Justified L b
  fresh : ∀ b ∈ log, b.txn < next
  begun : ∀ t, undecided = some t → Begun log t
  once : ∀ t, commits log t ≤ 1 ∧ (Begun log t → (commits log t = 1 ↔ undecided ≠ some t))

section Evidence

variable {L : Layout} {l : Ledger Request Graph} {log : List Broadcast} {b : Broadcast}
  {undecided : Option ℕ} {t phase next : ℕ}

theorem majority_of (hmail : Mail L l next) (hord : Ordered stamp (now t phase) l)
    (h : Quorum L (phaseOf phase) t l) : Majority L (phaseOf phase) t l.answered := by
  intro par hpar
  refine ⟨(heard (phaseOf phase) t par l).map fun e => e.1.replica,
    nodup_replicas hord par, ?_, fun k hk => ?_⟩
  · have hquorum := h par hpar
    rw [Layout.getSlowQuorum] at hquorum
    rw [length_map]
    omega
  · obtain ⟨e, he, rfl⟩ := mem_map.mp hk
    obtain ⟨hmem, hmine⟩ := mem_filter.mp he
    have hsound := hmail.sound e.1 (mem_all_of_answered hmem)
    refine ⟨?_, e, hmem, hmine, rfl⟩
    rw [← (mine_iff.mp hmine).2.2]
    exact hsound.2

theorem unanimous_of (hmail : Mail L l next) (hpolled : Polled L l t phase)
    (hphase : phaseOf phase = .preAccept) (h : ∀ par ∈ L.touched t,
      verdict (L.size par) t ((heard .preAccept t par l).map Prod.snd) = .same) :
    Unanimous L t l.answered := by
  intro par hpar
  obtain ⟨hlen, hagree⟩ := verdict_same.mp (h par hpar)
  have hall : ∀ k < L.size par, ∃ graph,
      (request t phase par k, graph) ∈ heard .preAccept t par l := by
    rw [length_map, ← hphase] at hlen
    rw [← hphase]
    exact fun k hk => heard_all hpolled hpar hlen hk
  obtain ⟨first, hfirst⟩ := hall 0 (L.size_pos par)
  refine ⟨parentsOf first t, fun k hk => ?_⟩
  obtain ⟨graph, hgraph⟩ := hall k hk
  obtain ⟨hmem, hmine⟩ := mem_filter.mp hgraph
  obtain ⟨v, hv, -⟩ := hmail.replies _ hmem hphase
  refine ⟨_, hmem, hmine, rfl, v, hv, ?_⟩
  have hsame := hagree graph (mem_map_of_mem hgraph) first (mem_map_of_mem hfirst)
  rwa [parentsOf, show graph.find t = some v from hv, Option.elim_some] at hsame

theorem commits_concat (log : List Broadcast) (b : Broadcast) (t : ℕ) : commits (log ++ [b]) t =
    commits log t + if b.kind = .commit ∧ b.txn = t then 1 else 0 := by
  rw [commits, countP_append, countP_singleton, commits]
  simp

theorem begun_concat : Begun (log ++ [b]) t ↔ Begun log t ∨ b.kind = .preAccept ∧ b.txn = t := by
  simp [Begun, or_and_right, exists_or]

theorem not_begun_fresh (h : Logged L log undecided next) : ¬ Begun log next := by
  rintro ⟨b, hb, -, htxn⟩
  exact absurd (h.fresh b hb) (by omega)

theorem commits_fresh (h : Logged L log undecided next) : commits log next = 0 := by
  refine countP_eq_zero.mpr fun b hb => ?_
  have hlt := h.fresh b hb
  simp
  omega

theorem commits_concat_of_ne (hkind : b.kind ≠ .commit) (t : ℕ) :
    commits (log ++ [b]) t = commits log t := by
  rw [commits_concat, if_neg fun hc => hkind hc.1, add_zero]

theorem begun_concat_of_ne (hkind : b.kind ≠ .preAccept) (t : ℕ) :
    Begun (log ++ [b]) t ↔ Begun log t := by
  rw [begun_concat]
  exact or_iff_left fun hc => hkind hc.1

theorem Logged.concat (h : Logged L log undecided next) {undecided' : Option ℕ} {next' : ℕ}
    (hle : next ≤ next') (hjust : Justified L b) (hlt : b.txn < next')
    (hbegun : ∀ t, undecided' = some t → Begun (log ++ [b]) t)
    (honce : ∀ t, commits (log ++ [b]) t ≤ 1 ∧
      (Begun (log ++ [b]) t → (commits (log ++ [b]) t = 1 ↔ undecided' ≠ some t))) :
    Logged L (log ++ [b]) undecided' next' where
  justified := forall_mem_concat h.justified hjust
  fresh := forall_mem_concat (fun b' hb' => (h.fresh b' hb').trans_le hle) hlt
  begun := hbegun
  once := honce

theorem Logged.preAccept (h : Logged L log none next) (hkind : b.kind = .preAccept)
    (htxn : b.txn = next) : Logged L (log ++ [b]) (some next) (next + 1) := by
  have hne : b.kind ≠ .commit := by rw [hkind]; exact fun h => by cases h
  have hjust : Justified L b := by rw [Justified, hkind]; trivial
  refine h.concat (le_succ next) hjust (htxn ▸ lt_succ_self _)
    (fun x hx => begun_concat.mpr (.inr ⟨hkind, htxn.trans (Option.some.inj hx)⟩)) fun x => ?_
  rw [commits_concat_of_ne hne]
  refine ⟨(h.once x).1, fun hbegun => ?_⟩
  rcases begun_concat.mp hbegun with hbegun | ⟨-, hx⟩
  · have hnew : next ≠ x := fun heq => not_begun_fresh h (heq ▸ hbegun)
    rw [(h.once x).2 hbegun]
    exact iff_of_true (fun hx => by cases hx) fun hx => hnew (Option.some.inj hx)
  · obtain rfl := htxn.symm.trans hx
    rw [commits_fresh h]
    exact iff_of_false (by omega) fun hne => hne rfl

theorem Logged.accept (h : Logged L log (some t) next) (hkind : b.kind = .accept) (htxn : b.txn = t)
    (hjust : Justified L b) (hlt : t < next) : Logged L (log ++ [b]) (some t) next := by
  have hcommit : b.kind ≠ .commit := by rw [hkind]; exact fun h => by cases h
  have hpre : b.kind ≠ .preAccept := by rw [hkind]; exact fun h => by cases h
  refine h.concat le_rfl hjust (htxn ▸ hlt)
    (fun x hx => (begun_concat_of_ne hpre x).mpr (h.begun x hx)) fun x => ?_
  rw [commits_concat_of_ne hcommit, begun_concat_of_ne hpre]
  exact h.once x

theorem Logged.commit (h : Logged L log (some t) next) (hkind : b.kind = .commit) (htxn : b.txn = t)
    (hjust : Justified L b) (hlt : t < next) : Logged L (log ++ [b]) none next := by
  have hpre : b.kind ≠ .preAccept := by rw [hkind]; exact fun h => by cases h
  have hzero : commits log t = 0 := by
    have hne : ¬ commits log t = 1 := fun hone => ((h.once t).2 (h.begun t rfl)).mp hone rfl
    have hle := (h.once t).1
    omega
  refine h.concat le_rfl hjust (htxn ▸ hlt) (fun x hx => by cases hx) fun x => ?_
  rw [commits_concat, begun_concat_of_ne hpre, hkind, htxn]
  rcases eq_or_ne t x with rfl | hne
  · rw [if_pos ⟨rfl, rfl⟩, hzero]
    exact ⟨le_rfl, fun _ => iff_of_true rfl fun hx => by cases hx⟩
  · rw [if_neg fun hc => hne hc.2, add_zero]
    refine ⟨(h.once x).1, fun hx => ?_⟩
    rw [(h.once x).2 hx]
    exact iff_of_true (fun heq => hne (Option.some.inj heq)) fun heq => by cases heq

theorem Logged.mono (h : Logged L log undecided next) {next' : ℕ} (hle : next ≤ next') :
    Logged L log undecided next' :=
  ⟨h.justified, fun b hb => (h.fresh b hb).trans_le hle, h.begun, h.once⟩

end Evidence

/-! ### The invariant -/

/-- The attempt is under way: the replicas of its partitions have the request of its phase. -/
structure Running (L : Layout) (undecided : Option ℕ) (c : Coordinator) : Prop where
  mail : Mail L c.ledger c.nextTxnId
  ordered : Ordered stamp (now c.txnId c.phase) c.ledger
  polled : Polled L c.ledger c.txnId c.phase
  partitionIds : c.partitionIds = L.touched c.txnId
  lt : c.txnId < c.nextTxnId
  logged : Logged L c.log undecided c.nextTxnId

/-- Nothing of the commit has come. -/
structure Untouched (L : Layout) (c : Coordinator) : Prop where
  nCommitOks : ∀ par, c.nCommitOks.find par = if par ∈ L.touched c.txnId then some 0 else none
  fastCommit : c.fastCommit = false
  committed : c.committed = false
  aborted : c.aborted = false

/-- The pre-accept replies are filed and counted. -/
structure Collected (L : Layout) (c : Coordinator) : Prop where
  untouched : Untouched L c
  fastPath : c.fastPath = false
  vertex : ∃ d, c.graph.find c.txnId = some d ∧ d.partition = ∅
  nAcceptOks : ∀ par, c.nAcceptOks.find par = none
  graphs : ∀ par, c.graphsOf par = (heard .preAccept c.txnId par c.ledger).map Prod.snd
  oks : ∀ par, (c.nFastAcceptOks.find par).getD 0 = (heard .preAccept c.txnId par c.ledger).length
  cached : ∀ par ∈ L.touched c.txnId, ∀ res, c.fastAcceptGraphCheckCaches.find par = some res →
    (c.graphsOf par).length = L.size par ∧ res = verdict (L.size par) c.txnId (c.graphsOf par)

/-- They do not decide on a path yet. -/
structure Gathering (L : Layout) (c : Coordinator) : Prop extends Collected L c where
  unsettled : ¬ ∀ par ∈ L.touched c.txnId, verdict (L.size par) c.txnId (c.graphsOf par) = .same
  waits : (∃ par ∈ L.touched c.txnId, verdict (L.size par) c.txnId (c.graphsOf par) = .differ) →
    ¬ Quorum L .preAccept c.txnId c.ledger

/-- The accepts are counted. -/
structure Tallied (L : Layout) (c : Coordinator) : Prop where
  untouched : Untouched L c
  fastPath : c.fastPath = false
  vertex : ∃ d, c.graph.find c.txnId = some d ∧ d.partition = L.touched c.txnId
  oks : ∀ par, (c.nAcceptOks.find par).getD 0 = (heard .accept c.txnId par c.ledger).length

/-- Some partition has no majority yet. -/
structure Accepting (L : Layout) (c : Coordinator) : Prop extends Tallied L c where
  waits : ¬ Quorum L .accept c.txnId c.ledger

/-- The commits are counted, and some partition has not answered yet. -/
structure Committing (L : Layout) (result : ℕ → Bool) (c : Coordinator) : Prop where
  oks : ∀ par, c.nCommitOks.find par = if par ∈ L.touched c.txnId then
    some (heard .commit c.txnId par c.ledger).length else none
  fastCommit : c.fastCommit = false
  committed : c.committed = true → result c.txnId = true
  aborted : c.aborted = true → result c.txnId = false
  waits : ∃ par ∈ L.touched c.txnId, heard .commit c.txnId par c.ledger = []

/-- The coordinator is between attempts, or in one of the three phases of one. -/
inductive Inv (L : Layout) (result : ℕ → Bool) (c : Coordinator) : Prop
  | idle (phase : phaseOf c.phase = .initEnd) (mail : Mail L c.ledger c.nextTxnId)
      (ordered : Ordered stamp (now c.txnId c.phase) c.ledger)
      (logged : Logged L c.log none c.nextTxnId)
  | gathering (phase : phaseOf c.phase = .preAccept)
      (running : Running L (some c.txnId) c) (h : Gathering L c)
  | accepting (phase : phaseOf c.phase = .accept)
      (running : Running L (some c.txnId) c) (h : Accepting L c)
  | committing (phase : phaseOf c.phase = .commit)
      (running : Running L none c) (h : Committing L result c)

/-! ### From phase to phase -/

section

variable {L : Layout} {result : ℕ → Bool} {c : Coordinator} {next : Coordinator → Option Coordinator}
  {l : Ledger Request Graph} {fuel t phase phase' : ℕ}

theorem gotoNextPhase_initEnd (h : phaseOf c.phase = .initEnd) (fuel : ℕ) :
    gotoNextPhase L (fuel + 2) c = preAccept L ((c.advance 1).advance 2) := by
  have h1 : phaseOf (c.phase + 1) = .dispatch := by rw [phaseOf_succ, h]
  have h3 : phaseOf (c.phase + 1 + 2) = .preAccept := by
    rw [phaseOf_succ, phaseOf_succ, h1]
  rw [gotoNextPhase, h]
  simp only [expect, advance, h1, if_true]
  rw [gotoNextPhase]
  simp only [h1, expect, advance, h3, if_true]

theorem gotoNextPhase_fast (h : phaseOf c.phase = .preAccept) (hfast : c.fastPath = true)
    (fuel : ℕ) : gotoNextPhase L (fuel + 1) c = commit L (gotoNextPhase L fuel) (c.advance 2) := by
  have h2 : phaseOf (c.phase + 2) = .commit := by rw [phaseOf_succ, phaseOf_succ, h]
  rw [gotoNextPhase, h]
  simp only [hfast, if_true]
  exact if_pos h2

theorem gotoNextPhase_slow (h : phaseOf c.phase = .preAccept) (hfast : c.fastPath = false)
    (fuel : ℕ) : gotoNextPhase L (fuel + 1) c = accept L (c.advance 1) := by
  have h1 : phaseOf (c.phase + 1) = .accept := by rw [phaseOf_succ, h]
  rw [gotoNextPhase, h]
  simp only [hfast, Bool.false_eq_true, if_false]
  exact if_pos h1

theorem gotoNextPhase_accept (h : phaseOf c.phase = .accept) (fuel : ℕ) :
    gotoNextPhase L (fuel + 1) c = commit L (gotoNextPhase L fuel) (c.advance 1) := by
  have h1 : phaseOf (c.phase + 1) = .commit := by rw [phaseOf_succ, h]
  rw [gotoNextPhase, h]
  exact if_pos h1

theorem gotoNextPhase_commit (h : phaseOf c.phase = .commit)
    (hne : c.committed ≠ c.aborted) (fuel : ℕ) : gotoNextPhase L (fuel + 1) c =
      if c.committed then (c.advance 1).endTxn
      else (c.advance 1).restart L (gotoNextPhase L fuel) := by
  have h1 : phaseOf (c.phase + 1) = .initEnd := by rw [phaseOf_succ, h]
  rw [gotoNextPhase, h]
  exact (if_pos h1).trans (if_pos hne)

theorem find_upgrade {d : RccDTxn} (h : c.graph.find c.txnId = some d) :
    ∃ d', c.upgrade.graph.find c.txnId = some d' ∧ d'.partition = d.partition := by
  refine ⟨d.unionStatus txnCmt, ?_, rfl⟩
  show (c.graph.modify c.txnId _).find c.txnId = _
  rw [Dict.find_modify, if_pos rfl, h, Option.map_some]

theorem exists_touched (L : Layout) (t : ℕ) : ∃ par, par ∈ L.touched t := by
  by_contra hnone
  exact L.touched_nonempty t (ext fun x =>
    iff_of_false (fun hx => hnone ⟨x, hx⟩) (notMem_empty x))

/-- An attempt that comes to a new phase: all requests are of earlier ones. -/
structure Entering (L : Layout) (c : Coordinator) : Prop where
  mail : Mail L c.ledger c.nextTxnId
  nodup : c.ledger.all.Nodup
  before : ∀ r ∈ c.ledger.all, (now c.txnId c.phase).Before (stamp r)
  partitionIds : c.partitionIds = L.touched c.txnId
  lt : c.txnId < c.nextTxnId
  logged : Logged L c.log (some c.txnId) c.nextTxnId
  untouched : Untouched L c

theorem Running.enter (h : Running L (some c.txnId) c) (hu : Untouched L c) {n : ℕ} (hn : 0 < n)
    (hrank : rank (phaseOf c.phase) < rank (phaseOf (c.phase + n))) : Entering L (c.advance n) :=
  ⟨h.mail, h.ordered.nodup, h.ordered.later ⟨Nat.lt_add_of_pos_right hn, .inr ⟨rfl, hrank⟩⟩,
    h.partitionIds, h.lt, h.logged, { hu with }⟩

theorem Entering.commit (h : Entering L c) (hphase : phaseOf c.phase = .commit)
    (hvertex : ∃ d, c.graph.find c.txnId = some d ∧ d.partition = L.touched c.txnId)
    (hjust : Justified L ⟨.commit, c.txnId, c.fastPath, c.ledger.answered⟩) :
    ∃ c', commit L next c = some c' ∧ Inv L result c' := by
  obtain ⟨d, hd, hall⟩ := hvertex
  refine ⟨c.upgrade.broadcast L .commit c.partitionIds.elems, ?_, ?_⟩
  · rw [Coordinator.commit, if_pos (partitionsKnown_of h.partitionIds hd hall),
      h.untouched.fastCommit, if_neg Bool.false_ne_true]
  have hledger : (c.upgrade.broadcast L .commit c.partitionIds.elems).ledger = c.polling L := by
    rw [h.partitionIds, polling, hphase]
    rfl
  have hnone : ∀ par, heard .commit c.txnId par (c.polling L) = [] :=
    hphase ▸ heard_broadcast h.before
  refine .committing hphase ⟨hledger ▸ h.mail.broadcast h.lt (.inr (.inr hphase)),
    hledger ▸ ordered_broadcast h.before h.nodup, hledger ▸ polled_broadcast h.before,
    h.partitionIds, h.lt, h.logged.commit rfl rfl hjust h.lt⟩
    ⟨fun par => ?_, h.untouched.fastCommit, fun hc => ?_, fun ha => ?_, ?_⟩
  · rw [hledger]
    show c.nCommitOks.find par = if par ∈ L.touched c.txnId then
      some (heard .commit c.txnId par (c.polling L)).length else none
    rw [hnone par, h.untouched.nCommitOks]
    rfl
  · exact Bool.noConfusion (h.untouched.committed.symm.trans hc)
  · exact Bool.noConfusion (h.untouched.aborted.symm.trans ha)
  · obtain ⟨par, hpar⟩ := exists_touched L c.txnId
    rw [hledger]
    exact ⟨par, hpar, hnone par⟩

theorem Entering.accept (h : Entering L c) (hphase : phaseOf c.phase = .accept)
    (hfast : c.fastPath = false) (hoks : ∀ par, c.nAcceptOks.find par = none)
    (hvertex : ∃ d, c.choose.graph.find c.txnId = some d ∧ d.partition = L.touched c.txnId)
    (hjust : Justified L ⟨.accept, c.txnId, c.fastPath, c.ledger.answered⟩) :
    ∃ c', accept L c = some c' ∧ Inv L result c' := by
  obtain ⟨d, hd, hall⟩ := hvertex
  have hknown : c.choose.partitionsKnown = true :=
    have hpars : c.choose.partitionIds = L.touched c.choose.txnId := h.partitionIds
    partitionsKnown_of hpars hd hall
  refine ⟨c.choose.upgrade.broadcast L .accept c.partitionIds.elems, if_pos ⟨hfast, hknown⟩, ?_⟩
  have hledger : (c.choose.upgrade.broadcast L .accept c.partitionIds.elems).ledger =
      c.polling L := by
    rw [h.partitionIds, polling, hphase]
    rfl
  have hnone : ∀ par, heard .accept c.txnId par (c.polling L) = [] :=
    hphase ▸ heard_broadcast h.before
  obtain ⟨d', hd', hpartition⟩ :=
    find_upgrade (show c.choose.graph.find c.choose.txnId = some d from hd)
  refine .accepting hphase ⟨hledger ▸ h.mail.broadcast h.lt (.inr (.inl hphase)),
    hledger ▸ ordered_broadcast h.before h.nodup, hledger ▸ polled_broadcast h.before,
    h.partitionIds, h.lt, h.logged.accept rfl rfl hjust h.lt⟩ ⟨⟨{ h.untouched with }, hfast,
      ⟨d', hd', hpartition.trans hall⟩, fun par => ?_⟩, fun hquorum => ?_⟩
  · rw [hledger]
    show (c.nAcceptOks.find par).getD 0 = (heard .accept c.txnId par (c.polling L)).length
    rw [hnone par, hoks par]
    rfl
  · obtain ⟨par, hpar⟩ := exists_touched L c.txnId
    have hle := hquorum par hpar
    rw [hledger] at hle
    replace hle : L.size par / 2 + 1 ≤ (heard .accept c.txnId par (c.polling L)).length := hle
    rw [hnone par] at hle
    exact absurd hle (by simp)

/-- The pre-accept of a new attempt goes out. -/
theorem preAccept_inv (hphase : phaseOf c.phase = .preAccept)
    (hnext : c.nextTxnId = c.txnId + 1) (hmail : Mail L c.ledger c.txnId)
    (hnodup : c.ledger.all.Nodup)
    (hbefore : ∀ r ∈ c.ledger.all, (now c.txnId c.phase).Before (stamp r))
    (hlogged : Logged L c.log none c.txnId) (hpars : c.partitionIds = ∅) :
    ∃ c', preAccept L c.reset = some c' ∧ Inv L result c' := by
  have hvertex : c.reset.createV.graph.find c.txnId = some {} := by
    show (Dict.insert ({} : Dtxns) c.txnId {}).find c.txnId = _
    rw [Dict.find_insert, if_pos rfl]
    rfl
  have hknown : c.reset.createV.partitionsKnown = true := by
    show (c.reset.createV.graph.find c.txnId).any _ = true
    rw [hvertex, Option.any_some]
    show decide (c.partitionIds.elems.length = _) = true
    rw [hpars]
    rfl
  refine ⟨_, if_pos hknown, ?_⟩
  have hlt : c.txnId < c.nextTxnId := hnext ▸ lt_succ_self _
  have hledger : ((c.reset.createV.getAllCmds L).broadcast L .preAccept
      (L.touched c.reset.txnId).elems).ledger = c.polling L := by
    rw [polling, hphase]
    rfl
  have hnone : ∀ par, heard .preAccept c.txnId par (c.polling L) = [] :=
    hphase ▸ heard_broadcast hbefore
  have hunion : c.partitionIds.union (L.touched c.txnId) = L.touched c.txnId := by
    rw [hpars]
    exact ext fun x => by simp
  have hfew : ∀ par, verdict (L.size par) c.txnId (c.reset.graphsOf par) = .few := fun par =>
    verdict_few.mpr (L.size_pos par)
  obtain ⟨par, hpar⟩ := exists_touched L c.txnId
  refine .gathering hphase ⟨hledger ▸ (hmail.mono hlt.le).broadcast hlt (.inl hphase),
    hledger ▸ ordered_broadcast hbefore hnodup, hledger ▸ polled_broadcast hbefore, hunion, hlt, ?_⟩
    ⟨⟨⟨fun q => ?_, rfl, rfl, rfl⟩, rfl, ⟨{}, hvertex, rfl⟩, fun q => rfl, fun q => ?_, fun q => ?_,
      fun q _ res hres => by cases hres⟩, fun hsame => ?_, fun hdiffer => ?_⟩
  · show Logged L (c.log ++ [_]) (some c.txnId) c.nextTxnId
    rw [hnext]
    exact hlogged.preAccept rfl rfl
  · exact find_foldl_set _ _ _
  · rw [hledger]
    exact (congrArg (map Prod.snd) (hnone q)).symm
  · rw [hledger]
    exact (congrArg length (hnone q)).symm
  · exact GraphCheck.noConfusion ((hfew par).symm.trans (hsame par hpar))
  · obtain ⟨q, -, hdiffer⟩ := hdiffer
    exact GraphCheck.noConfusion ((hfew q).symm.trans hdiffer)

theorem start_inv (hphase : phaseOf c.phase = .initEnd) (hmail : Mail L c.ledger c.nextTxnId)
    (hord : Ordered stamp (now c.txnId c.phase) c.ledger)
    (hlogged : Logged L c.log none c.nextTxnId) (n fuel : ℕ) :
    ∃ c', gotoNextPhase L (fuel + 2) (c.newAttempt n).reset = some c' ∧ Inv L result c' := by
  have hphase' : phaseOf (c.phase + 1 + 2) = .preAccept := by
    rw [phaseOf_succ, phaseOf_succ, phaseOf_succ, hphase]
  rw [gotoNextPhase_initEnd
    (show phaseOf (c.newAttempt n).reset.phase = .initEnd from hphase)]
  refine preAccept_inv (c := ((c.newAttempt n).advance 1).advance 2) hphase' rfl hmail hord.nodup
    (fun r hr => ⟨?_, .inl (hmail.fresh r hr)⟩) hlogged rfl
  have hle : r.phase ≤ c.phase :=
    (hord.order r hr).elim (fun hb => hb.1.le) fun heq => (stamp_eq heq).1.le
  exact hle.trans_lt (show c.phase < c.phase + 1 + 2 by omega)

end

/-! ### Acknowledgements -/

section

variable {L : Layout} {result : ℕ → Bool} {c : Coordinator} {l : Ledger Request Graph}
  {undecided : Option ℕ} {t phase par : ℕ} {r : Request} {graph : Graph}

theorem Running.receive (h : Running L undecided c) (hr : r ∈ c.ledger.outstanding)
    (hreply : r.kind = .preAccept → Reply L r graph) : Running L undecided (c.receive r graph) :=
  ⟨h.mail.answer hr hreply, h.ordered.answer hr graph, h.polled.answer hr graph, h.partitionIds, h.lt,
    h.logged⟩

theorem Inv.parts (h : Inv L result c) : Mail L c.ledger c.nextTxnId ∧
    Ordered stamp (now c.txnId c.phase) c.ledger ∧
      ∃ undecided, Logged L c.log undecided c.nextTxnId := by
  cases h with
  | idle _ hmail hord hlogged => exact ⟨hmail, hord, _, hlogged⟩
  | gathering _ hrun | accepting _ hrun | committing _ hrun =>
    exact ⟨hrun.mail, hrun.ordered, _, hrun.logged⟩

theorem Inv.stale (h : Inv L result c) (hr : r ∈ c.ledger.outstanding)
    (hreply : r.kind = .preAccept → Reply L r graph) (hne : r.phase ≠ c.phase) :
    Inv L result (c.receive r graph) := by
  have hstale := heard_stale h.parts.2.1 hr hne graph
  cases h with
  | idle hphase hmail hord hlogged =>
    exact .idle hphase (hmail.answer hr hreply) (hord.answer hr graph) hlogged
  | gathering hphase hrun h =>
    rw [hphase] at hstale
    refine .gathering hphase (hrun.receive hr hreply) ⟨⟨{ h.untouched with }, h.fastPath,
      h.vertex, h.nAcceptOks, fun par => ?_, fun par => ?_, h.cached⟩, h.unsettled,
      fun hdiffer hquorum => ?_⟩
    · exact (h.graphs par).trans (congrArg (map Prod.snd) (hstale par)).symm
    · exact (h.oks par).trans (congrArg length (hstale par)).symm
    · exact h.waits hdiffer fun par hpar =>
        (hquorum par hpar).trans_eq (congrArg length (hstale par))
  | accepting hphase hrun h =>
    rw [hphase] at hstale
    refine .accepting hphase (hrun.receive hr hreply) ⟨⟨{ h.untouched with }, h.fastPath, h.vertex,
      fun par => ?_⟩, fun hquorum => ?_⟩
    · exact (h.oks par).trans (congrArg length (hstale par)).symm
    · exact h.waits fun par hpar => (hquorum par hpar).trans_eq (congrArg length (hstale par))
  | committing hphase hrun h =>
    rw [hphase] at hstale
    obtain ⟨par, hpar, hnone⟩ := h.waits
    refine .committing hphase (hrun.receive hr hreply) ⟨fun q => ?_, h.fastCommit, h.committed,
      h.aborted, par, hpar, (hstale par).trans hnone⟩
    show c.nCommitOks.find q = if q ∈ L.touched c.txnId then
      some (heard .commit c.txnId q (c.ledger.answer r graph)).length else none
    rw [hstale q, h.oks q]

section
variable (h : Ordered stamp (now t phase) l) (hr : r ∈ l.outstanding) (heq : r.phase = phase)
include h hr heq

theorem current_of_ordered : r.txn = t ∧ r.kind = phaseOf phase :=
  (stamp_eq (h.eq_of_phase (mem_all_of_outstanding hr) heq)).2

theorem heard_current (graph : Graph) (par : ℕ) : heard (phaseOf phase) t par (l.answer r graph) =
      heard (phaseOf phase) t par l ++ if par = r.par then [(r, graph)] else [] := by
  obtain ⟨htxn, hkind⟩ := current_of_ordered h hr heq
  have hmine : mine (phaseOf phase) t par r = true ↔ par = r.par := by
    rw [mine_iff]
    exact ⟨fun hm => hm.2.2.symm, fun hpar => ⟨hkind, htxn, hpar.symm⟩⟩
  rw [heard_answer]
  exact congrArg _ (if_congr hmine rfl rfl)

theorem length_current (graph : Graph) (par : ℕ) :
    (heard (phaseOf phase) t par (l.answer r graph)).length =
      (heard (phaseOf phase) t par l).length + if par = r.par then 1 else 0 := by
  rw [heard_current h hr heq, length_append]
  split <;> rfl

end

theorem getD_bump (counts : Dict ℕ ℕ) (par q : ℕ) : ((bump counts par).find q).getD 0 =
    (counts.find q).getD 0 + if q = par then 1 else 0 := by
  rw [bump, Dict.find_set]
  split
  · next h => rw [h, Option.getD_some]
  · rfl

theorem graphsOf_filePreAccept (par : ℕ) (graph : Graph) (c : Coordinator) (q : ℕ) :
    (c.filePreAccept par graph).graphsOf q = c.graphsOf q ++ if q = par then [graph] else [] := by
  show (((c.nFastAcceptGraphs.insert par []).modify par fun graphs => graphs ++ [graph]).find
    q).getD [] = (c.nFastAcceptGraphs.find q).getD [] ++ _
  rw [Dict.find_modify]
  split
  · next h =>
    rw [h, Dict.find_insert, if_pos rfl]
    rfl
  · next h => rw [Dict.find_insert, if_neg h, append_nil]

section
variable (h : Collected L c)
include h

theorem Collected.reply (hmail : Mail L c.ledger c.nextTxnId) (par : ℕ) :
    ∀ g ∈ c.graphsOf par, ∃ v, g.find c.txnId = some v ∧ par ∈ v.partition ∧
      ∀ q ∈ v.partition, q ∈ L.touched c.txnId := by
  intro g hg
  rw [h.graphs par] at hg
  obtain ⟨e, he, rfl⟩ := mem_map.mp hg
  obtain ⟨hmem, hmine⟩ := mem_filter.mp he
  obtain ⟨hkind, htxn, hpar⟩ := mine_iff.mp hmine
  have hreply := hmail.replies e hmem hkind
  rw [Reply, htxn, hpar] at hreply
  exact hreply

variable (hphase : phaseOf c.phase = .preAccept)
include hphase

theorem Collected.checkable (hrun : Running L undecided c) (hpar : par ∈ L.touched c.txnId) :
    Checkable L c par := by
  have hlen := length_heard hrun.polled hpar
  refine ⟨?_, fun g hg => ?_, h.cached par hpar⟩
  · rw [h.graphs par, length_map, ← hphase]
    exact hlen
  · obtain ⟨v, hv, -⟩ := h.reply hrun.mail par g hg
    rw [hv]
    rfl

theorem Collected.file (hrun : Running L undecided c) (hr : r ∈ c.ledger.outstanding)
    (heq : r.phase = c.phase) (graph : Graph) :
    Collected L ((c.receive r graph).filePreAccept r.par graph) := by
  have hheard := heard_current hrun.ordered hr heq graph
  have hlength := length_current hrun.ordered hr heq graph
  have hle := length_heard (hrun.polled.answer hr graph)
    ((current_of_ordered hrun.ordered hr heq).1 ▸
      (hrun.mail.sound r (mem_all_of_outstanding hr)).1)
  have hgraphs : ∀ par, ((c.receive r graph).filePreAccept r.par graph).graphsOf par =
      c.graphsOf par ++ if par = r.par then [graph] else [] :=
    graphsOf_filePreAccept r.par graph (c.receive r graph)
  rw [hphase] at hheard hlength hle
  refine ⟨{ h.untouched with }, h.fastPath, h.vertex, h.nAcceptOks, fun par => ?_, fun par => ?_,
    fun par hpar res hres => ?_⟩
  · rw [hgraphs par, h.graphs par]
    show _ = (heard .preAccept c.txnId par (c.ledger.answer r graph)).map Prod.snd
    rw [hheard par, map_append]
    split <;> rfl
  · show ((bump c.nFastAcceptOks r.par).find par).getD 0 =
      (heard .preAccept c.txnId par (c.ledger.answer r graph)).length
    rw [getD_bump, h.oks par, hlength par]
  · obtain ⟨hfull, hres⟩ := h.cached par hpar res hres
    -- a partition with a result kept has no reply to come
    have hne : par ≠ r.par := by
      rintro rfl
      rw [hlength, if_pos rfl] at hle
      rw [h.graphs, length_map] at hfull
      omega
    rw [hgraphs par, if_neg hne, append_nil]
    exact ⟨hfull, hres⟩

theorem Collected.fast (hrun : Running L (some c.txnId) c)
    (hsame : ∀ par ∈ L.touched c.txnId, verdict (L.size par) c.txnId (c.graphsOf par) = .same) :
    ∃ c', c.setFastPath.choose.goto L = some c' ∧ Inv L result c' := by
  have hphase' : phaseOf (c.phase + 2) = .commit := by
    rw [phaseOf_succ, phaseOf_succ, hphase]
  have hall : ∀ par ∈ L.touched c.txnId, c.graphsOf par ≠ [] := by
    intro par hpar hnil
    have hlen := (verdict_same.mp (hsame par hpar)).1
    rw [hnil] at hlen
    exact absurd hlen (L.size_pos par).not_ge
  obtain ⟨d, hd, hempty⟩ := h.vertex
  have hvertex := choose_partitions (c := c.setFastPath) hd hempty (h.reply hrun.mail) hall
  have hrun' : Running L (some c.txnId) c.setFastPath.choose :=
    { hrun with }
  have huntouched : Untouched L c.setFastPath.choose := { h.untouched with }
  rw [goto, gotoNextPhase_fast (show phaseOf c.setFastPath.choose.phase = _ from hphase) rfl]
  refine (hrun'.enter huntouched (n := 2) (by decide) ?_).commit hphase' hvertex ?_
  · show rank (phaseOf c.phase) < rank (phaseOf (c.phase + 2))
    rw [hphase, hphase']
    decide
  · exact unanimous_of hrun.mail hrun.polled hphase fun par hpar => h.graphs par ▸ hsame par hpar

theorem Collected.slow (hrun : Running L (some c.txnId) c)
    (hquorum : Quorum L .preAccept c.txnId c.ledger) :
    ∃ c', c.goto L = some c' ∧ Inv L result c' := by
  have hphase' : phaseOf (c.phase + 1) = .accept := by rw [phaseOf_succ, hphase]
  have hall : ∀ par ∈ L.touched c.txnId, c.graphsOf par ≠ [] := by
    intro par hpar hnil
    have hlen := hquorum par hpar
    rw [← length_map (f := Prod.snd), ← h.graphs par, hnil] at hlen
    exact absurd hlen (by simp [Layout.getSlowQuorum])
  obtain ⟨d, hd, hempty⟩ := h.vertex
  rw [goto, gotoNextPhase_slow hphase h.fastPath]
  refine (hrun.enter h.untouched (n := 1) (by decide) ?_).accept hphase' h.fastPath h.nAcceptOks
    (choose_partitions hd hempty (h.reply hrun.mail) hall) ?_
  · rw [hphase, hphase']
    decide
  · have hmajority := majority_of hrun.mail hrun.ordered (hphase ▸ hquorum)
    rw [hphase] at hmajority
    exact hmajority

end

theorem Running.setCaches (h : Running L undecided c) (caches : Dict ℕ GraphCheck) :
    Running L undecided (c.setCaches caches) :=
  { h with }

theorem Collected.setCaches (h : Collected L c) {caches : Dict ℕ GraphCheck}
    (hcheck : ∀ par ∈ L.touched c.txnId, Checkable L (c.setCaches caches) par) :
    Collected L (c.setCaches caches) :=
  ⟨{ h.untouched with },
    h.fastPath, h.vertex, h.nAcceptOks, h.graphs, h.oks, fun par hpar => (hcheck par hpar).cached⟩

/-- A reply settles the path, or the coordinator waits for more. -/
theorem Collected.counted (h : Collected L c) (hphase : phaseOf c.phase = .preAccept)
    (hrun : Running L (some c.txnId) c) :
    ∃ c', c.preAcceptCounted L = some c' ∧ Inv L result c' := by
  have hpars : ∀ {par}, par ∈ c.partitionIds.elems ↔ par ∈ L.touched c.txnId := by
    rw [hrun.partitionIds]
    exact Iff.rfl
  have hcheck : ∀ par ∈ c.partitionIds.elems, Checkable L c par := fun par hpar =>
    h.checkable hphase hrun (hpars.mp hpar)
  obtain ⟨caches, hpossible, hkeep⟩ := fastpathPossible_eq hcheck
  have h1 : Collected L (c.setCaches caches) := h.setCaches fun par hpar =>
    hkeep par (hcheck par (hpars.mpr hpar))
  have hrun1 := hrun.setCaches caches
  rw [preAcceptCounted, hpossible, Option.bind_some]
  split
  · next hnone =>
    have hcheck1 : ∀ par ∈ c.partitionIds.elems, Checkable L (c.setCaches caches) par :=
      fun par hpar => hkeep par (hcheck par hpar)
    obtain ⟨caches', hreached, hkeep'⟩ := allFastQuorumsReached_eq hcheck1
    have h2 : Collected L ((c.setCaches caches).setCaches caches') := h1.setCaches fun par hpar =>
      hkeep' par (hcheck1 par (hpars.mpr hpar))
    have hrun2 := hrun1.setCaches caches'
    rw [hreached, Option.bind_some]
    split
    · next hsame =>
      exact h2.fast hphase hrun2 fun par hpar => of_decide_eq_true hsame par (hpars.mpr hpar)
    · next hwait =>
      refine ⟨_, rfl, .gathering hphase hrun2 ⟨h2, fun hsame => ?_, fun ⟨par, hpar, hdiffer⟩ => ?_⟩⟩
      · exact hwait (decide_eq_true fun par hpar => hsame par (hpars.mp hpar))
      · exact absurd hdiffer (of_decide_eq_true hnone par (hpars.mpr hpar))
  · next hsome =>
    have hreached : (c.setCaches caches).preAcceptAllSlowQuorumsReached L = true ↔
        Quorum L .preAccept c.txnId c.ledger := by
      rw [preAcceptAllSlowQuorumsReached, all_eq_true]
      refine forall_congr' fun par => imp_congr hpars ?_
      rw [decide_eq_true_iff, h1.oks par]
      exact Iff.rfl
    split
    · next hquorum =>
      rw [if_neg (h1.fastPath ▸ Bool.false_ne_true)]
      exact h1.slow hphase hrun1 (hreached.mp hquorum)
    · next hwait =>
      refine ⟨_, rfl, .gathering hphase hrun1 ⟨h1, fun hsame => hsome ?_, fun _ hquorum => ?_⟩⟩
      · refine decide_eq_true fun par hpar hdiffer => ?_
        exact GraphCheck.noConfusion ((hsame par (hpars.mp hpar)).symm.trans hdiffer)
      · exact hwait (hreached.mpr hquorum)

theorem Tallied.count (h : Tallied L c) (hphase : phaseOf c.phase = .accept)
    (hrun : Running L undecided c) (hr : r ∈ c.ledger.outstanding) (heq : r.phase = c.phase)
    (graph : Graph) : Tallied L ((c.receive r graph).countAccept r.par) := by
  have hlength := length_current hrun.ordered hr heq graph
  rw [hphase] at hlength
  refine ⟨{ h.untouched with }, h.fastPath, h.vertex, fun par => ?_⟩
  show ((bump c.nAcceptOks r.par).find par).getD 0 =
    (heard .accept c.txnId par (c.ledger.answer r graph)).length
  rw [getD_bump, h.oks par, hlength par]

theorem Tallied.counted (h : Tallied L c) (hphase : phaseOf c.phase = .accept)
    (hrun : Running L (some c.txnId) c) :
    ∃ c', (if c.acceptQuorumReached L then c.goto L else some c) = some c' ∧ Inv L result c' := by
  have hphase' : phaseOf (c.phase + 1) = .commit := by rw [phaseOf_succ, hphase]
  have hreached : c.acceptQuorumReached L = true ↔ Quorum L .accept c.txnId c.ledger := by
    rw [acceptQuorumReached, all_eq_true, hrun.partitionIds]
    refine forall_congr' fun par => imp_congr Iff.rfl ?_
    rw [decide_eq_true_iff, h.oks par]
  split
  · next hquorum =>
    have hmajority := majority_of hrun.mail hrun.ordered (hphase ▸ hreached.mp hquorum)
    rw [hphase] at hmajority
    rw [goto, gotoNextPhase_accept hphase]
    refine (hrun.enter h.untouched (n := 1) (by decide) ?_).commit hphase' h.vertex ?_
    · rw [hphase, hphase']
      decide
    · rw [Justified]
      show if c.fastPath = true then _ else _
      rw [if_neg (h.fastPath ▸ Bool.false_ne_true)]
      exact hmajority
  · next hwait => exact ⟨c, rfl, .accepting hphase hrun ⟨h, fun hq => hwait (hreached.mpr hq)⟩⟩

theorem finish_inv (hphase : phaseOf c.phase = .commit) (hrun : Running L none c)
    (hcommitted : c.committed = result t) (haborted : c.aborted = !result t) :
    ∃ c', c.goto L = some c' ∧ Inv L result c' := by
  have hphase' : phaseOf (c.phase + 1) = .initEnd := by rw [phaseOf_succ, hphase]
  have hbefore : ∀ r ∈ c.ledger.all, (now c.txnId (c.phase + 1)).Before (stamp r) := by
    refine hrun.ordered.later ⟨lt_succ_self _, .inr ⟨rfl, ?_⟩⟩
    show rank (phaseOf c.phase) < rank (phaseOf (c.phase + 1))
    rw [hphase, hphase']
    decide
  have hne : c.committed ≠ c.aborted := by
    rw [hcommitted, haborted]
    exact (Bool.not_ne_self _).symm
  rw [goto, gotoNextPhase_commit hphase hne]
  split
  · next hc =>
    refine ⟨c.advance 1, ?_, .idle hphase' hrun.mail (.of_before hrun.ordered.nodup hbefore)
      hrun.logged⟩
    exact if_pos (by rw [show (c.advance 1).committed = true from hc]; rfl)
  · next hc =>
    have ha : c.aborted = true := by
      rw [haborted, ← hcommitted, eq_false_of_ne_true hc]
      rfl
    rw [restart, if_pos (show (c.advance 1).aborted = true from ha)]
    split
    · refine ⟨(c.advance 1).newAttempt (c.nRetry + 1), ?_, .idle hphase'
        (hrun.mail.mono (le_succ _)) (.of_before hrun.ordered.nodup fun r hr =>
          ⟨(hbefore r hr).1, .inl ?_⟩) (hrun.logged.mono (le_succ _))⟩
      · refine if_pos ?_
        show (c.committed || c.aborted) = true
        rw [ha, Bool.or_true]
      · exact hrun.mail.fresh r hr
    · exact start_inv (c := c.advance 1) hphase' hrun.mail (.of_before hrun.ordered.nodup hbefore)
        hrun.logged (c.nRetry + 1) 1

theorem commitCounted_inv (hphase : phaseOf c.phase = .commit) (hrun : Running L none c)
    (hoks : ∀ q, c.nCommitOks.find q = if q ∈ L.touched c.txnId then
      some (heard .commit c.txnId q c.ledger).length else none)
    (hfast : c.fastCommit = false) (hcommitted : c.committed = result c.txnId)
    (haborted : c.aborted = !result c.txnId) (hmore : 1 < (c.nCommitOks.find par).getD 0 →
      ∃ q ∈ L.touched c.txnId, heard .commit c.txnId q c.ledger = []) :
    ∃ c', c.commitCounted L par = some c' ∧ Inv L result c' := by
  have hstay : (∃ q ∈ L.touched c.txnId, heard .commit c.txnId q c.ledger = []) →
      Inv L result c := fun hwaits => .committing hphase hrun
    ⟨hoks, hfast, fun hc => hcommitted.symm.trans hc, fun ha => by simpa [ha] using haborted, hwaits⟩
  rw [commitCounted]
  split
  · next hmany => exact ⟨c, rfl, hstay (hmore hmany)⟩
  · split
    · next hzero =>
      refine ⟨c, rfl, hstay ?_⟩
      obtain ⟨⟨q, n⟩, hmem, hn⟩ := any_eq_true.mp hzero
      have hfind := find_eq_some.mpr hmem
      rw [hoks q, show n = 0 from of_decide_eq_true hn] at hfind
      split at hfind
      · next hq => exact ⟨q, hq, length_eq_zero_iff.mp (Option.some.inj hfind)⟩
      · cases hfind
    · exact finish_inv hphase hrun hcommitted haborted

/-! What an acknowledgement of the current phase comes down to. -/

theorem preAcceptAck_current (heq : phase = c.phase) : c.preAcceptAck L phase par .success graph =
    (c.filePreAccept par graph).preAcceptCounted L :=
  (if_neg (not_not.mpr heq)).trans (if_pos rfl)

theorem acceptAck_current (heq : phase = c.phase) : c.acceptAck L phase par .success =
    if (c.countAccept par).acceptQuorumReached L then (c.countAccept par).goto L
    else some (c.countAccept par) :=
  (if_neg (not_not.mpr heq)).trans (if_pos rfl)

theorem commitAck_current (heq : phase = c.phase) (hfast : c.fastCommit = false) (ok : Bool) :
    c.commitAck L phase par (if ok = false then .reject else .success) =
      ((if ok then c.setCommitted else c.setAborted).countCommit par).commitCounted L par := by
  refine (if_neg (not_not.mpr heq)).trans ((if_neg (hfast ▸ Bool.false_ne_true)).trans ?_)
  cases ok <;> rfl

/-- A commit acknowledgement of the attempt, whose result is `result`. -/
theorem Committing.ack (h : Committing L result c) (hphase : phaseOf c.phase = .commit)
    (hrun : Running L none c) (hr : r ∈ c.ledger.outstanding) (heq : r.phase = c.phase)
    (hreply : r.kind = .preAccept → Reply L r graph) : ∃ c', (c.receive r graph).commitAck L r.phase
      r.par (if result r.txn = false then .reject else .success) = some c' ∧ Inv L result c' := by
  have htxn := (current_of_ordered hrun.ordered hr heq).1
  have hsound := (hrun.mail.sound r (mem_all_of_outstanding hr)).1
  have hlength := length_current hrun.ordered hr heq graph
  have hheard := heard_current hrun.ordered hr heq graph
  rw [hphase] at hlength hheard
  have hrun' := hrun.receive hr hreply
  have hoks : ∀ q, (c.nCommitOks.set r.par ((c.nCommitOks.find r.par).getD 0 + 1)).find q =
      if q ∈ L.touched c.txnId then
        some (heard .commit c.txnId q (c.ledger.answer r graph)).length else none := by
    intro q
    rw [find_set, hlength q]
    split
    · next hq => rw [hq, h.oks, ← htxn, if_pos hsound, if_pos hsound, Option.getD_some]
    · exact h.oks q
  have hmore : 1 < ((c.nCommitOks.set r.par ((c.nCommitOks.find r.par).getD 0 + 1)).find
      r.par).getD 0 → ∃ q ∈ L.touched c.txnId, heard .commit c.txnId q (c.ledger.answer r graph) = [] := by
    intro hmany
    obtain ⟨q, hq, hnone⟩ := h.waits
    have hne : q ≠ r.par := by
      rintro rfl
      rw [find_set_self, h.oks, if_pos hq, hnone] at hmany
      exact absurd hmany (by decide)
    exact ⟨q, hq, by rw [hheard q, hnone, if_neg hne]; rfl⟩
  rw [htxn, commitAck_current (show r.phase = (c.receive r graph).phase from heq) h.fastCommit]
  cases hresult : result c.txnId with
  | true =>
    refine commitCounted_inv (c := (c.receive r graph).setCommitted.countCommit r.par) hphase
      { hrun' with } hoks h.fastCommit hresult.symm ?_ hmore
    show c.aborted = !result c.txnId
    rw [hresult]
    exact eq_false_of_ne_true fun ha => Bool.noConfusion (hresult.symm.trans (h.aborted ha))
  | false =>
    refine commitCounted_inv (c := (c.receive r graph).setAborted.countCommit r.par) hphase
      { hrun' with } hoks h.fastCommit ?_ (congrArg not hresult).symm hmore
    show c.committed = result c.txnId
    rw [hresult]
    exact eq_false_of_ne_true fun hc => Bool.noConfusion (hresult.symm.trans (h.committed hc))

end

/-! ### Runs -/

/-- What may happen: a transaction is handed to a coordinator that has none, and a request that was
    not answered is, with success if it is a pre-accept or an accept, and with the result of the
    attempt, which is the same everywhere, if it is a commit. -/
def Proper (L : Layout) (result : ℕ → Bool) (c : Coordinator) : Event → Prop
  | .doOne => phaseOf c.phase = .initEnd
  | .ack r res graph => r ∈ c.ledger.outstanding ∧ (r.kind = .preAccept → Reply L r graph) ∧
      res = if r.kind = .commit ∧ result r.txn = false then .reject else .success

instance (L : Layout) (r : Request) (graph : Graph) : Decidable (Reply L r graph) :=
  decidable_of_iff (∃ v ∈ graph.find r.txn, r.par ∈ v.partition ∧
    ∀ q ∈ v.partition, q ∈ L.touched r.txn) Iff.rfl

instance (L : Layout) (result : ℕ → Bool) (c : Coordinator) : ∀ e, Decidable (Proper L result c e)
  | .doOne => inferInstanceAs (Decidable (phaseOf c.phase = .initEnd))
  | .ack r res graph => inferInstanceAs (Decidable (r ∈ c.ledger.outstanding ∧
      (r.kind = .preAccept → Reply L r graph) ∧ res = _))

/-- The attempt is committed once at most; if it has begun and is not committed, it is the current one
    and an acknowledgement of its phase is still to come. -/
def CommittedOnce (c : Coordinator) (t : ℕ) : Prop :=
  commits c.log t ≤ 1 ∧ (Begun c.log t → commits c.log t = 1 ∨
    t = c.txnId ∧ ∃ r ∈ c.ledger.outstanding, r.txn = t ∧ r.phase = c.phase)

section Runs

variable {L : Layout} {result : ℕ → Bool} {c : Coordinator}

theorem step_inv (h : Inv L result c) (e : Event) (hproper : Proper L result c e) :
    ∃ c', step L c e = some c' ∧ Inv L result c' := by
  obtain ⟨hmail, hordered, -⟩ := h.parts
  cases e with
  | doOne =>
    cases h with
    | idle hphase _ _ hlogged => exact start_inv hphase hmail hordered hlogged 0 2
    | gathering hphase | accepting hphase | committing hphase => cases hphase.symm.trans hproper
  | ack r res graph =>
    obtain ⟨hr, hreply, hres⟩ := hproper
    have hkinds := hmail.kinds r (mem_all_of_outstanding hr)
    by_cases heq : r.phase = c.phase
    · have hkind := (current_of_ordered hordered hr heq).2
      cases h with
      | idle hphase =>
        rw [hkind, hphase] at hkinds
        rcases hkinds with hk | hk | hk <;> cases hk
      | gathering hphase hrun h =>
        rw [hphase] at hkind
        rw [hkind, if_neg fun hk => by cases hk.1] at hres
        have hrun' := hrun.receive hr hreply
        rw [step, hkind, hres]
        simp only [preAcceptAck_current (show r.phase = (c.receive r graph).phase from heq)]
        exact (h.file hphase hrun hr heq graph).counted hphase { hrun' with }
      | accepting hphase hrun h =>
        rw [hphase] at hkind
        rw [hkind, if_neg fun hk => by cases hk.1] at hres
        have hrun' := hrun.receive hr hreply
        rw [step, hkind, hres]
        simp only [acceptAck_current (show r.phase = (c.receive r graph).phase from heq)]
        exact (h.count hphase hrun hr heq graph).counted hphase { hrun' with }
      | committing hphase hrun h =>
        rw [hphase] at hkind
        rw [step, hkind, hres]
        simp only [hkind, true_and]
        exact h.ack hphase hrun hr heq hreply
    · refine ⟨c.receive r graph, ?_, h.stale hr hreply heq⟩
      rw [step]
      rcases hkinds with hk | hk | hk <;> rw [hk] <;> exact if_pos heq

theorem Gathering.few (h : Gathering L c) : Few L .preAccept c.txnId c.ledger := by
  by_contra hfew
  have hfull : ∀ par ∈ L.touched c.txnId,
      L.size par ≤ (heard .preAccept c.txnId par c.ledger).length := fun par hpar =>
    not_lt.mp fun hlt => hfew ⟨par, hpar, hlt⟩
  refine h.unsettled fun par hpar => ?_
  cases hverdict : verdict (L.size par) c.txnId (c.graphsOf par) with
  | same => rfl
  | few =>
    rw [verdict_few, h.graphs par, length_map] at hverdict
    exact absurd (hfull par hpar) (not_le.mpr hverdict)
  | differ =>
    refine absurd (fun q hq => ?_) (h.waits ⟨par, hpar, hverdict⟩)
    have hq := hfull q hq
    have hpos := L.size_pos q
    rw [Layout.getSlowQuorum]
    omega

theorem Accepting.few (h : Accepting L c) : Few L .accept c.txnId c.ledger := by
  by_contra hfew
  refine h.waits fun par hpar => ?_
  have hfull := not_lt.mp fun hlt => hfew ⟨par, hpar, hlt⟩
  have hpos := L.size_pos par
  rw [Layout.getSlowQuorum]
  omega

theorem Running.waiting {undecided : Option ℕ} (h : Running L undecided c)
    (hfew : Few L (phaseOf c.phase) c.txnId c.ledger) :
    ∃ r ∈ c.ledger.outstanding, r.txn = c.txnId ∧ r.phase = c.phase := by
  obtain ⟨par, hpar, hlt⟩ := hfew
  obtain ⟨r, hr, hmine⟩ :=
    h.polled.exists_outstanding hpar (countP_eq_length_filter.trans_lt hlt)
  rcases h.ordered.order r (mem_all_of_outstanding hr) with hbefore | heq
  · rw [not_mine hbefore] at hmine
    cases hmine
  · exact ⟨r, hr, (stamp_eq heq).2.1, (stamp_eq heq).1⟩

theorem Logged.committedOnce {undecided : Option ℕ} {next t : ℕ} (h : Logged L c.log undecided next)
    (hwait : undecided = some t → t = c.txnId ∧
      ∃ r ∈ c.ledger.outstanding, r.txn = t ∧ r.phase = c.phase) : CommittedOnce c t := by
  refine ⟨(h.once t).1, fun hbegun => ?_⟩
  by_cases hundecided : undecided = some t
  · exact .inr (hwait hundecided)
  · exact .inl (((h.once t).2 hbegun).mpr hundecided)

theorem Running.committedOnce (h : Running L (some c.txnId) c)
    (hfew : Few L (phaseOf c.phase) c.txnId c.ledger) (t : ℕ) : CommittedOnce c t := by
  refine h.logged.committedOnce fun ht => ?_
  obtain rfl := Option.some.inj ht
  exact ⟨rfl, h.waiting hfew⟩

theorem Inv.committedOnce (h : Inv L result c) (t : ℕ) : CommittedOnce c t := by
  cases h with
  | idle _ _ _ hlogged => exact hlogged.committedOnce fun ht => by cases ht
  | gathering hphase hrun h | accepting hphase hrun h => exact hrun.committedOnce (hphase ▸ h.few) t
  | committing _ hrun => exact hrun.logged.committedOnce fun ht => by cases ht

theorem inv_empty (L : Layout) (result : ℕ → Bool) : Inv L result {} :=
  .idle rfl
    ⟨forall_mem_nil _, forall_mem_nil _, forall_mem_nil _, forall_mem_nil _⟩
    ⟨nodup_nil, forall_mem_nil _⟩
    ⟨forall_mem_nil _, forall_mem_nil _,
      fun _ h => (by cases h), fun _ => ⟨zero_le 1, fun ⟨_, hb, _⟩ => absurd hb not_mem_nil⟩⟩

/-- However the acknowledgements come, no handler fails; a fast commit has the same parents from all
    replicas of every partition of its attempt, an accept a majority of pre-accepts of each and a slow
    commit a majority of accepts; and each attempt is committed once, unless it is the current one
    and an acknowledgement is still to come. -/
theorem coordinator_paths (L : Layout) (result : ℕ → Bool) (es : List Event)
    (h : Allowed (step L) (Proper L result) {} es) : ∃ c, run (step L) {} es = some c ∧
      (∀ b ∈ c.log, Justified L b) ∧ ∀ t, CommittedOnce c t := by
  obtain ⟨c, hc, hinv⟩ := run_of_allowed (fun _ e hc => step_inv hc e) (inv_empty L result) h
  obtain ⟨-, -, undecided, hlogged⟩ := hinv.parts
  exact ⟨c, hc, hlogged.justified, hinv.committedOnce⟩

/-- One partition with two replicas. -/
def pair : Layout where
  size _ := 2
  touched _ := insert ∅ 0
  maxRetry := 0
  size_pos _ := by decide
  touched_nonempty _ := by decide

/-- A reply of that partition for attempt 0. -/
def bare : Graph := Dict.insert {} 0 { partition := insert ∅ 0 }

/-- The fast path, with an acknowledgement of the commit that comes when the transaction has ended. -/
theorem coordinator_paths_fast :
    let es : List Event := [.doOne, .ack ⟨.preAccept, 0, 3, 0, 1⟩ .success bare,
      .ack ⟨.preAccept, 0, 3, 0, 0⟩ .success bare, .ack ⟨.commit, 0, 5, 0, 0⟩ .success {},
      .ack ⟨.commit, 0, 5, 0, 1⟩ .success {}]
    Allowed (step pair) (Proper pair fun _ => true) {} es ∧
      ∃ c, run (step pair) {} es = some c ∧ (∀ b ∈ c.log, Justified pair b) ∧
        ∀ t, CommittedOnce c t := by
  intro es
  have h : Allowed (step pair) (Proper pair fun _ => true) {} es := by decide
  exact ⟨h, coordinator_paths pair (fun _ => true) es h⟩

end Runs

end Fiss.Brq.Coordinator
