import Fiss.Brq.Server

/-! The order a partition leader hands to the analytical side when a transaction commits, against the
    parents the transaction has in the leader's graph afterwards. The order is written before the
    graph of the commit message is taken in. -/

namespace Fiss.Brq
open Fiss.Rcc Option List OrdSet

/-- The vertex that came leaves the parents of the record as they are. -/
def KeepsParents (d : RccDTxn) (rhs : Vertex) : Prop :=
  if d.maxSeenBallot = 0 ∧ d.status ≤ txnStd ∧ rhs.status ≤ txnStd then
    ∀ p ∈ rhs.parents, p ∈ d.parents
  else if txnCmt ≤ rhs.status ∧ d.status < rhs.status ∨
      rhs.status < txnCmt ∧ txnPac ≤ rhs.status ∧ d.status ≤ rhs.status ∧ d.maxSeenBallot = 0 then
    rhs.parents = d.parents
  else True

theorem aggregate_parents_iff (d : RccDTxn) (rhs : Vertex) :
    (d.aggregate rhs).parents = d.parents ↔ KeepsParents d rhs := by
  unfold RccDTxn.aggregate KeepsParents
  by_cases hearly : d.maxSeenBallot = 0 ∧ d.status ≤ txnStd ∧ rhs.status ≤ txnStd
  · simp only [hearly, and_self, if_true]
    constructor
    · intro h p hp
      rw [← h, mem_union]
      exact .inr hp
    · intro h
      ext p
      rw [mem_union]
      exact ⟨fun hp => hp.elim id (h p), .inl⟩
  · simp only [if_neg hearly]
    by_cases hcmt : txnCmt ≤ rhs.status
    · by_cases hlt : d.status < rhs.status
      · simp [hcmt, hlt]
      · simp [hcmt, hlt, Nat.not_lt.mpr hcmt]
    · by_cases hpac : txnPac ≤ rhs.status ∧ d.status ≤ rhs.status
      · by_cases hb : d.maxSeenBallot = 0
        · simp [hcmt, hpac, hb, Nat.not_le.mp hcmt]
        · simp [hcmt, hpac, hb]
      · have hno : ¬ (txnPac ≤ rhs.status ∧ d.status ≤ rhs.status ∧ d.maxSeenBallot = 0) :=
          fun h => hpac ⟨h.1, h.2.1⟩
        simp [hcmt, hpac, hno]

section Commit

variable {site : Site} {clock : ℕ → ℕ → ℕ} {layout : List ℕ} {t : ℕ} {graph : Option Graph}
  {s s' : Server} {r : Server × Bool}

theorem received_executed : (received site t s).executed = (recordOf t s).executed :=
  touchShards_executed site _

theorem received_parents : (received site t s).parents = (recordOf t s).parents :=
  touchShards_parents site _

theorem keepsParents_received {rhs : Vertex} :
    KeepsParents (setCommitRequested (received site t s)) rhs ↔ KeepsParents (recordOf t s) rhs := by
  have hsame : (received site t s).status = (recordOf t s).status ∧
      (received site t s).maxSeenBallot = (recordOf t s).maxSeenBallot := by
    unfold received touchShards; split <;> exact ⟨rfl, rfl⟩
  simp only [KeepsParents, setCommitRequested, hsame.1, hsame.2, received_parents]

/-- What a commit message does to the orders and to the parents of its transaction, before other
    transactions are looked at. -/
theorem takeCommit_parents (h : takeCommit site t graph s = some r) :
    r.1.orders = s.orders ++ transferOrder site t (fetch site t s) ∧
    ∃ d', r.1.dtxns.find t = some d' ∧ (d'.parents = (recordOf t s).parents ↔
      (recordOf t s).executed = true ∨
        ∀ g rhs, graph = some g → g.find t = some rhs → KeepsParents (recordOf t s) rhs) := by
  obtain ⟨-, ⟨hex, rfl⟩ | ⟨hex, ⟨rfl, hrun⟩ | ⟨g, rfl, rfl⟩⟩⟩ := takeCommit_cases h
  · rw [received_executed] at hex
    exact ⟨rfl, _, commitReceived_find, iff_of_true received_parents (.inl hex)⟩
  · obtain ⟨-, hrun⟩ := ite_none_right_eq_some.mp hrun
    obtain ⟨s1, hs1, hrun⟩ := bind_eq_some_iff.mp hrun
    obtain ⟨d1, hd1, rfl⟩ := map_eq_some_iff.mp hrun
    obtain ⟨d0, hd0, hkept⟩ := (tryExecReadyPieces_kept hs1).find_rev hd1
    rw [put, Server.setDtxns, Dict.find_set_self] at hd0
    refine ⟨tryExecReadyPieces_orders hs1, d1, hd1, iff_of_true ?_ (.inr fun _ _ h => by cases h)⟩
    rw [hkept.parents, ← some.inj hd0]
    exact received_parents
  · rw [received_executed] at hex
    refine ⟨rfl, ?_⟩
    have hset : ((commitReceived site t s).dtxns.set t (setCommitRequested (received site t s))).find t
        = some (setCommitRequested (received site t s)) := Dict.find_set_self ..
    have hpar : (setCommitRequested (received site t s)).parents = (recordOf t s).parents :=
      received_parents
    simp only [commitWithGraph, find_aggregate, hset, hex, Bool.false_eq_true, false_or]
    cases hg : g.find t with
    | none =>
      refine ⟨_, rfl, iff_of_true hpar fun g' rhs hg' hrhs => ?_⟩
      rw [← some.inj hg', hg] at hrhs
      cases hrhs
    | some rhs =>
      refine ⟨_, rfl, ?_⟩
      rw [← hpar, getD_some, aggregate_parents_iff, keepsParents_received]
      constructor
      · intro hk g' rhs' hg' hrhs'
        rw [← some.inj hg', hg] at hrhs'
        rw [← some.inj hrhs']
        exact hk
      · exact fun hk => hk g rhs rfl hg

/-- The last order handed over for `t`. -/
def lastOrder (t : ℕ) (s : Server) : Option Order := (s.orders.filter fun o => o.txn = t).getLast?

theorem lastOrder_transferOrder (hl : site.leader = true) (d : RccDTxn) {orders : List Order}
    (h : s.orders = orders ++ transferOrder site t d) :
    ∃ o, lastOrder t s = some o ∧ o.parents = d.parents.elems := by
  rw [lastOrder, h, transferOrder, if_pos hl, filter_append]
  refine ⟨⟨t, d.parents.elems, d.rootType, (touchShards site d).allTouchedShards⟩, ?_, rfl⟩
  rw [filter_cons_of_pos (by simp), filter_nil, getLast?_concat]

/-- The last order a leader has handed over for `t` when the commit message is processed lists the
    parents `t` then has, exactly if `t` was executed already or the message does not change them. -/
theorem lastOrder_parents_iff (hl : site.leader = true)
    (h : onCommit site clock layout t graph s = some s') :
    (∃ o d', lastOrder t s' = some o ∧ s'.dtxns.find t = some d' ∧ o.parents = d'.parents.elems) ↔
      (recordOf t s).executed = true ∨
        ∀ g rhs, graph = some g → g.find t = some rhs → KeepsParents (recordOf t s) rhs := by
  obtain ⟨r, hr, h⟩ := bind_eq_some_iff.mp h
  obtain ⟨horders, d1, hd1, hiff⟩ := takeCommit_parents hr
  have hframe : SameParents r.1.dtxns s'.dtxns ∧ s'.orders = r.1.orders := by
    split at h
    · exact checkWaitlist_frame h
    · obtain rfl := some.inj h
      exact ⟨SameParents.refl _, rfl⟩
  obtain ⟨d2, hd2, hpar⟩ := hframe.1.find hd1
  obtain ⟨o, ho, hoparents⟩ := lastOrder_transferOrder hl _ (hframe.2.trans horders)
  rw [← hiff, ← hpar]
  have helems : o.parents = d2.parents.elems ↔ d2.parents = (recordOf t s).parents := by
    rw [hoparents]
    exact ⟨fun heq => ext fun p => by rw [← mem_elems, ← heq]; rfl,
      fun heq => by rw [heq]; rfl⟩
  rw [← helems]
  constructor
  · rintro ⟨o', d', ho', hd', heq⟩
    rw [← some.inj (ho'.symm.trans ho), ← some.inj (hd'.symm.trans hd2)]
    exact heq
  · exact fun heq => ⟨o, d2, ho, hd2, heq⟩

def leaderSite : Site := { parId := 0, leader := true, handler := fun _ _ _ => .done {} }

/-- A leader at which transaction 1 has been pre-accepted with transaction 2 as its parent. -/
def leaderServer : Server :=
  { dtxns := ⟨[(1, { status := txnPac, partition := {0}, parents := {2}, involveFlag := .involved
                     fullyDispatched := true })]⟩ }

/-- The graph of a commit message for transaction 1. -/
def commitGraph (parents : OrdSet ℕ) : Graph :=
  ⟨[(1, { status := txnCmt, partition := {0}, parents := parents })]⟩

theorem lastOrder_parents_iff_leader : ∃ s',
    onCommit leaderSite (fun _ _ => 0) [1] 1 (some (commitGraph {2})) leaderServer = some s' ∧
    ∃ o d', lastOrder 1 s' = some o ∧ s'.dtxns.find 1 = some d' ∧ o.parents = d'.parents.elems := by
  have hsome : (onCommit leaderSite (fun _ _ => 0) [1] 1 (some (commitGraph {2}))
      leaderServer).isSome = true := by decide
  obtain ⟨s', hs'⟩ := isSome_iff_exists.mp hsome
  refine ⟨s', hs', (lastOrder_parents_iff rfl hs').mpr (.inr fun g rhs hg hrhs => ?_)⟩
  obtain rfl := some.inj hg
  obtain rfl := some.inj hrhs
  unfold KeepsParents
  decide

/-- The message adds the parent 3, and the order does not have it. -/
theorem lastOrder_lacks_parent :
    (onCommit leaderSite (fun _ _ => 0) [1] 1 (some (commitGraph {2, 3})) leaderServer).map (fun s =>
      ((lastOrder 1 s).map Order.parents, (s.dtxns.find 1).map fun d => d.parents.elems)) =
      some (some [2], some [2, 3]) := by
  decide

end Commit

end Fiss.Brq
