import Fiss.Brq.Once
import Fiss.Brq.Orders

/-! The parents of a committed transaction at one server. A graph that comes with a message may
    report a transaction as committed; all such reports of one transaction name the same parents.
    `AggregateVertex` takes the parents over when the status of the report is above the one it has,
    and a record that `CreateV` has just made for the report has its status already: a transaction
    the server did not know keeps no parents.

    Taking in a graph by itself is a step of its own here (`Action`), next to the handlers. -/

namespace Fiss.Brq
open Fiss.Rcc Option Dict Nat Finset

/-- A step of a server: a handler, or a graph taken in. -/
inductive Action where
  | event (e : Event)
  | aggregate (graph : Graph)

/-- The graph a message brings. -/
def Action.graph : Action → Graph
  | .event (.accept _ _ graph) => graph
  | .event (.commit _ graph) => graph.getD {}
  | .aggregate graph => graph
  | _ => {}

def act (site : Site) (s : Server) : Action → Option Server
  | .event e => step site s e
  | .aggregate graph => some (s.setDtxns (Rcc.aggregate createV s.dtxns graph))

/-- The graph that is taken in: a commit of an executed transaction brings its graph in vain. -/
def takenIn (site : Site) (s : Server) : Action → Graph
  | .event (.commit t graph) => if (fetch site t s).executed then {} else graph.getD {}
  | a => a.graph

theorem takenIn_graph (site : Site) (s : Server) (a : Action) :
    takenIn site s a = {} ∨ takenIn site s a = a.graph := by
  cases a with
  | aggregate graph => exact .inr rfl
  | event e =>
    cases e with
    | commit t graph => exact ite_eq_or_eq _ _ _
    | _ => exact .inr rfl

/-- The transaction whose record a handler fetches before it takes a graph in. -/
def Action.own : Action → Option ℕ
  | .event (.accept t _ _) => some t
  | .event (.commit t _) => some t
  | _ => none

/-- The record that a graph taken in meets. -/
def met (site : Site) (s : Server) (a : Action) (x : ℕ) : Option RccDTxn :=
  if a.own = some x then some (fetch site x s) else s.dtxns.find x

/-- The transactions a graph reports as committed. -/
def reportedBy (graph : Graph) : Finset ℕ :=
  graph.keys.toFinset.filter fun x => (graph.find x).any fun rhs => txnCmt ≤ rhs.status

theorem mem_reportedBy {graph : Graph} {x : ℕ} :
    x ∈ reportedBy graph ↔ ∃ rhs, graph.find x = some rhs ∧ txnCmt ≤ rhs.status := by
  rw [reportedBy, mem_filter, List.mem_toFinset, mem_keys]
  cases graph.find x with
  | none | some rhs => simp

/-! ### Records of committed transactions -/

/-- The status has not fallen and the parents are the same. -/
def Rises (d d' : RccDTxn) : Prop := d.status ≤ d'.status ∧ d'.parents = d.parents

section Records

variable {d d' d'' : RccDTxn} {rhs : Vertex} {g g' g'' : Dtxns}

theorem Rises.trans (h : Rises d d') (h' : Rises d' d'') : Rises d d'' :=
  ⟨h.1.trans h'.1, h'.2.trans h.2⟩

theorem aggregate_committed (hrhs : txnCmt ≤ rhs.status) : txnCmt ≤ (d.aggregate rhs).status ∧
      (d.aggregate rhs).parents = if d.status < rhs.status then rhs.parents else d.parents := by
  have hstd : ¬ rhs.status ≤ txnStd := by unfold txnCmt txnStd at *; omega
  unfold RccDTxn.aggregate
  rw [if_neg fun h => hstd h.2.2, if_pos hrhs]
  split
  · exact ⟨hrhs.trans right_le_or, rfl⟩
  · exact ⟨hrhs.trans right_le_or, rfl⟩

theorem aggregate_before (hd : txnCmt ≤ d.status) (hrhs : rhs.status < txnCmt) :
    Rises d (d.aggregate rhs) := by
  have hstd : ¬ d.status ≤ txnStd := by unfold txnCmt txnStd at *; omega
  unfold RccDTxn.aggregate
  rw [if_neg fun h => hstd h.2.1, if_neg (not_le.mpr hrhs),
    if_neg fun h => absurd (hd.trans h.2) (not_le.mpr hrhs)]
  exact ⟨left_le_or, rfl⟩

/-- Records that rise, one by one. -/
def AllRise (g g' : Dtxns) : Prop := Dict.Rel (fun _ => Rises) g g'

theorem AllRise.trans (h : AllRise g g') (h' : AllRise g' g'') : AllRise g g'' :=
  Dict.Rel.trans h h' fun _ _ _ _ hab hbc => hab.trans hbc

theorem rises_of_kept {N : ℕ → Prop} (h : Dict.Rel (fun x => Kept (N x)) g g') : AllRise g g' :=
  h.mono fun _ _ _ hd => ⟨hd.status.ge, hd.parents⟩

theorem rises_of_looked {N : ℕ → Prop} (h : Looked N g g') : AllRise g g' :=
  rises_of_kept (Dict.Rel.mono h fun _ _ _ hd => hd.toKept)

theorem findSccPred_rises {v : ℕ} {scc : List ℕ} (h : findSccPred g v = some (scc, g')) :
    AllRise g g' :=
  (findSccPred_rel h).mono fun _ _ _ hd => by rcases hd with rfl | rfl <;> exact ⟨le_rfl, rfl⟩

theorem decideScc_rises (scc : List ℕ) (g : Dtxns) : AllRise g (decideScc scc g) :=
  (decideScc_rel scc g).mono fun _ _ _ hd => by
    rcases hd with rfl | ⟨-, rfl⟩
    · exact ⟨le_rfl, rfl⟩
    · exact ⟨left_le_or, rfl⟩

end Records

/-! ### What each handler does to them -/

/-- A committed record, whichever it is, rises. -/
def CommittedRise (g g' : Dtxns) : Prop :=
  ∀ x d, g.find x = some d → txnCmt ≤ d.status → ∃ d', g'.find x = some d' ∧ Rises d d'

section Handlers

variable {site : Site} {s s' : Server} {t : ℕ} {g g' g'' : Dtxns} {d : RccDTxn}

theorem AllRise.committed (h : AllRise g g') : CommittedRise g g' := fun _ _ hd _ => h.find hd

theorem CommittedRise.trans (h : CommittedRise g g') (h' : CommittedRise g' g'') :
    CommittedRise g g'' := fun x d hd hcmt => by
  obtain ⟨d1, hd1, hrise⟩ := h x d hd hcmt
  obtain ⟨d2, hd2, hrise'⟩ := h' x d1 hd1 (hcmt.trans hrise.1)
  exact ⟨d2, hd2, hrise.trans hrise'⟩

theorem committedRise_set (h : ∀ d', g.find t = some d' → txnCmt ≤ d'.status → Rises d' d) :
    CommittedRise g (g.set t d) := fun x d' hd' hcmt => by
  rcases eq_or_ne x t with rfl | hx
  · exact ⟨d, find_set_self .., h d' hd' hcmt⟩
  · exact ⟨d', by rw [find_set_ne _ hx, hd'], le_rfl, rfl⟩

theorem committedRise_put (h : txnCmt ≤ (recordOf t s).status → Rises (recordOf t s) d) :
    CommittedRise s.dtxns (s.dtxns.set t d) :=
  committedRise_set fun d' hd' => by rwa [recordOf, hd', getD_some] at h

theorem checkStep_rises {e : Check} (h : s.checkStep site e = some s') :
    AllRise s.dtxns s'.dtxns := by
  obtain ⟨r, s1, hlook, hexec, -, hleft⟩ := checkEntry_cases h
  have hlooked : AllRise s.dtxns r.2.dtxns := by
    rcases lookAt_cases hlook with ⟨-, hr⟩ | ⟨g1, scc, g2, fns, h1, hf, hfns, hr, -⟩
    · exact rises_of_looked hr
    · exact (((rises_of_looked h1).trans (findSccPred_rises hf)).trans (decideScc_rises scc g2)).trans
        ((rises_of_looked (allAncFns_looked hfns)).trans (rises_of_looked hr))
  have hexecuted : AllRise r.2.dtxns s1.dtxns := by
    rcases hexec with ⟨-, rfl⟩ | ⟨scc, -, hrun⟩
    · exact rel_refl (fun _ _ => ⟨le_rfl, rfl⟩) _
    · exact rises_of_kept (executeScc_kept hrun)
  exact (hlooked.trans hexecuted).trans (rises_of_looked hleft)

theorem preAccepted_rises (site : Site) (t rootType : ℕ) (s : Server) :
    Rises (recordOf t s) (preAccepted site t rootType s) := by
  unfold preAccepted RccDTxn.updateStatus
  split
  · next h => exact ⟨h.le, rfl⟩
  · exact ⟨le_rfl, rfl⟩

theorem takePieces_rises {cmds : List SimpleCommand} {w w' : Work} (h : ¬ w.dtxn.status < txnCmt)
    (hw : takePieces site t cmds w = some w') : Rises w.dtxn (setFullyDispatched w'.dtxn) := by
  rw [takePieces, if_neg h] at hw
  obtain rfl := some.inj hw
  split
  · exact ⟨le_rfl, rfl⟩
  · exact ⟨le_rfl, rfl⟩

theorem preAccept_rises {cmds : List SimpleCommand}
    (h : step site s (.preAccept t cmds) = some s') : CommittedRise s.dtxns s'.dtxns := by
  obtain ⟨r, hr, rfl⟩ := map_eq_some_iff.mp h
  obtain ⟨first, -, ⟨-, rfl⟩ | ⟨w, report, hw, hreport, hdtxns, -⟩⟩ := onPreAcceptWoGraph_cases hr
  · exact committedRise_put fun _ => preAccepted_rises site t first.rootType s
  · have hbits : AllRise (s.dtxns.set t (setFullyDispatched w.dtxn)) report.dtxns :=
      (minItfrGraph_bits hreport).mono fun _ _ _ hd => by
        obtain ⟨bits, rfl⟩ := hd
        exact ⟨le_rfl, rfl⟩
    rw [hdtxns]
    refine (committedRise_put fun hcmt => ?_).trans hbits.committed
    have hpre := preAccepted_rises site t first.rootType s
    have hlate : ¬ (preAccepted site t first.rootType s).status < txnCmt :=
      not_lt.mpr (hcmt.trans hpre.1)
    exact hpre.trans (takePieces_rises hlate hw)

theorem output_rises (values : Dict ℕ Value) :
    CommittedRise s.dtxns (takeOutput site t values s).1.dtxns := by
  rw [takeOutput]
  simp only
  split
  · exact committedRise_put fun _ => ⟨le_rfl, rfl⟩
  · have hput : CommittedRise s.dtxns (s.dtxns.set t
        (setDreqs (mergeCheckReadyPieces values (fetch site t s).dreqs).1 (fetch site t s))) :=
      committedRise_put fun _ => ⟨le_rfl, rfl⟩
    split <;> exact hput

theorem received_rises (site : Site) (t : ℕ) (s : Server) :
    Rises (recordOf t s) (received site t s) := by
  obtain ⟨shards, hd⟩ := touchShards_eq site { fetch site t s with outputReply := true }
  rw [received, hd]
  exact ⟨le_rfl, rfl⟩

theorem takenIn_commit {graph : Option Graph} (h : (received site t s).executed = false) :
    takenIn site s (.event (.commit t graph)) = graph.getD {} := by
  rw [received_executed] at h
  exact if_neg (ne_true_of_eq_false h)

theorem commit_rises {graph : Option Graph} (h : step site s (.commit t graph) = some s')
    (hno : takenIn site s (.event (.commit t graph)) = {}) : CommittedRise s.dtxns s'.dtxns := by
  obtain ⟨r, hr, rfl⟩ := map_eq_some_iff.mp h
  have hcame : CommittedRise s.dtxns (commitReceived site t s).dtxns :=
    committedRise_put fun _ => received_rises site t s
  obtain ⟨-, ⟨-, rfl⟩ | ⟨hex, ⟨rfl, hrun⟩ | ⟨g, rfl, rfl⟩⟩⟩ := takeCommit_cases hr
  · exact hcame
  · obtain ⟨-, hrun⟩ := ite_none_right_eq_some.mp hrun
    obtain ⟨s1, hs1, hrun⟩ := bind_eq_some_iff.mp hrun
    obtain ⟨d1, -, rfl⟩ := map_eq_some_iff.mp hrun
    have hput : CommittedRise (commitReceived site t s).dtxns (put t
        ((setCommitRequested (received site t s)).unionStatus txnDcd)
        (commitReceived site t s)).dtxns :=
      committedRise_set fun d' hd' _ => by
        rw [commitReceived_find] at hd'
        rw [← some.inj hd']
        exact ⟨left_le_or, rfl⟩
    exact (hcame.trans hput).trans (rises_of_kept (tryExecReadyPieces_kept hs1)).committed
  · obtain rfl : g = {} := (takenIn_commit hex).symm.trans hno
    refine hcame.trans (committedRise_set fun d' hd' _ => ?_)
    rw [commitReceived_find] at hd'
    rw [← some.inj hd']
    exact ⟨le_rfl, rfl⟩

/-- What aggregation looks at in a record. -/
def view (d : RccDTxn) : ℕ × OrdSet ℕ := (d.status, d.parents)

theorem met_set {a : Action} (hown : a.own = some t) (hd : view d = view (fetch site t s)) (x : ℕ) :
    ((s.dtxns.set t d).find x).map view = (met site s a x).map view := by
  rw [met, hown]
  rcases eq_or_ne x t with rfl | hx
  · rw [find_set_self, if_pos rfl, map_some, map_some, hd]
  · rw [find_set_ne _ hx, if_neg fun h => hx (some.inj h).symm]

theorem act_cases {a : Action} (h : act site s a = some s') :
    (takenIn site s a = {} ∧ CommittedRise s.dtxns s'.dtxns) ∨
    ∃ g, s'.dtxns = Rcc.aggregate createV g (takenIn site s a) ∧
      ∀ x, (g.find x).map view = (met site s a x).map view := by
  cases a with
  | aggregate graph =>
    obtain rfl := some.inj h
    exact .inr ⟨s.dtxns, rfl, fun x => rfl⟩
  | event e =>
    cases e with
    | preAccept t cmds => exact .inl ⟨rfl, preAccept_rises h⟩
    | output t values =>
      obtain rfl := some.inj h
      exact .inl ⟨rfl, output_rises values⟩
    | check e => exact .inl ⟨rfl, (checkStep_rises h).committed⟩
    | accept t ballot graph =>
      simp only [act, step, onAccept] at h
      split at h
      · cases h
      · obtain rfl := some.inj h
        refine .inr ⟨_, rfl, met_set rfl ?_⟩
        obtain ⟨shards, hd⟩ := touchShards_eq site (setBallot ballot (fetch site t s))
        rw [hd]
        rfl
    | commit t graph =>
      rcases Classical.em (takenIn site s (.event (.commit t graph)) = {}) with hno | hno
      · exact .inl ⟨hno, commit_rises h hno⟩
      · obtain ⟨r, hr, rfl⟩ := map_eq_some_iff.mp h
        obtain ⟨-, ⟨hex, -⟩ | ⟨hex, ⟨rfl, -⟩ | ⟨g, rfl, rfl⟩⟩⟩ := takeCommit_cases hr
        · rw [received_executed] at hex
          exact absurd (if_pos hex) hno
        · exact absurd (takenIn_commit hex) hno
        · refine .inr ⟨_, by rw [takenIn_commit hex]; rfl, ?_⟩
          show ∀ x, (((s.dtxns.set t (received site t s)).set t
            (setCommitRequested (received site t s))).find x).map view = _
          rw [set_set]
          refine met_set rfl ?_
          obtain ⟨shards, hd⟩ := touchShards_eq site { fetch site t s with outputReply := true }
          show view (setCommitRequested (touchShards site { fetch site t s with outputReply := true })) = _
          rw [hd]
          rfl

theorem act_committed {a : Action} {x : ℕ} (h : act site s a = some s')
    (hd : s.dtxns.find x = some d) (hcmt : txnCmt ≤ d.status) :
    ∃ d', s'.dtxns.find x = some d' ∧ txnCmt ≤ d'.status ∧ (d'.parents = d.parents ∨
      ∃ rhs, (takenIn site s a).find x = some rhs ∧ txnCmt ≤ rhs.status ∧
        d'.parents = rhs.parents) := by
  rcases act_cases h with ⟨-, hrise⟩ | ⟨g, hg, hview⟩
  · obtain ⟨d', hd', hdd⟩ := hrise x d hd hcmt
    exact ⟨d', hd', hcmt.trans hdd.1, .inl hdd.2⟩
  · have hmet : (met site s a x).map view = some (view d) := by
      rw [met]
      split
      · rw [fetch, hd]
        rfl
      · rw [hd]
        rfl
    obtain ⟨e, he, hed⟩ := map_eq_some_iff.mp ((hview x).trans hmet)
    obtain ⟨hstatus, hparents⟩ : e.status = d.status ∧ e.parents = d.parents := Prod.mk.inj hed
    rw [hg, find_aggregate, he]
    cases hrhs : (takenIn site s a).find x with
    | none => exact ⟨e, rfl, hstatus ▸ hcmt, .inl hparents⟩
    | some rhs =>
      refine ⟨e.aggregate rhs, rfl, ?_⟩
      rcases lt_or_ge rhs.status txnCmt with hbefore | hrep
      · obtain ⟨hle, hpar⟩ := aggregate_before (hstatus ▸ hcmt) hbefore
        exact ⟨(hstatus ▸ hcmt).trans hle, .inl (hpar.trans hparents)⟩
      · obtain ⟨hle, hpar⟩ := aggregate_committed (d := e) hrep
        refine ⟨hle, ?_⟩
        rw [hpar]
        split
        · exact .inr ⟨rhs, rfl, hrep, rfl⟩
        · exact .inl hparents

theorem act_reported {a : Action} {x : ℕ} {rhs : Vertex} (h : act site s a = some s')
    (hrhs : (takenIn site s a).find x = some rhs) (hcmt : txnCmt ≤ rhs.status) :
    ∃ d', s'.dtxns.find x = some d' ∧ txnCmt ≤ d'.status ∧
      d'.parents = (met site s a x).elim ∅ fun d =>
        if d.status < rhs.status then rhs.parents else d.parents := by
  rcases act_cases h with ⟨hno, -⟩ | ⟨g, hg, hview⟩
  · rw [hno] at hrhs
    cases hrhs
  · obtain ⟨hle, hpar⟩ := aggregate_committed (d := (g.find x).getD (createV rhs)) hcmt
    refine ⟨_, by rw [hg]; exact find_aggregate_of_some hrhs, hle, hpar.trans ?_⟩
    have hx := hview x
    cases hmet : met site s a x with
    | none =>
      rw [hmet, map_none, map_eq_none_iff] at hx
      rw [hx]
      -- the new record has the status of the report already
      exact if_neg (lt_irrefl rhs.status)
    | some d =>
      rw [hmet, map_some] at hx
      obtain ⟨e, he, hed⟩ := map_eq_some_iff.mp hx
      obtain ⟨hstatus, hparents⟩ : e.status = d.status ∧ e.parents = d.parents := Prod.mk.inj hed
      rw [he, getD_some, elim_some, hstatus, hparents]

end Handlers

/-! ### Runs -/

/-- Every committed report names the parents that `P` has for its transaction. -/
def SameReports (P : ℕ → OrdSet ℕ) (a : Action) : Prop :=
  ∀ x ∈ a.graph.keys, ∀ rhs ∈ a.graph.find x, txnCmt ≤ rhs.status → rhs.parents = P x

instance (P : ℕ → OrdSet ℕ) (a : Action) : Decidable (SameReports P a) :=
  inferInstanceAs (Decidable (∀ x ∈ a.graph.keys, ∀ rhs ∈ a.graph.find x,
    txnCmt ≤ rhs.status → rhs.parents = P x))

section Runs

variable {P : ℕ → OrdSet ℕ} {site : Site}

/-- One step, with the transactions of which a committed report has been taken in. -/
def report (site : Site) (st : Server × Finset ℕ) (a : { a : Action // SameReports P a }) :
    Option (Server × Finset ℕ) :=
  (act site st.1 a.1).map fun s => (s, st.2 ∪ reportedBy (takenIn site st.1 a.1))

/-- The first committed report of a transaction finds a record below it, or one that has the parents
    already; where it finds none, there are no parents to lose. -/
def InTime (site : Site) (st : Server × Finset ℕ) (a : { a : Action // SameReports P a }) : Prop :=
  ∀ x ∈ (takenIn site st.1 a.1).keys, ∀ rhs ∈ (takenIn site st.1 a.1).find x,
    txnCmt ≤ rhs.status → x ∉ st.2 →
      (met site st.1 a.1 x).elim (P x = ∅) fun d => d.status < rhs.status ∨ d.parents = P x

/-- The transactions reported have a committed record. -/
def Committed (st : Server × Finset ℕ) : Prop :=
  ∀ x ∈ st.2, ∃ d, st.1.dtxns.find x = some d ∧ txnCmt ≤ d.status

/-- The transactions reported have the parents of the report. -/
def Final (P : ℕ → OrdSet ℕ) (st : Server × Finset ℕ) : Prop :=
  ∀ x ∈ st.2, ∃ d, st.1.dtxns.find x = some d ∧ d.parents = P x

variable {st st' : Server × Finset ℕ} {a : { a : Action // SameReports P a }}

theorem reported_parents {x : ℕ} {rhs : Vertex} {s : Server}
    (hrhs : (takenIn site s a.1).find x = some rhs) (hcmt : txnCmt ≤ rhs.status) :
    rhs.parents = P x := by
  have hgraph : a.1.graph.find x = some rhs := by
    rcases takenIn_graph site s a.1 with hnone | hsame
    · rw [hnone] at hrhs
      cases hrhs
    · rw [← hsame]
      exact hrhs
  have hkey : x ∈ a.1.graph.keys := by rw [mem_keys, hgraph, isSome_some]
  exact a.2 x hkey rhs hgraph hcmt

theorem report_committed (h : Committed st) (hx : report site st a = some st') : Committed st' := by
  obtain ⟨s', hs', rfl⟩ := map_eq_some_iff.mp hx
  intro x hmem
  rcases mem_union.mp hmem with hold | hnew
  · obtain ⟨d, hd, hcmt⟩ := h x hold
    obtain ⟨d', hd', hcmt', -⟩ := act_committed hs' hd hcmt
    exact ⟨d', hd', hcmt'⟩
  · obtain ⟨rhs, hrhs, hcmt⟩ := mem_reportedBy.mp hnew
    obtain ⟨d', hd', hcmt', -⟩ := act_reported hs' hrhs hcmt
    exact ⟨d', hd', hcmt'⟩

theorem report_final (hc : Committed st) (h : Final P st) (ht : InTime site st a)
    (hx : report site st a = some st') : Final P st' := by
  obtain ⟨s', hs', rfl⟩ := map_eq_some_iff.mp hx
  intro x hmem
  by_cases hold : x ∈ st.2
  · obtain ⟨d, hd, hcmt⟩ := hc x hold
    obtain ⟨d0, hd0, hparents⟩ := h x hold
    obtain rfl := some.inj (hd.symm.trans hd0)
    obtain ⟨d', hd', -, hkept | ⟨rhs, hrhs, hrep, hnew⟩⟩ := act_committed hs' hd hcmt
    · exact ⟨d', hd', hkept.trans hparents⟩
    · exact ⟨d', hd', hnew.trans (reported_parents hrhs hrep)⟩
  · obtain ⟨rhs, hrhs, hcmt⟩ :=
      mem_reportedBy.mp ((mem_union.mp hmem).resolve_left hold)
    obtain ⟨d', hd', -, hparents⟩ := act_reported hs' hrhs hcmt
    have hkey : x ∈ (takenIn site st.1 a.1).keys := by
      rw [mem_keys, hrhs, isSome_some]
    have hmet := ht x hkey rhs hrhs hcmt hold
    refine ⟨d', hd', hparents.trans ?_⟩
    cases hm : met site st.1 a.1 x with
    | none =>
      rw [hm] at hmet
      exact hmet.symm
    | some d =>
      rw [hm] at hmet
      rw [elim_some]
      split
      · exact reported_parents hrhs hcmt
      · next hnot => exact hmet.resolve_left hnot

theorem inTime_of_final (hx : report site st a = some st') (h : Final P st') : InTime site st a := by
  obtain ⟨s', hs', rfl⟩ := map_eq_some_iff.mp hx
  intro x _ rhs hrhs hcmt _
  obtain ⟨d', hd', -, hparents⟩ := act_reported hs' hrhs hcmt
  obtain ⟨d0, hd0, hright⟩ :=
    h x (mem_union_right _ (mem_reportedBy.mpr ⟨rhs, hrhs, hcmt⟩))
  obtain rfl := some.inj (hd'.symm.trans hd0)
  rw [hright] at hparents
  cases hm : met site st.1 a.1 x with
  | none =>
    rw [hm] at hparents
    exact hparents
  | some d =>
    rw [hm, elim_some] at hparents
    split at hparents
    · next hlt => exact .inl hlt
    · exact .inr hparents.symm

/-- From any state of a server: the transactions reported as committed have the parents of the report
    in every state of a run exactly when each first report comes in time. -/
theorem committed_parents_final_iff {s : Server} {as : List { a : Action // SameReports P a }} :
    Throughout (report site) (Final P) (s, ∅) as ↔ Along (report site) (InTime site) (s, ∅) as := by
  have hnone : Committed (s, ∅) := fun x hx => absurd hx (notMem_empty x)
  constructor
  · exact along_of_throughout (fun _ _ _ hc hx => report_committed hc hx)
      (fun _ _ _ _ hx hfin => inTime_of_final hx hfin) hnone
  · intro h
    have hfin : Final P (s, ∅) := fun x hx => absurd hx (notMem_empty x)
    have hall : Throughout (report site) (fun st => Committed st ∧ Final P st) (s, ∅) as :=
      throughout_of_inv (fun _ _ _ hi ht hx =>
        ⟨report_committed hi.1 hx, report_final hi.1 hi.2 ht hx⟩) ⟨hnone, hfin⟩ h
    exact throughout_mono (fun _ hi => hi.2) hall

end Runs

/-- Transactions 1 and 2 are committed, 2 with the parent 3. -/
def chainGraph : Graph :=
  ⟨[(1, { status := txnCmt, partition := {0}, parents := {2} }),
    (2, { status := txnCmt, partition := {0}, parents := {3} })]⟩

def chainParents : ℕ → OrdSet ℕ
  | 1 => {2}
  | 2 => {3}
  | _ => ∅

/-- The commit of 1 brings the report of 2, which the server does not know: its parents are lost. -/
theorem committed_parents_lost : SameReports chainParents (.event (.commit 1 (some chainGraph))) ∧
    2 ∈ reportedBy chainGraph ∧
    (act writeSite (boot oneCell) (.event (.commit 1 (some chainGraph)))).map (fun s =>
      ((s.dtxns.find 1).map fun d => d.parents, (s.dtxns.find 2).map fun d => d.parents)) =
      some (some {2}, some ∅) := by
  decide

end Fiss.Brq
