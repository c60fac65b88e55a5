import Fiss.Rcc.Report
import Fiss.Rcc.Sched

/-! The message handlers of a server: pre-accept, accept, the values of other partitions, and commit.

    A handler that ends in a walk over the waitlist is given in two parts, what it does to the
    transaction itself and the walk; `Event` takes these parts, with single looks, as the steps of a
    run. The replies, and of an order the touched columns and the time, are left out. -/

namespace Fiss.Brq
open Fiss.Rcc Option

variable (site : Site) (t : ℕ) (d : RccDTxn) (s : Server)

/-- The record of `t` as `GetOrCreateDTxn` returns it. -/
def fetch : RccDTxn :=
  let d := (s.dtxns.find t).getD {}
  { d with partition := d.partition.insert site.parId }

def put : Server := s.setDtxns (s.dtxns.set t d)

/-! ### Pre-accept -/

/-- The pieces of a pre-accept, appended. -/
def pushPieces (cmds : List SimpleCommand) (d : RccDTxn) : RccDTxn :=
  { d with dreqs := d.dreqs ++ cmds, nLocalPieces := d.nLocalPieces + cmds.length }

/-- The record a pre-accept starts with. -/
def preAccepted (rootType : ℕ) (s : Server) : RccDTxn :=
  { ({ fetch site t s with rootType := rootType } : RccDTxn).updateStatus txnPac with
    involveFlag := .involved }

/-- What a pre-accept does to the pieces: a transaction that is not committed is dispatched, once;
    a committed one takes the pieces if it has none. -/
def takePieces (cmds : List SimpleCommand) (w : Work) : Option Work :=
  if w.dtxn.status < txnCmt then
    if w.dtxn.phase = .start then
      Work.dispatchExec site t ⟨pushPieces cmds (w.dtxn.setPhase .dispatch), w.store⟩
    else some w
  else some (if w.dtxn.dreqs = [] then ⟨pushPieces cmds w.dtxn, w.store⟩ else w)

def setFullyDispatched : RccDTxn := { d with fullyDispatched := true }

/-- `OnPreAcceptWoGraph`: the server after it and the dependency report, none for `REJECT`. -/
def onPreAcceptWoGraph (cmds : List SimpleCommand) (s : Server) : Option (Server × Option Graph) :=
  cmds.head?.bind fun first =>
    let d := preAccepted site t first.rootType s
    if 0 < d.maxSeenBallot then some (put t d s, none)
    else
      (takePieces site t cmds ⟨d, s.store⟩).bind fun w =>
        -- `verify(!tinfo.fully_dispatched)`
        if w.dtxn.fullyDispatched then none
        else
          (minItfrGraph (s.dtxns.set t (setFullyDispatched w.dtxn)) t false).map fun r =>
            ({ s with
              dtxns := r.dtxns
              store := w.store
              waitlist := if txnCmt ≤ w.dtxn.status then insert t s.waitlist else s.waitlist },
              some r.graph)

section PreAccept

variable {site : Site} {t : ℕ} {cmds : List SimpleCommand} {w w' : Work} {s : Server}
  {r : Server × Option Graph}

theorem takePieces_cases (h : takePieces site t cmds w = some w') : (w.dtxn.phase = .start ∧
      Work.dispatchExec site t ⟨pushPieces cmds (w.dtxn.setPhase .dispatch), w.store⟩ = some w') ∨
    (txnCmt ≤ w.dtxn.status ∧ w.dtxn.dreqs = [] ∧ w' = ⟨pushPieces cmds w.dtxn, w.store⟩) ∨
    w' = w := by
  rw [takePieces] at h
  split at h
  · split at h
    · next hph => exact .inl ⟨hph, h⟩
    · exact .inr (.inr (some.inj h).symm)
  · next hcmt =>
    split at h
    · next hno => exact .inr (.inl ⟨Nat.not_lt.mp hcmt, hno, (some.inj h).symm⟩)
    · exact .inr (.inr (some.inj h).symm)

theorem onPreAcceptWoGraph_cases (h : onPreAcceptWoGraph site t cmds s = some r) :
    ∃ first, cmds.head? = some first ∧ ((0 < (preAccepted site t first.rootType s).maxSeenBallot ∧
        r = (put t (preAccepted site t first.rootType s) s, none)) ∨
      ∃ w report, takePieces site t cmds ⟨preAccepted site t first.rootType s, s.store⟩ = some w ∧
        minItfrGraph (s.dtxns.set t (setFullyDispatched w.dtxn)) t false = some report ∧
        r.1.dtxns = report.dtxns ∧ r.1.store = w.store) := by
  obtain ⟨first, hfirst, h⟩ := bind_eq_some_iff.mp h
  refine ⟨first, hfirst, ?_⟩
  simp only at h
  split at h
  · next hballot => exact .inl ⟨hballot, (some.inj h).symm⟩
  · obtain ⟨w, hw, h⟩ := bind_eq_some_iff.mp h
    split at h
    · cases h
    · obtain ⟨report, hreport, rfl⟩ := map_eq_some_iff.mp h
      exact .inr ⟨w, report, hw, hreport, rfl, rfl⟩

end PreAccept

/-! ### Orders -/

/-- The shards a leader notes before it hands an order over. -/
def touchShards : RccDTxn :=
  if site.leader then { d with allTouchedShards := d.allTouchedShards ++ d.partition.elems } else d

/-- The order that a leader hands to `TransferOrder`. -/
def transferOrder : List Order :=
  if site.leader then [⟨t, d.parents.elems, d.rootType, (touchShards site d).allTouchedShards⟩]
  else []

/-! ### Accept -/

def setBallot (ballot : ℕ) (d : RccDTxn) : RccDTxn :=
  { d with maxSeenBallot := ballot, maxAcceptedBallot := ballot }

/-- `OnAccept`: the order is handed over before the graph is taken in. -/
def onAccept (ballot : ℕ) (graph : Graph) (s : Server) : Option Server :=
  let d := fetch site t s
  -- `verify(0)` on a smaller ballot
  if ballot < d.maxSeenBallot then none
  else
    let d := setBallot ballot d
    some { s with
      dtxns := aggregate createV (s.dtxns.set t (touchShards site d)) graph
      orders := s.orders ++ transferOrder site t d }

/-! ### Values of other partitions -/

def setDreqs (dreqs : List SimpleCommand) (d : RccDTxn) : RccDTxn := { d with dreqs := dreqs }

/-- `OnSendOutput` up to the walk over the waitlist, and whether there is one. -/
def takeOutput (values : Dict ℕ Value) (s : Server) : Server × Bool :=
  let d := fetch site t s
  if d.executed then (put t d s, false)
  else
    let merged := mergeCheckReadyPieces values d.dreqs
    let s := put t (setDreqs merged.1 d) s
    (if merged.2 then { s with waitlist := insert t s.waitlist } else s, merged.2)

def onSendOutput (clock : ℕ → ℕ → ℕ) (layout : List ℕ) (t : ℕ) (values : Dict ℕ Value) (s : Server)
    : Option Server :=
  let r := takeOutput site t values s
  if r.2 then r.1.checkWaitlist site clock layout else some r.1

/-! ### Commit -/

/-- The record when the commit message has come: the reply is kept, and a leader's order is out. -/
def commitReceived : Server :=
  { put t (touchShards site { fetch site t s with outputReply := true }) s with
    orders := s.orders ++ transferOrder site t (fetch site t s) }

def setCommitRequested : RccDTxn := { d with commitRequestReceived := true }

/-- The quick path of `OnCommit`, without a graph. -/
def commitWithoutGraph : Option (Server × Bool) :=
  -- `verify(dtxn->fully_dispatched)`
  if d.fullyDispatched then
    ((put t ((setCommitRequested d).unionStatus txnDcd) s).tryExecReadyPieces site t false).bind
      fun s => (s.dtxns.find t).map fun d =>
        ({ s with waitlist := s.waitlist ∪ d.toChecks.elems.toFinset }, d.toChecks.elems ≠ [])
  else none

/-- The path of `OnCommit` with a graph: it is taken in and all its vertices are to be looked at. -/
def commitWithGraph (graph : Graph) (s : Server) : Server × Bool :=
  ({ s with
    dtxns := aggregate createV (s.dtxns.set t (setCommitRequested d)) graph
    waitlist := s.waitlist ∪ graph.keys.toFinset }, graph.keys ≠ [])

/-- `OnCommit` up to the walk over the waitlist, and whether there is one. -/
def takeCommit (graph : Option Graph) (s : Server) : Option (Server × Bool) :=
  -- `verify(dtxn->ptr_output_repy_ == nullptr)`
  if (fetch site t s).outputReply then none
  else
    let s := commitReceived site t s
    (s.dtxns.find t).bind fun d =>
      if d.executed then some (s, false)
      -- `verify(0)` on an aborted transaction
      else if d.isAborted then none
      else graph.elim (commitWithoutGraph site t d s) fun graph => some (commitWithGraph t d graph s)

def onCommit (clock : ℕ → ℕ → ℕ) (layout : List ℕ) (t : ℕ) (graph : Option Graph) (s : Server) :
    Option Server :=
  (takeCommit site t graph s).bind fun r =>
    if r.2 then r.1.checkWaitlist site clock layout else some r.1

section Commit

variable {site : Site} {t : ℕ} {graph : Option Graph} {s : Server} {r : Server × Bool}

/-- The record of `t` when the commit message has come. -/
def received (site : Site) (t : ℕ) (s : Server) : RccDTxn :=
  touchShards site { fetch site t s with outputReply := true }

theorem touchShards_eq (site : Site) (d : RccDTxn) :
    ∃ shards, touchShards site d = { d with allTouchedShards := shards } := by
  unfold touchShards
  split
  · exact ⟨_, rfl⟩
  · exact ⟨d.allTouchedShards, rfl⟩

theorem touchShards_parents (site : Site) (d : RccDTxn) :
    (touchShards site d).parents = d.parents := by
  obtain ⟨shards, h⟩ := touchShards_eq site d
  rw [h]

theorem touchShards_executed (site : Site) (d : RccDTxn) :
    (touchShards site d).executed = d.executed := by
  obtain ⟨shards, h⟩ := touchShards_eq site d
  rw [h]

theorem commitReceived_find : (commitReceived site t s).dtxns.find t = some (received site t s) :=
  Dict.find_set_self ..

theorem takeCommit_cases (h : takeCommit site t graph s = some r) :
    (fetch site t s).outputReply = false ∧
    (((received site t s).executed = true ∧ r = (commitReceived site t s, false)) ∨
    ((received site t s).executed = false ∧ ((graph = none ∧
        commitWithoutGraph site t (received site t s) (commitReceived site t s) = some r) ∨
      ∃ g, graph = some g ∧
        r = commitWithGraph t (received site t s) g (commitReceived site t s)))) := by
  rw [takeCommit] at h
  split at h
  · cases h
  · next hreply =>
    refine ⟨eq_false_of_ne_true hreply, ?_⟩
    simp only [commitReceived_find, bind_some] at h
    split at h
    · next hex => exact .inl ⟨hex, (some.inj h).symm⟩
    · next hex =>
      split at h
      · cases h
      · refine .inr ⟨eq_false_of_ne_true hex, ?_⟩
        cases graph with
        | none => exact .inl ⟨rfl, h⟩
        | some g => exact .inr ⟨g, rfl, (some.inj h).symm⟩

/-- The record of `t` before a message, a new one if there is none. -/
def recordOf (t : ℕ) (s : Server) : RccDTxn := (s.dtxns.find t).getD {}

end Commit

/-! ### Runs of a server -/

inductive Event where
  | preAccept (t : ℕ) (cmds : List SimpleCommand)
  | accept (t ballot : ℕ) (graph : Graph)
  | output (t : ℕ) (values : Dict ℕ Value)
  | commit (t : ℕ) (graph : Option Graph)
  | check (e : Check)

/-- One step of a server. -/
def step : Event → Option Server
  | .preAccept t cmds => (onPreAcceptWoGraph site t cmds s).map Prod.fst
  | .accept t ballot graph => onAccept site t ballot graph s
  | .output t values => some (takeOutput site t values s).1
  | .commit t graph => (takeCommit site t graph s).map Prod.fst
  | .check e => s.checkStep site e

section Runs

variable {site : Site} {clock : ℕ → ℕ → ℕ} {layout : List ℕ} {t : ℕ} {s s' : Server}

theorem run_checks {es : List Check} (h : run (Server.checkStep site) s es = some s') :
    run (step site) s (es.map Event.check) = some s' := by
  induction es generalizing s with
  | nil => exact h
  | cons e es ih =>
    obtain ⟨s1, h1, h⟩ := run_cons.mp h
    exact run_cons.mpr ⟨s1, h1, ih h⟩

theorem run_walk {b : Bool} {s1 : Server}
    (h : (if b then s1.checkWaitlist site clock layout else some s1) = some s') :
    ∃ es : List Check, run (step site) s1 (es.map Event.check) = some s' := by
  split at h
  · obtain ⟨es, hes⟩ := checkWaitlist_run h
    exact ⟨es, run_checks hes⟩
  · exact ⟨[], h⟩

theorem onSendOutput_run {values : Dict ℕ Value}
    (h : onSendOutput site clock layout t values s = some s') :
    ∃ es : List Check, run (step site) s (.output t values :: es.map Event.check) = some s' := by
  obtain ⟨es, hes⟩ := run_walk h
  exact ⟨es, run_cons.mpr ⟨_, rfl, hes⟩⟩

theorem onCommit_run {graph : Option Graph} (h : onCommit site clock layout t graph s = some s') :
    ∃ es : List Check, run (step site) s (.commit t graph :: es.map Event.check) = some s' := by
  obtain ⟨r, hr, h⟩ := bind_eq_some_iff.mp h
  obtain ⟨es, hes⟩ := run_walk h
  exact ⟨es, run_cons.mpr ⟨r.1, by rw [step, hr]; rfl, hes⟩⟩

end Runs

end Fiss.Brq
