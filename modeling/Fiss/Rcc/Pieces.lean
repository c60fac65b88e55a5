import Fiss.Rcc.Access
import Fiss.Schemes.Reach
import Fiss.Schemes.Runs

/-! The pieces of one transaction at one server: values are handed to waiting pieces
    (`MergeCheckReadyPieces`), the ready ones are executed until none is left
    (`RecursiveExecuteReadyPieces`), once when the transaction is dispatched (`DispatchExec`) and
    again when it commits (`CommitExecAllRdy`). -/

namespace Fiss.Rcc
open List Bool SimpleCommand Runner
open Option (map_eq_some_iff some.inj bind_eq_some_iff map_some)

/-- How a piece is registered. -/
inductive Defer where
  | real
  | no
  | fake
  deriving DecidableEq

def tpccPayment5 : ℕ := 205

/-- A server's site: its partition, whether it leads its shard, and the registered pieces. -/
structure Site where
  parId : ℕ
  leader : Bool := false
  handler : ℕ → ℕ → TxnWorkspace → Prog
  defer : ℕ → ℕ → Defer := fun _ _ => .real
  /-- the one piece that may wait at dispatch is registered as `DF_REAL` -/
  payment5 : ∀ rootType, defer rootType tpccPayment5 = .real := by intro; rfl

/-! ### Handing values over -/

section

variable (site : Site) (id : ℕ) (c : SimpleCommand) (dreqs : List SimpleCommand) (d : RccDTxn)

/-- A value offered to a piece: taken if the piece waits for the variable. -/
def TxnWorkspace.offer (ws : TxnWorkspace) (var : ℕ) (value : Value) : TxnWorkspace :=
  if ws.pieceInputReady = false ∧ var ∈ ws.keys ∧ (ws.inputVarReady.find var).getD false = false then
    { ws with
      values := ws.values.set var value
      inputVarReady := ws.inputVarReady.set var true
      pieceInputReady := (ws.inputVarReady.set var true).entries.all fun e => e.2 }
  else ws

def SimpleCommand.offer (var : ℕ) (value : Value) : SimpleCommand :=
  { c with input := c.input.offer var value }

/-- `MergeCheckReadyPieces`: the pieces, and whether one has become ready. -/
def mergeCheckReadyPieces (output : Dict ℕ Value) (dreqs : List SimpleCommand) :
    List SimpleCommand × Bool :=
  output.entries.foldl (fun s e =>
    (s.1.map fun c => c.offer e.1 e.2,
      s.2 || s.1.any fun c => !c.input.pieceInputReady && (c.offer e.1 e.2).input.pieceInputReady))
    (dreqs, false)

/-- `GetOutputsTargets`: the partitions that wait for one of the variables. -/
def outputsTargets (output : Dict ℕ Value) : OrdSet ℕ :=
  output.entries.foldl (fun s e => ((dreqs.head?.bind fun c =>
    c.waitingVarParMap.find e.1).getD []).foldl OrdSet.insert s) ∅

/-- An output handed to the pieces of a partition, if it waits for one of the variables. -/
def mergeOwn (parId : ℕ) (output : Dict ℕ Value) (dreqs : List SimpleCommand) :
    List SimpleCommand × Bool :=
  if parId ∈ outputsTargets dreqs output then mergeCheckReadyPieces output dreqs
  else (dreqs, false)

/-- The outputs collected for each partition, with one filed for those that wait for it. -/
def collect (output : Dict ℕ Value) (ret : Dict ℕ (Dict ℕ Value)) : Dict ℕ (Dict ℕ Value) :=
  (outputsTargets dreqs output).elems.foldl (fun ret tar => (ret.insert tar {}).modify tar fun m =>
    output.entries.foldl (fun m e => m.insert e.1 e.2) m) ret

/-! ### Executing pieces -/

/-- A transaction with the store it works on. -/
structure Work where
  dtxn : RccDTxn
  store : Store

variable (w : Work)

/-- What the handlers of the transaction see and change. -/
abbrev Work.acc : Acc := ⟨w.store, w.dtxn.parents⟩

/-- The handler of piece `i`, run in the phase of its transaction. -/
def Work.runHandler (i : ℕ) (c : SimpleCommand) : Option (Dict ℕ Value × Work) :=
  (exec ⟨id, w.dtxn.phase, site.leader⟩ (site.handler c.rootType c.type c.input) w.acc).map fun r =>
      (r.1, ⟨w.dtxn.setParents r.2.parents, { r.2.store with
        ran := r.2.store.ran ++
          [⟨id, i, w.dtxn.phase, c.input, r.1, r.2.store.shipped.drop w.store.shipped.length⟩]
        traced := r.2.store.traced ++ (traced ⟨id, w.dtxn.phase, site.leader⟩
          (site.handler c.rootType c.type c.input) w.acc).map (id, ·) }⟩)

/-- `ExecSimpleCmd`: a piece registered as fake is not run. -/
def Work.execSimpleCmd (i : ℕ) (c : SimpleCommand) : Option (Dict ℕ Value × Work) :=
  if site.defer c.rootType c.type = .fake then some ({}, w) else w.runHandler site id i c

/-- The loop state of `RecursiveExecuteReadyPieces`. -/
structure Pass where
  work : Work
  /-- the outputs collected for each partition -/
  ret : Dict ℕ (Dict ℕ Value) := {}
  needCheck : Bool := false

variable (st : Pass)

/-- A piece to be executed now. -/
def SimpleCommand.runnable : Bool :=
  c.input.pieceInputReady && !c.localExecuted

def SimpleCommand.mark : SimpleCommand := { c with localExecuted := true }

def SimpleCommand.clear : SimpleCommand := { c with localExecuted := false }

/-- What follows the execution of piece `i`: it is marked, its output is filed for the partitions
    that wait for it and, if this one does, handed to the other pieces. -/
def Pass.file (i : ℕ) (c : SimpleCommand) (output : Dict ℕ Value) (w : Work) (st : Pass) : Pass :=
  let dreqs := w.dtxn.dreqs.modify i mark
  let merged := mergeOwn site.parId output dreqs
  { work := ⟨{ w.dtxn with
      dreqs := merged.1
      nExecutedPieces := w.dtxn.nExecutedPieces + 1
      output := w.dtxn.output.set c.innId output }, w.store⟩
    ret := collect dreqs output st.ret
    needCheck := st.needCheck || merged.2 }

/-- The loop body at piece `i`. -/
def Pass.piece (i : ℕ) : Option Pass :=
  match st.work.dtxn.dreqs[i]? with
  | none => some st
  | some c =>
    if c.runnable then (st.work.execSimpleCmd site id i c).map fun r => st.file site i c r.1 r.2
    else some st

/-- One pass over the pieces. -/
def Pass.sweep : Option Pass :=
  run (Pass.piece site id) { st with needCheck := false } (range st.work.dtxn.dreqs.length)

/-- Passes until no piece has become ready in one, `n` at most. -/
def passes {σ : Type} (sweep : σ → Option σ) (needCheck : σ → Bool) : ℕ → σ → Option σ
  | 0, st => some st
  | n + 1, st => (sweep st).bind fun st =>
      if needCheck st then passes sweep needCheck n st else some st

def Work.recursiveExecuteReadyPieces : Option Pass :=
  passes (Pass.sweep site id) Pass.needCheck (w.dtxn.dreqs.length + 1) { work := w }

/-- The record as its commit execution begins: no piece counts as executed. -/
def RccDTxn.restart : RccDTxn :=
  { d with
    phase := .commit
    dreqs := d.dreqs.map clear
    nExecutedPieces := 0 }

def RccDTxn.setCommitted : RccDTxn := { d with committed := true }

/-- `CommitExecAllRdy`: the transaction after it, and what is to be sent where. -/
def Work.commitExecAllRdy : Option (Work × Dict ℕ (Dict ℕ Value)) :=
  (Work.recursiveExecuteReadyPieces site id ⟨w.dtxn.restart, w.store⟩).map fun st =>
    (⟨st.work.dtxn.setCommitted, st.work.store⟩, st.ret)

/-- The second loop of `DispatchExec` at piece `i`: a piece that was not executed is run for its
    dependencies, its output dropped. -/
def Work.checkPiece (i : ℕ) : Option Work :=
  match w.dtxn.dreqs[i]? with
  | none => some w
  | some c =>
    if c.localExecuted then some w
    else (w.runHandler site id i c).bind fun r =>
      -- `verify(cmd.type_ == TPCC_PAYMENT_5)`
      if c.type = tpccPayment5 then some r.2 else none

def RccDTxn.setPhase (phase : Phase) : RccDTxn := { d with phase := phase }

def Work.dispatchExec : Option Work :=
  (Work.recursiveExecuteReadyPieces site id ⟨w.dtxn.setPhase .dispatch, w.store⟩).bind
    fun st => run (Work.checkPiece site id) st.work (range st.work.dtxn.dreqs.length)

end

/-! ### What an offer does -/

/-- All values of an output, offered one after the other. -/
def SimpleCommand.offers (c : SimpleCommand) (output : List (ℕ × Value)) : SimpleCommand :=
  output.foldl (fun c e => c.offer e.1 e.2) c

section Offer

variable {c : SimpleCommand} {x : ℕ} {v : Value} {output : List (ℕ × Value)}

theorem offer_eq (c : SimpleCommand) (x : ℕ) (v : Value) :
    c.offer x v = { c with input := (c.offer x v).input } := rfl

theorem offers_eq (c : SimpleCommand) (output : List (ℕ × Value)) :
    c.offers output = { c with input := (c.offers output).input } := by
  induction output generalizing c with
  | nil => rfl
  | cons e output ih =>
    have h := ih (c.offer e.1 e.2)
    rw [offer_eq] at h
    exact h

theorem offer_of_ready (h : c.input.pieceInputReady = true) : c.offer x v = c := by
  rw [offer, TxnWorkspace.offer, if_neg (by simp [h])]

theorem offers_of_ready (h : c.input.pieceInputReady = true) : c.offers output = c := by
  induction output with
  | nil => rfl
  | cons e output ih => rw [offers, foldl_cons, offer_of_ready h]; exact ih

theorem all_of_offer_ready (h : c.input.pieceInputReady = false)
    (h' : (c.offer x v).input.pieceInputReady = true) :
    ((c.offer x v).input.inputVarReady.entries.all fun e => e.2) = true := by
  rw [offer, TxnWorkspace.offer] at h' ⊢
  split at h'
  · next hcond => rw [if_pos hcond]; exact h'
  · exact absurd h' (by simp [h])

theorem keys_offers (c : SimpleCommand) (output : List (ℕ × Value)) :
    (c.offers output).input.keys = c.input.keys := by
  induction output generalizing c with
  | nil => rfl
  | cons e output ih =>
    refine (ih (c.offer e.1 e.2)).trans ?_
    rw [offer, TxnWorkspace.offer]
    split <;> rfl

theorem readied_cons (c : SimpleCommand) (e : ℕ × Value) (output : List (ℕ × Value)) :
    (!c.input.pieceInputReady && (c.offers (e :: output)).input.pieceInputReady) =
      (!c.input.pieceInputReady && (c.offer e.1 e.2).input.pieceInputReady ||
        !(c.offer e.1 e.2).input.pieceInputReady &&
          ((c.offer e.1 e.2).offers output).input.pieceInputReady) := by
  rw [offers, foldl_cons, ← offers]
  cases hc : c.input.pieceInputReady with
  | true => rw [offer_of_ready hc, offers_of_ready hc, hc]; rfl
  | false =>
    cases ho : (c.offer e.1 e.2).input.pieceInputReady with
    | true => rw [offers_of_ready ho, ho]; rfl
    | false => rfl

theorem any_or_any {α : Type} (p q : α → Bool) (l : List α) :
    (l.any p || l.any q) = l.any fun a => p a || q a := by
  induction l with
  | nil => rfl
  | cons a l ih =>
    rw [any_cons, any_cons, any_cons, ← ih]
    cases p a <;> cases q a <;> simp

theorem foldl_offer (output : List (ℕ × Value)) (dreqs : List SimpleCommand) (b : Bool) :
    output.foldl (fun s e => (s.1.map fun c => c.offer e.1 e.2,
        s.2 || s.1.any fun c => !c.input.pieceInputReady && (c.offer e.1 e.2).input.pieceInputReady))
      (dreqs, b) = (dreqs.map fun c => c.offers output, b ||
      dreqs.any fun c => !c.input.pieceInputReady && (c.offers output).input.pieceInputReady) := by
  induction output generalizing dreqs b with
  | nil => simp [offers]
  | cons e output ih =>
    rw [foldl_cons, ih, map_map, Bool.or_assoc, any_map]
    refine Prod.ext rfl (congrArg (b || ·) ?_)
    rw [any_or_any]
    exact congrArg (fun p => dreqs.any p) (funext fun c => (readied_cons c e output).symm)

theorem mergeCheckReadyPieces_eq (output : Dict ℕ Value) (dreqs : List SimpleCommand) :
    mergeCheckReadyPieces output dreqs = (dreqs.map fun c => c.offers output.entries,
      dreqs.any fun c => !c.input.pieceInputReady &&
        (c.offers output.entries).input.pieceInputReady) := by
  rw [mergeCheckReadyPieces, foldl_offer, Bool.false_or]

end Offer

/-! ### What one pass over a piece does -/

section

variable {site : Site} {id i : ℕ} {c : SimpleCommand} {out : Dict ℕ Value} {w w' : Work}
  {st st' : Pass}

/-- The handler of `c` took `w.store.rows` to `rows` and returned `out`. -/
def HandlerRan (site : Site) (id : ℕ) (c : SimpleCommand) (w : Work) (out : Dict ℕ Value)
    (rows : List Row) : Prop :=
  ∃ a : Acc, exec ⟨id, w.dtxn.phase, site.leader⟩ (site.handler c.rootType c.type c.input) w.acc =
    some (out, a) ∧ rows = a.store.rows

/-- The run of a handler is on record, with what it shipped. -/
def OnRecord (id i : ℕ) (c : SimpleCommand) (w w' : Work) (out : Dict ℕ Value) : Prop :=
  ∃ ships, w'.store.ran = w.store.ran ++ [⟨id, i, w.dtxn.phase, c.input, out, ships⟩] ∧
    w'.store.shipped = w.store.shipped ++ ships ∧ (w.dtxn.phase ≠ .commit → ships = [])

theorem runHandler_spec (h : w.runHandler site id i c = some (out, w')) :
    ∃ a : Acc, exec ⟨id, w.dtxn.phase, site.leader⟩ (site.handler c.rootType c.type c.input)
        w.acc = some (out, a) ∧
      w'.dtxn = w.dtxn.setParents a.parents ∧ w'.store.rows = a.store.rows ∧
      OnRecord id i c w w' out := by
  obtain ⟨r, hr, heq⟩ := map_eq_some_iff.mp h
  obtain ⟨rfl, rfl⟩ := Prod.mk.inj heq
  obtain ⟨extra, hextra, hnone⟩ := exec_shipped hr
  refine ⟨r.2, hr, rfl, rfl, extra, ?_, hextra, hnone⟩
  rw [exec_ran hr, hextra, drop_left]

theorem execSimpleCmd_cases (h : w.execSimpleCmd site id i c = some (out, w')) :
    site.defer c.rootType c.type = .fake ∧ out = {} ∧ w' = w ∨
      site.defer c.rootType c.type ≠ .fake ∧ w.runHandler site id i c = some (out, w') := by
  rw [Work.execSimpleCmd] at h
  split at h
  · next hfake =>
    obtain ⟨rfl, rfl⟩ := Prod.mk.inj (some.inj h)
    exact .inl ⟨hfake, rfl, rfl⟩
  · next hfake => exact .inr ⟨hfake, h⟩

theorem execSimpleCmd_dtxn (h : w.execSimpleCmd site id i c = some (out, w')) :
    ∃ parents, w'.dtxn = w.dtxn.setParents parents ∧
      (w.dtxn.phase = .commit → parents = w.dtxn.parents) := by
  rcases execSimpleCmd_cases h with ⟨-, -, rfl⟩ | ⟨-, h⟩
  · exact ⟨_, rfl, fun _ => rfl⟩
  · obtain ⟨a, ha, hd, -, -⟩ := runHandler_spec h
    exact ⟨a.parents, hd, fun hph => exec_commit_parents hph ha⟩

theorem piece_cases (h : st.piece site id i = some st') :
    (st' = st ∧ ∀ c, st.work.dtxn.dreqs[i]? = some c → c.runnable = false) ∨
    ∃ c out w, st.work.dtxn.dreqs[i]? = some c ∧ c.runnable = true ∧
      st.work.execSimpleCmd site id i c = some (out, w) ∧ st' = st.file site i c out w := by
  rw [Pass.piece] at h
  split at h
  · next hc => exact .inl ⟨(some.inj h).symm, fun c h => by cases hc.symm.trans h⟩
  · next c hc =>
    split at h
    · next hrun =>
      obtain ⟨⟨out, w⟩, hexec, heq⟩ := map_eq_some_iff.mp h
      exact .inr ⟨c, out, w, hc, hrun, hexec, heq.symm⟩
    · next hrun =>
      refine .inl ⟨(some.inj h).symm, fun c' hc' => ?_⟩
      rw [← some.inj (hc.symm.trans hc')]
      exact eq_false_of_ne_true hrun

/-- The pieces after piece `i` was executed: it is marked, and all have been offered `o`. -/
def filedAt (dreqs : List SimpleCommand) (i : ℕ) (o : List (ℕ × Value)) : List SimpleCommand :=
  (dreqs.modify i mark).map fun c => c.offers o

theorem getElem_filedAt (dreqs : List SimpleCommand) (i j : ℕ) (o : List (ℕ × Value)) :
    (filedAt dreqs i o)[j]? = (dreqs[j]?).map fun c => (if i = j then c.mark else c).offers o := by
  rw [filedAt, getElem?_map, getElem?_modify]
  cases dreqs[j]? <;> rfl

/-- One of the pieces becomes ready when it is offered `o`. -/
def readies (dreqs : List SimpleCommand) (o : List (ℕ × Value)) : Bool :=
  dreqs.any fun c => !c.input.pieceInputReady && (c.offers o).input.pieceInputReady

/-- What of an output the pieces of a partition are offered. -/
def share (parId : ℕ) (dreqs : List SimpleCommand) (output : Dict ℕ Value) : List (ℕ × Value) :=
  if parId ∈ outputsTargets dreqs output then output.entries else []

theorem share_cases (parId : ℕ) (dreqs : List SimpleCommand) (output : Dict ℕ Value) :
    share parId dreqs output = [] ∨ share parId dreqs output = output.entries := by
  rw [share]
  split
  · exact .inr rfl
  · exact .inl rfl

theorem mergeOwn_eq (parId : ℕ) (output : Dict ℕ Value) (dreqs : List SimpleCommand) :
    mergeOwn parId output dreqs = (dreqs.map fun c => c.offers (share parId dreqs output),
      readies dreqs (share parId dreqs output)) := by
  rw [mergeOwn, share]
  split
  · exact mergeCheckReadyPieces_eq output dreqs
  · simp [offers, readies]

theorem file_merge (site : Site) (i : ℕ) (c : SimpleCommand) (out : Dict ℕ Value) (st : Pass)
    (w : Work) : ∃ o, (o = [] ∨ o = out.entries) ∧
      (st.file site i c out w).work.dtxn.dreqs = filedAt w.dtxn.dreqs i o ∧
      (st.file site i c out w).needCheck =
        (st.needCheck || readies (w.dtxn.dreqs.modify i mark) o) := by
  simp only [Pass.file, mergeOwn_eq, filedAt]
  exact ⟨_, share_cases _ _ _, rfl, rfl⟩

@[simp] theorem file_store : (st.file site i c out w).work.store = w.store := rfl

@[simp] theorem file_nExecutedPieces :
    (st.file site i c out w).work.dtxn.nExecutedPieces = w.dtxn.nExecutedPieces + 1 := rfl

/-- Piece `i`, which is `c`, is executed between `st` and `st'`: it returns `out`, of which `o` is
    offered to all pieces, and `new` goes on record. -/
structure Executes (site : Site) (id i : ℕ) (st st' : Pass) (c : SimpleCommand) (out : Dict ℕ Value)
    (o : List (ℕ × Value)) (new : List Ran) : Prop where
  piece : st.work.dtxn.dreqs[i]? = some c
  ready : c.input.pieceInputReady = true
  first : c.localExecuted = false
  dreqs : st'.work.dtxn.dreqs = filedAt st.work.dtxn.dreqs i o
  offered : o = [] ∨ o = out.entries
  needCheck : st'.needCheck =
    (st.needCheck || readies (st.work.dtxn.dreqs.modify i mark) o)
  count : st'.work.dtxn.nExecutedPieces = st.work.dtxn.nExecutedPieces + 1
  ran : st'.work.store.ran = st.work.store.ran ++ new
  shipped : st'.work.store.shipped = st.work.store.shipped ++ new.flatMap Ran.ships
  handler : (site.defer c.rootType c.type = .fake ∧ out = {} ∧ new = [] ∧
      st'.work.store.rows = st.work.store.rows) ∨
    (site.defer c.rootType c.type ≠ .fake ∧
      (∃ ships, new = [⟨id, i, st.work.dtxn.phase, c.input, out, ships⟩] ∧
        (st.work.dtxn.phase ≠ .commit → ships = [])) ∧
      HandlerRan site id c st.work out st'.work.store.rows)

theorem piece_executes (h : st.piece site id i = some st') :
    (st' = st ∧ ∀ c, st.work.dtxn.dreqs[i]? = some c → c.runnable = false) ∨
    ∃ c out o new, Executes site id i st st' c out o new := by
  rcases piece_cases h with h | ⟨c, out, w, hc, hrun, hexec, rfl⟩
  · exact .inl h
  · obtain ⟨hready, hno⟩ := and_eq_true_iff.mp hrun
    obtain ⟨parents, hd, -⟩ := execSimpleCmd_dtxn hexec
    obtain ⟨o, ho, hdreqs, hcheck⟩ := file_merge site i c out st w
    rw [hd, RccDTxn.setParents_dreqs] at hdreqs hcheck
    have hcount : (st.file site i c out w).work.dtxn.nExecutedPieces =
        st.work.dtxn.nExecutedPieces + 1 := by
      rw [file_nExecutedPieces, hd, RccDTxn.setParents_nExecutedPieces]
    rw [not_eq_true'] at hno
    rcases execSimpleCmd_cases hexec with ⟨hfake, rfl, rfl⟩ | ⟨hfake, hrun'⟩
    · exact .inr ⟨c, {}, o, [], hc, hready, hno, hdreqs, ho, hcheck, hcount,
        (append_nil _).symm, (append_nil _).symm, .inl ⟨hfake, rfl, rfl, rfl⟩⟩
    · obtain ⟨a, ha, -, hrows, ships, hran, hships, hnone⟩ := runHandler_spec hrun'
      exact .inr ⟨c, out, o, _, hc, hready, hno, hdreqs, ho, hcheck, hcount, hran,
        by rw [file_store, hships, flatMap_singleton],
        .inr ⟨hfake, ⟨ships, rfl, hnone⟩, a, ha, hrows⟩⟩

end

/-! ### Invariants of the whole execution -/

theorem passes_inv {σ : Type} {sweep : σ → Option σ} {needCheck : σ → Bool} {P : σ → Prop} {s' : σ}
    (hsweep : ∀ s s', P s → sweep s = some s' → P s') :
    ∀ {n : ℕ} {s : σ}, P s → passes sweep needCheck n s = some s' → P s'
  | 0, s, hs, h => some.inj h ▸ hs
  | n + 1, s, hs, h => by
    obtain ⟨s1, h1, h⟩ := bind_eq_some_iff.mp h
    have hs1 := hsweep s s1 hs h1
    split at h
    · exact passes_inv hsweep hs1 h
    · exact some.inj h ▸ hs1

theorem recursive_inv {site : Site} {id : ℕ} {st' : Pass} {w : Work} {I : Work → Prop}
    (hpiece : ∀ st i st', I st.work → Pass.piece site id st i = some st' → I st'.work) (hw : I w)
    (h : w.recursiveExecuteReadyPieces site id = some st') : I st'.work :=
  passes_inv (P := fun st : Pass => I st.work) (fun st _ hst h => run_inv
    (P := fun st : Pass => I st.work) (s := { st with needCheck := false }) hpiece hst h) hw h

/-! ### The passes come to an end -/

variable {c : SimpleCommand}

section Settled

variable {site : Site} {id i : ℕ} {st st' : Pass} {w : Work} {o : List (ℕ × Value)}

theorem length_filedAt (dreqs : List SimpleCommand) (i : ℕ) (o : List (ℕ × Value)) :
    (filedAt dreqs i o).length = dreqs.length := by
  rw [filedAt, length_map, length_modify]

theorem localExecuted_offers (c : SimpleCommand) (o : List (ℕ × Value)) :
    (c.offers o).localExecuted = c.localExecuted := by rw [offers_eq]

theorem innId_offers (c : SimpleCommand) (o : List (ℕ × Value)) : (c.offers o).innId = c.innId := by
  rw [offers_eq]

theorem runnable_offers (hc : c.runnable = false)
    (ho : (!c.input.pieceInputReady && (c.offers o).input.pieceInputReady) = false) :
    (c.offers o).runnable = false := by
  rw [runnable, localExecuted_offers]
  rw [runnable] at hc
  cases hr : c.input.pieceInputReady with
  | true =>
    rw [offers_of_ready hr]
    exact hc
  | false =>
    rw [hr, Bool.not_false, Bool.true_and] at ho
    rw [ho, Bool.false_and]

theorem filedAt_settled {P : ℕ → Bool} {dreqs : List SimpleCommand} {n : ℕ}
    (hbefore : ∀ j < n, ∀ c, dreqs[j]? = some c → (c.runnable && P c.innId) = false)
    (hno : readies (dreqs.modify n mark) o = false) :
    ∀ j < n + 1, ∀ c, (filedAt dreqs n o)[j]? = some c → (c.runnable && P c.innId) = false := by
  intro j hj c' hc'
  rw [getElem_filedAt] at hc'
  obtain ⟨c, hc, rfl⟩ := map_eq_some_iff.mp hc'
  rcases eq_or_ne n j with rfl | hnj
  · rw [if_pos rfl, runnable, localExecuted_offers]
    simp [mark]
  · rw [if_neg hnj, innId_offers]
    have hmem : c ∈ dreqs.modify n mark :=
      mem_of_getElem? (i := j) (by rw [getElem?_modify, hc]; simp [hnj])
    have hkept := eq_false_of_ne_true (any_eq_false.mp hno c hmem)
    rcases and_eq_false_iff.mp (hbefore j (by omega) c hc) with hrun | hP
    · rw [runnable_offers hrun hkept, Bool.false_and]
    · rw [hP, Bool.and_false]

/-- How many pieces wait for inputs. -/
def unready (dreqs : List SimpleCommand) : ℕ := dreqs.countP fun c => !c.input.pieceInputReady

theorem ready_offers
    (h : (c.offers o).input.pieceInputReady = false) : c.input.pieceInputReady = false := by
  by_contra hc
  rw [offers_of_ready (eq_true_of_ne_false hc)] at h
  exact hc h

theorem unready_modify_mark (dreqs : List SimpleCommand) (i : ℕ) :
    unready (dreqs.modify i mark) = unready dreqs := by
  induction dreqs generalizing i with
  | nil => rw [modify_nil]
  | cons c l ih =>
    cases i with
    | zero => rfl
    | succ i =>
      rw [unready, unready, modify_succ_cons, countP_cons, countP_cons]
      exact congrArg (· + _) (ih i)

theorem unready_filedAt (dreqs : List SimpleCommand) (i : ℕ) (o : List (ℕ × Value)) :
    unready (filedAt dreqs i o) +
      (if readies (dreqs.modify i mark) o then 1 else 0) ≤ unready dreqs := by
  rw [← unready_modify_mark dreqs i, unready, filedAt, countP_map]
  have hmono : ∀ c : SimpleCommand, (!(c.offers o).input.pieceInputReady) = true →
      (!c.input.pieceInputReady) = true := fun c h => by
    rw [not_eq_true'] at h ⊢
    exact ready_offers h
  split
  · next hready =>
    obtain ⟨c, hc, hr⟩ := any_eq_true.mp hready
    rw [and_eq_true] at hr
    exact countP_lt_countP hc hmono (by simp [hr.2]) hr.1
  · exact countP_mono_left fun c _ => hmono c

theorem unready_filed {dreqs : List SimpleCommand} {need : Bool} {n : ℕ}
    (h : unready dreqs + (if need then 1 else 0) ≤ n) (i : ℕ) (o : List (ℕ × Value)) :
    unready (filedAt dreqs i o) +
      (if need || readies (dreqs.modify i mark) o then 1 else 0) ≤ n := by
  have hle := unready_filedAt dreqs i o
  cases need with
  | false => simp only [Bool.false_or, Bool.false_eq_true, if_false] at h ⊢; omega
  | true => simp only [Bool.true_or, if_true] at h ⊢; omega

/-- A loop body that executes piece `i`, or leaves everything as it is if the piece may not be run:
    `P` says which ones may. -/
def Files {σ : Type} (f : σ → ℕ → Option σ) (pieces : σ → List SimpleCommand) (need : σ → Bool)
    (P : ℕ → Bool) : Prop :=
  ∀ s i s', f s i = some s' →
    (s' = s ∧ ∀ c, (pieces s)[i]? = some c → (c.runnable && P c.innId) = false) ∨
    ∃ o, pieces s' = filedAt (pieces s) i o ∧
      need s' = (need s || readies ((pieces s).modify i mark) o)

section Files

variable {σ : Type} {f : σ → ℕ → Option σ} {pieces : σ → List SimpleCommand} {need : σ → Bool}
  {P : ℕ → Bool} {s s' : σ}

theorem Files.settled (hf : Files f pieces need P) : ∀ {n : ℕ} {s' : σ},
    run f s (range n) = some s' → need s' = false →
      ∀ j < n, ∀ c, (pieces s')[j]? = some c → (c.runnable && P c.innId) = false
  | 0, _, _, _, j, hj, _, _ => absurd hj (Nat.not_lt_zero j)
  | n + 1, s', h, hneed, j, hj, c', hc' => by
    rw [range_succ, run_concat] at h
    obtain ⟨s1, hs, hpiece⟩ := h
    rcases hf s1 n s' hpiece with ⟨rfl, hn⟩ | ⟨o, hpieces, hor⟩
    · rcases Nat.lt_succ_iff_lt_or_eq.mp hj with hj | rfl
      · exact hf.settled hs hneed j hj c' hc'
      · exact hn c' hc'
    · rw [hor, or_eq_false_iff] at hneed
      rw [hpieces] at hc'
      exact filedAt_settled (hf.settled hs hneed.1) hneed.2 j hj c' hc'

theorem Files.unready_run (hf : Files f pieces need P) (hstart : need s = false) {l : List ℕ}
    (h : run f s l = some s') :
    unready (pieces s') + (if need s' then 1 else 0) ≤ unready (pieces s) ∧
      (pieces s').length = (pieces s).length := by
  refine run_inv (P := fun r => unready (pieces r) + (if need r then 1 else 0) ≤
    unready (pieces s) ∧ (pieces r).length = (pieces s).length) (fun r i r' hr hp => ?_)
      (by simp [hstart]) h
  rcases hf r i r' hp with ⟨rfl, -⟩ | ⟨o, hpieces, hor⟩
  · exact hr
  · rw [hpieces, hor, length_filedAt]
    exact ⟨unready_filed hr.1 i o, hr.2⟩

/-- A pass makes a waiting piece ready, or leaves no piece that may be run. -/
theorem Files.pass (hf : Files f pieces need P) (hstart : need s = false)
    (h : run f s (range (pieces s).length) = some s') :
    if need s' then unready (pieces s') < unready (pieces s)
    else ∀ c ∈ pieces s', (c.runnable && P c.innId) = false := by
  obtain ⟨hle, hlen⟩ := hf.unready_run hstart h
  split
  · next hneed =>
    rw [if_pos hneed] at hle
    exact hle
  · next hneed =>
    intro c hc
    obtain ⟨j, hj⟩ := mem_iff_getElem?.mp hc
    have hlt := (List.getElem?_eq_some_iff.mp hj).1
    exact hf.settled h (eq_false_of_ne_true hneed) j (hlen ▸ hlt) c hj

/-- Enough passes leave no piece that may be run. -/
theorem Files.settles (hf : Files f pieces need P) {sweep : σ → Option σ} (reset : σ → σ)
    (hsweep : ∀ s, sweep s = run f (reset s) (range (pieces s).length))
    (hpieces : ∀ s, pieces (reset s) = pieces s) (hneed : ∀ s, need (reset s) = false) :
    ∀ {n : ℕ} {s : σ}, unready (pieces s) < n → passes sweep need n s = some s' →
      ∀ c ∈ pieces s', (c.runnable && P c.innId) = false
  | 0, _, hn, _ => absurd hn (Nat.not_lt_zero _)
  | n + 1, s, hn, h => by
    obtain ⟨s1, h1, h⟩ := bind_eq_some_iff.mp h
    rw [hsweep, ← hpieces] at h1
    have hpass := hf.pass (hneed s) h1
    split at h
    · next hready =>
      rw [if_pos hready, hpieces] at hpass
      exact hf.settles reset hsweep hpieces hneed (hpass.trans_le (Nat.le_of_lt_succ hn)) h
    · next hready =>
      obtain rfl := some.inj h
      rw [if_neg hready] at hpass
      exact hpass

end Files

theorem piece_files (site : Site) (id : ℕ) :
    Files (Pass.piece site id) (fun st => st.work.dtxn.dreqs) Pass.needCheck fun _ => true := by
  intro st i st' h
  rcases piece_executes h with ⟨heq, hn⟩ | ⟨c, out, o, new, hex⟩
  · exact .inl ⟨heq, fun c hc => by rw [hn c hc, Bool.false_and]⟩
  · exact .inr ⟨o, hex.dreqs, hex.needCheck⟩

/-- The loop leaves no piece that may be run. -/
theorem recursive_settles (h : w.recursiveExecuteReadyPieces site id = some st') :
    ∀ c ∈ st'.work.dtxn.dreqs, c.runnable = false := by
  intro c hc
  have hno := (piece_files site id).settles (fun st => { st with needCheck := false })
    (fun _ => rfl) (fun _ => rfl) (fun _ => rfl) (Nat.lt_succ_of_le countP_le_length) h c hc
  rwa [Bool.and_true] at hno

end Settled

/-! ### What the execution leaves behind -/

/-- The record after an execution of its pieces. -/
def RccDTxn.rework (d : RccDTxn) (parents : OrdSet ℕ) (dreqs : List SimpleCommand) (n : ℕ)
    (output : TxnOutput) : RccDTxn :=
  { d with parents := parents, dreqs := dreqs, nExecutedPieces := n, output := output }

/-- `w'` is `w` but for the parents, the pieces and what they returned; with the same parents where
    the transaction commits. -/
def Rework (w w' : Work) : Prop :=
  ∃ parents dreqs n output, w'.dtxn = w.dtxn.rework parents dreqs n output ∧
    dreqs.length = w.dtxn.dreqs.length ∧ (w.dtxn.phase = .commit → parents = w.dtxn.parents)

theorem Rework.refl (w : Work) : Rework w w :=
  ⟨w.dtxn.parents, w.dtxn.dreqs, w.dtxn.nExecutedPieces, w.dtxn.output, rfl, rfl, fun _ => rfl⟩

theorem Rework.phase {w w' : Work} (h : Rework w w') : w'.dtxn.phase = w.dtxn.phase := by
  obtain ⟨_, _, _, _, h, -⟩ := h
  rw [h]; rfl

/-- The runs since `w0`: every one is of a piece of transaction `id` that is marked as executed and
    holds the input it ran with, no piece ran twice, and the counter counts the marked pieces. -/
structure Record (id : ℕ) (w0 w : Work) (runs : List Ran) : Prop where
  ran : w.store.ran = w0.store.ran ++ runs
  shipped : w.store.shipped = w0.store.shipped ++ runs.flatMap Ran.ships
  piece : ∀ r ∈ runs, r.txn = id ∧ r.phase = w0.dtxn.phase ∧ ∃ c, w.dtxn.dreqs[r.piece]? = some c ∧
    c.localExecuted = true ∧ c.input.pieceInputReady = true ∧ c.input = r.input
  once : (runs.map Ran.piece).Nodup
  count : w.dtxn.nExecutedPieces = w.dtxn.dreqs.countP fun c => c.localExecuted

section Record

variable {site : Site} {id i : ℕ} {st st' : Pass} {w0 w : Work} {runs : List Ran}
  {c : SimpleCommand} {o : List (ℕ × Value)} {dreqs : List SimpleCommand}

theorem piece_rework (hst : Rework w0 st.work) (h : st.piece site id i = some st') :
    Rework w0 st'.work := by
  rcases piece_cases h with ⟨rfl, -⟩ | ⟨c, out, w, hc, hrun, hexec, rfl⟩
  · exact hst
  · obtain ⟨parents, hd, hparents⟩ := execSimpleCmd_dtxn hexec
    obtain ⟨o, -, hdreqs, -⟩ := file_merge site i c out st w
    have hlen : (st.file site i c out w).work.dtxn.dreqs.length = w.dtxn.dreqs.length := by
      rw [hdreqs, length_filedAt]
    obtain ⟨parents0, dreqs0, n0, output0, hd0, hlen0, hparents0⟩ := hst
    refine ⟨parents, (st.file site i c out w).work.dtxn.dreqs, w.dtxn.nExecutedPieces + 1,
      (st.file site i c out w).work.dtxn.output, ?_, ?_, fun hph => ?_⟩
    · simp only [Pass.file, hd, hd0]; rfl
    · rw [hlen, hd, hd0]; exact hlen0
    · rw [hparents (by rw [hd0]; exact hph), hd0]; exact hparents0 hph

theorem recursive_rework (h : w.recursiveExecuteReadyPieces site id = some st') :
    Rework w st'.work :=
  recursive_inv (I := Rework w) (fun _ _ _ hst hp => piece_rework hst hp) (Rework.refl w) h

theorem countP_modify_mark {i : ℕ} (hc : dreqs[i]? = some c) (hno : c.localExecuted = false) :
    (dreqs.modify i mark).countP (fun c => c.localExecuted) =
      dreqs.countP (fun c => c.localExecuted) + 1 := by
  induction dreqs generalizing i with
  | nil => simp at hc
  | cons a l ih =>
    cases i with
    | zero =>
      obtain rfl : a = c := by simpa using hc
      rw [modify_zero_cons, countP_cons, countP_cons, hno, mark]
      rfl
    | succ i =>
      rw [modify_succ_cons, countP_cons, countP_cons, ih (by simpa using hc)]
      omega

theorem countP_filedAt {i : ℕ} (hc : dreqs[i]? = some c) (hno : c.localExecuted = false) :
    (filedAt dreqs i o).countP (fun c => c.localExecuted) =
      dreqs.countP (fun c => c.localExecuted) + 1 := by
  rw [filedAt, countP_map, ← countP_modify_mark hc hno]
  exact congrArg (fun p => countP p _) (funext fun c => localExecuted_offers c o)

theorem executed_filedAt {i j : ℕ} (hj : dreqs[j]? = some c) (hex : c.localExecuted = true)
    (hready : c.input.pieceInputReady = true) : (filedAt dreqs i o)[j]? = some c := by
  have hmark : c.mark = c := by rw [mark, ← hex]
  rw [getElem_filedAt, hj, map_some, hmark, ite_self, offers_of_ready hready]

theorem executes_record {out : Dict ℕ Value} {new : List Ran} (hst : Record id w0 st.work runs)
    (hph : st.work.dtxn.phase = w0.dtxn.phase) (h : Executes site id i st st' c out o new) :
    Record id w0 st'.work (runs ++ new) := by
  have hold : ∀ r ∈ runs, r.txn = id ∧ r.phase = w0.dtxn.phase ∧ ∃ c',
      st'.work.dtxn.dreqs[r.piece]? = some c' ∧ c'.localExecuted = true ∧
        c'.input.pieceInputReady = true ∧ c'.input = r.input := fun r hr => by
    obtain ⟨hid, hphase, c', hc', hex, hrd, hin⟩ := hst.piece r hr
    refine ⟨hid, hphase, c', ?_, hex, hrd, hin⟩
    rw [h.dreqs]
    exact executed_filedAt hc' hex hrd
  have hcount : st'.work.dtxn.nExecutedPieces =
      st'.work.dtxn.dreqs.countP fun c => c.localExecuted := by
    rw [h.count, h.dreqs, countP_filedAt h.piece h.first, hst.count]
  have hran : st'.work.store.ran = w0.store.ran ++ (runs ++ new) := by
    rw [h.ran, hst.ran, append_assoc]
  have hships : st'.work.store.shipped =
      w0.store.shipped ++ (runs ++ new).flatMap Ran.ships := by
    rw [h.shipped, hst.shipped, flatMap_append, append_assoc]
  rcases h.handler with ⟨-, -, rfl, -⟩ | ⟨-, ⟨ships, rfl, -⟩, -⟩
  · rw [append_nil] at hran hships ⊢
    exact ⟨hran, hships, hold, hst.once, hcount⟩
  · refine ⟨hran, hships, fun r hr => ?_, ?_, hcount⟩
    · rcases mem_append.mp hr with hr | hr
      · exact hold r hr
      · obtain rfl := mem_singleton.mp hr
        refine ⟨rfl, hph, c.mark, ?_, rfl, h.ready, rfl⟩
        rw [h.dreqs, getElem_filedAt, h.piece, map_some, if_pos rfl,
          offers_of_ready (show c.mark.input.pieceInputReady = true from h.ready)]
    · refine nodup_map_concat hst.once fun r hr hab => ?_
      -- a piece that has run is marked, and this one is not
      obtain ⟨-, -, c', hc', hex, -⟩ := hst.piece r hr
      rw [hab, h.piece] at hc'
      rw [← some.inj hc', h.first] at hex
      exact Bool.noConfusion hex

theorem Record.start (hno : ∀ c ∈ w.dtxn.dreqs, c.localExecuted = false)
    (hn : w.dtxn.nExecutedPieces = 0) : Record id w w [] := by
  refine ⟨(append_nil _).symm, (append_nil _).symm,
    forall_mem_nil _, nodup_nil, ?_⟩
  rw [hn, eq_comm, countP_eq_zero]
  exact fun c hc => by simp [hno c hc]

theorem recursive_record {I : Work → List Ran → Prop}
    (hI : ∀ st st' i c out o new runs, Record id w st.work runs → Rework w st.work →
      I st.work runs → Executes site id i st st' c out o new → I st'.work (runs ++ new))
    (hno : ∀ c ∈ w.dtxn.dreqs, c.localExecuted = false) (hn : w.dtxn.nExecutedPieces = 0)
    (hw : I w []) (h : w.recursiveExecuteReadyPieces site id = some st') :
    ∃ runs, Record id w st'.work runs ∧ I st'.work runs := by
  refine (recursive_inv (I := fun w' => Rework w w' ∧ ∃ runs, Record id w w' runs ∧ I w' runs)
    (fun st i st' hst hp => ⟨piece_rework hst.1 hp, ?_⟩)
    ⟨Rework.refl w, [], Record.start hno hn, hw⟩ h).2
  obtain ⟨hre, runs, hrec, hi⟩ := hst
  rcases piece_executes hp with ⟨rfl, -⟩ | ⟨c, out, o, new, hex⟩
  · exact ⟨runs, hrec, hi⟩
  · exact ⟨runs ++ new, executes_record hrec hre.phase hex,
      hI st st' i c out o new runs hrec hre hi hex⟩

end Record

/-! ### What a dispatch puts on record -/

/-- Since `w` only handlers of dispatched pieces have run, and nothing was shipped. -/
def Dispatched (w w' : Work) : Prop :=
  w'.dtxn.phase = .dispatch ∧ w'.store.shipped = w.store.shipped ∧
    ∃ runs, w'.store.ran = w.store.ran ++ runs ∧ ∀ r ∈ runs, r.phase = .dispatch

section Dispatch

variable {site : Site} {id i : ℕ} {st st' : Pass} {w0 w w' : Work}

theorem Dispatched.append (h : Dispatched w0 w) (h' : Dispatched w w') : Dispatched w0 w' := by
  obtain ⟨-, hship, runs, hran, hruns⟩ := h
  obtain ⟨hph, hship', runs', hran', hruns'⟩ := h'
  refine ⟨hph, hship'.trans hship, runs ++ runs', by rw [hran', hran, append_assoc], ?_⟩
  exact fun r hr => (mem_append.mp hr).elim (hruns r) (hruns' r)

theorem executes_dispatched {out : Dict ℕ Value} {o : List (ℕ × Value)}
    {new : List Ran} (hph : st.work.dtxn.phase = .dispatch)
    (hph' : st'.work.dtxn.phase = .dispatch) (h : Executes site id i st st' c out o new) :
    Dispatched st.work st'.work := by
  have hne : st.work.dtxn.phase ≠ .commit := by rw [hph]; exact fun h => by cases h
  refine ⟨hph', ?_, new, h.ran, fun r hr => ?_⟩
  · rw [h.shipped]
    rcases h.handler with ⟨-, -, rfl, -⟩ | ⟨-, ⟨ships, rfl, hnone⟩, -⟩
    · exact append_nil _
    · rw [flatMap_singleton, hnone hne, append_nil]
  · rcases h.handler with ⟨-, -, rfl, -⟩ | ⟨-, ⟨ships, rfl, -⟩, -⟩
    · exact absurd hr not_mem_nil
    · rw [mem_singleton.mp hr]; exact hph

theorem checkPiece_cases (h : w.checkPiece site id i = some w') :
    (w' = w ∧ ∀ c, w.dtxn.dreqs[i]? = some c → c.localExecuted = true) ∨
    ∃ c out, w.dtxn.dreqs[i]? = some c ∧ c.localExecuted = false ∧ c.type = tpccPayment5 ∧
      w.runHandler site id i c = some (out, w') := by
  rw [Work.checkPiece] at h
  split at h
  · next hc => exact .inl ⟨(some.inj h).symm, fun c h => by cases hc.symm.trans h⟩
  · next c hc =>
    split at h
    · next hex =>
      refine .inl ⟨(some.inj h).symm, fun c' hc' => ?_⟩
      rw [← some.inj (hc.symm.trans hc')]
      exact hex
    · next hex =>
      obtain ⟨⟨out, u⟩, hrun, h⟩ := bind_eq_some_iff.mp h
      split at h
      · next htype =>
        obtain rfl := some.inj h
        exact .inr ⟨c, out, hc, eq_false_of_ne_true hex, htype, hrun⟩
      · cases h

theorem checkPiece_dispatched (hph : w.dtxn.phase = .dispatch)
    (h : w.checkPiece site id i = some w') : Dispatched w w' := by
  rcases checkPiece_cases h with ⟨rfl, -⟩ | ⟨c, out, -, -, -, hrun⟩
  · exact ⟨hph, rfl, [], (append_nil _).symm, forall_mem_nil _⟩
  · obtain ⟨a, -, hd, -, ships, hran, hships, hnone⟩ := runHandler_spec hrun
    refine ⟨by rw [hd]; exact hph, ?_, _, hran, fun r hr => ?_⟩
    · rw [hships, hnone (by rw [hph]; exact fun h => by cases h), append_nil]
    · rw [mem_singleton.mp hr]; exact hph

theorem checkPiece_rework (hw : Rework w0 w) (h : w.checkPiece site id i = some w') :
    Rework w0 w' := by
  rcases checkPiece_cases h with ⟨rfl, -⟩ | ⟨c, out, -, -, -, hrun⟩
  · exact hw
  · obtain ⟨a, ha, hd, -, -⟩ := runHandler_spec hrun
    obtain ⟨parents, dreqs, n, output, hd0, hlen, hparents⟩ := hw
    refine ⟨a.parents, dreqs, n, output, by rw [hd, hd0]; rfl, hlen, fun hph => ?_⟩
    rw [exec_commit_parents (by rw [hd0]; exact hph) ha, Work.acc, hd0]
    exact hparents hph

theorem dispatchExec_rework (h : w.dispatchExec site id = some w') :
    Rework ⟨w.dtxn.setPhase .dispatch, w.store⟩ w' := by
  obtain ⟨st, hst, h⟩ := bind_eq_some_iff.mp h
  exact run_inv (P := fun u : Work => Rework ⟨w.dtxn.setPhase .dispatch, w.store⟩ u)
    (fun u i u' hu hp => checkPiece_rework hu hp) (recursive_rework hst) h

theorem dispatchExec_dispatched (h : w.dispatchExec site id = some w') : Dispatched w w' := by
  obtain ⟨st, hst, h⟩ := bind_eq_some_iff.mp h
  have hfirst : Dispatched w st.work := by
    refine (recursive_inv (I := fun u => Rework ⟨w.dtxn.setPhase .dispatch, w.store⟩ u ∧
      Dispatched w u) (fun st i st' hs hp => ⟨piece_rework hs.1 hp, ?_⟩)
      ⟨Rework.refl _, rfl, rfl, [], (append_nil _).symm,
        forall_mem_nil _⟩ hst).2
    rcases piece_executes hp with ⟨rfl, -⟩ | ⟨c, out, o, new, hex⟩
    · exact hs.2
    · exact hs.2.append (executes_dispatched hs.2.1 ((piece_rework hs.1 hp).phase.trans rfl) hex)
  exact run_inv (P := fun u : Work => Dispatched w u)
    (fun u i u' hu hp => hu.append (checkPiece_dispatched hu.1 hp)) hfirst h

end Dispatch

/-! ### The commit execution -/

section

variable {site : Site} {id i : ℕ} {st' : Pass} {w w' : Work} {c : SimpleCommand}
  {ret : Dict ℕ (Dict ℕ Value)}

theorem commitExecAllRdy_eq_some (h : w.commitExecAllRdy site id = some (w', ret)) :
    ∃ st, Work.recursiveExecuteReadyPieces site id ⟨w.dtxn.restart, w.store⟩ = some st ∧
      w' = ⟨st.work.dtxn.setCommitted, st.work.store⟩ ∧ ret = st.ret := by
  obtain ⟨st, hst, heq⟩ := map_eq_some_iff.mp h
  obtain ⟨rfl, rfl⟩ := Prod.mk.inj heq
  exact ⟨st, hst, rfl, rfl⟩

theorem restart_piece {d : RccDTxn} (h : d.restart.dreqs[i]? = some c) :
    ∃ b, d.dreqs[i]? = some b ∧ c = b.clear := by
  rw [RccDTxn.restart, getElem?_map] at h
  obtain ⟨b, hb, heq⟩ := map_eq_some_iff.mp h
  exact ⟨b, hb, heq.symm⟩

theorem restart_record {I : Work → List Ran → Prop} {d : RccDTxn} {s : Store}
    (hI : ∀ st st' i c out o new runs, Record id ⟨d.restart, s⟩ st.work runs →
      Rework ⟨d.restart, s⟩ st.work → I st.work runs → Executes site id i st st' c out o new →
      I st'.work (runs ++ new)) (hw : I ⟨d.restart, s⟩ [])
    (h : Work.recursiveExecuteReadyPieces site id ⟨d.restart, s⟩ = some st') :
    ∃ runs, Record id ⟨d.restart, s⟩ st'.work runs ∧ I st'.work runs := by
  refine recursive_record hI (fun c hc => ?_) rfl hw h
  obtain ⟨b, -, rfl⟩ := mem_map.mp hc
  rfl

end

end Fiss.Rcc
