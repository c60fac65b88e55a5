import Fiss.Chronos.Clock
import Fiss.Rcc.Pieces
import Fiss.Schemes.OrdMap

/-! The record a site keeps of a transaction, and the execution of its pieces
    (`RecursiveExecuteReadyPieces`): passes over the pieces until none has become ready, in which a
    piece is executed if its inputs are there and no piece still pending of an earlier transaction
    conflicts with it.

    A field the source leaves uninitialised is read as the site's own value for it (`is_irt_`) or has
    none (`n_local_pieces_`). -/

namespace Fiss.Chronos
open Fiss.Rcc List Option Bool Nat SimpleCommand

inductive TxnPhase where
  | empty
  | distRemoteSent
  | distRemotePrepared
  | localNotStored
  | localCanExe
  | distCanExe
  | outputSent
  deriving DecidableEq

/-- The number of a phase. -/
def TxnPhase.rank : TxnPhase → ℕ
  | .empty => 0
  | .distRemoteSent => 1
  | .distRemotePrepared => 2
  | .localNotStored => 3
  | .localCanExe => 4
  | .distCanExe => 5
  | .outputSent => 6

def phaseCanExe : ℕ := 4

inductive DistPartStatus where
  | aborted
  | notReceived
  | remoteSent
  | remotePrepared
  | localNotSent
  | localSent
  | localPrepared
  | outputReceived
  deriving DecidableEq

/-- The number of a status. -/
def DistPartStatus.rank : DistPartStatus → ℤ
  | .aborted => -1
  | .notReceived => 0
  | .remoteSent => 1
  | .remotePrepared => 2
  | .localNotSent => 3
  | .localSent => 4
  | .localPrepared => 5
  | .outputReceived => 6

/-- The `execute_callback_` of a record, by the handler that assigned it. -/
inductive Callback where
  | unset
  | handleIRT
  | prepareIRT
  | submitCRT
  | prepareCRT
  deriving DecidableEq

structure TxChronos where
  ts : ChrTs := {}
  commitTs : ChrTs := {}
  chrPhase : TxnPhase := .empty
  regionHandler : ℕ := 2 ^ 16 - 1
  inputReady : ℤ := 1
  isIrt : Bool
  pieces : List SimpleCommand := []
  nLocalPieces : Option ℕ := none
  nExecutedPieces : ℕ := 0
  distOutput : TxnOutput := {}
  callback : Callback := .unset
  exeTried : Bool := false
  distPartitionStatus : OrdMap ℕ DistPartStatus := {}
  distPartitionAcks : Dict ℕ (OrdSet ℕ) := {}
  distShardMgrAcked : Dict ℕ Bool := {}
  anticipatedTs : OrdMap ℕ ChrTs := {}
  /-- `send_output_to_handler_` was assigned, and answers the decision -/
  sendOutputToHandler : Bool := false
  /-- `send_output_client` was assigned -/
  sendOutputClient : Bool := false
  deriving DecidableEq

/-- A site: where it stands, the other sites of its region, and the registered pieces. -/
structure Site where
  siteId : ℕ
  parId : ℕ
  nReplicas : ℕ
  nShardPerRegion : ℕ
  myRid : ℕ
  others : List ℕ
  /-- `SitesByPartitionId` -/
  sitesOf : ℕ → List ℕ
  handler : ℕ → ℕ → TxnWorkspace → Prog
  defer : ℕ → ℕ → Defer := fun _ _ => .real
  /-- `check_piece_conflict`: a pending piece, and the one to be checked -/
  checkPieceConflict : ℕ → ℕ → Bool := fun _ _ => false
  /-- what `is_irt_` of a new record reads as -/
  unsetIrt : ℕ → Bool := fun _ => false

def TxChronos.allPiecesInputReady (d : TxChronos) : Bool := 0 < d.inputReady

/-! ### Executing pieces -/

section

variable (site : Site) (pending : OrdSet ℕ) (d : TxChronos)

/-- `WriteColumn` writes at the hint `TXN_INSTANT`, `ReadColumn` gives a value unless deferred. -/
def exec : Prog → List Row → Option (Dict ℕ Value × List Row)
  | .done output, rows => some (output, rows)
  | .read row col hint k, rows => (rows[row]?).bind fun r =>
      if hint = .deferred then exec (k none) rows
      else (r.cols[col]?).bind fun v => exec (k (some v)) rows
  | .write row col v hint k, rows =>
      if hint = .instant then (rows[row]?).bind fun r => (r.cols[col]?).bind fun _ =>
        exec k (rows.set row { r with cols := r.cols.set col v })
      else exec k rows
  | .insert table cols k, rows => exec k (rows ++ [⟨table, cols⟩])

/-- `DispatchExecute`: a piece registered as fake is not run. -/
def Site.dispatchExecute (c : SimpleCommand) (rows : List Row) : Option (Dict ℕ Value × List Row) :=
  if site.defer c.rootType c.type = .fake then some ({}, rows)
  else exec (site.handler c.rootType c.type c.input) rows

def Site.canExeWoConflict (toCheck : ℕ) (pending : OrdSet ℕ) : Bool :=
  pending.elems.all fun p => !site.checkPieceConflict p toCheck

/-- The record with its pieces, their count and the outputs replaced. -/
def TxChronos.rework (pieces : List SimpleCommand) (n : ℕ) (output : TxnOutput) : TxChronos :=
  { d with pieces := pieces, nExecutedPieces := n, distOutput := output }

/-- The loop state of `RecursiveExecuteReadyPieces`. -/
structure Pass where
  dtxn : TxChronos
  rows : List Row
  /-- the outputs collected for each partition -/
  ret : Dict ℕ (Dict ℕ Value) := {}
  needCheck : Bool := false

variable (st : Pass)

/-- What follows the execution of piece `i`. -/
def Pass.file (i : ℕ) (c : SimpleCommand) (output : Dict ℕ Value) (rows : List Row) (st : Pass) :
    Pass :=
  let pieces := st.dtxn.pieces.modify i mark
  let merged := mergeOwn site.parId output pieces
  { dtxn := st.dtxn.rework merged.1 (st.dtxn.nExecutedPieces + 1)
      (st.dtxn.distOutput.set c.innId output)
    rows := rows
    ret := collect pieces output st.ret
    needCheck := st.needCheck || merged.2 }

/-- A piece that may be executed beside the pending ones. -/
def Site.free (c : SimpleCommand) : Bool :=
  c.runnable && site.canExeWoConflict c.innId pending

/-- The loop body at piece `i`. -/
def Pass.piece (i : ℕ) : Option Pass :=
  match st.dtxn.pieces[i]? with
  | none => some st
  | some c =>
    if site.free pending c then
      (site.dispatchExecute c st.rows).map fun r => st.file site i c r.1 r.2
    else some st

/-- One pass over the pieces. -/
def Pass.sweep : Option Pass :=
  run (Pass.piece site pending) { st with needCheck := false } (List.range st.dtxn.pieces.length)

def TxChronos.setTried : TxChronos := { d with exeTried := true }

/-- `RecursiveExecuteReadyPieces`: a pass more than there are pieces is enough. -/
def TxChronos.recursiveExecuteReadyPieces (rows : List Row) : Option Pass :=
  passes (Pass.sweep site pending) Pass.needCheck (d.pieces.length + 1)
    { dtxn := d.setTried, rows := rows }

/-- `pending_pieces` after it: the pieces not executed are added. -/
def TxChronos.addPending : OrdSet ℕ :=
  (d.pieces.filter fun c => !c.localExecuted).foldl (fun s c => s.insert c.innId) pending

end

/-! ### What the execution does to a record -/

section

variable {site : Site} {pending : OrdSet ℕ} {i : ℕ} {st st' : Pass} {d : TxChronos}
  {I : TxChronos → Prop} {rows : List Row}

/-- Piece `i` is executed between `st` and `st'`, and `o` offered to all pieces. -/
structure Executes (site : Site) (pending : OrdSet ℕ) (i : ℕ) (st st' : Pass) (c : SimpleCommand)
    (o : List (ℕ × Value)) : Prop where
  piece : st.dtxn.pieces[i]? = some c
  free : site.free pending c = true
  output : ∃ output rows, site.dispatchExecute c st.rows = some (output, rows) ∧
    (o = [] ∨ o = output.entries)
  dtxn : ∃ output, st'.dtxn = st.dtxn.rework (filedAt st.dtxn.pieces i o)
    (st.dtxn.nExecutedPieces + 1) output
  needCheck : st'.needCheck =
    (st.needCheck || readies (st.dtxn.pieces.modify i mark) o)

theorem piece_executes (h : st.piece site pending i = some st') :
    (st' = st ∧ ∀ c, st.dtxn.pieces[i]? = some c → site.free pending c = false) ∨
      ∃ c o, Executes site pending i st st' c o := by
  rw [Pass.piece] at h
  split at h
  · next hc => exact .inl ⟨(some.inj h).symm, fun c h => by cases hc.symm.trans h⟩
  · next c hc =>
    split at h
    · next hfree =>
      obtain ⟨⟨out, rows⟩, hout, rfl⟩ := map_eq_some_iff.mp h
      refine .inr ⟨c, _, hc, hfree, ⟨out, rows, hout, share_cases site.parId
        (st.dtxn.pieces.modify i mark) out⟩, ⟨st.dtxn.distOutput.set c.innId out, ?_⟩, ?_⟩
      · simp only [Pass.file, mergeOwn_eq, filedAt]
      · simp only [Pass.file, mergeOwn_eq]
    · next hfree =>
      refine .inl ⟨(some.inj h).symm, fun c' hc' => ?_⟩
      rw [← some.inj (hc.symm.trans hc')]
      exact eq_false_of_ne_true hfree

section
variable (hd : I d.setTried) (h : d.recursiveExecuteReadyPieces site pending rows = some st')
include hd h

theorem recursive_inv (hpiece : ∀ st i st', I st.dtxn → Pass.piece site pending st i = some st' →
    I st'.dtxn) : I st'.dtxn :=
  passes_inv (P := fun st : Pass => I st.dtxn) (fun st _ hst h => run_inv
    (P := fun st : Pass => I st.dtxn) (s := { st with needCheck := false }) hpiece hst h) hd h

theorem recursive_executes_inv (hpiece : ∀ st i st' c o, I st.dtxn →
    Executes site pending i st st' c o → I st'.dtxn) : I st'.dtxn := by
  refine recursive_inv hd h fun st i st' hst hp => ?_
  rcases piece_executes hp with ⟨rfl, -⟩ | ⟨c, o, hex⟩
  · exact hst
  · exact hpiece st i st' c o hst hex

end

/-- The pieces counted as executed are the ones marked so. -/
def TxChronos.Counted (d : TxChronos) : Prop :=
  d.nExecutedPieces = d.pieces.countP fun c => c.localExecuted

/-- A piece as the execution leaves it: the same one, not less ready and not less executed. -/
structure PieceKept (c c' : SimpleCommand) : Prop where
  innId : c'.innId = c.innId
  ready : c.input.pieceInputReady = true → c'.input.pieceInputReady = true
  executed : c.localExecuted = true → c'.localExecuted = true

theorem PieceKept.refl (c : SimpleCommand) : PieceKept c c := ⟨rfl, id, id⟩

theorem PieceKept.trans {a b c : SimpleCommand} (hab : PieceKept a b) (hbc : PieceKept b c) :
    PieceKept a c :=
  ⟨hbc.innId.trans hab.innId, fun h => hbc.ready (hab.ready h), fun h => hbc.executed (hab.executed h)⟩

/-- The execution changes the pieces, their count and the outputs; the pieces stay the same ones. -/
structure Worked (d d' : TxChronos) : Prop where
  frame : ∃ pieces n output, d' = d.setTried.rework pieces n output
  pieces : List.Forall₂ PieceKept d.pieces d'.pieces
  counted : d.Counted → d'.Counted

theorem free_runnable {c : SimpleCommand} (h : site.free pending c = true) :
    c.input.pieceInputReady = true ∧ c.localExecuted = false := by
  obtain ⟨hrun, -⟩ := and_eq_true_iff.mp h
  obtain ⟨hready, hno⟩ := and_eq_true_iff.mp hrun
  exact ⟨hready, not_eq_true' _ ▸ hno⟩

theorem pieceKept_offers (c : SimpleCommand) (o : List (ℕ × Value)) : PieceKept c (c.offers o) where
  innId := innId_offers c o
  ready h := by rw [offers_of_ready h]; exact h
  executed h := by rw [localExecuted_offers]; exact h

theorem pieceKept_mark (c : SimpleCommand) : PieceKept c c.mark := ⟨rfl, id, fun _ => rfl⟩

theorem pieceKept_map_offers (o : List (ℕ × Value)) (pieces : List SimpleCommand) :
    List.Forall₂ PieceKept pieces (pieces.map fun c => c.offers o) :=
  forall₂_map_right_iff.mpr (forall₂_same.mpr fun c _ => pieceKept_offers c o)

theorem pieceKept_filedAt (o : List (ℕ × Value)) : ∀ (pieces : List SimpleCommand) (i : ℕ),
    List.Forall₂ PieceKept pieces (filedAt pieces i o)
  | [], i => by rw [filedAt, modify_nil]; exact .nil
  | c :: l, 0 => .cons
      ((pieceKept_mark c).trans (pieceKept_offers c.mark o)) (pieceKept_map_offers o l)
  | c :: l, i + 1 => .cons (pieceKept_offers c o) (pieceKept_filedAt o l i)

theorem forall₂_pieceKept_trans {l1 l2 l3 : List SimpleCommand} (h : List.Forall₂ PieceKept l1 l2)
    (h' : List.Forall₂ PieceKept l2 l3) : List.Forall₂ PieceKept l1 l3 := by
  induction h generalizing l3 with
  | nil =>
    cases h'
    exact .nil
  | cons hab _ ih =>
    cases h' with
    | cons hbc h' => exact .cons (hab.trans hbc) (ih h')

theorem exists_of_kept {l l' : List SimpleCommand} (h : List.Forall₂ PieceKept l l')
    {c' : SimpleCommand} (hc' : c' ∈ l') : ∃ c ∈ l, PieceKept c c' := by
  induction h with
  | nil => exact absurd hc' not_mem_nil
  | cons hab _ ih =>
    rcases mem_cons.mp hc' with rfl | hc'
    · exact ⟨_, mem_cons_self, hab⟩
    · obtain ⟨c, hc, hk⟩ := ih hc'
      exact ⟨c, mem_cons_of_mem _ hc, hk⟩

theorem recursive_worked
    (h : d.recursiveExecuteReadyPieces site pending rows = some st') : Worked d st'.dtxn := by
  refine recursive_executes_inv (I := Worked d) ⟨⟨d.pieces, d.nExecutedPieces, d.distOutput, rfl⟩,
    forall₂_same.mpr fun c _ => PieceKept.refl c, id⟩ h fun st i st' c o hst hex => ?_
  obtain ⟨output, hd⟩ := hex.dtxn
  obtain ⟨pieces, n, out, hframe⟩ := hst.frame
  refine ⟨⟨filedAt st.dtxn.pieces i o, st.dtxn.nExecutedPieces + 1, output, ?_⟩, ?_, fun hd' => ?_⟩
  · rw [hd, hframe]
    rfl
  · rw [hd]
    exact forall₂_pieceKept_trans hst.pieces (pieceKept_filedAt o _ i)
  · have hcount := hst.counted hd'
    rw [hd]
    exact (congrArg (· + 1) hcount).trans
      (countP_filedAt hex.piece (free_runnable hex.free).2).symm

theorem piece_files (site : Site) (pending : OrdSet ℕ) : Files (Pass.piece site pending)
    (fun st => st.dtxn.pieces) Pass.needCheck fun x => site.canExeWoConflict x pending := by
  intro st i st' h
  rcases piece_executes h with hno | ⟨c, o, hex⟩
  · exact .inl hno
  · obtain ⟨output, hd⟩ := hex.dtxn
    exact .inr ⟨o, congrArg TxChronos.pieces hd, hex.needCheck⟩

theorem recursive_settled (h : d.recursiveExecuteReadyPieces site pending rows = some st') :
    ∀ c ∈ st'.dtxn.pieces, site.free pending c = false :=
  (piece_files site pending).settles (fun st => { st with needCheck := false })
    (fun _ => rfl) (fun _ => rfl) (fun _ => rfl) (lt_succ_of_le countP_le_length) h

/-- A record whose pieces have their inputs and conflict with nothing pending. -/
def Site.Unhindered (site : Site) (pending : OrdSet ℕ) (d : TxChronos) : Prop :=
  ∀ c ∈ d.pieces, c.input.pieceInputReady = true ∧ site.canExeWoConflict c.innId pending = true

theorem executes_unhindered {c : SimpleCommand} {o : List (ℕ × Value)}
    (hst : site.Unhindered pending st.dtxn) (hex : Executes site pending i st st' c o) :
    site.Unhindered pending st'.dtxn := by
  intro c' hc'
  obtain ⟨output, hd⟩ := hex.dtxn
  rw [hd, TxChronos.rework] at hc'
  obtain ⟨j, hj⟩ := mem_iff_getElem?.mp hc'
  rw [getElem_filedAt] at hj
  obtain ⟨c0, hc0, rfl⟩ := map_eq_some_iff.mp hj
  obtain ⟨hready, hfree⟩ := hst c0 (mem_of_getElem? hc0)
  split
  · rw [offers_of_ready (c := c0.mark) hready]
    exact ⟨hready, hfree⟩
  · rw [offers_of_ready hready]
    exact ⟨hready, hfree⟩

theorem recursive_all (hd : site.Unhindered pending d)
    (h : d.recursiveExecuteReadyPieces site pending rows = some st') :
    ∀ c ∈ st'.dtxn.pieces, c.localExecuted = true := by
  have hun : site.Unhindered pending st'.dtxn := by
    exact recursive_executes_inv (I := site.Unhindered pending) hd h
      fun _ _ _ _ _ hst hex => executes_unhindered hst hex
  intro c hc
  obtain ⟨hready, hconf⟩ := hun c hc
  have hfree := recursive_settled h c hc
  rw [Site.free, hconf, Bool.and_true, runnable, hready, Bool.true_and,
    not_eq_false'] at hfree
  exact hfree

end

end Fiss.Chronos
