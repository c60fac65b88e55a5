import Fiss.Rcc.Inputs
import Fiss.Schemes.OrdMap

/-! The record a site keeps of a transaction, and the execution of its pieces (`TxSlog`): passes over
    the pieces until none has become ready, in which a piece is executed if its inputs are there and
    no pending piece of an earlier transaction conflicts with it.

    What a handler does to the tables is a parameter, with the tables. `local_executed_` does not
    travel with a piece. Fields that are only written or logged are left out. -/

namespace Fiss.Slog
open Fiss.Rcc List
open SimpleCommand (mark offers waitingVarParMap)

/-- A site: where it stands, and the registered pieces. -/
structure Site (DB : Type) where
  siteId : ℕ
  parId : ℕ
  /-- `root_id_` of a piece -/
  rootId : SimpleCommand → ℕ
  handler : ℕ → ℕ → TxnWorkspace → DB → Dict ℕ Value × DB
  defer : ℕ → ℕ → Defer := fun _ _ => .real
  /-- `check_piece_conflict`: a pending piece, and the one to be checked -/
  checkPieceConflict : ℕ → ℕ → Bool := fun _ _ => false
  maxPendingTxns : ℕ := 5
  /-- what `n_local_pieces_` of a new record reads as -/
  unsetNLocalPieces : ℕ → ℤ := fun _ => 0

/-- The `reply_callback` of a record, by whom it answers. -/
inductive Callback where
  | client
  | replica
  | coord
  deriving DecidableEq

structure TxSlog where
  pieces : List SimpleCommand := []
  nLocalPieces : ℤ
  nExecutedPieces : ℕ := 0
  /-- `dreqs_`, by the `inn_id` of a piece -/
  dreqs : List ℕ := []
  distOutput : TxnOutput := {}
  parOutputReceived : OrdMap ℕ Bool := {}
  executed : Bool := false
  coordSite : ℕ := 0
  callback : Callback
  deriving DecidableEq

/-- The execution of a piece, by its position in the transaction. -/
structure Execution where
  txn : ℕ
  piece : ℕ
  innId : ℕ
  input : TxnWorkspace
  output : Dict ℕ Value
  /-- the handler was run -/
  handled : Bool
  deriving DecidableEq

/-! ### Executing pieces -/

/-- `DispatchExecute`: the handler is run unless a piece of that `inn_id` was dispatched before. -/
def Site.dispatchExecute {DB : Type} (site : Site DB) (c : SimpleCommand) (dreqs : List ℕ) (db : DB) :
    Dict ℕ Value × List ℕ × DB :=
  if c.innId ∈ dreqs then ({}, dreqs, db)
  else
    let r := site.handler c.rootType c.type c.input db
    (r.1, if site.defer c.rootType c.type = .no then dreqs else dreqs ++ [c.innId], r.2)

def Site.canExeWoConflict {DB : Type} (site : Site DB) (toCheck : ℕ) (pending : OrdSet ℕ) : Bool :=
  pending.elems.all fun p => !site.checkPieceConflict p toCheck

/-- The loop state of `RecursiveExecuteReadyPieces`, with the tables and the executions so far. -/
structure Pass (DB : Type) where
  dtxn : TxSlog
  db : DB
  ran : List Execution
  /-- the outputs collected for each partition -/
  ret : Dict ℕ (Dict ℕ Value) := {}
  needCheck : Bool := false

/-- A piece that may be executed beside the pending ones. -/
def Site.free {DB : Type} (site : Site DB) (pending : OrdSet ℕ) (c : SimpleCommand) : Bool :=
  c.runnable && site.canExeWoConflict c.innId pending

section Execute

variable {DB : Type} (site : Site DB) (pending : OrdSet ℕ) (t : ℕ) (d : TxSlog) (st : Pass DB)

/-- The execution of piece `i`, and what follows it. -/
def Pass.execute (i : ℕ) (c : SimpleCommand) (st : Pass DB) : Pass DB :=
  let r := site.dispatchExecute c st.dtxn.dreqs st.db
  let pieces := st.dtxn.pieces.modify i mark
  let merged := mergeOwn site.parId r.1 pieces
  { dtxn := { st.dtxn with
      pieces := merged.1
      nExecutedPieces := st.dtxn.nExecutedPieces + 1
      dreqs := r.2.1
      distOutput := st.dtxn.distOutput.set c.innId r.1 }
    db := r.2.2
    ran := st.ran ++ [⟨t, i, c.innId, c.input, r.1, decide (c.innId ∉ st.dtxn.dreqs)⟩]
    ret := collect pieces r.1 st.ret
    needCheck := st.needCheck || merged.2 }

/-- The loop body at piece `i`. -/
def Pass.piece (i : ℕ) : Pass DB :=
  match st.dtxn.pieces[i]? with
  | none => st
  | some c => if site.free pending c then st.execute site t i c else st

/-- One pass over the pieces. -/
def Pass.sweep : Pass DB :=
  (range st.dtxn.pieces.length).foldl (Pass.piece site pending t) { st with needCheck := false }

/-- Passes until no piece has become ready in one, `n` at most. -/
def Pass.sweeps (site : Site DB) (pending : OrdSet ℕ) (t : ℕ) : ℕ → Pass DB → Pass DB
  | 0, st => st
  | n + 1, st =>
    if (st.sweep site pending t).needCheck then
      Pass.sweeps site pending t n (st.sweep site pending t)
    else st.sweep site pending t

/-- `RecursiveExecuteReadyPieces`: a pass more than there are pieces is enough. -/
def TxSlog.recursiveExecuteReadyPieces (db : DB) (ran : List Execution) : Pass DB :=
  Pass.sweeps site pending t (d.pieces.length + 1) { dtxn := d, db := db, ran := ran }

/-- `pending_pieces` after it: the pieces not executed are added. -/
def TxSlog.addPending : OrdSet ℕ :=
  (d.pieces.filter fun c => !c.localExecuted).foldl (fun s c => s.insert c.innId) pending

end Execute

/-! ### What the execution does to a record -/

section

variable {DB : Type} {site : Site DB} {pending : OrdSet ℕ} {t i : ℕ} {st st' : Pass DB}

theorem share_congr {pieces pieces' : List SimpleCommand} (h : pieces'.head?.map waitingVarParMap =
      pieces.head?.map waitingVarParMap) (output : Dict ℕ Value) :
    share site.parId pieces' output = share site.parId pieces output := by
  have hbind : ∀ (l : List SimpleCommand) (x : ℕ), (l.head?.bind fun c => c.waitingVarParMap.find x) =
      (l.head?.map waitingVarParMap).bind fun m => m.find x := fun l x => by
    rw [Option.bind_map]
    rfl
  have htargets : outputsTargets pieces' output = outputsTargets pieces output := by
    simp only [outputsTargets, hbind, h]
  rw [share, share, htargets]

theorem share_mark (pieces : List SimpleCommand) (k : ℕ) (output : Dict ℕ Value) :
    share site.parId (pieces.modify k mark) output = share site.parId pieces output := by
  refine share_congr ?_ output
  cases pieces with
  | nil => rw [modify_nil]
  | cons c l => cases k <;> rfl

theorem execute_pieces (site : Site DB) (t k : ℕ) (c : SimpleCommand) (st : Pass DB) :
    (st.execute site t k c).dtxn.pieces = filedAt st.dtxn.pieces k
      (share site.parId st.dtxn.pieces (site.dispatchExecute c st.dtxn.dreqs st.db).1) := by
  simp only [Pass.execute, mergeOwn_eq, share_mark, filedAt]

theorem execute_needCheck (site : Site DB) (t k : ℕ) (c : SimpleCommand) (st : Pass DB) :
    (st.execute site t k c).needCheck = (st.needCheck || readies (st.dtxn.pieces.modify k mark)
        (share site.parId st.dtxn.pieces (site.dispatchExecute c st.dtxn.dreqs st.db).1)) := by
  simp only [Pass.execute, mergeOwn_eq, share_mark]

theorem piece_cases (site : Site DB) (pending : OrdSet ℕ) (t : ℕ) (st : Pass DB) (i : ℕ) :
    (st.piece site pending t i = st ∧
        ∀ c, st.dtxn.pieces[i]? = some c → site.free pending c = false) ∨
      ∃ c, st.dtxn.pieces[i]? = some c ∧ site.free pending c = true ∧
        st.piece site pending t i = st.execute site t i c := by
  rw [Pass.piece]
  split
  · next hc => exact .inl ⟨rfl, fun c h => by cases hc.symm.trans h⟩
  · next c hc =>
    split
    · next hfree => exact .inr ⟨c, hc, hfree, rfl⟩
    · next hfree =>
      refine .inl ⟨rfl, fun c' hc' => ?_⟩
      rw [← Option.some.inj (hc.symm.trans hc')]
      exact eq_false_of_ne_true hfree

theorem foldl_piece_inv {I : Pass DB → Prop}
    (hexec : ∀ st i c, I st → st.dtxn.pieces[i]? = some c → site.free pending c = true →
      I (st.execute site t i c)) :
    ∀ (l : List ℕ) {st : Pass DB}, I st → I (l.foldl (Pass.piece site pending t) st)
  | [], _, h => h
  | i :: l, st, h => by
    refine foldl_piece_inv hexec l ?_
    rcases piece_cases site pending t st i with ⟨heq, -⟩ | ⟨c, hc, hfree, heq⟩
    · rw [heq]
      exact h
    · rw [heq]
      exact hexec st i c h hc hfree

theorem sweeps_inv {I : Pass DB → Prop} (hreset : ∀ st b, I st → I { st with needCheck := b })
    (hexec : ∀ st i c, I st → st.dtxn.pieces[i]? = some c → site.free pending c = true →
      I (st.execute site t i c)) : ∀ {n : ℕ} {st : Pass DB}, I st →
        I (Pass.sweeps site pending t n st)
  | 0, _, h => h
  | n + 1, st, h => by
    have hsweep : I (st.sweep site pending t) := foldl_piece_inv hexec _ (hreset st false h)
    rw [Pass.sweeps]
    split
    · exact sweeps_inv hreset hexec hsweep
    · exact hsweep

/-! ### The passes come to an end -/

theorem piece_files (site : Site DB) (pending : OrdSet ℕ) (t : ℕ) :
    Files (fun st i => some (Pass.piece site pending t st i)) (fun st => st.dtxn.pieces)
      Pass.needCheck fun x => site.canExeWoConflict x pending := by
  rintro st i _ ⟨⟩
  rcases piece_cases site pending t st i with hno | ⟨c, -, -, heq⟩
  · exact .inl hno
  · rw [heq]
    exact .inr ⟨_, execute_pieces site t i c st, execute_needCheck site t i c st⟩

theorem sweeps_settled : ∀ {n : ℕ} {st : Pass DB}, unready st.dtxn.pieces < n →
    ∀ c ∈ (Pass.sweeps site pending t n st).dtxn.pieces, site.free pending c = false
  | 0, _, hn => absurd hn (Nat.not_lt_zero _)
  | n + 1, st, hn => by
    have hrun : run (fun st i => some (Pass.piece site pending t st i)) { st with needCheck := false }
        (range st.dtxn.pieces.length) = some (st.sweep site pending t) := run_some _ _ _
    have hpass := (piece_files site pending t).pass rfl hrun
    rw [Pass.sweeps]
    split
    · next hneed =>
      rw [if_pos hneed] at hpass
      exact sweeps_settled (hpass.trans_le (Nat.le_of_lt_succ hn))
    · next hneed =>
      rw [if_neg hneed] at hpass
      exact hpass

theorem recursive_settled (site : Site DB) (pending : OrdSet ℕ) (t : ℕ) (d : TxSlog) (db : DB)
    (ran : List Execution) :
    ∀ c ∈ (d.recursiveExecuteReadyPieces site pending t db ran).dtxn.pieces,
      site.free pending c = false :=
  sweeps_settled (Nat.lt_succ_of_le countP_le_length)

end

end Fiss.Slog
