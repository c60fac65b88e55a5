import Fiss.Memdb.RWLock
import Fiss.Schemes.OrdMap
import Fiss.Schemes.Runs
import Fiss.Tapir.Coord

/-! A replica of TAPIR. A dispatch runs pieces of a transaction and returns their outputs; a fast
    accept runs all of them again, compares the versions of the outputs with those the dispatches
    returned, and locks the rows that were read and those that will be written; the decision writes
    or drops the buffered writes and unlocks.

    `read_vers_` and `write_bufs_` are maps of maps; here they are maps from the columns, a row and
    a column of it, which are walked by row and then by column. A handler is a tree of accesses, since
    what it does next may depend on what it read. The executor of a transaction is made by the first
    message that needs it. Inserting and querying rows is left out, and a failed `verify` gives no
    state. What was answered, and what the dispatches returned, is recorded. -/

namespace Fiss.Tapir

open Memdb

/-- A row and a column of it. -/
abbrev Column := ℕ ×ₗ ℕ

def Column.row (c : Column) : ℕ := (ofLex c).1

/-- A value with the version that `Value` carries. -/
structure Value (D : Type) where
  data : D
  ver : ℕ := 0

namespace Value

variable {D K : Type} [LinearOrder K]

/-- The copy constructor, which leaves `ver_` alone. -/
def copy (v : Value D) : Value D := { data := v.data }

/-- `operator=`, which does so too. -/
def assign (v src : Value D) : Value D := { v with data := src.data }

/-- `m[k] = src`. -/
def assignAt (m : OrdMap K (Value D)) (k : K) (src : Value D) : OrdMap K (Value D) :=
  m.set k (match m.find k with
    | some v => v.assign src
    | none => src.copy)

end Value

variable {D : Type}

/-- The rows of the database. -/
structure Rows (D : Type) where
  data : Column → D
  ver : Column → ℕ

def Rows.getColumn (rows : Rows D) (c : Column) : Value D := ⟨rows.data c, rows.ver c⟩

/-- `row->incr_column_ver`, then `row->update` with the value at that version. -/
def Rows.update (rows : Rows D) (w : Column × Value D) : Rows D where
  data := Function.update rows.data w.1 w.2.data
  ver := Function.update rows.ver w.1 (rows.ver w.1 + 1)

structure TapirDTxn (D : Type) where
  readVers : OrdMap Column ℕ := .empty
  writeBufs : OrdMap Column (Value D) := .empty

namespace TapirDTxn

/-- `ReadColumn`, without the value. -/
def readColumn (rows : Rows D) (c : Column) (t : TapirDTxn D) : TapirDTxn D :=
  { t with readVers := t.readVers.set c (rows.ver c) }

def writeColumn (c : Column) (value : Value D) (t : TapirDTxn D) : TapirDTxn D :=
  { t with writeBufs := Value.assignAt t.writeBufs c value }

end TapirDTxn

/-- The handler of a piece. A column is read into a variable, which may also become an output. -/
inductive Handler (D : Type) where
  | done
  | read (c : Column) (out : Option ℕ) (next : D → Handler D)
  | output (var : ℕ) (value : D) (next : Handler D)
  | write (c : Column) (value : D) (next : Handler D)

/-- A handler that runs: its transaction, its outputs, and the columns it has read, with those it has
    put out marked. -/
structure Pass (D : Type) where
  txn : TapirDTxn D
  output : OrdMap ℕ (Value D) := .empty
  reads : List (Column × Bool) := []

def Handler.run (rows : Rows D) : Handler D → Pass D → Pass D
  | .done, p => p
  | .read c out next, p =>
    (next (rows.data c)).run rows
      { txn := p.txn.readColumn rows c
        output := out.elim p.output fun var => Value.assignAt p.output var (rows.getColumn c)
        reads := p.reads ++ [(c, out.isSome)] }
  | .output var value next, p =>
    next.run rows { p with output := Value.assignAt p.output var ⟨value, 0⟩ }
  | .write c value next, p =>
    next.run rows { p with txn := p.txn.writeColumn c ⟨value, 0⟩ }

/-- A piece of a transaction: its inputs, its outputs from the dispatch, and the handler of its type,
    of the inputs. -/
structure SimpleCommand (D : Type) where
  innId : ℕ
  input : Dict ℕ D := {}
  output : OrdMap ℕ (Value D) := .empty
  handler : Dict ℕ D → Handler D

/-- The run of the pieces of a message. -/
structure Execution (D : Type) where
  txn : TapirDTxn D
  output : OrdMap ℕ (OrdMap ℕ (Value D)) := .empty
  ws : Dict ℕ D := {}
  reads : List (Column × Bool) := []

/-- One round of the loop of `Execute`. -/
def executePiece (rows : Rows D) (x : Execution D) (cmd : SimpleCommand D) : Execution D :=
  let input := x.ws.entries.foldl (fun ws e => ws.insert e.1 e.2) cmd.input
  let p := (cmd.handler input).run rows
    { txn := x.txn, output := (x.output.find cmd.innId).getD .empty, reads := x.reads }
  { txn := p.txn
    output := x.output.set cmd.innId p.output
    ws := p.output.entries.foldl (fun ws e => ws.insert e.1 e.2.data) x.ws
    reads := p.reads }

/-- The outputs of the dispatches, as `FastAccept` collects them. -/
def outputM (cmds : List (SimpleCommand D)) : Dict ℕ (Value D) :=
  cmds.foldl (fun m c => c.output.entries.foldl (fun m o => m.insert o.1 o.2.copy) m) .empty

/-- The comparison of the outputs with those of the dispatches. -/
def validates (cmds : List (SimpleCommand D)) (e : Execution D) : Bool :=
  e.output.entries.all fun o => o.2.entries.all fun v =>
    match (outputM cmds).find v.1 with
    | none => false
    | some value => v.2.ver = value.ver

structure TapirExecutor (D : Type) extends TapirDTxn D where
  lockedRows : OrdSet ℕ := ∅

def execute (rows : Rows D) (cmds : List (SimpleCommand D)) (x : TapirExecutor D) : Execution D :=
  cmds.foldl (executePiece rows) { txn := x.toTapirDTxn }

/-! ### Locks -/

/-- Where `FastAccept` is with its locks. -/
structure Locking where
  locks : ℕ → RWLock
  locked : OrdSet ℕ
  res : Res := .success

/-- A lock is tried, and remembered if it was granted. -/
def Locking.tryLock (take : RWLock → Bool × RWLock) (row : ℕ) (v : Locking) : Locking :=
  let locks := Function.update v.locks row (take (v.locks row)).2
  if (take (v.locks row)).1 then { v with locks, locked := v.locked.insert row }
  else { v with locks, res := .reject }

/-- The loop over `read_vers_`, which expects no version to have been passed. -/
def Locking.lockReads (txn : ℕ) (rows : Rows D) : List (Column × ℕ) → Locking → Option Locking
  | [], v => some v
  | (c, ver) :: vers, v =>
    if rows.ver c > ver then none
    else lockReads txn rows vers (v.tryLock (RWLock.rlockBy txn) c.row)

/-- Locks of one kind are tried on all the rows. -/
def Locking.lockRows (take : RWLock → Bool × RWLock) (rows : List ℕ) (v : Locking) : Locking :=
  rows.foldl (fun v row => v.tryLock take row) v

/-- The rows of `write_bufs_`. -/
def TapirDTxn.writeRows (t : TapirDTxn D) : List ℕ := (t.writeBufs.keys.map Column.row).dedup

/-- The loop over `locked_rows_`. -/
def unlockRows (txn : ℕ) : List ℕ → (ℕ → RWLock) → Option (ℕ → RWLock)
  | [], locks => some locks
  | row :: rows, locks =>
    if ((locks row).unlockBy txn).1 then
      unlockRows txn rows (Function.update locks row ((locks row).unlockBy txn).2)
    else none

/-! ### The replica -/

/-- A column a dispatch of a transaction has returned, with its version then. -/
structure Returned where
  txn : ℕ
  col : Column
  ver : ℕ
  deriving DecidableEq

structure TapirSched (D : Type) where
  rows : Rows D
  locks : ℕ → RWLock := fun _ => .free
  execs : ℕ → Option (TapirExecutor D) := fun _ => none
  votes : List (ℕ × Res) := []
  returned : List Returned := []

namespace TapirSched

variable (txn : ℕ) (cmds : List (SimpleCommand D)) (s : TapirSched D)

def getOrCreateExecutor : TapirExecutor D := (s.execs txn).getD {}

def setExec (x : Option (TapirExecutor D)) : TapirSched D :=
  { s with execs := Function.update s.execs txn x }

/-- The pieces of a message run for the transaction. -/
def execution : Execution D :=
  execute s.rows cmds (s.getOrCreateExecutor txn)

def onDispatch : Option (TapirSched D) :=
  if cmds.isEmpty then none
  else
    let e := s.execution txn cmds
    let x : TapirExecutor D := { s.getOrCreateExecutor txn with toTapirDTxn := e.txn }
    some { s.setExec txn (some x) with
      returned := s.returned ++
        (e.reads.filter (·.2)).map fun r => ⟨txn, r.1, s.rows.ver r.1⟩ }

/-- `FastAccept`, after the pieces have run. -/
def validate (e : Execution D) : Option Locking :=
  let v : Locking := ⟨s.locks, (s.getOrCreateExecutor txn).lockedRows, .success⟩
  if validates cmds e then
    (v.lockReads txn s.rows e.txn.readVers.entries).map
      (Locking.lockRows (RWLock.wlockBy txn) e.txn.writeRows)
  else some { v with res := .reject }

/-- `OnFastAccept`, with the answer. -/
def onFastAccept : Option (Res × TapirSched D) :=
  if cmds.isEmpty then none
  else
    let e := s.execution txn cmds
    (s.validate txn cmds e).map fun v =>
      (v.res, { s.setExec txn (some { toTapirDTxn := e.txn, lockedRows := v.locked }) with
        locks := v.locks
        votes := s.votes ++ [(txn, v.res)] })

/-- `OnDecide`: `Commit` or `Abort`. -/
def onDecide (commit : Bool) : Option (TapirSched D) :=
  (s.execs txn).bind fun x =>
    (unlockRows txn x.lockedRows.elems s.locks).map fun locks =>
      { s.setExec txn none with
        rows := if commit then x.writeBufs.entries.foldl Rows.update s.rows else s.rows
        locks }

/-- The messages a replica gets. -/
inductive Event (D : Type) where
  | dispatch (txn : ℕ) (cmds : List (SimpleCommand D))
  | fastAccept (txn : ℕ) (cmds : List (SimpleCommand D))
  | decide (txn : ℕ) (commit : Bool)

def step : Event D → Option (TapirSched D)
  | .dispatch txn cmds => s.onDispatch txn cmds
  | .fastAccept txn cmds => (s.onFastAccept txn cmds).map Prod.snd
  | .decide txn commit => s.onDecide txn commit

/-- The messages of a transaction come in the order its coordinator sends them: its dispatches, one
    fast accept, one decision, which is to commit only if the fast accept was answered with
    success. -/
def Proper : Event D → Prop
  | .dispatch txn _ => ∀ v ∈ s.votes, v.1 ≠ txn
  | .fastAccept txn _ => ∀ v ∈ s.votes, v.1 ≠ txn
  | .decide txn commit => (s.execs txn).isSome ∧ (∃ v ∈ s.votes, v.1 = txn) ∧
      (commit = true → (txn, Res.success) ∈ s.votes)

instance (s : TapirSched D) : (e : Event D) → Decidable (Proper s e)
  | .dispatch txn _ => inferInstanceAs (Decidable (∀ v ∈ s.votes, v.1 ≠ txn))
  | .fastAccept txn _ => inferInstanceAs (Decidable (∀ v ∈ s.votes, v.1 ≠ txn))
  | .decide txn commit => inferInstanceAs (Decidable ((s.execs txn).isSome ∧
      (∃ v ∈ s.votes, v.1 = txn) ∧ (commit = true → (txn, Res.success) ∈ s.votes)))

end TapirSched

end Fiss.Tapir
