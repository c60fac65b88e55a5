import Fiss.Schemes.Dict

/-! A transaction of the optimistic scheme (`TxnOCC`): what it reads, writes, inserts and removes
    before it commits. The version of a column of a table is recorded when it is first read, those
    of all columns of a row when the row is removed; a write is only buffered. What is done to a row
    outside the tables is done to the row itself.

    Rows, tables and columns are numbers, and a column is one of its row's schema. An operation
    gives nothing when a check fails (`verify`, or the assertion that a transaction leaves alone the
    rows it has removed). An ended transaction is deleted, so that `outcome_` is always `NONE`. The
    policy is `OCC_LAZY` and the transaction not read only, as `TxnMgrOCC::start` makes it;
    `reads_`, which nothing reads, and the reference counts are left out: a row is never freed. -/

namespace Fiss.Occ
open Prod

structure VersionedRow (D : Type) where
  tbl : Option ℕ := none
  columns : ℕ
  data : ℕ → D
  ver : ℕ → ℕ := fun _ => 0

namespace VersionedRow

variable {D : Type} (r : VersionedRow D)

def update (col : ℕ) (value : D) : VersionedRow D :=
  { r with data := Function.update r.data col value }

def incrColumnVer (col : ℕ) : VersionedRow D :=
  { r with ver := Function.update r.ver col (r.ver col + 1) }

end VersionedRow

/-- `locks_` has the rows that are locked, whatever the column; `inserts_` and `removes_` have
    tables with rows. -/
structure TxnOCC (D : Type) where
  verCheckRead : Dict (ℕ × ℕ) ℕ := {}
  verCheckWrite : Dict (ℕ × ℕ) ℕ := {}
  updates : Dict (ℕ × ℕ) D := {}
  inserts : List (ℕ × ℕ) := []
  removes : List (ℕ × ℕ) := []
  locks : List ℕ := []
  verified : Bool := false

namespace TxnOCC

variable {D : Type} (t : TxnOCC D)

/-- The rows with a column in `ver_check_read_`. -/
def readRows : List ℕ := t.verCheckRead.keys.map fst

/-- Those with a column in `updates_`. -/
def updatedRows : List ℕ := t.updates.keys.map fst

def insertedRows : List ℕ := t.inserts.map snd

def removedRows : List ℕ := t.removes.map snd

def debugCheckRowValid (row : ℕ) : Bool := row ∉ t.removedRows

def debugCheckReadVersion (rowCol : ℕ × ℕ) (verNow : ℕ) : Bool :=
  (t.verCheckRead.find rowCol).all fun verRead => verNow ≤ verRead

def readColumn (row col : ℕ) (r : VersionedRow D) : Option (D × TxnOCC D) :=
  if t.debugCheckRowValid row then
    if r.tbl = none then some (r.data col, t)
    else match t.updates.find (row, col) with
      | some value => some (value, t)
      | none =>
        let t := { t with verCheckRead := t.verCheckRead.insert (row, col) (r.ver col) }
        if t.debugCheckReadVersion (row, col) (r.ver col) then some (r.data col, t) else none
  else none

/-- `write_column`, with the row it may have written to. -/
def writeColumn (row col : ℕ) (value : D) (r : VersionedRow D) : Option
    (VersionedRow D × TxnOCC D) :=
  if t.debugCheckRowValid row then
    if r.tbl = none then some (r.update col value, t)
    else match t.updates.find (row, col) with
      | some _ => some (r, { t with updates := t.updates.modify (row, col) fun _ => value })
      | none =>
        if t.debugCheckReadVersion (row, col) (r.ver col) then
          some (r, { t with updates := t.updates.insert (row, col) value })
        else none
  else none

def insertRow (tbl row : ℕ) (r : VersionedRow D) : Option (TxnOCC D) :=
  if r.tbl = none then
    some { t with inserts := t.inserts ++ [(tbl, row)], removes := t.removes.erase (tbl, row) }
  else none

/-- `updates_.erase(row)`. -/
def eraseUpdates (row : ℕ) (t : TxnOCC D) : TxnOCC D :=
  { t with updates := ⟨t.updates.entries.filter fun e => e.1.1 ≠ row⟩ }

/-- The versions of the whole row are remembered, those that are not there yet. -/
def rememberRow (row : ℕ) (r : VersionedRow D) (m : Dict (ℕ × ℕ) ℕ) : Dict (ℕ × ℕ) ℕ :=
  (List.range r.columns).foldl (fun m col => m.insert (row, col) (r.ver col)) m

def removeRow (tbl row : ℕ) (r : VersionedRow D) : Option (TxnOCC D) :=
  if t.debugCheckRowValid row then
    if (tbl, row) ∈ t.inserts then
      some (eraseUpdates row { t with inserts := t.inserts.erase (tbl, row) })
    else some (eraseUpdates row { t with
      verCheckWrite := rememberRow row r t.verCheckWrite
      removes := t.removes.insert (tbl, row) })
  else none

def debugVersionCheck : Bool :=
  t.verCheckRead.entries.all fun e =>
    (t.verCheckWrite.find e.1).all fun verWrite => verWrite ≤ e.2

/-- `version_check` of one of the maps. -/
def unchanged (rows : ℕ → VersionedRow D) (verInfo : Dict (ℕ × ℕ) ℕ) : Bool :=
  verInfo.entries.all fun e => (rows e.1.1).ver e.1.2 = e.2

def versionCheck (rows : ℕ → VersionedRow D) : Option Bool :=
  if t.debugVersionCheck then some (unchanged rows t.verCheckRead && unchanged rows t.verCheckWrite)
  else none

/-- `TxnOCC::commit`, whose `commit_confirm` is `verify(0)`. -/
def commit (rows : ℕ → VersionedRow D) : Option Bool :=
  (t.versionCheck rows).bind fun ok => if ok then none else some false

end TxnOCC

end Fiss.Occ
