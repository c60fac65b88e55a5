import Fiss.Memdb.RWLock
import Fiss.Occ.Txn
import Fiss.Schemes.OrdMap
import Fiss.Schemes.Runs

/-! A server of the optimistic scheme: its rows with their locks, and the transactions that run
    there. `Prepare` checks the versions a transaction has recorded, then locks the rows it has read
    and those it will write; at the first lock that is refused it gives up all it has. `Commit`
    inserts, writes and removes, then unlocks all but the rows it has removed.

    A transaction is made by the first message that needs it. The tables are sorted ones (the
    configuration makes no others), so that a write goes to the row itself. An event for which a
    check fails, or which would use the table of a row that has none, gives no state. -/

namespace Fiss.Occ

open Memdb Function

/-! ### Locks -/

/-- Where `Prepare` is with its locks: those of all rows, and `locks_`. -/
structure Locking where
  locks : ℕ → RWLock
  held : List ℕ

/-- One loop of `Prepare`, up to the first lock that is refused. -/
def Locking.lockRows (take : RWLock → Bool × RWLock) : List ℕ → Locking → Bool × Locking
  | [], l => (true, l)
  | row :: rows, l =>
    if (take (l.locks row)).1 then
      lockRows take rows
        ⟨update l.locks row (take (l.locks row)).2, l.held ++ [row]⟩
    else (false, { l with locks := update l.locks row (take (l.locks row)).2 })

/-- Both loops: the rows that were read, then those that will be written. -/
def TxnOCC.lockCommit {D : Type} (txn : ℕ) (locks : ℕ → RWLock) (t : TxnOCC D) : Bool × Locking :=
  let p := Locking.lockRows (RWLock.rlockBy txn) t.readRows ⟨locks, t.locks⟩
  if p.1 then p.2.lockRows (RWLock.wlockBy txn) t.updatedRows else p

/-- The locks of the rows are given up, held or not. -/
def unlockRows (txn : ℕ) (rows : List ℕ) (locks : ℕ → RWLock) : ℕ → RWLock :=
  rows.foldl (fun locks row => update locks row ((locks row).unlockBy txn).2) locks

/-! ### What a commit does to the rows -/

variable {D : Type}

/-- `it.table->insert(it.row)`; `set_table` expects the row to be in no table. -/
def insertInto (rows : ℕ → VersionedRow D) (p : ℕ × ℕ) : Option (ℕ → VersionedRow D) :=
  if (rows p.2).tbl = none then
    some (update rows p.2 { rows p.2 with tbl := some p.1 })
  else none

/-- A buffered write, to a row of a table. -/
def applyUpdate (rows : ℕ → VersionedRow D) (e : (ℕ × ℕ) × D) : Option (ℕ → VersionedRow D) :=
  if (rows e.1.1).tbl = none then none
  else some (update rows e.1.1 (((rows e.1.1).update e.1.2 e.2).incrColumnVer e.1.2))

/-- All versions of the row go up, and it leaves the table if it is there. -/
def removeFrom (rows : ℕ → VersionedRow D) (p : ℕ × ℕ) : ℕ → VersionedRow D :=
  let r := (List.range (rows p.2).columns).foldl (fun r col => r.incrColumnVer col) (rows p.2)
  update rows p.2 (if r.tbl = some p.1 then { r with tbl := none } else r)

/-- What `Commit` does to the rows. -/
def TxnOCC.apply (t : TxnOCC D) (rows : ℕ → VersionedRow D) : Option (ℕ → VersionedRow D) :=
  (run insertInto rows t.inserts).bind fun rows =>
    (run applyUpdate rows t.updates.entries).map fun rows => t.removes.foldl removeFrom rows

theorem proj_update {α : Type} {rows : ℕ → VersionedRow D} {row : ℕ} {r : VersionedRow D}
    (f : VersionedRow D → α) (h : f r = f (rows row)) (row' : ℕ) :
    f (update rows row r row') = f (rows row') := by
  rcases eq_or_ne row' row with rfl | hne
  · rw [update_self, h]
  · rw [update_of_ne hne]

/-! ### The server -/

structure OCCSched (D : Type) where
  rows : ℕ → VersionedRow D
  locks : ℕ → RWLock := fun _ => .free
  mdbTxns : OrdMap ℕ (TxnOCC D) := .empty

namespace OCCSched

def getMdbTxn (txn : ℕ) (s : OCCSched D) : TxnOCC D := (s.mdbTxns.find txn).getD {}

theorem getMdbTxn_eq {s : OCCSched D} {txn : ℕ} {t : TxnOCC D} (h : s.mdbTxns.find txn = some t) :
    s.getMdbTxn txn = t := by
  rw [getMdbTxn, h]
  rfl

def setTxn (txn : ℕ) (t : TxnOCC D) (s : OCCSched D) : OCCSched D :=
  { s with mdbTxns := s.mdbTxns.set txn t }

/-- `OCCExecutor::Prepare`, with what it returns. -/
def prepare (txn : ℕ) (s : OCCSched D) : Option (Bool × OCCSched D) :=
  let t := s.getMdbTxn txn
  if t.verified then none
  else (t.versionCheck s.rows).map fun ok =>
    if ok then
      let p := t.lockCommit txn s.locks
      if p.1 then
        (true, { s.setTxn txn { t with locks := p.2.held, verified := true } with
          locks := p.2.locks })
      else
        (false, { s.setTxn txn { t with locks := [] } with
          locks := unlockRows txn p.2.held p.2.locks })
    else (false, s.setTxn txn t)

/-- `OCCExecutor::Commit`; the locks of rows that it removes are forgotten. -/
def commit (txn : ℕ) (s : OCCSched D) : Option (OCCSched D) :=
  (s.mdbTxns.find txn).bind fun t =>
    if t.verified then
      (t.apply s.rows).map fun rows =>
        { rows
          locks := unlockRows txn (t.locks.filter fun row => row ∉ t.removedRows) s.locks
          mdbTxns := s.mdbTxns.erase txn }
    else none

/-- `ClassicExecutor::Abort` and `TxnOCC::abort`. -/
def abort (txn : ℕ) (s : OCCSched D) : Option (OCCSched D) :=
  (s.mdbTxns.find txn).map fun t =>
    { s with locks := unlockRows txn t.locks s.locks, mdbTxns := s.mdbTxns.erase txn }

inductive Event (D : Type) where
  | read (txn row col : ℕ)
  | write (txn row col : ℕ) (value : D)
  | insert (txn tbl row : ℕ)
  | remove (txn tbl row : ℕ)
  | prepare (txn : ℕ)
  | commit (txn : ℕ)
  | abort (txn : ℕ)
  | commitTxn (txn : ℕ)

def step (s : OCCSched D) : Event D → Option (OCCSched D)
  | .read txn row col =>
    ((s.getMdbTxn txn).readColumn row col (s.rows row)).map fun p => s.setTxn txn p.2
  | .write txn row col value =>
    ((s.getMdbTxn txn).writeColumn row col value (s.rows row)).map fun p =>
      { s.setTxn txn p.2 with rows := update s.rows row p.1 }
  | .insert txn tbl row => ((s.getMdbTxn txn).insertRow tbl row (s.rows row)).map (s.setTxn txn ·)
  | .remove txn tbl row => ((s.getMdbTxn txn).removeRow tbl row (s.rows row)).map (s.setTxn txn ·)
  | .prepare txn => (s.prepare txn).map Prod.snd
  | .commit txn => s.commit txn
  | .abort txn => s.abort txn
  | .commitTxn txn => ((s.getMdbTxn txn).commit s.rows).map fun _ => s

end OCCSched

end Fiss.Occ
