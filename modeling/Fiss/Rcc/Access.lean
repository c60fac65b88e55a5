import Fiss.Rcc.DTxn

/-! What a handler does to the tables: `ReadColumn`, `WriteColumn` and `InsertRow` by the phase of
    the transaction and the hint of the call, and `TraceDep`, which makes the last transaction noted
    at a cell a parent. A handler is a program of such calls (`Prog`).

    The value rendering and the key columns of a shipped update are left out; what is shipped is
    told by its cell and value. -/

namespace Fiss.Rcc
open Option List
open Relation (ReflTransGen)

inductive Hint where
  | bypass
  | instant
  | deferred
  deriving DecidableEq

/-- A row of a table. -/
structure Row where
  table : ℕ
  cols : List Value
  deriving DecidableEq

inductive OpType where
  | update
  | insert
  deriving DecidableEq

/-- A column handed to `TransferUpdate`. -/
structure Shipment where
  txn : ℕ
  op : OpType
  table : ℕ
  row : ℕ
  col : ℕ
  value : Value
  deriving DecidableEq

/-- One run of a handler: the piece by its position in its transaction, with what it took, gave and
    shipped. -/
structure Ran where
  txn : ℕ
  piece : ℕ
  phase : Phase
  input : TxnWorkspace
  output : Dict ℕ Value
  ships : List Shipment
  deriving DecidableEq

/-- The tables with the dependency entries of their cells, the columns shipped, and, for the record,
    the handler runs so far and the accesses that were to be traced. A row is named by its position. -/
structure Store where
  rows : List Row := []
  last : Dict (ℕ × ℕ) ℕ := {}
  shipped : List Shipment := []
  ran : List Ran := []
  traced : List (ℕ × ℕ × ℕ) := []
  deriving DecidableEq

/-- A handler. A read that leaves its value alone continues with none. -/
inductive Prog where
  | done (output : Dict ℕ Value)
  | read (row col : ℕ) (hint : Hint) (k : Option Value → Prog)
  | write (row col : ℕ) (value : Value) (hint : Hint) (k : Prog)
  | insert (table : ℕ) (cols : List Value) (k : Prog)

/-- Who runs a handler: the transaction, its phase, and whether the site ships its updates. -/
structure Runner where
  id : ℕ
  phase : Phase
  leader : Bool

/-- What a handler changes: the store, and the parents of its transaction. -/
structure Acc where
  store : Store
  parents : OrdSet ℕ

namespace Store

def cell (s : Store) (row col : ℕ) : Option Value := (s.rows[row]?).bind fun r => r.cols[col]?

def setCell (s : Store) (row col : ℕ) (v : Value) : Store :=
  { s with rows := s.rows.modify row fun r => { r with cols := r.cols.set col v } }

end Store

namespace Runner

section

variable (me : Runner) (row col : ℕ)

def traceDep (a : Acc) : Acc :=
  if a.store.last.find (row, col) = some me.id then a
  else
    { store := { a.store with last := a.store.last.set (row, col) me.id }
      parents := (a.store.last.find (row, col)).elim a.parents a.parents.insert }

def readColumn (hint : Hint) (a : Acc) : Option (Option Value × Acc) :=
  (a.store.cell row col).bind fun v =>
    match me.phase with
    | .start => none
    | .dispatch => some (if hint = .deferred then none else some v,
        if hint = .bypass then a else me.traceDep row col a)
    | .commit => some (some v, a)

/-- The shipment of a column write; only a leader ships, and only when it commits. -/
def shipUpdate (v : Value) (s : Store) : Store :=
  if me.leader ∧ me.phase = .commit then
    { s with shipped := s.shipped ++
        [⟨me.id, .update, (s.rows[row]?).elim 0 fun r => r.table, row, col, v⟩] }
  else s

def writeColumn (v : Value) (hint : Hint) (a : Acc) : Option Acc :=
  (a.store.cell row col).bind fun _ =>
    let a := { a with store := me.shipUpdate row col v a.store }
    match me.phase with
    | .start => none
    | .dispatch =>
      let a := if hint = .deferred then a
        else me.traceDep row col { a with store := a.store.setCell row col v }
      some (if hint = .bypass then a else me.traceDep row col a)
    | .commit =>
      -- `verify(0)` on an instant write
      if hint = .instant then none else some { a with store := a.store.setCell row col v }

/-- `InsertRow`: in every phase the row goes into the table. -/
def insertRow (table : ℕ) (cols : List Value) (a : Acc) : Acc :=
  let shipped := if me.leader ∧ me.phase = .commit then
      cols.mapIdx fun col v => ⟨me.id, .insert, table, a.store.rows.length, col, v⟩
    else []
  { a with store := { a.store with
      rows := a.store.rows ++ [⟨table, cols⟩], shipped := a.store.shipped ++ shipped } }

/-- A handler from its first call to its output. -/
def exec (me : Runner) : Prog → Acc → Option (Dict ℕ Value × Acc)
  | .done output, a => some (output, a)
  | .read row col hint k, a => (me.readColumn row col hint a).bind fun r => me.exec (k r.1) r.2
  | .write row col v hint k, a => (me.writeColumn row col v hint a).bind (me.exec k)
  | .insert table cols k, a => me.exec k (me.insertRow table cols a)

/-- The cells a handler accesses and is to trace: in the dispatch phase all it reads or writes, but
    for reads that bypass. -/
def traced (me : Runner) : Prog → Acc → List (ℕ × ℕ)
  | .done _, _ => []
  | .read row col hint k, a => (me.readColumn row col hint a).elim [] fun r =>
      (if me.phase = .dispatch ∧ hint ≠ .bypass then [(row, col)] else []) ++ me.traced (k r.1) r.2
  | .write row col v hint k, a => (me.writeColumn row col v hint a).elim [] fun b =>
      (if me.phase = .dispatch then [(row, col)] else []) ++ me.traced k b
  | .insert table cols k, a => me.traced k (me.insertRow table cols a)

/-- One change a handler makes. It traces dependencies only while it is dispatched. -/
inductive Move (me : Runner) : Acc → Acc → Prop
  | trace (row col : ℕ) (a : Acc) : me.phase = .dispatch → Move me a (me.traceDep row col a)
  | ship (row col : ℕ) (v : Value) (a : Acc) :
      Move me a { a with store := me.shipUpdate row col v a.store }
  | write (row col : ℕ) (v : Value) (a : Acc) :
      Move me a { a with store := a.store.setCell row col v }
  | insert (table : ℕ) (cols : List Value) (a : Acc) : Move me a (me.insertRow table cols a)

end

variable {me : Runner} {p : Prog} {a a' : Acc} {out : Dict ℕ Value}
  {row col : ℕ} {hint : Hint} {r : Option Value × Acc}

/-! ### The changes of a handler -/

theorem readColumn_cases (h : me.readColumn row col hint a = some r) :
    r.2 = a ∨ me.phase = .dispatch ∧ r.2 = me.traceDep row col a := by
  obtain ⟨v, -, h⟩ := bind_eq_some_iff.mp h
  cases hph : me.phase with
  | start => simp [hph] at h
  | dispatch =>
    simp only [hph, some.injEq] at h
    subst h
    by_cases hb : hint = .bypass
    · exact .inl (if_pos hb)
    · exact .inr ⟨rfl, if_neg hb⟩
  | commit =>
    simp only [hph, some.injEq] at h
    subst h
    exact .inl rfl

theorem readColumn_moves
    (h : me.readColumn row col hint a = some r) : ReflTransGen me.Move a r.2 := by
  rcases readColumn_cases h with heq | ⟨hph, heq⟩
  · rw [heq]
  · rw [heq]
    exact .single (.trace row col a hph)

theorem writeColumn_moves {v : Value}
    (h : me.writeColumn row col v hint a = some a') : ReflTransGen me.Move a a' := by
  obtain ⟨u, -, h⟩ := bind_eq_some_iff.mp h
  have hship : ReflTransGen me.Move a { a with store := me.shipUpdate row col v a.store } :=
    .single (.ship row col v a)
  cases hph : me.phase with
  | start => simp [hph] at h
  | dispatch =>
    simp only [hph, some.injEq] at h
    subst h
    -- an instant write traces twice, the second time without effect
    have hfirst : ReflTransGen me.Move a (if hint = .deferred then
        { a with store := me.shipUpdate row col v a.store }
        else me.traceDep row col
          { a with store := (me.shipUpdate row col v a.store).setCell row col v }) := by
      split
      · exact hship
      · exact (hship.tail (.write row col v _)).tail (.trace row col _ hph)
    split
    · exact hfirst
    · exact hfirst.tail (.trace row col _ hph)
  | commit =>
    simp only [hph] at h
    split at h
    · cases h
    · obtain rfl := some.inj h
      exact hship.tail (.write row col v _)

theorem exec_moves : ∀ {p : Prog} {a : Acc}, me.exec p a = some (out, a') →
    ReflTransGen me.Move a a' := by
  intro p
  induction p with
  | done o =>
    intro a h
    obtain ⟨-, rfl⟩ := Prod.mk.inj (some.inj h)
    exact .refl
  | read row col hint k ih =>
    intro a h
    obtain ⟨r, hr, h⟩ := bind_eq_some_iff.mp h
    exact (readColumn_moves hr).trans (ih r.1 h)
  | write row col v hint k ih =>
    intro a h
    obtain ⟨b, hb, h⟩ := bind_eq_some_iff.mp h
    exact (writeColumn_moves hb).trans (ih h)
  | insert table cols k ih =>
    intro a h
    exact .head (.insert table cols a) (ih h)

/-! ### What a handler leaves alone -/

@[simp] theorem traceDep_rows (row col : ℕ) : (me.traceDep row col a).store.rows = a.store.rows := by
  unfold traceDep; split <;> rfl

@[simp] theorem traceDep_ran (row col : ℕ) : (me.traceDep row col a).store.ran = a.store.ran := by
  unfold traceDep; split <;> rfl

@[simp] theorem shipUpdate_rows (row col : ℕ) (v : Value) (s : Store) :
    (me.shipUpdate row col v s).rows = s.rows := by
  unfold shipUpdate; split <;> rfl

@[simp] theorem shipUpdate_ran (row col : ℕ) (v : Value) (s : Store) :
    (me.shipUpdate row col v s).ran = s.ran := by
  unfold shipUpdate; split <;> rfl

theorem readColumn_rows
    (h : me.readColumn row col hint a = some r) : r.2.store.rows = a.store.rows := by
  rcases readColumn_cases h with heq | ⟨-, heq⟩
  · rw [heq]
  · rw [heq, traceDep_rows]

theorem Move.ran (h : me.Move a a') : a'.store.ran = a.store.ran := by
  cases h with
  | trace row col _ _ => exact traceDep_ran row col
  | ship row col v _ => exact shipUpdate_ran row col v a.store
  | write row col v _ | insert table cols _ => rfl

theorem exec_ran (h : me.exec p a = some (out, a')) : a'.store.ran = a.store.ran := by
  replace h := exec_moves h
  induction h with
  | refl => rfl
  | tail _ hm ih => exact hm.ran.trans ih

/-! ### What a handler ships -/

@[simp] theorem traceDep_shipped (row col : ℕ) :
    (me.traceDep row col a).store.shipped = a.store.shipped := by
  unfold traceDep; split <;> rfl

theorem shipUpdate_shipped (me : Runner) (row col : ℕ) (v : Value) (s : Store) :
    ∃ extra, (me.shipUpdate row col v s).shipped = s.shipped ++ extra ∧
      (me.phase ≠ .commit → extra = []) := by
  unfold shipUpdate
  split
  · next hc => exact ⟨_, rfl, fun h => absurd hc.2 h⟩
  · exact ⟨[], (append_nil _).symm, fun _ => rfl⟩

theorem Move.shipped (h : me.Move a a') :
    ∃ extra, a'.store.shipped = a.store.shipped ++ extra ∧ (me.phase ≠ .commit → extra = []) := by
  cases h with
  | trace row col _ _ =>
    exact ⟨[], by rw [traceDep_shipped, append_nil], fun _ => rfl⟩
  | ship row col v _ => exact me.shipUpdate_shipped row col v a.store
  | write row col v _ => exact ⟨[], (append_nil _).symm, fun _ => rfl⟩
  | insert table cols _ => exact ⟨_, rfl, fun hph => if_neg fun hc => hph hc.2⟩

theorem exec_shipped (h : me.exec p a = some (out, a')) :
    ∃ extra, a'.store.shipped = a.store.shipped ++ extra ∧ (me.phase ≠ .commit → extra = []) := by
  replace h := exec_moves h
  induction h with
  | refl => exact ⟨[], (append_nil _).symm, fun _ => rfl⟩
  | tail _ hm ih =>
    obtain ⟨first, hfirst, hnone⟩ := ih
    obtain ⟨extra, hextra, hnone'⟩ := hm.shipped
    refine ⟨first ++ extra, by rw [hextra, hfirst, append_assoc], fun hph => ?_⟩
    rw [hnone hph, hnone' hph, append_nil]

/-! ### The commit phase -/

section
variable (hph : me.phase = .commit)
include hph

theorem readColumn_commit (row col : ℕ) (hint : Hint) :
    me.readColumn row col hint a = (a.store.cell row col).map fun v => (some v, a) := by
  rw [readColumn]
  cases a.store.cell row col with
  | none => rfl
  | some v => simp [hph]

theorem writeColumn_commit (row col : ℕ) (v : Value) (hint : Hint) :
    me.writeColumn row col v hint a = (a.store.cell row col).bind fun _ =>
      if hint = .instant then none
      else some { a with store := (me.shipUpdate row col v a.store).setCell row col v } := by
  rw [writeColumn]
  cases a.store.cell row col with
  | none => rfl
  | some w => simp [hph]

theorem Move.commit_parents (h : me.Move a a') : a'.parents = a.parents := by
  cases h with
  | trace row col _ hdispatch => cases hph.symm.trans hdispatch
  | ship row col v _ | write row col v _ | insert table cols _ => rfl

theorem exec_commit_parents (h : me.exec p a = some (out, a')) : a'.parents = a.parents := by
  replace h := exec_moves h
  induction h with
  | refl => rfl
  | tail _ hm ih => exact (hm.commit_parents hph).trans ih

theorem exec_commit_congr : ∀ {p : Prog} {a b : Acc},
    a.store.rows = b.store.rows → me.exec p a = some (out, a') →
      ∃ b', me.exec p b = some (out, b') ∧ a'.store.rows = b'.store.rows := by
  intro p
  induction p with
  | done o =>
    intro a b hab h
    obtain ⟨rfl, rfl⟩ := Prod.mk.inj (some.inj h)
    exact ⟨b, rfl, hab⟩
  | read row col hint k ih =>
    intro a b hab h
    obtain ⟨r, hr, h⟩ := bind_eq_some_iff.mp h
    rw [readColumn_commit hph] at hr
    obtain ⟨v, hv, rfl⟩ := map_eq_some_iff.mp hr
    obtain ⟨b', hb', hrows⟩ := ih (some v) hab h
    refine ⟨b', ?_, hrows⟩
    rw [exec, readColumn_commit hph, Store.cell, ← hab, ← Store.cell, hv]
    exact hb'
  | write row col v hint k ih =>
    intro a b hab h
    obtain ⟨c, hc, h⟩ := bind_eq_some_iff.mp h
    rw [writeColumn_commit hph] at hc
    obtain ⟨w, hw, hc⟩ := bind_eq_some_iff.mp hc
    split at hc
    · cases hc
    · next hhint =>
      obtain rfl := some.inj hc
      obtain ⟨b', hb', hrows⟩ := ih (b := { b with
        store := (me.shipUpdate row col v b.store).setCell row col v })
        (by simp [Store.setCell, hab]) h
      refine ⟨b', ?_, hrows⟩
      rw [exec, writeColumn_commit hph, Store.cell, ← hab, ← Store.cell, hw, bind_some,
        if_neg hhint]
      exact hb'
  | insert table cols k ih =>
    intro a b hab h
    exact ih (a := me.insertRow table cols a) (b := me.insertRow table cols b)
      (by simp [insertRow, hab]) h

end

end Runner

end Fiss.Rcc
