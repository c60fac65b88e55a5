import Fiss.Schemes.Dict
import Fiss.Schemes.Runs

/-! The locks a piece has under two-phase locking when it runs. `OnDispatch` runs the handler of the
    piece once without effect to collect the columns it asks for, hands them to a group of locks, and
    runs the handler again when the group has every lock.

    A handler is a tree of accesses, since what it does next may depend on what it read: on the first
    run a read leaves its buffer as it was (`blank`), and between the runs the data may change. An
    access marked `TXN_BYPASS` goes to the data in both runs and asks for no lock. Inserts, row locks
    (`row_lock_` is never set) and the outputs of a piece are left out. -/

namespace Fiss.Tpl
open List Dict

inductive LockType where
  | rlock
  | wlock
  deriving DecidableEq

/-- The hint of an access; `TXN_SAFE` is `TXN_INSTANT`. -/
inductive Hint where
  | bypass
  | instant
  | deferred
  deriving DecidableEq

/-- A handler, over columns `C` (each with its row and its lock) and values `V`. -/
inductive Piece (C V : Type) where
  | done
  | read (col : C) (hint : Hint) (next : V → Piece C V)
  | write (col : C) (hint : Hint) (value : V) (next : Piece C V)

/-- The columns a handler went to, and whether it wrote them. -/
abbrev Accesses (C : Type) := List (C × Bool)

variable {C V : Type} [DecidableEq C]

structure TPLDTxn (C V : Type) where
  locks : List (C × LockType) := []
  locking : Bool := false
  /-- what the database transaction reads -/
  data : C → V
  accesses : Accesses C := []

namespace TPLDTxn

omit [DecidableEq C] in
def readColumn (blank : V) (col : C) (hint : Hint) (t : TPLDTxn C V) : V × TPLDTxn C V :=
  if t.locking ∧ hint ≠ .bypass then (blank, { t with locks := t.locks ++ [(col, .rlock)] })
  else (t.data col, { t with accesses := t.accesses ++ [(col, false)] })

def writeColumn (col : C) (hint : Hint) (value : V) (t : TPLDTxn C V) : TPLDTxn C V :=
  if t.locking ∧ hint ≠ .bypass then { t with locks := t.locks ++ [(col, .wlock)] }
  else { t with
    data := Function.update t.data col value
    accesses := t.accesses ++ [(col, true)] }

end TPLDTxn

/-- The handler runs. -/
def Piece.run (blank : V) : Piece C V → TPLDTxn C V → TPLDTxn C V
  | .done, t => t
  | .read col hint next, t =>
    (next (t.readColumn blank col hint).1).run blank (t.readColumn blank col hint).2
  | .write col hint value next, t => next.run blank (t.writeColumn col hint value)

/-! ### The group of locks -/

inductive ALockGroup.Status where
  | init
  | wait
  | lock
  | timeout
  deriving DecidableEq

/-- The locks of a piece, with the requests of `lock_all` that have no answer yet and the number of
    answers. -/
structure ALockGroup (C : Type) where
  tolock : Dict C LockType := {}
  requests : Dict C LockType := {}
  waiting : List C := []
  triggered : ℕ := 0
  /-- the granted requests -/
  locked : Dict C ℕ := {}
  status : ALockGroup.Status := .init

namespace ALockGroup

def add (g : ALockGroup C) (l : C × LockType) : ALockGroup C :=
  { g with tolock := g.tolock.set l.1 l.2 }

def lockAll (g : ALockGroup C) : ALockGroup C :=
  { g with
    tolock := {}
    requests := g.tolock
    waiting := g.tolock.keys
    triggered := 0
    status := .wait }

/-- How a column is locked for the piece. -/
def held (g : ALockGroup C) (col : C) : Option LockType :=
  if (g.locked.find col).isSome then g.requests.find col else none

end ALockGroup

/-! ### A piece and its two runs -/

/-- The second run, with the locks the piece had. -/
structure Pass (C : Type) where
  accesses : Accesses C
  held : C → Option LockType

/-- A piece that was dispatched. -/
structure TplExecutor (C V : Type) where
  dtxn : TPLDTxn C V
  group : ALockGroup C := {}
  wounded : Bool := false
  passes : List (Pass C) := []

namespace TplExecutor

def lockSucceeded (piece : Piece C V) (blank : V) (x : TplExecutor C V) : TplExecutor C V :=
  if x.wounded then x
  else
    let t := piece.run blank { x.dtxn with accesses := [], locking := false }
    { x with dtxn := t, passes := x.passes ++ [⟨t.accesses, x.group.held⟩] }

/-- The first run of the handler. -/
def dryRun (piece : Piece C V) (blank : V) (data : C → V) : TPLDTxn C V :=
  { piece.run blank { locking := true, data } with locking := false }

/-- `OnDispatch`, with `reg_rw_lock`. -/
def onDispatch (piece : Piece C V) (blank : V) (data : C → V) : TplExecutor C V :=
  let t := dryRun piece blank data
  if t.locks.isEmpty then lockSucceeded piece blank { dtxn := t }
  else { dtxn := t, group := (t.locks.foldl ALockGroup.add {}).lockAll }

/-- One more lock has answered; the last answer decides. -/
def trigger (piece : Piece C V) (blank : V) (x : TplExecutor C V) : TplExecutor C V :=
  let x := { x with group := { x.group with triggered := x.group.triggered + 1 } }
  if x.group.triggered = x.group.requests.entries.length then
    if x.group.status = .wait then
      lockSucceeded piece blank { x with group := { x.group with status := .lock } }
    else { x with group := { x.group with locked := {} } }
  else x

/-- What happens to a piece: a lock answers, with the id of the request it grants or with a refusal;
    an older transaction takes away a granted lock, of this piece or of another of its transaction;
    other transactions change the data. -/
inductive Event (C V : Type) where
  | yes (col : C) (id : ℕ)
  | no (col : C)
  | wound (col : C)
  | woundOther
  | change (data : C → V)

/-- A lock answers a request that waits, and wounds one that it has granted. -/
def step (piece : Piece C V) (blank : V) (x : TplExecutor C V) :
    Event C V → Option (TplExecutor C V)
  | .yes col id =>
    if col ∈ x.group.waiting then
      some (trigger piece blank { x with group := { x.group with
        waiting := x.group.waiting.erase col, locked := x.group.locked.set col id } })
    else none
  | .no col =>
    if col ∈ x.group.waiting then
      some (trigger piece blank { x with group := { x.group with
        waiting := x.group.waiting.erase col, status := .timeout } })
    else none
  | .wound col =>
    if (x.group.locked.find col).isSome then
      some { x with wounded := true, group := { x.group with locked := x.group.locked.erase col } }
    else none
  | .woundOther => some { x with wounded := true }
  | .change data => some { x with dtxn := { x.dtxn with data } }

/-! ### What is held in the second run -/

/-- The last lock asked for of a column. -/
def lastLock (locks : List (C × LockType)) (col : C) : Option LockType := locks.reverse.lookup col

/-- Every column the handler writes is locked for writing, every column it reads is locked. -/
def Covered (p : Pass C) : Prop :=
  ∀ a ∈ p.accesses, if a.2 then p.held a.1 = some .wlock else (p.held a.1).isSome

/-- What the first run asked for last of a column is a write lock, if the column is written. -/
def AskedLast (locks : List (C × LockType)) (accesses : Accesses C) : Prop :=
  ∀ a ∈ accesses, if a.2 then lastLock locks a.1 = some .wlock else (lastLock locks a.1).isSome

/-- The requests of a piece that asked for `locks`. -/
def requestsOf (locks : List (C × LockType)) : Dict C LockType :=
  (locks.foldl ALockGroup.add {}).tolock

/-- Of the requests of a piece, those that were answered were granted, as long as none was refused;
    and each second run had what was asked for last. -/
structure Inv (locks : List (C × LockType)) (x : TplExecutor C V) : Prop where
  requests : x.group.requests = requestsOf locks
  nodup : x.group.waiting.Nodup
  count : x.group.triggered + x.group.waiting.length = (requestsOf locks).entries.length
  granted : x.group.status = .wait → x.wounded = false → ∀ col ∈ (requestsOf locks).keys,
    col ∉ x.group.waiting → (x.group.locked.find col).isSome
  held : ∀ p ∈ x.passes, ∀ col, p.held col = lastLock locks col

variable {piece : Piece C V} {blank : V} {locks : List (C × LockType)} {x x' : TplExecutor C V}

theorem requestsOf_concat (locks : List (C × LockType)) (l : C × LockType) :
    requestsOf (locks ++ [l]) = (requestsOf locks).set l.1 l.2 := by
  rw [requestsOf, foldl_append]
  rfl

theorem find_requestsOf (locks : List (C × LockType)) (col : C) :
    (requestsOf locks).find col = lastLock locks col := by
  induction locks using reverseRecOn with
  | nil => rfl
  | append_singleton locks l ih =>
    rw [requestsOf_concat, find_set, lastLock, reverse_append, reverse_singleton,
      singleton_append, lookup_cons]
    by_cases hcol : col = l.1
    · rw [if_pos hcol, hcol, beq_self_eq_true]
    · rw [if_neg hcol, beq_eq_false_iff_ne.mpr hcol]
      exact ih

theorem nodup_requestsOf (locks : List (C × LockType)) : (requestsOf locks).keys.Nodup := by
  induction locks using reverseRecOn with
  | nil => exact nodup_nil
  | append_singleton locks l ih =>
    rw [requestsOf_concat]
    exact nodup_keys_set ih l.1 l.2

theorem Inv.lockSucceeded (h : Inv locks x)
    (hheld : x.wounded = false → ∀ col, x.group.held col = lastLock locks col) :
    Inv locks (lockSucceeded piece blank x) := by
  rw [TplExecutor.lockSucceeded]
  split
  · exact h
  · next hw =>
    have hheld' := hheld (eq_false_of_ne_true hw)
    exact { h with
      held := forall_mem_concat h.held hheld' }

theorem Inv.held_all (h : Inv locks x) (hnone : x.group.waiting = []) (hwait : x.group.status = .wait)
    (hw : x.wounded = false) (col : C) : x.group.held col = lastLock locks col := by
  rw [ALockGroup.held, h.requests, find_requestsOf]
  split
  · rfl
  · next hnot =>
    by_contra hsome
    have hkey : col ∈ (requestsOf locks).keys := by
      rw [Dict.mem_keys, find_requestsOf, Option.isSome_iff_ne_none]
      exact fun hn => hsome hn.symm
    exact hnot (h.granted hwait hw col hkey (hnone ▸ not_mem_nil))

theorem Inv.trigger {waiting : List C} {n : ℕ} (hlen : waiting.length + 1 = n)
    (hnodup : waiting.Nodup) (hx : x.group.waiting = waiting)
    (hrequests : x.group.requests = requestsOf locks)
    (hcount : x.group.triggered + n = (requestsOf locks).entries.length)
    (hgranted : x.group.status = .wait → x.wounded = false → ∀ col ∈ (requestsOf locks).keys,
      col ∉ waiting → (x.group.locked.find col).isSome)
    (hheld : ∀ p ∈ x.passes, ∀ col, p.held col = lastLock locks col) :
    Inv locks (trigger piece blank x) := by
  subst hx
  have h : Inv locks { x with group := { x.group with triggered := x.group.triggered + 1 } } := by
    refine ⟨hrequests, hnodup, ?_, hgranted, hheld⟩
    show x.group.triggered + 1 + x.group.waiting.length = _
    omega
  rw [TplExecutor.trigger]
  dsimp only
  split
  · next hall =>
    have hnone : x.group.waiting = [] := by
      rw [hrequests] at hall
      exact length_eq_zero_iff.mp (by omega)
    split
    · next hwait =>
      refine Inv.lockSucceeded { h with granted := fun hlock => by cases hlock } fun hw => ?_
      exact h.held_all hnone hwait hw
    · next hnot => exact { h with granted := fun hwait => absurd hwait hnot }
  · exact h

theorem inv_step (h : Inv locks x) (e : Event C V) (hstep : step piece blank x e = some x') :
    Inv locks x' := by
  cases e with
  | yes col id =>
    rw [step] at hstep
    split at hstep
    · next hcol =>
      cases hstep
      refine Inv.trigger (length_erase_add_one hcol) (h.nodup.erase col) rfl h.requests h.count
        (fun hwait hw k hk hnot => ?_) h.held
      show ((x.group.locked.set col id).find k).isSome
      rw [find_set]
      split
      · rfl
      · next hne =>
        exact h.granted hwait hw k hk fun hin => hnot (mem_erase_of_ne hne |>.mpr hin)
    · cases hstep
  | no col =>
    rw [step] at hstep
    split at hstep
    · next hcol =>
      cases hstep
      exact Inv.trigger (length_erase_add_one hcol) (h.nodup.erase col) rfl h.requests h.count
        (fun hwait => by cases hwait) h.held
    · cases hstep
  | wound col =>
    rw [step] at hstep
    split at hstep
    · cases hstep
      exact { h with granted := fun _ hw => by cases hw }
    · cases hstep
  | woundOther =>
    cases hstep
    exact { h with granted := fun _ hw => by cases hw }
  | change data =>
    cases hstep
    exact { h with }

theorem inv_onDispatch (piece : Piece C V) (blank : V) (data : C → V) :
    Inv (dryRun piece blank data).locks (onDispatch piece blank data) := by
  rw [onDispatch]
  split
  · next hnil =>
    have hlocks : (dryRun piece blank data).locks = [] := isEmpty_iff.mp hnil
    rw [hlocks]
    refine Inv.lockSucceeded ⟨rfl, nodup_nil, rfl, fun hwait => (by cases hwait), fun p hp => ?_⟩
      fun _ _ => rfl
    cases hp
  · refine ⟨rfl, nodup_requestsOf _, ?_, fun _ _ col hk hnot => absurd hk hnot, fun p hp => ?_⟩
    · show 0 + (requestsOf (dryRun piece blank data).locks).keys.length = _
      rw [Nat.zero_add, Dict.keys, length_map]
    · cases hp

/-- In the second run of a piece every column it writes is locked for writing and every column it
    reads is locked, exactly if the first run asked for a lock of each of these columns, and last for
    a write lock of those that are written. -/
theorem write_coverage (piece : Piece C V) (blank : V) (data : C → V) (es : List (Event C V))
    (x : TplExecutor C V) (h : run (step piece blank) (onDispatch piece blank data) es = some x) :
    ∀ p ∈ x.passes, Covered p ↔ AskedLast (dryRun piece blank data).locks p.accesses := by
  intro p hp
  have hinv : Inv (dryRun piece blank data).locks x :=
    run_inv (fun s e s' hs hstep => inv_step hs e hstep) (inv_onDispatch piece blank data) h
  unfold Covered AskedLast
  simp only [hinv.held p hp]

/-- A column that is read again after it was written. -/
def readBack : Piece ℕ ℕ := .write 0 .instant 5 (.read 0 .instant fun _ => .done)

def readFirst : Piece ℕ ℕ := .read 0 .instant fun v => .write 0 .instant (v + 1) .done

theorem write_coverage_readFirst : ∃ x,
    run (step readFirst 0) (onDispatch readFirst 0 fun _ => 3) [.yes 0 1] = some x ∧
      x.passes.length = 1 ∧ ∀ p ∈ x.passes, Covered p ↔
        AskedLast (dryRun readFirst 0 fun _ => 3).locks p.accesses :=
  ⟨_, rfl, rfl, write_coverage readFirst 0 (fun _ => 3) [.yes 0 1] _ rfl⟩

/-- It is written under a read lock. -/
theorem written_under_rlock : ∃ x p,
    run (step readBack 0) (onDispatch readBack 0 fun _ => 3) [.yes 0 1] = some x ∧ p ∈ x.passes ∧
      (0, true) ∈ p.accesses ∧ p.held 0 = some .rlock :=
  ⟨_, _, rfl, mem_singleton_self _, mem_cons_self, rfl⟩

end TplExecutor

end Fiss.Tpl
