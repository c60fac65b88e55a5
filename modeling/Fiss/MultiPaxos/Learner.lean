import Fiss.Schemes.Dict
import Fiss.Schemes.Runs

/-! The learner of the replicated log: `OnCommit` runs the learner action for the next slot at once,
    and then for the slots after it whose commands came earlier and were kept by their executors; a
    command for a later slot is to be kept by its executor. But an executor comes with a transaction,
    and `Frame::CreateDTxn` makes none in the mode of the log and writes to it all the same: the
    first command that comes ahead of its turn ends the server.

    A failed `verify` and that write make `OnCommit` return nothing; the ballot is not read by it,
    and slot numbers are unbounded here. -/

namespace Fiss.MultiPaxos
open List Prod

variable {V : Type}

/-- The modes that `Frame::CreateDTxn` knows. -/
inductive Mode where | twoPL | mdcc | occ | none | rcc | ro6 | multiPaxos

/-- `Frame::CreateDTxn`: `dtxn->frame_` is written whether or not there is a `dtxn`. -/
def Mode.createDTxn : Mode → Option Unit
  | .multiPaxos => Option.none
  | _ => some ()

/-- A scheduler of the log, with the learner's actions so far and the slots they were for. -/
structure MultiPaxosSched (V : Type) where
  maxExecutedSlot : ℕ := 0
  maxCommittedSlot : ℕ := 0
  /-- the executor of a slot: its `committed_cmd_` -/
  executors : Dict ℕ (Option V) := {}
  learned : List (ℕ × V) := []

namespace MultiPaxosSched

section

variable (slot : ℕ) (cmd : V) (s : MultiPaxosSched V)

def createExecutor : Option (MultiPaxosSched V) :=
  Mode.multiPaxos.createDTxn.map fun _ => { s with executors := s.executors.insert slot none }

def getOrCreateExecutor : Option (MultiPaxosSched V) :=
  if (s.executors.find slot).isSome then some s else s.createExecutor slot

/-- `committed_cmd_` of the executor of a slot. -/
def committedCmd : Option V := (s.executors.find slot).join

/-- `learner_action_`, and the cursor goes on. -/
def learn : MultiPaxosSched V :=
  { s with learned := s.learned ++ [(slot, cmd)], maxExecutedSlot := s.maxExecutedSlot + 1 }

/-- The loop over the slots from `next` on, `rounds` of them at most. -/
def executeNext : ℕ → ℕ → MultiPaxosSched V → Option (MultiPaxosSched V)
  | 0, _, s => some s
  | rounds + 1, next, s => (s.getOrCreateExecutor next).bind fun s =>
      match s.committedCmd next with
      | some cmd => executeNext rounds (next + 1) (s.learn next cmd)
      | none => some s

/-- `max_committed_slot_` is brought up to the slot. -/
def raise : MultiPaxosSched V :=
  if s.maxCommittedSlot < slot then { s with maxCommittedSlot := slot } else s

/-- The command is kept for later. -/
def remember : MultiPaxosSched V :=
  { s with executors := s.executors.set slot (some cmd) }

def onCommit (m : ℕ × V) : Option (MultiPaxosSched V) :=
  let s := s.raise m.1
  if s.maxExecutedSlot < m.1 then
    if m.1 = s.maxExecutedSlot + 1 then
      (s.learn m.1 m.2).executeNext (s.maxCommittedSlot - m.1) (m.1 + 1)
    else (s.getOrCreateExecutor m.1).map fun s => s.remember m.1 m.2
  else none

end

/-! ### The cursor -/

/-- The scheduler when the messages `ms` have come in the order of their slots. -/
def upTo (ms : List (ℕ × V)) : MultiPaxosSched V where
  maxExecutedSlot := ms.length
  maxCommittedSlot := ms.length
  learned := ms

/-- One more message: it is learned in its turn, and no other is survived. -/
theorem onCommit_upTo (ms : List (ℕ × V)) (m : ℕ × V) :
    (upTo ms).onCommit m = if m.1 = ms.length + 1 then some (upTo (ms ++ [m])) else none := by
  rcases Nat.lt_trichotomy m.1 (ms.length + 1) with hlt | heq | hgt
  · have hle : ¬ ms.length < m.1 := by omega
    simp [onCommit, raise, upTo, hle, hlt.ne]
  · obtain ⟨slot, v⟩ := m
    obtain rfl : slot = ms.length + 1 := heq
    simp [onCommit, raise, upTo, learn, executeNext]
  · have hlt : ms.length < m.1 := by omega
    have hnew : (upTo ms).executors.find m.1 = none := rfl
    simp only [upTo] at hnew
    simp [onCommit, raise, upTo, hlt, hgt.ne', getOrCreateExecutor, hnew, createExecutor,
      Mode.createDTxn]

theorem run_onCommit {ms : List (ℕ × V)} {s : MultiPaxosSched V} :
    run onCommit {} ms = some s ↔ ms.map fst = range' 1 ms.length ∧ s = upTo ms := by
  induction ms using reverseRecOn generalizing s with
  | nil => simp [run, upTo, eq_comm]
  | append_singleton ms m ih =>
    have hlast : (ms ++ [m]).map fst = range' 1 (ms ++ [m]).length ↔
        ms.map fst = range' 1 ms.length ∧ m.1 = ms.length + 1 := by
      rw [map_append, length_append, length_singleton, range'_concat, Nat.one_mul, Nat.add_comm 1]
      exact ⟨fun h => (append_inj' h rfl).imp_right singleton_inj.mp, fun h => by simp [h]⟩
    rw [run_concat, hlast]
    constructor
    · rintro ⟨s', hs', hm⟩
      obtain ⟨hslots, rfl⟩ := ih.mp hs'
      rw [onCommit_upTo, Option.ite_none_right_eq_some] at hm
      exact ⟨⟨hslots, hm.1⟩, (Option.some.inj hm.2).symm⟩
    · rintro ⟨⟨hslots, hm⟩, rfl⟩
      exact ⟨upTo ms, ih.mpr ⟨hslots, rfl⟩, by rw [onCommit_upTo, if_pos hm]⟩

/-- Whatever messages come: the learner has acted for the slots 1, 2, … in this order, once each and
    with the value committed for the slot, up to the length of the longest prefix of slots whose
    messages have come, exactly when they come in the order of the slots. -/
theorem learner_order_iff (ms : List (ℕ × V)) : (∃ s, run onCommit {} ms = some s ∧
      s.learned.map fst = range' 1 s.maxExecutedSlot ∧ (∀ e ∈ s.learned, e ∈ ms) ∧
      (∀ slot, 1 ≤ slot → slot ≤ s.maxExecutedSlot → slot ∈ ms.map fst) ∧
      s.maxExecutedSlot + 1 ∉ ms.map fst) ↔ ms.map fst = range' 1 ms.length := by
  constructor
  · rintro ⟨s, hrun, -⟩
    exact (run_onCommit.mp hrun).1
  · intro hslots
    have hexec : (upTo ms).maxExecutedSlot = ms.length := rfl
    have hmem := fun slot => hslots ▸ mem_range'_1 (m := slot) (s := 1) (n := ms.length)
    refine ⟨upTo ms, run_onCommit.mpr ⟨hslots, rfl⟩, hslots, fun e he => he, fun slot _ _ => ?_, ?_⟩
    · rw [hmem]; omega
    · rw [hmem]; omega

/-- The second slot comes first, and the server is gone before it has learned anything. -/
theorem second_slot_first : run onCommit {} [(2, 'b'), (1, 'a')] = none := by rfl

end MultiPaxosSched

end Fiss.MultiPaxos
