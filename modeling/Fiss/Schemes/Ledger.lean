import Mathlib

/-! The requests a party has sent: those that wait for an answer, and those that were answered, with
    their answers in the order they came. Each request is answered once at most, so of any group of
    requests those answered and those that wait are as many as were sent. -/

namespace Fiss
open List Prod

/-- Requests `ρ` and their answers `α`. -/
structure Ledger (ρ α : Type) where
  outstanding : List ρ := []
  answered : List (ρ × α) := []

namespace Ledger

variable {ρ α : Type} {l : Ledger ρ α} {r : ρ} {a : α} {rs : List ρ}

/-- More requests are sent. -/
def send (l : Ledger ρ α) (rs : List ρ) : Ledger ρ α := { l with outstanding := l.outstanding ++ rs }

/-- A request is answered. -/
def answer [DecidableEq ρ] (l : Ledger ρ α) (r : ρ) (a : α) : Ledger ρ α :=
  ⟨l.outstanding.erase r, l.answered ++ [(r, a)]⟩

/-- All requests that were sent. -/
def all (l : Ledger ρ α) : List ρ := l.answered.map fst ++ l.outstanding

theorem all_send (l : Ledger ρ α) (rs : List ρ) : (l.send rs).all = l.all ++ rs := by
  rw [all, all, send, append_assoc]

theorem all_answer [DecidableEq ρ] (h : r ∈ l.outstanding) (a : α) :
    (l.answer r a).all.Perm l.all := by
  rw [all, all, answer, map_append, append_assoc]
  exact List.Perm.append_left _ (perm_cons_erase h).symm

theorem mem_all_send : r ∈ (l.send rs).all ↔ r ∈ l.all ∨ r ∈ rs := by
  rw [all_send, mem_append]

theorem mem_all_answer [DecidableEq ρ] (h : r ∈ l.outstanding) {x : ρ} :
    x ∈ (l.answer r a).all ↔ x ∈ l.all :=
  (all_answer h a).mem_iff

theorem mem_all_of_outstanding (h : r ∈ l.outstanding) : r ∈ l.all := mem_append_right _ h

theorem mem_all_of_answered {e : ρ × α} (h : e ∈ l.answered) : e.1 ∈ l.all :=
  mem_append_left _ (mem_map_of_mem h)

theorem exists_answer {G : ρ → Bool} (h : l.all.countP G ≤ l.answered.countP fun e => G e.1)
    (hr : r ∈ l.all) (hG : G r = true) : ∃ a, (r, a) ∈ l.answered := by
  have hmap : (l.answered.map fst).countP G = l.answered.countP fun e => G e.1 :=
    countP_map
  have hnone : l.outstanding.countP G = 0 := by
    rw [all, countP_append, hmap] at h
    omega
  rcases mem_append.mp hr with hr | hr
  · obtain ⟨e, he, rfl⟩ := mem_map.mp hr
    exact ⟨e.2, he⟩
  · exact absurd hG (countP_eq_zero.mp hnone r hr)

theorem countP_answered_le (G : ρ → Bool) :
    (l.answered.countP fun e => G e.1) ≤ l.all.countP G := by
  have hmap : (l.answered.map fst).countP G = l.answered.countP fun e => G e.1 :=
    countP_map
  rw [all, countP_append, hmap]
  exact Nat.le_add_right _ _

end Ledger

end Fiss
