import Fiss.Alock.WaitDie
import Fiss.Alock.WoundDie

/-! What the locks keep over every sequence of calls: the queue of either kind of lock, and, for any
    number of wait-die locks, that no transactions wait for each other in a circle. -/

namespace Fiss.Alock
open Function WaitDieALock

/-- The granted requests are the longest front of the queue that may hold the lock, the lock is free
    where there is no request, and each request has one answer at most, yes or no. -/
structure ALock.Safe (s : ALock) : Prop where
  queue : ∃ held waiting, Queue s held waiting
  free : s.status = .free ↔ s.requests = []
  yesOnce : s.yes.Nodup
  noOnce : s.no.Nodup
  apart : s.yes.Disjoint s.no

theorem ALock.Inv.safe {s : ALock} (h : ALock.Inv s) : s.Safe := by
  refine ⟨h.queue, ?_, h.calls.yesOnce, h.calls.noOnce, h.calls.apart⟩
  obtain ⟨held, waiting, hq⟩ := h.queue
  have hholds := hq.holds
  rw [hq.requests]
  generalize s.status = status at hholds ⊢
  cases hholds with
  | free | write => simp
  | read hne => simp [hne]

/-- Both locks return from every sequence of calls, in a safe state. -/
theorem alock_safe :
    (∀ ops : List WaitDieALock.Op, ∃ s, run WaitDieALock.step {} ops = some s ∧ s.toALock.Safe) ∧
      ∀ ops : List WoundDieALock.Op, ∃ s, run WoundDieALock.step {} ops = some s ∧ s.Safe := by
  constructor
  · intro ops
    obtain ⟨s, hs, hinv⟩ := exists_run (fun _ op h => inv_step h op) ops
      inv_init
    exact ⟨s, hs, hinv.base.safe⟩
  · intro ops
    obtain ⟨s, hs, hinv⟩ := exists_run (fun _ op h => WoundDieALock.inv_step h op) ops
      inv_init.base
    exact ⟨s, hs, hinv.safe⟩

/-! ### Transactions that wait for each other -/

namespace WaitDieALock

variable {K τ : Type} [DecidableEq K]

/-- A call of one of the locks `K`, by a transaction with its priority. -/
inductive SysOp (K τ : Type) where
  | vlock (lock : K) (type : LockType) (txn : τ)
  | abort (lock : K) (id : ℕ)

/-- One lock is called, the others stay as they are. -/
def sysStep (prio : τ → ℤ) (s : K → WaitDieALock) : SysOp K τ → Option (K → WaitDieALock)
  | .vlock lock type txn => ((s lock).vlock type (prio txn)).map (update s lock)
  | .abort lock id => ((s lock).abort id).map (update s lock)

/-- A request of `t` waits behind a conflicting request of `u`, on some lock. A request is a
    transaction's if it has its priority. -/
def WaitsFor (prio : τ → ℤ) (s : K → WaitDieALock) (t u : τ) : Prop :=
  ∃ lock before r after, (s lock).requests = before ++ r :: after ∧ r.granted = false ∧
    r.priority = prio t ∧ ∃ q ∈ before, Conflict q r ∧ q.priority = prio u

theorem inv_sysStep (prio : τ → ℤ) {s : K → WaitDieALock} (h : ∀ k, Inv (s k)) (op : SysOp K τ) :
    ∃ s', sysStep prio s op = some s' ∧ ∀ k, Inv (s' k) := by
  have hupdate : ∀ lock {x}, Inv x → ∀ k, Inv (update s lock x k) := by
    intro lock x hx k
    rcases eq_or_ne k lock with rfl | hne
    · rwa [update_self]
    · rw [update_of_ne hne]
      exact h k
  cases op with
  | vlock lock type txn =>
    obtain ⟨x, hx, hinv⟩ := (h lock).vlock type (prio txn)
    exact ⟨_, by rw [sysStep, hx, Option.map_some], hupdate lock hinv⟩
  | abort lock id =>
    obtain ⟨x, hx, hinv⟩ := (h lock).abort id
    exact ⟨_, by rw [sysStep, hx, Option.map_some], hupdate lock hinv⟩

/-- Whatever the calls, every request that waits is older than each conflicting request ahead of it,
    so that no transaction waits for itself through others. -/
theorem deadlock_free (prio : τ → ℤ) (ops : List (SysOp K τ)) :
    ∃ s, run (sysStep prio) (fun _ : K => {}) ops = some s ∧
      (∀ lock before r after, (s lock).requests = before ++ r :: after → r.granted = false →
        ∀ q ∈ before, Conflict q r → r.priority < q.priority) ∧
      ∀ t, ¬ Relation.TransGen (WaitsFor prio s) t t := by
  obtain ⟨s, hs, hinv⟩ := exists_run (fun _ op h => inv_sysStep prio h op) ops
    (s := fun _ : K => {}) fun _ => inv_init
  have hahead : ∀ lock before r after, (s lock).requests = before ++ r :: after →
      ∀ q ∈ before, Conflict q r → r.priority < q.priority := by
    intro lock before r after heq q hq
    have hordered := (hinv lock).ordered
    rw [heq, Ordered, List.pairwise_append] at hordered
    exact hordered.2.2 q hq r List.mem_cons_self
  refine ⟨s, hs, fun lock before r after heq _ => hahead lock before r after heq, ?_⟩
  intro t hcycle
  have hlt : ∀ {u v}, WaitsFor prio s u v → prio u < prio v := by
    rintro u v ⟨lock, before, r, after, heq, -, hr, q, hq, hconflict, hqv⟩
    rw [← hr, ← hqv]
    exact hahead lock before r after heq q hq hconflict
  have hchain : ∀ {u}, Relation.TransGen (WaitsFor prio s) t u → prio t < prio u := by
    intro u hpath
    induction hpath with
    | single hwaits => exact hlt hwaits
    | tail _ hwaits ih => exact ih.trans (hlt hwaits)
  exact (hchain hcycle).false

end WaitDieALock

end Fiss.Alock
