import Fiss.Tapir.Exec

/-! Transactions that a replica has answered with success exclude each other until they are decided.
    A transaction has the locks of the rows its executor remembers and no others, whatever part of
    them it was refused; if it was answered with success it has a lock of every row it read and is
    the writer of every row it will write. -/

namespace Fiss.Tapir

open Memdb List Function Option Prod OrdSet RWLock

variable {D : Type}

/-! ### Taking and giving up locks -/

namespace Locking

variable {txn : ℕ} {take : RWLock → Bool × RWLock} {locks : ℕ → RWLock} {v v' : Locking}
  {row : ℕ} {rows : List ℕ}

/-- Only locks of `txn` have changed, and those it has are remembered. -/
structure Exact (txn : ℕ) (locks : ℕ → RWLock) (v : Locking) : Prop where
  frame : ∀ row, RWLock.Frame txn (locks row) (v.locks row)
  exact : ∀ row, row ∈ v.locked ↔ (v.locks row).Holds txn

theorem locks_tryLock (take : RWLock → Bool × RWLock) (row : ℕ) (v : Locking) :
    (v.tryLock take row).locks = update v.locks row (take (v.locks row)).2 := by
  unfold tryLock
  dsimp only
  split <;> rfl

theorem res_tryLock (h : (v.tryLock take row).res = .success) :
    (take (v.locks row)).1 = true ∧ v.res = .success := by
  unfold tryLock at h
  dsimp only at h
  split at h
  · next hok => exact ⟨hok, h⟩
  · cases h

theorem Exact.tryLock (h : Exact txn locks v) (htakes : RWLock.Takes txn take) (row : ℕ) :
    Exact txn locks (v.tryLock take row) := by
  constructor
  · intro row'
    rw [locks_tryLock]
    exact (h.frame row').trans (frame_update htakes.frame v.locks row row')
  · intro row'
    rw [locks_tryLock]
    unfold Locking.tryLock
    dsimp only
    split
    · next hok =>
      rw [mem_insert]
      rcases eq_or_ne row' row with rfl | hne
      · rw [update_self]
        exact iff_of_true (.inl rfl) (htakes.granted _ hok)
      · rw [update_of_ne hne, or_iff_right hne]
        exact h.exact row'
    · next hno =>
      rw [htakes.refused _ (Bool.eq_false_iff.mpr hno), update_eq_self]
      exact h.exact row'

theorem Exact.lockRows (h : Exact txn locks v) (htakes : RWLock.Takes txn take) (rows : List ℕ) :
    Exact txn locks (v.lockRows take rows) := by
  induction rows generalizing v with
  | nil => exact h
  | cons row rows ih => exact ih (h.tryLock htakes row)

theorem lockRows_keeps {p : RWLock → Prop} (hkeeps : ∀ l, p l → p (take l).2) (row : ℕ)
    (rows : List ℕ) (h : p (v.locks row)) : p ((v.lockRows take rows).locks row) := by
  induction rows generalizing v with
  | nil => exact h
  | cons row' rows ih =>
    refine ih ?_
    rw [locks_tryLock]
    exact keeps_update hkeeps h row'

theorem lockRows_granted {p : RWLock → Prop} (hkeeps : ∀ l, p l → p (take l).2)
    (hgranted : ∀ l, (take l).1 = true → p (take l).2) (rows : List ℕ)
    (hres : (v.lockRows take rows).res = .success) :
    v.res = .success ∧ ∀ row ∈ rows, p ((v.lockRows take rows).locks row) := by
  induction rows generalizing v with
  | nil => exact ⟨hres, fun row hrow => by cases hrow⟩
  | cons row rows ih =>
    obtain ⟨hres', hall⟩ := ih hres
    obtain ⟨hok, hres''⟩ := res_tryLock hres'
    refine ⟨hres'', forall_mem_cons.mpr ⟨lockRows_keeps hkeeps _ rows ?_, hall⟩⟩
    rw [locks_tryLock, update_self]
    exact hgranted _ hok

theorem lockReads_spec {data : Rows D} {vers : List (Column × ℕ)}
    (h : v.lockReads txn data vers = some v') :
    v' = v.lockRows (rlockBy txn) (vers.map fun e => e.1.row) ∧ ∀ e ∈ vers, data.ver e.1 ≤ e.2 := by
  induction vers generalizing v with
  | nil => exact ⟨(some.inj h).symm, fun e he => by cases he⟩
  | cons e vers ih =>
    rw [lockReads] at h
    split at h
    · cases h
    · next hver =>
      obtain ⟨heq, hall⟩ := ih h
      exact ⟨heq, forall_mem_cons.mpr ⟨not_lt.mp hver, hall⟩⟩

end Locking

theorem unlockRows_spec {txn : ℕ} {rows : List ℕ} (hnodup : rows.Nodup) {locks : ℕ → RWLock}
    (hholds : ∀ row ∈ rows, (locks row).Holds txn) :
    ∃ locks', unlockRows txn rows locks = some locks' ∧ ∀ row,
      locks' row = if row ∈ rows then ((locks row).unlockBy txn).2 else locks row := by
  induction rows generalizing locks with
  | nil => exact ⟨locks, rfl, fun row => rfl⟩
  | cons row rows ih =>
    obtain ⟨hnot, hnodup⟩ := nodup_cons.mp hnodup
    have hne : ∀ row' ∈ rows, row' ≠ row := fun row' hrow heq => hnot (heq ▸ hrow)
    have hholds' : ∀ row' ∈ rows,
        (update locks row ((locks row).unlockBy txn).2 row').Holds txn := by
      intro row' hrow
      rw [update_of_ne (hne row' hrow)]
      exact hholds row' (mem_cons_of_mem _ hrow)
    obtain ⟨locks', hlocks', hspec⟩ := ih hnodup hholds'
    refine ⟨locks', ?_, fun row' => ?_⟩
    · rw [unlockRows, if_pos (unlockBy_fst.mpr (hholds row mem_cons_self))]
      exact hlocks'
    · rw [hspec]
      rcases eq_or_ne row' row with rfl | hrow
      · rw [if_neg hnot, if_pos mem_cons_self, update_self]
      · rw [update_of_ne hrow]
        exact if_congr (by simp [hrow]) rfl rfl

namespace TapirSched

variable {s s' : TapirSched D} {e : Event D} {txn : ℕ} {cmds : List (SimpleCommand D)}

theorem onDispatch_eq (hstep : s.onDispatch txn cmds = some s') :
    s' = { s.setExec txn (some { s.getOrCreateExecutor txn with
      toTapirDTxn := (s.execution txn cmds).txn }) with
        returned := s.returned ++ ((s.execution txn cmds).reads.filter (·.2)).map fun r =>
          ⟨txn, r.1, s.rows.ver r.1⟩ } :=
  (some.inj (ite_none_left_eq_some.mp hstep).2).symm

theorem onFastAccept_eq {res : Res} (hstep : s.onFastAccept txn cmds = some (res, s')) :
    ∃ v, s.validate txn cmds (s.execution txn cmds) = some v ∧ v.res = res ∧
      s' = { s.setExec txn (some { toTapirDTxn := (s.execution txn cmds).txn
                                   lockedRows := v.locked }) with
        locks := v.locks
        votes := s.votes ++ [(txn, v.res)] } := by
  obtain ⟨v, hv, heq⟩ := map_eq_some_iff.mp (ite_none_left_eq_some.mp hstep).2
  obtain ⟨hres, hs'⟩ := Prod.mk.inj heq
  exact ⟨v, hv, hres, hs'.symm⟩

/-- The transaction was answered with success and is not decided. -/
def Prepared (s : TapirSched D) (txn : ℕ) (x : TapirExecutor D) : Prop :=
  s.execs txn = some x ∧ (txn, Res.success) ∈ s.votes

/-- A transaction has the locks its executor remembers; once it is prepared these are those of all
    it has read and written. -/
structure Inv (s : TapirSched D) : Prop where
  owned : ∀ row txn, (s.locks row).Holds txn ↔ ∃ x, s.execs txn = some x ∧ row ∈ x.lockedRows
  unvoted : ∀ txn x, s.execs txn = some x → (∀ v ∈ s.votes, v.1 ≠ txn) → x.lockedRows = ∅
  reads : ∀ txn x, Prepared s txn x → ∀ c ∈ x.readVers.keys, (s.locks c.row).Holds txn
  writes : ∀ txn x, Prepared s txn x → ∀ c ∈ x.writeBufs.keys, (s.locks c.row).Writes txn

theorem Inv.lockedRows_eq (h : Inv s) (hnew : ∀ v ∈ s.votes, v.1 ≠ txn) :
    (s.getOrCreateExecutor txn).lockedRows = ∅ := by
  unfold getOrCreateExecutor
  cases hx : s.execs txn with
  | none => rfl
  | some x => exact h.unvoted txn x hx hnew

theorem Inv.not_holds (h : Inv s) (hnew : ∀ v ∈ s.votes, v.1 ≠ txn) (row : ℕ) :
    ¬ (s.locks row).Holds txn := by
  intro hholds
  obtain ⟨x, hx, hrow⟩ := (h.owned row txn).mp hholds
  rw [h.unvoted txn x hx hnew] at hrow
  exact notMem_empty row hrow

theorem Inv.change (h : Inv s) {x' : Option (TapirExecutor D)}
    (hexecs : s'.execs = update s.execs txn x')
    (hframe : ∀ row, RWLock.Frame txn (s.locks row) (s'.locks row))
    (hvotes : ∀ v : ℕ × Res, v.1 ≠ txn → (v ∈ s'.votes ↔ v ∈ s.votes))
    (howned : ∀ row, (s'.locks row).Holds txn ↔ ∃ x, x' = some x ∧ row ∈ x.lockedRows)
    (hunvoted : ∀ x, x' = some x → (∀ v ∈ s'.votes, v.1 ≠ txn) → x.lockedRows = ∅)
    (hprepared : ∀ x, x' = some x → (txn, Res.success) ∈ s'.votes →
      (∀ c ∈ x.readVers.keys, (s'.locks c.row).Holds txn) ∧
        ∀ c ∈ x.writeBufs.keys, (s'.locks c.row).Writes txn) : Inv s' := by
  have hself : s'.execs txn = x' := by rw [hexecs, update_self]
  have hother : ∀ {t}, t ≠ txn → s'.execs t = s.execs t := fun ht => by
    rw [hexecs, update_of_ne ht]
  have hold : ∀ {t x}, t ≠ txn → Prepared s' t x → Prepared s t x := fun {t x} ht hp =>
    ⟨(hother ht).symm.trans hp.1, (hvotes (t, .success) ht).mp hp.2⟩
  constructor
  · intro row t
    rcases eq_or_ne t txn with rfl | ht
    · rw [hself]
      exact howned row
    · rw [(hframe row t ht).2, hother ht]
      exact h.owned row t
  · intro t x hx hnew
    rcases eq_or_ne t txn with rfl | ht
    · exact hunvoted x (hself.symm.trans hx) hnew
    · refine h.unvoted t x ((hother ht).symm.trans hx) fun v hv heq => ?_
      exact hnew v ((hvotes v (heq ▸ ht)).mpr hv) heq
  · intro t x hp c hc
    rcases eq_or_ne t txn with rfl | ht
    · exact (hprepared x (hself.symm.trans hp.1) hp.2).1 c hc
    · exact (hframe c.row t ht).2.mpr (h.reads t x (hold ht hp) c hc)
  · intro t x hp c hc
    rcases eq_or_ne t txn with rfl | ht
    · exact (hprepared x (hself.symm.trans hp.1) hp.2).2 c hc
    · exact (hframe c.row t ht).1.mpr (h.writes t x (hold ht hp) c hc)

theorem Inv.dispatch (h : Inv s) (hnew : ∀ v ∈ s.votes, v.1 ≠ txn)
    (hstep : s.onDispatch txn cmds = some s') : Inv s' := by
  obtain rfl := onDispatch_eq hstep
  refine h.change rfl (fun row => .refl txn _) (fun v _ => Iff.rfl) (fun row => ?_)
    (fun x hx _ => ?_) fun x _ hvote => absurd rfl (hnew _ hvote)
  · refine iff_of_false (h.not_holds hnew row) ?_
    rintro ⟨x, hx, hrow⟩
    obtain rfl := some.inj hx
    exact notMem_empty row (h.lockedRows_eq hnew ▸ hrow)
  · obtain rfl := some.inj hx
    exact h.lockedRows_eq hnew

theorem validate_spec {e : Execution D} {v : Locking}
    (hlocked : (s.getOrCreateExecutor txn).lockedRows = ∅)
    (hnot : ∀ row, ¬ (s.locks row).Holds txn) (hvalidate : s.validate txn cmds e = some v) :
    v.Exact txn s.locks ∧ (v.res = .success →
      (∀ c ∈ e.txn.readVers.keys, (v.locks c.row).Holds txn) ∧
        ∀ c ∈ e.txn.writeBufs.keys, (v.locks c.row).Writes txn) := by
  have hstart : Locking.Exact txn s.locks
      ⟨s.locks, (s.getOrCreateExecutor txn).lockedRows, .success⟩ := by
    refine ⟨fun row => .refl txn _, fun row => iff_of_false ?_ (hnot row)⟩
    rw [hlocked]
    exact notMem_empty row
  unfold validate at hvalidate
  dsimp only at hvalidate
  split at hvalidate
  · obtain ⟨v1, hv1, rfl⟩ := map_eq_some_iff.mp hvalidate
    obtain ⟨rfl, -⟩ := Locking.lockReads_spec hv1
    refine ⟨(hstart.lockRows (takes_rlockBy txn) _).lockRows (takes_wlockBy txn) _,
      fun hres => ?_⟩
    obtain ⟨hres1, hwrites⟩ := Locking.lockRows_granted (p := fun l => l.Writes txn)
      (fun l hl => hl.wlockBy) (fun l hok => wlockBy_granted hok) _ hres
    obtain ⟨-, hreads⟩ := Locking.lockRows_granted (takes_rlockBy txn).keeps
      (takes_rlockBy txn).granted _ hres1
    refine ⟨fun c hc => ?_, fun c hc => ?_⟩
    · -- a read lock may have become a write lock since
      obtain ⟨e', he', rfl⟩ := mem_map.mp hc
      exact Locking.lockRows_keeps (takes_wlockBy txn).keeps _ _
        (hreads _ (mem_map.mpr ⟨e', he', rfl⟩))
    · exact hwrites c.row (mem_dedup.mpr (mem_map_of_mem hc))
  · obtain rfl := some.inj hvalidate
    exact ⟨⟨hstart.frame, hstart.exact⟩, fun hres => by cases hres⟩

theorem Inv.fastAccept (h : Inv s) (hnew : ∀ v ∈ s.votes, v.1 ≠ txn) {res : Res}
    (hstep : s.onFastAccept txn cmds = some (res, s')) : Inv s' := by
  obtain ⟨v, hv, -, rfl⟩ := onFastAccept_eq hstep
  obtain ⟨hexact, hlocked⟩ := validate_spec (h.lockedRows_eq hnew) (h.not_holds hnew) hv
  refine h.change rfl hexact.frame (fun w hw => ?_) (fun row => ?_) (fun x _ hvotes => ?_)
    fun x hx hvote => ?_
  · refine mem_append.trans (or_iff_left fun hmem => ?_)
    exact hw (congrArg fst (mem_singleton.mp hmem))
  · refine (hexact.exact row).symm.trans ⟨fun hrow => ⟨_, rfl, hrow⟩, ?_⟩
    rintro ⟨x, hx, hrow⟩
    obtain rfl := some.inj hx
    exact hrow
  · exact absurd rfl (hvotes (txn, v.res) (mem_append_right _ (mem_singleton_self _)))
  · obtain rfl := some.inj hx
    refine hlocked ?_
    rcases mem_append.mp hvote with hvote | hvote
    · exact absurd rfl (hnew _ hvote)
    · exact (congrArg snd (mem_singleton.mp hvote)).symm

theorem Inv.decide (h : Inv s) {x : TapirExecutor D} (hx : s.execs txn = some x) (commit : Bool) :
    ∃ s', s.onDecide txn commit = some s' ∧ Inv s' ∧ ∀ row, ¬ (s'.locks row).Holds txn := by
  have hholds : ∀ row, row ∈ x.lockedRows ↔ (s.locks row).Holds txn := by
    intro row
    rw [h.owned row txn, hx]
    simp
  obtain ⟨locks, hlocks, hspec⟩ := unlockRows_spec (x.lockedRows.sorted.imp fun hlt => hlt.ne)
    fun row hrow => (hholds row).mp hrow
  have hnone : ∀ row, ¬ (locks row).Holds txn := by
    intro row
    rw [hspec]
    split
    · exact fun hl => (holds_unlockBy.mp hl).1 rfl
    · next hrow => exact fun hl => hrow ((hholds row).mpr hl)
  refine ⟨_, by rw [onDecide, hx, bind_some, hlocks, map_some], ?_, hnone⟩
  refine h.change rfl (fun row => ?_) (fun v _ => Iff.rfl) (fun row => iff_of_false (hnone row) ?_)
    (fun x hx => by cases hx) fun x hx => by cases hx
  · change RWLock.Frame txn (s.locks row) (locks row)
    rw [hspec]
    split
    · exact frame_unlockBy txn _
    · exact .refl txn _
  · rintro ⟨x, hx, -⟩
    cases hx

theorem inv_step (h : Inv s) (hproper : Proper s e) (hstep : step s e = some s') : Inv s' := by
  cases e with
  | dispatch txn cmds => exact h.dispatch hproper hstep
  | fastAccept txn cmds =>
    obtain ⟨⟨res, s''⟩, hs'', rfl⟩ := map_eq_some_iff.mp hstep
    exact h.fastAccept hproper hs''
  | decide txn commit =>
    obtain ⟨x, hx⟩ := isSome_iff_exists.mp hproper.1
    obtain ⟨s'', hs'', hinv, -⟩ := h.decide hx commit
    rw [step, hs''] at hstep
    exact some.inj hstep ▸ hinv

end TapirSched

/-- The transaction has read or written the row. -/
def TapirDTxn.Touches (t : TapirDTxn D) (row : ℕ) : Prop :=
  (∃ c ∈ t.readVers.keys, c.row = row) ∨ ∃ c ∈ t.writeBufs.keys, c.row = row

namespace TapirSched

/-- Of two prepared transactions neither writes a row the other one reads or writes. The locks are
    those of executors that remember them, and a decision gives up all of its transaction's. -/
structure Exclusive (s : TapirSched D) : Prop where
  apart : ∀ txn x txn' x', Prepared s txn x → Prepared s txn' x' → txn ≠ txn' →
    ∀ c ∈ x.writeBufs.keys, ¬ x'.Touches c.row
  owned : ∀ row txn, (s.locks row).Holds txn ↔ ∃ x, s.execs txn = some x ∧ row ∈ x.lockedRows
  released : ∀ txn commit, Proper s (.decide txn commit) →
    ∃ s', step s (.decide txn commit) = some s' ∧ ∀ row, ¬ (s'.locks row).Holds txn

theorem Inv.exclusive {s : TapirSched D} (h : Inv s) : Exclusive s := by
  refine ⟨fun txn x txn' x' hp hp' hne c hc htouches => ?_, h.owned, fun txn commit hproper => ?_⟩
  · have hwrites := h.writes txn x hp c hc
    have hholds : (s.locks c.row).Holds txn' := by
      rcases htouches with ⟨c', hc', hrow⟩ | ⟨c', hc', hrow⟩
      · exact hrow ▸ h.reads txn' x' hp' c' hc'
      · exact hrow ▸ (h.writes txn' x' hp' c' hc').holds
    exact hne (hwrites.only hholds).symm
  · obtain ⟨x, hx⟩ := isSome_iff_exists.mp hproper.1
    obtain ⟨s', hs', -, hnone⟩ := h.decide hx commit
    exact ⟨s', hs', hnone⟩

/-- In every run of a replica. -/
theorem prepared_exclusive (rows : Rows D) (es : List (Event D))
    (h : Along step Proper { rows } es) : Throughout step Exclusive { rows } es := by
  have hinit : Inv ({ rows } : TapirSched D) := by
    refine ⟨fun row txn => iff_of_false (not_holds_free txn) ?_, fun txn x hx => ?_,
      fun txn x hp => ?_, fun txn x hp => ?_⟩
    · rintro ⟨x, hx, -⟩
      cases hx
    · cases hx
    · cases hp.1
    · cases hp.1
  exact throughout_mono (fun s hs => hs.exclusive)
    (throughout_of_inv (fun _ _ _ hinv hproper hstep => inv_step hinv hproper hstep) hinit h)

/-- Each column is read and written. -/
def increments : List Column → Handler ℕ
  | [] => .done
  | c :: cs => .read c none fun value => .write c (value + 1) (increments cs)

/-- Transaction 1 increments row 1. Transaction 2, which increments rows 0 and 1, is rejected after
    it has locked row 0, and is aborted before transaction 1 commits. -/
def crossing : List (Event ℕ) :=
  [.fastAccept 1 [{ innId := 0, handler := fun _ => increments [toLex (1, 0)] }],
    .fastAccept 2 [{ innId := 0, handler := fun _ => increments [toLex (0, 0), toLex (1, 0)] }],
    .decide 2 false, .decide 1 true]

theorem prepared_exclusive_crossing : (run step { rows := ⟨fun _ => 5, fun _ => 0⟩ } crossing).map
        (fun s => (s.votes, s.rows.data (toLex (0, 0)), s.rows.data (toLex (1, 0)))) =
        some ([(1, .success), (2, .reject)], 5, 6) ∧
      Throughout step Exclusive { rows := ⟨fun _ => 5, fun _ => 0⟩ } crossing :=
  ⟨by decide +kernel, prepared_exclusive ⟨fun _ => 5, fun _ => 0⟩ crossing (by decide +kernel)⟩

end TapirSched

end Fiss.Tapir
