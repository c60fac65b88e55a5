import Fiss.Schemes.OrdSet

/-! The lock of a row: one writer or any number of readers, by owner. An owner may lock again what it
    holds, and a reader that is alone may become the writer; unlocking gives up whatever the owner
    has. That a lock with a writer has no readers, which the code asserts, is part of the lock. -/

namespace Fiss.Memdb
open Function List OrdSet

structure RWLock where
  wlocked : Bool := false
  w : ℕ := 0
  r : OrdSet ℕ := ∅
  exclusive : wlocked = true → r = ∅ := by simp

namespace RWLock

def free : RWLock := {}

theorem erase_single {s : OrdSet ℕ} {o : ℕ} (h : o ∈ s ∧ s.elems.length = 1) : s.erase o = ∅ := by
  obtain ⟨hmem, hlen⟩ := h
  obtain ⟨a, ha⟩ := length_eq_one_iff.mp hlen
  rw [← mem_elems, ha, mem_singleton] at hmem
  ext x
  rw [mem_erase, ← mem_elems, ha, mem_singleton, hmem]
  simp

def wlockBy (o : ℕ) (l : RWLock) : Bool × RWLock :=
  if l.wlocked then (o = l.w, l)
  else if l.r = ∅ then (true, { wlocked := true, w := o, r := ∅, exclusive := fun _ => rfl })
  else if h : o ∈ l.r ∧ l.r.elems.length = 1 then
    (true, { wlocked := true, w := o, r := l.r.erase o, exclusive := fun _ => erase_single h })
  else (false, l)

def rlockBy (o : ℕ) (l : RWLock) : Bool × RWLock :=
  if h : l.wlocked = true then (o = l.w, l)
  else (true, { l with r := l.r.insert o, exclusive := fun hw => absurd hw h })

def unlockBy (o : ℕ) (l : RWLock) : Bool × RWLock :=
  (l.wlocked && o = l.w || o ∈ l.r,
    { l with
      wlocked := l.wlocked && o ≠ l.w
      r := l.r.erase o
      exclusive := fun hw => by
        rw [l.exclusive (Bool.and_eq_true_iff.mp hw).1]
        rfl })

/-- `o` is the writer. -/
def Writes (l : RWLock) (o : ℕ) : Prop := l.wlocked = true ∧ l.w = o

/-- `o` has the lock, as the writer or as a reader. -/
def Holds (l : RWLock) (o : ℕ) : Prop := l.Writes o ∨ o ∈ l.r

/-- Only what `o` has of the lock may differ. -/
def Frame (o : ℕ) (l l' : RWLock) : Prop :=
  ∀ p, p ≠ o → (l'.Writes p ↔ l.Writes p) ∧ (l'.Holds p ↔ l.Holds p)

variable {l l' l'' : RWLock} {o p : ℕ}

theorem Writes.holds (h : l.Writes o) : l.Holds o := .inl h

theorem Writes.only (h : l.Writes o) (h' : l.Holds p) : p = o := by
  rcases h' with h' | h'
  · exact h'.2.symm.trans h.2
  · rw [l.exclusive h.1] at h'
    exact absurd h' (notMem_empty p)

theorem not_holds_free (o : ℕ) : ¬ free.Holds o := by
  rintro (h | h)
  · cases h.1
  · exact notMem_empty o h

theorem Frame.refl (o : ℕ) (l : RWLock) : Frame o l l := fun _ _ => ⟨Iff.rfl, Iff.rfl⟩

theorem Frame.trans (h : Frame o l l') (h' : Frame o l' l'') : Frame o l l'' := fun p hp =>
  ⟨(h' p hp).1.trans (h p hp).1, (h' p hp).2.trans (h p hp).2⟩

/-- What a way to take the lock for `o` does. -/
structure Takes (o : ℕ) (take : RWLock → Bool × RWLock) : Prop where
  frame : ∀ l, Frame o l (take l).2
  granted : ∀ l, (take l).1 = true → (take l).2.Holds o
  refused : ∀ l, (take l).1 = false → (take l).2 = l
  keeps : ∀ l, l.Holds o → (take l).2.Holds o

/-- The lock stays as it is, and `o` gets it only when it is the writer already. -/
def Stays (o : ℕ) (l : RWLock) (res : Bool × RWLock) : Prop :=
  res.2 = l ∧ (res.1 = true → l.Writes o)

theorem stays_writer (hw : l.wlocked = true) : Stays o l (o = l.w, l) :=
  ⟨rfl, fun ho => ⟨hw, (of_decide_eq_true ho).symm⟩⟩

theorem wlockBy_cases (o : ℕ) (l : RWLock) : Stays o l (l.wlockBy o) ∨
    ((l.wlockBy o).1 = true ∧ (l.wlockBy o).2.Writes o ∧ ∀ p, p ≠ o → ¬ l.Holds p) := by
  unfold wlockBy
  split
  · next hw => exact .inl (stays_writer hw)
  · next hw =>
    have hreader : ∀ {p}, l.Holds p → p ∈ l.r := fun h => h.resolve_left fun h => hw h.1
    split
    · next hnone =>
      refine .inr ⟨rfl, ⟨rfl, rfl⟩, fun p _ h => ?_⟩
      have hp := hreader h
      rw [hnone] at hp
      exact notMem_empty p hp
    · split
      · next hsingle =>
        refine .inr ⟨rfl, ⟨rfl, rfl⟩, fun p hp h => ?_⟩
        have hmem := mem_erase.mpr ⟨hreader h, hp⟩
        rw [erase_single hsingle] at hmem
        exact notMem_empty p hmem
      · exact .inl ⟨rfl, fun hok => by cases hok⟩

theorem frame_of_writes (h : ∀ p, p ≠ o → ¬ l.Holds p) (h' : l'.Writes o) : Frame o l l' := by
  intro p hp
  have hnot : ¬ l'.Holds p := fun hl => hp (h'.only hl)
  exact ⟨iff_of_false (fun hw => hnot hw.holds) fun hw => h p hp hw.holds,
    iff_of_false hnot (h p hp)⟩

/-- A way to take the lock that leaves it, or changes it for `o` alone. -/
theorem takes_of_cases {take : RWLock → Bool × RWLock} (h : ∀ l, Stays o l (take l) ∨
    ((take l).1 = true ∧ (take l).2.Holds o ∧ Frame o l (take l).2)) : Takes o take := by
  constructor
  · intro l
    rcases h l with ⟨heq, -⟩ | ⟨-, -, hframe⟩
    · rw [heq]
      exact Frame.refl o l
    · exact hframe
  · intro l hok
    rcases h l with ⟨heq, hw⟩ | ⟨-, hheld, -⟩
    · rw [heq]
      exact (hw hok).holds
    · exact hheld
  · intro l hno
    rcases h l with ⟨heq, -⟩ | ⟨hok, -⟩
    · exact heq
    · cases hno.symm.trans hok
  · intro l hold
    rcases h l with ⟨heq, -⟩ | ⟨-, hheld, -⟩
    · rw [heq]
      exact hold
    · exact hheld

theorem takes_wlockBy (o : ℕ) : Takes o (wlockBy o) := by
  refine takes_of_cases fun l => (wlockBy_cases o l).imp_right ?_
  rintro ⟨hok, hw, hothers⟩
  exact ⟨hok, hw.holds, frame_of_writes hothers hw⟩

theorem wlockBy_granted (h : (l.wlockBy o).1 = true) : (l.wlockBy o).2.Writes o := by
  rcases wlockBy_cases o l with ⟨heq, hw⟩ | ⟨-, hw, -⟩
  · rw [heq]
    exact hw h
  · exact hw

theorem Writes.wlockBy (h : l.Writes o) : (l.wlockBy o).2.Writes o := by
  rcases wlockBy_cases o l with ⟨heq, -⟩ | ⟨-, hw, -⟩
  · rw [heq]
    exact h
  · exact hw

theorem rlockBy_cases (o : ℕ) (l : RWLock) : Stays o l (l.rlockBy o) ∨
    (l.wlocked = false ∧ (l.rlockBy o).1 = true ∧ (l.rlockBy o).2.wlocked = false ∧
      (l.rlockBy o).2.r = l.r.insert o) := by
  unfold rlockBy
  split
  · next hw => exact .inl (stays_writer hw)
  · next hw =>
    have hw : l.wlocked = false := Bool.eq_false_iff.mpr hw
    exact .inr ⟨hw, rfl, hw, rfl⟩

theorem holds_of_not_wlocked (h : l.wlocked = false) : l.Holds p ↔ p ∈ l.r :=
  or_iff_right fun hw => Bool.noConfusion (h.symm.trans hw.1)

theorem takes_rlockBy (o : ℕ) : Takes o (rlockBy o) := by
  refine takes_of_cases fun l => (rlockBy_cases o l).imp_right ?_
  rintro ⟨hw, hok, hw', hr⟩
  refine ⟨hok, .inr (hr ▸ mem_insert.mpr (.inl rfl)), fun p hp =>
    ⟨iff_of_false (fun h => ?_) fun h => ?_, ?_⟩⟩
  · cases hw'.symm.trans h.1
  · cases hw.symm.trans h.1
  · rw [holds_of_not_wlocked hw', holds_of_not_wlocked hw, hr, mem_insert]
    exact or_iff_right hp

theorem unlockBy_fst : (l.unlockBy o).1 = true ↔ l.Holds o := by
  rw [unlockBy, Bool.or_eq_true, Bool.and_eq_true, decide_eq_true_eq, decide_eq_true_eq, Holds,
    Writes, eq_comm (a := o)]

theorem writes_unlockBy : (l.unlockBy o).2.Writes p ↔ p ≠ o ∧ l.Writes p := by
  simp only [unlockBy, Writes, Bool.and_eq_true, decide_eq_true_eq]
  constructor
  · rintro ⟨⟨hw, hne⟩, rfl⟩
    exact ⟨fun heq => hne heq.symm, hw, rfl⟩
  · rintro ⟨hne, hw, rfl⟩
    exact ⟨⟨hw, fun heq => hne heq.symm⟩, rfl⟩

theorem holds_unlockBy : (l.unlockBy o).2.Holds p ↔ p ≠ o ∧ l.Holds p := by
  have hreads : p ∈ (l.unlockBy o).2.r ↔ p ≠ o ∧ p ∈ l.r := by
    rw [unlockBy, mem_erase, and_comm]
  rw [Holds, writes_unlockBy, hreads, ← and_or_left]
  rfl

theorem frame_unlockBy (o : ℕ) (l : RWLock) : Frame o l (l.unlockBy o).2 := fun _ hp =>
  ⟨writes_unlockBy.trans (and_iff_right hp), holds_unlockBy.trans (and_iff_right hp)⟩

/-! The locks of all rows, of which one is changed. -/

theorem keeps_update {P : RWLock → Prop} {f : RWLock → RWLock} (hf : ∀ l, P l → P (f l))
    {locks : ℕ → RWLock} {row : ℕ} (h : P (locks row)) (row' : ℕ) :
    P (update locks row' (f (locks row')) row) := by
  rcases eq_or_ne row row' with rfl | hne
  · rw [update_self]
    exact hf _ h
  · rw [update_of_ne hne]
    exact h

theorem frame_update {f : RWLock → RWLock} (hf : ∀ l, Frame o l (f l)) (locks : ℕ → RWLock)
    (row' row : ℕ) : Frame o (locks row) (update locks row' (f (locks row')) row) :=
  keeps_update (fun _ h => h.trans (hf _)) (Frame.refl o _) row'

end RWLock

end Fiss.Memdb
