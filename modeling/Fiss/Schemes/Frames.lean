import Mathlib

/-! Cutting a stream into frames with one buffer: every element is appended to the buffer, and when
    a test on the buffer passes, the buffer is handed over as a frame and emptied. Frames and rest
    are determined by the stream alone: `cut_eq_iff` says they are the one way of writing it as
    frames that pass the test at their end and not before, and a rest that never passes it. -/

namespace Fiss
open List

variable {α : Type} (full : List α → Bool)

/-- Append one element, and hand the buffer over if it is full now. -/
def feed (b : List (List α) × List α) (x : α) : List (List α) × List α :=
  if full (b.2 ++ [x]) then (b.1 ++ [b.2 ++ [x]], []) else (b.1, b.2 ++ [x])

/-- The frames handed over on a stream, and what is left in the buffer. -/
def cut (xs : List α) : List (List α) × List α := xs.foldl (feed full) ([], [])

/-- The buffer is never full while it fills up to `v`. -/
def Open (v : List α) : Prop := ∀ u, u <+: v → u ≠ [] → full u = false

/-- The buffer is full at `f` and was not before. -/
def Frame (f : List α) : Prop := ∃ v x, f = v ++ [x] ∧ Open full v ∧ full f = true

variable {full} {xs v f : List α} {fs : List (List α)} {x : α}

theorem open_nil : Open full ([] : List α) :=
  fun _ hu hne => absurd (prefix_nil.mp hu) hne

theorem open_concat : Open full (v ++ [x]) ↔ Open full v ∧ full (v ++ [x]) = false := by
  constructor
  · intro h
    exact ⟨fun u hu => h u (hu.trans (prefix_append v [x])),
      h _ prefix_rfl (append_ne_nil_of_right_ne_nil v (cons_ne_nil x []))⟩
  · rintro ⟨hv, hx⟩ u hu hne
    rcases prefix_concat_iff.mp hu with rfl | hu
    · exact hx
    · exact hv u hu hne

theorem cut_concat (xs : List α) (x : α) : cut full (xs ++ [x]) = feed full (cut full xs) x := by
  rw [cut, foldl_append]; rfl

theorem flatten_cut (xs : List α) : (cut full xs).1.flatten ++ (cut full xs).2 = xs := by
  induction xs using reverseRecOn with
  | nil => rfl
  | append_singleton xs x ih =>
    rw [cut_concat, feed]
    split
    · rw [flatten_concat, append_nil, ← append_assoc, ih]
    · rw [← append_assoc, ih]

theorem open_cut (xs : List α) : Open full (cut full xs).2 := by
  induction xs using reverseRecOn with
  | nil => exact open_nil
  | append_singleton xs x ih =>
    rw [cut_concat, feed]
    split
    · exact open_nil
    · exact open_concat.mpr ⟨ih, eq_false_of_ne_true ‹_›⟩

theorem frame_of_mem_cut (xs : List α) : ∀ f ∈ (cut full xs).1, Frame full f := by
  induction xs using reverseRecOn with
  | nil => exact forall_mem_nil _
  | append_singleton xs x ih =>
    rw [cut_concat, feed]
    split
    · exact forall_mem_append.mpr
        ⟨ih, forall_mem_singleton.mpr ⟨_, x, rfl, open_cut xs, ‹_›⟩⟩
    · exact ih

theorem foldl_feed_open (hv : Open full v) (fs : List (List α)) :
    v.foldl (feed full) (fs, []) = (fs, v) := by
  induction v using reverseRecOn with
  | nil => rfl
  | append_singleton v x ih =>
    obtain ⟨hv, hx⟩ := open_concat.mp hv
    rw [foldl_append, ih hv, foldl_cons, foldl_nil, feed, if_neg (by simp [hx])]

theorem foldl_feed_frame (hf : Frame full f) (fs : List (List α)) :
    f.foldl (feed full) (fs, []) = (fs ++ [f], []) := by
  obtain ⟨v, x, rfl, hv, hx⟩ := hf
  rw [foldl_append, foldl_feed_open hv, foldl_cons, foldl_nil, feed, if_pos hx]

theorem foldl_feed_frames (hfs : ∀ f ∈ fs, Frame full f) (gs : List (List α)) :
    fs.flatten.foldl (feed full) (gs, []) = (gs ++ fs, []) := by
  induction fs generalizing gs with
  | nil => rw [append_nil]; rfl
  | cons f fs ih =>
    rw [forall_mem_cons] at hfs
    rw [flatten_cons, foldl_append, foldl_feed_frame hfs.1, ih hfs.2,
      append_assoc, singleton_append]

theorem cut_eq_iff : cut full xs = (fs, v) ↔
    xs = fs.flatten ++ v ∧ (∀ f ∈ fs, Frame full f) ∧ Open full v := by
  constructor
  · intro h
    obtain rfl : fs = (cut full xs).1 := by rw [h]
    obtain rfl : v = (cut full xs).2 := by rw [h]
    exact ⟨(flatten_cut xs).symm, frame_of_mem_cut xs, open_cut xs⟩
  · rintro ⟨rfl, hfs, hv⟩
    rw [cut, foldl_append, foldl_feed_frames hfs, foldl_feed_open hv, nil_append]

end Fiss
