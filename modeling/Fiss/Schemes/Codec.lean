import Mathlib

/-! Messages as byte streams: encoders with the decoders that undo them, and the loop of a decoder
    that reads a known number of items. A decoder takes its value off the front of the stream and
    leaves the rest, so round trips compose: what was written one after another is read one after
    another. -/

namespace Fiss
open List Option

/-- A decoder: a value and the rest of the stream. -/
abbrev Reader (α : Type) := List UInt8 → Option (α × List UInt8)

/-- An encoder, and a decoder that takes off exactly what it wrote. -/
structure Codec (α : Type) where
  put : α → List UInt8
  get : Reader α
  get_put : ∀ a rest, get (put a ++ rest) = some (a, rest)

namespace Codec

variable {α σ : Type}

/-- `n` items are read, and each changes the state or fails. -/
def readLoop (get : Reader α) (f : σ → α → Option σ) : ℕ → σ → Reader σ
  | 0, s, m => some (s, m)
  | n + 1, s, m => do
    let (a, m) ← get m
    let s ← f s a
    readLoop get f n s m

theorem readLoop_put {get : Reader α} {put : α → List UInt8} {f : σ → α → Option σ}
    {xs : List α} (h : ∀ a ∈ xs, ∀ rest, get (put a ++ rest) = some (a, rest)) (s : σ)
    (rest : List UInt8) : readLoop get f xs.length s (xs.flatMap put ++ rest) =
      (xs.foldlM f s).map fun s' => (s', rest) := by
  induction xs generalizing s with
  | nil => rfl
  | cons a xs ih =>
    rw [flatMap_cons, append_assoc, length_cons, readLoop,
      h a mem_cons_self, foldlM_cons]
    cases hs : f s a with
    | none => simp [hs]
    | some s' =>
      simp only [bind_eq_bind, bind_some, hs]
      exact ih (fun b hb => h b (mem_cons_of_mem a hb)) s'

theorem mapM_eq {β : Type} {f : α → Option β} {g : α → β} :
    ∀ {l : List α}, (∀ a ∈ l, f a = some (g a)) → l.mapM f = some (l.map g)
  | [], _ => rfl
  | a :: l, h => by simp [mapM_cons, h a, mapM_eq fun b hb => h b (mem_cons_of_mem a hb)]

/-- The number of ones before the first other byte, and what comes after that. -/
def countOnes : Reader ℕ
  | [] => none
  | b :: m => if b = 1 then (countOnes m).map fun r => (r.1 + 1, r.2) else some (0, m)

theorem countOnes_put (n : ℕ) (rest : List UInt8) :
    countOnes (replicate n 1 ++ 0 :: rest) = some (n, rest) := by
  induction n with
  | zero => rfl
  | succ n ih => rw [replicate_succ, cons_append, countOnes, if_pos rfl, ih]; rfl

/-- Any type whose values can be numbered has a codec. -/
def numbered (α : Type) [Encodable α] : Codec α where
  put a := replicate (Encodable.encode a) 1 ++ [0]
  get m := (countOnes m).bind fun r => (Encodable.decode r.1).map fun a => (a, r.2)
  get_put a rest := by
    rw [append_assoc, singleton_append, countOnes_put, bind_some,
      Encodable.encodek, map_some]

end Codec

end Fiss
