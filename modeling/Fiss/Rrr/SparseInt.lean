import Mathlib

/-! The variable-length integers of the messages (`SparseInt` of `rrr/base/basetypes.cpp`): nine
    length classes, a prefix of ones in the first byte that says which, and below it the bytes of
    the value from the highest to the lowest. A buffer is the list of its bytes; reading past its
    end has no result. `dump` yields what it returns and the cells it writes, from `buf[0]` on. The
    machine is little-endian.

    The class of eight bytes writes nine, returns eight and is read as nine: exactly there a dumped
    value does not come back. -/

namespace Fiss.Rrr.SparseInt
open List Function Option

abbrev Byte := BitVec 8

/-- `pv[i]`: byte `i` of the value in memory. -/
def byteOf {w : ℕ} (val : BitVec w) (i : ℕ) : Byte := val.extractLsb' (8 * i) 8

def bufSize (byte0 : Byte) : ℕ :=
  if byte0 &&& 0x80 = 0 then 1
  else if byte0 &&& 0xC0 = 0x80 then 2
  else if byte0 &&& 0xE0 = 0xC0 then 3
  else if byte0 &&& 0xF0 = 0xE0 then 4
  else if byte0 &&& 0xF8 = 0xF0 then 5
  else if byte0 &&& 0xFC = 0xF8 then 6
  else if byte0 &&& 0xFE = 0xFC then 7
  else if byte0 &&& 0xFF = 0xFE then 8
  else 9

def valSize (val : ℤ) : ℕ :=
  if -64 ≤ val ∧ val ≤ 63 then 1
  else if -8192 ≤ val ∧ val ≤ 8191 then 2
  else if -1048576 ≤ val ∧ val ≤ 1048575 then 3
  else if -134217728 ≤ val ∧ val ≤ 134217727 then 4
  else if -17179869184 ≤ val ∧ val ≤ 17179869183 then 5
  else if -2199023255552 ≤ val ∧ val ≤ 2199023255551 then 6
  else if -281474976710656 ≤ val ∧ val ≤ 281474976710655 then 7
  else if -36028797018963968 ≤ val ∧ val ≤ 36028797018963967 then 8
  else 9

/-- `dump` of an `i32`. -/
def dump32 (v : BitVec 32) : ℕ × List Byte :=
  let val := v.toInt
  let pv := byteOf v
  if -64 ≤ val ∧ val ≤ 63 then (1, [pv 0 &&& 0x7F])
  else if -8192 ≤ val ∧ val ≤ 8191 then (2, [pv 1 &&& 0x3F ||| 0x80, pv 0])
  else if -1048576 ≤ val ∧ val ≤ 1048575 then (3, [pv 2 &&& 0x1F ||| 0xC0, pv 1, pv 0])
  else if -134217728 ≤ val ∧ val ≤ 134217727 then
    (4, [pv 3 &&& 0x0F ||| 0xE0, pv 2, pv 1, pv 0])
  else (5, [if val < 0 then 0xF7 else 0xF0, pv 3, pv 2, pv 1, pv 0])

/-- `dump` of an `i64`. -/
def dump64 (v : BitVec 64) : ℕ × List Byte :=
  let val := v.toInt
  let pv := byteOf v
  if -64 ≤ val ∧ val ≤ 63 then (1, [pv 0 &&& 0x7F])
  else if -8192 ≤ val ∧ val ≤ 8191 then (2, [pv 1 &&& 0x3F ||| 0x80, pv 0])
  else if -1048576 ≤ val ∧ val ≤ 1048575 then (3, [pv 2 &&& 0x1F ||| 0xC0, pv 1, pv 0])
  else if -134217728 ≤ val ∧ val ≤ 134217727 then
    (4, [pv 3 &&& 0x0F ||| 0xE0, pv 2, pv 1, pv 0])
  else if -17179869184 ≤ val ∧ val ≤ 17179869183 then
    (5, [pv 4 &&& 0x07 ||| 0xF0, pv 3, pv 2, pv 1, pv 0])
  else if -2199023255552 ≤ val ∧ val ≤ 2199023255551 then
    (6, [pv 5 &&& 0x03 ||| 0xF8, pv 4, pv 3, pv 2, pv 1, pv 0])
  else if -281474976710656 ≤ val ∧ val ≤ 281474976710655 then
    (7, [pv 6 &&& 0x01 ||| 0xFC, pv 5, pv 4, pv 3, pv 2, pv 1, pv 0])
  else if -36028797018963968 ≤ val ∧ val ≤ 36028797018963967 then
    (8, [0xFE, pv 7, pv 6, pv 5, pv 4, pv 3, pv 2, pv 1, pv 0])
  else (9, [0xFF, pv 7, pv 6, pv 5, pv 4, pv 3, pv 2, pv 1, pv 0])

/-- `for (int i = 0; i < n; i++) pv[i] = read(i)`, over a value that is zero before. -/
def copyBytes (read : ℕ → Option Byte) : ℕ → Option (ℕ → Byte)
  | 0 => some fun _ => 0
  | n + 1 => do
    let pv ← copyBytes read n
    let b ← read n
    some (update pv n b)

/-- The bytes `load_i32` and `load_i64` leave in the value: one of `n` bytes, in the short form up
    to a size below `limit`. -/
def load (n limit : ℕ) (buf : List Byte) : Option (ℕ → Byte) := do
  let byte0 ← buf[0]?
  let bsize := bufSize byte0
  if bsize < limit then
    let pv ← copyBytes (fun i => buf[bsize - i - 1]?) bsize
    let top := pv (bsize - 1) &&& ((0xFF : Byte) >>> bsize)
    if (top >>> (7 - bsize)) &&& 1 ≠ 0 then
      some fun i =>
        if i < bsize - 1 then pv i
        else if i = bsize - 1 then top ||| ((0xFF : Byte) <<< (7 - bsize))
        else 0xFF
    else some (update pv (bsize - 1) top)
  else copyBytes (fun i => buf[n - i]?) n

def loadI32 (buf : List Byte) : Option (BitVec 32) :=
  (load 4 5 buf).map fun pv => pv 3 ++ pv 2 ++ pv 1 ++ pv 0

def loadI64 (buf : List Byte) : Option (BitVec 64) :=
  (load 8 8 buf).map fun pv =>
    pv 7 ++ pv 6 ++ pv 5 ++ pv 4 ++ pv 3 ++ pv 2 ++ pv 1 ++ pv 0

/-! ### Bytes of an integer -/

/-- Byte `i` of an integer of any width. -/
def byteAt (x : ℤ) (i : ℕ) : Byte := BitVec.ofInt 8 (x / 256 ^ i)

variable {i : ℕ}

theorem byteOf_eq {w : ℕ} (v : BitVec w) (hi : 8 * (i + 1) ≤ w) :
    byteOf v i = byteAt v.toInt i := by
  apply BitVec.eq_of_toNat_eq
  rw [byteOf, byteAt, BitVec.extractLsb'_toNat, BitVec.toNat_ofInt, Nat.shiftRight_eq_div_pow,
    BitVec.toInt_eq_toNat_cond]
  have hpow : (2 : ℕ) ^ (8 * i) = 256 ^ i := by rw [pow_mul]; norm_num
  rw [hpow]
  split
  · norm_cast
  · -- the sign adds a multiple of `256 ^ (i + 1)`
    have hw : ((2 ^ w : ℕ) : ℤ) = 256 * 2 ^ (w - 8 * (i + 1)) * 256 ^ i := by
      have : w = 8 + (w - 8 * (i + 1)) + 8 * i := by omega
      rw [Nat.cast_pow]
      conv_lhs => rw [this, pow_add, pow_add, pow_mul _ 8 i]
      norm_num
    rw [hw, Int.sub_mul_ediv_right _ _ (by positivity)]
    have : ((v.toNat : ℤ) / 256 ^ i - 256 * 2 ^ (w - 8 * (i + 1))) % 256 =
        (v.toNat : ℤ) / 256 ^ i % 256 := Int.sub_mul_emod_self_left _ _ _
    norm_num only [Nat.reducePow, Nat.cast_ofNat]
    rw [this]
    norm_cast

variable {x : ℤ}

theorem byteAt_sign (hl : -256 ^ i ≤ x) (hu : x < 256 ^ i) :
    byteAt x i = if x < 0 then 0xFF else 0 := by
  rw [byteAt]
  split
  · have : x / 256 ^ i = -1 := by
      rw [Int.ediv_eq_iff_of_pos (by positivity)]
      omega
    rw [this]
    rfl
  · rw [Int.ediv_eq_zero_of_lt (not_lt.mp ‹_›) hu]
    rfl

theorem toInt_byteAt (hl : -128 ≤ x / 256 ^ i) (hu : x / 256 ^ i < 128) :
    (byteAt x i).toInt = x / 256 ^ i := by
  rw [byteAt, BitVec.toInt_ofInt]
  exact Int.bmod_eq_of_le (by simpa using hl) (by simpa using hu)

/-! ### The short forms -/

/-- A first byte, and below it the lowest `n` bytes of the value. -/
def long (n : ℕ) (byte0 : Byte) (x : ℤ) : List Byte :=
  byte0 :: (range n).reverse.map (byteAt x)

theorem long_get {n : ℕ} {byte0 : Byte} (hi : i < n) :
    (long n byte0 x)[n - i]? = some (byteAt x i) := by
  obtain ⟨j, hj⟩ : ∃ j, n - i = j + 1 := ⟨n - i - 1, by omega⟩
  rw [hj, long, getElem?_cons_succ, getElem?_map, getElem?_reverse (by simp; omega),
    length_range, getElem?_range (by omega)]
  simp only [map_some]
  congr 2
  omega

/-- The first byte of the form of `k ≤ 7` bytes: `k - 1` ones and a zero, then bits of the value. -/
def head (k : ℕ) (b : Byte) : Byte := b &&& (0xFF >>> k) ||| (0xFF <<< (9 - k))

/-- The bytes of a short form. -/
def short (k : ℕ) (x : ℤ) : List Byte := long (k - 1) (head k (byteAt x (k - 1))) x

theorem bufSize_head : ∀ k ∈ Finset.Icc 1 7, ∀ b : Byte, bufSize (head k b) = k := by
  decide +kernel

theorem restore_head : ∀ k ∈ Finset.Icc 1 7, ∀ b : Byte,
    -2 ^ (7 - k) ≤ b.toInt → b.toInt < 2 ^ (7 - k) →
      let top := head k b &&& ((0xFF : Byte) >>> k)
      if b.toInt < 0 then (top >>> (7 - k)) &&& 1 ≠ 0 ∧ top ||| ((0xFF : Byte) <<< (7 - k)) = b
      else (top >>> (7 - k)) &&& 1 = 0 ∧ top = b := by
  decide +kernel

theorem copyBytes_eq {read : ℕ → Option Byte} {n : ℕ} {g : ℕ → Byte}
    (h : ∀ i < n, read i = some (g i)) :
    copyBytes read n = some fun i => if i < n then g i else 0 := by
  induction n with
  | zero => simp [copyBytes]
  | succ n ih =>
    rw [copyBytes, ih fun i hi => h i (by omega), h n (by omega)]
    refine congrArg some (funext fun i => ?_)
    rcases lt_trichotomy i n with hi | rfl | hi
    · simp [hi.ne, hi, Nat.lt_succ_of_lt hi]
    · simp
    · simp [hi.ne', hi.not_gt, show ¬ i < n + 1 by omega]

theorem short_get {k : ℕ} (hi : i < k) : (short k x)[k - i - 1]? =
      some (if i = k - 1 then head k (byteAt x (k - 1)) else byteAt x i) := by
  rw [short, show k - i - 1 = k - 1 - i by omega]
  split
  · next h => simp [h, long]
  · exact long_get (by omega)

theorem byteAt_top {k : ℕ} (hk : k ∈ Finset.Icc 1 7) (hl : -2 ^ (7 * k - 1) ≤ x)
    (hu : x < 2 ^ (7 * k - 1)) : -2 ^ (7 - k) ≤ (byteAt x (k - 1)).toInt ∧
      (byteAt x (k - 1)).toInt < 2 ^ (7 - k) ∧ ((byteAt x (k - 1)).toInt < 0 ↔ x < 0) := by
  obtain ⟨hk1, hk7⟩ := Finset.mem_Icc.mp hk
  have hpow : (2 : ℤ) ^ (7 * k - 1) = 2 ^ (7 - k) * 256 ^ (k - 1) := by
    rw [show 7 * k - 1 = 7 - k + 8 * (k - 1) by omega, pow_add, pow_mul]
    norm_num
  have hp : (0 : ℤ) < 256 ^ (k - 1) := by positivity
  have h64 : (2 : ℤ) ^ (7 - k) ≤ 2 ^ 6 := pow_le_pow_right₀ (by norm_num) (by omega)
  have hyl : -2 ^ (7 - k) ≤ x / 256 ^ (k - 1) := by
    rw [Int.le_ediv_iff_mul_le hp]; linarith
  have hyu : x / 256 ^ (k - 1) < 2 ^ (7 - k) := by
    rw [Int.ediv_lt_iff_lt_mul hp]; linarith
  rw [toInt_byteAt (by linarith) (by linarith)]
  exact ⟨hyl, hyu, by rw [Int.ediv_lt_iff_lt_mul hp, zero_mul]⟩

theorem byteAt_above {k : ℕ} (hl : -2 ^ (7 * k - 1) ≤ x) (hu : x < 2 ^ (7 * k - 1)) (hi : k ≤ i) :
    byteAt x i = if x < 0 then 0xFF else 0 := by
  have : (2 : ℤ) ^ (7 * k - 1) ≤ 256 ^ i := by
    rw [show (256 : ℤ) = 2 ^ 8 by norm_num, ← pow_mul]
    exact pow_le_pow_right₀ (by norm_num) (by omega)
  exact byteAt_sign (by linarith) (by linarith)

theorem load_short {n limit k : ℕ} (hk : k ∈ Finset.Icc 1 7) (hlim : k < limit)
    (hl : -2 ^ (7 * k - 1) ≤ x) (hu : x < 2 ^ (7 * k - 1)) :
    load n limit (short k x) = some (byteAt x) := by
  obtain ⟨hk1, hk7⟩ := Finset.mem_Icc.mp hk
  obtain ⟨hbl, hbu, hneg⟩ := byteAt_top hk hl hu
  have hres := restore_head k hk (byteAt x (k - 1)) hbl hbu
  simp only [hneg] at hres
  have h0 : (short k x)[0]? = some (head k (byteAt x (k - 1))) := rfl
  have hcopy := copyBytes_eq fun i hi => short_get (x := x) (k := k) (i := i) hi
  simp only [load, h0, bufSize_head k hk, if_pos hlim, hcopy, bind_eq_bind,
    bind_some, if_pos (show k - 1 < k by omega), if_true]
  by_cases hx : x < 0
  · rw [if_pos hx] at hres
    rw [if_pos hres.1]
    refine congrArg some (funext fun i => ?_)
    rcases lt_trichotomy i (k - 1) with hi | rfl | hi
    · rw [if_pos hi, if_pos (by omega), if_neg hi.ne]
    · rw [if_neg (lt_irrefl _), if_pos rfl]
      exact hres.2
    · rw [if_neg hi.not_gt, if_neg hi.ne', byteAt_above hl hu (by omega), if_pos hx]
  · rw [if_neg hx] at hres
    rw [if_neg (not_not.mpr hres.1)]
    refine congrArg some (funext fun i => ?_)
    rcases lt_trichotomy i (k - 1) with hi | rfl | hi
    · rw [update_of_ne hi.ne, if_pos (by omega), if_neg hi.ne]
    · rw [update_self]
      exact hres.2
    · rw [update_of_ne hi.ne', if_neg (by omega), byteAt_above hl hu (by omega),
        if_neg hx]

/-! ### The long forms -/

theorem load_long {n limit : ℕ} {byte0 : Byte} (h : ¬ bufSize byte0 < limit) (x : ℤ) :
    load n limit (long n byte0 x) = some fun i => if i < n then byteAt x i else 0 := by
  have h0 : (long n byte0 x)[0]? = some byte0 := rfl
  simp only [load, h0, bind_eq_bind, bind_some, if_neg h]
  exact copyBytes_eq fun i hi => long_get hi

/-! ### The classes -/

theorem valSize_cases (x : ℤ) : valSize x ∈ Finset.Icc 1 7 ∧
      -2 ^ (7 * valSize x - 1) ≤ x ∧ x < 2 ^ (7 * valSize x - 1) ∨
    valSize x = 8 ∨ valSize x = 9 := by
  fun_cases valSize x
  case case8 => exact .inr (.inl rfl)
  case case9 => exact .inr (.inr rfl)
  all_goals exact .inl ⟨by decide, by omega, by omega⟩

theorem valSize_eq_eight (x : ℤ) :
    valSize x = 8 ↔ -2 ^ 55 ≤ x ∧ x < 2 ^ 55 ∧ (x < -2 ^ 48 ∨ 2 ^ 48 ≤ x) := by
  fun_cases valSize x <;> omega

theorem short_one (x : ℤ) : short 1 x = [byteAt x 0 &&& 0x7F] := by
  have : head 1 (byteAt x 0) = byteAt x 0 &&& 0x7F := BitVec.or_zero
  simp [short, long, this]

theorem dump64_eq (v : BitVec 64) : dump64 v = (valSize v.toInt,
    if valSize v.toInt = 8 then long 8 0xFE v.toInt
    else if valSize v.toInt = 9 then long 8 0xFF v.toInt else short (valSize v.toInt) v.toInt) := by
  have hpv : ∀ i < 8, byteOf v i = byteAt v.toInt i := fun i hi => byteOf_eq v (by omega)
  simp only [dump64, hpv 0 (by omega), hpv 1 (by omega), hpv 2 (by omega), hpv 3 (by omega),
    hpv 4 (by omega), hpv 5 (by omega), hpv 6 (by omega), hpv 7 (by omega)]
  fun_cases valSize v.toInt
  case case1 h => rw [if_pos h, short_one]; rfl
  all_goals simp only [if_true, if_false, *]; rfl

theorem short_five (hl : -2 ^ 31 ≤ x) (hu : x < 2 ^ 31) : short 5 x =
    [if x < 0 then 0xF7 else 0xF0, byteAt x 3, byteAt x 2, byteAt x 1, byteAt x 0] := by
  have hsign : byteAt x 4 = if x < 0 then 0xFF else 0 := byteAt_sign (by omega) (by omega)
  have hhead : head 5 (byteAt x 4) = if x < 0 then 0xF7 else 0xF0 := by
    rw [hsign]
    split <;> rfl
  exact congrArg (· :: _) hhead

theorem valSize_le_five (hl : -2 ^ 31 ≤ x) (hu : x < 2 ^ 31) : valSize x ≤ 5 := by
  fun_cases valSize x <;> omega

theorem dump32_eq (v : BitVec 32) :
    dump32 v = (valSize v.toInt, short (valSize v.toInt) v.toInt) := by
  have hpv : ∀ i < 4, byteOf v i = byteAt v.toInt i := fun i hi => byteOf_eq v (by omega)
  have hl : -2 ^ 31 ≤ v.toInt := BitVec.le_toInt v
  have hu : v.toInt < 2 ^ 31 := BitVec.toInt_lt
  have h5 : valSize v.toInt ≤ 5 := valSize_le_five hl hu
  simp only [dump32, hpv 0 (by omega), hpv 1 (by omega), hpv 2 (by omega), hpv 3 (by omega)]
  revert h5
  fun_cases valSize v.toInt
  case case1 h => rw [if_pos h, short_one]; exact fun _ => rfl
  case case5 => simp [short_five hl hu, *]
  case case2 | case3 | case4 => simp only [if_false, *]; exact fun _ => rfl
  all_goals intro h5; omega

/-! ### Round trips -/

theorem bytes32 (v : BitVec 32) : byteOf v 3 ++ byteOf v 2 ++ byteOf v 1 ++ byteOf v 0 = v := by
  have hjoin := @BitVec.extractLsb'_append_extractLsb'_eq_extractLsb'
  unfold byteOf
  rw [hjoin (by rfl), hjoin (by rfl), hjoin (by rfl)]
  exact BitVec.extractLsb'_eq_self

theorem bytes64 (v : BitVec 64) : byteOf v 7 ++ byteOf v 6 ++ byteOf v 5 ++ byteOf v 4 ++
    byteOf v 3 ++ byteOf v 2 ++ byteOf v 1 ++ byteOf v 0 = v := by
  have hjoin := @BitVec.extractLsb'_append_extractLsb'_eq_extractLsb'
  unfold byteOf
  rw [hjoin (by rfl), hjoin (by rfl), hjoin (by rfl), hjoin (by rfl), hjoin (by rfl),
    hjoin (by rfl), hjoin (by rfl)]
  exact BitVec.extractLsb'_eq_self

theorem loadI32_eq {buf : List Byte} {pv : ℕ → Byte} (h : load 4 5 buf = some pv) (v : BitVec 32)
    (hpv : ∀ i < 4, pv i = byteAt v.toInt i) : loadI32 buf = some v := by
  have hv : ∀ i < 4, pv i = byteOf v i := fun i hi => by rw [hpv i hi, byteOf_eq v (by omega)]
  rw [loadI32, h, map_some, hv 0 (by omega), hv 1 (by omega), hv 2 (by omega),
    hv 3 (by omega), bytes32]

theorem loadI64_eq {buf : List Byte} {pv : ℕ → Byte} (h : load 8 8 buf = some pv) (v : BitVec 64)
    (hpv : ∀ i < 8, pv i = byteAt v.toInt i) : loadI64 buf = some v := by
  have hv : ∀ i < 8, pv i = byteOf v i := fun i hi => by rw [hpv i hi, byteOf_eq v (by omega)]
  rw [loadI64, h, map_some, hv 0 (by omega), hv 1 (by omega), hv 2 (by omega),
    hv 3 (by omega), hv 4 (by omega), hv 5 (by omega), hv 6 (by omega), hv 7 (by omega), bytes64]

/-- A dump comes back: it writes as many bytes as it returns, the number is that of the value's
    class and of the first byte's, and the bytes alone are read as the value. -/
structure Dumped {w : ℕ} (d : ℕ × List Byte) (load : List Byte → Option (BitVec w))
    (v : BitVec w) : Prop where
  written : d.2.length = d.1
  valSize : d.1 = valSize v.toInt
  bufSize : d.2.head?.map bufSize = some d.1
  load : load (d.2.take d.1) = some v

theorem length_long (n : ℕ) (byte0 : Byte) (x : ℤ) : (long n byte0 x).length = n + 1 := by
  simp [long]

theorem length_short {k : ℕ} (hk : 1 ≤ k) (x : ℤ) : (short k x).length = k :=
  (length_long _ _ x).trans (Nat.sub_add_cancel hk)

theorem dumped_short {w k : ℕ} (hk : k ∈ Finset.Icc 1 7) {v : BitVec w} (hv : valSize v.toInt = k)
    {load : List Byte → Option (BitVec w)} (hload : load (short k v.toInt) = some v) :
    Dumped (k, short k v.toInt) load v where
  written := length_short (Finset.mem_Icc.mp hk).1 _
  valSize := hv.symm
  bufSize := congrArg some (bufSize_head k hk _)
  load := by
    rw [← hload]
    exact congrArg load (take_of_length_le (length_short (Finset.mem_Icc.mp hk).1 _).le)

theorem short_of_32 (v : BitVec 32) : valSize v.toInt ∈ Finset.Icc 1 7 ∧
    -2 ^ (7 * valSize v.toInt - 1) ≤ v.toInt ∧ v.toInt < 2 ^ (7 * valSize v.toInt - 1) := by
  have h5 := valSize_le_five (BitVec.le_toInt v) BitVec.toInt_lt
  rcases valSize_cases v.toInt with h | h | h
  · exact h
  · omega
  · omega

theorem dumped32 (v : BitVec 32) : Dumped (dump32 v) loadI32 v := by
  obtain ⟨hk, hl, hu⟩ := short_of_32 v
  rw [dump32_eq]
  refine dumped_short hk rfl ?_
  rcases Nat.lt_or_ge (valSize v.toInt) 5 with h5 | h5
  · exact loadI32_eq (load_short hk h5 hl hu) v fun i _ => rfl
  · -- the form of five bytes is a long one for the 32-bit reader
    have h5 : valSize v.toInt = 5 := le_antisymm
      (valSize_le_five (BitVec.le_toInt v) BitVec.toInt_lt) h5
    rw [h5]
    have hb : ¬ bufSize (head 5 (byteAt v.toInt 4)) < 5 := by
      rw [bufSize_head 5 (by decide)]
      exact lt_irrefl 5
    exact loadI32_eq (load_long hb v.toInt) v fun i hi => if_pos hi

theorem loadI64_dump32 (v : BitVec 32) :
    loadI64 ((dump32 v).2.take (dump32 v).1) = some (v.signExtend 64) := by
  obtain ⟨hk, hl, hu⟩ := short_of_32 v
  have hx : (v.signExtend 64).toInt = v.toInt := BitVec.toInt_signExtend_of_le (by omega)
  have hlt : valSize v.toInt < 8 := by
    have := (Finset.mem_Icc.mp hk).2
    omega
  rw [dump32_eq]
  dsimp only
  rw [take_of_length_le (length_short (Finset.mem_Icc.mp hk).1 _).le]
  refine loadI64_eq (load_short hk hlt hl hu) _ fun i _ => ?_
  rw [hx]

theorem dumped64_iff (v : BitVec 64) : Dumped (dump64 v) loadI64 v ↔ valSize v.toInt ≠ 8 := by
  rw [dump64_eq]
  rcases valSize_cases v.toInt with ⟨hk, hl, hu⟩ | h8 | h9
  · have hk7 := (Finset.mem_Icc.mp hk).2
    rw [if_neg (by omega), if_neg (by omega)]
    refine iff_of_true (dumped_short hk rfl ?_) (by omega)
    exact loadI64_eq (load_short hk (by omega) hl hu) v fun i _ => rfl
  · -- nine bytes are written and eight counted
    rw [if_pos h8]
    refine iff_of_false (fun h => ?_) (not_not.mpr h8)
    have := h.written
    rw [length_long, h8] at this
    omega
  · rw [if_neg (by omega), if_pos h9]
    refine iff_of_true ⟨?_, rfl, ?_, ?_⟩ (by omega)
    · exact (length_long 8 _ _).trans h9.symm
    · exact congrArg some h9.symm
    · dsimp only
      rw [h9, take_of_length_le (length_long 8 _ _).le]
      exact loadI64_eq (load_long (by decide) v.toInt) v fun i hi => if_pos hi

/-- Every 32-bit value comes back in both widths, and a 64-bit value comes back exactly when it is
    not of the class of eight bytes. -/
theorem roundTrip_iff (v : BitVec 64) (w : BitVec 32) :
    Dumped (dump64 v) loadI64 v ∧ Dumped (dump32 w) loadI32 w ∧
        loadI64 ((dump32 w).2.take (dump32 w).1) = some (w.signExtend 64) ↔
      ¬ (-2 ^ 55 ≤ v.toInt ∧ v.toInt < 2 ^ 55 ∧ (v.toInt < -2 ^ 48 ∨ 2 ^ 48 ≤ v.toInt)) := by
  rw [dumped64_iff, ← valSize_eq_eight]
  exact and_iff_left ⟨dumped32 w, loadI64_dump32 w⟩

/-- `2 ^ 48` takes nine bytes, counts as eight, and the eight cannot be read. -/
theorem eight_bytes_cut : (dump64 0x1000000000000).2.length = 9 ∧ (dump64 0x1000000000000).1 = 8 ∧
      loadI64 ((dump64 0x1000000000000).2.take 8) = none := by
  decide +kernel

end Fiss.Rrr.SparseInt
