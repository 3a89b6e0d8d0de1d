import Mathlib

/-!
# Byte strings as bit strings, most significant bit first

A bitmap stored in bytes is read here the way a person reads it written out in
binary: bit `0` is the most significant bit of byte `0`, bit `7` its least
significant bit, bit `8` the most significant bit of byte `1`, and so on. The
code that implements such a bitmap works on bytes, with a mask `128 >> pos`, a
population count per byte and a count of trailing zeros; this module connects
each of those byte-level operations to the bit string.

## Main definitions

* `countOnes`, `trailingZeros` — the byte operations `count_ones` and
  `trailing_zeros` of Rust's `u8`.
* `msbBit bytes i` — bit `i` of `bytes`, most significant bit first; clear beyond
  the end.
* `lastSetBit bytes` — the position of the last set bit, found the way a scan
  from the last byte finds it.

## Main results

* `and_msbMask`, `testBit_or_msbMask` — testing and setting through the mask.
* `sum_countOnes` — the per-byte counts add up to the number of set bits.
* `lastSetBit_eq_none`, `lastSetBit_eq_some` — the scan finds the largest set bit.
-/

namespace Dijets.Lib

/-! ## Operations on one byte -/

/-- `u8::count_ones`: the number of set bits. -/
def countOnes (x : UInt8) : ℕ := (List.range 8).countP x.toNat.testBit

/-- `u8::trailing_zeros`: the position of the least significant set bit, or `8`
for zero. -/
def trailingZeros (x : UInt8) : ℕ := ((List.range 8).find? x.toNat.testBit).getD 8

theorem testBit_toNat_of_le (x : UInt8) {k : ℕ} (hk : 8 ≤ k) : x.toNat.testBit k = false :=
  Nat.testBit_lt_two_pow (Nat.lt_of_lt_of_le x.toNat_lt (Nat.pow_le_pow_right (by decide) hk))

theorem trailingZeros_le (x : UInt8) : trailingZeros x ≤ 8 := by
  unfold trailingZeros
  cases h : (List.range 8).find? x.toNat.testBit with
  | none => simp
  | some k =>
    have := List.mem_range.mp (List.mem_of_find?_eq_some h)
    simp only [Option.getD_some]
    omega

/-- The least significant set bit of a nonzero byte is where `trailingZeros` says,
and every bit below it is clear. -/
theorem testBit_trailingZeros {x : UInt8} (hx : x ≠ 0) :
    trailingZeros x < 8 ∧ x.toNat.testBit (trailingZeros x) ∧
      ∀ k < trailingZeros x, x.toNat.testBit k = false := by
  have hx' : x.toNat ≠ 0 := fun h => hx (UInt8.toNat_inj.mp h)
  obtain ⟨i, hi⟩ := Nat.exists_testBit_of_ne_zero hx'
  have hi8 : i < 8 := by
    by_contra hge
    rw [testBit_toNat_of_le x (by omega)] at hi
    exact Bool.false_ne_true hi
  cases hk : (List.range 8).find? x.toNat.testBit with
  | none =>
    have := List.find?_range_eq_none.mp hk i hi8
    simp [hi] at this
  | some k =>
    -- the search stops at the first set bit, having passed only clear ones
    obtain ⟨hkset, hk8, hbelow⟩ := List.find?_range_eq_some.mp hk
    simp only [trailingZeros, hk, Option.getD_some]
    exact ⟨List.mem_range.mp hk8, hkset, fun j hj => by simpa using hbelow j hj⟩

/-! ## The mask `128 >> pos` -/

theorem toNat_msbMask {pos : ℕ} (hpos : pos < 8) :
    ((128 : UInt8) >>> pos.toUInt8).toNat = 2 ^ (7 - pos) := by
  have hmod : pos.toUInt8.toNat % 8 = pos := by
    simp [Nat.toUInt8]
    omega
  rw [UInt8.toNat_shiftRight, hmod, Nat.shiftRight_eq_div_pow,
    show UInt8.toNat 128 = 2 ^ 7 from rfl]
  exact Nat.pow_div (by omega) (by decide)

theorem and_two_pow_ne_zero (x k : ℕ) : x &&& 2 ^ k ≠ 0 ↔ x.testBit k = true := by
  constructor
  · intro h
    by_contra hb
    apply h
    apply Nat.eq_of_testBit_eq
    intro i
    simp only [Nat.testBit_and, Nat.testBit_two_pow, Nat.zero_testBit]
    by_cases hi : k = i
    · subst hi
      simpa using hb
    · simp [hi]
  · intro h h0
    have := congrArg (fun n => n.testBit k) h0
    simp [Nat.testBit_and, h] at this

/-- Testing a byte against the mask for position `pos` reads bit `7 - pos`. -/
theorem and_msbMask (x : UInt8) {pos : ℕ} (hpos : pos < 8) :
    (x &&& (128 >>> pos.toUInt8) != 0) = x.toNat.testBit (7 - pos) := by
  have h : x &&& (128 >>> pos.toUInt8) ≠ 0 ↔ x.toNat.testBit (7 - pos) = true := by
    rw [ne_eq, ← UInt8.toNat_inj, UInt8.toNat_and, toNat_msbMask hpos]
    exact and_two_pow_ne_zero _ _
  cases hb : x.toNat.testBit (7 - pos) <;> simp_all

/-- Or-ing the mask for position `pos` sets bit `7 - pos` and no other. -/
theorem testBit_or_msbMask (x : UInt8) {pos : ℕ} (hpos : pos < 8) (k : ℕ) :
    (x ||| (128 >>> pos.toUInt8)).toNat.testBit k = (x.toNat.testBit k || decide (7 - pos = k)) := by
  rw [UInt8.toNat_or, toNat_msbMask hpos, Nat.testBit_or, Nat.testBit_two_pow]

/-! ## Bit strings -/

/-- Bit `i` of `bytes`, most significant bit of each byte first; clear beyond the
last byte. -/
def msbBit (bytes : List UInt8) (i : ℕ) : Bool :=
  (bytes.getD (i / 8) 0).toNat.testBit (7 - i % 8)

theorem msbBit_eq (bytes : List UInt8) (i : ℕ) :
    msbBit bytes i = (bytes.getD (i / 8) 0).toNat.testBit (7 - i % 8) := rfl

theorem msbBit_cons (x : UInt8) (bytes : List UInt8) (i : ℕ) :
    msbBit (x :: bytes) i = if i < 8 then x.toNat.testBit (7 - i) else msbBit bytes (i - 8) := by
  simp only [msbBit_eq]
  split
  · rw [Nat.div_eq_of_lt ‹_›, Nat.mod_eq_of_lt ‹_›, List.getD_cons_zero]
  · obtain ⟨j, rfl⟩ : ∃ j, i = j + 8 := ⟨i - 8, by omega⟩
    simp [Nat.add_div_right, Nat.add_mod_right]

theorem msbBit_of_le {bytes : List UInt8} {i : ℕ} (hi : 8 * bytes.length ≤ i) :
    msbBit bytes i = false := by
  simp [msbBit_eq, List.getD_eq_getElem?_getD, List.getElem?_eq_none (by omega : bytes.length ≤ i / 8)]

/-- Bit `i` of a string of zero bytes is clear. -/
@[simp] theorem msbBit_replicate_zero (n i : ℕ) : msbBit (List.replicate n 0) i = false := by
  simp only [msbBit_eq]
  rw [List.getD_eq_getElem?_getD, List.getElem?_replicate]
  split <;> simp

/-- Zero bytes appended at the end set no bit: the bit string of a vector resized with
zeros is the one it had. -/
@[simp] theorem msbBit_append_replicate_zero (bytes : List UInt8) (n i : ℕ) :
    msbBit (bytes ++ List.replicate n 0) i = msbBit bytes i := by
  simp only [msbBit_eq, List.getD_eq_getElem?_getD]
  by_cases hi : i / 8 < bytes.length
  · rw [List.getElem?_append_left hi]
  · have hnone : bytes[i / 8]? = none := List.getElem?_eq_none (by omega)
    rw [List.getElem?_append_right (by omega), hnone, List.getElem?_replicate]
    split <;> rfl

theorem msbBit_append_singleton (bytes : List UInt8) (x : UInt8) (i : ℕ) :
    msbBit (bytes ++ [x]) i =
      if i < 8 * bytes.length then msbBit bytes i
      else if i < 8 * bytes.length + 8 then x.toNat.testBit (7 - i % 8) else false := by
  simp only [msbBit_eq]
  rw [List.getD_eq_getElem?_getD, List.getD_eq_getElem?_getD]
  split
  · rw [List.getElem?_append_left (by omega)]
  · rw [List.getElem?_append_right (by omega)]
    split
    · rw [show i / 8 - bytes.length = 0 by omega]
      rfl
    · rw [List.getElem?_singleton, if_neg (by omega)]
      simp

/-- Setting bit `index` of a byte string through its byte and the mask. -/
theorem msbBit_set {bytes : List UInt8} {index : ℕ} (hindex : index / 8 < bytes.length) (j : ℕ) :
    msbBit (bytes.set (index / 8) (bytes[index / 8] ||| (128 >>> (index - index / 8 * 8).toUInt8))) j =
      (msbBit bytes j || decide (j = index)) := by
  have hpos : index - index / 8 * 8 < 8 := by omega
  simp only [msbBit_eq]
  rw [List.getD_eq_getElem?_getD, List.getD_eq_getElem?_getD, List.getElem?_set]
  by_cases hj : j / 8 = index / 8
  · rw [if_pos hj.symm, if_pos (by omega), Option.getD_some, hj, List.getElem?_eq_getElem hindex,
      Option.getD_some, testBit_or_msbMask _ hpos]
    congr 1
    simp only [decide_eq_decide]
    omega
  · have hne : j ≠ index := fun h => hj (by rw [h])
    rw [if_neg (Ne.symm hj)]
    simp [hne]

/-- The bytewise `&` of two byte strings, as long as the shorter one, holds the bits both hold. -/
theorem msbBit_zipWith_and (a b : List UInt8) (i : ℕ) :
    msbBit (List.zipWith (· &&& ·) a b) i = (msbBit a i && msbBit b i) := by
  simp only [msbBit_eq]
  rw [List.getD_eq_getElem?_getD, List.getD_eq_getElem?_getD, List.getD_eq_getElem?_getD,
    List.getElem?_zipWith]
  cases a[i / 8]? <;> cases b[i / 8]? <;> simp [Nat.testBit_and]

/-- The number of set bits, counted byte by byte. -/
theorem sum_countOnes (bytes : List UInt8) :
    (bytes.map countOnes).sum = (List.range (8 * bytes.length)).countP (msbBit bytes) := by
  induction bytes with
  | nil => rfl
  | cons x bytes ih =>
    -- the first byte holds positions `0..8`, the rest are shifted by `8`
    rw [List.map_cons, List.sum_cons, ih, List.length_cons, Nat.mul_succ, Nat.add_comm _ 8,
      List.range_add, List.countP_append, List.countP_map]
    congr 1
    · have hrev : (List.range 8).reverse = (List.range 8).map (7 - ·) := by decide
      rw [countOnes, ← List.countP_reverse, hrev, List.countP_map]
      apply List.countP_congr
      intro i hi
      have hi8 := List.mem_range.mp hi
      simp [msbBit_cons, hi8]
    · apply List.countP_congr
      intro i _
      simp [msbBit_cons]

/-! ## The last set bit -/

/-- The position of the last set bit: scan the bytes from the last, and in the
first nonzero one take its least significant set bit. -/
def lastSetBit (bytes : List UInt8) : Option ℕ :=
  (bytes.reverse.zipIdx.find? fun p => p.1 != 0).map
    fun p => 8 * (bytes.length - p.2) - trailingZeros p.1 - 1

theorem lastSetBit_append_singleton (bytes : List UInt8) (x : UInt8) :
    lastSetBit (bytes ++ [x]) =
      if x = 0 then lastSetBit bytes else some (8 * bytes.length + 7 - trailingZeros x) := by
  have htz := trailingZeros_le x
  unfold lastSetBit
  rw [List.reverse_append, List.reverse_singleton, List.singleton_append, List.zipIdx_cons,
    List.zipIdx_succ, List.length_append, List.length_singleton]
  by_cases hx : x = 0
  · -- a zero last byte is passed over, and the positions of the others move by one
    subst hx
    rw [if_pos rfl, List.find?_cons_of_neg (by decide), List.find?_map, Option.map_map]
    congr 1
    funext p
    simp only [Function.comp]
    omega
  · rw [if_neg hx, List.find?_cons_of_pos (by simpa using hx), Option.map_some]
    congr 1
    dsimp only
    omega

theorem lastSetBit_nil : lastSetBit [] = none := rfl

/-- No bit is set exactly when the scan finds nothing. -/
theorem lastSetBit_eq_none (bytes : List UInt8) :
    lastSetBit bytes = none ↔ ∀ i, msbBit bytes i = false := by
  induction bytes using List.reverseRecOn with
  | nil => simp [lastSetBit_nil, msbBit_eq]
  | append_singleton bytes x ih =>
    rw [lastSetBit_append_singleton]
    by_cases hx : x = 0
    · rw [if_pos hx, ih]
      constructor
      · intro h i
        rw [msbBit_append_singleton]
        subst hx
        split
        · exact h i
        · split <;> simp
      · intro h i
        by_cases hi : i < 8 * bytes.length
        · simpa [msbBit_append_singleton, hi] using h i
        · exact msbBit_of_le (by omega)
    · rw [if_neg hx]
      simp only [reduceCtorEq, false_iff, not_forall]
      -- the least significant set bit of `x` is a set bit of the string
      obtain ⟨h8, hset, -⟩ := testBit_trailingZeros hx
      refine ⟨8 * bytes.length + 7 - trailingZeros x, ?_⟩
      rw [msbBit_append_singleton, if_neg (by omega), if_pos (by omega)]
      have : 7 - (8 * bytes.length + 7 - trailingZeros x) % 8 = trailingZeros x := by omega
      rw [this, hset]
      decide

/-- What the scan finds is a set bit, and no later bit is set. -/
theorem lastSetBit_eq_some {bytes : List UInt8} {m : ℕ} (h : lastSetBit bytes = some m) :
    msbBit bytes m = true ∧ ∀ i, msbBit bytes i = true → i ≤ m := by
  induction bytes using List.reverseRecOn generalizing m with
  | nil => simp [lastSetBit_nil] at h
  | append_singleton bytes x ih =>
    rw [lastSetBit_append_singleton] at h
    by_cases hx : x = 0
    · rw [if_pos hx] at h
      obtain ⟨hm, hmax⟩ := ih h
      have hlt : m < 8 * bytes.length := by
        by_contra hge
        rw [msbBit_of_le (by omega)] at hm
        exact Bool.false_ne_true hm
      refine ⟨by rw [msbBit_append_singleton, if_pos hlt]; exact hm, fun i hi => ?_⟩
      rw [msbBit_append_singleton] at hi
      subst hx
      split at hi
      · exact hmax i hi
      · split at hi <;> simp at hi
    · rw [if_neg hx, Option.some.injEq] at h
      subst h
      obtain ⟨h8, hset, hbelow⟩ := testBit_trailingZeros hx
      have hmod : 7 - (8 * bytes.length + 7 - trailingZeros x) % 8 = trailingZeros x := by omega
      refine ⟨?_, fun i hi => ?_⟩
      · rw [msbBit_append_singleton, if_neg (by omega), if_pos (by omega), hmod, hset]
      · rw [msbBit_append_singleton] at hi
        split at hi
        · omega
        · split at hi
          · -- a later bit of `x` would lie below its least significant set bit
            by_contra hgt
            rw [hbelow (7 - i % 8) (by omega)] at hi
            exact Bool.false_ne_true hi
          · exact absurd hi (by simp)

end Dijets.Lib
