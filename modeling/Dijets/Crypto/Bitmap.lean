import Mathlib.Data.List.Sort
import Dijets.Lib.ByteBits

/-!
# The signer bitmap of a multi-signature

A `MultiEd25519Signature` records which of up to `MAX_NUM_OF_KEYS` keys signed in
a bitmap of `BITMAP_NUM_OF_BYTES` bytes, read from left to right: bit `i` is bit
`7 - i % 8` of byte `i / 8` (`multi_ed25519.rs`). The four helpers of the source,
`bitmap_set_bit`, `bitmap_get_bit`, `bitmap_count_ones` and
`bitmap_last_set_bit`, are modelled here as the source computes them, byte by
byte; an index whose byte lies outside the array is a panic, so the first two
return an `Option` with `none` for the panic.

Over them the bitmap is read as what it stands for, the list `setBits` of the
positions that are set, in increasing order, and each helper is connected to
that list: `bitmapGetBit` reads membership, `bitmapSetBit` adds a position,
`bitmapCountOnes` is the length of the list and `bitmapLastSetBit` its last
element.
-/

set_option autoImplicit false

namespace Dijets.Crypto

open Dijets.Lib

/-- `MAX_NUM_OF_KEYS`. -/
def maxNumOfKeys : ℕ := 32

theorem maxNumOfKeys_eq : maxNumOfKeys = 32 := rfl

/-- `BITMAP_NUM_OF_BYTES`. -/
def bitmapNumOfBytes : ℕ := 4

theorem bitmapNumOfBytes_eq : bitmapNumOfBytes = 4 := rfl

/-- `[u8; BITMAP_NUM_OF_BYTES]`. -/
abbrev Bitmap := Vector UInt8 bitmapNumOfBytes

/-- `[0u8; BITMAP_NUM_OF_BYTES]`, the bitmap with no bit set. -/
def zeroBitmap : Bitmap := Vector.replicate bitmapNumOfBytes 0

/-- `bitmap_set_bit`, with `none` for the panic of an index whose byte is past the
array. The source relies on every caller passing an index below 32. -/
def bitmapSetBit (input : Bitmap) (index : ℕ) : Option Bitmap :=
  let bucket := index / 8
  let bucketPos := index - bucket * 8
  if h : bucket < bitmapNumOfBytes then
    some (input.set bucket (input[bucket] ||| 128 >>> bucketPos.toUInt8))
  else none

/-- `bitmap_get_bit`, with `none` for the panic. -/
def bitmapGetBit (input : Bitmap) (index : ℕ) : Option Bool :=
  let bucket := index / 8
  let bucketPos := index - bucket * 8
  input[bucket]?.map fun byte => byte &&& 128 >>> bucketPos.toUInt8 != 0

/-- `bitmap_count_ones`: the sum of the bytes' `count_ones`. -/
def bitmapCountOnes (input : Bitmap) : ℕ := (input.toList.map countOnes).sum

/-- `bitmap_last_set_bit`: the first nonzero byte from the end, and in it the
least significant set bit, as a position from the left. -/
def bitmapLastSetBit (input : Bitmap) : Option UInt8 :=
  (input.toList.reverse.zipIdx.find? fun p => p.1 != 0).map
    fun p => (8 * (bitmapNumOfBytes - p.2) - trailingZeros p.1 - 1).toUInt8

/-! ## The positions a bitmap marks -/

/-- Bit `i` of the bitmap, counted from the left. -/
def bit (b : Bitmap) (i : ℕ) : Bool := msbBit b.toList i

theorem bit_eq (b : Bitmap) (i : ℕ) : bit b i = msbBit b.toList i := rfl

/-- The marked positions, in increasing order. -/
def setBits (b : Bitmap) : List ℕ := (List.range maxNumOfKeys).filter (bit b)

theorem setBits_eq (b : Bitmap) : setBits b = (List.range maxNumOfKeys).filter (bit b) := rfl

theorem bit_of_le (b : Bitmap) {i : ℕ} (hi : maxNumOfKeys ≤ i) : bit b i = false := by
  apply msbBit_of_le
  rw [Vector.length_toList]
  simp only [bitmapNumOfBytes_eq]
  simp only [maxNumOfKeys_eq] at hi
  omega

@[simp] theorem bit_zeroBitmap (i : ℕ) : bit zeroBitmap i = false := by
  simp [bit_eq, zeroBitmap]

theorem mem_setBits {b : Bitmap} {i : ℕ} : i ∈ setBits b ↔ i < maxNumOfKeys ∧ bit b i = true := by
  simp [setBits_eq]

@[simp] theorem setBits_zeroBitmap : setBits zeroBitmap = [] := by
  simp [setBits_eq]

theorem lt_of_mem_setBits {b : Bitmap} {i : ℕ} (h : i ∈ setBits b) : i < maxNumOfKeys :=
  (Iff.mp mem_setBits h).1

theorem pairwise_setBits (b : Bitmap) : (setBits b).Pairwise (· < ·) :=
  List.pairwise_lt_range.filter _

/-- A bitmap that marks exactly the members of a strictly increasing list of
positions in range has that list as its `setBits`. -/
theorem setBits_eq_of_bit_iff {b : Bitmap} {l : List ℕ} (hl : l.Pairwise (· < ·))
    (hlt : ∀ i ∈ l, i < maxNumOfKeys) (h : ∀ i, bit b i = true ↔ i ∈ l) : setBits b = l := by
  apply (pairwise_setBits b).eq_of_mem_iff hl
  intro i
  rw [mem_setBits, h]
  exact ⟨fun hi => hi.2, fun hi => ⟨hlt i hi, hi⟩⟩

/-- The marked positions from `i` on, in increasing order: what is left for a
walk over the bitmap that has reached position `i`. -/
def setBitsFrom (b : Bitmap) (i : ℕ) : List ℕ := (List.range' i (maxNumOfKeys - i)).filter (bit b)

theorem setBitsFrom_eq (b : Bitmap) (i : ℕ) :
    setBitsFrom b i = (List.range' i (maxNumOfKeys - i)).filter (bit b) := rfl

theorem setBitsFrom_zero (b : Bitmap) : setBitsFrom b 0 = setBits b := by
  rw [setBitsFrom_eq, setBits_eq, Nat.sub_zero, List.range_eq_range']

theorem setBitsFrom_of_le (b : Bitmap) {i : ℕ} (hi : maxNumOfKeys ≤ i) : setBitsFrom b i = [] := by
  rw [setBitsFrom_eq, Nat.sub_eq_zero_of_le hi, List.range'_zero, List.filter_nil]

/-- One step of the walk: position `i` is kept if it is marked. -/
theorem setBitsFrom_of_lt (b : Bitmap) {i : ℕ} (hi : i < maxNumOfKeys) :
    setBitsFrom b i = if bit b i then i :: setBitsFrom b (i + 1) else setBitsFrom b (i + 1) := by
  obtain ⟨n, hn⟩ : ∃ n, maxNumOfKeys - i = n + 1 := ⟨maxNumOfKeys - i - 1, by omega⟩
  have hn' : maxNumOfKeys - (i + 1) = n := by omega
  rw [setBitsFrom_eq, setBitsFrom_eq, hn, hn', List.range'_succ, List.filter_cons]

/-! ## The helpers read through `bit` -/

theorem bitmapGetBit_eq (b : Bitmap) (i : ℕ) :
    bitmapGetBit b i = if i < maxNumOfKeys then some (bit b i) else none := by
  unfold bitmapGetBit
  rw [bit_eq, msbBit_eq]
  dsimp only
  split
  · have hb : i / 8 < bitmapNumOfBytes := by simp only [bitmapNumOfBytes_eq, maxNumOfKeys_eq] at *; omega
    rw [Vector.getElem?_eq_getElem hb, Option.map_some, and_msbMask _ (by omega),
      List.getD_eq_getElem?_getD, Vector.getElem?_toList, Vector.getElem?_eq_getElem hb,
      Option.getD_some]
    congr 3
    omega
  · rw [Vector.getElem?_eq_none (by simp only [bitmapNumOfBytes_eq, maxNumOfKeys_eq] at *; omega),
      Option.map_none]

theorem bitmapSetBit_eq_none {b : Bitmap} {i : ℕ} : bitmapSetBit b i = none ↔ maxNumOfKeys ≤ i := by
  unfold bitmapSetBit
  dsimp only
  by_cases hb : i / 8 < bitmapNumOfBytes
  · rw [dif_pos hb]
    simp only [bitmapNumOfBytes_eq, maxNumOfKeys_eq] at hb ⊢
    simp only [reduceCtorEq, false_iff, not_le]
    omega
  · rw [dif_neg hb]
    simp only [bitmapNumOfBytes_eq, maxNumOfKeys_eq] at hb ⊢
    simp only [true_iff]
    omega

theorem bitmapSetBit_isSome {b : Bitmap} {i : ℕ} (hi : i < maxNumOfKeys) :
    ∃ b', bitmapSetBit b i = some b' := by
  cases h : bitmapSetBit b i with
  | none => exact absurd (Iff.mp bitmapSetBit_eq_none h) (by omega)
  | some b' => exact ⟨b', rfl⟩

/-- Setting a bit marks that position and keeps every other. -/
theorem bit_of_bitmapSetBit {b b' : Bitmap} {i : ℕ} (h : bitmapSetBit b i = some b') (j : ℕ) :
    bit b' j = (bit b j || decide (j = i)) := by
  unfold bitmapSetBit at h
  dsimp only at h
  split at h
  · rename_i hb
    cases h
    have hb' : i / 8 < b.toList.length := by simpa using hb
    have := msbBit_set hb' j
    rw [Vector.getElem_toList] at this
    simpa [bit_eq, Vector.toList_set] using this
  · cases h

/-- `bitmap_count_ones` counts the marked positions. -/
theorem bitmapCountOnes_eq (b : Bitmap) : bitmapCountOnes b = (setBits b).length := by
  rw [bitmapCountOnes, sum_countOnes, List.countP_eq_length_filter, Vector.length_toList]
  rfl

theorem bitmapLastSetBit_eq (b : Bitmap) :
    bitmapLastSetBit b = (lastSetBit b.toList).map Nat.toUInt8 := by
  simp only [bitmapLastSetBit, lastSetBit, Option.map_map, Vector.length_toList]
  rfl

/-- `bitmap_last_set_bit` finds nothing exactly when no position is marked. -/
theorem bitmapLastSetBit_eq_none {b : Bitmap} : bitmapLastSetBit b = none ↔ setBits b = [] := by
  rw [bitmapLastSetBit_eq, Option.map_eq_none_iff, lastSetBit_eq_none, List.eq_nil_iff_forall_not_mem]
  constructor
  · intro h i hi
    rw [mem_setBits, bit_eq, h] at hi
    simp at hi
  · intro h i
    by_cases hi : i < maxNumOfKeys
    · by_contra hset
      exact h i (Iff.mpr mem_setBits ⟨hi, by simpa [bit_eq] using hset⟩)
    · exact bit_of_le b (by omega)

/-- What `bitmap_last_set_bit` finds is the largest marked position. -/
theorem bitmapLastSetBit_eq_some {b : Bitmap} {l : UInt8} (h : bitmapLastSetBit b = some l) :
    l.toNat ∈ setBits b ∧ ∀ i ∈ setBits b, i ≤ l.toNat := by
  rw [bitmapLastSetBit_eq, Option.map_eq_some_iff] at h
  obtain ⟨m, hm, rfl⟩ := h
  obtain ⟨hset, hmax⟩ := lastSetBit_eq_some hm
  have hlt : m < maxNumOfKeys := by
    by_contra hge
    rw [show msbBit b.toList m = bit b m from rfl, bit_of_le b (by omega)] at hset
    exact Bool.false_ne_true hset
  have hcast : m.toUInt8.toNat = m := by
    simp [Nat.toUInt8, maxNumOfKeys_eq] at hlt ⊢
    omega
  rw [hcast]
  exact ⟨Iff.mpr mem_setBits ⟨hlt, hset⟩, fun i hi => hmax i (Iff.mp mem_setBits hi).2⟩

end Dijets.Crypto
