import Dijets.Lib.ByteBits
import Mathlib.Data.FinEnum

/-!
# The bit vector of `dijets-bitvec`

A `BitVec` is a vector of bytes read as a bit string, most significant bit first: position
`pos : u8` is bit `pos % 8` of byte `pos / 8`, counted from the left. What it is for is a
finite set of `u8` positions, `positions bv = {pos | bv.is_set(pos)}`, and each operation of
the crate is an operation on that set: `set` inserts, `&` intersects, `count_ones` is the
number of elements and `last_set_bit` the greatest.

Two of these need the bound every constructor of the crate keeps (`Bounded`): at most
`MAX_BUCKETS = 32` bytes, so that every bit of the vector is a position a `u8` can name.
`set` resizes to at most the bucket of `u8::MAX`, `&` is as long as the shorter vector, and
`deserialize` refuses longer byte strings; a vector with more bytes would count bits that
are no position, and `last_set_bit` would wrap its `as u8` cast.

The byte-level reasoning (masks, `count_ones`, `trailing_zeros` and the scan from the last
byte) is `Dijets.Lib.ByteBits`; this module instantiates it for `Vec<u8>`.

## Main definitions

* `BitVec`, `BitVec.isSet`, `BitVec.bitand` — the bit vector, `is_set` and `&`.
* `BitVec.set`, `BitVec.countOnes`, `BitVec.lastSetBit` — the other operations.
* `BitVec.deserialize`, `BitVec.serialize` — the custom `Deserialize` and the derived
  `Serialize`, on the bytes `serde_bytes` reads and writes.
* `BitVec.positions` — the set of positions a bit vector stands for.

## Main results

* `positions_set`, `positions_and` — `set` inserts and `&` intersects.
* `countOnes_eq_card`, `lastSetBit_eq_some_iff`, `lastSetBit_eq_none_iff` — the count and
  the last set bit of a bounded vector are the number and the greatest of its positions.
* `bitVec_refines_positions` — the whole refinement, with `deserialize` accepting exactly the
  byte strings of at most `MAX_BUCKETS` bytes and inverting `serialize`.
-/

set_option autoImplicit false

namespace Dijets.Net

open Dijets.Lib

/-! ## The bit vector -/

/-- `bitvec::BUCKET_SIZE`: bits per byte. -/
def BUCKET_SIZE : ℕ := 8

/-- `bitvec::MAX_BUCKETS`: the bytes the positions of a `u8` fill. -/
def MAX_BUCKETS : ℕ := 32

/-- `bitvec::BitVec`: bytes, bit `0` the most significant bit of byte `0`. -/
structure BitVec where
  inner : List UInt8
deriving DecidableEq, Repr

namespace BitVec

/-- `BitVec::is_set`: a position beyond the last byte is clear. -/
def isSet (bv : BitVec) (pos : UInt8) : Bool :=
  let bucket := pos.toNat / BUCKET_SIZE
  if bv.inner.length ≤ bucket then false
  else
    let bucketPos := pos.toNat - bucket * BUCKET_SIZE
    (bv.inner.getD bucket 0 &&& (0b10000000 >>> bucketPos.toUInt8)) != 0

/-- `BitAnd for BitVec`: the bytewise `&`, as long as the shorter vector. -/
def bitand (self other : BitVec) : BitVec :=
  ⟨List.zipWith (· &&& ·) self.inner other.inner⟩

instance : AndOp BitVec := ⟨bitand⟩

theorem and_def (a b : BitVec) : a &&& b = ⟨List.zipWith (· &&& ·) a.inner b.inner⟩ := rfl

/-- `is_set` reads the bit string of the bytes. -/
theorem isSet_eq_msbBit (bv : BitVec) (pos : UInt8) : bv.isSet pos = msbBit bv.inner pos.toNat := by
  unfold isSet BUCKET_SIZE
  dsimp only
  split
  · exact (msbBit_of_le (by omega)).symm
  · rw [show pos.toNat - pos.toNat / 8 * 8 = pos.toNat % 8 by omega,
      and_msbMask _ (Nat.mod_lt _ (by decide))]
    rfl

@[simp] theorem isSet_and (a b : BitVec) (pos : UInt8) :
    (a &&& b).isSet pos = (a.isSet pos && b.isSet pos) := by
  rw [isSet_eq_msbBit, isSet_eq_msbBit, isSet_eq_msbBit, and_def, msbBit_zipWith_and]

theorem and_comm (a b : BitVec) : a &&& b = b &&& a := by
  rw [and_def, and_def, List.zipWith_comm]
  congr 2
  funext x y
  exact UInt8.and_comm y x

/-- `#[derive(Default)]`: no byte, no position. -/
instance : Inhabited BitVec := ⟨⟨[]⟩⟩

/-- `BitVec::set`: the vector is resized with zero bytes up to the position's bucket, and the
position's bit is or-ed into it. -/
def set (bv : BitVec) (pos : UInt8) : BitVec :=
  let bucket := pos.toNat / BUCKET_SIZE
  -- `self.inner.resize(bucket + 1, 0)` when the bucket is past the end
  let inner :=
    if bv.inner.length ≤ bucket then bv.inner ++ List.replicate (bucket + 1 - bv.inner.length) 0
    else bv.inner
  let bucketPos := pos.toNat - bucket * BUCKET_SIZE
  ⟨inner.set bucket (inner.getD bucket 0 ||| (0b10000000 >>> bucketPos.toUInt8))⟩

/-- `BitVec::count_ones`: the sum of the bytes' `count_ones`. -/
def countOnes (bv : BitVec) : ℕ := (bv.inner.map Lib.countOnes).sum

/-- `BitVec::last_set_bit`: the first nonzero byte from the end, and in it the least
significant set bit, as a position from the left cast `as u8`. -/
def lastSetBit (bv : BitVec) : Option UInt8 :=
  (bv.inner.reverse.zipIdx.find? fun p => p.1 != 0).map
    fun p => (8 * (bv.inner.length - p.2) - trailingZeros p.1 - 1).toUInt8

/-- `Deserialize for BitVec`: the bytes `serde_bytes` reads, refused past `MAX_BUCKETS`. -/
def deserialize (v : List UInt8) : Except String BitVec :=
  if v.length > MAX_BUCKETS then
    let len := v.length
    .error s!"BitVec too long: {len}"
  else .ok ⟨v⟩

/-- `Serialize for BitVec`: the bytes of `inner`, which `serde_bytes` writes as they are. -/
def serialize (bv : BitVec) : List UInt8 := bv.inner

/-! ## The bound the constructors keep -/

/-- At most `MAX_BUCKETS` bytes: every bit of the vector is a `u8` position. -/
def Bounded (bv : BitVec) : Prop := bv.inner.length ≤ MAX_BUCKETS

theorem bounded_default : (default : BitVec).Bounded := Nat.zero_le _

/-- The bytes of `set`: the vector resized to the bucket, if it was shorter, and the bucket's
byte with the mask or-ed in. -/
theorem inner_set (bv : BitVec) (pos : UInt8) :
    (bv.set pos).inner =
      let inner := bv.inner ++ List.replicate (pos.toNat / 8 + 1 - bv.inner.length) 0
      inner.set (pos.toNat / 8) (inner[pos.toNat / 8]?.getD 0 ||| (128 >>> (pos.toNat % 8).toUInt8)) := by
  unfold set
  dsimp only
  have hmod : pos.toNat - pos.toNat / 8 * 8 = pos.toNat % 8 := by omega
  by_cases hle : bv.inner.length ≤ pos.toNat / BUCKET_SIZE
  · rw [if_pos hle]
    simp only [BUCKET_SIZE, hmod, List.getD_eq_getElem?_getD]
  · -- the bucket is in the vector already: the resize adds nothing
    rw [if_neg hle]
    have hzero : pos.toNat / 8 + 1 - bv.inner.length = 0 := by
      unfold BUCKET_SIZE at hle
      omega
    simp only [BUCKET_SIZE, hmod, List.getD_eq_getElem?_getD, hzero, List.replicate_zero, List.append_nil]

theorem length_set (bv : BitVec) (pos : UInt8) :
    (bv.set pos).inner.length = max bv.inner.length (pos.toNat / 8 + 1) := by
  rw [inner_set]
  simp only [List.length_set, List.length_append, List.length_replicate]
  omega

theorem Bounded.set {bv : BitVec} (h : bv.Bounded) (pos : UInt8) : (bv.set pos).Bounded := by
  have hpos := pos.toNat_lt
  unfold Bounded MAX_BUCKETS at *
  rw [length_set]
  omega

theorem Bounded.and {a : BitVec} (h : a.Bounded) (b : BitVec) : (a &&& b).Bounded := by
  unfold Bounded at *
  rw [and_def, List.length_zipWith]
  omega

/-! ## The set of positions -/

/-- The positions `bv` marks: the finite set of `u8` it stands for. -/
def positions (bv : BitVec) : Finset UInt8 := Finset.univ.filter fun pos => bv.isSet pos = true

theorem mem_positions {bv : BitVec} {pos : UInt8} : pos ∈ bv.positions ↔ msbBit bv.inner pos.toNat = true := by
  rw [positions, Finset.mem_filter, isSet_eq_msbBit]
  exact and_iff_right (Finset.mem_univ _)

/-- Setting a position marks it and keeps every other. -/
theorem isSet_set (bv : BitVec) (pos i : UInt8) : (bv.set pos).isSet i = (bv.isSet i || decide (i = pos)) := by
  rw [isSet_eq_msbBit, isSet_eq_msbBit, inner_set]
  dsimp only
  have hlt : pos.toNat / 8 < (bv.inner ++ List.replicate (pos.toNat / 8 + 1 - bv.inner.length) 0).length := by
    rw [List.length_append, List.length_replicate]
    omega
  have hbyte := msbBit_set hlt i.toNat
  rw [show pos.toNat - pos.toNat / 8 * 8 = pos.toNat % 8 by omega, msbBit_append_replicate_zero] at hbyte
  rw [List.getElem?_eq_getElem hlt, Option.getD_some, hbyte]
  congr 1
  exact decide_eq_decide.mpr UInt8.toNat_inj

/-- **`set` inserts.** -/
theorem positions_set (bv : BitVec) (pos : UInt8) : (bv.set pos).positions = insert pos bv.positions := by
  ext i
  rw [Finset.mem_insert, positions, Finset.mem_filter, positions, Finset.mem_filter, isSet_set]
  simp [or_comm]

/-- **`&` intersects.** -/
theorem positions_and (a b : BitVec) : (a &&& b).positions = a.positions ∩ b.positions := by
  ext i
  simp [positions]

/-! ## Counting, and the last set bit -/

theorem card_filter_range (Q : ℕ → Bool) (n : ℕ) :
    ((Finset.range n).filter fun i => Q i = true).card = (List.range n).countP Q := by
  rw [List.countP_eq_length_filter, ← List.toFinset_card_of_nodup (List.nodup_range.filter _)]
  congr 1
  ext i
  simp

/-- The number of positions, as a count over the bits of the bytes. -/
theorem card_positions {bv : BitVec} (h : bv.Bounded) :
    bv.positions.card = (List.range (8 * bv.inner.length)).countP (msbBit bv.inner) := by
  -- the positions, as numbers, are the set bits below `256`
  have hmap : bv.positions.map ⟨UInt8.toNat, fun _ _ h => UInt8.toNat_inj.mp h⟩ =
      (Finset.range 256).filter fun i => msbBit bv.inner i = true := by
    ext i
    simp only [Finset.mem_map, Finset.mem_filter, Finset.mem_range]
    constructor
    · rintro ⟨u, hu, rfl⟩
      exact ⟨u.toNat_lt, mem_positions.mp hu⟩
    · rintro ⟨hi, hset⟩
      have hcast := UInt8.toNat_ofNat_of_lt' hi
      exact ⟨i.toUInt8, mem_positions.mpr (by rw [hcast]; exact hset), hcast⟩
  rw [← Finset.card_map, hmap, card_filter_range]
  -- past the last byte every bit is clear: the count stops at `8 * length`
  have hle : 8 * bv.inner.length ≤ 256 := by
    unfold Bounded MAX_BUCKETS at h
    omega
  obtain ⟨k, hk⟩ := Nat.exists_eq_add_of_le hle
  rw [hk, List.range_add, List.countP_append, List.countP_map]
  have hzero : (List.range k).countP (msbBit bv.inner ∘ (8 * bv.inner.length + ·)) = 0 := by
    rw [List.countP_eq_zero]
    intro i _
    simp [msbBit_of_le]
  rw [hzero, Nat.add_zero]

/-- **`count_ones` counts the positions** of a bounded vector. -/
theorem countOnes_eq_card {bv : BitVec} (h : bv.Bounded) : bv.countOnes = bv.positions.card := by
  rw [countOnes, sum_countOnes, card_positions h]

theorem lastSetBit_eq (bv : BitVec) : bv.lastSetBit = (Lib.lastSetBit bv.inner).map Nat.toUInt8 := by
  simp only [lastSetBit, Lib.lastSetBit, Option.map_map]
  rfl

/-- **`last_set_bit` finds nothing exactly when no position is marked**, for a bounded vector:
a longer one could hold a set bit past every `u8` position. -/
theorem lastSetBit_eq_none_iff {bv : BitVec} (h : bv.Bounded) : bv.lastSetBit = none ↔ bv.positions = ∅ := by
  rw [lastSetBit_eq, Option.map_eq_none_iff, Lib.lastSetBit_eq_none, Finset.eq_empty_iff_forall_notMem]
  constructor
  · intro hclear pos hpos
    rw [mem_positions, hclear] at hpos
    exact Bool.false_ne_true hpos
  · intro hnone i
    by_cases hi : i < 8 * bv.inner.length
    · -- a bit of the bytes is a position: `i < 256`
      have h256 : i < 256 := by
        unfold Bounded MAX_BUCKETS at h
        omega
      have hnot := hnone i.toUInt8
      rw [mem_positions, UInt8.toNat_ofNat_of_lt' h256] at hnot
      simpa using hnot
    · exact msbBit_of_le (by omega)

/-- What the scan finds in a bounded vector is a position, and its cast to `u8` is exact. -/
theorem lastSetBit_eq_some {bv : BitVec} (h : bv.Bounded) {m : UInt8} (hm : bv.lastSetBit = some m) :
    m ∈ bv.positions ∧ ∀ i ∈ bv.positions, i ≤ m := by
  rw [lastSetBit_eq, Option.map_eq_some_iff] at hm
  obtain ⟨n, hn, rfl⟩ := hm
  obtain ⟨hset, hmax⟩ := Lib.lastSetBit_eq_some hn
  have hlt : n < 256 := by
    by_contra hge
    rw [msbBit_of_le (by unfold Bounded MAX_BUCKETS at h; omega)] at hset
    exact Bool.false_ne_true hset
  have hcast : n.toUInt8.toNat = n := UInt8.toNat_ofNat_of_lt' hlt
  refine ⟨by rw [mem_positions, hcast]; exact hset, fun i hi => ?_⟩
  rw [UInt8.le_iff_toNat_le, hcast]
  exact hmax i.toNat (mem_positions.mp hi)

/-- **`last_set_bit` is the greatest position** of a bounded vector. -/
theorem lastSetBit_eq_some_iff {bv : BitVec} (h : bv.Bounded) (m : UInt8) :
    bv.lastSetBit = some m ↔ m ∈ bv.positions ∧ ∀ i ∈ bv.positions, i ≤ m := by
  refine ⟨lastSetBit_eq_some h, fun ⟨hm, hmax⟩ => ?_⟩
  -- some position is marked, so the scan finds one; both are the greatest
  cases hlast : bv.lastSetBit with
  | none =>
    rw [lastSetBit_eq_none_iff h] at hlast
    rw [hlast] at hm
    exact absurd hm (Finset.notMem_empty m)
  | some m' =>
    obtain ⟨hm', hmax'⟩ := lastSetBit_eq_some h hlast
    exact congrArg some (UInt8.le_antisymm (hmax m' hm') (hmax' m hm))

/-! ## Deserialization -/

/-- `deserialize` accepts exactly the byte strings of at most `MAX_BUCKETS` bytes, and keeps
their bytes. -/
theorem deserialize_eq_ok_iff {v : List UInt8} {bv : BitVec} :
    deserialize v = .ok bv ↔ v.length ≤ MAX_BUCKETS ∧ bv = ⟨v⟩ := by
  unfold deserialize
  split
  · simp only [reduceCtorEq, false_iff, not_and]
    omega
  · rename_i hle
    simp only [Except.ok.injEq]
    exact ⟨fun heq => ⟨by omega, heq.symm⟩, fun h => h.2.symm⟩

theorem Bounded.of_deserialize {v : List UInt8} {bv : BitVec} (h : deserialize v = .ok bv) : bv.Bounded := by
  obtain ⟨hle, rfl⟩ := deserialize_eq_ok_iff.mp h
  exact hle

theorem deserialize_serialize {bv : BitVec} (h : bv.Bounded) : deserialize bv.serialize = .ok bv :=
  deserialize_eq_ok_iff.mpr ⟨h, rfl⟩

/-- **The bit vector refines the finite sets of `u8`** under `positions`: `set` inserts, `&`
intersects, `count_ones` counts and `last_set_bit` finds the greatest element of a vector of at
most `MAX_BUCKETS` bytes, which every constructor builds; and `deserialize` accepts exactly
those byte strings, inverting `serialize`. -/
theorem bitVec_refines_positions :
    (∀ (bv : BitVec) (j : UInt8), (bv.set j).positions = insert j bv.positions) ∧
    (∀ a b : BitVec, (a &&& b).positions = a.positions ∩ b.positions) ∧
    (∀ bv : BitVec, bv.Bounded → bv.countOnes = bv.positions.card) ∧
    (∀ bv : BitVec, bv.Bounded → ∀ m, bv.lastSetBit = some m ↔ m ∈ bv.positions ∧ ∀ i ∈ bv.positions, i ≤ m) ∧
    (∀ bv : BitVec, bv.Bounded → (bv.lastSetBit = none ↔ bv.positions = ∅)) ∧
    (∀ v : List UInt8, (∃ bv, deserialize v = .ok bv) ↔ v.length ≤ MAX_BUCKETS) ∧
    (∀ bv : BitVec, bv.Bounded → deserialize bv.serialize = .ok bv) :=
  ⟨positions_set, positions_and, fun _ h => countOnes_eq_card h, fun _ h => lastSetBit_eq_some_iff h,
    fun _ h => lastSetBit_eq_none_iff h,
    fun _ => ⟨fun ⟨_, h⟩ => (deserialize_eq_ok_iff.mp h).1, fun h => ⟨_, deserialize_eq_ok_iff.mpr ⟨h, rfl⟩⟩⟩,
    fun _ h => deserialize_serialize h⟩

-- the crate's doc example: positions 2 and 5, counted, the last found
example : ((((default : BitVec).set 2).set 5).positions = {2, 5}) ∧
    (((default : BitVec).set 2).set 5).countOnes = 2 ∧
    (((default : BitVec).set 2).set 5).lastSetBit = some 5 := by
  decide

end BitVec

end Dijets.Net
