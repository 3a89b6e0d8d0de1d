import Mathlib

/-!
# ULEB128

`write_u64_as_uleb128` and `read_uleb128_as_u64` (`file_format_common.rs`), the codec of
every index, count and length in a Move binary. A number is written seven bits a byte,
lowest first, the high bit of every byte but the last set; `Uleb128.encode` says so on `ℕ`,
and both functions are proved against it.

The writer appends, through `BinaryData::push`, exactly the encoding of its value
(`writeU64AsUleb128_eq`). The reader's loop, from the value and the shift it has reached,
reads one encoding and adds its number at that shift (`readUleb128Loop_encode`), and every
input it accepts starts with such an encoding (`encode_of_readUleb128Loop`): the overflow
test `(cur << shift) >> shift != cur` keeps the value within 64 bits, and the test on the
last byte refuses a zero after the first. So the two functions are inverse on canonical
encodings (`uleb128_roundtrip_canonical`).

A cursor is modelled by the bytes it has left; a `BinaryData` by its bytes.
-/

set_option autoImplicit false

namespace Dijets.Move

namespace Uleb128

/-- The ULEB128 encoding of a number, seven bits a byte, lowest first. -/
def encode (n : ℕ) : List UInt8 :=
  if n < 128 then [n.toUInt8] else (n % 128 + 128).toUInt8 :: encode (n / 128)
termination_by n
decreasing_by omega

theorem encode_of_lt {n : ℕ} (h : n < 128) : encode n = [n.toUInt8] := by
  rw [encode, if_pos h]

theorem encode_of_le {n : ℕ} (h : 128 ≤ n) :
    encode n = (n % 128 + 128).toUInt8 :: encode (n / 128) := by
  rw [encode, if_neg (by omega)]

theorem length_encode_le (n : ℕ) : (encode n).length ≤ n / 128 + 1 := by
  induction n using Nat.strongRecOn with
  | ind n ih =>
    by_cases h : n < 128
    · simp [encode_of_lt h]
    · have hrec := ih (n / 128) (by omega)
      rw [encode_of_le (by omega), List.length_cons]
      omega

end Uleb128

/-! ## The bit operations of the codec, on `toNat` -/

section Bits

theorem toNat_and_0x7f (v : UInt64) : (v &&& 0x7f).toNat = v.toNat % 128 := by
  rw [UInt64.toNat_and]
  exact Nat.and_two_pow_sub_one_eq_mod _ 7

theorem toNat_shiftRight_seven (v : UInt64) : (v >>> 7).toNat = v.toNat / 128 := by
  rw [UInt64.toNat_shiftRight, Nat.shiftRight_eq_div_pow]
  rfl

/-- The payload of a byte, as a `u64`. -/
theorem toNat_payload (b : UInt8) : (b &&& 0x7f).toUInt64.toNat = b.toNat % 128 := by
  rw [UInt8.toNat_toUInt64, UInt8.toNat_and]
  exact Nat.and_two_pow_sub_one_eq_mod _ 7

/-- A byte ends a number exactly when its high bit is clear. -/
theorem and_0x80_eq_zero (b : UInt8) : b &&& 0x80 = 0 ↔ b.toNat < 128 := by
  rw [← UInt8.toNat_inj, UInt8.toNat_and]
  have hb := b.toNat_lt
  have h : (0x80 : UInt8).toNat = 2 ^ 7 := rfl
  rw [h, Nat.and_two_pow]
  simp [Nat.testBit_eq_decide_div_mod_eq]
  omega

theorem toNat_shiftLeft_of_lt (c : UInt64) {s : ℕ} (hs : s < 64) :
    (c <<< s.toUInt64).toNat = c.toNat * 2 ^ s % 2 ^ 64 := by
  rw [UInt64.toNat_shiftLeft, Nat.shiftLeft_eq]
  simp [Nat.mod_eq_of_lt hs]

theorem toNat_shiftRight_of_lt (c : UInt64) {s : ℕ} (hs : s < 64) :
    (c >>> s.toUInt64).toNat = c.toNat / 2 ^ s := by
  rw [UInt64.toNat_shiftRight, Nat.shiftRight_eq_div_pow]
  simp [Nat.mod_eq_of_lt hs]

/-- The reader's overflow test passes exactly when no bit is shifted out. -/
theorem shiftLeft_shiftRight_eq_iff (c : UInt64) {s : ℕ} (hs : s < 64) :
    (c <<< s.toUInt64) >>> s.toUInt64 = c ↔ c.toNat * 2 ^ s < 2 ^ 64 := by
  rw [← UInt64.toNat_inj, toNat_shiftRight_of_lt _ hs, toNat_shiftLeft_of_lt _ hs]
  have hpos : 0 < 2 ^ s := Nat.two_pow_pos s
  constructor
  · intro h
    calc c.toNat * 2 ^ s = c.toNat * 2 ^ s % 2 ^ 64 / 2 ^ s * 2 ^ s := by rw [h]
      _ ≤ c.toNat * 2 ^ s % 2 ^ 64 := Nat.div_mul_le_self _ _
      _ < 2 ^ 64 := Nat.mod_lt _ (Nat.two_pow_pos 64)
  · intro h
    rw [Nat.mod_eq_of_lt h, Nat.mul_div_cancel _ hpos]

/-- Or-ing in a payload above the bits collected so far adds it. -/
theorem toNat_or_shiftLeft (value c : UInt64) {s : ℕ} (hs : s < 64) (hv : value.toNat < 2 ^ s)
    (hc : c.toNat * 2 ^ s < 2 ^ 64) :
    (value ||| c <<< s.toUInt64).toNat = value.toNat + c.toNat * 2 ^ s := by
  rw [UInt64.toNat_or, toNat_shiftLeft_of_lt _ hs, Nat.mod_eq_of_lt hc, ← Nat.shiftLeft_eq,
    Nat.or_comm, ← Nat.shiftLeft_add_eq_or_of_lt hv]
  omega

/-- The byte the writer emits before the last. -/
theorem continuation_byte (v : UInt64) :
    ((v &&& 0x7f) ||| 0x80).toUInt8 = (v.toNat % 128 + 128).toUInt8 := by
  rw [← UInt8.toNat_inj, UInt64.toNat_toUInt8, UInt64.toNat_or, toNat_and_0x7f]
  have hor : v.toNat % 128 ||| (0x80 : UInt64).toNat = v.toNat % 128 + 128 := by
    have h : (0x80 : UInt64).toNat = 1 <<< 7 := rfl
    rw [h, Nat.or_comm,
      ← Nat.shiftLeft_add_eq_or_of_lt (show v.toNat % 128 < 2 ^ 7 from Nat.mod_lt _ (by decide))]
    omega
  rw [hor]
  simp

/-- The byte the writer emits last. -/
theorem last_byte {v : UInt64} (h : v.toNat < 128) : (v &&& 0x7f).toUInt8 = v.toNat.toUInt8 := by
  rw [← UInt8.toNat_inj, UInt64.toNat_toUInt8, toNat_and_0x7f, Nat.mod_eq_of_lt h]
  simp

end Bits

/-! ## The writer -/

/-- `BINARY_SIZE_LIMIT`, `usize::max_value()`. -/
def BINARY_SIZE_LIMIT : ℕ := 2 ^ 64 - 1

/-- `BinaryData::push`: the byte is appended unless the length would overflow a `usize`. -/
def BinaryData.push (binary : List UInt8) (item : UInt8) : Except String (List UInt8) :=
  if binary.length + 1 < 2 ^ 64 then .ok (binary ++ [item])
  else .error ("binary size (" ++ toString binary.length ++ ") + 1 is greater than limit (" ++
    toString BINARY_SIZE_LIMIT ++ ")")

theorem push_eq_ok {binary : List UInt8} {item : UInt8} (h : binary.length + 1 < 2 ^ 64) :
    BinaryData.push binary item = .ok (binary ++ [item]) := by
  rw [BinaryData.push, if_pos h]

/-- `write_u64_as_uleb128`: while bits are left above the low seven, a byte of the low seven
with the high bit set, and the value shifted down; then the last byte. -/
def writeU64AsUleb128 (binary : List UInt8) (val : UInt64) : Except String (List UInt8) :=
  let cur := val &&& 0x7f
  if cur ≠ val then do
    let binary ← BinaryData.push binary (cur ||| 0x80).toUInt8
    writeU64AsUleb128 binary (val >>> 7)
  else BinaryData.push binary cur.toUInt8
termination_by val.toNat
decreasing_by
  rename_i h
  have hne : val.toNat % 128 ≠ val.toNat := fun he => h (UInt64.toNat_inj.mp (by
    rw [toNat_and_0x7f, he]))
  rw [toNat_shiftRight_seven]
  omega

/-- **The writer appends the encoding of its value**, when the binary has room for it. -/
theorem writeU64AsUleb128_eq (binary : List UInt8) (val : UInt64)
    (h : binary.length + (Uleb128.encode val.toNat).length < 2 ^ 64) :
    writeU64AsUleb128 binary val = .ok (binary ++ Uleb128.encode val.toNat) := by
  induction binary, val using writeU64AsUleb128.induct with
  | case1 binary val cur hne ih =>
    -- bits above the low seven: the value is at least 128
    have hle : 128 ≤ val.toNat := by
      by_contra hlt
      exact hne (UInt64.toNat_inj.mp (by rw [toNat_and_0x7f, Nat.mod_eq_of_lt (by omega)]))
    rw [Uleb128.encode_of_le hle, List.length_cons] at h
    rw [writeU64AsUleb128, if_pos hne, push_eq_ok (by omega), continuation_byte]
    have hrest := ih (binary ++ [(val.toNat % 128 + 128).toUInt8])
      (by rw [toNat_shiftRight_seven, List.length_append, List.length_singleton]; omega)
    rw [toNat_shiftRight_seven] at hrest
    simp only [bind, Except.bind, hrest, Uleb128.encode_of_le hle, List.append_assoc,
      List.singleton_append]
  | case2 binary val cur heq =>
    have hlt : val.toNat < 128 := by
      have hv := congrArg UInt64.toNat (not_not.mp heq)
      rw [toNat_and_0x7f] at hv
      omega
    rw [Uleb128.encode_of_lt hlt, List.length_singleton] at h
    rw [writeU64AsUleb128, if_neg heq, push_eq_ok h, last_byte hlt, Uleb128.encode_of_lt hlt]

theorem writeU64AsUleb128_nil (val : UInt64) :
    writeU64AsUleb128 [] val = .ok (Uleb128.encode val.toNat) := by
  have hlen := Uleb128.length_encode_le val.toNat
  have hval := val.toNat_lt
  simpa using writeU64AsUleb128_eq [] val (by simp; omega)

/-! ## The reader -/

/-- The error of `read_uleb128_as_u64`. -/
def invalidUleb128 : String := "invalid ULEB128 repr for usize"

/-- The loop of `read_uleb128_as_u64`, from the value and the shift reached so far, over the
bytes the cursor has left. It returns the value and the bytes after it. -/
def readUleb128Loop (value : UInt64) (shift : ℕ) :
    List UInt8 → Except String (UInt64 × List UInt8)
  -- `read_u8` fails at the end of the input, which ends the loop
  | [] => .error invalidUleb128
  | byte :: cursor =>
    let cur := (byte &&& 0x7f).toUInt64
    if (cur <<< shift.toUInt64) >>> shift.toUInt64 ≠ cur then .error invalidUleb128
    else
      let value := value ||| cur <<< shift.toUInt64
      if byte &&& 0x80 = 0 then
        if shift > 0 ∧ cur = 0 then .error invalidUleb128 else .ok (value, cursor)
      else if shift + 7 > 64 then .error invalidUleb128
      else readUleb128Loop value (shift + 7) cursor

/-- `read_uleb128_as_u64`. -/
def readUleb128AsU64 (cursor : List UInt8) : Except String (UInt64 × List UInt8) :=
  readUleb128Loop 0 0 cursor

/-- A shift at which a positive payload still fits is below 64, and so is the next one if the
payload is at least 128. -/
theorem shift_lt_of_fits {value : ℕ} {shift n : ℕ} (hn : value + n * 2 ^ shift < 2 ^ 64)
    (hpos : 0 < n) : shift < 64 := by
  have hle : 2 ^ shift ≤ n * 2 ^ shift := Nat.le_mul_of_pos_left _ hpos
  exact (Nat.pow_lt_pow_iff_right Nat.one_lt_two).mp (by omega)

/-- **The reader's loop reads one encoding**, from any value and shift at which the number fits
above the bits collected so far. -/
theorem readUleb128Loop_encode (r : List UInt8) (n : ℕ) :
    ∀ {value : UInt64} {shift : ℕ}, value.toNat < 2 ^ shift →
      value.toNat + n * 2 ^ shift < 2 ^ 64 → (0 < shift → 0 < n) →
      ∃ v : UInt64, v.toNat = value.toNat + n * 2 ^ shift ∧
        readUleb128Loop value shift (Uleb128.encode n ++ r) = .ok (v, r) := by
  induction n using Nat.strongRecOn with
  | ind n ih =>
    intro value shift hv hn hpos
    have hs : shift < 64 := by
      rcases Nat.eq_zero_or_pos shift with h0 | h0
      · omega
      · exact shift_lt_of_fits hn (hpos h0)
    by_cases hlt : n < 128
    · -- the last byte
      have hbyte : (n.toUInt8).toNat = n := by simp; omega
      have hcur : (n.toUInt8 &&& 0x7f).toUInt64.toNat = n := by
        rw [toNat_payload, hbyte, Nat.mod_eq_of_lt hlt]
      have hfit : (n.toUInt8 &&& 0x7f).toUInt64.toNat * 2 ^ shift < 2 ^ 64 := by rw [hcur]; omega
      have hcanon : ¬ (shift > 0 ∧ (n.toUInt8 &&& 0x7f).toUInt64 = 0) := by
        rintro ⟨h0, hz⟩
        have hz' := congrArg UInt64.toNat hz
        rw [hcur, UInt64.toNat_zero] at hz'
        have := hpos h0
        omega
      refine ⟨_, by rw [toNat_or_shiftLeft value _ hs hv hfit, hcur], ?_⟩
      rw [Uleb128.encode_of_lt hlt, List.singleton_append, readUleb128Loop,
        if_neg (not_not.mpr ((shiftLeft_shiftRight_eq_iff _ hs).mpr hfit)),
        if_pos ((and_0x80_eq_zero _).mpr (by omega)), if_neg hcanon]
    · -- a byte with the high bit set, then the rest of the number seven bits higher
      have hle : 128 ≤ n := by omega
      have hbyte : ((n % 128 + 128).toUInt8).toNat = n % 128 + 128 := by simp; omega
      have hcur : ((n % 128 + 128).toUInt8 &&& 0x7f).toUInt64.toNat = n % 128 := by
        rw [toNat_payload, hbyte]
        omega
      have hsplit : n * 2 ^ shift = n % 128 * 2 ^ shift + n / 128 * 2 ^ (shift + 7) := by
        conv_lhs => rw [← Nat.mod_add_div n 128]
        rw [Nat.pow_add]
        ring
      have hs7 : shift + 7 < 64 :=
        @shift_lt_of_fits (value.toNat + n % 128 * 2 ^ shift) (shift + 7) (n / 128) (by omega)
          (by omega)
      have hfit : ((n % 128 + 128).toUInt8 &&& 0x7f).toUInt64.toNat * 2 ^ shift < 2 ^ 64 := by
        rw [hcur]
        omega
      have hlow : n % 128 * 2 ^ shift ≤ 127 * 2 ^ shift :=
        Nat.mul_le_mul_right _ (by omega)
      have hv' := toNat_or_shiftLeft value _ hs hv hfit
      rw [hcur] at hv'
      obtain ⟨v, hvv, hrun⟩ := @ih (n / 128) (by omega) (value ||| _ <<< shift.toUInt64)
        (shift + 7) (by rw [hv', Nat.pow_add]; omega) (by rw [hv']; omega)
        (fun _ => by omega)
      refine ⟨v, by rw [hvv, hv']; omega, ?_⟩
      rw [Uleb128.encode_of_le hle, List.cons_append, readUleb128Loop,
        if_neg (not_not.mpr ((shiftLeft_shiftRight_eq_iff _ hs).mpr hfit)),
        if_neg (fun h => by rw [and_0x80_eq_zero, hbyte] at h; omega), if_neg (by omega)]
      exact hrun

/-- **What the reader's loop accepts starts with an encoding**, of the number it adds at the
shift. Shifts are multiples of seven, so a shift that passes the bound is below 64. -/
theorem encode_of_readUleb128Loop {v : UInt64} {rest : List UInt8} :
    ∀ (b : List UInt8) {value : UInt64} {shift : ℕ}, shift % 7 = 0 → shift < 64 →
      value.toNat < 2 ^ shift → readUleb128Loop value shift b = .ok (v, rest) →
      ∃ n, b = Uleb128.encode n ++ rest ∧ v.toNat = value.toNat + n * 2 ^ shift ∧
        (0 < shift → 0 < n)
  | [], _, _, _, _, _, h => by simp [readUleb128Loop] at h
  | byte :: cursor, value, shift, h7, hs, hv, h => by
    have hbyte := byte.toNat_lt
    rw [readUleb128Loop] at h
    split_ifs at h with hover hlast hcanon hbound
    -- the overflow test passed: the payload fits at the shift
    all_goals
      have hfit := (shiftLeft_shiftRight_eq_iff _ hs).mp (not_not.mp hover)
      have hv' := toNat_or_shiftLeft value _ hs hv hfit
      rw [toNat_payload] at hfit hv'
    · -- the last byte: the number is its payload, nonzero after the first byte
      obtain ⟨rfl, rfl⟩ := Prod.mk.inj (Except.ok.inj h)
      have hlt := (and_0x80_eq_zero _).mp hlast
      refine ⟨byte.toNat, ?_, by rw [hv', Nat.mod_eq_of_lt hlt], fun h0 => ?_⟩
      · rw [Uleb128.encode_of_lt hlt]
        simp
      · have hne : (byte &&& 0x7f).toUInt64 ≠ 0 := fun hz => hcanon ⟨h0, hz⟩
        have hnz : (byte &&& 0x7f).toUInt64.toNat ≠ 0 := fun hz =>
          hne (UInt64.toNat_inj.mp (by rw [hz]; rfl))
        rw [toNat_payload] at hnz
        omega
    · -- a byte with the high bit set: the rest is read seven bits higher
      have hge : 128 ≤ byte.toNat := by
        by_contra hlt
        exact hlast ((and_0x80_eq_zero _).mpr (by omega))
      have hs7 : shift + 7 < 64 := by omega
      have hlow : byte.toNat % 128 * 2 ^ shift ≤ 127 * 2 ^ shift :=
        Nat.mul_le_mul_right _ (by omega)
      obtain ⟨n, rfl, hvn, hpos⟩ := encode_of_readUleb128Loop cursor (by omega) hs7
        (by rw [hv', Nat.pow_add]; omega) h
      have hn := hpos (by omega)
      refine ⟨byte.toNat % 128 + 128 * n, ?_, ?_, fun _ => by omega⟩
      · have hbyte' : (byte.toNat % 128 + 128).toUInt8 = byte := by
          rw [← UInt8.toNat_inj]
          simp
          omega
        rw [Uleb128.encode_of_le (n := byte.toNat % 128 + 128 * n) (by omega), List.cons_append,
          show (byte.toNat % 128 + 128 * n) % 128 + 128 = byte.toNat % 128 + 128 by omega,
          show (byte.toNat % 128 + 128 * n) / 128 = n by omega, hbyte']
      · rw [hvn, hv', Nat.pow_add]
        ring

/-- The reader reads what the writer writes for a number below `2^64`, and stops after it. -/
theorem readUleb128AsU64_encode {n : ℕ} (hn : n < 2 ^ 64) (r : List UInt8) :
    readUleb128AsU64 (Uleb128.encode n ++ r) = .ok (n.toUInt64, r) := by
  obtain ⟨w, hw, hrun⟩ := @readUleb128Loop_encode r n 0 0 (by simp) (by simpa using hn) (by omega)
  have hwn : w = n.toUInt64 := by
    apply UInt64.toNat_inj.mp
    rw [hw, Nat.toUInt64_eq, UInt64.toNat_ofNat', Nat.mod_eq_of_lt hn]
    simp
  rw [readUleb128AsU64, hrun, hwn]

/-- The reader takes at least one byte, and leaves the bytes after those it read. -/
theorem length_lt_of_readUleb128Loop {v : UInt64} {rest : List UInt8} :
    ∀ (b : List UInt8) {value : UInt64} {shift : ℕ}, readUleb128Loop value shift b = .ok (v, rest) →
      rest.length < b.length
  | [], _, _, h => by simp [readUleb128Loop] at h
  | byte :: cursor, value, shift, h => by
    simp only [readUleb128Loop] at h
    split_ifs at h
    · obtain ⟨-, rfl⟩ := Prod.mk.inj (Except.ok.inj h)
      simp
    · have := length_lt_of_readUleb128Loop cursor h
      simp only [List.length_cons]
      omega

/-- **ULEB128 round trip.** Reading what the writer wrote for `v`, followed by any bytes,
gives `v` back and leaves the cursor at those bytes; and whatever the reader accepts, it
accepted the bytes the writer writes for the value read: no other encoding of a number, and
no number above `2^64 - 1`, is read. -/
theorem uleb128_roundtrip_canonical :
    (∀ (v : UInt64) (r : List UInt8), ∃ bytes, writeU64AsUleb128 [] v = .ok bytes ∧
      readUleb128AsU64 (bytes ++ r) = .ok (v, r)) ∧
    ∀ (b : List UInt8) (v : UInt64) (rest : List UInt8), readUleb128AsU64 b = .ok (v, rest) →
      ∃ bytes, writeU64AsUleb128 [] v = .ok bytes ∧ b = bytes ++ rest := by
  refine ⟨fun v r => ⟨_, writeU64AsUleb128_nil v, ?_⟩, fun b v rest h => ?_⟩
  · obtain ⟨w, hw, hrun⟩ := @readUleb128Loop_encode r v.toNat 0 0
      (by simp) (by simpa using v.toNat_lt) (by omega)
    have hwv : w = v := UInt64.toNat_inj.mp (by simpa using hw)
    rw [readUleb128AsU64, hrun, hwv]
  · obtain ⟨n, hb, hvn, -⟩ := @encode_of_readUleb128Loop v rest b 0 0 rfl
      (by omega) (by simp) h
    have hn : n = v.toNat := by simpa using hvn.symm
    exact ⟨_, writeU64AsUleb128_nil v, hn ▸ hb⟩

-- `uleb128_canonicity_test` and `uleb128_malformed_test`: a trailing zero byte, and a tenth
-- byte with a bit above the 64th
example : readUleb128AsU64 [0x80, 0x00] = .error invalidUleb128 := rfl
example : readUleb128AsU64 [0x80, 0x80, 0x80, 0x80, 0x80, 0x80, 0x80, 0x80, 0x80, 0x2] =
    .error invalidUleb128 := rfl

end Dijets.Move
