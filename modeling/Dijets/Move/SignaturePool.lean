import Dijets.Move.Deserializer

/-!
# The signature pool

The signatures of a module or a script are one table: each signature is its length, then
its tokens, and `load_signatures` reads signatures while bytes of the table are left.
The pool is written as its signatures one after the other (`serializeSignatures_eq`), and
read back as the same pool when every token is one the loader reads back
(`loadSignatures_serializeSignatures`). An instantiation written without type arguments
is not one: the loader takes the token after it as its type argument, and the pool read
back is another (`signature_pool_roundtrip_fails`).

## Main results

* `loadSignatures_serializeSignatures` — the round trip of a pool of tokens with type
  arguments in every instantiation.
* `signature_pool_roundtrip_fails` — a pool with an instantiation without type arguments is
  read back as another pool.
-/

set_option autoImplicit false

namespace Dijets.Move

open Dijets.Lib PartialVMError SignatureToken

/-! ## Reading signatures back -/

/-- A token the loader reads back: every node can be written and has type arguments, and it
is not too deep. -/
def Readable (t : SignatureToken) : Prop := t.Loadable ∧ t.depth ≤ SIGNATURE_TOKEN_DEPTH_MAX

theorem loadTokens_encode :
    ∀ (tokens : List SignatureToken) (r : List UInt8), (∀ t ∈ tokens, Readable t) →
      loadTokens tokens.length (encodeList tokens ++ r) = .ok (tokens, r)
  | [], _, _ => rfl
  | t :: ts, r, h => by
    have ht := h t List.mem_cons_self
    rw [List.length_cons, loadTokens, encodeList, List.append_assoc,
      (loadSignatureToken_encode ht.1 _).1 ht.2, Outcome.ok_bind]
    dsimp only
    rw [loadTokens_encode ts r (fun c hc => h c (List.mem_cons_of_mem t hc)), Outcome.ok_bind]
    rfl

/-- A signature the loader reads back. -/
def SignatureReadable (s : Signature) : Prop := s.length ≤ SIGNATURE_SIZE_MAX ∧ ∀ t ∈ s, Readable t

instance : DecidablePred Readable := fun t =>
  inferInstanceAs (Decidable (t.Loadable ∧ t.depth ≤ SIGNATURE_TOKEN_DEPTH_MAX))

instance : DecidablePred SignatureReadable := fun s =>
  inferInstanceAs (Decidable (s.length ≤ SIGNATURE_SIZE_MAX ∧ ∀ t ∈ s, Readable t))

theorem loadSignatureTokens_encode {s : Signature} (hs : SignatureReadable s) (r : List UInt8) :
    loadSignatureTokens (encodeSignature s ++ r) = .ok (s, r) := by
  have hlen : s.length ≤ 255 := hs.1
  rw [encodeSignature, List.append_assoc, loadSignatureTokens, loadSignatureSize,
    readUlebInternal_encode hs.1 (by omega) (by omega), Outcome.ofExcept_ok, Outcome.ok_bind]
  exact loadTokens_encode s r hs.2


-- the name of the read's result is used only by `decreasing_by`
set_option linter.unusedVariables false in
/-- `load_signatures`: signatures, one after the other, while bytes of the table are left
(`cursor.position() < table.count` on a cursor over the table's bytes). -/
def loadSignatures (cursor : List UInt8) : Outcome PartialVMError (List Signature) :=
  match cursor with
  | [] => .ok []
  | byte :: bytes =>
    match h : loadSignatureTokens (byte :: bytes) with
    | .ok (tokens, cursor) => do
      let signatures ← loadSignatures cursor
      pure (tokens :: signatures)
    | .err e => .err e
    | .panic => .panic
termination_by cursor.length
decreasing_by exact length_lt_of_loadSignatureTokens h

theorem loadSignatures_nil : loadSignatures [] = .ok [] := by
  rw [loadSignatures]

/-- A signature read, the loop goes on with the bytes after it. -/
theorem loadSignatures_of_ok {cursor rest : List UInt8} {tokens : List SignatureToken}
    (h : loadSignatureTokens cursor = .ok (tokens, rest)) :
    loadSignatures cursor = loadSignatures rest >>= fun signatures => pure (tokens :: signatures) := by
  cases cursor with
  | nil => exact absurd (length_lt_of_loadSignatureTokens h) (Nat.not_lt_zero _)
  | cons byte bytes =>
    rw [loadSignatures]
    split
    · rename_i tokens' c hr
      rw [h] at hr
      cases hr
      rfl
    · rename_i e hr
      rw [h] at hr
      cases hr
    · rename_i hr
      rw [h] at hr
      cases hr

theorem loadSignatures_encode :
    ∀ (signatures : List Signature), (∀ s ∈ signatures, SignatureReadable s) →
      loadSignatures (signatures.flatMap encodeSignature) = .ok signatures
  | [], _ => loadSignatures_nil
  | s :: ss, h => by
    rw [List.flatMap_cons, loadSignatures_of_ok (loadSignatureTokens_encode (h s List.mem_cons_self) _),
      loadSignatures_encode ss (fun c hc => h c (List.mem_cons_of_mem s hc))]
    rfl

theorem Readable.writable {t : SignatureToken} (ht : Readable t) : Writable t :=
  ⟨ht.1.encodable, ht.2⟩

/-- **Round trip of the signature pool.** Signatures of at most `SIGNATURE_SIZE_MAX` tokens,
each of whose nodes the format can write and has type arguments, none deeper than
`SIGNATURE_TOKEN_DEPTH_MAX`, are written to bytes that the loader reads back as the same
signatures. -/
theorem loadSignatures_serializeSignatures {signatures : List Signature}
    (hs : ∀ s ∈ signatures, SignatureReadable s)
    (hfit : (signatures.flatMap encodeSignature).length < 2 ^ 64) :
    ∃ bytes, serializeSignatures [] signatures = .ok bytes ∧ loadSignatures bytes = .ok signatures := by
  have hw : ∀ s ∈ signatures, SignatureWritable s := fun s h =>
    ⟨(hs s h).1, fun t ht => ((hs s h).2 t ht).writable⟩
  refine ⟨signatures.flatMap encodeSignature, ?_, loadSignatures_encode signatures hs⟩
  rw [serializeSignatures_eq hw (by rw [List.length_nil, Nat.zero_add]; exact hfit), List.nil_append]

/-- A pool of two signatures, one with an instantiation of one type argument. -/
theorem loadSignatures_serializeSignatures_pair :
    ∃ bytes, serializeSignatures [] [[.bool, .structInstantiation 0 [.u8]], [.vector .u64]] = .ok bytes ∧
      loadSignatures bytes = .ok [[.bool, .structInstantiation 0 [.u8]], [.vector .u64]] :=
  loadSignatures_serializeSignatures (by decide)
    (by simp [encodeSignature, encodeList, encode, nodeBytes, Uleb128.encode_of_lt, SerializedType.toU8])

theorem signature_pool_roundtrip_fails :
    serializeSignatures [] [[.structInstantiation 0 []], [.bool, .bool]] = .ok [1, 0xB, 0, 0, 2, 1, 1] ∧
      loadSignatures [1, 0xB, 0, 0, 2, 1, 1] = .ok [[.structInstantiation 0 [.u8]], [.bool]] := by
  have hbytes : [[SignatureToken.structInstantiation 0 []], [.bool, .bool]].flatMap encodeSignature =
      [1, 0xB, 0, 0, 2, 1, 1] := by
    simp [encodeSignature, encodeList, encode, nodeBytes, Uleb128.encode_of_lt, SerializedType.toU8]
  constructor
  · rw [serializeSignatures_eq (by decide) (by rw [hbytes]; decide), hbytes]
    rfl
  · -- the instantiation takes the second signature's length byte as the tag of a `u8`
    have hsplit : [(1 : UInt8), 0xB, 0, 0, 2, 1, 1] = Uleb128.encode 1 ++
        ((SignatureToken.structInstantiation 0 []).encode ++ SignatureToken.u8.encode ++ [1, 1]) := by
      simp [encode, encodeList, nodeBytes, Uleb128.encode_of_lt, SerializedType.toU8]
    have hfirst : loadSignatureTokens [1, 0xB, 0, 0, 2, 1, 1] =
        .ok ([.structInstantiation 0 [.u8]], [1, 1]) := by
      rw [hsplit, loadSignatureTokens, loadSignatureSize,
        readUlebInternal_encode (by decide) (by decide) (by decide), Outcome.ofExcept_ok, Outcome.ok_bind]
      dsimp only
      rw [loadTokens, loadSignatureToken_zeroArity (by decide) (by decide) (by decide), Outcome.ok_bind]
      rfl
    have hrest : loadSignatures [1, 1] = .ok [[.bool]] := by
      have h := loadSignatures_encode [[.bool]] (by decide)
      simpa [encodeSignature, encodeList, encode, nodeBytes, Uleb128.encode_of_lt, SerializedType.toU8]
        using h
    rw [loadSignatures_of_ok hfirst, hrest]
    rfl

end Dijets.Move
