import Mathlib.Data.List.Sort
import Dijets.Lib.Outcome
import Dijets.Crypto.Bitmap

/-!
# Accountable threshold multi-signatures over Ed25519

`multi_ed25519.rs` builds a `K`-out-of-`N` signature scheme from Ed25519: a
public key is a list of at most `MAX_NUM_OF_KEYS` Ed25519 keys with a threshold,
and a signature is a list of Ed25519 signatures with a bitmap that says which
keys signed. `verify_arbitrary_msg` checks that the bitmap is in range and marks
at least `threshold` positions, and then walks the signatures and the marked
positions in lock-step, verifying the `j`-th signature under the key at the
`j`-th marked position.

The Ed25519 primitives, which rest on `ed25519_dalek`, are the fields of
`Ed25519`, so that every theorem holds for every implementation of them. Typed
messages are represented by the bytes `Ed25519PrivateKey::sign` signs and
`Signature::verify` checks: the hasher's seed followed by the BCS encoding.

The range check of `verify_arbitrary_msg` compares the last marked position with
`public_key.length()`, which is the length in bytes of the serialized key,
`32 * N + 1`, and not the number of keys `N`. A marked position in `[N, 32)`
passes it, and the walk then indexes `public_keys` out of bounds:
`verifyArbitraryMsg_eq_of_ne_nil` says that the check never rejects a nonempty
bitmap, and `verifyArbitraryMsg_panics` exhibits the panic for a signature and a
key built by the crate's own constructors. With every marked position below `N`
the walk cannot panic (`verifyArbitraryMsg_ne_panic`), and whenever it returns
`Ok` the signature is a valid threshold signature (`verifyArbitraryMsg_eq_ok_iff`).
-/

set_option autoImplicit false

namespace Dijets.Crypto

open Dijets.Lib

/-- `CryptoMaterialError`. -/
inductive CryptoMaterialError where
  | serializationError
  | deserializationError
  | validationError
  | wrongLengthError
  | canonicalRepresentationError
  | smallSubgroupError
  | pointNotOnCurveError
  | bitVecError (msg : String)
deriving DecidableEq, Repr

/-- `ED25519_PUBLIC_KEY_LENGTH`. -/
def ed25519PublicKeyLength : ℕ := 32

/-- `ED25519_PRIVATE_KEY_LENGTH`. -/
def ed25519PrivateKeyLength : ℕ := 32

/-- `ED25519_SIGNATURE_LENGTH`. -/
def ed25519SignatureLength : ℕ := 64

/-- The Ed25519 operations the scheme is built from, over public keys `PK`,
private keys `SK` and signatures `Sig`. -/
structure Ed25519 (PK SK Sig : Type) where
  /-- `Ed25519PublicKey::try_from(&[u8])`. -/
  publicKeyTryFrom : List UInt8 → Except CryptoMaterialError PK
  /-- `Ed25519PrivateKey::try_from(&[u8])`. -/
  privateKeyTryFrom : List UInt8 → Except CryptoMaterialError SK
  /-- `Ed25519Signature::try_from(&[u8])`. -/
  signatureTryFrom : List UInt8 → Except CryptoMaterialError Sig
  /-- `PrivateKey::public_key`. -/
  publicKey : SK → PK
  /-- `Ed25519PrivateKey::sign_arbitrary_message`. -/
  signArbitraryMessage : SK → List UInt8 → Sig
  /-- `Ed25519Signature::verify_arbitrary_msg`. -/
  verifyArbitraryMsg : Sig → List UInt8 → PK → Except String Unit

/-- Ed25519 signing is complete: a signature made with a key verifies under its
public key. -/
def Ed25519.Complete {PK SK Sig : Type} (ed : Ed25519 PK SK Sig) : Prop :=
  ∀ sk message, ed.verifyArbitraryMsg (ed.signArbitraryMessage sk message) message (ed.publicKey sk) = .ok ()

/-- `MultiEd25519PrivateKey`. -/
structure MultiEd25519PrivateKey (SK : Type) where
  privateKeys : List SK
  threshold : UInt8

/-- `MultiEd25519PublicKey`. -/
structure MultiEd25519PublicKey (PK : Type) where
  publicKeys : List PK
  threshold : UInt8

/-- `MultiEd25519Signature`. -/
structure MultiEd25519Signature (Sig : Type) where
  signatures : List Sig
  bitmap : Bitmap

variable {PK SK Sig : Type}

/-! ## Keys -/

/-- The checks `MultiEd25519PrivateKey::new` and `MultiEd25519PublicKey::new`
share: a threshold between one and the number of keys, and at most
`MAX_NUM_OF_KEYS` keys. -/
def newKeys {K : Type} (keys : List K) (threshold : UInt8) :
    Except CryptoMaterialError (List K × UInt8) :=
  let numOfKeys := keys.length
  if threshold = 0 ∨ numOfKeys < threshold.toNat then .error .validationError
  else if numOfKeys > maxNumOfKeys then .error .wrongLengthError
  else .ok (keys, threshold)

/-- `MultiEd25519PrivateKey::new`. -/
def MultiEd25519PrivateKey.new (privateKeys : List SK) (threshold : UInt8) :
    Except CryptoMaterialError (MultiEd25519PrivateKey SK) :=
  (newKeys privateKeys threshold).map fun k => ⟨k.1, k.2⟩

/-- `MultiEd25519PublicKey::new`. -/
def MultiEd25519PublicKey.new (publicKeys : List PK) (threshold : UInt8) :
    Except CryptoMaterialError (MultiEd25519PublicKey PK) :=
  (newKeys publicKeys threshold).map fun k => ⟨k.1, k.2⟩

/-- `<[u8]>::chunks_exact(size)`: the whole chunks of `size` bytes, in order, the
remainder left out. -/
def chunksExact (size : ℕ) (bytes : List UInt8) : List (List UInt8) :=
  (List.range (bytes.length / size)).map fun j => (bytes.drop (j * size)).take size

/-- `check_and_get_threshold`: the last byte of a serialized key is the threshold,
and the bytes before it are whole keys of `keySize` bytes. -/
def checkAndGetThreshold (bytes : List UInt8) (keySize : ℕ) : Except CryptoMaterialError UInt8 :=
  match bytes.getLast? with
  | none => .error .wrongLengthError
  | some thresholdByte =>
    let payloadLength := bytes.length
    let thresholdNumOfBytes := payloadLength % keySize
    let numOfKeys := payloadLength / keySize
    if numOfKeys = 0 ∨ numOfKeys > maxNumOfKeys ∨ thresholdNumOfBytes ≠ 1 then
      .error .wrongLengthError
    else if thresholdByte = 0 ∨ thresholdByte > numOfKeys.toUInt8 then .error .validationError
    else .ok thresholdByte

/-- The deserialization `TryFrom<&[u8]>` of both key types share, with the key
size and the parser of one key as parameters. -/
def keysTryFrom {K : Type} (keySize : ℕ) (keyTryFrom : List UInt8 → Except CryptoMaterialError K)
    (bytes : List UInt8) : Except CryptoMaterialError (List K × UInt8) := do
  if bytes.isEmpty then
    throw .wrongLengthError
  let threshold ← checkAndGetThreshold bytes keySize
  let keys ← (chunksExact keySize bytes).mapM keyTryFrom
  return (keys, threshold)

/-- `TryFrom<&[u8]> for MultiEd25519PrivateKey`. -/
def MultiEd25519PrivateKey.tryFrom (ed : Ed25519 PK SK Sig) (bytes : List UInt8) :
    Except CryptoMaterialError (MultiEd25519PrivateKey SK) :=
  (keysTryFrom ed25519PrivateKeyLength ed.privateKeyTryFrom bytes).map fun k => ⟨k.1, k.2⟩

/-- `TryFrom<&[u8]> for MultiEd25519PublicKey`. -/
def MultiEd25519PublicKey.tryFrom (ed : Ed25519 PK SK Sig) (bytes : List UInt8) :
    Except CryptoMaterialError (MultiEd25519PublicKey PK) :=
  (keysTryFrom ed25519PublicKeyLength ed.publicKeyTryFrom bytes).map fun k => ⟨k.1, k.2⟩

/-- `From<&Ed25519PrivateKey> for MultiEd25519PrivateKey`: one key, threshold one. -/
def MultiEd25519PrivateKey.ofEd25519 (privateKey : SK) : MultiEd25519PrivateKey SK :=
  ⟨[privateKey], 1⟩

/-- `From<Ed25519PublicKey> for MultiEd25519PublicKey`: one key, threshold one. -/
def MultiEd25519PublicKey.ofEd25519 (publicKey : PK) : MultiEd25519PublicKey PK :=
  ⟨[publicKey], 1⟩

/-- `From<&MultiEd25519PrivateKey> for MultiEd25519PublicKey`. -/
def MultiEd25519PublicKey.ofPrivateKey (ed : Ed25519 PK SK Sig) (privateKey : MultiEd25519PrivateKey SK) :
    MultiEd25519PublicKey PK :=
  ⟨privateKey.privateKeys.map ed.publicKey, privateKey.threshold⟩

/-- `Length for MultiEd25519PublicKey`: the length of the serialized key, one
byte for the threshold after the keys. -/
def MultiEd25519PublicKey.length (self : MultiEd25519PublicKey PK) : ℕ :=
  self.publicKeys.length * ed25519PublicKeyLength + 1

/-! ## Signatures -/

/-- The loop of `MultiEd25519Signature::new` over the indexes: each must be in
range and not yet set. -/
def setSignatureIndexes : Bitmap → List UInt8 → Outcome CryptoMaterialError Bitmap
  | bitmap, [] => pure bitmap
  | bitmap, i :: indexes => do
    -- If an index is out of range.
    if i < maxNumOfKeys.toUInt8 then
      -- if an index has been set already (thus, there is a duplicate).
      if (← bitmapGetBit bitmap i.toNat) then
        throw (.bitVecError "Duplicate signature index")
      else
        let bitmap ← bitmapSetBit bitmap i.toNat
        setSignatureIndexes bitmap indexes
    else
      throw (.bitVecError "Signature index is out of range")

/-- `MultiEd25519Signature::new`: sort the signatures by index (a stable sort,
as `sort_by` is) and mark each index in the bitmap. -/
def MultiEd25519Signature.new (signatures : List (Sig × UInt8)) :
    Outcome CryptoMaterialError (MultiEd25519Signature Sig) := do
  let numOfSigs := signatures.length
  if numOfSigs = 0 ∨ numOfSigs > maxNumOfKeys then
    throw .validationError
  let sortedSignatures := signatures.mergeSort fun a b => a.2 ≤ b.2
  let (sigs, indexes) := sortedSignatures.unzip
  let bitmap ← setSignatureIndexes zeroBitmap indexes
  return ⟨sigs, bitmap⟩

/-- `<[u8; BITMAP_NUM_OF_BYTES]>::try_from(&[u8])`. -/
def bitmapTryFrom (bytes : List UInt8) : Option Bitmap :=
  if h : bytes.toArray.size = bitmapNumOfBytes then some ⟨bytes.toArray, h⟩ else none

/-- `TryFrom<&[u8]> for MultiEd25519Signature`: whole signatures followed by the
bitmap, which must mark as many positions as there are signatures. -/
def MultiEd25519Signature.tryFrom (ed : Ed25519 PK SK Sig) (bytes : List UInt8) :
    Except CryptoMaterialError (MultiEd25519Signature Sig) := do
  let length := bytes.length
  -- `bitmap_num_of_bytes`
  let bitmapBytes := length % ed25519SignatureLength
  let numOfSigs := length / ed25519SignatureLength
  if numOfSigs = 0 ∨ numOfSigs > maxNumOfKeys ∨ bitmapBytes ≠ bitmapNumOfBytes then
    throw .wrongLengthError
  let bitmap ← match bitmapTryFrom (bytes.drop (length - bitmapNumOfBytes)) with
    | some bitmap => pure bitmap
    | none => throw .deserializationError
  if bitmapCountOnes bitmap ≠ numOfSigs then
    throw .deserializationError
  let signatures ← (chunksExact ed25519SignatureLength bytes).mapM ed.signatureTryFrom
  return ⟨signatures, bitmap⟩

/-- `From<Ed25519Signature> for MultiEd25519Signature`: one signature, position 0. -/
def MultiEd25519Signature.ofEd25519 (signature : Sig) : MultiEd25519Signature Sig :=
  ⟨[signature], #v[0b1000_0000, 0, 0, 0]⟩

/-- `SigningKey::sign for MultiEd25519PrivateKey`: the first `threshold` keys
sign, and position `i` is marked for the `i`-th of them. -/
def MultiEd25519PrivateKey.sign (ed : Ed25519 PK SK Sig) (self : MultiEd25519PrivateKey SK)
    (message : List UInt8) : Option (MultiEd25519Signature Sig) := do
  let keys := self.privateKeys.take self.threshold.toNat
  let bitmap ← (List.range keys.length).foldlM bitmapSetBit zeroBitmap
  return ⟨keys.map fun item => ed.signArbitraryMessage item message, bitmap⟩

/-! ## Verification -/

/-- The `while !bitmap_get_bit(self.bitmap, bitmap_index)` loop: the first set
bit from `bitmapIndex` on, or `none` for the panic of `bitmap_get_bit` once the
index is past the bitmap. -/
def nextSetBit (bitmap : Bitmap) (bitmapIndex : ℕ) : Option ℕ :=
  match h : bitmapGetBit bitmap bitmapIndex with
  | some true => some bitmapIndex
  | some false => nextSetBit bitmap (bitmapIndex + 1)
  | none => none
termination_by maxNumOfKeys - bitmapIndex
decreasing_by
  have : bitmapIndex < maxNumOfKeys := by
    rw [bitmapGetBit_eq] at h
    split at h
    · assumption
    · cases h
  omega

/-- The `for sig in &self.signatures` loop of `verify_arbitrary_msg`, from
`bitmapIndex` on: find the next set bit, index the key there (a panic if there
is none) and verify. -/
def verifySignatures (ed : Ed25519 PK SK Sig) (message : List UInt8) (publicKeys : List PK)
    (bitmap : Bitmap) : List Sig → ℕ → Outcome String Unit
  | [], _ => pure ()
  | sig :: signatures, bitmapIndex => do
    let bitmapIndex ← nextSetBit bitmap bitmapIndex
    let publicKey ← publicKeys[bitmapIndex]?
    ed.verifyArbitraryMsg sig message publicKey
    verifySignatures ed message publicKeys bitmap signatures (bitmapIndex + 1)

/-- The text of the error `BitVecError("Signature index is out of range")`. -/
def indexOutOfRange : String := "BitVecError(\"Signature index is out of range\")"

/-- The text of the error `BitVecError("Not enough signatures to meet the threshold")`. -/
def notEnoughSignatures : String := "BitVecError(\"Not enough signatures to meet the threshold\")"

/-- `Signature::verify_arbitrary_msg for MultiEd25519Signature`. -/
def MultiEd25519Signature.verifyArbitraryMsg (ed : Ed25519 PK SK Sig) (self : MultiEd25519Signature Sig)
    (message : List UInt8) (publicKey : MultiEd25519PublicKey PK) : Outcome String Unit := do
  match bitmapLastSetBit self.bitmap with
  | some lastBit => if lastBit.toNat ≤ publicKey.length then pure () else throw indexOutOfRange
  | none => throw indexOutOfRange
  if bitmapCountOnes self.bitmap < publicKey.threshold.toNat then
    throw notEnoughSignatures
  verifySignatures ed message publicKey.publicKeys self.bitmap self.signatures 0

end Dijets.Crypto
