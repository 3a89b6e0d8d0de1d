import Mathlib

/-!
# Consensus data model

The values that SafetyRules reads, checks and signs: block metadata, quorum and
timeout certificates, votes and the persisted `SafetyData`. Each structure keeps
the fields that the modelled functions of `consensus-types` and `safety-rules`
read, under the source's names.

Several of these types come from the `dijets-types` and `dijets-crypto` crates,
which are not part of the repository (`BlockInfo`, `LedgerInfo`,
`ValidatorVerifier`, the Ed25519 keys and signatures). For those the model keeps
the data the repository's code constructs and reads (the arguments it passes to
`BlockInfo::new`, the fields it reads off an `EpochState`), and every *behaviour*
of the missing crates is a field of `Env`, so that each theorem holds for every
implementation of them.

Unsigned 64-bit counters are natural numbers; the one place where their bound
matters, `next_round`, checks it explicitly.
-/

set_option autoImplicit false

namespace Dijets.Consensus

/-- An account address, identifying a validator. -/
abbrev Author := ℕ

/-- `u64::MAX`, the largest round `next_round` can step from. -/
def u64Max : ℕ := 2 ^ 64 - 1

/-- A 32-byte hash value, compared only for equality. -/
structure HashValue where
  val : ℕ
deriving DecidableEq, Repr, Inhabited

structure Ed25519PublicKey where
  val : ℕ
deriving DecidableEq, Repr, Inhabited

structure Ed25519PrivateKey where
  val : ℕ
deriving DecidableEq, Repr, Inhabited

structure Ed25519Signature where
  val : ℕ
deriving DecidableEq, Repr, Inhabited

/-- A validator's consensus key and voting power. -/
structure ValidatorConsensusInfo where
  publicKey : Ed25519PublicKey
  votingPower : ℕ
deriving DecidableEq, Repr, Inhabited

/-- The validator set of an epoch, as `ValidatorVerifier::new` and
`new_for_testing` build it. -/
structure ValidatorVerifier where
  addressToValidatorInfo : List (Author × ValidatorConsensusInfo)
  quorumVotingPower : ℕ
  totalVotingPower : ℕ
deriving DecidableEq, Repr, Inhabited

/-- The epoch number together with its validator set. -/
structure EpochState where
  epoch : ℕ
  verifier : ValidatorVerifier
deriving DecidableEq, Repr, Inhabited

/-- Block metadata, with the arguments of `BlockInfo::new`. -/
structure BlockInfo where
  epoch : ℕ
  round : ℕ
  id : HashValue
  executedStateId : HashValue
  version : ℕ
  timestampUsecs : ℕ
  nextEpochState : Option EpochState
deriving DecidableEq, Repr, Inhabited

/-- A ledger info: the block it commits and the hash of the consensus data. -/
structure LedgerInfo where
  commitInfo : BlockInfo
  consensusDataHash : HashValue
deriving DecidableEq, Repr, Inhabited

structure LedgerInfoWithSignatures where
  ledgerInfo : LedgerInfo
  signatures : List (Author × Ed25519Signature)
deriving DecidableEq, Repr, Inhabited

/-- The block a vote is for, and that block's parent. -/
structure VoteData where
  proposed : BlockInfo
  parent : BlockInfo
deriving DecidableEq, Repr, Inhabited

structure QuorumCert where
  voteData : VoteData
  signedLedgerInfo : LedgerInfoWithSignatures
deriving DecidableEq, Repr, Inhabited

namespace QuorumCert

def certifiedBlock (qc : QuorumCert) : BlockInfo := qc.voteData.proposed

def parentBlock (qc : QuorumCert) : BlockInfo := qc.voteData.parent

def ledgerInfo (qc : QuorumCert) : LedgerInfoWithSignatures := qc.signedLedgerInfo

def commitInfo (qc : QuorumCert) : BlockInfo := qc.signedLedgerInfo.ledgerInfo.commitInfo

end QuorumCert

structure SignedTransaction where
  val : ℕ
deriving DecidableEq, Repr, Inhabited

abbrev Payload := List SignedTransaction

inductive BlockType where
  | proposal (payload : Payload) (author : Author)
  | nilBlock
  | genesis
deriving DecidableEq, Repr, Inhabited

structure BlockData where
  epoch : ℕ
  round : ℕ
  timestampUsecs : ℕ
  quorumCert : QuorumCert
  blockType : BlockType
deriving DecidableEq, Repr, Inhabited

namespace BlockData

def author (b : BlockData) : Option Author :=
  match b.blockType with
  | .proposal _ author => some author
  | _ => none

def payload (b : BlockData) : Option Payload :=
  match b.blockType with
  | .proposal payload _ => some payload
  | _ => none

def isGenesisBlock (b : BlockData) : Bool :=
  match b.blockType with
  | .genesis => true
  | _ => false

def isNilBlock (b : BlockData) : Bool :=
  match b.blockType with
  | .nilBlock => true
  | _ => false

end BlockData

/-- A block; `id` is the hash of `blockData`, recomputed when a block is deserialized. -/
structure Block where
  id : HashValue
  blockData : BlockData
  signature : Option Ed25519Signature
deriving DecidableEq, Repr, Inhabited

namespace Block

def epoch (b : Block) : ℕ := b.blockData.epoch

def round (b : Block) : ℕ := b.blockData.round

def quorumCert (b : Block) : QuorumCert := b.blockData.quorumCert

def timestampUsecs (b : Block) : ℕ := b.blockData.timestampUsecs

/-- `Block::gen_block_info`: the metadata of this block after execution. -/
def genBlockInfo (b : Block) (executedStateId : HashValue) (version : ℕ)
    (nextEpochState : Option EpochState) : BlockInfo :=
  { epoch := b.epoch, round := b.round, id := b.id, executedStateId := executedStateId,
    version := version, timestampUsecs := b.timestampUsecs, nextEpochState := nextEpochState }

end Block

structure Vote where
  voteData : VoteData
  author : Author
  ledgerInfo : LedgerInfo
  signature : Ed25519Signature
  timeoutSignature : Option Ed25519Signature
deriving DecidableEq, Repr, Inhabited

namespace Vote

/-- `Vote::new_with_signature`: a vote without a timeout signature. -/
def newWithSignature (voteData : VoteData) (author : Author) (ledgerInfo : LedgerInfo)
    (signature : Ed25519Signature) : Vote :=
  { voteData, author, ledgerInfo, signature, timeoutSignature := none }

/-- `Vote::epoch`: the epoch of the proposed block. -/
def epoch (v : Vote) : ℕ := v.voteData.proposed.epoch

/-- The round of the proposed block, which the replay check compares. -/
def round (v : Vote) : ℕ := v.voteData.proposed.round

@[simp, grind =] theorem epoch_newWithSignature (voteData : VoteData) (author : Author)
    (ledgerInfo : LedgerInfo) (signature : Ed25519Signature) :
    (newWithSignature voteData author ledgerInfo signature).epoch = voteData.proposed.epoch := rfl

@[simp, grind =] theorem round_newWithSignature (voteData : VoteData) (author : Author)
    (ledgerInfo : LedgerInfo) (signature : Ed25519Signature) :
    (newWithSignature voteData author ledgerInfo signature).round = voteData.proposed.round := rfl

@[simp, grind =] theorem voteData_newWithSignature (voteData : VoteData) (author : Author)
    (ledgerInfo : LedgerInfo) (signature : Ed25519Signature) :
    (newWithSignature voteData author ledgerInfo signature).voteData = voteData := rfl

@[simp, grind =] theorem ledgerInfo_newWithSignature (voteData : VoteData) (author : Author)
    (ledgerInfo : LedgerInfo) (signature : Ed25519Signature) :
    (newWithSignature voteData author ledgerInfo signature).ledgerInfo = ledgerInfo := rfl

end Vote

structure Timeout where
  epoch : ℕ
  round : ℕ
deriving DecidableEq, Repr, Inhabited

structure TwoChainTimeout where
  epoch : ℕ
  round : ℕ
  quorumCert : QuorumCert
deriving DecidableEq, Repr, Inhabited

/-- What a validator signs for a 2-chain timeout. -/
structure TimeoutSigningRepr where
  epoch : ℕ
  round : ℕ
  hqcRound : ℕ
deriving DecidableEq, Repr, Inhabited

namespace TwoChainTimeout

def hqcRound (t : TwoChainTimeout) : ℕ := t.quorumCert.certifiedBlock.round

def signingFormat (t : TwoChainTimeout) : TimeoutSigningRepr :=
  { epoch := t.epoch, round := t.round, hqcRound := t.hqcRound }

@[simp] theorem signingFormat_epoch (t : TwoChainTimeout) : t.signingFormat.epoch = t.epoch := rfl

@[simp] theorem signingFormat_round (t : TwoChainTimeout) : t.signingFormat.round = t.round := rfl

@[simp] theorem signingFormat_hqcRound (t : TwoChainTimeout) :
    t.signingFormat.hqcRound = t.hqcRound := rfl

end TwoChainTimeout

/-- A timeout certificate: the timeout with the highest quorum certificate, and
for each signer the round of its own highest quorum certificate. -/
structure TwoChainTimeoutCertificate where
  timeout : TwoChainTimeout
  signatures : List (Author × ℕ × Ed25519Signature)
deriving DecidableEq, Repr, Inhabited

namespace TwoChainTimeoutCertificate

def round (tc : TwoChainTimeoutCertificate) : ℕ := tc.timeout.round

def highestHqcRound (tc : TwoChainTimeoutCertificate) : ℕ := tc.timeout.hqcRound

end TwoChainTimeoutCertificate

/-- The safety state a validator persists between votes. -/
structure SafetyData where
  epoch : ℕ
  lastVotedRound : ℕ
  /-- highest 2-chain round, used for 3-chain -/
  preferredRound : ℕ
  /-- highest 1-chain round, used for 2-chain -/
  oneChainRound : ℕ
  lastVote : Option Vote
deriving DecidableEq, Repr, Inhabited

structure Waypoint where
  version : ℕ
  value : HashValue
deriving DecidableEq, Repr, Inhabited

/-- A proof of epoch changes; only its verifier in `Env` looks inside. -/
structure EpochChangeProof where
  val : ℕ
deriving DecidableEq, Repr, Inhabited

/-- A proof that a new accumulator extends the parent's; only `Env` checks it. -/
structure AccumulatorExtensionProof where
  val : ℕ
deriving DecidableEq, Repr, Inhabited

/-- The accumulator an extension proof yields. -/
structure InMemoryAccumulator where
  rootHash : HashValue
  version : ℕ
deriving DecidableEq, Repr, Inhabited

structure VoteProposal where
  accumulatorExtensionProof : AccumulatorExtensionProof
  block : Block
  nextEpochState : Option EpochState
deriving DecidableEq, Repr, Inhabited

structure MaybeSignedVoteProposal where
  voteProposal : VoteProposal
  signature : Option Ed25519Signature
deriving DecidableEq, Repr, Inhabited

namespace VoteProposal

/-- `vote_data_ordering_only`: the vote data with a placeholder execution state. -/
def voteDataOrderingOnly (p : VoteProposal) (placeholder : HashValue) : VoteData :=
  { proposed := p.block.genBlockInfo placeholder 0 p.nextEpochState,
    parent := p.block.quorumCert.certifiedBlock }

/-- `vote_data_with_extension_proof`: the vote data with the executed state. -/
def voteDataWithExtensionProof (p : VoteProposal) (newTree : InMemoryAccumulator) : VoteData :=
  { proposed := p.block.genBlockInfo newTree.rootHash newTree.version p.nextEpochState,
    parent := p.block.quorumCert.certifiedBlock }

/-! Either vote data proposes the proposal's block, at its epoch and round. -/

@[simp, grind =] theorem voteDataOrderingOnly_epoch (p : VoteProposal) (placeholder : HashValue) :
    (p.voteDataOrderingOnly placeholder).proposed.epoch = p.block.epoch := rfl

@[simp, grind =] theorem voteDataOrderingOnly_round (p : VoteProposal) (placeholder : HashValue) :
    (p.voteDataOrderingOnly placeholder).proposed.round = p.block.round := rfl

@[simp, grind =] theorem voteDataWithExtensionProof_epoch (p : VoteProposal) (newTree : InMemoryAccumulator) :
    (p.voteDataWithExtensionProof newTree).proposed.epoch = p.block.epoch := rfl

@[simp, grind =] theorem voteDataWithExtensionProof_round (p : VoteProposal) (newTree : InMemoryAccumulator) :
    (p.voteDataWithExtensionProof newTree).proposed.round = p.block.round := rfl

/-! Either vote data has the certified block of the proposal's certificate as its parent. -/

@[simp, grind =] theorem voteDataOrderingOnly_parent (p : VoteProposal) (placeholder : HashValue) :
    (p.voteDataOrderingOnly placeholder).parent = p.block.quorumCert.certifiedBlock := rfl

@[simp, grind =] theorem voteDataWithExtensionProof_parent (p : VoteProposal)
    (newTree : InMemoryAccumulator) :
    (p.voteDataWithExtensionProof newTree).parent = p.block.quorumCert.certifiedBlock := rfl

end VoteProposal

structure ConsensusState where
  safetyData : SafetyData
  waypoint : Waypoint
  inValidatorSet : Bool
deriving DecidableEq, Repr, Inhabited

/-- The messages SafetyRules signs or checks a signature on; `sign<T>` is generic
over these. -/
inductive SigningMessage where
  | ledgerInfo (li : LedgerInfo)
  | blockData (b : BlockData)
  | timeout (t : Timeout)
  | timeoutSigningRepr (t : TimeoutSigningRepr)
  | voteProposal (p : VoteProposal)
deriving DecidableEq, Repr, Inhabited

/-- `safety_rules::Error`, with its payloads. -/
inductive Error where
  | incorrectEpoch (given expected : ℕ)
  | incorrectRound (round : ℕ)
  | incorrectLastVotedRound (round lastVotedRound : ℕ)
  | incorrectPreferredRound (round preferredRound : ℕ)
  | invalidAccumulatorExtension (msg : String)
  | invalidEpochChangeProof (msg : String)
  | internalError (msg : String)
  | invalidLedgerInfo
  | invalidProposal (msg : String)
  | invalidQuorumCertificate (msg : String)
  | notInitialized (what : String)
  | secureStorageMissingDataError (msg : String)
  | secureStorageUnexpectedError (msg : String)
  | serializationError (msg : String)
  | validatorKeyNotFound (msg : String)
  | validatorNotInSet (msg : String)
  | voteProposalSignatureNotFound
  | notSafeToVote (round qcRound tcRound hqcRound : ℕ)
  | notSafeToTimeout (round qcRound tcRound oneChainRound : ℕ)
  | invalidTimeoutCertificate (msg : String)
  | inconsistentExecutionResult (ordered executed : String)
  | invalidOrderedLedgerInfo (msg : String)
deriving DecidableEq, Repr, Inhabited

/-- The behaviour of the crates outside the repository that SafetyRules calls:
hashing, Ed25519, the validator verifier, epoch-change proofs, waypoints and the
accumulator. Errors of `anyhow` type are their message. -/
structure Env where
  /-- `CryptoHash::hash` of a `VoteData`: the consensus data hash of a vote. -/
  hashVoteData : VoteData → HashValue
  /-- `ValidatorSigner::sign`. -/
  sign : Ed25519PrivateKey → SigningMessage → Ed25519Signature
  /-- `PrivateKey::public_key`. -/
  publicKey : Ed25519PrivateKey → Ed25519PublicKey
  /-- `Signature::verify` of an Ed25519 signature. -/
  verifySignature : Ed25519PublicKey → SigningMessage → Ed25519Signature → Except String Unit
  /-- `ValidatorVerifier::verify` of one author's signature. -/
  validatorVerify : ValidatorVerifier → Author → SigningMessage → Ed25519Signature →
    Except String Unit
  /-- `LedgerInfoWithSignatures::verify_signatures`: enough voting power, all signatures valid. -/
  verifySignatures : LedgerInfoWithSignatures → ValidatorVerifier → Except String Unit
  /-- `ValidatorVerifier::check_voting_power` of a set of signers. -/
  checkVotingPower : ValidatorVerifier → List Author → Except String Unit
  /-- `ValidatorVerifier::get_public_key`. -/
  getPublicKey : ValidatorVerifier → Author → Option Ed25519PublicKey
  /-- `EpochChangeProof::verify` against a waypoint. -/
  verifyEpochChangeProof : EpochChangeProof → Waypoint → Except String LedgerInfoWithSignatures
  /-- `LedgerInfo::next_epoch_state`. -/
  nextEpochState : LedgerInfo → Option EpochState
  /-- `LedgerInfo::ends_epoch`. -/
  endsEpoch : LedgerInfo → Bool
  /-- `Waypoint::new_epoch_boundary`. -/
  newEpochBoundary : LedgerInfo → Except String Waypoint
  /-- `AccumulatorExtensionProof::verify` against the parent's executed state. -/
  verifyExtension : AccumulatorExtensionProof → HashValue → Except String InMemoryAccumulator
  /-- `BlockInfo::has_reconfiguration`. -/
  hasReconfiguration : BlockInfo → Bool
  /-- `BlockInfo::is_ordered_only`. -/
  isOrderedOnly : BlockInfo → Bool
  /-- `BlockInfo::match_ordered_only`. -/
  matchOrderedOnly : BlockInfo → BlockInfo → Bool
  /-- `BlockInfo::empty()`: the commit info of a ledger info that commits nothing. -/
  emptyBlockInfo : BlockInfo
  /-- `ACCUMULATOR_PLACEHOLDER_HASH`. -/
  accumulatorPlaceholderHash : HashValue
  /-- `Display` of an account address, a ledger info and a block info, used in error texts. -/
  showAuthor : Author → String
  showLedgerInfo : LedgerInfo → String
  showBlockInfo : BlockInfo → String
deriving Inhabited

end Dijets.Consensus
