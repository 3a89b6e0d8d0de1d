import Mathlib.Data.Prod.Lex
import Dijets.Consensus.PendingVotes
import Dijets.Lib.ParentPass

/-!
# Recovering the block tree from storage

On a restart, `RecoveryData::new` rebuilds what the block store starts from out of the
ledger info in storage and the blocks and quorum certificates read back from
ConsensusDB. `find_root` picks the root: the block the ledger info commits, or, when
the ledger info ends its epoch, the virtual genesis block of the next epoch, which it
adds to the blocks together with its certificate. It sorts the blocks by epoch and
round and takes the root out. `find_blocks_to_prune` then keeps, in one pass, the blocks
whose parent is the root or a block kept before them, and the certificates of the root
and of the kept blocks; the others are to be pruned. The last vote and the highest
timeout certificate are kept when they are of the root's epoch.

When the parent of every stored block that is stored too has its epoch and a smaller
round, the sort puts parents first, and the pass keeps exactly the blocks below the
root (`recovery_keeps_root_subtree`). The virtual genesis block is not looked for among the stored
blocks: a stored copy of it is taken as the root, and the virtual block itself is then
pruned under the root's id (`stored_genesis_pruned`).

The id of the virtual genesis block is the hash of its data, a parameter here, as the
hash of vote data is one of `Env`. The accessors of ledger infos and the checked
additions of epochs belong to the types crate outside this source tree; epochs are
natural numbers, without the overflow at `u64::MAX`.

## Main definitions

* `LedgerRecoveryData.findRoot` — `LedgerRecoveryData::find_root`.
* `RecoveryData.findBlocksToPrune`, `RecoveryData.new` — the pass, and recovery.
-/

set_option autoImplicit false

namespace Dijets.Consensus

open Dijets.Lib

/-! ## Ledger infos and genesis blocks -/

namespace LedgerInfo

/-- `LedgerInfo::epoch`, of the types crate, like the accessors below. -/
def epoch (li : LedgerInfo) : ℕ := li.commitInfo.epoch

def consensusBlockId (li : LedgerInfo) : HashValue := li.commitInfo.id

def transactionAccumulatorHash (li : LedgerInfo) : HashValue := li.commitInfo.executedStateId

def version (li : LedgerInfo) : ℕ := li.commitInfo.version

def timestampUsecs (li : LedgerInfo) : ℕ := li.commitInfo.timestampUsecs

end LedgerInfo

/-- `HashValue::zero()`. -/
def HashValue.zero : HashValue := ⟨0⟩

/-- `Block::parent_id`: the block the block's quorum certificate certifies. -/
def Block.parentId (b : Block) : HashValue := b.quorumCert.certifiedBlock.id

/-- `TimeoutCertificate::epoch`. -/
def TimeoutCertificate.epoch (tc : TimeoutCertificate) : ℕ := tc.timeout.epoch

/-- `BlockData::new_genesis`. -/
def BlockData.newGenesis (timestampUsecs : ℕ) (quorumCert : QuorumCert) : BlockData :=
  { epoch := quorumCert.certifiedBlock.epoch + 1, round := 0, timestampUsecs := timestampUsecs,
    quorumCert := quorumCert, blockType := .genesis }

/-- `BlockData::new_genesis_from_ledger_info`, whose assertion that the ledger info ends
its epoch holds where it is called. -/
def BlockData.newGenesisFromLedgerInfo (li : LedgerInfo) : BlockData :=
  let ancestor : BlockInfo :=
    { epoch := li.epoch, round := 0, id := HashValue.zero,
      executedStateId := li.transactionAccumulatorHash, version := li.version,
      timestampUsecs := li.timestampUsecs, nextEpochState := none }
  let genesisQuorumCert : QuorumCert :=
    { voteData := { proposed := ancestor, parent := ancestor },
      signedLedgerInfo := { ledgerInfo := { commitInfo := ancestor,
                                            consensusDataHash := HashValue.zero },
                            signatures := [] } }
  BlockData.newGenesis li.timestampUsecs genesisQuorumCert

variable (env : Env) (hashBlockData : BlockData → HashValue)

/-- `Block::make_genesis_block_from_ledger_info`: its id is the hash of its data. -/
def Block.makeGenesisBlockFromLedgerInfo (li : LedgerInfo) : Block :=
  let blockData := BlockData.newGenesisFromLedgerInfo li
  { id := hashBlockData blockData, blockData := blockData, signature := none }

/-- `QuorumCert::certificate_for_genesis_from_ledger_info`. -/
def QuorumCert.certificateForGenesisFromLedgerInfo (li : LedgerInfo) (genesisId : HashValue) :
    QuorumCert :=
  let ancestor : BlockInfo :=
    { epoch := li.epoch + 1, round := 0, id := genesisId,
      executedStateId := li.transactionAccumulatorHash, version := li.version,
      timestampUsecs := li.timestampUsecs, nextEpochState := none }
  let voteData : VoteData := { proposed := ancestor, parent := ancestor }
  { voteData := voteData,
    signedLedgerInfo := { ledgerInfo := { commitInfo := ancestor,
                                          consensusDataHash := env.hashVoteData voteData },
                          signatures := [] } }

/-! ## Finding the root -/

/-- `RootInfo`: the root block, its quorum certificate, the certificate that commits it,
and the ledger info. -/
structure RootInfo where
  block : Block
  quorumCert : QuorumCert
  orderedCert : QuorumCert
  ledgerInfo : LedgerInfoWithSignatures
deriving DecidableEq, Repr

structure LedgerRecoveryData where
  storageLedger : LedgerInfoWithSignatures
deriving DecidableEq, Repr

/-- The key `find_root` sorts by: the epoch, then the round. -/
def Block.sortKey (b : Block) : ℕ ×ₗ ℕ := toLex (b.epoch, b.round)

namespace LedgerRecoveryData

/-- The start of `find_root`: the root's id and ledger info, and the blocks and
certificates, with the virtual genesis block and its certificate added when the ledger
info ends its epoch. -/
def rootCandidates (d : LedgerRecoveryData) (blocks : List Block) (quorumCerts : List QuorumCert) :
    HashValue × LedgerInfoWithSignatures × List Block × List QuorumCert :=
  let li := d.storageLedger.ledgerInfo
  if env.endsEpoch li then
    let genesis := Block.makeGenesisBlockFromLedgerInfo hashBlockData li
    let genesisQc := QuorumCert.certificateForGenesisFromLedgerInfo env li genesis.id
    (genesis.id, genesisQc.ledgerInfo, blocks ++ [genesis], quorumCerts ++ [genesisQc])
  else (li.consensusBlockId, d.storageLedger, blocks, quorumCerts)

/-- `LedgerRecoveryData::find_root`, with the blocks and certificates as it leaves them.
`sort_by_key` is a stable merge sort, as `List.mergeSort`; `position` followed by
`remove` takes out the first block of the root's id, as `find?` and `eraseP`. -/
def findRoot (d : LedgerRecoveryData) (blocks : List Block) (quorumCerts : List QuorumCert) :
    Except String (RootInfo × List Block × List QuorumCert) := do
  let (rootId, latestLedgerInfoSig, blocks, quorumCerts) :=
    d.rootCandidates env hashBlockData blocks quorumCerts
  let blocks := blocks.mergeSort (fun a b => decide (a.sortKey ≤ b.sortKey))
  let some rootBlock := blocks.find? (fun b => b.id == rootId)
    | throw s!"unable to find root: {rootId}"
  let blocks := blocks.eraseP (fun b => b.id == rootId)
  let some rootQuorumCert := quorumCerts.find? (fun qc => qc.certifiedBlock.id == rootBlock.id)
    | throw s!"No QC found for root: {rootId}"
  let some rootOrderedCert := quorumCerts.find? (fun qc => qc.commitInfo.id == rootBlock.id)
    | throw s!"No LI found for root: {rootId}"
  pure ({ block := rootBlock, quorumCert := rootQuorumCert, orderedCert := rootOrderedCert,
          ledgerInfo := latestLedgerInfoSig }, blocks, quorumCerts)

end LedgerRecoveryData

/-! ## Recovery data -/

/-- `RecoveryData`; the root metadata it passes through is left out. -/
structure RecoveryData where
  lastVote : Option Vote
  root : RootInfo
  blocks : List Block
  quorumCerts : List QuorumCert
  blocksToPrune : Option (List HashValue)
  highestTimeoutCertificate : Option TimeoutCertificate
deriving DecidableEq, Repr

namespace RecoveryData

/-- `RecoveryData::find_blocks_to_prune`: the pass that keeps the blocks whose parent is
the root or a kept block, then the certificates of the root and of the kept blocks.
It returns the kept blocks, the kept certificates and the ids of the other blocks. -/
def findBlocksToPrune (rootId : HashValue) (blocks : List Block) (quorumCerts : List QuorumCert) :
    List Block × List QuorumCert × List HashValue :=
  let r := ParentPass.retain Block.id Block.parentId [rootId] blocks
  (r.2.1, quorumCerts.filter (fun qc => decide (qc.certifiedBlock.id ∈ r.1)), r.2.2)

/-- `RecoveryData::new`. On an error of `find_root` the source adds the root id and the
blocks and certificates read to the message; the error here is `find_root`'s. -/
def new (lastVote : Option Vote) (ledgerRecoveryData : LedgerRecoveryData) (blocks : List Block)
    (quorumCerts : List QuorumCert) (highestTimeoutCertificate : Option TimeoutCertificate) :
    Except String RecoveryData := do
  let (root, blocks, quorumCerts) ← ledgerRecoveryData.findRoot env hashBlockData blocks quorumCerts
  let pruned := findBlocksToPrune root.block.id blocks quorumCerts
  let epoch := root.block.epoch
  pure { lastVote := lastVote.filter (fun v => v.epoch == epoch),
         root := root,
         blocks := pruned.1,
         quorumCerts := pruned.2.1,
         blocksToPrune := some pruned.2.2,
         highestTimeoutCertificate := highestTimeoutCertificate.filter (fun tc => tc.epoch == epoch) }

end RecoveryData

/-! ## What recovery returns -/

namespace LedgerRecoveryData

variable {d : LedgerRecoveryData} {blocks : List Block} {quorumCerts : List QuorumCert}

theorem rootCandidates_of_endsEpoch (h : env.endsEpoch d.storageLedger.ledgerInfo = true) :
    d.rootCandidates env hashBlockData blocks quorumCerts =
      ((Block.makeGenesisBlockFromLedgerInfo hashBlockData d.storageLedger.ledgerInfo).id,
        (QuorumCert.certificateForGenesisFromLedgerInfo env d.storageLedger.ledgerInfo
          (Block.makeGenesisBlockFromLedgerInfo hashBlockData d.storageLedger.ledgerInfo).id).ledgerInfo,
        blocks ++ [Block.makeGenesisBlockFromLedgerInfo hashBlockData d.storageLedger.ledgerInfo],
        quorumCerts ++ [QuorumCert.certificateForGenesisFromLedgerInfo env d.storageLedger.ledgerInfo
          (Block.makeGenesisBlockFromLedgerInfo hashBlockData d.storageLedger.ledgerInfo).id]) := by
  simp [rootCandidates, h]

theorem rootCandidates_of_not_endsEpoch (h : env.endsEpoch d.storageLedger.ledgerInfo = false) :
    d.rootCandidates env hashBlockData blocks quorumCerts =
      (d.storageLedger.ledgerInfo.consensusBlockId, d.storageLedger, blocks, quorumCerts) := by
  simp [rootCandidates, h]

/-- **What `find_root` returns**: the first sorted candidate of the root's id, the other
candidates sorted, and the certificates with the genesis one if it was added. -/
theorem findRoot_eq_ok {rootId : HashValue} {li : LedgerInfoWithSignatures} {cands : List Block}
    {qcs : List QuorumCert} {root : RootInfo} {blocks' : List Block} {quorumCerts' : List QuorumCert}
    (hc : d.rootCandidates env hashBlockData blocks quorumCerts = (rootId, li, cands, qcs))
    (h : d.findRoot env hashBlockData blocks quorumCerts = .ok (root, blocks', quorumCerts')) :
    (cands.mergeSort (fun a b => decide (a.sortKey ≤ b.sortKey))).find? (fun b => b.id == rootId) =
        some root.block ∧
      blocks' = (cands.mergeSort (fun a b => decide (a.sortKey ≤ b.sortKey))).eraseP
        (fun b => b.id == rootId) ∧
      quorumCerts' = qcs := by
  unfold findRoot at h
  rw [hc] at h
  dsimp only at h
  -- the three lookups of the source, each an error when it finds nothing
  cases hr : (cands.mergeSort (fun a b => decide (a.sortKey ≤ b.sortKey))).find?
      (fun b => b.id == rootId) with
  | none =>
    rw [hr] at h
    dsimp only at h
    cases h
  | some rootBlock =>
    rw [hr] at h
    dsimp only at h
    cases hq : qcs.find? (fun qc => qc.certifiedBlock.id == rootBlock.id) with
    | none =>
      rw [hq] at h
      dsimp only at h
      cases h
    | some rootQuorumCert =>
      rw [hq] at h
      dsimp only at h
      cases ho : qcs.find? (fun qc => qc.commitInfo.id == rootBlock.id) with
      | none =>
        rw [ho] at h
        dsimp only at h
        cases h
      | some rootOrderedCert =>
        rw [ho] at h
        dsimp only at h
        cases h
        exact ⟨rfl, rfl, rfl⟩

end LedgerRecoveryData

namespace RecoveryData

variable {lastVote : Option Vote} {ledgerRecoveryData : LedgerRecoveryData} {blocks : List Block}
  {quorumCerts : List QuorumCert} {highestTimeoutCertificate : Option TimeoutCertificate}
  {data : RecoveryData}

theorem new_eq_ok
    (h : RecoveryData.new env hashBlockData lastVote ledgerRecoveryData blocks quorumCerts
      highestTimeoutCertificate = .ok data) :
    ∃ blocks' quorumCerts', ledgerRecoveryData.findRoot env hashBlockData blocks quorumCerts =
        .ok (data.root, blocks', quorumCerts') ∧
      data.blocks = (findBlocksToPrune data.root.block.id blocks' quorumCerts').1 ∧
      data.quorumCerts = (findBlocksToPrune data.root.block.id blocks' quorumCerts').2.1 ∧
      data.blocksToPrune = some (findBlocksToPrune data.root.block.id blocks' quorumCerts').2.2 ∧
      data.lastVote = lastVote.filter (fun v => v.epoch == data.root.block.epoch) ∧
      data.highestTimeoutCertificate =
        highestTimeoutCertificate.filter (fun tc => tc.epoch == data.root.block.epoch) := by
  unfold RecoveryData.new at h
  cases hroot : ledgerRecoveryData.findRoot env hashBlockData blocks quorumCerts with
  | error e =>
    rw [hroot] at h
    cases h
  | ok r =>
    obtain ⟨root, blocks', quorumCerts'⟩ := r
    rw [hroot] at h
    cases h
    exact ⟨blocks', quorumCerts', rfl, rfl, rfl, rfl, rfl, rfl⟩

/-- The key grows from a stored parent to its child. -/
theorem sortKey_lt_of_parent {b p : Block} (h : p.epoch = b.epoch ∧ p.round < b.round) :
    p.sortKey < b.sortKey :=
  Prod.Lex.toLex_lt_toLex.mpr (Or.inr h)

/-- Sorting by the key puts the keys in order. -/
theorem pairwise_sortKey_mergeSort (l : List Block) :
    (l.mergeSort (fun a b => decide (a.sortKey ≤ b.sortKey))).Pairwise
      (fun a b => a.sortKey ≤ b.sortKey) := by
  have h := @List.pairwise_mergeSort _ (fun a b : Block => decide (a.sortKey ≤ b.sortKey))
    (fun a b c hab hbc => by simpa using le_trans (by simpa using hab) (by simpa using hbc))
    (fun a b => by simpa using le_total a.sortKey b.sortKey) l
  exact h.imp (fun hab => by simpa using hab)

/-- **The part of recovery after the candidates are fixed.** With distinct ids among the
candidates, which are the stored blocks apart from the root's id, and keys that grow from
parent to child among the stored blocks, the root is the first candidate of its id, the
kept blocks are those below it, each after its parent, the others are pruned, and the kept
certificates are those of the root and the kept blocks. -/
theorem new_spec_of_candidates {rootId : HashValue} {li : LedgerInfoWithSignatures}
    {cands : List Block} {qcs : List QuorumCert}
    (hc : ledgerRecoveryData.rootCandidates env hashBlockData blocks quorumCerts =
      (rootId, li, cands, qcs))
    (hnodup : (cands.map Block.id).Nodup)
    (hcands : ∀ b, b ∈ cands ∧ b.id ≠ rootId ↔ b ∈ blocks ∧ b.id ≠ rootId)
    (hlt : ∀ b ∈ blocks, ∀ p ∈ blocks, p.id = b.parentId → p.sortKey < b.sortKey)
    (h : RecoveryData.new env hashBlockData lastVote ledgerRecoveryData blocks quorumCerts
      highestTimeoutCertificate = .ok data) :
    data.root.block ∈ cands ∧ data.root.block.id = rootId ∧
      (∀ b, b ∈ data.blocks ↔
        b ∈ blocks ∧ ParentPass.Below Block.id Block.parentId blocks data.root.block.id b) ∧
      (∀ l₁ b l₂, data.blocks = l₁ ++ b :: l₂ →
        b.parentId = data.root.block.id ∨ ∃ p ∈ l₁, p.id = b.parentId) ∧
      (∃ ids, data.blocksToPrune = some ids ∧ ∀ x, x ∈ ids ↔ ∃ b ∈ blocks,
        b.id ≠ data.root.block.id ∧
          ¬ ParentPass.Below Block.id Block.parentId blocks data.root.block.id b ∧ b.id = x) ∧
      (∀ qc, qc ∈ data.quorumCerts ↔ qc ∈ qcs ∧
        (qc.certifiedBlock.id = data.root.block.id ∨ ∃ b ∈ data.blocks, b.id = qc.certifiedBlock.id)) ∧
      data.lastVote = lastVote.filter (fun v => v.epoch == data.root.block.epoch) ∧
      data.highestTimeoutCertificate =
        highestTimeoutCertificate.filter (fun tc => tc.epoch == data.root.block.epoch) := by
  obtain ⟨blocks', quorumCerts', hroot, hblocks, hqcs, hprune, hvote, htc⟩ := new_eq_ok env hashBlockData h
  obtain ⟨hfind, rfl, rfl⟩ := LedgerRecoveryData.findRoot_eq_ok env hashBlockData hc hroot
  -- the root: a sorted candidate of its id
  have hrootMem : data.root.block ∈ cands :=
    (List.mem_mergeSort).mp (List.mem_of_find?_eq_some hfind)
  have hrootId : data.root.block.id = rootId := by simpa using List.find?_some hfind
  -- the blocks the pass runs over: the stored ones but the root's id, sorted
  have hsortedNodup : ((cands.mergeSort (fun a b => decide (a.sortKey ≤ b.sortKey))).map
      Block.id).Nodup := ((List.mergeSort_perm _ _).map Block.id).nodup_iff.mpr hnodup
  have hmem : ∀ b, b ∈ (cands.mergeSort (fun a b => decide (a.sortKey ≤ b.sortKey))).eraseP
      (fun b => b.id == rootId) ↔ b ∈ blocks ∧ b.id ≠ rootId := by
    intro b
    rw [ParentPass.mem_eraseP_of_nodup hsortedNodup, List.mem_mergeSort]
    exact hcands b
  have hfirst : ParentPass.ParentsFirst Block.id Block.parentId
      ((cands.mergeSort (fun a b => decide (a.sortKey ≤ b.sortKey))).eraseP
        (fun b => b.id == rootId)) := by
    refine ParentPass.parentsFirst_of_pairwise Block.sortKey
      ((pairwise_sortKey_mergeSort cands).sublist List.eraseP_sublist) ?_
    intro b hb p hp hpb
    exact hlt b ((hmem b).mp hb).1 p ((hmem p).mp hp).1 hpb
  have hbelow : ∀ b, ParentPass.Below Block.id Block.parentId
      ((cands.mergeSort (fun a b => decide (a.sortKey ≤ b.sortKey))).eraseP
        (fun b => b.id == rootId)) rootId b ↔ ParentPass.Below Block.id Block.parentId blocks rootId b :=
    fun b => ParentPass.below_iff_of_mem_iff Block.sortKey hlt hmem
  obtain ⟨htree, hkept, hdrop⟩ := @ParentPass.retain_spec _ _ Block.id Block.parentId _ _ rootId hfirst
  rw [hrootId] at hblocks hqcs hprune ⊢
  refine ⟨hrootMem, rfl, ?_, ?_, ⟨_, hprune, ?_⟩, ?_, hvote, htc⟩
  · intro b
    rw [hblocks]
    simp only [findBlocksToPrune]
    rw [hkept b, hmem b, hbelow b]
    -- a block below the root does not have the root's id
    exact ⟨fun h => ⟨h.1.1, h.2⟩,
      fun h => ⟨⟨h.1, h.2.id_ne Block.sortKey hlt⟩, h.2⟩⟩
  · intro l₁ b l₂ hsplit
    rw [hblocks] at hsplit
    simpa using ParentPass.retain_parent_before [rootId] _ l₁ b l₂ hsplit
  · intro x
    simp only [findBlocksToPrune]
    rw [hdrop x]
    constructor
    · rintro ⟨b, hb, hnb, hbx⟩
      exact ⟨b, ((hmem b).mp hb).1, ((hmem b).mp hb).2, (hbelow b).not.mp hnb, hbx⟩
    · rintro ⟨b, hb, hbr, hnb, hbx⟩
      exact ⟨b, (hmem b).mpr ⟨hb, hbr⟩, (hbelow b).not.mpr hnb, hbx⟩
  · intro qc
    rw [hqcs, hblocks]
    simp only [findBlocksToPrune, List.mem_filter, decide_eq_true_eq]
    rw [htree]
    -- an id kept by the pass is the root's or a kept block's
    constructor
    · rintro ⟨hqc, hroot | ⟨p, hp, hpb, hpx⟩⟩
      · exact ⟨hqc, Or.inl hroot⟩
      · exact ⟨hqc, Or.inr ⟨p, (hkept p).mpr ⟨hp, hpb⟩, hpx⟩⟩
    · rintro ⟨hqc, hroot | ⟨p, hp, hpx⟩⟩
      · exact ⟨hqc, Or.inl hroot⟩
      · exact ⟨hqc, Or.inr ⟨p, ((hkept p).mp hp).1, ((hkept p).mp hp).2, hpx⟩⟩

/-- An epoch filter keeps a value exactly when it is of the epoch. -/
theorem filter_epoch_eq_some {β : Type} (epochOf : β → ℕ) (o : Option β) (epoch : ℕ) (x : β) :
    o.filter (fun v => epochOf v == epoch) = some x ↔ o = some x ∧ epochOf x = epoch := by
  simp

/-- **Recovery keeps exactly the subtree of the committed root.** Given stored blocks of
distinct ids, none of them of the virtual genesis block's id when the ledger info ends its
epoch, and a parent of each stored block, when it is stored, of the block's epoch and a
smaller round: the root is the stored block the ledger info commits, or the virtual genesis
block; the kept blocks are the stored blocks below the root, each after its parent; the
blocks to prune are the other stored blocks but the root; the kept certificates are those of
the root and the kept blocks; and the last vote and the timeout certificate are kept when
they are of the root's epoch. -/
theorem recovery_keeps_root_subtree (hids : (blocks.map Block.id).Nodup)
    (hgenesis : env.endsEpoch ledgerRecoveryData.storageLedger.ledgerInfo = true →
      ∀ b ∈ blocks, b.id ≠
        (Block.makeGenesisBlockFromLedgerInfo hashBlockData ledgerRecoveryData.storageLedger.ledgerInfo).id)
    (hparent : ∀ b ∈ blocks, ∀ p ∈ blocks, p.id = b.parentId → p.epoch = b.epoch ∧ p.round < b.round)
    (h : RecoveryData.new env hashBlockData lastVote ledgerRecoveryData blocks quorumCerts
      highestTimeoutCertificate = .ok data) :
    (env.endsEpoch ledgerRecoveryData.storageLedger.ledgerInfo = false →
      data.root.block ∈ blocks ∧
        data.root.block.id = ledgerRecoveryData.storageLedger.ledgerInfo.consensusBlockId) ∧
    (env.endsEpoch ledgerRecoveryData.storageLedger.ledgerInfo = true →
      data.root.block =
        Block.makeGenesisBlockFromLedgerInfo hashBlockData ledgerRecoveryData.storageLedger.ledgerInfo) ∧
    (∀ b, b ∈ data.blocks ↔
      b ∈ blocks ∧ ParentPass.Below Block.id Block.parentId blocks data.root.block.id b) ∧
    (∀ l₁ b l₂, data.blocks = l₁ ++ b :: l₂ →
      b.parentId = data.root.block.id ∨ ∃ p ∈ l₁, p.id = b.parentId) ∧
    (∃ ids, data.blocksToPrune = some ids ∧ ∀ x, x ∈ ids ↔ ∃ b ∈ blocks,
      b.id ≠ data.root.block.id ∧
        ¬ ParentPass.Below Block.id Block.parentId blocks data.root.block.id b ∧ b.id = x) ∧
    (∀ qc, qc ∈ data.quorumCerts ↔
      qc ∈ quorumCerts ++
          (if env.endsEpoch ledgerRecoveryData.storageLedger.ledgerInfo then
            [QuorumCert.certificateForGenesisFromLedgerInfo env ledgerRecoveryData.storageLedger.ledgerInfo
              (Block.makeGenesisBlockFromLedgerInfo hashBlockData
                ledgerRecoveryData.storageLedger.ledgerInfo).id]
          else []) ∧
        (qc.certifiedBlock.id = data.root.block.id ∨ ∃ b ∈ data.blocks, b.id = qc.certifiedBlock.id)) ∧
    (∀ v, data.lastVote = some v ↔ lastVote = some v ∧ v.epoch = data.root.block.epoch) ∧
    (∀ tc, data.highestTimeoutCertificate = some tc ↔
      highestTimeoutCertificate = some tc ∧ tc.epoch = data.root.block.epoch) := by
  have hlt : ∀ b ∈ blocks, ∀ p ∈ blocks, p.id = b.parentId → p.sortKey < b.sortKey :=
    fun b hb p hp hpb => sortKey_lt_of_parent (hparent b hb p hp hpb)
  cases hends : env.endsEpoch ledgerRecoveryData.storageLedger.ledgerInfo
  · -- the root is the stored block the ledger info commits
    obtain ⟨hmem, hid, hkept, horder, hprune, hqcs, hvote, htc⟩ := new_spec_of_candidates env
      hashBlockData (LedgerRecoveryData.rootCandidates_of_not_endsEpoch env hashBlockData hends)
      hids (fun _ => Iff.rfl) hlt h
    refine ⟨fun _ => ⟨hmem, hid⟩, fun hfalse => Bool.noConfusion hfalse, hkept, horder,
      hprune, ?_, ?_, ?_⟩
    · simpa using hqcs
    · intro v
      rw [hvote]
      exact filter_epoch_eq_some Vote.epoch lastVote _ v
    · intro tc
      rw [htc]
      exact filter_epoch_eq_some TimeoutCertificate.epoch highestTimeoutCertificate _ tc
  · -- the root is the virtual genesis block, which no stored block shares an id with
    have hfresh := hgenesis hends
    have hnodup : ((blocks ++ [Block.makeGenesisBlockFromLedgerInfo hashBlockData
        ledgerRecoveryData.storageLedger.ledgerInfo]).map Block.id).Nodup := by
      rw [List.map_append, List.nodup_append]
      refine ⟨hids, by simp, ?_⟩
      intro a ha b hb hab
      obtain ⟨c, hc, rfl⟩ := List.mem_map.mp ha
      rw [List.map_singleton, List.mem_singleton] at hb
      exact hfresh c hc (hab.trans hb)
    have hcands : ∀ b, b ∈ blocks ++ [Block.makeGenesisBlockFromLedgerInfo hashBlockData
        ledgerRecoveryData.storageLedger.ledgerInfo] ∧
          b.id ≠ (Block.makeGenesisBlockFromLedgerInfo hashBlockData
            ledgerRecoveryData.storageLedger.ledgerInfo).id ↔
        b ∈ blocks ∧ b.id ≠ (Block.makeGenesisBlockFromLedgerInfo hashBlockData
            ledgerRecoveryData.storageLedger.ledgerInfo).id := by
      intro b
      rw [List.mem_append, List.mem_singleton]
      constructor
      · rintro ⟨hb | rfl, hbid⟩
        · exact ⟨hb, hbid⟩
        · exact absurd rfl hbid
      · rintro ⟨hb, hbid⟩
        exact ⟨Or.inl hb, hbid⟩
    obtain ⟨hmem, hid, hkept, horder, hprune, hqcs, hvote, htc⟩ := new_spec_of_candidates env
      hashBlockData (LedgerRecoveryData.rootCandidates_of_endsEpoch env hashBlockData hends)
      hnodup hcands hlt h
    refine ⟨fun hfalse => Bool.noConfusion hfalse, fun _ => ?_, hkept, horder, hprune, ?_,
      ?_, ?_⟩
    · rcases List.mem_append.mp hmem with hmem | hmem
      · exact absurd hid (hfresh _ hmem)
      · exact List.mem_singleton.mp hmem
    · simpa using hqcs
    · intro v
      rw [hvote]
      exact filter_epoch_eq_some Vote.epoch lastVote _ v
    · intro tc
      rw [htc]
      exact filter_epoch_eq_some TimeoutCertificate.epoch highestTimeoutCertificate _ tc

/-- A stored block of epoch 0 with the given id and round, whose certificate certifies
the block of id `parent`. -/
def storedBlock (id round parent : ℕ) : Block :=
  { id := ⟨id⟩, signature := none,
    blockData := { (default : BlockData) with
      round := round,
      quorumCert := { (default : QuorumCert) with
        voteData := { proposed := { (default : BlockInfo) with id := ⟨parent⟩ }, parent := default } } } }

/-- A certificate of the block of id `id`. -/
def storedCert (id : ℕ) : QuorumCert :=
  { (default : QuorumCert) with
    voteData := { proposed := { (default : BlockInfo) with id := ⟨id⟩ }, parent := default } }

/-- The root `⟨0⟩` the default ledger info commits, its child `⟨2⟩` and the block `⟨3⟩`,
whose parent is not stored. -/
def storedBlocks : List Block := [storedBlock 0 1 7, storedBlock 2 2 0, storedBlock 3 3 9]

theorem recovery_keeps_root_subtree_storedBlocks :
    ((storedBlocks.map Block.id).Nodup ∧
      ((default : Env).endsEpoch (default : LedgerInfoWithSignatures).ledgerInfo = true →
        ∀ b ∈ storedBlocks, b.id ≠
          (Block.makeGenesisBlockFromLedgerInfo (fun _ => ⟨1⟩) (default : LedgerInfoWithSignatures).ledgerInfo).id) ∧
      (∀ b ∈ storedBlocks, ∀ p ∈ storedBlocks, p.id = b.parentId →
        p.epoch = b.epoch ∧ p.round < b.round)) ∧
    ∃ data, RecoveryData.new default (fun _ => ⟨1⟩) none ⟨default⟩ storedBlocks
        [default, storedCert 2, storedCert 3] none = .ok data ∧
      (((default : Env).endsEpoch (default : LedgerInfoWithSignatures).ledgerInfo = false →
        data.root.block ∈ storedBlocks ∧
          data.root.block.id = (default : LedgerInfoWithSignatures).ledgerInfo.consensusBlockId) ∧
      ((default : Env).endsEpoch (default : LedgerInfoWithSignatures).ledgerInfo = true →
        data.root.block =
          Block.makeGenesisBlockFromLedgerInfo (fun _ => ⟨1⟩) (default : LedgerInfoWithSignatures).ledgerInfo) ∧
      (∀ b, b ∈ data.blocks ↔
        b ∈ storedBlocks ∧ ParentPass.Below Block.id Block.parentId storedBlocks data.root.block.id b) ∧
      (∀ l₁ b l₂, data.blocks = l₁ ++ b :: l₂ →
        b.parentId = data.root.block.id ∨ ∃ p ∈ l₁, p.id = b.parentId) ∧
      (∃ ids, data.blocksToPrune = some ids ∧ ∀ x, x ∈ ids ↔ ∃ b ∈ storedBlocks,
        b.id ≠ data.root.block.id ∧
          ¬ ParentPass.Below Block.id Block.parentId storedBlocks data.root.block.id b ∧ b.id = x) ∧
      (∀ qc, qc ∈ data.quorumCerts ↔
        qc ∈ [default, storedCert 2, storedCert 3] ++
            (if (default : Env).endsEpoch (default : LedgerInfoWithSignatures).ledgerInfo then
              [QuorumCert.certificateForGenesisFromLedgerInfo default
                (default : LedgerInfoWithSignatures).ledgerInfo
                (Block.makeGenesisBlockFromLedgerInfo (fun _ => ⟨1⟩)
                  (default : LedgerInfoWithSignatures).ledgerInfo).id]
            else []) ∧
          (qc.certifiedBlock.id = data.root.block.id ∨ ∃ b ∈ data.blocks, b.id = qc.certifiedBlock.id)) ∧
      (∀ v, data.lastVote = some v ↔ none = some v ∧ v.epoch = data.root.block.epoch) ∧
      (∀ tc, data.highestTimeoutCertificate = some tc ↔
        none = some tc ∧ tc.epoch = data.root.block.epoch)) := by
  have hids : (storedBlocks.map Block.id).Nodup := by decide
  have hgenesis : (default : Env).endsEpoch (default : LedgerInfoWithSignatures).ledgerInfo = true →
      ∀ b ∈ storedBlocks, b.id ≠
        (Block.makeGenesisBlockFromLedgerInfo (fun _ => ⟨1⟩) (default : LedgerInfoWithSignatures).ledgerInfo).id :=
    fun hends => Bool.noConfusion hends
  have hparent : ∀ b ∈ storedBlocks, ∀ p ∈ storedBlocks, p.id = b.parentId →
      p.epoch = b.epoch ∧ p.round < b.round := by decide
  -- the stored blocks are in order of their rounds already
  have hsort : storedBlocks.mergeSort (fun a b => decide (a.sortKey ≤ b.sortKey)) = storedBlocks :=
    List.mergeSort_of_pairwise (by decide)
  have hnew : ∃ data, RecoveryData.new default (fun _ => ⟨1⟩) none ⟨default⟩ storedBlocks
      [default, storedCert 2, storedCert 3] none = .ok data := by
    unfold RecoveryData.new LedgerRecoveryData.findRoot
    rw [LedgerRecoveryData.rootCandidates_of_not_endsEpoch default _ rfl]
    dsimp only
    rw [hsort]
    exact ⟨_, rfl⟩
  obtain ⟨data, h⟩ := hnew
  exact ⟨⟨hids, hgenesis, hparent⟩, data, h, recovery_keeps_root_subtree default _ hids hgenesis hparent h⟩

/-! ## A stored copy of the virtual genesis block

After a restart in the middle of a fast-forward sync across an epoch boundary, the store
can hold the genesis block of the next epoch while the ledger info still ends the epoch.
`find_root` adds the virtual genesis block all the same; the stored copy, first of the
two, becomes the root, and the virtual block stays among the blocks with its parent id
zero, so it is pruned, under the root's id. -/

/-- An environment in which every ledger info ends its epoch. -/
def endingEnv : Env := { (default : Env) with endsEpoch := fun _ => true }

/-- The virtual genesis block after the default ledger info, with data hashed to 1. -/
def storedGenesis : Block := Block.makeGenesisBlockFromLedgerInfo (fun _ => ⟨1⟩) default

theorem stored_genesis_pruned :
    ∃ data, RecoveryData.new endingEnv (fun _ => ⟨1⟩) none ⟨default⟩ [storedGenesis] [] none =
        .ok data ∧
      data.root.block = storedGenesis ∧ data.blocks = [] ∧
      data.blocksToPrune = some [data.root.block.id] := by
  -- the virtual block is the stored one, and the sort keeps the two copies as they are
  have hG : Block.makeGenesisBlockFromLedgerInfo (fun _ => ⟨1⟩)
      (default : LedgerInfoWithSignatures).ledgerInfo = storedGenesis := rfl
  have hsort : [storedGenesis, storedGenesis].mergeSort (fun a b => decide (a.sortKey ≤ b.sortKey)) =
      [storedGenesis, storedGenesis] := List.mergeSort_of_pairwise (by simp)
  unfold RecoveryData.new LedgerRecoveryData.findRoot
  rw [LedgerRecoveryData.rootCandidates_of_endsEpoch endingEnv _ rfl]
  dsimp only
  rw [hG, List.singleton_append, hsort]
  exact ⟨_, rfl, rfl, rfl, rfl⟩

end RecoveryData

end Dijets.Consensus
