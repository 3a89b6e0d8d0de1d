import Mathlib.Data.Nat.Basic
import Dijets.Consensus.PendingVotes
import Dijets.Lib.Outcome
import Dijets.Lib.TreeWalk

/-!
# The block tree

`BlockTree` keeps the blocks a replica knows, each with the ids of its children,
below the commit root. `insert_block` links a new block under its stored parent. A
commit to a block `n` below the root first finds the blocks to prune: those reachable
from the root outside the subtree of `n`, by a walk with a stack
(`find_blocks_to_prune`). It then makes `n` the root and queues the pruned ids,
removing the oldest from the store once more than `max_pruned_blocks_in_mem` wait
(`update_commit_id_and_process_pruned_blocks`).

Every tree reachable by inserts, quorum certificates, commits and the updates of the
other roots and certificates keeps `Invariant`: the part of the store reachable from
the commit root is a tree of stored blocks (`TreeWalk.IsTree`), and the queue of
pruned ids holds distinct stored blocks off that tree, no more of them than the bound.
A commit to a block below the root then prunes exactly the blocks off the subtree of
the new root, each once, and leaves that subtree as the tree
(`commit_prunes_off_subtree`).

The maps `id_to_block` and `id_to_quorum_cert` are hash maps in the source: here they
are `SortedMap`s, read only by key. A block's children are a hash set there; here
they are listed in the order they were added, and `find_blocks_to_prune` visits them
in that order. The result of executing a block is compared only for equality, and the
counters and log lines are left out.

## Main definitions

* `BlockTree.insertBlock`, `BlockTree.insertQuorumCert` — `insert_block`, `insert_quorum_cert`.
* `BlockTree.findBlocksToPrune`, `BlockTree.updateCommitIdAndProcessPrunedBlocks` — a commit.
* `BlockTree.Reachable` — the trees reachable from `BlockTree::new`.
* `BlockTree.Invariant` — what every reachable tree keeps.
-/

set_option autoImplicit false

namespace Dijets.Consensus

open Dijets.Lib

/-- `StateComputeResult`, compared only for equality. -/
structure StateComputeResult where
  val : ℕ
deriving DecidableEq, Repr, Inhabited

/-- A block and the result of executing it. -/
structure ExecutedBlock where
  block : Block
  stateComputeResult : StateComputeResult
deriving DecidableEq, Repr, Inhabited

namespace ExecutedBlock

def id (b : ExecutedBlock) : HashValue := b.block.id

def round (b : ExecutedBlock) : ℕ := b.block.round

/-- The id of the block that the block's quorum certificate certifies. -/
def parentId (b : ExecutedBlock) : HashValue := b.block.quorumCert.certifiedBlock.id

end ExecutedBlock

/-- A stored block with the ids of its children. -/
structure LinkableBlock where
  executedBlock : ExecutedBlock
  children : List HashValue
deriving DecidableEq, Repr, Inhabited

namespace LinkableBlock

def new (block : ExecutedBlock) : LinkableBlock := { executedBlock := block, children := [] }

def id (lb : LinkableBlock) : HashValue := lb.executedBlock.id

/-- `add_child`; `none` is the panic "Block .. already existed.". -/
def addChild (lb : LinkableBlock) (childId : HashValue) : Option LinkableBlock :=
  if childId ∈ lb.children then none
  else some { lb with children := lb.children ++ [childId] }

end LinkableBlock

structure BlockTree where
  idToBlock : List (HashValue × LinkableBlock)
  orderedRootId : HashValue
  commitRootId : HashValue
  highestCertifiedBlockId : HashValue
  highestQuorumCert : QuorumCert
  highestTimeoutCert : Option TimeoutCertificate
  highestOrderedCert : QuorumCert
  highestLedgerInfo : LedgerInfoWithSignatures
  idToQuorumCert : List (HashValue × QuorumCert)
  prunedBlockIds : List HashValue
  maxPrunedBlocksInMem : ℕ
deriving DecidableEq, Repr

namespace BlockTree

/-- `BlockTree::new`; `none` is the panic "inconsistent root and ledger info". -/
def new (root : ExecutedBlock) (rootQuorumCert rootOrderedCert : QuorumCert)
    (rootCommitLedgerInfo : LedgerInfoWithSignatures) (maxPrunedBlocksInMem : ℕ)
    (highestTimeoutCert : Option TimeoutCertificate) : Option BlockTree :=
  if root.id = rootOrderedCert.commitInfo.id then
    some { idToBlock := [(root.id, LinkableBlock.new root)],
           orderedRootId := root.id,
           commitRootId := root.id,
           highestCertifiedBlockId := root.id,
           highestQuorumCert := rootQuorumCert,
           highestTimeoutCert := highestTimeoutCert,
           highestOrderedCert := rootOrderedCert,
           highestLedgerInfo := rootCommitLedgerInfo,
           idToQuorumCert := [(rootQuorumCert.certifiedBlock.id, rootQuorumCert)],
           prunedBlockIds := [],
           maxPrunedBlocksInMem := maxPrunedBlocksInMem }
  else none

def getLinkableBlock (t : BlockTree) (blockId : HashValue) : Option LinkableBlock :=
  SortedMap.get? blockId t.idToBlock

def getBlock (t : BlockTree) (blockId : HashValue) : Option ExecutedBlock :=
  (t.getLinkableBlock blockId).map LinkableBlock.executedBlock

/-- `linkable_root`; `none` is the panic "Root must exist". -/
def linkableRoot (t : BlockTree) : Option LinkableBlock := t.getLinkableBlock t.commitRootId

/-- `highest_certified_block`; `none` is the panic "Highest cerfified block must exist". -/
def highestCertifiedBlock (t : BlockTree) : Option ExecutedBlock :=
  t.getBlock t.highestCertifiedBlockId

def removeBlock (t : BlockTree) (blockId : HashValue) : BlockTree :=
  { t with idToBlock := SortedMap.erase blockId t.idToBlock,
           idToQuorumCert := SortedMap.erase blockId t.idToQuorumCert }

/-- `b` is reached from `a` by child links of stored blocks. -/
def Descendant (t : BlockTree) : HashValue → HashValue → Prop :=
  TreeWalk.Desc t.getLinkableBlock LinkableBlock.children

/-- `insert_block`. A block already stored is returned as it is, after the check that
its execution result is the same (`checked_verify_eq!`, a panic otherwise); a new
block is listed as a child of its stored parent and stored. -/
def insertBlock (t : BlockTree) (block : ExecutedBlock) :
    Outcome String (BlockTree × ExecutedBlock) :=
  let blockId := block.id
  match t.getBlock blockId with
  | some existingBlock =>
    if existingBlock.stateComputeResult = block.stateComputeResult then .ok (t, existingBlock)
    else .panic
  | none =>
    let parentId := block.parentId
    match t.getLinkableBlock parentId with
    | none => .err s!"Parent block {parentId} not found"
    | some parentBlock =>
      match parentBlock.addChild blockId with
      | none => .panic
      | some parentBlock =>
        let idToBlock := SortedMap.insert parentId parentBlock t.idToBlock
        -- assert!(self.id_to_block.insert(block_id, linkable_block).is_none())
        match SortedMap.get? blockId idToBlock with
        | some _ => .panic
        | none =>
          .ok ({ t with idToBlock := SortedMap.insert blockId (LinkableBlock.new block) idToBlock },
            block)

/-- `insert_quorum_cert`. The MIRAI `precondition!` is not checked at run time. -/
def insertQuorumCert (t : BlockTree) (qc : QuorumCert) : Outcome String BlockTree :=
  let blockId := qc.certifiedBlock.id
  match t.getBlock blockId with
  | none => .err s!"Block {blockId} not found"
  | some block =>
    match t.highestCertifiedBlock with
    | none => .panic
    | some highestCertifiedBlock =>
      let t := if block.round > highestCertifiedBlock.round then
          { t with highestCertifiedBlockId := block.id, highestQuorumCert := qc }
        else t
      let t := { t with idToQuorumCert := SortedMap.orInsert blockId qc t.idToQuorumCert }
      .ok (if t.highestOrderedCert.commitInfo.round < qc.commitInfo.round then
          { t with highestOrderedCert := qc }
        else t)

/-- `find_blocks_to_prune`: the walk from the commit root that skips `next_root_id`;
`none` is the panic "Root must exist" or "Child must exist in the tree". The source's
loop runs until the stack is empty; the walk here gets one round for each stored
block, which `findBlocksToPrune_spec` shows to be enough. -/
def findBlocksToPrune (t : BlockTree) (nextRootId : HashValue) : Option (List HashValue) :=
  if nextRootId = t.commitRootId then some []
  else
    match t.linkableRoot with
    | none => none
    | some root =>
      TreeWalk.walk t.getLinkableBlock LinkableBlock.children LinkableBlock.id nextRootId
        t.idToBlock.length [root] []

/-- The loop of `update_commit_id_and_process_pruned_blocks`: `n` times, pop the oldest
pruned id, if there is one, and remove its block. -/
def removeOldestPruned : ℕ → BlockTree → BlockTree
  | 0, t => t
  | n + 1, t =>
    match t.prunedBlockIds with
    | [] => removeOldestPruned n t
    | blockId :: rest => removeOldestPruned n ({ t with prunedBlockIds := rest }.removeBlock blockId)

def updateCommitIdAndProcessPrunedBlocks (t : BlockTree) (nextRootId : HashValue)
    (newlyPrunedBlocks : List HashValue) : BlockTree :=
  let t := { t with commitRootId := nextRootId,
                    prunedBlockIds := t.prunedBlockIds ++ newlyPrunedBlocks }
  if t.prunedBlockIds.length > t.maxPrunedBlocksInMem then
    removeOldestPruned (t.prunedBlockIds.length - t.maxPrunedBlocksInMem) t
  else t

/-- `update_ordered_root_id`; `none` is the panic of its assertion that the block exists. -/
def updateOrderedRootId (t : BlockTree) (rootId : HashValue) : Option BlockTree :=
  if (t.getLinkableBlock rootId).isSome then some { t with orderedRootId := rootId } else none

def replaceTimeoutCert (t : BlockTree) (tc : TimeoutCertificate) : BlockTree :=
  { t with highestTimeoutCert := some tc }

def updateHighestLedgerInfo (t : BlockTree) (newLedgerInfoWithSig : LedgerInfoWithSignatures) :
    BlockTree :=
  if newLedgerInfoWithSig.ledgerInfo.commitInfo.round >
      t.highestLedgerInfo.ledgerInfo.commitInfo.round then
    { t with highestLedgerInfo := newLedgerInfoWithSig }
  else t

/-- The trees reachable from `BlockTree::new` by calls that return. A commit is to a
block below the commit root, as `BlockStore` makes it. -/
inductive Reachable : BlockTree → Prop
  | new {t : BlockTree} (root : ExecutedBlock) (rootQuorumCert rootOrderedCert : QuorumCert)
      (rootCommitLedgerInfo : LedgerInfoWithSignatures) (maxPrunedBlocksInMem : ℕ)
      (highestTimeoutCert : Option TimeoutCertificate) :
      BlockTree.new root rootQuorumCert rootOrderedCert rootCommitLedgerInfo maxPrunedBlocksInMem
        highestTimeoutCert = some t → Reachable t
  | insertBlock {t t' : BlockTree} {block b : ExecutedBlock} :
      Reachable t → t.insertBlock block = .ok (t', b) → Reachable t'
  | insertQuorumCert {t t' : BlockTree} {qc : QuorumCert} :
      Reachable t → t.insertQuorumCert qc = .ok t' → Reachable t'
  | commit {t : BlockTree} {nextRootId : HashValue} {blocks : List HashValue} :
      Reachable t → t.Descendant t.commitRootId nextRootId →
      t.findBlocksToPrune nextRootId = some blocks →
      Reachable (t.updateCommitIdAndProcessPrunedBlocks nextRootId blocks)
  | updateOrderedRootId {t t' : BlockTree} {rootId : HashValue} :
      Reachable t → t.updateOrderedRootId rootId = some t' → Reachable t'
  | replaceTimeoutCert {t : BlockTree} (tc : TimeoutCertificate) :
      Reachable t → Reachable (t.replaceTimeoutCert tc)
  | updateHighestLedgerInfo {t : BlockTree} (li : LedgerInfoWithSignatures) :
      Reachable t → Reachable (t.updateHighestLedgerInfo li)

/-- What every reachable tree keeps: the store below the commit root is a tree, and the
queue of pruned ids holds distinct stored blocks off it, at most the bound. -/
structure Invariant (t : BlockTree) : Prop where
  sorted : SortedMap.Sorted t.idToBlock
  tree : TreeWalk.IsTree t.getLinkableBlock LinkableBlock.children LinkableBlock.id t.commitRootId
  pruned_nodup : t.prunedBlockIds.Nodup
  pruned_stored : ∀ x ∈ t.prunedBlockIds, (t.getLinkableBlock x).isSome
  pruned_off_tree : ∀ x ∈ t.prunedBlockIds, ¬ t.Descendant t.commitRootId x
  pruned_le : t.prunedBlockIds.length ≤ t.maxPrunedBlocksInMem

/-! ## Lookups and frames -/

variable {t t' : BlockTree}

/-- Lookups read only the store of blocks. -/
theorem getLinkableBlock_congr (h : t'.idToBlock = t.idToBlock) :
    t'.getLinkableBlock = t.getLinkableBlock := by
  funext x
  simp [getLinkableBlock, h]

/-- The invariant reads only the store, the commit root and the queue with its bound. -/
theorem Invariant.of_frame (h : Invariant t) (hb : t'.idToBlock = t.idToBlock)
    (hr : t'.commitRootId = t.commitRootId) (hp : t'.prunedBlockIds = t.prunedBlockIds)
    (hm : t'.maxPrunedBlocksInMem = t.maxPrunedBlocksInMem) : Invariant t' := by
  have hl := getLinkableBlock_congr hb
  have hd : t'.Descendant = t.Descendant := by simp only [Descendant, hl]
  constructor
  · rw [hb]
    exact h.sorted
  · rw [hl, hr]
    exact h.tree
  · rw [hp]
    exact h.pruned_nodup
  · rw [hp, hl]
    exact h.pruned_stored
  · rw [hp, hd, hr]
    exact h.pruned_off_tree
  · rw [hp, hm]
    exact h.pruned_le

@[simp] theorem removeBlock_prunedBlockIds (t : BlockTree) (blockId : HashValue) :
    (t.removeBlock blockId).prunedBlockIds = t.prunedBlockIds := rfl

@[simp] theorem getLinkableBlock_setPrunedBlockIds (t : BlockTree) (ids : List HashValue) :
    ({ t with prunedBlockIds := ids } : BlockTree).getLinkableBlock = t.getLinkableBlock := rfl

theorem getLinkableBlock_removeBlock (hs : SortedMap.Sorted t.idToBlock) (blockId x : HashValue) :
    (t.removeBlock blockId).getLinkableBlock x =
      if x = blockId then none else t.getLinkableBlock x := by
  split_ifs with hx
  · subst hx
    exact SortedMap.get?_erase_self hs
  · exact SortedMap.get?_erase_ne hx

/-! ## The new tree -/

theorem invariant_new {root : ExecutedBlock} {rootQuorumCert rootOrderedCert : QuorumCert}
    {rootCommitLedgerInfo : LedgerInfoWithSignatures} {maxPrunedBlocksInMem : ℕ}
    {highestTimeoutCert : Option TimeoutCertificate}
    (h : BlockTree.new root rootQuorumCert rootOrderedCert rootCommitLedgerInfo
      maxPrunedBlocksInMem highestTimeoutCert = some t) : Invariant t := by
  unfold BlockTree.new at h
  split_ifs at h
  cases h
  -- the root is stored alone, without children
  have hroot : SortedMap.get? root.id [(root.id, LinkableBlock.new root)] = some (LinkableBlock.new root) := by
    simp [SortedMap.get?]
  constructor
  · exact List.pairwise_singleton _ _
  · exact TreeWalk.isTree_leaf hroot rfl rfl
  · exact List.nodup_nil
  · simp
  · simp
  · simp

/-! ## Inserting a block -/

/-- **What `insert_block` does when it returns**: it leaves a stored block as it is, or
stores a new block under its stored parent, which did not list it yet. -/
theorem insertBlock_eq_ok {block b : ExecutedBlock} (h : t.insertBlock block = .ok (t', b)) :
    t' = t ∨ ∃ parentBlock, t.getLinkableBlock block.id = none ∧
      t.getLinkableBlock block.parentId = some parentBlock ∧ block.id ∉ parentBlock.children ∧
      t' = { t with idToBlock := (SortedMap.insert block.id (LinkableBlock.new block)
        (SortedMap.insert block.parentId
          { parentBlock with children := parentBlock.children ++ [block.id] } t.idToBlock)) } := by
  unfold insertBlock at h
  dsimp only at h
  split at h
  · split_ifs at h
    cases h
    exact Or.inl rfl
  · rename_i hget
    split at h
    · cases h
    · rename_i parentBlock hparent
      split at h
      · cases h
      · rename_i parentBlock' hadd
        split at h
        · cases h
        · cases h
          unfold LinkableBlock.addChild at hadd
          split_ifs at hadd with hmem
          cases hadd
          refine Or.inr ⟨parentBlock, ?_, hparent, hmem, rfl⟩
          simpa [getBlock] using hget

theorem Invariant.insertBlock (h : Invariant t) {block b : ExecutedBlock}
    (hins : t.insertBlock block = .ok (t', b)) : Invariant t' := by
  rcases insertBlock_eq_ok hins with rfl | ⟨parentBlock, hnew, hparent, hmem, rfl⟩
  · exact h
  · -- the store after the insert: the parent lists the block last, and the block is a leaf
    generalize hpb : ({ parentBlock with children := parentBlock.children ++ [block.id] } :
      LinkableBlock) = parentBlock'
    generalize hM : SortedMap.insert block.id (LinkableBlock.new block)
      (SortedMap.insert block.parentId parentBlock' t.idToBlock) = M
    have hpc : block.parentId ≠ block.id := by
      intro heq
      rw [heq, hnew] at hparent
      cases hparent
    have hp' : ({ t with idToBlock := M } : BlockTree).getLinkableBlock block.parentId =
        some parentBlock' := by
      rw [← hM]
      exact (SortedMap.get?_insert_ne hpc).trans SortedMap.get?_insert_self
    have hkids : parentBlock'.children = parentBlock.children ++ [block.id] := by rw [← hpb]
    have hkey : parentBlock'.id = parentBlock.id := by rw [← hpb]; rfl
    have hc' : ({ t with idToBlock := M } : BlockTree).getLinkableBlock block.id =
        some (LinkableBlock.new block) := by
      rw [← hM]
      exact SortedMap.get?_insert_self
    have hvc : (LinkableBlock.new block).children = [] := rfl
    have hother : ∀ x, x ≠ block.parentId → x ≠ block.id →
        ({ t with idToBlock := M } : BlockTree).getLinkableBlock x = t.getLinkableBlock x := by
      intro x hxp hxc
      rw [← hM]
      exact (SortedMap.get?_insert_ne hxc).trans (SortedMap.get?_insert_ne hxp)
    have hdesc := TreeWalk.desc_addLeaf hnew hparent hp' hkids hc' hvc hother
    constructor
    · rw [← hM]
      exact SortedMap.sorted_insert (SortedMap.sorted_insert h.sorted)
    · exact h.tree.addLeaf hnew hparent hp' hkids hc' hvc hother hkey rfl hmem
    · exact h.pruned_nodup
    · intro x hx
      have hstored := h.pruned_stored x hx
      by_cases hxp : x = block.parentId
      · rw [hxp, hp']
        rfl
      · have hxc : x ≠ block.id := by
          rintro rfl
          rw [hnew] at hstored
          cases hstored
        rw [hother x hxp hxc]
        exact hstored
    · intro x hx hreach
      -- a queued block is stored, so it is not the new one
      have hxc : x ≠ block.id := by
        intro heq
        have hstored := h.pruned_stored x hx
        rw [heq, hnew] at hstored
        cases hstored
      exact h.pruned_off_tree x hx (((hdesc _ _).mp hreach).resolve_right fun h => hxc h.1)
    · exact h.pruned_le

/-! ## Certificates and the other roots -/

theorem insertQuorumCert_eq_ok {qc : QuorumCert} (h : t.insertQuorumCert qc = .ok t') :
    t'.idToBlock = t.idToBlock ∧ t'.commitRootId = t.commitRootId ∧
      t'.prunedBlockIds = t.prunedBlockIds ∧
      t'.maxPrunedBlocksInMem = t.maxPrunedBlocksInMem := by
  unfold insertQuorumCert at h
  dsimp only at h
  split at h
  · cases h
  · split at h
    · cases h
    · cases h
      split_ifs <;> exact ⟨rfl, rfl, rfl, rfl⟩

theorem Invariant.insertQuorumCert (h : Invariant t) {qc : QuorumCert}
    (hqc : t.insertQuorumCert qc = .ok t') : Invariant t' := by
  obtain ⟨hb, hr, hp, hm⟩ := insertQuorumCert_eq_ok hqc
  exact h.of_frame hb hr hp hm

theorem Invariant.updateOrderedRootId (h : Invariant t) {rootId : HashValue}
    (hup : t.updateOrderedRootId rootId = some t') : Invariant t' := by
  unfold BlockTree.updateOrderedRootId at hup
  split_ifs at hup
  cases hup
  exact h.of_frame rfl rfl rfl rfl

theorem Invariant.updateHighestLedgerInfo (h : Invariant t) (li : LedgerInfoWithSignatures) :
    Invariant (t.updateHighestLedgerInfo li) := by
  unfold BlockTree.updateHighestLedgerInfo
  split_ifs
  · exact h.of_frame rfl rfl rfl rfl
  · exact h

/-! ## Finding the blocks to prune -/

/-- **`find_blocks_to_prune` returns the blocks off the subtree of `n`**, each once, for
a block `n` below the commit root. -/
theorem findBlocksToPrune_spec (h : Invariant t) {n : HashValue}
    (hn : t.Descendant t.commitRootId n) :
    ∃ blocks, t.findBlocksToPrune n = some blocks ∧ blocks.Nodup ∧
      ∀ x, x ∈ blocks ↔ t.Descendant t.commitRootId x ∧ ¬ t.Descendant n x := by
  by_cases hroot : n = t.commitRootId
  · -- everything below the root is in its own subtree
    refine ⟨[], by simp [findBlocksToPrune, hroot], List.nodup_nil, fun x => ?_⟩
    simp [hroot]
  · obtain ⟨v, hv, -⟩ := h.tree.stored t.commitRootId Relation.ReflTransGen.refl
    -- the walk needs a round for each block of the tree, and each is a key of the store
    have hK : ∀ x, t.Descendant t.commitRootId x → x ∈ t.idToBlock.map Prod.fst := by
      intro x hx
      obtain ⟨w, hw, -⟩ := h.tree.stored x hx
      exact SortedMap.mem_keys_of_get? hw
    obtain ⟨out, hwalk, hnodup, hmem⟩ := TreeWalk.walk_spec h.tree hn hroot hv hK
      (le_of_eq (by simp) : (t.idToBlock.map Prod.fst).length ≤ t.idToBlock.length)
    refine ⟨out, ?_, hnodup, hmem⟩
    simp only [findBlocksToPrune, hroot, if_false, linkableRoot, hv]
    exact hwalk

/-! ## Processing the pruned blocks -/

section Evict

variable (k : ℕ)

/-! The two equations of the loop, which the proofs below rewrite with. -/

theorem removeOldestPruned_zero (t : BlockTree) : removeOldestPruned 0 t = t := rfl

theorem removeOldestPruned_succ (t : BlockTree) :
    removeOldestPruned (k + 1) t =
      match t.prunedBlockIds with
      | [] => removeOldestPruned k t
      | blockId :: rest =>
        removeOldestPruned k ({ t with prunedBlockIds := rest }.removeBlock blockId) := rfl

@[simp] theorem removeOldestPruned_commitRootId (t : BlockTree) :
    (removeOldestPruned k t).commitRootId = t.commitRootId := by
  induction k generalizing t with
  | zero => rfl
  | succ k ih =>
    cases hp : t.prunedBlockIds with
    | nil => simp [removeOldestPruned_succ, hp, ih]
    | cons blockId rest => simp [removeOldestPruned_succ, hp, ih, removeBlock]

@[simp] theorem removeOldestPruned_maxPrunedBlocksInMem (t : BlockTree) :
    (removeOldestPruned k t).maxPrunedBlocksInMem = t.maxPrunedBlocksInMem := by
  induction k generalizing t with
  | zero => rfl
  | succ k ih =>
    cases hp : t.prunedBlockIds with
    | nil => simp [removeOldestPruned_succ, hp, ih]
    | cons blockId rest => simp [removeOldestPruned_succ, hp, ih, removeBlock]

@[simp] theorem removeOldestPruned_prunedBlockIds (t : BlockTree) :
    (removeOldestPruned k t).prunedBlockIds = t.prunedBlockIds.drop k := by
  induction k generalizing t with
  | zero => rfl
  | succ k ih =>
    cases hp : t.prunedBlockIds with
    | nil => simp [removeOldestPruned_succ, hp, ih]
    | cons blockId rest => simp [removeOldestPruned_succ, hp, ih, removeBlock]

theorem sorted_removeOldestPruned (t : BlockTree) (hs : SortedMap.Sorted t.idToBlock) :
    SortedMap.Sorted (removeOldestPruned k t).idToBlock := by
  induction k generalizing t with
  | zero => exact hs
  | succ k ih =>
    cases hp : t.prunedBlockIds with
    | nil =>
      simp only [removeOldestPruned_succ, hp]
      exact ih t hs
    | cons blockId rest =>
      simp only [removeOldestPruned_succ, hp]
      exact ih _ (SortedMap.sorted_erase hs)

/-- The loop removes the blocks of the first `k` queued ids and nothing else. -/
theorem getLinkableBlock_removeOldestPruned (t : BlockTree) (hs : SortedMap.Sorted t.idToBlock)
    (x : HashValue) :
    (removeOldestPruned k t).getLinkableBlock x =
      if x ∈ t.prunedBlockIds.take k then none else t.getLinkableBlock x := by
  induction k generalizing t with
  | zero => simp [removeOldestPruned_zero]
  | succ k ih =>
    cases hp : t.prunedBlockIds with
    | nil =>
      simp only [removeOldestPruned_succ, hp]
      rw [ih t hs, hp]
      simp
    | cons blockId rest =>
      simp only [removeOldestPruned_succ, hp]
      rw [ih _ (SortedMap.sorted_erase hs), getLinkableBlock_removeBlock
        (show SortedMap.Sorted ({ t with prunedBlockIds := rest } : BlockTree).idToBlock from hs)]
      by_cases hx : x = blockId <;> by_cases hxr : x ∈ rest.take k <;> simp [hx, hxr]

end Evict

/-- `update_commit_id_and_process_pruned_blocks` always runs its loop, no round of it when
the queue is within the bound. -/
theorem updateCommitIdAndProcessPrunedBlocks_eq (t : BlockTree) (n : HashValue)
    (blocks : List HashValue) :
    t.updateCommitIdAndProcessPrunedBlocks n blocks =
      removeOldestPruned ((t.prunedBlockIds ++ blocks).length - t.maxPrunedBlocksInMem)
        { t with commitRootId := n, prunedBlockIds := t.prunedBlockIds ++ blocks } := by
  unfold updateCommitIdAndProcessPrunedBlocks
  dsimp only
  split_ifs with hlen
  · rfl
  · rw [Nat.sub_eq_zero_of_le (Nat.le_of_not_lt hlen)]
    rfl

/-- **A commit to a block `n` below the root keeps the invariant**, and leaves as the tree
the old subtree of `n`. -/
theorem Invariant.commit (h : Invariant t) {n : HashValue} (hn : t.Descendant t.commitRootId n)
    {blocks : List HashValue} (hfind : t.findBlocksToPrune n = some blocks) :
    Invariant (t.updateCommitIdAndProcessPrunedBlocks n blocks) ∧
      ∀ x, (t.updateCommitIdAndProcessPrunedBlocks n blocks).Descendant n x ↔
        t.Descendant n x := by
  obtain ⟨blocks', hfind', hnodup, hmem⟩ := findBlocksToPrune_spec h hn
  rw [hfind, Option.some.injEq] at hfind'
  subst hfind'
  rw [updateCommitIdAndProcessPrunedBlocks_eq]
  -- the queue after the append, and the tree before the loop
  generalize hL : t.prunedBlockIds ++ blocks = L
  generalize hk : L.length - t.maxPrunedBlocksInMem = k
  have hs1 : SortedMap.Sorted ({ t with commitRootId := n, prunedBlockIds := L } : BlockTree).idToBlock :=
    h.sorted
  have hlook := getLinkableBlock_removeOldestPruned k _ hs1
  -- every queued block lies off the subtree of `n`
  have hoff : ∀ x ∈ L, ¬ t.Descendant n x := by
    intro x hx hnx
    rw [← hL] at hx
    rcases List.mem_append.mp hx with hx | hx
    · exact h.pruned_off_tree x hx (TreeWalk.Desc.trans hn hnx)
    · exact ((hmem x).mp hx).2 hnx
  have hLnodup : L.Nodup := by
    rw [← hL, List.nodup_append]
    refine ⟨h.pruned_nodup, hnodup, ?_⟩
    intro a ha b hb hab
    exact h.pruned_off_tree a ha (hab ▸ ((hmem b).mp hb).1)
  have hagree : ∀ x, t.Descendant n x →
      (removeOldestPruned k { t with commitRootId := n, prunedBlockIds := L }).getLinkableBlock x =
        t.getLinkableBlock x := by
    intro x hx
    rw [hlook, if_neg (fun hxk => hoff x (List.mem_of_mem_take hxk) hx)]
    rfl
  have hdesc : ∀ x, (removeOldestPruned k
      { t with commitRootId := n, prunedBlockIds := L }).Descendant n x ↔ t.Descendant n x :=
    fun x => TreeWalk.desc_congr hagree
  refine ⟨⟨?_, ?_, ?_, ?_, ?_, ?_⟩, hdesc⟩
  · exact sorted_removeOldestPruned k _ hs1
  · rw [removeOldestPruned_commitRootId]
    exact (h.tree.sub hn).congr hagree
  · rw [removeOldestPruned_prunedBlockIds]
    exact hLnodup.sublist (List.drop_sublist k L)
  · intro x hx
    rw [removeOldestPruned_prunedBlockIds] at hx
    have hxk : x ∉ L.take k := fun hxk => List.disjoint_take_drop hLnodup le_rfl hxk hx
    rw [hlook, if_neg hxk]
    have hxL : x ∈ t.prunedBlockIds ++ blocks := hL ▸ List.mem_of_mem_drop hx
    rcases List.mem_append.mp hxL with hx | hx
    · exact h.pruned_stored x hx
    · obtain ⟨w, hw, -⟩ := h.tree.stored x ((hmem x).mp hx).1
      show (t.getLinkableBlock x).isSome
      rw [hw]
      rfl
  · intro x hx
    rw [removeOldestPruned_prunedBlockIds] at hx
    rw [removeOldestPruned_commitRootId]
    exact fun hreach => hoff x (List.mem_of_mem_drop hx) ((hdesc x).mp hreach)
  · rw [removeOldestPruned_prunedBlockIds, removeOldestPruned_maxPrunedBlocksInMem, List.length_drop]
    show L.length - k ≤ t.maxPrunedBlocksInMem
    omega

/-! ## Reachable trees -/

/-- **Every reachable tree keeps the invariant.** -/
theorem Reachable.invariant (h : Reachable t) : Invariant t := by
  induction h with
  | new _ _ _ _ _ _ hnew => exact invariant_new hnew
  | insertBlock _ hins ih => exact ih.insertBlock hins
  | insertQuorumCert _ hqc ih => exact ih.insertQuorumCert hqc
  | commit _ hn hfind ih => exact (ih.commit hn hfind).1
  | updateOrderedRootId _ hup ih => exact ih.updateOrderedRootId hup
  | replaceTimeoutCert _ _ ih => exact ih.of_frame rfl rfl rfl rfl
  | updateHighestLedgerInfo li _ ih => exact ih.updateHighestLedgerInfo li

/-- A run of inserts that all return leaves a reachable tree. -/
theorem Reachable.insertBlocks (h : Reachable t) (blocks : List ExecutedBlock)
    (hrun : blocks.foldlM (fun t b => Prod.fst <$> t.insertBlock b) t = .ok t') : Reachable t' := by
  induction blocks generalizing t with
  | nil =>
    cases hrun
    exact h
  | cons b bs ih =>
    rw [List.foldlM_cons, Outcome.bind_eq_ok] at hrun
    obtain ⟨t₁, h₁, hrest⟩ := hrun
    cases hb : t.insertBlock b with
    | ok r =>
      rw [hb] at h₁
      have hr : Outcome.ok r.1 = (Outcome.ok t₁ : Outcome String BlockTree) := h₁
      cases hr
      exact ih (Reachable.insertBlock h hb) hrest
    | err e =>
      rw [hb] at h₁
      cases h₁
    | panic =>
      rw [hb] at h₁
      cases h₁

/-- A block of round `round` with id `id`, whose quorum certificate certifies `parent`. -/
def exampleBlock (id parent round : ℕ) : ExecutedBlock :=
  { block := { id := ⟨id⟩,
               blockData := { epoch := 1, round := round, timestampUsecs := 0,
                              quorumCert := { voteData := { proposed := { (default : BlockInfo) with
                                                                            id := ⟨parent⟩ },
                                                            parent := default },
                                              signedLedgerInfo := default },
                              blockType := .nilBlock },
               signature := none },
    stateComputeResult := ⟨0⟩ }

/-- The tree of `B₀` alone, with room for two pruned ids. -/
def pruneExampleRoot : BlockTree :=
  { idToBlock := [(⟨0⟩, LinkableBlock.new (exampleBlock 0 0 0))],
    orderedRootId := ⟨0⟩, commitRootId := ⟨0⟩, highestCertifiedBlockId := ⟨0⟩,
    highestQuorumCert := default, highestTimeoutCert := none, highestOrderedCert := default,
    highestLedgerInfo := default, idToQuorumCert := [(⟨0⟩, default)], prunedBlockIds := [],
    maxPrunedBlocksInMem := 2 }

def pruneExampleBlocks : List ExecutedBlock :=
  [exampleBlock 1 0 1, exampleBlock 2 1 2, exampleBlock 3 1 3, exampleBlock 4 3 4]

/-- The tree after inserting `B₁`, `B₂`, `B₃`, `B₄` under `B₀`. -/
def pruneExample : BlockTree :=
  match pruneExampleBlocks.foldlM (fun t b => Prod.fst <$> t.insertBlock b) pruneExampleRoot with
  | .ok t => t
  | _ => pruneExampleRoot

example : pruneExample.findBlocksToPrune ⟨3⟩ = some [⟨0⟩, ⟨1⟩, ⟨2⟩] := by decide

example :
    ((pruneExample.updateCommitIdAndProcessPrunedBlocks ⟨3⟩ [⟨0⟩, ⟨1⟩, ⟨2⟩]).idToBlock.map
      Prod.fst, (pruneExample.updateCommitIdAndProcessPrunedBlocks ⟨3⟩ [⟨0⟩, ⟨1⟩, ⟨2⟩]).prunedBlockIds) =
      ([⟨1⟩, ⟨2⟩, ⟨3⟩, ⟨4⟩], [⟨1⟩, ⟨2⟩]) := by decide

end BlockTree

end Dijets.Consensus
