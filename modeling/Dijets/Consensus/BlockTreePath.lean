import Mathlib.Data.List.Chain
import Dijets.Consensus.BlockTree
import Dijets.Lib.Loop

/-!
# The path from a root to a block

`path_from_root_to_block(b, r, rr)` follows parent links from `b`, collecting the
blocks it passes, until it stands at a stored block of round at most `rr`. It answers
`None` when a block on the way is not stored or the block it stops at is not `r`, and
otherwise the blocks it collected, oldest first.

The loop's termination is not a property of the tree type: a block whose parent link
leads back to itself, or any cycle of links above `rr`, keeps it going for ever. It
rests on what `Block::verify_well_formed` checks of a block before it is inserted: its
parent's round is smaller (`ParentRoundsDecrease`). With that the loop stands at each
stored block at most once (`pathLoop_isSome`), and its answer is the chain of parent
links from `b` down to `r` (`ParentPath`): every block of it stored, the rounds rising
from `r`, each block's parent the block before it.

## Main definitions

* `BlockTree.pathFromRootToBlock` — `path_from_root_to_block`.
* `BlockTree.ParentPath` — the chain of parent links from a block down to a root.
* `BlockTree.StoredUnderId`, `BlockTree.ParentRoundsDecrease` — what the trees of the
  source keep, and what the blocks admitted by `verify_well_formed` have.
-/

set_option autoImplicit false

namespace Dijets.Consensus

namespace BlockTree

open Dijets.Lib

/-! ## The loop -/

/-- One pass of the loop of `path_from_root_to_block`, at `curBlockId` with the blocks
passed so far in `res`: leave at a stored block of round at most `rootRound`, leave with
`None` at a block that is not stored, and go on to the parent otherwise. -/
def pathStep (t : BlockTree) (rootRound : ℕ) :
    HashValue × List ExecutedBlock →
      Loop.Step (HashValue × List ExecutedBlock) (Option (HashValue × List ExecutedBlock))
  | (curBlockId, res) =>
    match t.getBlock curBlockId with
    | some block =>
      if block.round ≤ rootRound then .done (some (curBlockId, res))
      else .next (block.parentId, res ++ [block])
    | none => .done none

/-- The loop of `path_from_root_to_block`. The source's loop runs until it leaves; here it
gets one pass per stored block and one more, which is enough when parents have smaller
rounds (`pathLoop_isSome`). `none` is the fuel running out. -/
def pathLoop (t : BlockTree) (blockId : HashValue) (rootRound : ℕ) :
    Option (Option (HashValue × List ExecutedBlock)) :=
  Loop.iterate (t.pathStep rootRound) (t.idToBlock.length + 1) (blockId, [])

/-- `path_from_root_to_block`. -/
def pathFromRootToBlock (t : BlockTree) (blockId rootId : HashValue) (rootRound : ℕ) :
    Option (List ExecutedBlock) :=
  match t.pathLoop blockId rootRound with
  | some (some (curBlockId, res)) => if curBlockId ≠ rootId then none else some res.reverse
  | _ => none

variable {t : BlockTree} {rootRound : ℕ} {c : HashValue} {res : List ExecutedBlock}
  {block : ExecutedBlock}

theorem pathStep_of_le (hb : t.getBlock c = some block) (hr : block.round ≤ rootRound) :
    t.pathStep rootRound (c, res) = .done (some (c, res)) := by
  simp [pathStep, hb, hr]

theorem pathStep_of_lt (hb : t.getBlock c = some block) (hr : rootRound < block.round) :
    t.pathStep rootRound (c, res) = .next (block.parentId, res ++ [block]) := by
  simp [pathStep, hb, Nat.not_le.mpr hr]

/-- **What a pass that goes round does**: it stands at a stored block above the root round
and goes to its parent. -/
theorem pathStep_eq_next {s' : HashValue × List ExecutedBlock}
    (h : t.pathStep rootRound (c, res) = .next s') :
    ∃ block, t.getBlock c = some block ∧ rootRound < block.round ∧
      s' = (block.parentId, res ++ [block]) := by
  cases hb : t.getBlock c with
  | none => simp [pathStep, hb] at h
  | some block =>
    by_cases hr : block.round ≤ rootRound
    · simp [pathStep, hb, hr] at h
    · simp only [pathStep, hb, hr, if_false, Loop.Step.next.injEq] at h
      exact ⟨block, rfl, Nat.lt_of_not_le hr, h.symm⟩

/-- **What a pass that leaves with a block does**: it stands at a stored block of round at
most the root round. -/
theorem pathStep_eq_done {v : HashValue × List ExecutedBlock}
    (h : t.pathStep rootRound (c, res) = .done (some v)) :
    v = (c, res) ∧ ∃ block, t.getBlock c = some block ∧ block.round ≤ rootRound := by
  cases hb : t.getBlock c with
  | none => simp [pathStep, hb] at h
  | some block =>
    by_cases hr : block.round ≤ rootRound
    · simp only [pathStep, hb, hr, if_true, Loop.Step.done.injEq, Option.some.injEq] at h
      exact ⟨h.symm, block, rfl, hr⟩
    · simp [pathStep, hb, hr] at h

/-! ## The chain of parent links -/

/-- `ParentPath t rootRound r b p`: following parent links from `b`, every block on the way
is stored and `r` is the first with round at most `rootRound`; `p` lists the blocks after
`r` up to the block of `b`, oldest first. -/
inductive ParentPath (t : BlockTree) (rootRound : ℕ) (r : HashValue) :
    HashValue → List ExecutedBlock → Prop
  | root {rootBlock : ExecutedBlock} :
      t.getBlock r = some rootBlock → rootBlock.round ≤ rootRound → ParentPath t rootRound r r []
  | tail {b : HashValue} {block : ExecutedBlock} {p : List ExecutedBlock} :
      t.getBlock b = some block → rootRound < block.round →
      ParentPath t rootRound r block.parentId p → ParentPath t rootRound r b (p ++ [block])

/-- Every block is stored under its own id, as every tree of the source is
(`Reachable.storedUnderId`). -/
def StoredUnderId (t : BlockTree) : Prop :=
  ∀ k block, t.getBlock k = some block → block.id = k

/-- Every stored block's parent, if it is stored, has a smaller round: what
`Block::verify_well_formed` checks of each block before it is inserted. -/
def ParentRoundsDecrease (t : BlockTree) : Prop :=
  ∀ k block, t.getBlock k = some block →
    ∀ parent, t.getBlock block.parentId = some parent → parent.round < block.round

variable {r b : HashValue} {p : List ExecutedBlock}

namespace ParentPath

/-- The root a path ends in is stored, with round at most the root round. -/
theorem root_stored (h : t.ParentPath rootRound r b p) :
    ∃ rootBlock, t.getBlock r = some rootBlock ∧ rootBlock.round ≤ rootRound := by
  induction h with
  | root hr hround => exact ⟨_, hr, hround⟩
  | tail _ _ _ ih => exact ih

/-- The block a path starts from is stored. -/
theorem stored (h : t.ParentPath rootRound r b p) : ∃ bb, t.getBlock b = some bb := by
  cases h with
  | root hr _ => exact ⟨_, hr⟩
  | tail hb _ _ => exact ⟨_, hb⟩

/-- Every block of a path is stored above the root round. -/
theorem mem (hid : t.StoredUnderId) (h : t.ParentPath rootRound r b p) :
    ∀ x ∈ p, t.getBlock x.id = some x ∧ rootRound < x.round := by
  induction h with
  | root _ _ => simp
  | @tail b block p hb hr _ ih =>
    intro x hx
    rcases List.mem_append.mp hx with hx | hx
    · exact ih x hx
    · rw [List.mem_singleton.mp hx, hid b block hb]
      exact ⟨hb, hr⟩

/-- The last block of a path is the block it starts from. -/
theorem getLast_id (hid : t.StoredUnderId) (h : t.ParentPath rootRound r b p) (hp : p ≠ []) :
    (p.getLast hp).id = b := by
  cases h with
  | root _ _ => exact absurd rfl hp
  | tail hb _ _ =>
    rw [List.getLast_append_singleton]
    exact hid _ _ hb

/-- A path is empty exactly when it starts at its root. -/
theorem eq_nil_iff (h : t.ParentPath rootRound r b p) : p = [] ↔ b = r := by
  cases h with
  | root _ _ => simp
  | @tail _ block _ hb hr hp =>
    -- the root has round at most the root round, the start does not
    obtain ⟨rootBlock, hroot, hround⟩ := hp.root_stored
    refine ⟨fun hnil => by simp at hnil, fun hbr => ?_⟩
    subst hbr
    rw [hroot, Option.some.injEq] at hb
    subst hb
    omega

/-- The rounds of a path are at most the round of the block it starts from. -/
theorem round_le (hdec : t.ParentRoundsDecrease) (h : t.ParentPath rootRound r b p)
    {bb : ExecutedBlock} (hbb : t.getBlock b = some bb) : ∀ x ∈ p, x.round ≤ bb.round := by
  induction h generalizing bb with
  | root _ _ => simp
  | @tail b block p hb _ hp ih =>
    rw [hb, Option.some.injEq] at hbb
    subst hbb
    obtain ⟨parent, hparent⟩ := hp.stored
    have hlt := hdec b block hb parent hparent
    intro x hx
    rcases List.mem_append.mp hx with hx | hx
    · exact Nat.le_of_lt (Nat.lt_of_le_of_lt (ih hparent x hx) hlt)
    · rw [List.mem_singleton.mp hx]

/-- The rounds of a path rise strictly from the root. -/
theorem pairwise_round (hdec : t.ParentRoundsDecrease) (h : t.ParentPath rootRound r b p) :
    p.Pairwise fun x y => x.round < y.round := by
  induction h with
  | root _ _ => exact List.Pairwise.nil
  | @tail b block p hb _ hp ih =>
    obtain ⟨parent, hparent⟩ := hp.stored
    have hlt := hdec b block hb parent hparent
    refine List.pairwise_append.mpr ⟨ih, List.pairwise_singleton _ _, ?_⟩
    intro x hx y hy
    rw [List.mem_singleton.mp hy]
    exact Nat.lt_of_le_of_lt (hp.round_le hdec hparent x hx) hlt

/-- Each block of a path is a child of the block before it. -/
theorem isChain (hid : t.StoredUnderId) (h : t.ParentPath rootRound r b p) :
    p.IsChain fun x y => y.parentId = x.id := by
  induction h with
  | root _ _ => exact List.IsChain.nil
  | @tail b block p _ _ hp ih =>
    refine ih.append (List.isChain_singleton _) ?_
    intro x hx y hy
    rw [List.head?_singleton, Option.mem_some_iff] at hy
    subst hy
    -- the last block before is the parent
    obtain ⟨hne, rfl⟩ := List.mem_getLast?_eq_getLast hx
    exact (hp.getLast_id hid hne).symm

/-- Each block of a path after the first is a child of the block before it. -/
theorem parentId_succ (hid : t.StoredUnderId) (h : t.ParentPath rootRound r b p) (i : ℕ)
    (hi : i + 1 < p.length) : p[i + 1].parentId = p[i].id :=
  List.isChain_iff_getElem.mp (h.isChain hid) i hi

/-- The first block of a path is a child of the root. -/
theorem parentId_zero (h : t.ParentPath rootRound r b p) (h0 : 0 < p.length) :
    p[0].parentId = r := by
  induction h with
  | root _ _ => simp at h0
  | @tail b block p _ _ hp ih =>
    rcases p with _ | ⟨x, p⟩
    · -- the block's parent is the root itself
      simpa using (hp.eq_nil_iff.mp rfl)
    · have h0 : 0 < (x :: p).length := by simp
      simpa using ih h0

end ParentPath

/-! ## The loop follows the chain -/

/-- From the start of a chain, the loop leaves at its root having passed its blocks. -/
theorem iterate_of_parentPath (h : t.ParentPath rootRound r b p) (res : List ExecutedBlock) :
    ∃ n, Loop.iterate (t.pathStep rootRound) n (b, res) = some (some (r, res ++ p.reverse)) := by
  induction h generalizing res with
  | root hr hround =>
    exact ⟨1, by simpa using Loop.iterate_succ_of_done (pathStep_of_le hr hround)⟩
  | @tail b block p hb hround _ ih =>
    obtain ⟨n, hn⟩ := ih (res ++ [block])
    refine ⟨n + 1, ?_⟩
    rw [Loop.iterate_succ_of_next (pathStep_of_lt hb hround), hn]
    simp

/-- When the loop leaves at a block, the blocks it passed are the chain from the start down
to that block. -/
theorem parentPath_of_iterate {n : ℕ} {c : HashValue} {res : List ExecutedBlock}
    (h : Loop.iterate (t.pathStep rootRound) n (b, []) = some (some (c, res))) :
    t.ParentPath rootRound c b res.reverse := by
  -- the invariant: a chain from where the loop stands extends, by what it passed, to one from
  -- the start
  let I : HashValue × List ExecutedBlock → Prop := fun s =>
    ∀ r q, t.ParentPath rootRound r s.1 q → t.ParentPath rootRound r b (q ++ s.2.reverse)
  let Q : Option (HashValue × List ExecutedBlock) → Prop := fun v =>
    ∀ c res, v = some (c, res) → t.ParentPath rootRound c b res.reverse
  have hcont : ∀ s s', I s → t.pathStep rootRound s = .next s' → I s' := by
    rintro ⟨cur, res⟩ s' hI hs r q hq
    obtain ⟨block, hb, hround, rfl⟩ := pathStep_eq_next hs
    have := hI r (q ++ [block]) (ParentPath.tail hb hround hq)
    simpa using this
  have hdone : ∀ s v, I s → t.pathStep rootRound s = .done v → Q v := by
    rintro ⟨cur, res⟩ v hI hs c' res' rfl
    obtain ⟨hv, block, hb, hround⟩ := pathStep_eq_done hs
    cases hv
    simpa using hI cur [] (ParentPath.root hb hround)
  exact Loop.iterate_induction I Q hcont hdone n (b, []) (fun r q hq => by simpa using hq) h c res rfl

/-- **The loop leaves** when parents have smaller rounds: it stands at each stored block at
most once. -/
theorem pathLoop_isSome (hdec : t.ParentRoundsDecrease) (blockId : HashValue) :
    (t.pathLoop blockId rootRound).isSome := by
  -- the loop stands at the entry of its current id, ranked by round
  refine Loop.isSome_iterate_of_rank t.idToBlock
    (fun s => (SortedMap.get? s.1 t.idToBlock).map fun lb => (s.1, lb))
    (fun e => e.2.executedBlock.round) ?_ ?_ _
  · intro s e he
    obtain ⟨lb, hlb, rfl⟩ := Option.map_eq_some_iff.mp he
    exact SortedMap.mem_of_get? hlb
  · rintro ⟨cur, res⟩ s' hs
    obtain ⟨block, hb, -, rfl⟩ := pathStep_eq_next hs
    obtain ⟨lb, hlb, rfl⟩ := Option.map_eq_some_iff.mp hb
    refine ⟨(cur, lb), by simp only [Option.map_eq_some_iff]; exact ⟨lb, hlb, rfl⟩, ?_⟩
    intro e he
    obtain ⟨plb, hplb, rfl⟩ := Option.map_eq_some_iff.mp he
    have hparent : t.getBlock lb.executedBlock.parentId = some plb.executedBlock := by
      simp only [getBlock, getLinkableBlock, hplb, Option.map_some]
    exact hdec cur lb.executedBlock hb plb.executedBlock hparent

/-- **`path_from_root_to_block` answers the chain of parent links** from the block down to
the root, when parents have smaller rounds. -/
theorem pathFromRootToBlock_eq_some_iff (hdec : t.ParentRoundsDecrease)
    (blockId rootId : HashValue) (p : List ExecutedBlock) :
    t.pathFromRootToBlock blockId rootId rootRound = some p ↔
      t.ParentPath rootRound rootId blockId p := by
  constructor
  · intro h
    unfold pathFromRootToBlock at h
    split at h
    · rename_i c res hloop
      split_ifs at h with hc
      rw [Option.some.injEq] at h
      subst h
      rw [not_not] at hc
      subst hc
      exact parentPath_of_iterate hloop
    · cases h
  · intro h
    obtain ⟨n, hn⟩ := iterate_of_parentPath h []
    have hsome : (t.pathLoop blockId rootRound).isSome := pathLoop_isSome hdec blockId
    obtain ⟨v, hv⟩ := Option.isSome_iff_exists.mp hsome
    have hveq := Loop.iterate_unique hv hn
    subst hveq
    simp [pathFromRootToBlock, hv]

/-! ## The trees of the source -/

/-- A tree that stores nothing `t` does not store the same way keeps `StoredUnderId`. -/
theorem StoredUnderId.of_sub {t t' : BlockTree} (h : t.StoredUnderId)
    (hsub : ∀ k lb, t'.getLinkableBlock k = some lb → t.getLinkableBlock k = some lb) :
    t'.StoredUnderId := by
  intro k block hk
  obtain ⟨lb, hlb, rfl⟩ := Option.map_eq_some_iff.mp hk
  exact h k lb.executedBlock (by simp [getBlock, hsub k lb hlb])

theorem StoredUnderId.of_frame {t t' : BlockTree} (h : t.StoredUnderId)
    (hb : t'.idToBlock = t.idToBlock) : t'.StoredUnderId :=
  h.of_sub fun k lb hk => by rwa [getLinkableBlock_congr hb] at hk

/-- `insert_block` stores the new block under its id and gives its parent a child. -/
theorem StoredUnderId.insertBlock {t t' : BlockTree} (h : t.StoredUnderId)
    {block b : ExecutedBlock} (hins : t.insertBlock block = .ok (t', b)) : t'.StoredUnderId := by
  rcases insertBlock_eq_ok hins with rfl | ⟨parentBlock, -, hparent, -, rfl⟩
  · exact h
  · intro k x hk
    simp only [getBlock, getLinkableBlock] at hk
    by_cases hkb : k = block.id
    · subst hkb
      rw [SortedMap.get?_insert_self, Option.map_some, Option.some.injEq] at hk
      rw [← hk]
      rfl
    · rw [SortedMap.get?_insert_ne hkb] at hk
      by_cases hkp : k = block.parentId
      · -- the parent keeps its block, stored under the parent's id
        subst hkp
        rw [SortedMap.get?_insert_self, Option.map_some, Option.some.injEq] at hk
        rw [← hk]
        exact h _ parentBlock.executedBlock (by simp [getBlock, hparent])
      · rw [SortedMap.get?_insert_ne hkp] at hk
        exact h k x hk

theorem updateHighestLedgerInfo_idToBlock (t : BlockTree) (li : LedgerInfoWithSignatures) :
    (t.updateHighestLedgerInfo li).idToBlock = t.idToBlock := by
  unfold BlockTree.updateHighestLedgerInfo
  split_ifs <;> rfl

/-- **Every tree of the source stores each block under its own id.** -/
theorem Reachable.storedUnderId {t : BlockTree} (h : Reachable t) : t.StoredUnderId := by
  induction h with
  | new root _ _ _ _ _ hnew =>
    unfold BlockTree.new at hnew
    split_ifs at hnew
    cases hnew
    intro k x hk
    simp only [getBlock, getLinkableBlock, SortedMap.get?] at hk
    split_ifs at hk with hkr
    · simp only [Option.map_some, Option.some.injEq] at hk
      rw [hkr, ← hk]
      rfl
    · cases hk
  | insertBlock _ hins ih => exact ih.insertBlock hins
  | insertQuorumCert _ hqc ih => exact ih.of_frame (insertQuorumCert_eq_ok hqc).1
  | @commit t n blocks hr _ _ ih =>
    -- the commit only removes blocks
    have hs := hr.invariant.sorted
    refine ih.of_sub fun k lb hk => ?_
    rw [updateCommitIdAndProcessPrunedBlocks_eq, getLinkableBlock_removeOldestPruned _
      { t with commitRootId := n, prunedBlockIds := t.prunedBlockIds ++ blocks } hs] at hk
    split_ifs at hk
    exact hk
  | updateOrderedRootId _ hup ih =>
    unfold BlockTree.updateOrderedRootId at hup
    split_ifs at hup
    cases hup
    exact ih.of_frame rfl
  | replaceTimeoutCert _ _ ih => exact ih.of_frame rfl
  | updateHighestLedgerInfo li _ ih => exact ih.of_frame (updateHighestLedgerInfo_idToBlock _ li)

/-- `ParentRoundsDecrease` read off the entries of the store. -/
theorem parentRoundsDecrease_of_entries {t : BlockTree}
    (h : ∀ e ∈ t.idToBlock, ∀ e' ∈ t.idToBlock, e'.1 = e.2.executedBlock.parentId →
      e'.2.executedBlock.round < e.2.executedBlock.round) :
    t.ParentRoundsDecrease := by
  intro k block hk parent hparent
  obtain ⟨lb, hlb, rfl⟩ := Option.map_eq_some_iff.mp hk
  obtain ⟨plb, hplb, rfl⟩ := Option.map_eq_some_iff.mp hparent
  exact h _ (SortedMap.mem_of_get? hlb) _ (SortedMap.mem_of_get? hplb) rfl

/-- **Path from root is the ancestor chain.** In a tree that stores every block under its
id and whose stored blocks' parents have smaller rounds, the loop of
`path_from_root_to_block` leaves; it answers `Some p` exactly when following parent links
from the block reaches the root as the first stored block of round at most the root round,
every block on the way stored; and then `p` lists those blocks after the root up to the
block, each stored above the root round, with rounds rising, the first a child of the root
and each a child of the one before, empty exactly when the block is the root. -/
theorem path_from_root_is_ancestor_chain {t : BlockTree} (hid : t.StoredUnderId)
    (hdec : t.ParentRoundsDecrease) (blockId rootId : HashValue) (rootRound : ℕ) :
    (t.pathLoop blockId rootRound).isSome ∧
    (∀ p, t.pathFromRootToBlock blockId rootId rootRound = some p ↔
      t.ParentPath rootRound rootId blockId p) ∧
    ∀ p, t.pathFromRootToBlock blockId rootId rootRound = some p →
      (∀ x ∈ p, t.getBlock x.id = some x ∧ rootRound < x.round) ∧
      p.Pairwise (fun x y => x.round < y.round) ∧
      (∀ h : 0 < p.length, p[0].parentId = rootId) ∧
      (∀ i (h : i + 1 < p.length), p[i + 1].parentId = p[i].id) ∧
      (∀ h : p ≠ [], (p.getLast h).id = blockId) ∧
      (p = [] ↔ blockId = rootId) := by
  refine ⟨pathLoop_isSome hdec blockId, pathFromRootToBlock_eq_some_iff hdec blockId rootId, ?_⟩
  intro p hp
  have hpath := (pathFromRootToBlock_eq_some_iff hdec blockId rootId p).mp hp
  exact ⟨hpath.mem hid, hpath.pairwise_round hdec, hpath.parentId_zero,
    hpath.parentId_succ hid, hpath.getLast_id hid, hpath.eq_nil_iff⟩

/-- The tree of the comment on `find_blocks_to_prune`, above a root whose parent is not
stored: `B₀ → B₁ → B₂` and `B₁ → B₃ → B₄`, with rounds `0, 1, 2, 3, 4`. -/
def pathExampleRoot : BlockTree :=
  { idToBlock := [(⟨0⟩, LinkableBlock.new (exampleBlock 0 9 0))],
    orderedRootId := ⟨0⟩, commitRootId := ⟨0⟩, highestCertifiedBlockId := ⟨0⟩,
    highestQuorumCert := default, highestTimeoutCert := none, highestOrderedCert := default,
    highestLedgerInfo := default, idToQuorumCert := [(⟨0⟩, default)], prunedBlockIds := [],
    maxPrunedBlocksInMem := 2 }

def pathExample : BlockTree :=
  match pruneExampleBlocks.foldlM (fun t b => Prod.fst <$> t.insertBlock b) pathExampleRoot with
  | .ok t => t
  | _ => pathExampleRoot

theorem path_from_root_is_ancestor_chain_pathExample :
    (pathExample.StoredUnderId ∧ pathExample.ParentRoundsDecrease) ∧
    (pathExample.pathLoop ⟨4⟩ 1).isSome ∧
    (∀ p, pathExample.pathFromRootToBlock ⟨4⟩ ⟨1⟩ 1 = some p ↔
      pathExample.ParentPath 1 ⟨1⟩ ⟨4⟩ p) ∧
    ∀ p, pathExample.pathFromRootToBlock ⟨4⟩ ⟨1⟩ 1 = some p →
      (∀ x ∈ p, pathExample.getBlock x.id = some x ∧ 1 < x.round) ∧
      p.Pairwise (fun x y => x.round < y.round) ∧
      (∀ h : 0 < p.length, p[0].parentId = ⟨1⟩) ∧
      (∀ i (h : i + 1 < p.length), p[i + 1].parentId = p[i].id) ∧
      (∀ h : p ≠ [], (p.getLast h).id = ⟨4⟩) ∧
      (p = [] ↔ (⟨4⟩ : HashValue) = ⟨1⟩) := by
  have hnew : BlockTree.new (exampleBlock 0 9 0) default default default 2 none =
      some pathExampleRoot := by decide
  have hreach : Reachable pathExample :=
    (Reachable.new _ _ _ _ _ _ hnew).insertBlocks pruneExampleBlocks (by decide)
  have hdec : pathExample.ParentRoundsDecrease := parentRoundsDecrease_of_entries (by decide)
  exact ⟨⟨hreach.storedUnderId, hdec⟩,
    path_from_root_is_ancestor_chain hreach.storedUnderId hdec ⟨4⟩ ⟨1⟩ 1⟩

example : pathExample.pathFromRootToBlock ⟨4⟩ ⟨1⟩ 1 =
    some [exampleBlock 3 1 3, exampleBlock 4 3 4] := by decide

example : pathExample.pathFromRootToBlock ⟨4⟩ ⟨2⟩ 2 = none := by decide

end BlockTree

end Dijets.Consensus
