import Dijets.Consensus.BlockTreePath
import Dijets.Lib.Run

/-!
# The highest certificates of a block tree

Four fields of `BlockTree` are running maxima, kept by strict comparisons in
`insert_quorum_cert` and `update_highest_ledger_info`: the highest certified block and its
certificate, the certificate with the highest commit round, and the ledger info with the
highest commit round. A fifth, `id_to_quorum_cert`, keeps for each block the certificate
it first received.

Over every run of block inserts, certificate inserts and ledger-info updates from
`BlockTree::new`, each maximum is the maximum over the history (`CertInv`): the highest
certified block is the root or a block whose certificate was taken, of the largest round
among them; the highest ordered certificate is the root's or a taken one, of the largest
commit round; and each block's entry in `id_to_quorum_cert` is the first certificate for it.
A certificate whose block is not stored is refused with `Block .. not found` and changes
nothing.

`BlockTree::new` does not check that the root's certificate certifies the root; the highest
certificate certifies the highest certified block when it does, as `BlockStore::build`
passes it from `find_root` (`highestQuorumCert_root_mismatch` is a tree where it does not).

## Main definitions

* `BlockTree.CertCall`, `BlockTree.certStep` — the calls, one at a time.
* `BlockTree.CertInv` — the maxima over the history of a run.
-/

set_option autoImplicit false

namespace Dijets.Consensus

namespace BlockTree

open Dijets.Lib

variable {t t' : BlockTree}

/-! ## What the calls do -/

/-- `insert_block` leaves every stored block stored as it was. -/
theorem getBlock_insertBlock {block b x : ExecutedBlock} {k : HashValue}
    (hins : t.insertBlock block = .ok (t', b)) (hk : t.getBlock k = some x) :
    t'.getBlock k = some x := by
  rcases insertBlock_eq_ok hins with rfl | ⟨parentBlock, hnew, hparent, -, rfl⟩
  · exact hk
  · have hkb : k ≠ block.id := by
      rintro rfl
      simp [getBlock, hnew] at hk
    simp only [getBlock, getLinkableBlock] at hk ⊢
    rw [SortedMap.get?_insert_ne hkb]
    by_cases hkp : k = block.parentId
    · -- the parent keeps its block and gains a child
      subst hkp
      rw [SortedMap.get?_insert_self]
      simp only [getLinkableBlock] at hparent
      rw [hparent] at hk
      exact hk
    · rw [SortedMap.get?_insert_ne hkp]
      exact hk

/-- **What `insert_quorum_cert` does when it returns**: the certified block and the highest
certified block are stored; the certificate becomes the highest one when its block's round
is higher, and the highest ordered one when its commit round is higher; and it is the entry
of its block when the block had none. -/
theorem insertQuorumCert_eq_ok_fields {qc : QuorumCert} (h : t.insertQuorumCert qc = .ok t') :
    ∃ block hb, t.getBlock qc.certifiedBlock.id = some block ∧ t.highestCertifiedBlock = some hb ∧
      t'.idToBlock = t.idToBlock ∧
      t'.highestCertifiedBlockId =
        (if hb.round < block.round then block.id else t.highestCertifiedBlockId) ∧
      t'.highestQuorumCert = (if hb.round < block.round then qc else t.highestQuorumCert) ∧
      t'.idToQuorumCert = SortedMap.orInsert qc.certifiedBlock.id qc t.idToQuorumCert ∧
      t'.highestOrderedCert =
        (if t.highestOrderedCert.commitInfo.round < qc.commitInfo.round then qc
          else t.highestOrderedCert) ∧
      t'.highestLedgerInfo = t.highestLedgerInfo := by
  unfold insertQuorumCert at h
  dsimp only at h
  split at h
  · cases h
  · rename_i block hblock
    split at h
    · cases h
    · rename_i hb hhb
      cases h
      refine ⟨block, hb, hblock, hhb, ?_⟩
      by_cases h1 : hb.round < block.round <;>
        by_cases h2 : t.highestOrderedCert.commitInfo.round < qc.commitInfo.round <;>
        simp [h1, h2]

/-- `insert_quorum_cert` fails, rather than panics, exactly when the certified block is not
stored, once the highest certified block is. -/
theorem insertQuorumCert_eq_err_iff {qc : QuorumCert} {hb : ExecutedBlock}
    (hhb : t.highestCertifiedBlock = some hb) :
    (∃ e, t.insertQuorumCert qc = .err e) ↔ t.getBlock qc.certifiedBlock.id = none := by
  unfold insertQuorumCert
  dsimp only
  split
  · simp_all
  · rename_i block hblock
    simp [hhb, hblock]

/-! ## Runs -/

/-- The calls that change a tree's certificates, and the inserts of the blocks they
certify. -/
inductive CertCall where
  | insertBlock (block : ExecutedBlock)
  | insertQuorumCert (qc : QuorumCert)
  | updateHighestLedgerInfo (li : LedgerInfoWithSignatures)
deriving DecidableEq, Repr

/-- One call, answering the certificate when `insert_quorum_cert` took it. A call that
returns an error leaves the tree as it was: the source's methods fail before their first
write. A panic stops the replica; the tree is kept as it was, which only adds runs. -/
def certStep (t : BlockTree) : CertCall → BlockTree × Option QuorumCert
  | .insertBlock block =>
    match t.insertBlock block with
    | .ok (t', _) => (t', none)
    | _ => (t, none)
  | .insertQuorumCert qc =>
    match t.insertQuorumCert qc with
    | .ok t' => (t', some qc)
    | _ => (t, none)
  | .updateHighestLedgerInfo li => (t.updateHighestLedgerInfo li, none)

/-- The certificates taken so far, oldest first. -/
def inserted (out : List (Option QuorumCert)) : List QuorumCert := out.filterMap id

@[simp] theorem inserted_nil : inserted [] = [] := rfl

@[simp] theorem inserted_append_none (out : List (Option QuorumCert)) :
    inserted (out ++ [none]) = inserted out := by
  simp [inserted]

@[simp] theorem inserted_append_some (out : List (Option QuorumCert)) (qc : QuorumCert) :
    inserted (out ++ [some qc]) = inserted out ++ [qc] := by
  simp [inserted]

section Run

variable (root : ExecutedBlock) (rootQuorumCert rootOrderedCert : QuorumCert)

/-- The highest certified block `hb` of `t` is the root or the block of a taken certificate,
and no block among them has a higher round. -/
structure HighestCertified (t : BlockTree) (ins : List QuorumCert) (hb : ExecutedBlock) :
    Prop where
  stored : t.getBlock t.highestCertifiedBlockId = some hb
  one_of : t.highestCertifiedBlockId = root.id ∨
    ∃ qc ∈ ins, qc.certifiedBlock.id = t.highestCertifiedBlockId
  root_le : root.round ≤ hb.round
  certified_le : ∀ qc ∈ ins, ∃ b, t.getBlock qc.certifiedBlock.id = some b ∧ b.round ≤ hb.round

/-- What a run from `BlockTree::new` keeps, relative to the certificates it took. -/
structure CertInv (t : BlockTree) (out : List (Option QuorumCert)) : Prop where
  storedUnderId : t.StoredUnderId
  root_stored : t.getBlock root.id = some root
  highestCertified : ∃ hb, HighestCertified root t (inserted out) hb
  highestQuorumCert_certifies : t.highestQuorumCert.certifiedBlock.id = t.highestCertifiedBlockId
  highestOrderedCert_one_of :
    t.highestOrderedCert = rootOrderedCert ∨ t.highestOrderedCert ∈ inserted out
  root_ordered_le : rootOrderedCert.commitInfo.round ≤ t.highestOrderedCert.commitInfo.round
  inserted_ordered_le :
    ∀ qc ∈ inserted out, qc.commitInfo.round ≤ t.highestOrderedCert.commitInfo.round
  first_cert : ∀ x, SortedMap.get? x t.idToQuorumCert =
    (rootQuorumCert :: inserted out).find? fun qc => qc.certifiedBlock.id == x

variable {root rootQuorumCert rootOrderedCert}

theorem certInv_new {rootCommitLedgerInfo : LedgerInfoWithSignatures} {maxPrunedBlocksInMem : ℕ}
    {highestTimeoutCert : Option TimeoutCertificate}
    (h : BlockTree.new root rootQuorumCert rootOrderedCert rootCommitLedgerInfo
      maxPrunedBlocksInMem highestTimeoutCert = some t)
    (hroot : rootQuorumCert.certifiedBlock.id = root.id) :
    CertInv root rootQuorumCert rootOrderedCert t [] := by
  have hreach := Reachable.new _ _ _ _ _ _ h
  have hroot_stored : t.getBlock root.id = some root := by
    unfold BlockTree.new at h
    split_ifs at h
    cases h
    simp [getBlock, getLinkableBlock, SortedMap.get?, LinkableBlock.new]
  unfold BlockTree.new at h
  split_ifs at h
  cases h
  refine ⟨hreach.storedUnderId, hroot_stored, ⟨root, hroot_stored, Or.inl rfl, le_rfl, by simp⟩,
    hroot, Or.inl rfl, le_rfl, by simp, ?_⟩
  intro x
  by_cases hx : rootQuorumCert.certifiedBlock.id = x
  · simp [SortedMap.get?, hx]
  · simp [SortedMap.get?, hx, Ne.symm hx]

/-- A call that keeps the stored blocks, the highest certificates and the map of
certificates, and takes no certificate, keeps the invariant. -/
theorem CertInv.of_frame {out : List (Option QuorumCert)}
    (h : CertInv root rootQuorumCert rootOrderedCert t out)
    (hblocks : ∀ k x, t.getBlock k = some x → t'.getBlock k = some x)
    (hid : t'.StoredUnderId)
    (hhcb : t'.highestCertifiedBlockId = t.highestCertifiedBlockId)
    (hhqc : t'.highestQuorumCert = t.highestQuorumCert)
    (hhoc : t'.highestOrderedCert = t.highestOrderedCert)
    (hqcs : t'.idToQuorumCert = t.idToQuorumCert) :
    CertInv root rootQuorumCert rootOrderedCert t' (out ++ [none]) := by
  obtain ⟨hb, hstored, hone, hroot, hle⟩ := h.highestCertified
  refine ⟨hid, hblocks _ _ h.root_stored, ⟨hb, ?_, ?_, hroot, ?_⟩, ?_, ?_, ?_, ?_, ?_⟩
  · rw [hhcb]
    exact hblocks _ _ hstored
  · simpa [hhcb] using hone
  · intro qc hqc
    obtain ⟨b, hb', hbr⟩ := hle qc (by simpa using hqc)
    exact ⟨b, hblocks _ _ hb', hbr⟩
  · rw [hhqc, hhcb]
    exact h.highestQuorumCert_certifies
  · simpa [hhoc] using h.highestOrderedCert_one_of
  · rw [hhoc]
    exact h.root_ordered_le
  · simpa [hhoc] using h.inserted_ordered_le
  · simpa [hqcs] using h.first_cert

/-- The highest certified block after a certificate is taken. -/
theorem HighestCertified.insertQuorumCert {ins : List QuorumCert} {qc : QuorumCert}
    {hb block : ExecutedBlock} (h : HighestCertified root t ins hb) (hid : t.StoredUnderId)
    (hblock : t.getBlock qc.certifiedBlock.id = some block)
    (hblocks : t'.getBlock = t.getBlock)
    (hhcb : t'.highestCertifiedBlockId =
      (if hb.round < block.round then block.id else t.highestCertifiedBlockId)) :
    ∃ hb', HighestCertified root t' (ins ++ [qc]) hb' := by
  have hbid : block.id = qc.certifiedBlock.id := hid _ _ hblock
  by_cases hlt : hb.round < block.round
  · -- the certified block is higher than every block so far
    rw [if_pos hlt, hbid] at hhcb
    refine ⟨block, ⟨by rw [hhcb, hblocks]; exact hblock, Or.inr ⟨qc, by simp, hhcb.symm⟩,
      by have := h.root_le; omega, ?_⟩⟩
    intro qc' hqc'
    rw [hblocks]
    rcases List.mem_append.mp hqc' with hqc' | hqc'
    · obtain ⟨b, hb', hbr⟩ := h.certified_le qc' hqc'
      exact ⟨b, hb', by omega⟩
    · rw [List.mem_singleton.mp hqc']
      exact ⟨block, hblock, le_rfl⟩
  · rw [if_neg hlt] at hhcb
    refine ⟨hb, ⟨by rw [hhcb, hblocks]; exact h.stored, ?_, h.root_le, ?_⟩⟩
    · rcases h.one_of with hone | ⟨qc', hqc', hqcid⟩
      · exact Or.inl (hhcb.trans hone)
      · exact Or.inr ⟨qc', List.mem_append_left _ hqc', hqcid.trans hhcb.symm⟩
    · intro qc' hqc'
      rw [hblocks]
      rcases List.mem_append.mp hqc' with hqc' | hqc'
      · exact h.certified_le qc' hqc'
      · rw [List.mem_singleton.mp hqc']
        exact ⟨block, hblock, by omega⟩

/-- Taking a certificate keeps the invariant. -/
theorem CertInv.insertQuorumCert {out : List (Option QuorumCert)} {qc : QuorumCert}
    (h : CertInv root rootQuorumCert rootOrderedCert t out)
    (hqc : t.insertQuorumCert qc = .ok t') :
    CertInv root rootQuorumCert rootOrderedCert t' (out ++ [some qc]) := by
  obtain ⟨block, hb, hblock, hhb, hidb, hhcb, hhqc, hqcs, hhoc, -⟩ :=
    insertQuorumCert_eq_ok_fields hqc
  have hblocks : t'.getBlock = t.getBlock := by
    funext k
    simp only [getBlock, getLinkableBlock_congr hidb]
  obtain ⟨hb₀, hhc⟩ := h.highestCertified
  -- the block `insert_quorum_cert` compares with is the highest certified one
  have hbeq : hb₀ = hb := by
    rw [highestCertifiedBlock, hhc.stored, Option.some.injEq] at hhb
    exact hhb
  subst hbeq
  have hbid : block.id = qc.certifiedBlock.id := h.storedUnderId _ _ hblock
  refine ⟨fun k x hk => h.storedUnderId k x (by rwa [hblocks] at hk),
    by rw [hblocks]; exact h.root_stored,
    by rw [inserted_append_some]; exact hhc.insertQuorumCert h.storedUnderId hblock hblocks hhcb,
    ?_, ?_, ?_, ?_, ?_⟩
  · rw [hhqc, hhcb]
    split_ifs
    · exact hbid.symm
    · exact h.highestQuorumCert_certifies
  · rw [hhoc, inserted_append_some]
    split_ifs
    · exact Or.inr (List.mem_append_right _ (List.mem_singleton_self qc))
    · rcases h.highestOrderedCert_one_of with h1 | h1
      · exact Or.inl h1
      · exact Or.inr (List.mem_append_left _ h1)
  · have hroot := h.root_ordered_le
    rw [hhoc]
    split_ifs <;> omega
  · rw [hhoc, inserted_append_some]
    intro qc' hqc'
    rcases List.mem_append.mp hqc' with hqc' | hqc'
    · have hle := h.inserted_ordered_le qc' hqc'
      split_ifs <;> omega
    · rw [List.mem_singleton.mp hqc']
      split_ifs <;> omega
  · -- a block's entry is the first certificate for it, the new one only if it had none
    intro x
    rw [hqcs, SortedMap.get?_orInsert, h.first_cert x, inserted_append_some, ← List.cons_append,
      List.find?_append]
    by_cases hx : x = qc.certifiedBlock.id
    · simp [hx]
    · simp [hx, Ne.symm hx]

/-- A call that changes nothing keeps the invariant. -/
theorem CertInv.keep {out : List (Option QuorumCert)}
    (h : CertInv root rootQuorumCert rootOrderedCert t out) :
    CertInv root rootQuorumCert rootOrderedCert t (out ++ [none]) :=
  h.of_frame (fun _ _ hk => hk) h.storedUnderId rfl rfl rfl rfl

/-- `insert_block` changes no certificate. -/
theorem insertBlock_certs {block b : ExecutedBlock} (hins : t.insertBlock block = .ok (t', b)) :
    t'.highestCertifiedBlockId = t.highestCertifiedBlockId ∧
      t'.highestQuorumCert = t.highestQuorumCert ∧ t'.highestOrderedCert = t.highestOrderedCert ∧
      t'.idToQuorumCert = t.idToQuorumCert ∧ t'.highestLedgerInfo = t.highestLedgerInfo := by
  rcases insertBlock_eq_ok hins with rfl | ⟨_, _, _, _, rfl⟩ <;> exact ⟨rfl, rfl, rfl, rfl, rfl⟩

/-- **Every call keeps the invariant.** -/
theorem CertInv.certStep {out : List (Option QuorumCert)}
    (h : CertInv root rootQuorumCert rootOrderedCert t out) (c : CertCall) :
    CertInv root rootQuorumCert rootOrderedCert (certStep t c).1 (out ++ [(certStep t c).2]) := by
  cases c with
  | insertBlock block =>
    cases hins : t.insertBlock block with
    | ok r =>
      obtain ⟨t', b⟩ := r
      obtain ⟨hhcb, hhqc, hhoc, hqcs, -⟩ := insertBlock_certs hins
      simp only [BlockTree.certStep, hins]
      exact h.of_frame (fun k x hk => getBlock_insertBlock hins hk)
        (h.storedUnderId.insertBlock hins) hhcb hhqc hhoc hqcs
    | err e =>
      simp only [BlockTree.certStep, hins]
      exact h.keep
    | panic =>
      simp only [BlockTree.certStep, hins]
      exact h.keep
  | insertQuorumCert qc =>
    cases hqc : t.insertQuorumCert qc with
    | ok t' =>
      simp only [BlockTree.certStep, hqc]
      exact h.insertQuorumCert hqc
    | err e =>
      simp only [BlockTree.certStep, hqc]
      exact h.keep
    | panic =>
      simp only [BlockTree.certStep, hqc]
      exact h.keep
  | updateHighestLedgerInfo li =>
    have hli : t.updateHighestLedgerInfo li = t ∨
        t.updateHighestLedgerInfo li = { t with highestLedgerInfo := li } := by
      unfold BlockTree.updateHighestLedgerInfo
      split_ifs
      · exact Or.inr rfl
      · exact Or.inl rfl
    simp only [BlockTree.certStep]
    rcases hli with hli | hli <;> rw [hli]
    · exact h.keep
    · exact h.of_frame (fun _ _ hk => hk) (h.storedUnderId.of_frame rfl) rfl rfl rfl rfl

/-- The commit round of the highest ledger info never falls. -/
theorem highestLedgerInfo_round_le (t : BlockTree) (c : CertCall) :
    t.highestLedgerInfo.ledgerInfo.commitInfo.round ≤
      (certStep t c).1.highestLedgerInfo.ledgerInfo.commitInfo.round := by
  cases c with
  | insertBlock block =>
    cases hins : t.insertBlock block with
    | ok r =>
      obtain ⟨t', b⟩ := r
      simp only [BlockTree.certStep, hins, (insertBlock_certs hins).2.2.2.2, le_refl]
    | err e => simp [BlockTree.certStep, hins]
    | panic => simp [BlockTree.certStep, hins]
  | insertQuorumCert qc =>
    cases hqc : t.insertQuorumCert qc with
    | ok t' =>
      obtain ⟨-, -, -, -, -, -, -, -, -, hli⟩ := insertQuorumCert_eq_ok_fields hqc
      simp only [BlockTree.certStep, hqc, hli, le_refl]
    | err e => simp [BlockTree.certStep, hqc]
    | panic => simp [BlockTree.certStep, hqc]
  | updateHighestLedgerInfo li =>
    simp only [BlockTree.certStep, BlockTree.updateHighestLedgerInfo]
    split_ifs with hlt
    · exact Nat.le_of_lt hlt
    · exact le_refl _

/-- **Highest certificates only move up.** Over every run of block inserts, certificate
inserts and ledger-info updates from `BlockTree::new`, with a root certificate that certifies
the root: the highest certified block is the root or a block whose certificate was taken,
of the largest round among them; the highest certificate certifies it; the highest ordered
certificate is the root's or a taken one, of the largest commit round among them; no call
lowers the commit round of the highest ledger info; each block's entry in
`id_to_quorum_cert` is the first certificate for it; and a certificate is refused with an
error exactly when its block is not stored, leaving the tree as it was. -/
theorem highest_certificates_only_move_up {root : ExecutedBlock}
    {rootQuorumCert rootOrderedCert : QuorumCert} {rootCommitLedgerInfo : LedgerInfoWithSignatures}
    {maxPrunedBlocksInMem : ℕ} {highestTimeoutCert : Option TimeoutCertificate} {t₀ : BlockTree}
    (h₀ : BlockTree.new root rootQuorumCert rootOrderedCert rootCommitLedgerInfo
      maxPrunedBlocksInMem highestTimeoutCert = some t₀)
    (hroot : rootQuorumCert.certifiedBlock.id = root.id)
    {t : BlockTree} {out : List (Option QuorumCert)} (h : Lib.Reachable (· = t₀) certStep t out) :
    (∃ hb, t.highestCertifiedBlock = some hb ∧
      (hb = root ∨ ∃ qc ∈ inserted out, t.getBlock qc.certifiedBlock.id = some hb) ∧
      root.round ≤ hb.round ∧
      ∀ qc ∈ inserted out, ∃ b, t.getBlock qc.certifiedBlock.id = some b ∧ b.round ≤ hb.round) ∧
    t.highestQuorumCert.certifiedBlock.id = t.highestCertifiedBlockId ∧
    ((t.highestOrderedCert = rootOrderedCert ∨ t.highestOrderedCert ∈ inserted out) ∧
      rootOrderedCert.commitInfo.round ≤ t.highestOrderedCert.commitInfo.round ∧
      ∀ qc ∈ inserted out, qc.commitInfo.round ≤ t.highestOrderedCert.commitInfo.round) ∧
    (∀ c, t.highestLedgerInfo.ledgerInfo.commitInfo.round ≤
      (certStep t c).1.highestLedgerInfo.ledgerInfo.commitInfo.round) ∧
    (∀ x, SortedMap.get? x t.idToQuorumCert =
      (rootQuorumCert :: inserted out).find? fun qc => qc.certifiedBlock.id == x) ∧
    (∀ qc, (∃ e, t.insertQuorumCert qc = .err e) ↔ t.getBlock qc.certifiedBlock.id = none) ∧
    (∀ qc e, t.insertQuorumCert qc = .err e → certStep t (.insertQuorumCert qc) = (t, none)) := by
  have hinv : CertInv root rootQuorumCert rootOrderedCert t out :=
    h.log_invariant (CertInv root rootQuorumCert rootOrderedCert)
      (fun s (hs : s = t₀) => hs ▸ certInv_new h₀ hroot) (fun s out c hs => hs.certStep c)
  obtain ⟨hb, hhc⟩ := hinv.highestCertified
  refine ⟨⟨hb, hhc.stored, ?_, hhc.root_le, hhc.certified_le⟩, hinv.highestQuorumCert_certifies,
    ⟨hinv.highestOrderedCert_one_of, hinv.root_ordered_le, hinv.inserted_ordered_le⟩,
    highestLedgerInfo_round_le t, hinv.first_cert, fun qc => insertQuorumCert_eq_err_iff hhc.stored,
    fun qc e he => by simp [certStep, he]⟩
  rcases hhc.one_of with hone | ⟨qc, hqc, hid⟩
  · -- the highest certified block is stored under the root's id
    have hstored := hhc.stored
    rw [hone, hinv.root_stored, Option.some.injEq] at hstored
    exact Or.inl hstored.symm
  · exact Or.inr ⟨qc, hqc, hid ▸ hhc.stored⟩

/-- A certificate for the block `id` of round `round`, whose ledger info commits a block of
round `commitRound`. -/
def exampleCert (id round commitRound : ℕ) : QuorumCert :=
  { voteData := { proposed := { (default : BlockInfo) with id := ⟨id⟩, round := round },
                  parent := default },
    signedLedgerInfo := { ledgerInfo := { commitInfo := { (default : BlockInfo) with
                                                            round := commitRound },
                                          consensusDataHash := default },
                          signatures := [] } }

/-- `BlockTree::new` takes a root certificate for another block: before any call, the highest
certificate does not certify the highest certified block. -/
theorem highestQuorumCert_root_mismatch :
    ∃ t₀, BlockTree.new (exampleBlock 0 9 0) (exampleCert 7 0 0) (exampleCert 0 0 0) default 2
        none = some t₀ ∧
      Lib.Reachable (· = t₀) certStep t₀ [] ∧
      t₀.highestQuorumCert.certifiedBlock.id ≠ t₀.highestCertifiedBlockId :=
  ⟨_, rfl, Lib.Reachable.init rfl, by decide⟩

/-- The tree of `B₀` alone, with the root certificate and ordered certificate for it. -/
def certRoot : BlockTree :=
  { pathExampleRoot with highestQuorumCert := exampleCert 0 0 0,
                         highestOrderedCert := exampleCert 0 0 0,
                         idToQuorumCert := [(⟨0⟩, exampleCert 0 0 0)] }

/-- `B₁ … B₄` are inserted, then certificates for `B₂`, `B₄` and `B₃` arrive out of order,
one for a block not stored is refused, and `B₂`'s is sent again. -/
def certRun : List CertCall :=
  pruneExampleBlocks.map .insertBlock ++
    [.insertQuorumCert (exampleCert 2 2 0), .insertQuorumCert (exampleCert 4 4 1),
     .insertQuorumCert (exampleCert 3 3 2), .insertQuorumCert (exampleCert 8 8 5),
     .updateHighestLedgerInfo default, .insertQuorumCert (exampleCert 2 2 3)]

theorem highest_certificates_only_move_up_certRun :
    (BlockTree.new (exampleBlock 0 9 0) (exampleCert 0 0 0) (exampleCert 0 0 0) default 2 none =
        some certRoot ∧
      (exampleCert 0 0 0).certifiedBlock.id = (exampleBlock 0 9 0).id ∧
      Lib.Reachable (· = certRoot) certStep (Lib.run certStep certRoot certRun).1
        (Lib.run certStep certRoot certRun).2) ∧
    (∃ hb, (Lib.run certStep certRoot certRun).1.highestCertifiedBlock = some hb ∧
      (hb = exampleBlock 0 9 0 ∨ ∃ qc ∈ inserted (Lib.run certStep certRoot certRun).2,
        (Lib.run certStep certRoot certRun).1.getBlock qc.certifiedBlock.id = some hb) ∧
      (exampleBlock 0 9 0).round ≤ hb.round ∧
      ∀ qc ∈ inserted (Lib.run certStep certRoot certRun).2, ∃ b,
        (Lib.run certStep certRoot certRun).1.getBlock qc.certifiedBlock.id = some b ∧
          b.round ≤ hb.round) ∧
    (Lib.run certStep certRoot certRun).1.highestQuorumCert.certifiedBlock.id =
      (Lib.run certStep certRoot certRun).1.highestCertifiedBlockId ∧
    (((Lib.run certStep certRoot certRun).1.highestOrderedCert = exampleCert 0 0 0 ∨
        (Lib.run certStep certRoot certRun).1.highestOrderedCert ∈
          inserted (Lib.run certStep certRoot certRun).2) ∧
      (exampleCert 0 0 0).commitInfo.round ≤
        (Lib.run certStep certRoot certRun).1.highestOrderedCert.commitInfo.round ∧
      ∀ qc ∈ inserted (Lib.run certStep certRoot certRun).2, qc.commitInfo.round ≤
        (Lib.run certStep certRoot certRun).1.highestOrderedCert.commitInfo.round) ∧
    (∀ c, (Lib.run certStep certRoot certRun).1.highestLedgerInfo.ledgerInfo.commitInfo.round ≤
      (certStep (Lib.run certStep certRoot certRun).1 c).1.highestLedgerInfo.ledgerInfo.commitInfo.round) ∧
    (∀ x, SortedMap.get? x (Lib.run certStep certRoot certRun).1.idToQuorumCert =
      (exampleCert 0 0 0 :: inserted (Lib.run certStep certRoot certRun).2).find?
        fun qc => qc.certifiedBlock.id == x) ∧
    (∀ qc, (∃ e, (Lib.run certStep certRoot certRun).1.insertQuorumCert qc = .err e) ↔
      (Lib.run certStep certRoot certRun).1.getBlock qc.certifiedBlock.id = none) ∧
    (∀ qc e, (Lib.run certStep certRoot certRun).1.insertQuorumCert qc = .err e →
      certStep (Lib.run certStep certRoot certRun).1 (.insertQuorumCert qc) =
        ((Lib.run certStep certRoot certRun).1, none)) := by
  have h₀ : BlockTree.new (exampleBlock 0 9 0) (exampleCert 0 0 0) (exampleCert 0 0 0) default 2
      none = some certRoot := by decide
  have hreach : Lib.Reachable (· = certRoot) certStep (Lib.run certStep certRoot certRun).1
      (Lib.run certStep certRoot certRun).2 :=
    @Lib.reachable_run _ _ _ (· = certRoot) certStep certRoot rfl certRun
  exact ⟨⟨h₀, rfl, hreach⟩, highest_certificates_only_move_up h₀ rfl hreach⟩

/-- After the run, `B₄` is the highest certified block, the certificate sent again for `B₂`
is the highest ordered one, and `B₂`'s entry is still its first certificate. -/
example : (Lib.run certStep certRoot certRun).1.highestCertifiedBlockId = ⟨4⟩ ∧
    (Lib.run certStep certRoot certRun).1.highestOrderedCert = exampleCert 2 2 3 ∧
    SortedMap.get? ⟨2⟩ (Lib.run certStep certRoot certRun).1.idToQuorumCert =
      some (exampleCert 2 2 0) := by decide

end Run

end BlockTree

end Dijets.Consensus
