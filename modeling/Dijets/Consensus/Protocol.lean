import Dijets.Consensus.Honest
import Dijets.Lib.Quorum
import Dijets.Lib.CertifiedChain

/-!
# A run of the whole validator set

A protocol run is seen through what its validators signed. Each validator
`a` has a log `log a`; an honest one produced it by serving its protocol's
requests through SafetyRules, from a fresh state, in whatever order the network
delivered them, and a byzantine one signs anything. Which validators are
byzantine, and with how much voting power, is a `QuorumSystem`: less than a
third of the power.

What a certificate proves rests on two assumptions about the crates outside the
repository, stated as hypotheses of every result:

* `SignaturesSound` — a ledger info the validator verifier accepts was signed by
  a quorum, the honest members of which returned votes for it (signatures
  cannot be forged, and the verifier counts voting power);
* `CollisionFree` — no vote data hashes to the hash of an honest vote's data.

The log of a validator is all that is ever signed, so these are about the logs
at the end of the run: a signature checked at some point of the run was made
before it.

Over them: vote data is `Certified` when a quorum signed a ledger info with its
hash, and certified vote data of one epoch link blocks to their parents. The
results here hold for honest validators of either protocol, from `HonestVotes`:
certified vote data is voted by an honest validator, it is unique per epoch and
round, its parent is of an earlier round of the same epoch, and its parent is
certified too unless it is a genesis block of round 0. These are the hypotheses
of the chain argument of `Dijets.Lib.CertifiedChain`.
-/

set_option autoImplicit false

namespace Dijets.Consensus

open Dijets.Lib Dijets.Lib.CertifiedChain SafetyRules

variable (env : Env) (Q : QuorumSystem Author) (log : Author → List Entry)

/-- The validators that signed the ledger info `li`: the byzantine ones, which may
sign anything, and the honest ones that returned a vote for it. -/
def SignedBy (li : LedgerInfo) (a : Author) : Prop :=
  a ∈ Q.byzantine ∨ ∃ v, VoteIn (log a) v ∧ v.ledgerInfo = li

/-- A quorum signed the ledger info `li`. -/
def QuorumSigned (li : LedgerInfo) : Prop := Q.IsQuorum (SignedBy Q log li)

/-- A quorum signed a ledger info carrying the hash of the vote data `vd`. -/
def Certified (vd : VoteData) : Prop :=
  ∃ li : LedgerInfo, li.consensusDataHash = env.hashVoteData vd ∧ QuorumSigned Q log li

/-- The block `c` of the epoch `epoch` is certified with the parent `p`. -/
def CertifiedLink (epoch : ℕ) (c p : BlockInfo) : Prop :=
  c.epoch = epoch ∧ Certified env Q log ⟨c, p⟩

/-- An honest validator voted for `c` with the parent `p`. -/
def ParentOf (c p : BlockInfo) : Prop :=
  ∃ a, Q.Honest a ∧ ∃ v, VoteIn (log a) v ∧ v.voteData = ⟨c, p⟩

/-- `b` is an ancestor of `c`, or `c` itself. -/
def IsAncestor (b c : BlockInfo) : Prop := Relation.ReflTransGen (ParentOf Q log) c b

/-- The block `b` is the commit of a ledger info a quorum signed. -/
def Committed (b : BlockInfo) : Prop :=
  b ≠ env.emptyBlockInfo ∧ ∃ li : LedgerInfo, li.commitInfo = b ∧ QuorumSigned Q log li

/-- A ledger info the validator verifier accepts was signed by a quorum. -/
def SignaturesSound : Prop :=
  ∀ li validator, env.verifySignatures li validator = .ok () → QuorumSigned Q log li.ledgerInfo

/-- No vote data hashes to the hash of an honest vote's data. -/
def CollisionFree : Prop :=
  ∀ vd a v, Q.Honest a → VoteIn (log a) v → env.hashVoteData vd = env.hashVoteData v.voteData →
    vd = v.voteData

variable {env Q log}

/-- A property of blocks that passes from every block to the parents honest
validators voted for holds of all ancestors of a block that has it. -/
theorem IsAncestor.of_closed {S : BlockInfo → Prop} (hS : ∀ c p, S c → ParentOf Q log c p → S p)
    {b c : BlockInfo} (h : IsAncestor Q log b c) (hc : S c) : S b := by
  induction h with
  | refl => exact hc
  | tail _ hp ih => exact hS _ _ ih hp

/-- An honest signer of a ledger info returned a vote for it. -/
theorem SignedBy.vote {li : LedgerInfo} {a : Author} (ha : Q.Honest a) (h : SignedBy Q log li a) :
    ∃ v, VoteIn (log a) v ∧ v.ledgerInfo = li :=
  h.resolve_left ha.2

/-! ## Honest votes and certificates -/

section HonestVotes

variable (hhv : ∀ a, Q.Honest a → HonestVotes env (log a)) (hcf : CollisionFree env Q log)
include hhv hcf

/-- An honest vote whose ledger info carries the hash of `vd` is a vote for `vd`. -/
theorem voteData_eq_of_hash {a : Author} {v : Vote} {vd : VoteData} (ha : Q.Honest a)
    (hv : VoteIn (log a) v) (hh : v.ledgerInfo.consensusDataHash = env.hashVoteData vd) :
    vd = v.voteData :=
  hcf vd a v ha hv (hh.symm.trans ((hhv a ha).hash v hv))

/-- An honest signer of a ledger info with the hash of `vd` voted for `vd`. -/
theorem SignedBy.voteData {li : LedgerInfo} {a : Author} {vd : VoteData} (ha : Q.Honest a)
    (h : SignedBy Q log li a) (hli : li.consensusDataHash = env.hashVoteData vd) :
    ∃ v, VoteIn (log a) v ∧ v.ledgerInfo = li ∧ v.voteData = vd := by
  obtain ⟨v, hv, rfl⟩ := h.vote ha
  exact ⟨v, hv, rfl, (voteData_eq_of_hash hhv hcf ha hv hli).symm⟩

/-- Certified vote data was voted for by an honest validator. -/
theorem Certified.exists_honest {vd : VoteData} (h : Certified env Q log vd) :
    ∃ a, Q.Honest a ∧ ∃ v, VoteIn (log a) v ∧ v.voteData = vd := by
  obtain ⟨li, hli, hq⟩ := h
  obtain ⟨a, ha, hsigned⟩ := QuorumSystem.exists_honest_of_isQuorum_self hq
  obtain ⟨v, hv, -, hvd⟩ := hsigned.voteData hhv hcf ha hli
  exact ⟨a, ha, v, hv, hvd⟩

/-- **Certificates are unique per round.** Two certified vote data proposing blocks
of one epoch and round are equal: an honest validator signed both, and it never
votes twice in a round. -/
theorem certified_unique {vd₁ vd₂ : VoteData} (h₁ : Certified env Q log vd₁)
    (h₂ : Certified env Q log vd₂) (he : vd₁.proposed.epoch = vd₂.proposed.epoch)
    (hr : vd₁.proposed.round = vd₂.proposed.round) : vd₁ = vd₂ := by
  obtain ⟨li₁, hli₁, hq₁⟩ := h₁
  obtain ⟨li₂, hli₂, hq₂⟩ := h₂
  obtain ⟨a, ha, hs₁, hs₂⟩ := QuorumSystem.exists_honest_of_isQuorum hq₁ hq₂
  obtain ⟨v₁, hv₁, -, rfl⟩ := hs₁.voteData hhv hcf ha hli₁
  obtain ⟨v₂, hv₂, -, rfl⟩ := hs₂.voteData hhv hcf ha hli₂
  rw [(hhv a ha).unique v₁ v₂ hv₁ hv₂ he hr]

/-- The parent of certified vote data is of an earlier round of the same epoch. -/
theorem Certified.parent_lt {vd : VoteData} (h : Certified env Q log vd) :
    vd.parent.round < vd.proposed.round ∧ vd.parent.epoch = vd.proposed.epoch := by
  obtain ⟨a, ha, v, hv, rfl⟩ := h.exists_honest hhv hcf
  obtain ⟨b, now, hchecked⟩ := (hhv a ha).checked v hv
  obtain ⟨hlt, hep⟩ := Block.verifyWellFormed_eq_ok hchecked.wellFormed
  have hround : v.voteData.proposed.round = b.round := hchecked.round
  have hepoch : v.voteData.proposed.epoch = b.epoch := hchecked.epoch
  rw [hchecked.parent, hround, hepoch]
  exact ⟨hlt, hep⟩

/-- The parent of certified vote data is certified too, unless it is of round 0:
the honest voter checked the certificate its proposal carried, and a certificate
of a round other than 0 carries signatures the verifier accepted. -/
theorem Certified.parent_certified (hsig : SignaturesSound env Q log) {vd : VoteData}
    (h : Certified env Q log vd) (h0 : vd.parent.round ≠ 0) :
    ∃ pp, Certified env Q log ⟨vd.parent, pp⟩ := by
  obtain ⟨a, ha, v, hv, rfl⟩ := h.exists_honest hhv hcf
  obtain ⟨b, now, hchecked⟩ := (hhv a ha).checked v hv
  obtain ⟨validator, hverify⟩ := hchecked.qc_valid
  have hround : b.quorumCert.certifiedBlock.round ≠ 0 := hchecked.parent ▸ h0
  obtain ⟨hhash, -, hsigned⟩ := QuorumCert.verify_eq_ok hverify
  refine ⟨b.quorumCert.parentBlock, b.quorumCert.ledgerInfo.ledgerInfo, ?_, hsig _ _ (hsigned hround).1⟩
  rw [hhash, hchecked.parent]
  rfl

/-! ## The hypotheses of the chain argument -/

theorem certifiedLink_unique (epoch : ℕ) :
    UniquePerRound BlockInfo.round (CertifiedLink env Q log epoch) := by
  intro c c' p p' ⟨hc, hcp⟩ ⟨hc', hcp'⟩ hr
  have := certified_unique hhv hcf hcp hcp' (hc.trans hc'.symm) hr
  exact congrArg VoteData.proposed this

theorem CertifiedLink.round_lt {epoch : ℕ} {c p : BlockInfo} (h : CertifiedLink env Q log epoch c p) :
    p.round < c.round :=
  (h.2.parent_lt hhv hcf).1

theorem CertifiedLink.parent (hsig : SignaturesSound env Q log) {epoch : ℕ} {c p : BlockInfo}
    (h : CertifiedLink env Q log epoch c p) (h1 : 1 ≤ p.round) :
    CertifiedChain.Certified (CertifiedLink env Q log epoch) p := by
  obtain ⟨pp, hpp⟩ := h.2.parent_certified hhv hcf hsig (Nat.ne_of_gt h1)
  exact ⟨pp, (h.2.parent_lt hhv hcf).2.trans h.1, hpp⟩

/-- A certified link is a parent an honest validator voted for. -/
theorem CertifiedLink.parentOf {epoch : ℕ} {c p : BlockInfo} (h : CertifiedLink env Q log epoch c p) :
    ParentOf Q log c p :=
  h.2.exists_honest hhv hcf

/-- A block that extends another through certified links has it as an ancestor. -/
theorem Extends.isAncestor {epoch : ℕ} {c b : BlockInfo}
    (h : Extends (CertifiedLink env Q log epoch) c b) : IsAncestor Q log b c :=
  Relation.ReflTransGen.mono (fun x y (hl : CertifiedLink env Q log epoch x y) => hl.parentOf hhv hcf)
    c b h

end HonestVotes

end Dijets.Consensus
