import Dijets.Consensus.Locking
import Dijets.Consensus.Protocol

/-!
# Commit safety of the 3-chain protocol

Honest validators that vote with `construct_and_sign_vote` commit a block `b₀`
when a quorum signs the ledger info of a vote for a block `b₂` whose certificate
certifies `b₁` with parent `b₀`, at three consecutive rounds (`construct_ledger_info`).
This module proves that, from round 1 on, such commits never conflict: of two
committed blocks of one epoch, one is an ancestor of the other.

The argument has the usual three parts. Certified vote data is unique per round
(`Protocol`). A commit locks its block (`ThreeChain.locked`): every certified
block above `b₂` was voted for by an honest validator that also signed the commit,
and that validator's locking (`serve3_locks`) puts the block's parent not below
`b₀`. The chain argument of `CertifiedChain` then carries the lock to every later
round.

Round 0 is excluded, and must be. `QuorumCert::verify` accepts every certificate
of round 0 without signatures, as a genesis certificate, and leaves it to the
block store to reject a genesis other than its own; SafetyRules does not look.
A genesis block can be committed (by a 3-chain from it), and the preferred round
it leaves is 0, so a second genesis of the same epoch starts a chain that honest
validators vote for and commit. `genesis_fork` is that run.
-/

set_option autoImplicit false

namespace Dijets.Consensus

open Dijets.Lib Dijets.Lib.CertifiedChain SafetyRules

/-- Every honest validator serves the 3-chain requests from a fresh state. -/
def Honest3 {σ : Type} (L : LawfulStorage σ) (env : Env) (Q : QuorumSystem Author)
    (log : Author → List Entry) : Prop :=
  ∀ a, Q.Honest a → ∃ s, Reachable (Fresh L.view) (serve L.backend env IsThreeChain) s (log a)

/-- What the commit of `b₀` by the ledger info `li` shows: a 3-chain `b₀ ← b₁ ← b₂`
of consecutive rounds in `b₀`'s epoch, both of whose links are certified, the upper
one by `li` itself. -/
structure ThreeChain (env : Env) (Q : QuorumSystem Author) (log : Author → List Entry)
    (b₀ b₁ b₂ : BlockInfo) (li : LedgerInfo) : Prop where
  commitInfo : li.commitInfo = b₀
  signed : QuorumSigned Q log li
  hash : li.consensusDataHash = env.hashVoteData ⟨b₂, b₁⟩
  link₁ : CertifiedLink env Q log b₀.epoch b₁ b₀
  link₂ : CertifiedLink env Q log b₀.epoch b₂ b₁
  round₁ : b₀.round + 1 = b₁.round
  round₂ : b₁.round + 1 = b₂.round

section Run

variable {σ : Type} {L : LawfulStorage σ} {env : Env} {Q : QuorumSystem Author}
  {log : Author → List Entry} (hhonest : Honest3 L env Q log) (hsig : SignaturesSound env Q log)
  (hcf : CollisionFree env Q log)

include hhonest in
theorem Honest3.honestVotes : ∀ a, Q.Honest a → HonestVotes env (log a) := by
  intro a ha
  obtain ⟨s, hs⟩ := hhonest a ha
  exact serve3_honestVotes L env hs

include hhonest in
theorem Honest3.locks {a : Author} (ha : Q.Honest a) {v w : Vote} (hv : VoteIn (log a) v)
    (hw : VoteIn (log a) w) : Locks3 env v w := by
  obtain ⟨s, hs⟩ := hhonest a ha
  exact (serve3_locks L env hs).2 v w hv hw

include hhonest in
theorem Honest3.backed {a : Author} (ha : Q.Honest a) {v : Vote} (hv : VoteIn (log a) v) :
    Backed3 env v := by
  obtain ⟨s, hs⟩ := hhonest a ha
  exact (serve3_locks L env hs).1 v hv

include hhonest hsig in
/-- **A commit shows a certified 3-chain.** An honest signer of the committing ledger
info voted for a block `b₂` whose certificate, valid and of a round above 0,
certifies `b₁` with parent `b₀`. -/
theorem Committed.threeChain {b₀ : BlockInfo} (hb : Committed env Q log b₀) :
    ∃ b₁ b₂ li, ThreeChain env Q log b₀ b₁ b₂ li := by
  obtain ⟨hne, li, hli, hq⟩ := hb
  obtain ⟨a, ha, hsigned⟩ := QuorumSystem.exists_honest_of_isQuorum_self hq
  obtain ⟨w, hw, rfl⟩ := hsigned.vote ha
  obtain ⟨b, now, hchecked, hcons⟩ := hhonest.backed ha hw
  obtain ⟨hhash, hcommit⟩ := constructLedgerInfo_eq_ok hcons
  rcases hcommit with hempty | ⟨hci, hr₁, hr₂⟩
  · exact absurd (hli ▸ hempty) hne
  subst hli
  -- the certificate of round `b₁ > 0` is signed, and its vote data is `⟨b₁, b₀⟩`
  obtain ⟨validator, hverify⟩ := hchecked.qc_valid
  have hround : b.quorumCert.certifiedBlock.round ≠ 0 := by omega
  obtain ⟨hqchash, -, hqcsigned⟩ := QuorumCert.verify_eq_ok hverify
  have hep₁ := (QuorumCert.Valid.parent ⟨validator, hverify⟩ hround).1
  obtain ⟨-, hepb⟩ := Block.verifyWellFormed_eq_ok hchecked.wellFormed
  have hvd : w.voteData = ⟨w.voteData.proposed, b.quorumCert.certifiedBlock⟩ := by
    rw [← hchecked.parent]
  have hep₂ : w.voteData.proposed.epoch = b.epoch := hchecked.epoch
  refine ⟨b.quorumCert.certifiedBlock, w.voteData.proposed, w.ledgerInfo, ⟨rfl, hq, ?_, ?_, ?_, ?_, ?_⟩⟩
  · rw [hhash, ← hvd]
  · refine ⟨by rw [hci, hep₁], b.quorumCert.ledgerInfo.ledgerInfo, ?_, hsig _ _ (hqcsigned hround).1⟩
    rw [hqchash, hci]
    rfl
  · refine ⟨by rw [hci, hep₁, hep₂, hepb], w.ledgerInfo, ?_, hq⟩
    rw [hhash, ← hvd]
  · rw [hci]
    exact hr₁
  · have hvr : w.voteData.proposed.round = b.round := hchecked.round
    rw [hvr]
    exact hr₂

include hhonest hcf in
/-- **The lock of a commit.** Every certified block above the top of the 3-chain has a
parent not older than the committed block: some honest validator signed both its
certificate and the commit, and its second vote was checked against the preferred
round its first one left. -/
theorem ThreeChain.le_parent {b₀ b₁ b₂ : BlockInfo} {li : LedgerInfo}
    (h : ThreeChain env Q log b₀ b₁ b₂ li) (hne : b₀ ≠ env.emptyBlockInfo) {c p : BlockInfo}
    (hcp : CertifiedLink env Q log b₀.epoch c p) (hlt : b₂.round < c.round) : b₀.round ≤ p.round := by
  have hhv := hhonest.honestVotes
  obtain ⟨hce, lic, hlic, hqc⟩ := hcp
  obtain ⟨a, ha, hs, hsc⟩ := QuorumSystem.exists_honest_of_isQuorum h.signed hqc
  obtain ⟨w, hw, hwli, hwvd⟩ := hs.voteData hhv hcf ha h.hash
  obtain ⟨wc, hwc, -, hwcvd⟩ := hsc.voteData hhv hcf ha hlic
  have hlock := (hhonest.locks ha hw hwc).2
  have hwe : w.epoch = wc.epoch := by
    change w.voteData.proposed.epoch = wc.voteData.proposed.epoch
    rw [hwvd, hwcvd, hce]
    exact h.link₂.1
  have hwr : w.round < wc.round := by
    change w.voteData.proposed.round < wc.voteData.proposed.round
    rw [hwvd, hwcvd]
    exact hlt
  have hlocked : lockedRound env w = b₀.round := by
    rw [lockedRound, hwli, h.commitInfo, if_neg hne]
  have := hlock hwe hwr
  rw [hlocked, hwcvd] at this
  exact this

include hhonest hsig hcf in
/-- **A commit locks its block** up to the top of its 3-chain, from round 1 on. -/
theorem ThreeChain.locked {b₀ b₁ b₂ : BlockInfo} {li : LedgerInfo}
    (h : ThreeChain env Q log b₀ b₁ b₂ li) (hne : b₀ ≠ env.emptyBlockInfo) (h1 : 1 ≤ b₀.round) :
    Locked BlockInfo.round (CertifiedLink env Q log b₀.epoch) b₀ b₂.round ∧
      CertifiedChain.Certified (CertifiedLink env Q log b₀.epoch) b₀ := by
  have hhv := hhonest.honestVotes
  have hc₀ := h.link₁.parent hhv hcf hsig h1
  refine ⟨⟨extends_of_unique (certifiedLink_unique hhv hcf b₀.epoch) fun k hlo hhi => ?_,
    fun c p hcp hlt => h.le_parent hhonest hcf hne hcp hlt⟩, hc₀⟩
  -- below the top, the three blocks of the chain occupy the three rounds
  have h₁ := h.round₁
  have h₂ := h.round₂
  by_cases hk₀ : k = b₀.round
  · exact ⟨b₀, hc₀, hk₀.symm, Extends.refl b₀⟩
  by_cases hk₁ : k = b₁.round
  · exact ⟨b₁, ⟨b₀, h.link₁⟩, hk₁.symm, Extends.head h.link₁ (Extends.refl b₀)⟩
  have hk₂ : k = b₂.round := by omega
  exact ⟨b₂, ⟨b₁, h.link₂⟩, hk₂.symm, Extends.head h.link₂ (Extends.head h.link₁ (Extends.refl b₀))⟩

include hhonest hsig hcf in
/-- **3-chain commit safety.** With honest validators serving the 3-chain requests
from fresh states and byzantine ones holding less than a third of the power, two
blocks of one epoch committed by quorum-signed ledger infos, both of a round above
0, lie on one chain: one is an ancestor of the other. -/
theorem commits_on_one_chain {b b' : BlockInfo} (hb : Committed env Q log b)
    (hb' : Committed env Q log b') (he : b.epoch = b'.epoch) (h1 : 1 ≤ b.round)
    (h1' : 1 ≤ b'.round) : IsAncestor Q log b b' ∨ IsAncestor Q log b' b := by
  have hhv := hhonest.honestVotes
  obtain ⟨b₁, b₂, li, hchain⟩ := hb.threeChain hhonest hsig
  obtain ⟨b₁', b₂', li', hchain'⟩ := hb'.threeChain hhonest hsig
  obtain ⟨hlocked, hc⟩ := hchain.locked hhonest hsig hcf hb.1 h1
  obtain ⟨hlocked', hc'⟩ := hchain'.locked hhonest hsig hcf hb'.1 h1'
  rw [← he] at hlocked' hc'
  rcases hlocked.extends_or_extends (fun c p hl => hl.round_lt hhv hcf)
      (fun c p hl hp => hl.parent hhv hcf hsig hp) hlocked' hc hc' h1 h1' with h | h
  · exact Or.inl (Extends.isAncestor hhv hcf h)
  · exact Or.inr (Extends.isAncestor hhv hcf h)

end Run

/-! ## Two geneses in one epoch

The run behind the exception of round 0. Four validators of power 1, all honest,
each serve the same six 3-chain votes. The first two build a 3-chain from the
genesis `genesis 1`: the vote for `B₂` commits it, and leaves the preferred round
at its round, 0. The next four build on a second genesis `genesis 2` of the same
epoch, whose certificate `QuorumCert::verify` accepts as it accepts every
certificate of round 0: the vote for `C₃` commits `C₁`, whose only ancestor is
`genesis 2`. Votes are ordering-only, so no execution is involved, and the
environment accepts exactly the signatures the validators made. -/

namespace GenesisFork

/-- A genesis block of epoch 1. -/
def genesis (id : ℕ) : BlockInfo :=
  { epoch := 1, round := 0, id := ⟨id⟩, executedStateId := default, version := 0, timestampUsecs := 0,
    nextEpochState := none }

/-- The ordering-only block info of the block `id` of epoch 1 at `round`. -/
def blockInfo (id round : ℕ) : BlockInfo :=
  { epoch := 1, round := round, id := ⟨id⟩, executedStateId := default, version := 0,
    timestampUsecs := round, nextEpochState := none }

/-- The vote data the six votes sign: `B₁`, `B₂` over `genesis 1`, and `C₁` to `C₄`
over `genesis 2`. -/
def voteDataB₁ : VoteData := ⟨blockInfo 11 1, genesis 1⟩
def voteDataB₂ : VoteData := ⟨blockInfo 12 2, blockInfo 11 1⟩
def voteDataC₁ : VoteData := ⟨blockInfo 21 3, genesis 2⟩
def voteDataC₂ : VoteData := ⟨blockInfo 22 4, blockInfo 21 3⟩
def voteDataC₃ : VoteData := ⟨blockInfo 23 5, blockInfo 22 4⟩
def voteDataC₄ : VoteData := ⟨blockInfo 24 6, blockInfo 23 5⟩

/-- A hash that tells the six vote data apart. -/
def hash (vd : VoteData) : HashValue :=
  if vd = voteDataB₁ then ⟨1⟩ else if vd = voteDataB₂ then ⟨2⟩ else if vd = voteDataC₁ then ⟨3⟩ else
  if vd = voteDataC₂ then ⟨4⟩ else if vd = voteDataC₃ then ⟨5⟩ else if vd = voteDataC₄ then ⟨6⟩ else ⟨0⟩

/-- The ledger infos of the six votes, by the 3-chain rule: `B₂` commits `genesis 1`,
`C₃` commits `C₁` and `C₄` commits `C₂`. -/
def ledgerInfoB₁ : LedgerInfo := ⟨default, ⟨1⟩⟩
def ledgerInfoB₂ : LedgerInfo := ⟨genesis 1, ⟨2⟩⟩
def ledgerInfoC₁ : LedgerInfo := ⟨default, ⟨3⟩⟩
def ledgerInfoC₂ : LedgerInfo := ⟨default, ⟨4⟩⟩
def ledgerInfoC₃ : LedgerInfo := ⟨blockInfo 21 3, ⟨5⟩⟩
def ledgerInfoC₄ : LedgerInfo := ⟨blockInfo 22 4, ⟨6⟩⟩

/-- The ledger infos the validators sign. -/
def signedLedgerInfos : List LedgerInfo :=
  [ledgerInfoB₁, ledgerInfoB₂, ledgerInfoC₁, ledgerInfoC₂, ledgerInfoC₃, ledgerInfoC₄]

/-- Signatures are not checked, and the verifier accepts a ledger info exactly when
the validators signed it; nothing else of the environment is used. -/
def env : Env :=
  { (default : Env) with
    hashVoteData := hash
    sign := fun _ _ => default
    verifySignature := fun _ _ _ => .ok ()
    validatorVerify := fun _ _ _ _ => .ok ()
    verifySignatures := fun li _ => if li.ledgerInfo ∈ signedLedgerInfos then .ok () else .error ""
    endsEpoch := fun _ => false
    hasReconfiguration := fun _ => false }

/-- An unsigned certificate of round 0 for the genesis `g`. -/
def genesisCert (g : BlockInfo) : QuorumCert := ⟨⟨g, g⟩, ⟨⟨g, ⟨0⟩⟩, []⟩⟩

/-- The certificate of the vote data `vd` with the ledger info `li`. -/
def cert (vd : VoteData) (li : LedgerInfo) : QuorumCert := ⟨vd, ⟨li, []⟩⟩

/-- The proposal of the block `id` of epoch 1 at `round` over `qc`, by validator 0. -/
def block (id round : ℕ) (qc : QuorumCert) : Block :=
  { id := ⟨id⟩,
    blockData := { epoch := 1, round := round, timestampUsecs := round, quorumCert := qc,
                   blockType := .proposal [] 0 },
    signature := some default }

/-- The request to vote for a block, at clock reading 0. -/
def voteFor (b : Block) : {i : SafetyRulesInput × ℕ // IsThreeChain i.1 = true} :=
  ⟨(.constructAndSignVote ⟨⟨default, b, none⟩, none⟩, 0), rfl⟩

/-- The six requests every validator serves. -/
def requests : List {i : SafetyRulesInput × ℕ // IsThreeChain i.1 = true} :=
  [voteFor (block 11 1 (genesisCert (genesis 1))), voteFor (block 12 2 (cert voteDataB₁ ledgerInfoB₁)),
   voteFor (block 21 3 (genesisCert (genesis 2))), voteFor (block 22 4 (cert voteDataC₁ ledgerInfoC₁)),
   voteFor (block 23 5 (cert voteDataC₂ ledgerInfoC₂)), voteFor (block 24 6 (cert voteDataC₃ ledgerInfoC₃))]

/-- The in-memory storage. -/
def storage : LawfulStorage InMemoryStorage := InMemoryStorage.lawfulStorage env

/-- A validator initialized in epoch 1 with its key, under decoupled execution. -/
def start : SafetyRules InMemoryStorage :=
  { persistentStorage := InMemoryStorage.initialized 0 default default default true,
    executionPublicKey := none, exportConsensusKey := false,
    validatorSigner := some (.signer 0 default), epochState := some ⟨1, default⟩,
    decoupledExecution := true }

/-- What each validator signed. -/
def log (_ : Author) : List Entry := (run (serve storage.backend env IsThreeChain) start requests).2

/-- Four validators of power 1, none byzantine. -/
def validators : QuorumSystem Author where
  members := {0, 1, 2, 3}
  power _ := 1
  byzantine := ∅
  byzantine_subset := Finset.empty_subset _
  byzantine_lt := by decide

/-- The votes the six requests return, one for each vote data. -/
def voteB₁ : Vote := ⟨voteDataB₁, 0, ledgerInfoB₁, default, none⟩
def voteB₂ : Vote := ⟨voteDataB₂, 0, ledgerInfoB₂, default, none⟩
def voteC₁ : Vote := ⟨voteDataC₁, 0, ledgerInfoC₁, default, none⟩
def voteC₂ : Vote := ⟨voteDataC₂, 0, ledgerInfoC₂, default, none⟩
def voteC₃ : Vote := ⟨voteDataC₃, 0, ledgerInfoC₃, default, none⟩
def voteC₄ : Vote := ⟨voteDataC₄, 0, ledgerInfoC₄, default, none⟩

def votes : List Vote := [voteB₁, voteB₂, voteC₁, voteC₂, voteC₃, voteC₄]

theorem votes_eq : votes = [voteB₁, voteB₂, voteC₁, voteC₂, voteC₃, voteC₄] := rfl

/-- The run, evaluated: each request returns its vote. -/
theorem log_votes (a : Author) : (log a).map (voteOf ∘ Prod.snd) = votes.map some := by
  rfl

theorem voteIn_log {a : Author} {v : Vote} : VoteIn (log a) v ↔ v ∈ votes := by
  have h : some v ∈ (log a).map (voteOf ∘ Prod.snd) ↔ v ∈ votes := by
    rw [log_votes]
    simp
  rw [← h]
  constructor
  · rintro ⟨e, he, hv⟩
    exact List.mem_map.mpr ⟨e, he, hv⟩
  · intro hm
    obtain ⟨e, he, hev⟩ := List.mem_map.mp hm
    exact ⟨e, he, hev⟩

theorem honest3 : Honest3 storage env validators log := by
  intro a _
  have hstart : Fresh storage.view start :=
    ⟨initialized_consistent env 0 default default default true, rfl⟩
  exact ⟨_, reachable_run hstart requests⟩

/-- Every validator signed the ledger info of every vote. -/
theorem quorumSigned_of_mem (v : Vote) (hv : v ∈ votes) : QuorumSigned validators log v.ledgerInfo :=
  QuorumSystem.isQuorum_of_forall (by decide) fun _ _ => Or.inr ⟨v, Iff.mpr voteIn_log hv, rfl⟩

theorem signaturesSound : SignaturesSound env validators log := by
  intro li validator h
  have hmem : li.ledgerInfo ∈ votes.map Vote.ledgerInfo := by
    by_contra hnot
    simp only [env, show signedLedgerInfos = votes.map Vote.ledgerInfo from rfl, hnot,
      ↓reduceIte, reduceCtorEq] at h
  obtain ⟨v, hv, hli⟩ := List.mem_map.mp hmem
  exact hli ▸ quorumSigned_of_mem v hv

theorem collisionFree : CollisionFree env validators log := by
  intro vd a v _ hv h
  have hv' := Iff.mp voteIn_log hv
  simp only [votes_eq, List.mem_cons, List.not_mem_nil, or_false] at hv'
  rcases hv' with rfl | rfl | rfl | rfl | rfl | rfl <;>
    simp only [env, hash, voteB₁, voteB₂, voteC₁, voteC₂, voteC₃, voteC₄] at h ⊢ <;>
    split_ifs at h <;> simp_all

/-- An honest validator voted exactly for the six vote data. -/
theorem parentOf_iff {c p : BlockInfo} :
    ParentOf validators log c p ↔ (⟨c, p⟩ : VoteData) ∈ votes.map Vote.voteData := by
  constructor
  · rintro ⟨a, -, v, hv, hvd⟩
    exact List.mem_map.mpr ⟨v, Iff.mp voteIn_log hv, hvd⟩
  · intro h
    obtain ⟨v, hv, hvd⟩ := List.mem_map.mp h
    exact ⟨0, ⟨by decide, by simp [validators]⟩, v, Iff.mpr voteIn_log hv, hvd⟩

theorem committed_genesis : Committed env validators log (genesis 1) :=
  ⟨by decide, ledgerInfoB₂, rfl, quorumSigned_of_mem voteB₂ (by simp [votes_eq])⟩

theorem committed_C₁ : Committed env validators log (blockInfo 21 3) :=
  ⟨by decide, ledgerInfoC₃, rfl, quorumSigned_of_mem voteC₃ (by simp [votes_eq])⟩

theorem committed_C₂ : Committed env validators log (blockInfo 22 4) :=
  ⟨by decide, ledgerInfoC₄, rfl, quorumSigned_of_mem voteC₄ (by simp [votes_eq])⟩

/-- The ancestors of `C₁` are `C₁` and the second genesis. -/
theorem ancestors_C₁ {b : BlockInfo} (h : IsAncestor validators log b (blockInfo 21 3)) :
    b = blockInfo 21 3 ∨ b = genesis 2 := by
  have hS : ∀ c p, (c = blockInfo 21 3 ∨ c = genesis 2) → ParentOf validators log c p →
      p = blockInfo 21 3 ∨ p = genesis 2 := by
    intro c p hc hp
    rw [parentOf_iff] at hp
    rcases hc with rfl | rfl <;> simp_all [votes_eq, voteB₁, voteB₂, voteC₁, voteC₂, voteC₃, voteC₄,
      voteDataB₁, voteDataB₂, voteDataC₁, voteDataC₂, voteDataC₃, voteDataC₄, blockInfo, genesis]
  exact IsAncestor.of_closed hS h (Or.inl rfl)

/-- The first genesis has no ancestor but itself. -/
theorem ancestors_genesis {b : BlockInfo} (h : IsAncestor validators log b (genesis 1)) :
    b = genesis 1 := by
  have hS : ∀ c p, c = genesis 1 → ParentOf validators log c p → p = genesis 1 := by
    intro c p hc hp
    rw [parentOf_iff] at hp
    subst hc
    simp_all [votes_eq, voteB₁, voteB₂, voteC₁, voteC₂, voteC₃, voteC₄, voteDataB₁, voteDataB₂,
      voteDataC₁, voteDataC₂, voteDataC₃, voteDataC₄, blockInfo, genesis]
  exact IsAncestor.of_closed hS h rfl

end GenesisFork

open GenesisFork in
/-- **Two conflicting commits in one epoch.** In a run of four honest validators
under every hypothesis of `commits_on_one_chain`, the genesis `genesis 1` and the
block `C₁` of the second genesis are both committed by quorum-signed ledger infos
of epoch 1, and neither is an ancestor of the other. -/
theorem genesis_fork :
    Honest3 storage env validators log ∧ SignaturesSound env validators log ∧
      CollisionFree env validators log ∧
      Committed env validators log (genesis 1) ∧ Committed env validators log (blockInfo 21 3) ∧
      (genesis 1).epoch = (blockInfo 21 3).epoch ∧
      ¬ IsAncestor validators log (genesis 1) (blockInfo 21 3) ∧
      ¬ IsAncestor validators log (blockInfo 21 3) (genesis 1) := by
  refine ⟨honest3, signaturesSound, collisionFree, committed_genesis, committed_C₁, rfl, ?_, ?_⟩
  · intro h
    rcases ancestors_C₁ h with h | h <;> exact absurd h (by decide)
  · intro h
    exact absurd (ancestors_genesis h) (by decide)

open GenesisFork in
/-- In the same run, the two commits of the second chain, `C₁` and `C₂`, both above
round 0, lie on one chain. -/
theorem commits_on_one_chain_genesisFork :
    IsAncestor validators log (blockInfo 21 3) (blockInfo 22 4) ∨
      IsAncestor validators log (blockInfo 22 4) (blockInfo 21 3) :=
  commits_on_one_chain honest3 signaturesSound collisionFree committed_C₁ committed_C₂ rfl
    (by decide) (by decide)

end Dijets.Consensus
