import Dijets.Consensus.LockingTwoChain
import Dijets.Consensus.CommitSafety

/-!
# Commit safety of the 2-chain protocol

Honest validators that vote with `construct_and_sign_vote_two_chain` commit a block
`b₀` when a quorum signs the ledger info of a vote for a block `b₁` whose
certificate certifies `b₀` at the round before (`construct_ledger_info_2chain`).
This module proves that, from round 1 on and within one epoch, such commits never
conflict, and that a timeout certificate cannot undo a certified 2-chain: once a
quorum voted for `b₁` with parent `b₀`, every valid timeout certificate of a round
from `b₁`'s on reports a highest certificate not older than `b₀`.

The lock of a commit (`TwoChain.le_parent`): a certified block above `b₁` was
voted for by an honest validator for which it was safe to vote. Either its
certificate is of the round just before it, so not older than `b₀`'s round, or
it came with a timeout certificate of a round from `b₁`'s on, whose signers meet
the quorum that certified `b₁` in an honest validator; that validator's timeout
is locked with its vote for `b₁` (`serve2_locks`), and the certificate's highest
round bounds its timeout's.

Two exceptions are stated as hypotheses, and both are needed. As for the 3-chain
protocol, a genesis certificate of round 0 is accepted unsigned, so commits of
round 0 are excluded (`timeout_fork` is a run of honest validators that commits
two geneses' chains). And `verify_tc` checks the signatures of a timeout
certificate against the current validators but not its epoch: a certificate of
another epoch with the same validator set passes. The honest validators are
therefore taken to serve the whole run within the epoch of the commits, which is
what "within an epoch" means for a run.
-/

set_option autoImplicit false

namespace Dijets.Consensus

open Dijets.Lib Dijets.Lib.CertifiedChain SafetyRules

/-- Every honest validator serves the 2-chain requests from a fresh state of
epoch `epoch`, and is still in that epoch at the end of the run. -/
def Honest2 {σ : Type} (L : LawfulStorage σ) (env : Env) (Q : QuorumSystem Author)
    (log : Author → List Entry) (epoch : ℕ) : Prop :=
  ∀ a, Q.Honest a → ∃ s, Reachable (fun s => Fresh L.view s ∧ (stored L.view s).epoch = epoch)
    (serve L.backend env IsTwoChain) s (log a) ∧ (stored L.view s).epoch = epoch

/-- The validator verifier counts voting power: signers it accepts are a quorum. -/
def VotingPowerSound (env : Env) (Q : QuorumSystem Author) : Prop :=
  ∀ validators authors, env.checkVotingPower validators authors = .ok () → Q.IsQuorum (· ∈ authors)

/-- A timeout signature of an honest validator verifies only if the validator
signed a 2-chain timeout of that signing format. -/
def TimeoutSignaturesSound (env : Env) (Q : QuorumSystem Author) (log : Author → List Entry) :
    Prop :=
  ∀ validators a r signature, Q.Honest a →
    env.validatorVerify validators a (.timeoutSigningRepr r) signature = .ok () →
      ∃ t, TimeoutIn (log a) t ∧ t.signingFormat = r

/-- What the commit of `b₀` by the ledger info `li` shows: a 2-chain `b₀ ← b₁` of
consecutive rounds in `b₀`'s epoch, certified by `li` itself. -/
structure TwoChain (env : Env) (Q : QuorumSystem Author) (log : Author → List Entry)
    (b₀ b₁ : BlockInfo) (li : LedgerInfo) : Prop where
  commitInfo : li.commitInfo = b₀
  signed : QuorumSigned Q log li
  hash : li.consensusDataHash = env.hashVoteData ⟨b₁, b₀⟩
  link : CertifiedLink env Q log b₀.epoch b₁ b₀
  round : b₀.round + 1 = b₁.round

section Run

variable {σ : Type} {L : LawfulStorage σ} {env : Env} {Q : QuorumSystem Author}
  {log : Author → List Entry} {epoch : ℕ} (hhonest : Honest2 L env Q log epoch)
  (hsig : SignaturesSound env Q log) (hcf : CollisionFree env Q log)
  (hvp : VotingPowerSound env Q) (hts : TimeoutSignaturesSound env Q log)

include hhonest in
theorem Honest2.honestVotes : ∀ a, Q.Honest a → HonestVotes env (log a) := by
  intro a ha
  obtain ⟨s, hs, -⟩ := hhonest a ha
  exact serve2_honestVotes L env (hs.mono fun _ h => h.1)

include hhonest in
theorem Honest2.backed {a : Author} (ha : Q.Honest a) {v : Vote} (hv : VoteIn (log a) v) :
    Backed2 env v := by
  obtain ⟨s, hs, -⟩ := hhonest a ha
  exact (serve2_locks L env (hs.mono fun _ h => h.1)).1 v hv

include hhonest in
theorem Honest2.locks {a : Author} (ha : Q.Honest a) {v : Vote} {t : TwoChainTimeout}
    (hv : VoteIn (log a) v) (ht : TimeoutIn (log a) t) : Locks2 v t := by
  obtain ⟨s, hs, -⟩ := hhonest a ha
  exact (serve2_locks L env (hs.mono fun _ h => h.1)).2.2.1 v t hv ht

include hhonest in
/-- Honest validators sign timeouts of the run's epoch only: no later one, since
they end in it, and no earlier one, since they start in it. -/
theorem Honest2.timeout_epoch {a : Author} (ha : Q.Honest a) {t : TwoChainTimeout}
    (ht : TimeoutIn (log a) t) : t.epoch = epoch := by
  obtain ⟨s, hs, hend⟩ := hhonest a ha
  have hle := (serve2_locks L env (hs.mono fun _ h => h.1)).2.2.2 t ht
  have hge := serve2_epoch_le L env (hs.mono fun _ h => ⟨h.1, Nat.le_of_eq h.2.symm⟩) t ht
  omega

include hhonest hcf hvp hts in
/-- **A certified 2-chain bounds every later timeout certificate.** If a quorum
signed the vote data `vd` of the run's epoch, every valid timeout certificate of
a round from `vd`'s on reports a highest certificate not older than `vd`'s parent:
its signers meet the quorum in an honest validator, whose timeout for the
certificate's round is locked with its vote for `vd`. -/
theorem Certified.le_highestHqcRound {vd : VoteData} (hcert : Certified env Q log vd)
    (he : vd.proposed.epoch = epoch) {tc : TwoChainTimeoutCertificate} (htc : tc.Valid env)
    (hr : vd.proposed.round ≤ tc.round) : vd.parent.round ≤ tc.highestHqcRound := by
  have hhv := hhonest.honestVotes
  obtain ⟨li, hli, hq⟩ := hcert
  obtain ⟨validators, hverify⟩ := htc
  obtain ⟨-, -, hpower, hsigners⟩ := TwoChainTimeoutCertificate.verify_eq_ok hverify
  obtain ⟨a, ha, hs, hmem⟩ := QuorumSystem.exists_honest_of_isQuorum hq (hvp _ _ hpower)
  obtain ⟨v, hv, -, rfl⟩ := hs.voteData hhv hcf ha hli
  obtain ⟨x, hx, rfl⟩ := List.mem_map.mp hmem
  obtain ⟨hxle, hxsig⟩ := hsigners x hx
  -- the honest signer's timeout is of the certificate's epoch and round
  obtain ⟨t, ht, hfmt⟩ := hts _ _ _ _ ha hxsig
  have hte : t.epoch = epoch := hhonest.timeout_epoch ha ht
  have htr : t.round = tc.round := congrArg TimeoutSigningRepr.round hfmt
  have htq : t.hqcRound = x.2.1 := congrArg TimeoutSigningRepr.hqcRound hfmt
  have hlock := hhonest.locks ha hv ht (he.trans hte.symm) (htr ▸ hr)
  rw [htq] at hlock
  exact Nat.le_trans hlock hxle

include hhonest in
/-- **A commit shows a certified 2-chain.** An honest signer of the committing ledger
info voted for a block `b₁` whose certificate certifies `b₀` at the round before. -/
theorem Committed.twoChain {b₀ : BlockInfo} (hb : Committed env Q log b₀) :
    ∃ b₁ li, TwoChain env Q log b₀ b₁ li := by
  obtain ⟨hne, li, hli, hq⟩ := hb
  obtain ⟨a, ha, hsigned⟩ := QuorumSystem.exists_honest_of_isQuorum_self hq
  obtain ⟨w, hw, rfl⟩ := hsigned.vote ha
  obtain ⟨b, now, tc, hchecked, hcons, -⟩ := hhonest.backed ha hw
  obtain ⟨hhash, hcommit⟩ := constructLedgerInfo2chain_eq_ok hcons
  rcases hcommit with hempty | ⟨hci, hround⟩
  · exact absurd (hli ▸ hempty) hne
  subst hli
  obtain ⟨-, hepb⟩ := Block.verifyWellFormed_eq_ok hchecked.wellFormed
  have hvd : w.voteData = ⟨w.voteData.proposed, b.quorumCert.certifiedBlock⟩ := by
    rw [← hchecked.parent]
  have hep : w.voteData.proposed.epoch = b.epoch := hchecked.epoch
  have hvr : w.voteData.proposed.round = b.round := hchecked.round
  refine ⟨w.voteData.proposed, w.ledgerInfo, ⟨rfl, hq, ?_, ⟨?_, w.ledgerInfo, ?_, hq⟩, ?_⟩⟩
  · rw [hhash, hci, ← hvd]
  · rw [hci, hep, hepb]
  · rw [hhash, hci, ← hvd]
  · rw [hci, hvr]
    exact hround

include hhonest hcf hvp hts in
/-- **The lock of a commit.** Every certified block above `b₁` has a parent not
older than the committed block: it was safe to vote, by its certificate of the
round before or by a timeout certificate that `Certified.le_highestHqcRound`
bounds. -/
theorem TwoChain.le_parent {b₀ b₁ : BlockInfo} {li : LedgerInfo}
    (h : TwoChain env Q log b₀ b₁ li) (he : b₀.epoch = epoch) {c p : BlockInfo}
    (hcp : CertifiedLink env Q log b₀.epoch c p) (hlt : b₁.round < c.round) :
    b₀.round ≤ p.round := by
  have hhv := hhonest.honestVotes
  obtain ⟨a, ha, v, hv, hvd⟩ := hcp.2.exists_honest hhv hcf
  obtain ⟨b, now, tc, hchecked, -, hsafe, htcv⟩ := hhonest.backed ha hv
  have hp : p = b.quorumCert.certifiedBlock := by rw [← hchecked.parent, hvd]
  have hc : c.round = b.round := by
    have hvr : v.voteData.proposed.round = b.round := hchecked.round
    rw [hvd] at hvr
    exact hvr
  have h₁ := h.round
  subst hp
  rcases safeToVote_eq_ok hsafe with hqc | ⟨htcr, hhqc⟩
  · -- by its certificate, of the round just before it
    omega
  · -- by a timeout certificate of a round from `b₁`'s on
    cases tc with
    | none =>
      simp only [Option.elim] at htcr
      omega
    | some tc =>
      simp only [Option.elim] at htcr hhqc
      have hbound := h.link.2.le_highestHqcRound hhonest hcf hvp hts (h.link.1.trans he)
        (htcv tc rfl) (show b₁.round ≤ tc.round by omega)
      exact Nat.le_trans hbound hhqc

include hhonest hsig hcf hvp hts in
/-- **A commit locks its block** up to the top of its 2-chain, from round 1 on. -/
theorem TwoChain.locked {b₀ b₁ : BlockInfo} {li : LedgerInfo} (h : TwoChain env Q log b₀ b₁ li)
    (he : b₀.epoch = epoch) (h1 : 1 ≤ b₀.round) :
    Locked BlockInfo.round (CertifiedLink env Q log b₀.epoch) b₀ b₁.round ∧
      CertifiedChain.Certified (CertifiedLink env Q log b₀.epoch) b₀ := by
  have hhv := hhonest.honestVotes
  have hc₀ := h.link.parent hhv hcf hsig h1
  refine ⟨⟨extends_of_unique (certifiedLink_unique hhv hcf b₀.epoch) fun k hlo hhi => ?_,
    fun c p hcp hlt => h.le_parent hhonest hcf hvp hts he hcp hlt⟩, hc₀⟩
  -- below the top, the two blocks of the chain occupy the two rounds
  have h₁ := h.round
  by_cases hk₀ : k = b₀.round
  · exact ⟨b₀, hc₀, hk₀.symm, Extends.refl b₀⟩
  have hk₁ : k = b₁.round := by omega
  exact ⟨b₁, ⟨b₀, h.link⟩, hk₁.symm, Extends.head h.link (Extends.refl b₀)⟩

include hhonest hsig hcf hvp hts in
/-- Two blocks of the run's epoch committed by quorum-signed 2-chain ledger infos,
both of a round above 0, lie on one chain. -/
theorem commits_on_one_chain_of_twoChain {b b' : BlockInfo} (hb : Committed env Q log b)
    (hb' : Committed env Q log b') (he : b.epoch = epoch) (he' : b'.epoch = epoch)
    (h1 : 1 ≤ b.round) (h1' : 1 ≤ b'.round) : IsAncestor Q log b b' ∨ IsAncestor Q log b' b := by
  have hhv := hhonest.honestVotes
  obtain ⟨b₁, li, hchain⟩ := hb.twoChain hhonest
  obtain ⟨b₁', li', hchain'⟩ := hb'.twoChain hhonest
  obtain ⟨hlocked, hc⟩ := hchain.locked hhonest hsig hcf hvp hts he h1
  obtain ⟨hlocked', hc'⟩ := hchain'.locked hhonest hsig hcf hvp hts he' h1'
  have hep : b'.epoch = b.epoch := he'.trans he.symm
  rw [hep] at hlocked' hc'
  rcases hlocked.extends_or_extends (fun c p hl => hl.round_lt hhv hcf)
      (fun c p hl hp => hl.parent hhv hcf hsig hp) hlocked' hc hc' h1 h1' with h | h
  · exact Or.inl (Extends.isAncestor hhv hcf h)
  · exact Or.inr (Extends.isAncestor hhv hcf h)

include hhonest hsig hcf hvp hts in
/-- **2-chain commit safety.** With honest validators serving the 2-chain requests
within one epoch and byzantine ones holding less than a third of the power, two
committed blocks of the epoch, both of a round above 0, lie on one chain; and once
a quorum signed vote data of the epoch, no valid timeout certificate of a round
from its block's on reports a highest certificate older than its parent. -/
theorem two_chain_safety :
    (∀ b b', Committed env Q log b → Committed env Q log b' → b.epoch = epoch → b'.epoch = epoch →
      1 ≤ b.round → 1 ≤ b'.round → IsAncestor Q log b b' ∨ IsAncestor Q log b' b) ∧
    ∀ (vd : VoteData) (tc : TwoChainTimeoutCertificate), Certified env Q log vd →
      vd.proposed.epoch = epoch → tc.Valid env → vd.proposed.round ≤ tc.round →
      vd.parent.round ≤ tc.highestHqcRound :=
  ⟨fun _ _ hb hb' he he' h1 h1' =>
      commits_on_one_chain_of_twoChain hhonest hsig hcf hvp hts hb hb' he he' h1 h1',
    fun _ _ hcert he htc hr => hcert.le_highestHqcRound hhonest hcf hvp hts he htc hr⟩

end Run

end Dijets.Consensus

namespace Dijets.Consensus

open Dijets.Lib SafetyRules

/-! ## Two geneses in one epoch, joined by a timeout certificate

The run behind the exception of round 0 for the 2-chain protocol. The four
honest validators of power 1 of `GenesisFork` each serve the same five 2-chain
requests. The vote for `B₁` over the genesis `genesis 1` commits it at once, its
round following the genesis's. All then time out at round 1 with the genesis
certificate, and the four timeouts make a timeout certificate for round 1 whose
highest certificate is of round 0; with it, the block `C₁` at round 2 over a second
genesis `genesis 2` is safe to vote. The votes for `C₂` and `C₃` then commit `C₁`
and `C₂`, whose only older ancestor is `genesis 2`. The environment accepts
exactly the ledger infos and the timeout the validators signed. -/

namespace TimeoutFork

open GenesisFork (genesis blockInfo genesisCert cert block start validators)

/-- The vote data the four votes sign: `B₁` over `genesis 1`, and `C₁` to `C₃` over
`genesis 2`. -/
def voteDataB₁ : VoteData := ⟨blockInfo 11 1, genesis 1⟩
def voteDataC₁ : VoteData := ⟨blockInfo 21 2, genesis 2⟩
def voteDataC₂ : VoteData := ⟨blockInfo 22 3, blockInfo 21 2⟩
def voteDataC₃ : VoteData := ⟨blockInfo 23 4, blockInfo 22 3⟩

/-- A hash that tells the four vote data apart. -/
def hash (vd : VoteData) : HashValue :=
  if vd = voteDataB₁ then ⟨1⟩ else if vd = voteDataC₁ then ⟨2⟩ else if vd = voteDataC₂ then ⟨3⟩ else
  if vd = voteDataC₃ then ⟨4⟩ else ⟨0⟩

/-- The ledger infos of the four votes, by the 2-chain rule: `B₁` commits
`genesis 1`, `C₂` commits `C₁` and `C₃` commits `C₂`. -/
def ledgerInfoB₁ : LedgerInfo := ⟨genesis 1, ⟨1⟩⟩
def ledgerInfoC₁ : LedgerInfo := ⟨default, ⟨2⟩⟩
def ledgerInfoC₂ : LedgerInfo := ⟨blockInfo 21 2, ⟨3⟩⟩
def ledgerInfoC₃ : LedgerInfo := ⟨blockInfo 22 3, ⟨4⟩⟩

/-- The ledger infos the validators sign. -/
def signedLedgerInfos : List LedgerInfo := [ledgerInfoB₁, ledgerInfoC₁, ledgerInfoC₂, ledgerInfoC₃]

/-- The timeout every validator signs: round 1, with the certificate of `genesis 1`. -/
def timeout₁ : TwoChainTimeout := ⟨1, 1, genesisCert (genesis 1)⟩

/-- The four validators. -/
def members : List Author := [0, 1, 2, 3]

/-- The verifier accepts the ledger infos and the timeout the validators signed,
and counts a set of signers as enough exactly when all four are in it. -/
def env : Env :=
  { (default : Env) with
    hashVoteData := hash
    sign := fun _ _ => default
    verifySignature := fun _ _ _ => .ok ()
    validatorVerify := fun _ _ m _ => match m with
      | .timeoutSigningRepr r => if r = timeout₁.signingFormat then .ok () else .error ""
      | _ => .ok ()
    verifySignatures := fun li _ => if li.ledgerInfo ∈ signedLedgerInfos then .ok () else .error ""
    checkVotingPower := fun _ authors => if members.all (· ∈ authors) then .ok () else .error ""
    endsEpoch := fun _ => false
    hasReconfiguration := fun _ => false }

/-- The timeout certificate of the four timeouts for round 1. -/
def tc₁ : TwoChainTimeoutCertificate := ⟨timeout₁, members.map fun a => (a, 0, default)⟩

/-- The request to vote for a block with a timeout certificate, at clock reading 0. -/
def voteFor (b : Block) (tc : Option TwoChainTimeoutCertificate) :
    {i : SafetyRulesInput × ℕ // IsTwoChain i.1 = true} :=
  ⟨(.constructAndSignVoteTwoChain ⟨⟨default, b, none⟩, none⟩ tc, 0), rfl⟩

/-- The request to sign a 2-chain timeout without a timeout certificate. -/
def timeoutFor (t : TwoChainTimeout) : {i : SafetyRulesInput × ℕ // IsTwoChain i.1 = true} :=
  ⟨(.signTimeoutWithQc t none, 0), rfl⟩

/-- The five requests every validator serves. -/
def requests : List {i : SafetyRulesInput × ℕ // IsTwoChain i.1 = true} :=
  [voteFor (block 11 1 (genesisCert (genesis 1))) none, timeoutFor timeout₁,
   voteFor (block 21 2 (genesisCert (genesis 2))) (some tc₁),
   voteFor (block 22 3 (cert voteDataC₁ ledgerInfoC₁)) none,
   voteFor (block 23 4 (cert voteDataC₂ ledgerInfoC₂)) none]

/-- The in-memory storage. -/
def storage : LawfulStorage InMemoryStorage := InMemoryStorage.lawfulStorage env

/-- What each validator signed. -/
def log (_ : Author) : List Entry := (run (serve storage.backend env IsTwoChain) start requests).2

/-- The votes the four vote requests return. -/
def voteB₁ : Vote := ⟨voteDataB₁, 0, ledgerInfoB₁, default, none⟩
def voteC₁ : Vote := ⟨voteDataC₁, 0, ledgerInfoC₁, default, none⟩
def voteC₂ : Vote := ⟨voteDataC₂, 0, ledgerInfoC₂, default, none⟩
def voteC₃ : Vote := ⟨voteDataC₃, 0, ledgerInfoC₃, default, none⟩

def votes : List Vote := [voteB₁, voteC₁, voteC₂, voteC₃]

/-- The run, evaluated: the votes and the timeout each request returns. -/
theorem log_signed (a : Author) :
    (log a).map (fun e => (voteOf e.2, timeoutOf e)) =
      [(some voteB₁, none), (none, some timeout₁), (some voteC₁, none), (some voteC₂, none),
        (some voteC₃, none)] := by
  rfl

theorem voteIn_log {a : Author} {v : Vote} : VoteIn (log a) v ↔ v ∈ votes := by
  have hmap : (log a).map (voteOf ∘ Prod.snd) = ((log a).map fun e => (voteOf e.2, timeoutOf e)).map Prod.fst := by
    simp [List.map_map, Function.comp_def]
  have h : some v ∈ (log a).map (voteOf ∘ Prod.snd) ↔ v ∈ votes := by
    rw [hmap, log_signed]
    simp [votes]
  rw [← h]
  constructor
  · rintro ⟨e, he, hv⟩
    exact List.mem_map.mpr ⟨e, he, hv⟩
  · intro hm
    obtain ⟨e, he, hev⟩ := List.mem_map.mp hm
    exact ⟨e, he, hev⟩

theorem timeoutIn_log {a : Author} {t : TwoChainTimeout} : TimeoutIn (log a) t ↔ t = timeout₁ := by
  have hmap : (log a).map timeoutOf = ((log a).map fun e => (voteOf e.2, timeoutOf e)).map Prod.snd := by
    simp [List.map_map, Function.comp_def]
  have h : some t ∈ (log a).map timeoutOf ↔ t = timeout₁ := by
    rw [hmap, log_signed]
    simp
  rw [← h]
  constructor
  · rintro ⟨e, he, ht⟩
    exact List.mem_map.mpr ⟨e, he, ht⟩
  · intro hm
    obtain ⟨e, he, het⟩ := List.mem_map.mp hm
    exact ⟨e, he, het⟩

theorem honest2 : Honest2 storage env validators log 1 := by
  intro a _
  have hstart : Fresh storage.view start ∧ (stored storage.view start).epoch = 1 :=
    ⟨⟨initialized_consistent env 0 default default default true, rfl⟩, rfl⟩
  -- the run starts from a predicate that is not a constant, so it is given explicitly
  exact ⟨_, @reachable_run _ _ _ (fun s => Fresh storage.view s ∧ (stored storage.view s).epoch = 1)
    (serve storage.backend env IsTwoChain) start hstart requests, rfl⟩

/-- Every validator signed the ledger info of every vote. -/
theorem quorumSigned_of_mem (v : Vote) (hv : v ∈ votes) : QuorumSigned validators log v.ledgerInfo :=
  QuorumSystem.isQuorum_of_forall (by decide) fun _ _ => Or.inr ⟨v, Iff.mpr voteIn_log hv, rfl⟩

theorem signaturesSound : SignaturesSound env validators log := by
  intro li validator h
  have hmem : li.ledgerInfo ∈ votes.map Vote.ledgerInfo := by
    by_contra hnot
    simp only [env, show signedLedgerInfos = votes.map Vote.ledgerInfo from rfl, hnot,
      ↓reduceIte, reduceCtorEq] at h
  obtain ⟨v, hv, hli⟩ := List.mem_map.mp hmem
  exact hli ▸ quorumSigned_of_mem v hv

theorem collisionFree : CollisionFree env validators log := by
  intro vd a v _ hv h
  have hv' := Iff.mp voteIn_log hv
  simp only [votes, List.mem_cons, List.not_mem_nil, or_false] at hv'
  rcases hv' with rfl | rfl | rfl | rfl <;>
    simp only [env, hash, voteB₁, voteC₁, voteC₂, voteC₃] at h ⊢ <;>
    split_ifs at h <;> simp_all

theorem votingPowerSound : VotingPowerSound env validators := by
  intro verifier authors h
  have hall : members.all (· ∈ authors) = true := by
    by_contra hnot
    simp only [env, hnot, ↓reduceIte, reduceCtorEq] at h
  refine QuorumSystem.isQuorum_of_forall (by decide) fun a ha => ?_
  have hm : a ∈ members := by
    simp only [validators, Finset.mem_insert, Finset.mem_singleton] at ha
    simp [members, ha]
  simpa using List.all_eq_true.mp hall a hm

theorem timeoutSignaturesSound : TimeoutSignaturesSound env validators log := by
  intro verifier a r signature _ h
  have hr : r = timeout₁.signingFormat := by
    by_contra hnot
    simp only [env, hnot, ↓reduceIte, reduceCtorEq] at h
  exact ⟨timeout₁, Iff.mpr timeoutIn_log rfl, hr.symm⟩

/-- An honest validator voted exactly for the four vote data. -/
theorem parentOf_iff {c p : BlockInfo} :
    ParentOf validators log c p ↔ (⟨c, p⟩ : VoteData) ∈ votes.map Vote.voteData := by
  constructor
  · rintro ⟨a, -, v, hv, hvd⟩
    exact List.mem_map.mpr ⟨v, Iff.mp voteIn_log hv, hvd⟩
  · intro h
    obtain ⟨v, hv, hvd⟩ := List.mem_map.mp h
    exact ⟨0, ⟨by decide, by simp [validators]⟩, v, Iff.mpr voteIn_log hv, hvd⟩

theorem committed_genesis : Committed env validators log (genesis 1) :=
  ⟨by decide, ledgerInfoB₁, rfl, quorumSigned_of_mem voteB₁ (by simp [votes])⟩

theorem committed_C₁ : Committed env validators log (blockInfo 21 2) :=
  ⟨by decide, ledgerInfoC₂, rfl, quorumSigned_of_mem voteC₂ (by simp [votes])⟩

theorem committed_C₂ : Committed env validators log (blockInfo 22 3) :=
  ⟨by decide, ledgerInfoC₃, rfl, quorumSigned_of_mem voteC₃ (by simp [votes])⟩

theorem certified_B₁ : Certified env validators log voteDataB₁ :=
  ⟨ledgerInfoB₁, rfl, quorumSigned_of_mem voteB₁ (by simp [votes])⟩

theorem tc₁_valid : tc₁.Valid env := ⟨default, rfl⟩

/-- The ancestors of `C₁` are `C₁` and the second genesis. -/
theorem ancestors_C₁ {b : BlockInfo} (h : IsAncestor validators log b (blockInfo 21 2)) :
    b = blockInfo 21 2 ∨ b = genesis 2 := by
  have hS : ∀ c p, (c = blockInfo 21 2 ∨ c = genesis 2) → ParentOf validators log c p →
      p = blockInfo 21 2 ∨ p = genesis 2 := by
    intro c p hc hp
    rw [parentOf_iff] at hp
    rcases hc with rfl | rfl <;> simp_all [votes, voteB₁, voteC₁, voteC₂, voteC₃, voteDataB₁,
      voteDataC₁, voteDataC₂, voteDataC₃, blockInfo, genesis]
  exact IsAncestor.of_closed hS h (Or.inl rfl)

/-- The first genesis has no ancestor but itself. -/
theorem ancestors_genesis {b : BlockInfo} (h : IsAncestor validators log b (genesis 1)) :
    b = genesis 1 := by
  have hS : ∀ c p, c = genesis 1 → ParentOf validators log c p → p = genesis 1 := by
    intro c p hc hp
    rw [parentOf_iff] at hp
    subst hc
    simp_all [votes, voteB₁, voteC₁, voteC₂, voteC₃, voteDataB₁, voteDataC₁, voteDataC₂, voteDataC₃,
      blockInfo, genesis]
  exact IsAncestor.of_closed hS h rfl

end TimeoutFork

open GenesisFork (genesis blockInfo validators) in
open TimeoutFork in
/-- **Two conflicting 2-chain commits in one epoch.** In a run of four honest
validators within epoch 1, under every hypothesis of `two_chain_safety`, the genesis
`genesis 1` and the block `C₁` built on the second genesis through a timeout
certificate are both committed by quorum-signed ledger infos, and neither is an
ancestor of the other. -/
theorem timeout_fork :
    Honest2 storage env validators log 1 ∧ SignaturesSound env validators log ∧
      CollisionFree env validators log ∧ VotingPowerSound env validators ∧
      TimeoutSignaturesSound env validators log ∧
      Committed env validators log (genesis 1) ∧ Committed env validators log (blockInfo 21 2) ∧
      (genesis 1).epoch = 1 ∧ (blockInfo 21 2).epoch = 1 ∧
      ¬ IsAncestor validators log (genesis 1) (blockInfo 21 2) ∧
      ¬ IsAncestor validators log (blockInfo 21 2) (genesis 1) := by
  refine ⟨honest2, signaturesSound, collisionFree, votingPowerSound, timeoutSignaturesSound,
    committed_genesis, committed_C₁, rfl, rfl, ?_, ?_⟩
  · intro h
    rcases ancestors_C₁ h with h | h <;> exact absurd h (by decide)
  · intro h
    exact absurd (ancestors_genesis h) (by decide)

open GenesisFork (genesis blockInfo validators) in
open TimeoutFork in
/-- In the same run, the two commits `C₁` and `C₂`, both above round 0, lie on one
chain, and the timeout certificate for round 1 reports a highest certificate not
older than the parent of the certified `B₁`. -/
theorem two_chain_safety_timeoutFork :
    (IsAncestor validators log (blockInfo 21 2) (blockInfo 22 3) ∨
      IsAncestor validators log (blockInfo 22 3) (blockInfo 21 2)) ∧
      voteDataB₁.parent.round ≤ tc₁.highestHqcRound :=
  ⟨(two_chain_safety honest2 signaturesSound collisionFree votingPowerSound timeoutSignaturesSound).1
      _ _ committed_C₁ committed_C₂ rfl rfl (by decide) (by decide),
    (two_chain_safety honest2 signaturesSound collisionFree votingPowerSound timeoutSignaturesSound).2
      voteDataB₁ tc₁ certified_B₁ rfl tc₁_valid (by decide)⟩

end Dijets.Consensus
