import Mathlib.Data.Nat.Basic
import Dijets.Consensus.Types
import Dijets.Lib.Run
import Dijets.Lib.SortedMap

/-!
# Aggregating the votes of a round

`PendingVotes` collects the votes of one round. It remembers each author's vote
(`author_to_vote`), files the vote signatures under the digest of the ledger info
voted for (`li_digest_to_votes`), and gathers the timeout signatures some votes
carry into a partial timeout certificate. `insert_vote` answers a vote with a
quorum certificate when the signatures for its ledger info reach a quorum, with a
timeout certificate when the timeout signatures do, and otherwise with the voting
power gathered so far or the reason the vote was turned away.

An equivocating author is never counted twice. The state keeps `Invariant`:
every signature filed under a digest is an author's whose recorded vote is for a
ledger info of that digest, and every signer of the partial timeout certificate
has a recorded vote that carries a timeout signature. A recorded vote only ever
gives way to the same vote newly carrying a timeout signature (`Records`), so
every certificate returned over a run is signed by distinct authors whose
recorded votes, at the end of the run, still vouch for it
(`insertVote_attributed`).

The maps are `SortedMap`s. `li_digest_to_votes` and `author_to_vote` are hash
maps in the source; `insert_vote` only looks them up and inserts into them, so
their iteration order does not matter. The digest of a ledger info, the voting power
check of the validator verifier and `LedgerInfoWithSignatures::add_signature`, all three
of crates outside this source tree, are parameters; of `add_signature` the theorems
assume its `or_insert` (`AddSignatureSpec`).

## Main definitions

* `PendingVotes.insertVote` — `PendingVotes::insert_vote`, through its steps
  `previouslySeen`, `storeVote` and `addTimeoutSignature`.
* `PendingVotes.Invariant` — what every state reachable by votes keeps.
* `PendingVotes.Attributed` — what an answer promises about the recorded votes.
-/

set_option autoImplicit false

namespace Dijets.Consensus

open Dijets.Lib

/-- Digests are ordered by their value, so that they can key a sorted map. -/
instance : LinearOrder HashValue :=
  LinearOrder.lift' HashValue.val fun a b h => by cases a; cases b; cases h; rfl

/-- Digests print as their value in error texts. -/
instance : ToString HashValue := ⟨fun h => toString h.val⟩

/-- `VerifyError` of `ValidatorVerifier::check_voting_power`, which lives outside
this source tree: `insert_vote` tells apart only a shortfall of voting power. -/
inductive VerifyError where
  | tooLittleVotingPower (votingPower expectedVotingPower : ℕ)
  | other
deriving DecidableEq, Repr

/-- A timeout certificate of the 3-chain protocol: the timeout and each signer's
signature on it. -/
structure TimeoutCertificate where
  timeout : Timeout
  signatures : List (Author × Ed25519Signature)
deriving DecidableEq, Repr, Inhabited

namespace TimeoutCertificate

/-- `TimeoutCertificate::new`. -/
def new (timeout : Timeout) : TimeoutCertificate := { timeout, signatures := [] }

/-- `TimeoutCertificate::add_signature`: an author's first signature stays. -/
def addSignature (tc : TimeoutCertificate) (author : Author) (signature : Ed25519Signature) :
    TimeoutCertificate :=
  { tc with signatures := SortedMap.orInsert author signature tc.signatures }

end TimeoutCertificate

/-- The contract of `LedgerInfoWithSignatures::add_signature`, of the types crate
outside this source tree: it keeps the ledger info and, like
`TimeoutCertificate::add_signature`, puts the signature in with
`signatures.entry(author).or_insert(signature)`, so that an author's first signature
stays. -/
structure AddSignatureSpec
    (addSignature : LedgerInfoWithSignatures → Author → Ed25519Signature →
      LedgerInfoWithSignatures) : Prop where
  ledgerInfo : ∀ li author signature, (addSignature li author signature).ledgerInfo = li.ledgerInfo
  signatures : ∀ li author signature,
    (addSignature li author signature).signatures = SortedMap.orInsert author signature li.signatures

/-- An `add_signature` that meets the contract, to run votes through. -/
def orInsertSignature (li : LedgerInfoWithSignatures) (author : Author)
    (signature : Ed25519Signature) : LedgerInfoWithSignatures :=
  { li with signatures := SortedMap.orInsert author signature li.signatures }

theorem orInsertSignature_spec : AddSignatureSpec orInsertSignature :=
  ⟨fun _ _ _ => rfl, fun _ _ _ => rfl⟩

namespace Vote

/-- `Vote::timeout`: the epoch and round of the proposed block. -/
def timeout (v : Vote) : Timeout :=
  { epoch := v.voteData.proposed.epoch, round := v.voteData.proposed.round }

/-- `Vote::is_timeout`: the vote carries a timeout signature. -/
def isTimeout (v : Vote) : Bool := v.timeoutSignature.isSome

end Vote

/-- `VoteReceptionResult`: how a vote was received. -/
inductive VoteReceptionResult where
  | voteAdded (votingPower : ℕ)
  | duplicateVote
  | equivocateVote
  | newQuorumCertificate (qc : QuorumCert)
  | newTimeoutCertificate (tc : TimeoutCertificate)
  | errorAddingVote (error : VerifyError)
  | unexpectedRound (round currentRound : ℕ)
deriving DecidableEq, Repr

/-- `PendingVotes`: the votes of one round. -/
structure PendingVotes where
  liDigestToVotes : List (HashValue × LedgerInfoWithSignatures)
  maybePartialTc : Option TimeoutCertificate
  authorToVote : List (Author × Vote)
deriving DecidableEq, Repr

namespace PendingVotes

/-- `PendingVotes::new`. -/
def new : PendingVotes := { liDigestToVotes := [], maybePartialTc := none, authorToVote := [] }

variable (hash : LedgerInfo → HashValue)

/-- Step 1 of `insert_vote`: the answer to an author that has voted in this round
before, unless this is the same vote now carrying a timeout signature. -/
def previouslySeen (pv : PendingVotes) (vote : Vote) : Option VoteReceptionResult :=
  match SortedMap.get? vote.author pv.authorToVote with
  | none => none
  | some previouslySeenVote =>
    if hash vote.ledgerInfo = hash previouslySeenVote.ledgerInfo then
      let newTimeoutVote := vote.isTimeout && !previouslySeenVote.isTimeout
      if !newTimeoutVote then some .duplicateVote else none
    else some .equivocateVote

/-- The signatures filed under a vote's digest, or none yet for its ledger info:
what `li_digest_to_votes.entry(li_digest).or_insert_with(..)` finds. -/
def entryFor (pv : PendingVotes) (vote : Vote) : LedgerInfoWithSignatures :=
  (SortedMap.get? (hash vote.ledgerInfo) pv.liDigestToVotes).getD
    { ledgerInfo := vote.ledgerInfo, signatures := [] }

variable (addSignature : LedgerInfoWithSignatures → Author → Ed25519Signature →
  LedgerInfoWithSignatures)

/-- Steps 2 and 3: record the vote, and add its signature to those for its ledger
info. -/
def storeVote (pv : PendingVotes) (vote : Vote) : PendingVotes × LedgerInfoWithSignatures :=
  let liDigest := hash vote.ledgerInfo
  let liWithSig := addSignature (entryFor hash pv vote) vote.author vote.signature
  ({ pv with
      authorToVote := SortedMap.insert vote.author vote pv.authorToVote
      liDigestToVotes := SortedMap.insert liDigest liWithSig pv.liDigestToVotes }, liWithSig)

/-- Step 4: add a timeout signature to the partial timeout certificate, created
on the first one. -/
def addTimeoutSignature (pv : PendingVotes) (vote : Vote) (timeoutSignature : Ed25519Signature) :
    PendingVotes × TimeoutCertificate :=
  let partialTc := (pv.maybePartialTc.getD (TimeoutCertificate.new vote.timeout)).addSignature
    vote.author timeoutSignature
  ({ pv with maybePartialTc := some partialTc }, partialTc)

variable (checkVotingPower : ValidatorVerifier → List Author → Except VerifyError Unit)

/-- `PendingVotes::insert_vote`: a quorum certificate in preference to a timeout
certificate, when either can be formed. -/
def insertVote (pv : PendingVotes) (vote : Vote) (validatorVerifier : ValidatorVerifier) :
    PendingVotes × VoteReceptionResult :=
  match previouslySeen hash pv vote with
  | some result => (pv, result)
  | none =>
    let stored := storeVote hash addSignature pv vote
    match checkVotingPower validatorVerifier (stored.2.signatures.map (·.1)) with
    | .ok () =>
      (stored.1, .newQuorumCertificate { voteData := vote.voteData, signedLedgerInfo := stored.2 })
    | .error (.tooLittleVotingPower votingPower _) =>
      match vote.timeoutSignature with
      | none => (stored.1, .voteAdded votingPower)
      | some timeoutSignature =>
        let added := addTimeoutSignature stored.1 vote timeoutSignature
        match checkVotingPower validatorVerifier (added.2.signatures.map (·.1)) with
        | .ok () => (added.1, .newTimeoutCertificate added.2)
        | .error (.tooLittleVotingPower _ _) => (added.1, .voteAdded votingPower)
        | .error error => (added.1, .errorAddingVote error)
    | .error error => (stored.1, .errorAddingVote error)

/-- The votes of a round arriving one at a time, each with the validator verifier
to count it against. -/
def step (pv : PendingVotes) (input : Vote × ValidatorVerifier) :
    PendingVotes × VoteReceptionResult :=
  pv.insertVote hash addSignature checkVotingPower input.1 input.2

/-- Every vote `pv` records is recorded in `pv'` by a vote for a ledger info of
the same digest, carrying a timeout signature if it did. -/
def Records (pv pv' : PendingVotes) : Prop :=
  ∀ x ∈ pv.authorToVote, ∃ v, (x.1, v) ∈ pv'.authorToVote ∧
    hash v.ledgerInfo = hash x.2.ledgerInfo ∧ (x.2.isTimeout → v.isTimeout)

/-- What every state reachable by votes keeps. -/
structure Invariant (pv : PendingVotes) : Prop where
  authorToVote_sorted : SortedMap.Sorted pv.authorToVote
  liDigestToVotes_sorted : SortedMap.Sorted pv.liDigestToVotes
  signatures_sorted : ∀ x ∈ pv.liDigestToVotes, SortedMap.Sorted x.2.signatures
  partialTc_sorted : ∀ tc, pv.maybePartialTc = some tc → SortedMap.Sorted tc.signatures
  /-- An author's recorded vote is its own. -/
  own : ∀ x ∈ pv.authorToVote, x.2.author = x.1
  /-- Signatures are filed under the digest of their ledger info. -/
  digest : ∀ x ∈ pv.liDigestToVotes, hash x.2.ledgerInfo = x.1
  /-- A signature filed under a digest is an author's whose recorded vote has that
  digest. -/
  voters : ∀ x ∈ pv.liDigestToVotes, ∀ y ∈ x.2.signatures,
    ∃ v, (y.1, v) ∈ pv.authorToVote ∧ hash v.ledgerInfo = x.1
  /-- A signer of the partial timeout certificate has a recorded timeout vote. -/
  timeoutVoters : ∀ tc, pv.maybePartialTc = some tc → ∀ y ∈ tc.signatures,
    ∃ v, (y.1, v) ∈ pv.authorToVote ∧ v.isTimeout

/-- What an answer promises about the votes a state records: a new quorum
certificate is signed by distinct authors, each with a recorded vote for a ledger
info of the certificate's digest; a new timeout certificate by distinct authors,
each with a recorded timeout vote. -/
def Attributed (pv : PendingVotes) : VoteReceptionResult → Prop
  | .newQuorumCertificate qc =>
    (qc.signedLedgerInfo.signatures.map (·.1)).Nodup ∧
      ∀ y ∈ qc.signedLedgerInfo.signatures, ∃ v, SortedMap.get? y.1 pv.authorToVote = some v ∧
        hash v.ledgerInfo = hash qc.signedLedgerInfo.ledgerInfo
  | .newTimeoutCertificate tc =>
    (tc.signatures.map (·.1)).Nodup ∧
      ∀ y ∈ tc.signatures, ∃ v, SortedMap.get? y.1 pv.authorToVote = some v ∧ v.isTimeout
  | _ => True

/-! ## The state of each step -/

section Steps

variable {hash addSignature}

@[simp] theorem storeVote_authorToVote (pv : PendingVotes) (vote : Vote) :
    (storeVote hash addSignature pv vote).1.authorToVote =
      SortedMap.insert vote.author vote pv.authorToVote := rfl

@[simp] theorem storeVote_liDigestToVotes (pv : PendingVotes) (vote : Vote) :
    (storeVote hash addSignature pv vote).1.liDigestToVotes =
      SortedMap.insert (hash vote.ledgerInfo) (storeVote hash addSignature pv vote).2
        pv.liDigestToVotes := rfl

@[simp] theorem storeVote_maybePartialTc (pv : PendingVotes) (vote : Vote) :
    (storeVote hash addSignature pv vote).1.maybePartialTc = pv.maybePartialTc := rfl

@[simp] theorem storeVote_snd (pv : PendingVotes) (vote : Vote) :
    (storeVote hash addSignature pv vote).2 =
      addSignature (entryFor hash pv vote) vote.author vote.signature := rfl

@[simp] theorem addTimeoutSignature_authorToVote (pv : PendingVotes) (vote : Vote)
    (timeoutSignature : Ed25519Signature) :
    (addTimeoutSignature pv vote timeoutSignature).1.authorToVote = pv.authorToVote := rfl

@[simp] theorem addTimeoutSignature_maybePartialTc (pv : PendingVotes) (vote : Vote)
    (timeoutSignature : Ed25519Signature) :
    (addTimeoutSignature pv vote timeoutSignature).1.maybePartialTc =
      some (addTimeoutSignature pv vote timeoutSignature).2 := rfl

@[simp] theorem addTimeoutSignature_snd (pv : PendingVotes) (vote : Vote)
    (timeoutSignature : Ed25519Signature) :
    (addTimeoutSignature pv vote timeoutSignature).2 =
      (pv.maybePartialTc.getD (TimeoutCertificate.new vote.timeout)).addSignature
        vote.author timeoutSignature := rfl

/-- Step 1 answers only duplicates and equivocations. -/
theorem previouslySeen_eq_some {pv : PendingVotes} {vote : Vote} {result : VoteReceptionResult}
    (h : previouslySeen hash pv vote = some result) :
    result = .duplicateVote ∨ result = .equivocateVote := by
  unfold previouslySeen at h
  split at h
  · cases h
  · split_ifs at h <;> simp_all

/-- An author passes step 1 only with a first vote, or with the vote it sent
before, then without and now with a timeout signature. -/
theorem previouslySeen_eq_none {pv : PendingVotes} {vote : Vote}
    (h : previouslySeen hash pv vote = none) {prev : Vote}
    (hprev : SortedMap.get? vote.author pv.authorToVote = some prev) :
    hash prev.ledgerInfo = hash vote.ledgerInfo ∧ prev.timeoutSignature = none ∧
      vote.timeoutSignature.isSome := by
  simp only [previouslySeen, hprev] at h
  split_ifs at h with hdigest hnew
  -- what is left: the same digest, and a vote newly carrying a timeout signature
  simp [Vote.isTimeout] at hnew
  exact ⟨hdigest.symm, hnew.2, Option.isSome_iff_ne_none.mpr hnew.1⟩

end Steps

/-! ## One vote -/

section Invariant

variable {hash addSignature}

theorem invariant_new : Invariant hash new where
  authorToVote_sorted := SortedMap.sorted_nil
  liDigestToVotes_sorted := SortedMap.sorted_nil
  signatures_sorted := by simp [new]
  partialTc_sorted := by simp [new]
  own := by simp [new]
  digest := by simp [new]
  voters := by simp [new]
  timeoutVoters := by simp [new]

theorem Records.refl (pv : PendingVotes) : Records hash pv pv :=
  fun x hx => ⟨x.2, hx, rfl, id⟩

theorem Records.trans {pv pv' pv'' : PendingVotes} (h : Records hash pv pv')
    (h' : Records hash pv' pv'') : Records hash pv pv'' := by
  intro x hx
  obtain ⟨v, hv, hd, ht⟩ := h x hx
  obtain ⟨v', hv', hd', ht'⟩ := h' (x.1, v) hv
  exact ⟨v', hv', hd'.trans hd, ht' ∘ ht⟩

variable {pv : PendingVotes}

/-- The signatures a vote joins are sorted, for a ledger info of its digest, and
every one of them is an author's with a recorded vote of that digest. -/
theorem Invariant.entryFor (h : Invariant hash pv) (vote : Vote) :
    SortedMap.Sorted (entryFor hash pv vote).signatures ∧
      hash (entryFor hash pv vote).ledgerInfo = hash vote.ledgerInfo ∧
      ∀ y ∈ (entryFor hash pv vote).signatures,
        ∃ v, (y.1, v) ∈ pv.authorToVote ∧ hash v.ledgerInfo = hash vote.ledgerInfo := by
  unfold PendingVotes.entryFor
  cases hget : SortedMap.get? (hash vote.ledgerInfo) pv.liDigestToVotes with
  | none => simp [SortedMap.sorted_nil]
  | some li =>
    have hmem := (SortedMap.get?_eq_some_iff h.liDigestToVotes_sorted).mp hget
    exact ⟨h.signatures_sorted _ hmem, h.digest _ hmem, h.voters _ hmem⟩

/-- The timeout signatures a vote joins are sorted, and each is an author's with a
recorded timeout vote. -/
theorem Invariant.partialTc (h : Invariant hash pv) (vote : Vote) :
    SortedMap.Sorted (pv.maybePartialTc.getD (TimeoutCertificate.new vote.timeout)).signatures ∧
      ∀ y ∈ (pv.maybePartialTc.getD (TimeoutCertificate.new vote.timeout)).signatures,
        ∃ v, (y.1, v) ∈ pv.authorToVote ∧ v.isTimeout := by
  cases htc : pv.maybePartialTc with
  | none => simp [TimeoutCertificate.new, SortedMap.sorted_nil]
  | some tc => exact ⟨h.partialTc_sorted tc htc, h.timeoutVoters tc htc⟩

/-- Storing a vote that passed step 1 keeps every recorded vote: the author's
earlier vote, if any, gives way to this one, of the same digest. -/
theorem records_storeVote (h : Invariant hash pv) {vote : Vote}
    (hseen : previouslySeen hash pv vote = none) :
    Records hash pv (storeVote hash addSignature pv vote).1 := by
  intro x hx
  rw [storeVote_authorToVote]
  by_cases hx' : x.1 = vote.author
  · have hmem : (vote.author, x.2) ∈ pv.authorToVote := by
      rw [← hx']
      exact hx
    have hget := (SortedMap.get?_eq_some_iff h.authorToVote_sorted).mpr hmem
    obtain ⟨hd, hts, -⟩ := previouslySeen_eq_none hseen hget
    refine ⟨vote, ?_, hd.symm, ?_⟩
    · rw [SortedMap.mem_insert h.authorToVote_sorted, hx']
      exact Or.inl rfl
    · simp [Vote.isTimeout, hts]
  · refine ⟨x.2, ?_, rfl, id⟩
    rw [SortedMap.mem_insert h.authorToVote_sorted]
    exact Or.inr ⟨hx, hx'⟩

theorem Invariant.storeVote (hadd : AddSignatureSpec addSignature) (h : Invariant hash pv)
    {vote : Vote} (hseen : previouslySeen hash pv vote = none) :
    Invariant hash (storeVote hash addSignature pv vote).1 := by
  have hrec : Records hash pv (PendingVotes.storeVote hash addSignature pv vote).1 :=
    records_storeVote h hseen
  obtain ⟨hsorted, hdigest, hvoters⟩ := h.entryFor vote
  have hauthor : ∀ x, x ∈ (PendingVotes.storeVote hash addSignature pv vote).1.authorToVote ↔
      x = (vote.author, vote) ∨ (x ∈ pv.authorToVote ∧ x.1 ≠ vote.author) := fun x => by
    rw [storeVote_authorToVote, SortedMap.mem_insert h.authorToVote_sorted]
  have hli : ∀ x, x ∈ (PendingVotes.storeVote hash addSignature pv vote).1.liDigestToVotes ↔
      x = (hash vote.ledgerInfo, (PendingVotes.storeVote hash addSignature pv vote).2) ∨
        (x ∈ pv.liDigestToVotes ∧ x.1 ≠ hash vote.ledgerInfo) := fun x => by
    rw [storeVote_liDigestToVotes, SortedMap.mem_insert h.liDigestToVotes_sorted]
  -- what `add_signature` leaves: the entry's ledger info, and the signature or-inserted
  have hsig : (PendingVotes.storeVote hash addSignature pv vote).2.signatures =
      SortedMap.orInsert vote.author vote.signature (PendingVotes.entryFor hash pv vote).signatures :=
    hadd.signatures _ _ _
  have hledger : (PendingVotes.storeVote hash addSignature pv vote).2.ledgerInfo =
      (PendingVotes.entryFor hash pv vote).ledgerInfo := hadd.ledgerInfo _ _ _
  refine ⟨SortedMap.sorted_insert h.authorToVote_sorted,
    SortedMap.sorted_insert h.liDigestToVotes_sorted, ?_, h.partialTc_sorted, ?_, ?_, ?_, ?_⟩
  · intro x hx
    rcases (hli x).mp hx with rfl | ⟨hx, -⟩
    · rw [hsig]
      exact SortedMap.sorted_orInsert hsorted
    · exact h.signatures_sorted x hx
  · intro x hx
    rcases (hauthor x).mp hx with rfl | ⟨hx, -⟩
    · rfl
    · exact h.own x hx
  · intro x hx
    rcases (hli x).mp hx with rfl | ⟨hx, -⟩
    · rw [hledger]
      exact hdigest
    · exact h.digest x hx
  · intro x hx y hy
    rcases (hli x).mp hx with rfl | ⟨hx, -⟩
    · -- the new signature is the author's, whose recorded vote is now this one
      rw [hsig] at hy
      rcases SortedMap.mem_of_mem_orInsert hy with rfl | hy
      · exact ⟨vote, (hauthor _).mpr (Or.inl rfl), rfl⟩
      · obtain ⟨v, hv, hd⟩ := hvoters y hy
        obtain ⟨v', hv', hd', -⟩ := hrec (y.1, v) hv
        exact ⟨v', hv', hd'.trans hd⟩
    · obtain ⟨v, hv, hd⟩ := h.voters x hx y hy
      obtain ⟨v', hv', hd', -⟩ := hrec (y.1, v) hv
      exact ⟨v', hv', hd'.trans hd⟩
  · intro tc htc y hy
    obtain ⟨v, hv, ht⟩ := h.timeoutVoters tc htc y hy
    obtain ⟨v', hv', -, ht'⟩ := hrec (y.1, v) hv
    exact ⟨v', hv', ht' ht⟩

theorem Invariant.addTimeoutSignature (h : Invariant hash pv) {vote : Vote}
    {timeoutSignature : Ed25519Signature} (hvote : (vote.author, vote) ∈ pv.authorToVote)
    (hts : vote.timeoutSignature = some timeoutSignature) :
    Invariant hash (addTimeoutSignature pv vote timeoutSignature).1 := by
  obtain ⟨hsorted, hvoters⟩ := h.partialTc vote
  refine ⟨h.authorToVote_sorted, h.liDigestToVotes_sorted, h.signatures_sorted, ?_, h.own,
    h.digest, h.voters, ?_⟩
  · intro tc htc
    rw [addTimeoutSignature_maybePartialTc, Option.some.injEq] at htc
    subst htc
    exact SortedMap.sorted_orInsert hsorted
  · intro tc htc y hy
    rw [addTimeoutSignature_maybePartialTc, Option.some.injEq] at htc
    subst htc
    rcases SortedMap.mem_of_mem_orInsert hy with rfl | hy
    · exact ⟨vote, hvote, by simp [Vote.isTimeout, hts]⟩
    · exact hvoters y hy

/-- A stored set of signatures, answered as a quorum certificate, is attributed. -/
theorem Invariant.attributed_qc (h : Invariant hash pv) {d : HashValue}
    {li : LedgerInfoWithSignatures} (hli : (d, li) ∈ pv.liDigestToVotes) (voteData : VoteData) :
    Attributed hash pv (.newQuorumCertificate { voteData, signedLedgerInfo := li }) := by
  refine ⟨(h.signatures_sorted _ hli).nodup_keys, fun y hy => ?_⟩
  obtain ⟨v, hv, hd⟩ := h.voters _ hli y hy
  exact ⟨v, (SortedMap.get?_eq_some_iff h.authorToVote_sorted).mpr hv, hd.trans (h.digest _ hli).symm⟩

/-- The partial timeout certificate, answered, is attributed. -/
theorem Invariant.attributed_tc (h : Invariant hash pv) {tc : TimeoutCertificate}
    (htc : pv.maybePartialTc = some tc) : Attributed hash pv (.newTimeoutCertificate tc) := by
  refine ⟨(h.partialTc_sorted tc htc).nodup_keys, fun y hy => ?_⟩
  obtain ⟨v, hv, ht⟩ := h.timeoutVoters tc htc y hy
  exact ⟨v, (SortedMap.get?_eq_some_iff h.authorToVote_sorted).mpr hv, ht⟩

/-- An answer stays attributed while the votes it rests on stay recorded. -/
theorem Attributed.of_records {pv' : PendingVotes} (h : Invariant hash pv) (h' : Invariant hash pv')
    (hrec : Records hash pv pv') {result : VoteReceptionResult} (hr : Attributed hash pv result) :
    Attributed hash pv' result := by
  cases result <;> try trivial
  case newQuorumCertificate qc =>
    refine ⟨hr.1, fun y hy => ?_⟩
    obtain ⟨v, hv, hd⟩ := hr.2 y hy
    obtain ⟨v', hv', hd', -⟩ := hrec (y.1, v) ((SortedMap.get?_eq_some_iff h.authorToVote_sorted).mp hv)
    exact ⟨v', (SortedMap.get?_eq_some_iff h'.authorToVote_sorted).mpr hv', hd'.trans hd⟩
  case newTimeoutCertificate tc =>
    refine ⟨hr.1, fun y hy => ?_⟩
    obtain ⟨v, hv, ht⟩ := hr.2 y hy
    obtain ⟨v', hv', -, ht'⟩ := hrec (y.1, v) ((SortedMap.get?_eq_some_iff h.authorToVote_sorted).mp hv)
    exact ⟨v', (SortedMap.get?_eq_some_iff h'.authorToVote_sorted).mpr hv', ht' ht⟩

variable {checkVotingPower}

/-- **One vote.** `insert_vote` keeps the invariant and every recorded vote, and
answers only with certificates that its new state attributes. -/
theorem insertVote_spec (hadd : AddSignatureSpec addSignature) (h : Invariant hash pv) {vote : Vote}
    {validatorVerifier : ValidatorVerifier} {next : PendingVotes × VoteReceptionResult}
    (hnext : insertVote hash addSignature checkVotingPower pv vote validatorVerifier = next) :
    Invariant hash next.1 ∧ Records hash pv next.1 ∧ Attributed hash next.1 next.2 := by
  unfold insertVote at hnext
  dsimp only at hnext
  split at hnext
  · -- step 1 turned the vote away, and nothing changed
    rename_i result hseen
    subst hnext
    refine ⟨h, Records.refl pv, ?_⟩
    rcases previouslySeen_eq_some hseen with rfl | rfl <;> trivial
  · rename_i hseen
    have hs := h.storeVote hadd hseen
    have hrec : Records hash pv (storeVote hash addSignature pv vote).1 := records_storeVote h hseen
    have hmem : (hash vote.ledgerInfo, (storeVote hash addSignature pv vote).2) ∈
        (storeVote hash addSignature pv vote).1.liDigestToVotes := by
      rw [storeVote_liDigestToVotes, SortedMap.mem_insert h.liDigestToVotes_sorted]
      exact Or.inl rfl
    split at hnext
    · subst hnext
      exact ⟨hs, hrec, hs.attributed_qc hmem _⟩
    · split at hnext
      · subst hnext
        exact ⟨hs, hrec, trivial⟩
      · -- a timeout vote below a quorum of votes goes on to step 4
        rename_i timeoutSignature hts
        have hvote : (vote.author, vote) ∈ (storeVote hash addSignature pv vote).1.authorToVote := by
          rw [storeVote_authorToVote, SortedMap.mem_insert h.authorToVote_sorted]
          exact Or.inl rfl
        have ha := hs.addTimeoutSignature hvote hts
        have hrec' : Records hash pv (addTimeoutSignature (storeVote hash addSignature pv vote).1 vote
            timeoutSignature).1 := hrec
        split at hnext <;> subst hnext
        · exact ⟨ha, hrec', ha.attributed_tc (addTimeoutSignature_maybePartialTc _ _ _)⟩
        · exact ⟨ha, hrec', trivial⟩
        · exact ⟨ha, hrec', trivial⟩
    · subst hnext
      exact ⟨hs, hrec, trivial⟩

/-- **Vote aggregation never counts an equivocating author twice.** Over any
sequence of votes from `PendingVotes::new`, every signature filed under a digest
is an author's whose recorded vote has that digest, every signer of the partial
timeout certificate has a recorded timeout vote, and every certificate answered
on the way is signed by distinct authors whose recorded votes, at the end, are
for its ledger info's digest or, for a timeout certificate, carry a timeout
signature. -/
theorem insertVote_attributed (hadd : AddSignatureSpec addSignature) {pv : PendingVotes}
    {out : List VoteReceptionResult}
    (h : Reachable (· = new) (step hash addSignature checkVotingPower) pv out) :
    (∀ x ∈ pv.liDigestToVotes, ∀ y ∈ x.2.signatures,
      ∃ v, SortedMap.get? y.1 pv.authorToVote = some v ∧ hash v.ledgerInfo = x.1) ∧
    (∀ tc, pv.maybePartialTc = some tc → ∀ y ∈ tc.signatures,
      ∃ v, SortedMap.get? y.1 pv.authorToVote = some v ∧ v.isTimeout) ∧
    ∀ result ∈ out, Attributed hash pv result := by
  have hspec : ∀ s input, Invariant hash s →
      Invariant hash (step hash addSignature checkVotingPower s input).1 ∧
        Records hash s (step hash addSignature checkVotingPower s input).1 ∧
        Attributed hash (step hash addSignature checkVotingPower s input).1
          (step hash addSignature checkVotingPower s input).2 :=
    fun s input hs => insertVote_spec hadd hs rfl
  -- the answers are remembered through `Attributed`, and no two of them need to agree
  obtain ⟨hinv, hattr, -⟩ := h.pairwise (Invariant hash) (Attributed hash) (fun _ _ => True)
    (by rintro s rfl; exact invariant_new)
    (fun s input hs => (hspec s input hs).1)
    (fun s input _ hs hb => hb.of_records hs (hspec s input hs).1 (hspec s input hs).2.1)
    (fun s input hs => (hspec s input hs).2.2)
    (fun _ _ _ => trivial) (fun _ _ _ _ _ => ⟨trivial, trivial⟩)
  refine ⟨fun x hx y hy => ?_, fun tc htc y hy => ?_, hattr⟩
  · obtain ⟨v, hv, hd⟩ := hinv.voters x hx y hy
    exact ⟨v, (SortedMap.get?_eq_some_iff hinv.authorToVote_sorted).mpr hv, hd⟩
  · obtain ⟨v, hv, ht⟩ := hinv.timeoutVoters tc htc y hy
    exact ⟨v, (SortedMap.get?_eq_some_iff hinv.authorToVote_sorted).mpr hv, ht⟩

end Invariant

/-! ## A round with an equivocation -/

/-- Digests by the round of the committed block. -/
def roundDigest (li : LedgerInfo) : HashValue := ⟨li.commitInfo.round⟩

/-- Any two authors form a quorum. -/
def twoOfAny (_ : ValidatorVerifier) (authors : List Author) : Except VerifyError Unit :=
  if 2 ≤ authors.length then .ok () else .error (.tooLittleVotingPower authors.length 2)

/-- An author's vote for the ledger info committing a block of round `round`. -/
def voteFor (author round : ℕ) : Vote :=
  { voteData := default, author := author
    ledgerInfo := { commitInfo := { (default : BlockInfo) with round := round }
                    consensusDataHash := default }
    signature := ⟨author⟩, timeoutSignature := none }

/-- Author 0 votes for round 1, then equivocates for round 2; author 1 votes for
round 1. -/
def equivocationRun : PendingVotes × List VoteReceptionResult :=
  run (step roundDigest orInsertSignature twoOfAny) new
    [(voteFor 0 1, default), (voteFor 0 2, default), (voteFor 1 1, default)]

/-- The equivocation is turned away, and the quorum certificate for round 1 is
signed by both authors. -/
example : equivocationRun.2 =
    [.voteAdded 1, .equivocateVote,
      .newQuorumCertificate ⟨default, ⟨(voteFor 0 1).ledgerInfo, [(0, ⟨0⟩), (1, ⟨1⟩)]⟩⟩] := by
  decide

theorem insertVote_attributed_equivocationRun :
    Reachable (· = new) (step roundDigest orInsertSignature twoOfAny) equivocationRun.1
        equivocationRun.2 ∧
      (∀ x ∈ equivocationRun.1.liDigestToVotes, ∀ y ∈ x.2.signatures,
        ∃ v, SortedMap.get? y.1 equivocationRun.1.authorToVote = some v ∧ roundDigest v.ledgerInfo = x.1) ∧
      (∀ tc, equivocationRun.1.maybePartialTc = some tc → ∀ y ∈ tc.signatures,
        ∃ v, SortedMap.get? y.1 equivocationRun.1.authorToVote = some v ∧ v.isTimeout) ∧
      ∀ result ∈ equivocationRun.2, Attributed roundDigest equivocationRun.1 result := by
  have h : Reachable (· = new) (step roundDigest orInsertSignature twoOfAny) equivocationRun.1
      equivocationRun.2 :=
    @reachable_run _ _ _ (· = new) (step roundDigest orInsertSignature twoOfAny) new rfl _
  exact ⟨h, insertVote_attributed orInsertSignature_spec h⟩

end PendingVotes

end Dijets.Consensus
