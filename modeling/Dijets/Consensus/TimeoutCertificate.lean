import Mathlib.Data.Nat.Basic
import Dijets.Consensus.VerifySpec
import Dijets.Lib.SortedMap

/-!
# Aggregating a 2-chain timeout certificate

`TwoChainTimeoutCertificate::add` keeps the timeout with the highest quorum
certificate seen so far, and records in the signature map, under the author, the
round of the quorum certificate the author's own timeout carried. `verify`
accepts a certificate only if its timeout's round is the largest round of the map
(`signedRound`, what `verify`'s signer loop computes).

The map keeps only each author's latest entry, while the kept timeout remembers
the highest round ever added. The two stay in step as long as no author comes
back with a lower round than it gave before (`RoundsNeverDrop`, which holds when
each author adds once): then every certificate a sequence of adds builds from its
first timeout passes the check (`highestHqcRound_addAll`). An author that comes
back lower leaves the timeout above every round of the map, and no validator set
accepts the certificate (`readd_lower_round`).

## Main definitions

* `TwoChainTimeoutCertificate.new`, `TwoChainTimeoutCertificate.add` — the source's.
* `TwoChainTimeoutCertificate.addAll` — a sequence of adds.
* `TwoChainTimeoutCertificate.signedRound` — the largest round of a signature map.
-/

set_option autoImplicit false

namespace Dijets.Consensus

open Dijets.Lib

namespace TwoChainTimeoutCertificate

/-- `TwoChainTimeoutCertificate::new`: the timeout, and no signature yet. -/
def new (timeout : TwoChainTimeout) : TwoChainTimeoutCertificate :=
  { timeout, signatures := [] }

/-- `TwoChainTimeoutCertificate::add` as built for release, where its assertions
that the timeout has the certificate's epoch and round are compiled out. -/
def add (tc : TwoChainTimeoutCertificate) (author : Author) (timeout : TwoChainTimeout)
    (signature : Ed25519Signature) : TwoChainTimeoutCertificate :=
  let hqcRound := timeout.hqcRound
  { timeout := if timeout.hqcRound > tc.timeout.hqcRound then timeout else tc.timeout
    signatures := SortedMap.insert author (hqcRound, signature) tc.signatures }

/-- A sequence of `add` calls, in order. -/
def addAll (tc : TwoChainTimeoutCertificate) :
    List (Author × TwoChainTimeout × Ed25519Signature) → TwoChainTimeoutCertificate
  | [] => tc
  | (author, timeout, signature) :: rest => (tc.add author timeout signature).addAll rest

/-- The largest round of a signature map, as `verify`'s signer loop computes it. -/
def signedRound (signatures : List (Author × ℕ × Ed25519Signature)) : ℕ :=
  signatures.foldl (fun r x => max r x.2.1) 0

/-- No author comes back with a lower round than one it added before. -/
def RoundsNeverDrop (adds : List (Author × TwoChainTimeout × Ed25519Signature)) : Prop :=
  adds.Pairwise (fun x y => x.1 = y.1 → x.2.1.hqcRound ≤ y.2.1.hqcRound)

instance : DecidablePred RoundsNeverDrop :=
  fun adds => inferInstanceAs (Decidable (adds.Pairwise _))

variable {env : Env}

/-- **A certificate that verifies reports the largest signed round** as its
highest one. -/
theorem highestHqcRound_eq_signedRound_of_verify {tc : TwoChainTimeoutCertificate}
    {validators : ValidatorVerifier} (h : tc.verify env validators = .ok ()) :
    tc.highestHqcRound = signedRound tc.signatures :=
  verifySigners_eq_ok_foldl (verify_eq_ok_steps h).2.2.2

/-! ## The largest signed round -/

private theorem foldl_max_le_iff (l : List (Author × ℕ × Ed25519Signature)) (m c : ℕ) :
    l.foldl (fun r x => max r x.2.1) m ≤ c ↔ m ≤ c ∧ ∀ x ∈ l, x.2.1 ≤ c := by
  induction l generalizing m with
  | nil => simp
  | cons x rest ih =>
    rw [List.foldl_cons, ih, Nat.max_le]
    simp only [List.mem_cons, forall_eq_or_imp, and_assoc]

theorem signedRound_le_iff {signatures : List (Author × ℕ × Ed25519Signature)} {c : ℕ} :
    signedRound signatures ≤ c ↔ ∀ x ∈ signatures, x.2.1 ≤ c := by
  simp [signedRound, foldl_max_le_iff]

/-- An insert into a sorted map raises the largest round to the new one, when the
author's old round, if any, was not above it. -/
theorem signedRound_insert {signatures : List (Author × ℕ × Ed25519Signature)}
    (hsorted : SortedMap.Sorted signatures) {author : Author} {r : ℕ} {signature : Ed25519Signature}
    (hle : ∀ x ∈ signatures, x.1 = author → x.2.1 ≤ r) :
    signedRound (SortedMap.insert author (r, signature) signatures) =
      max (signedRound signatures) r := by
  refine eq_of_forall_ge_iff fun c => ?_
  rw [Nat.max_le, signedRound_le_iff, signedRound_le_iff]
  simp only [SortedMap.mem_insert hsorted]
  constructor
  · intro h
    refine ⟨fun x hx => ?_, h _ (Or.inl rfl)⟩
    by_cases hx' : x.1 = author
    · -- the author's old entry is replaced, but its round is below the new one
      exact (hle x hx hx').trans (h _ (Or.inl rfl))
    · exact h x (Or.inr ⟨hx, hx'⟩)
  · rintro ⟨hold, hr⟩ x (rfl | ⟨hx, -⟩)
    · exact hr
    · exact hold x hx

/-! ## One add, and a sequence of them -/

@[simp] theorem signatures_add (tc : TwoChainTimeoutCertificate) (author : Author)
    (timeout : TwoChainTimeout) (signature : Ed25519Signature) :
    (tc.add author timeout signature).signatures =
      SortedMap.insert author (timeout.hqcRound, signature) tc.signatures := rfl

theorem highestHqcRound_add (tc : TwoChainTimeoutCertificate) (author : Author)
    (timeout : TwoChainTimeout) (signature : Ed25519Signature) :
    (tc.add author timeout signature).highestHqcRound = max tc.highestHqcRound timeout.hqcRound := by
  simp only [add, highestHqcRound]
  split <;> omega

/-- What a certificate keeps between adds: a sorted map, and the largest signed
round as its highest round. -/
structure Consistent (tc : TwoChainTimeoutCertificate) : Prop where
  sorted : SortedMap.Sorted tc.signatures
  highest : tc.highestHqcRound = signedRound tc.signatures

/-- Every round the map holds is at most the round its author adds later. -/
def Fits (tc : TwoChainTimeoutCertificate) (adds : List (Author × TwoChainTimeout × Ed25519Signature)) :
    Prop :=
  ∀ x ∈ tc.signatures, ∀ y ∈ adds, x.1 = y.1 → x.2.1 ≤ y.2.1.hqcRound

/-- The step: an add keeps the certificate consistent when the author's stored
round is not above the new one. -/
theorem Consistent.add {tc : TwoChainTimeoutCertificate} (h : tc.Consistent) {author : Author}
    {timeout : TwoChainTimeout} {signature : Ed25519Signature}
    (hle : ∀ x ∈ tc.signatures, x.1 = author → x.2.1 ≤ timeout.hqcRound) :
    (tc.add author timeout signature).Consistent where
  sorted := SortedMap.sorted_insert h.sorted
  highest := by
    rw [highestHqcRound_add, h.highest, signatures_add, signedRound_insert h.sorted hle]

/-- The run: a consistent certificate stays consistent through a sequence of adds
whose rounds never drop below what the map holds or what came before. -/
theorem Consistent.addAll {tc : TwoChainTimeoutCertificate} (h : tc.Consistent)
    {adds : List (Author × TwoChainTimeout × Ed25519Signature)} (hfits : tc.Fits adds)
    (hdrop : RoundsNeverDrop adds) : (tc.addAll adds).Consistent := by
  induction adds generalizing tc with
  | nil => exact h
  | cons y rest ih =>
    obtain ⟨author, timeout, signature⟩ := y
    obtain ⟨hhead, hrest⟩ := List.pairwise_cons.mp hdrop
    have hfits' : (tc.add author timeout signature).Fits rest := by
      intro x hx z hz hxz
      rcases SortedMap.mem_of_mem_insert hx with rfl | hx
      · exact hhead z hz hxz
      · exact hfits x hx z (List.mem_cons_of_mem _ hz) hxz
    exact ih (h.add fun x hx hxa => hfits x hx _ List.mem_cons_self hxa) hfits' hrest

/-- The certificate after its first timeout's own add. -/
theorem consistent_new_add (author : Author) (timeout : TwoChainTimeout)
    (signature : Ed25519Signature) : ((new timeout).add author timeout signature).Consistent where
  sorted := SortedMap.sorted_insert SortedMap.sorted_nil
  highest := by simp [add, new, highestHqcRound, signedRound, SortedMap.insert]

/-- **Aggregation is consistent with the verifier** when no author comes back with
a lower round: a certificate built from `new timeout` by adds, the first of them
`timeout` itself, has as its highest round the largest round of its map. -/
theorem highestHqcRound_addAll (author : Author) (timeout : TwoChainTimeout)
    (signature : Ed25519Signature) (adds : List (Author × TwoChainTimeout × Ed25519Signature))
    (hdrop : RoundsNeverDrop ((author, timeout, signature) :: adds)) :
    ((new timeout).addAll ((author, timeout, signature) :: adds)).highestHqcRound =
      signedRound ((new timeout).addAll ((author, timeout, signature) :: adds)).signatures := by
  obtain ⟨hhead, hrest⟩ := List.pairwise_cons.mp hdrop
  have hfits : ((new timeout).add author timeout signature).Fits adds := by
    intro x hx y hy hxy
    simp only [add, new, SortedMap.insert, List.mem_singleton] at hx
    subst hx
    exact hhead y hy hxy
  exact ((consistent_new_add author timeout signature).addAll hfits hrest).highest

/-- A timeout of epoch 1 and round 7 whose quorum certificate certifies a block
of round `hqcRound`. -/
def timeoutAt (hqcRound : ℕ) : TwoChainTimeout :=
  { epoch := 1, round := 7
    quorumCert := { (default : QuorumCert) with
      voteData := { (default : VoteData) with
        proposed := { (default : BlockInfo) with round := hqcRound } } } }

/-- Two authors, each adding once. -/
theorem highestHqcRound_addAll_twoAuthors :
    RoundsNeverDrop [(0, timeoutAt 5, default), (1, timeoutAt 3, default)] ∧
      ((new (timeoutAt 5)).addAll [(0, timeoutAt 5, default), (1, timeoutAt 3, default)]).highestHqcRound =
        signedRound ((new (timeoutAt 5)).addAll
          [(0, timeoutAt 5, default), (1, timeoutAt 3, default)]).signatures :=
  ⟨by decide, highestHqcRound_addAll 0 (timeoutAt 5) default [(1, timeoutAt 3, default)] (by decide)⟩

/-- **An author that comes back lower breaks aggregation.** Author 0 adds the
first timeout, with a certificate of round 5, then one of the same epoch and round
with a certificate of round 3: the map forgets round 5, the kept timeout does
not, and no validator set accepts the certificate. -/
theorem readd_lower_round :
    (timeoutAt 3).epoch = (timeoutAt 5).epoch ∧ (timeoutAt 3).round = (timeoutAt 5).round ∧
      ((new (timeoutAt 5)).addAll [(0, timeoutAt 5, default), (0, timeoutAt 3, default)]).highestHqcRound = 5 ∧
      signedRound ((new (timeoutAt 5)).addAll
        [(0, timeoutAt 5, default), (0, timeoutAt 3, default)]).signatures = 3 ∧
      ∀ (env : Env) (validators : ValidatorVerifier),
        ((new (timeoutAt 5)).addAll [(0, timeoutAt 5, default), (0, timeoutAt 3, default)]).verify
          env validators ≠ .ok () := by
  have hhigh : ((new (timeoutAt 5)).addAll
      [(0, timeoutAt 5, default), (0, timeoutAt 3, default)]).highestHqcRound = 5 := rfl
  have hsigned : signedRound ((new (timeoutAt 5)).addAll
      [(0, timeoutAt 5, default), (0, timeoutAt 3, default)]).signatures = 3 := rfl
  refine ⟨rfl, rfl, hhigh, hsigned, fun env validators h => ?_⟩
  have hcheck := highestHqcRound_eq_signedRound_of_verify h
  omega

end TwoChainTimeoutCertificate

end Dijets.Consensus
