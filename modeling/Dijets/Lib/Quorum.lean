import Mathlib

/-!
# Weighted quorums with a byzantine minority

A set of validators, each with a voting power, of which those in `byzantine`
may behave arbitrarily and hold less than a third of the total power. A quorum
is a set of validators holding more than two thirds of it. The one fact the
safety of a quorum-based protocol rests on is that any two quorums share an
honest validator: together they hold more than four thirds of the power, so
their common part holds more than a third, which the byzantine validators
cannot make up alone.

Quorums are given by a predicate, the property that puts a validator in the
quorum (it signed a given message, say), so that the protocol built on top never
has to build the set. The predicate is decided classically.

## Main definitions

* `QuorumSystem` — validators, voting power and the byzantine minority.
* `QuorumSystem.IsQuorum P` — the validators satisfying `P` hold a quorum.
* `QuorumSystem.exists_honest_of_isQuorum` — two quorums share an honest validator.
-/

set_option autoImplicit false

namespace Dijets.Lib

/-- Validators with voting power, the byzantine ones holding less than a third
of the total. -/
structure QuorumSystem (A : Type) [DecidableEq A] where
  members : Finset A
  power : A → ℕ
  byzantine : Finset A
  byzantine_subset : byzantine ⊆ members
  byzantine_lt : 3 * byzantine.sum power < members.sum power

namespace QuorumSystem

variable {A : Type} [DecidableEq A] (Q : QuorumSystem A)

/-- The total voting power. -/
def total : ℕ := Q.members.sum Q.power

/-- A validator of the set that follows the protocol. -/
def Honest (a : A) : Prop := a ∈ Q.members ∧ a ∉ Q.byzantine

open Classical in
/-- The power of the members satisfying `P`. -/
noncomputable def powerOf (P : A → Prop) : ℕ := (Q.members.filter P).sum Q.power

/-- The members satisfying `P` hold more than two thirds of the power. -/
def IsQuorum (P : A → Prop) : Prop := 2 * Q.total < 3 * Q.powerOf P

variable {Q}

open Classical in
theorem powerOf_le (P : A → Prop) : Q.powerOf P ≤ Q.total :=
  Finset.sum_le_sum_of_subset (Finset.filter_subset _ _)

/-- Two subsets of the members hold together at most the total plus what they
share: the inclusion–exclusion bound on power. -/
theorem sum_add_sum_le {s t : Finset A} (hs : s ⊆ Q.members) (ht : t ⊆ Q.members) :
    s.sum Q.power + t.sum Q.power ≤ Q.total + (s ∩ t).sum Q.power := by
  have hunion : (s ∪ t).sum Q.power + (s ∩ t).sum Q.power = s.sum Q.power + t.sum Q.power :=
    Finset.sum_union_inter
  have hle : (s ∪ t).sum Q.power ≤ Q.total :=
    Finset.sum_le_sum_of_subset (Finset.union_subset hs ht)
  omega

open Classical in
/-- **Quorum intersection.** Two quorums share an honest validator. -/
theorem exists_honest_of_isQuorum {P R : A → Prop} (hP : Q.IsQuorum P) (hR : Q.IsQuorum R) :
    ∃ a, Q.Honest a ∧ P a ∧ R a := by
  by_contra hne
  -- the common part of the two quorums would be byzantine, yet it holds more than a third
  have hbyz : (Q.members.filter P ∩ Q.members.filter R).sum Q.power ≤
      Q.byzantine.sum Q.power := by
    apply Finset.sum_le_sum_of_subset
    intro a ha
    simp only [Finset.mem_inter, Finset.mem_filter] at ha
    by_contra hb
    exact hne ⟨a, ⟨ha.1.1, hb⟩, ha.1.2, ha.2.2⟩
  have hsum := sum_add_sum_le (Q := Q) (Finset.filter_subset P Q.members)
    (Finset.filter_subset R Q.members)
  have hlt : 3 * Q.byzantine.sum Q.power < Q.total := Q.byzantine_lt
  unfold IsQuorum powerOf at hP hR
  omega

/-- A quorum has an honest member. -/
theorem exists_honest_of_isQuorum_self {P : A → Prop} (hP : Q.IsQuorum P) : ∃ a, Q.Honest a ∧ P a :=
  (exists_honest_of_isQuorum hP hP).imp fun _ h => ⟨h.1, h.2.1⟩

open Classical in
/-- A property every member has holds a quorum. -/
theorem isQuorum_of_forall {P : A → Prop} (hpos : 0 < Q.total) (h : ∀ a, a ∈ Q.members → P a) :
    Q.IsQuorum P := by
  have heq : Q.powerOf P = Q.total := by
    unfold powerOf total
    rw [Finset.filter_true_of_mem h]
  unfold IsQuorum
  omega

end QuorumSystem

end Dijets.Lib
