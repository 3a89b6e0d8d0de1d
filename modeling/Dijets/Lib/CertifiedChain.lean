import Mathlib

/-!
# Safety of chains of certified blocks

In a chained BFT protocol every block has a round and names a parent of a lower
round, and a block is *certified* when a quorum voted for it. The protocol's
rules make a committed block *locked*: every certified block of a later round
either lies on the short chain that committed it or has a parent whose round is
not below the committed block's. This module is the round-by-round argument that
turns that local fact into the global one: every certified block from the
committed round on descends from the committed block, and so of two committed
blocks one descends from the other.

The module names nothing of a particular protocol. Blocks are any type with a
round; `Link c p` says that `c` is certified with parent `p`. The protocol
supplies the three hypotheses of the argument: parents have lower rounds,
parents of certified blocks are certified (from round 1 on, below which there is
only the genesis), and at most one block of each round is certified.

## Main definitions

* `Extends Link c b` — following certified parents from `c` reaches `b`.
* `Locked round Link b top` — the local lock a commit of `b` establishes.
* `Locked.extends_of_le` — certified blocks from `b`'s round on extend `b`.
* `Locked.extends_or_extends` — two locked blocks lie on one chain.
-/

set_option autoImplicit false

namespace Dijets.Lib

namespace CertifiedChain

variable {B : Type} (round : B → ℕ) (Link : B → B → Prop)

/-- `c` extends `b`: `b` is reached from `c` by following certified parents, in
zero or more steps. -/
def Extends (c b : B) : Prop := Relation.ReflTransGen Link c b

/-- `b` is certified (with some parent). -/
def Certified (b : B) : Prop := ∃ p, Link b p

/-- At most one block of each round is certified. -/
def UniquePerRound : Prop :=
  ∀ c c' p p', Link c p → Link c' p' → round c = round c' → c = c'

/-- What committing `b` establishes, up to the round `top` of the block whose
certificate committed it: the certified blocks of the rounds from `b`'s to `top`
extend `b`, and every certified block above `top` has a parent whose round is not
below `b`'s. -/
structure Locked (b : B) (top : ℕ) : Prop where
  extends_of_le_top : ∀ c p, Link c p → round b ≤ round c → round c ≤ top → Extends Link c b
  le_parent : ∀ c p, Link c p → top < round c → round b ≤ round p

variable {round Link}

theorem Extends.refl (b : B) : Extends Link b b := Relation.ReflTransGen.refl

theorem Extends.head {c p b : B} (h : Link c p) (hp : Extends Link p b) : Extends Link c b :=
  Relation.ReflTransGen.head h hp

/-- Below a locked block's `top`, uniqueness does the work: a certified block of a
round that an extending certified block already occupies is that block. -/
theorem extends_of_unique (hu : UniquePerRound round Link) {b : B} {top : ℕ}
    (hchain : ∀ k, round b ≤ k → k ≤ top → ∃ d, Certified Link d ∧ round d = k ∧ Extends Link d b) :
    ∀ c p, Link c p → round b ≤ round c → round c ≤ top → Extends Link c b := by
  intro c p hcp hlo hhi
  obtain ⟨d, ⟨q, hdq⟩, hd, hdb⟩ := hchain (round c) hlo hhi
  rw [hu c d p q hcp hdq hd.symm]
  exact hdb

section Chain

variable (hround : ∀ c p, Link c p → round p < round c)
  (hparent : ∀ c p, Link c p → 1 ≤ round p → Certified Link p)
include hround hparent

/-- **Every certified block from a locked block's round on extends it.** By strong
induction on the round of the certified block: up to `top` the lock says so
directly; above it the parent's round lies between `b`'s and the block's own, so
the parent is certified and, by induction, extends `b`. -/
theorem Locked.extends_of_le {b : B} {top : ℕ} (hb : Locked round Link b top) (h1 : 1 ≤ round b) :
    ∀ c, Certified Link c → round b ≤ round c → Extends Link c b := by
  intro c
  induction hn : round c using Nat.strongRecOn generalizing c with
  | ind n ih =>
    rintro ⟨p, hcp⟩ hbc
    rw [← hn] at hbc
    by_cases htop : round c ≤ top
    · exact hb.extends_of_le_top c p hcp hbc htop
    · have hbp := hb.le_parent c p hcp (Nat.lt_of_not_le htop)
      have hpc := hround c p hcp
      exact Extends.head hcp (ih (round p) (hn ▸ hpc) p rfl (hparent c p hcp (Nat.le_trans h1 hbp)) hbp)

/-- **Two locked blocks lie on one chain**, when both are certified and of round at
least 1: the one of the higher round extends the other. -/
theorem Locked.extends_or_extends {b b' : B} {top top' : ℕ} (hb : Locked round Link b top)
    (hb' : Locked round Link b' top') (hc : Certified Link b) (hc' : Certified Link b')
    (h1 : 1 ≤ round b) (h1' : 1 ≤ round b') : Extends Link b' b ∨ Extends Link b b' := by
  rcases Nat.le_total (round b) (round b') with hle | hle
  · exact Or.inl (hb.extends_of_le hround hparent h1 b' hc' hle)
  · exact Or.inr (hb'.extends_of_le hround hparent h1' b hc hle)

end Chain

end CertifiedChain

end Dijets.Lib
