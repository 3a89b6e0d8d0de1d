import Mathlib

/-!
# A stack walk over a stored tree

A store maps keys to nodes (`lookup`); each node lists the keys of its children
(`kids`) and knows its own key (`key`). The part of a store reachable from a key `r`
by child links is a tree (`IsTree`) when every key reached is stored under its own
key, no reached node has two reached parents, no child link points back up, and no
node lists a child twice.

The walk keeps a stack of nodes: it pops one, looks up and pushes each of its
children but one key `skip`, and emits the popped node's key. Started at the root of
a tree with `skip` below it, it emits every node of the tree outside the subtree of
`skip`, each once, and it needs no more rounds than the store has keys
(`walk_spec`).

A tree stays a tree when a leaf is added under a stored node (`IsTree.addLeaf`) and
when the store changes off the tree (`IsTree.congr`), and a subtree of a tree is a
tree (`IsTree.sub`): the ways a store of blocks changes between two walks.

## Main definitions

* `TreeWalk.Desc` — reachability by child links.
* `TreeWalk.IsTree` — the reachable part of a store is a tree.
* `TreeWalk.walk` — the walk, and `walk_spec`, what it emits.
-/

set_option autoImplicit false

namespace Dijets.Lib.TreeWalk

open Relation

variable {κ ν : Type*}

section Defs

variable (lookup : κ → Option ν) (kids : ν → List κ) (key : ν → κ)

/-- `b` is listed as a child by the node stored at `a`. -/
def Child (a b : κ) : Prop := ∃ v, lookup a = some v ∧ b ∈ kids v

/-- `b` is `a` or lies below it. -/
def Desc : κ → κ → Prop := ReflTransGen (Child lookup kids)

/-- The part of the store reachable from `r` is a tree of nodes stored under their
own keys. -/
structure IsTree (r : κ) : Prop where
  stored : ∀ x, Desc lookup kids r x → ∃ v, lookup x = some v ∧ key v = x
  unique_parent : ∀ p q c, Desc lookup kids r p → Desc lookup kids r q →
    Child lookup kids p c → Child lookup kids q c → p = q
  acyclic : ∀ x y, Desc lookup kids r x → Child lookup kids x y → ¬ Desc lookup kids y x
  nodup_kids : ∀ x v, Desc lookup kids r x → lookup x = some v → (kids v).Nodup

variable [DecidableEq κ]

/-- Push the node of each child but `skip`, in order; `none` when a child is not
stored. -/
def pushChildren (skip : κ) : List κ → List ν → Option (List ν)
  | [], stack => some stack
  | c :: cs, stack =>
    if c = skip then pushChildren skip cs stack
    else match lookup c with
      | some v => pushChildren skip cs (v :: stack)
      | none => none

/-- Pop a node, push its children but `skip`, emit its key; `none` when a child is
not stored, or after `fuel` rounds. -/
def walk (skip : κ) : ℕ → List ν → List κ → Option (List κ)
  | _, [], out => some out
  | 0, _ :: _, _ => none
  | fuel + 1, v :: stack, out =>
    match pushChildren lookup skip (kids v) stack with
    | some stack' => walk skip fuel stack' (out ++ [key v])
    | none => none

/-- What the walk from `r` keeps of its stack and its output while it leaves out the
subtree of `skip`: the keys on the stack and those emitted are distinct nodes of the
tree outside that subtree, each node of it is emitted or below the stack, and nothing
on the stack is above an emitted key or above another key on the stack. -/
structure WalkInv (r skip : κ) (stack : List ν) (out : List κ) : Prop where
  nodup : (stack.map key ++ out).Nodup
  target : ∀ x ∈ stack.map key ++ out, Desc lookup kids r x ∧ ¬ Desc lookup kids skip x
  covered : ∀ x, Desc lookup kids r x → ¬ Desc lookup kids skip x →
    x ∈ out ∨ ∃ s ∈ stack.map key, Desc lookup kids s x
  fresh : ∀ s ∈ stack.map key, ∀ y ∈ out, ¬ Desc lookup kids s y
  apart : ∀ s ∈ stack.map key, ∀ s' ∈ stack.map key, s ≠ s' → ¬ Desc lookup kids s s'
  stored : ∀ v ∈ stack, lookup (key v) = some v

end Defs

variable {lookup : κ → Option ν} {kids : ν → List κ} {key : ν → κ} {r : κ}

/-! ## Trees -/

section Tree

variable (h : IsTree lookup kids key r)

/-- Reachability goes down one link at a time; stated for a `Desc` so that callers
need not unfold it. -/
theorem Desc.tail {a b c : κ} (hab : Desc lookup kids a b) (hbc : Child lookup kids b c) :
    Desc lookup kids a c :=
  ReflTransGen.tail hab hbc

theorem Desc.trans {a b c : κ} (hab : Desc lookup kids a b) (hbc : Desc lookup kids b c) :
    Desc lookup kids a c :=
  ReflTransGen.trans hab hbc

include h in
/-- Two nodes of a tree below each other are one node. -/
theorem IsTree.desc_antisymm {a b : κ} (ha : Desc lookup kids r a) (hab : Desc lookup kids a b)
    (hba : Desc lookup kids b a) : a = b := by
  rcases ReflTransGen.cases_head hab with heq | ⟨c, hac, hcb⟩
  · exact heq
  · exact absurd (Desc.trans hcb hba) (h.acyclic a c ha hac)

include h in
/-- **What is strictly above a node is at or above its parent.** -/
theorem IsTree.desc_parent {a s c : κ} (ha : Desc lookup kids r a) (hs : Desc lookup kids r s)
    (hc : Child lookup kids s c) (hac : Desc lookup kids a c) (hne : a ≠ c) :
    Desc lookup kids a s := by
  rcases ReflTransGen.cases_tail hac with heq | ⟨p, hap, hpc⟩
  · exact absurd heq.symm hne
  · have hp : Desc lookup kids r p := Desc.trans ha hap
    rwa [h.unique_parent s p c hs hp hc hpc]

/-- Nothing is below a stored node without children but the node. -/
theorem eq_of_desc_leaf {v : ν} (hv : lookup r = some v) (hkids : kids v = []) {x : κ}
    (hx : Desc lookup kids r x) : x = r := by
  rcases ReflTransGen.cases_head hx with heq | ⟨c, ⟨w, hw, hc⟩, -⟩
  · exact heq.symm
  · rw [hv, Option.some.injEq] at hw
    subst hw
    simp [hkids] at hc

/-- A stored node without children is a tree by itself. -/
theorem isTree_leaf {v : ν} (hv : lookup r = some v) (hkids : kids v = []) (hkey : key v = r) :
    IsTree lookup kids key r := by
  have hleaf := fun x (hx : Desc lookup kids r x) => eq_of_desc_leaf hv hkids hx
  -- no link leaves the node
  have hnochild : ∀ c, ¬ Child lookup kids r c := by
    rintro c ⟨w, hw, hc⟩
    rw [hv, Option.some.injEq] at hw
    subst hw
    simp [hkids] at hc
  constructor
  · intro x hx
    rw [hleaf x hx]
    exact ⟨v, hv, hkey⟩
  · intro p q c hp hq hpc
    rw [hleaf p hp] at hpc
    exact absurd hpc (hnochild c)
  · intro x y hx hxy
    rw [hleaf x hx] at hxy
    exact absurd hxy (hnochild y)
  · intro x w hx hw
    rw [hleaf x hx, hv, Option.some.injEq] at hw
    subst hw
    simp [hkids]

include h in
/-- A subtree of a tree is a tree. -/
theorem IsTree.sub {n : κ} (hn : Desc lookup kids r n) : IsTree lookup kids key n where
  stored x hx := h.stored x (Desc.trans hn hx)
  unique_parent p q c hp hq := h.unique_parent p q c (Desc.trans hn hp) (Desc.trans hn hq)
  acyclic x y hx := h.acyclic x y (Desc.trans hn hx)
  nodup_kids x v hx := h.nodup_kids x v (Desc.trans hn hx)

end Tree

/-! ## Changing the store off the tree -/

section Congr

variable {lookup' : κ → Option ν}

/-- Reachability from `a` reads the store only along the way. -/
theorem desc_congr {a : κ} (hagree : ∀ x, Desc lookup kids a x → lookup' x = lookup x) {x : κ} :
    Desc lookup' kids a x ↔ Desc lookup kids a x := by
  constructor
  · intro hx
    induction hx with
    | refl => exact ReflTransGen.refl
    | tail _ hyz ih =>
      obtain ⟨v, hv, hz⟩ := hyz
      exact Desc.tail ih ⟨v, (hagree _ ih).symm.trans hv, hz⟩
  · intro hx
    induction hx with
    | refl => exact ReflTransGen.refl
    | @tail y z hy hyz ih =>
      obtain ⟨v, hv, hz⟩ := hyz
      exact Desc.tail ih ⟨v, (hagree y hy).trans hv, hz⟩

/-- **A tree stays a tree when the store changes only off it.** -/
theorem IsTree.congr (h : IsTree lookup kids key r)
    (hagree : ∀ x, Desc lookup kids r x → lookup' x = lookup x) : IsTree lookup' kids key r := by
  -- below a node of the tree the two stores agree as well
  have hbelow : ∀ a, Desc lookup kids r a → ∀ x, Desc lookup kids a x → lookup' x = lookup x :=
    fun a ha x hx => hagree x (Desc.trans ha hx)
  have hchild : ∀ a b, Desc lookup kids r a → Child lookup' kids a b → Child lookup kids a b := by
    rintro a b ha ⟨v, hv, hb⟩
    exact ⟨v, (hagree a ha).symm.trans hv, hb⟩
  constructor
  · intro x hx
    rw [desc_congr hagree] at hx
    rw [hagree x hx]
    exact h.stored x hx
  · intro p q c hp hq hpc hqc
    rw [desc_congr hagree] at hp hq
    exact h.unique_parent p q c hp hq (hchild p c hp hpc) (hchild q c hq hqc)
  · intro x y hx hxy hyx
    rw [desc_congr hagree] at hx
    have hxy' := hchild x y hx hxy
    rw [desc_congr (hbelow y (Desc.tail hx hxy'))] at hyx
    exact h.acyclic x y hx hxy' hyx
  · intro x v hx hv
    rw [desc_congr hagree] at hx
    exact h.nodup_kids x v hx ((hagree x hx).symm.trans hv)

end Congr

/-! ## Adding a leaf

The store `lookup'` stores a new node `vc` without children at a key `c` that was
free, lists `c` last among the children of the node at `p`, and agrees with `lookup`
elsewhere. -/

section AddLeaf

variable {lookup' : κ → Option ν} {p c : κ} {vp vp' vc : ν}
  (hc : lookup c = none) (hp : lookup p = some vp)
  (hp' : lookup' p = some vp') (hkids : kids vp' = kids vp ++ [c])
  (hc' : lookup' c = some vc) (hvc : kids vc = [])
  (hother : ∀ x, x ≠ p → x ≠ c → lookup' x = lookup x)

include hc hp hp' hkids hc' hvc hother

/-- The links after adding the leaf: the old ones and the new one. -/
theorem child_addLeaf (x y : κ) :
    Child lookup' kids x y ↔ Child lookup kids x y ∨ (x = p ∧ y = c) := by
  have hpc : p ≠ c := by rintro rfl; simp [hc] at hp
  constructor
  · rintro ⟨w, hw, hy⟩
    by_cases hxp : x = p
    · subst hxp
      rw [hp', Option.some.injEq] at hw
      subst hw
      rw [hkids, List.mem_append, List.mem_singleton] at hy
      exact hy.imp (fun hy => ⟨vp, hp, hy⟩) (fun hy => ⟨rfl, hy⟩)
    · by_cases hxc : x = c
      · subst hxc
        rw [hc', Option.some.injEq] at hw
        subst hw
        simp [hvc] at hy
      · exact Or.inl ⟨w, (hother x hxp hxc).symm.trans hw, hy⟩
  · rintro (⟨w, hw, hy⟩ | ⟨rfl, rfl⟩)
    · by_cases hxp : x = p
      · subst hxp
        rw [hp, Option.some.injEq] at hw
        subst hw
        exact ⟨vp', hp', by simp [hkids, hy]⟩
      · have hxc : x ≠ c := by rintro rfl; simp [hc] at hw
        exact ⟨w, (hother x hxp hxc).trans hw, hy⟩
    · exact ⟨vp', hp', by simp [hkids]⟩

/-- Reachability after adding the leaf, from any key: the old, and the leaf where its
parent was reached. -/
theorem desc_addLeaf (a x : κ) :
    Desc lookup' kids a x ↔ Desc lookup kids a x ∨ (x = c ∧ Desc lookup kids a p) := by
  have hchild := child_addLeaf hc hp hp' hkids hc' hvc hother
  have hpc : p ≠ c := by rintro rfl; simp [hc] at hp
  constructor
  · intro hx
    induction hx with
    | refl => exact Or.inl ReflTransGen.refl
    | @tail y z _ hyz ih =>
      rcases (hchild y z).mp hyz with hyz | ⟨rfl, rfl⟩
      · -- an old link leaves a stored node, so not the leaf
        have hyc : y ≠ c := by rintro rfl; obtain ⟨w, hw, -⟩ := hyz; simp [hc] at hw
        exact Or.inl (Desc.tail (ih.resolve_right (fun h => hyc h.1)) hyz)
      · exact Or.inr ⟨rfl, ih.resolve_right (fun h => hpc h.1)⟩
  · -- every old link is still there
    have hlift : ∀ y, Desc lookup kids a y → Desc lookup' kids a y := by
      intro y hy
      induction hy with
      | refl => exact ReflTransGen.refl
      | tail _ hyz ih => exact Desc.tail ih ((hchild _ _).mpr (Or.inl hyz))
    rintro (hx | ⟨hxc, hap⟩)
    · exact hlift x hx
    · rw [hxc]
      exact Desc.tail (hlift p hap) ((hchild p c).mpr (Or.inr ⟨rfl, rfl⟩))

/-- **A tree stays a tree when a leaf is added under a stored node.** -/
theorem IsTree.addLeaf (h : IsTree lookup kids key r) (hkey : key vp' = key vp)
    (hkeyc : key vc = c) (hnew : c ∉ kids vp) : IsTree lookup' kids key r := by
  have hchild := child_addLeaf hc hp hp' hkids hc' hvc hother
  have hdesc := desc_addLeaf hc hp hp' hkids hc' hvc hother
  have hpc : p ≠ c := by rintro rfl; simp [hc] at hp
  -- a node with an old link is stored, so it is not the leaf, and reached only the old way
  have hold : ∀ x y, Desc lookup' kids r x → Child lookup kids x y → Desc lookup kids r x := by
    rintro x y hx ⟨w, hw, -⟩
    exact ((hdesc r _).mp hx).resolve_right (by rintro ⟨rfl, -⟩; simp [hc] at hw)
  -- an old link into the leaf would make it stored
  have hnot : ∀ x, Desc lookup kids r x → ¬ Child lookup kids x c := by
    intro x hx hxc
    obtain ⟨w, hw, -⟩ := h.stored c (Desc.tail hx hxc)
    simp [hc] at hw
  constructor
  · intro x hx
    rcases (hdesc r x).mp hx with hx | ⟨rfl, -⟩
    · obtain ⟨w, hw, hwk⟩ := h.stored x hx
      by_cases hxp : x = p
      · subst hxp
        rw [hp, Option.some.injEq] at hw
        subst hw
        exact ⟨vp', hp', hkey.trans hwk⟩
      · have hxc : x ≠ c := by rintro rfl; simp [hc] at hw
        exact ⟨w, (hother x hxp hxc).trans hw, hwk⟩
    · exact ⟨vc, hc', hkeyc⟩
  · intro x y z hx hy hxz hyz
    rcases (hchild x z).mp hxz with hxz | ⟨hxp, hzc⟩ <;>
      rcases (hchild y z).mp hyz with hyz | ⟨hyp, hzc'⟩
    · exact h.unique_parent x y z (hold x z hx hxz) (hold y z hy hyz) hxz hyz
    · exact absurd (hzc' ▸ hxz) (hnot x (hold x z hx hxz))
    · exact absurd (hzc ▸ hyz) (hnot y (hold y z hy hyz))
    · exact hxp.trans hyp.symm
  · intro x y hx hxy hyx
    rcases (hchild x y).mp hxy with hxy | ⟨rfl, rfl⟩
    · have hx' := hold x y hx hxy
      -- the way back up is old too: it ends at a stored node
      have hxc : x ≠ c := by rintro rfl; obtain ⟨w, hw, -⟩ := hxy; simp [hc] at hw
      exact h.acyclic x y hx' hxy (((hdesc y x).mp hyx).resolve_right (fun h => hxc h.1))
    · -- from the leaf nothing old is reached but the leaf itself
      rcases (hdesc _ _).mp hyx with hyx | ⟨heq, -⟩
      · rcases ReflTransGen.cases_head hyx with heq | ⟨d, ⟨w, hw, -⟩, -⟩
        · exact hpc heq.symm
        · simp [hc] at hw
      · exact hpc heq
  · intro x w hx hw
    by_cases hxp : x = p
    · subst hxp
      rw [hp', Option.some.injEq] at hw
      subst hw
      have hx' : Desc lookup kids r x := ((hdesc r _).mp hx).resolve_right (fun h => hpc h.1)
      rw [hkids, List.nodup_append]
      exact ⟨h.nodup_kids x vp hx' hp, List.nodup_singleton c,
        fun a ha b hb => by rw [List.mem_singleton.mp hb]; rintro rfl; exact hnew ha⟩
    · by_cases hxc : x = c
      · subst hxc
        rw [hc', Option.some.injEq] at hw
        subst hw
        simp [hvc]
      · have hx' : Desc lookup kids r x := ((hdesc r _).mp hx).resolve_right (fun h => hxc h.1)
        exact h.nodup_kids x w hx' ((hother x hxp hxc).symm.trans hw)

end AddLeaf

/-! ## The walk -/

section Walk

variable {skip : κ} {v : ν} {stack : List ν} {out : List κ}

/-! ### One round

The popped node is `v`, at key `key v`; a child `c` of it that is not `skip` is
pushed. The lemmas below say where such a child stands against the rest of the
walk's state. -/

section Round

variable (h : IsTree lookup kids key r) (hinv : WalkInv lookup kids key r skip (v :: stack) out)
  {c : κ} (hc : c ∈ kids v)

include hinv hc in
theorem WalkInv.child_of_mem : Child lookup kids (key v) c :=
  ⟨v, hinv.stored v List.mem_cons_self, hc⟩

include hinv in
theorem WalkInv.popped_target :
    Desc lookup kids r (key v) ∧ ¬ Desc lookup kids skip (key v) :=
  hinv.target (key v) (by simp)

include h hinv hc in
/-- A pushed child is in the tree and outside the subtree of `skip`. -/
theorem WalkInv.child_target (hskip : Desc lookup kids r skip) (hcs : c ≠ skip) :
    Desc lookup kids r c ∧ ¬ Desc lookup kids skip c := by
  have hs := hinv.popped_target
  have hvc := hinv.child_of_mem hc
  refine ⟨Desc.tail hs.1 hvc, fun hsc => hs.2 ?_⟩
  exact h.desc_parent hskip hs.1 hvc hsc (Ne.symm hcs)

include h hinv hc in
/-- A pushed child is not on the stack, emitted, or the popped node. -/
theorem WalkInv.child_not_mem : c ∉ stack.map key ++ out ++ [key v] := by
  have hs := hinv.popped_target
  have hvc := hinv.child_of_mem hc
  have hsc : Desc lookup kids (key v) c := ReflTransGen.single hvc
  have hnodup := List.nodup_cons.mp hinv.nodup
  intro hmem
  rcases List.mem_append.mp hmem with hmem | hmem
  · rcases List.mem_append.mp hmem with hmem | hmem
    · -- the popped node and the child would be two keys on the stack, one above the other
      have hne : key v ≠ c := fun heq => hnodup.1 (heq ▸ List.mem_append_left out hmem)
      exact hinv.apart (key v) (by simp) c (by simp [hmem]) hne hsc
    · exact hinv.fresh (key v) (by simp) c hmem hsc
  · have hcv : c = key v := List.mem_singleton.mp hmem
    exact h.acyclic (key v) c hs.1 hvc (hcv ▸ ReflTransGen.refl)

include h hinv hc in
/-- Nothing on the stack is above a pushed child, and a pushed child is above nothing
on the stack, emitted, or the popped node. -/
theorem WalkInv.child_apart :
    (∀ b ∈ stack.map key, ¬ Desc lookup kids b c) ∧
      ∀ y ∈ stack.map key ++ out ++ [key v], ¬ Desc lookup kids c y := by
  have hs := hinv.popped_target
  have hvc := hinv.child_of_mem hc
  have hnodup := List.nodup_cons.mp hinv.nodup
  have hnot := hinv.child_not_mem h hc
  -- a key on the stack other than the popped node is not above or below it
  have hbs : ∀ b ∈ stack.map key, b ≠ key v := fun b hb heq =>
    hnodup.1 (heq ▸ List.mem_append_left out hb)
  constructor
  · intro b hb hbc
    have hbR := (hinv.target b (by simp [hb])).1
    have hne : b ≠ c := fun heq => hnot (by simp [← heq, hb])
    exact hinv.apart b (by simp [hb]) (key v) (by simp) (hbs b hb)
      (h.desc_parent hbR hs.1 hvc hbc hne)
  · intro y hy hcy
    have hsy : Desc lookup kids (key v) y := ReflTransGen.head hvc hcy
    rcases List.mem_append.mp hy with hy | hy
    · rcases List.mem_append.mp hy with hy | hy
      · exact hinv.apart (key v) (by simp) y (by simp [hy]) (Ne.symm (hbs y hy)) hsy
      · exact hinv.fresh (key v) (by simp) y hy hsy
    · exact h.acyclic (key v) c hs.1 hvc (List.mem_singleton.mp hy ▸ hcy)

end Round

/-- Two children of one node of a tree are not above each other. -/
theorem IsTree.kids_apart (h : IsTree lookup kids key r) {s c c' : κ}
    (hs : Desc lookup kids r s) (hc : Child lookup kids s c) (hc' : Child lookup kids s c')
    (hne : c ≠ c') : ¬ Desc lookup kids c c' := fun hcc' =>
  h.acyclic s c hs hc (h.desc_parent (Desc.tail hs hc) hs hc' hcc' hne)

/-- With the stack empty, the output is what the walk is after. -/
theorem WalkInv.done (hinv : WalkInv lookup kids key r skip [] out) :
    out.Nodup ∧ ∀ x, x ∈ out ↔ Desc lookup kids r x ∧ ¬ Desc lookup kids skip x := by
  refine ⟨by simpa using hinv.nodup, fun x => ⟨fun hx => hinv.target x (by simp [hx]), ?_⟩⟩
  rintro ⟨hxR, hxs⟩
  simpa using hinv.covered x hxR hxs

/-- With a node still on the stack, fewer keys are emitted than the tree has. -/
theorem WalkInv.length_lt (hinv : WalkInv lookup kids key r skip (v :: stack) out) {K : List κ}
    (hK : ∀ x, Desc lookup kids r x → x ∈ K) : out.length < K.length := by
  have hnodup : (key v :: out).Nodup := by
    have := hinv.nodup
    simp only [List.map_cons, List.cons_append, List.nodup_cons, List.mem_append,
      not_or] at this ⊢
    exact ⟨this.1.2, (List.nodup_append.mp this.2).2.1⟩
  have hsub : key v :: out ⊆ K := fun x hx =>
    hK x (hinv.target x (by simp only [List.mem_cons] at hx; rcases hx with rfl | hx <;> simp [*])).1
  exact hnodup.length_le_of_subset hsub

/-- The walk starts with the root on the stack. -/
theorem WalkInv.root (h : IsTree lookup kids key r) (hskip : Desc lookup kids r skip)
    (hne : skip ≠ r) {v : ν} (hv : lookup r = some v) : WalkInv lookup kids key r skip [v] [] := by
  obtain ⟨w, hw, hkey⟩ := h.stored r ReflTransGen.refl
  rw [hv, Option.some.injEq] at hw
  subst hw
  constructor
  · simp
  · intro x hx
    have hxr : x = r := by simpa [hkey] using hx
    subst hxr
    exact ⟨ReflTransGen.refl, fun hsr => hne (h.desc_antisymm ReflTransGen.refl hskip hsr).symm⟩
  · exact fun x hx _ => Or.inr ⟨r, by simp [hkey], hx⟩
  · simp
  · intro s hs s' hs' hne'
    simp only [List.map_cons, List.map_nil, List.mem_singleton] at hs hs'
    exact absurd (hs.trans hs'.symm) hne'
  · intro w hw
    rw [List.mem_singleton.mp hw, hkey]
    exact hv

variable [DecidableEq κ]

/-- Pushing children that are stored under their keys succeeds, and pushes the
children but `skip`, last one on top. -/
theorem pushChildren_eq_some (skip : κ) (cs : List κ) (stack : List ν)
    (hcs : ∀ c ∈ cs, c ≠ skip → ∃ v, lookup c = some v ∧ key v = c) :
    ∃ pushed, pushChildren lookup skip cs stack = some (pushed ++ stack) ∧
      pushed.map key = (cs.filter (· ≠ skip)).reverse ∧ ∀ v ∈ pushed, lookup (key v) = some v := by
  induction cs generalizing stack with
  | nil => exact ⟨[], rfl, rfl, by simp⟩
  | cons c cs ih =>
    have hcs' : ∀ c' ∈ cs, c' ≠ skip → ∃ v, lookup c' = some v ∧ key v = c' :=
      fun c' hc' => hcs c' (List.mem_cons_of_mem c hc')
    by_cases hc : c = skip
    · obtain ⟨pushed, heq, hkeys, hstored⟩ := ih stack hcs'
      refine ⟨pushed, ?_, ?_, hstored⟩
      · simp [pushChildren, hc, heq]
      · simp [hc, hkeys]
    · obtain ⟨v, hv, hkey⟩ := hcs c List.mem_cons_self hc
      obtain ⟨pushed, heq, hkeys, hstored⟩ := ih (v :: stack) hcs'
      refine ⟨pushed ++ [v], ?_, ?_, ?_⟩
      · simp [pushChildren, hc, hv, heq]
      · simp [hc, hkeys, hkey]
      · intro w hw
        rcases List.mem_append.mp hw with hw | hw
        · exact hstored w hw
        · rw [List.mem_singleton.mp hw, hkey]
          exact hv

/-- **One round of the walk keeps its invariant.** -/
theorem WalkInv.pop (h : IsTree lookup kids key r) (hskip : Desc lookup kids r skip)
    (hinv : WalkInv lookup kids key r skip (v :: stack) out) :
    ∃ stack', pushChildren lookup skip (kids v) stack = some stack' ∧
      WalkInv lookup kids key r skip stack' (out ++ [key v]) := by
  have hs := hinv.popped_target
  have hsv : lookup (key v) = some v := hinv.stored v List.mem_cons_self
  obtain ⟨pushed, hpush, hkeys, hstored⟩ := pushChildren_eq_some skip (kids v) stack
    (fun c hc _ => h.stored c (Desc.tail hs.1 (hinv.child_of_mem hc)))
  -- the pushed keys are the children but `skip`
  have hmemP : ∀ c, c ∈ pushed.map key ↔ c ∈ kids v ∧ c ≠ skip := by
    intro c
    simp [hkeys]
  have hnodup := List.nodup_cons.mp hinv.nodup
  refine ⟨pushed ++ stack, hpush, ?_⟩
  constructor
  · -- the pushed keys, then the old state with the popped node moved to the output
    rw [List.map_append, List.append_assoc, List.nodup_append]
    refine ⟨?_, ?_, ?_⟩
    · rw [hkeys, List.nodup_reverse]
      exact (h.nodup_kids (key v) v hs.1 hsv).filter _
    · rw [← List.append_assoc, List.nodup_append_comm]
      exact List.nodup_cons.mpr hnodup
    · intro a ha b hb hab
      rw [← List.append_assoc] at hb
      exact hinv.child_not_mem h ((hmemP a).mp ha).1 (hab ▸ hb)
  · intro x hx
    rw [List.map_append, List.append_assoc, List.mem_append] at hx
    rcases hx with hx | hx
    · exact hinv.child_target h ((hmemP x).mp hx).1 hskip ((hmemP x).mp hx).2
    · apply hinv.target x
      simp only [List.mem_append, List.mem_singleton] at hx
      simp only [List.map_cons, List.cons_append, List.mem_cons, List.mem_append]
      tauto
  · intro x hxR hxs
    rcases hinv.covered x hxR hxs with hx | ⟨b, hb, hbx⟩
    · exact Or.inl (List.mem_append_left _ hx)
    · rw [List.map_cons, List.mem_cons] at hb
      rcases hb with rfl | hb
      · -- below the popped node: the node itself, or below one of its children
        rcases ReflTransGen.cases_head hbx with rfl | ⟨c, ⟨w, hw, hc⟩, hcx⟩
        · exact Or.inl (by simp)
        · rw [hsv, Option.some.injEq] at hw
          subst hw
          have hcs : c ≠ skip := by rintro rfl; exact hxs hcx
          exact Or.inr ⟨c, by simp [(hmemP c).mpr ⟨hc, hcs⟩], hcx⟩
      · exact Or.inr ⟨b, by simp [hb], hbx⟩
  · intro b hb y hy
    rw [List.map_append, List.mem_append] at hb
    rcases hb with hb | hb
    · exact (hinv.child_apart h ((hmemP b).mp hb).1).2 y (by
        rcases List.mem_append.mp hy with hy | hy <;> simp [hy])
    · rcases List.mem_append.mp hy with hy | hy
      · exact hinv.fresh b (by simp [hb]) y hy
      · rw [List.mem_singleton.mp hy]
        have hbs : b ≠ key v := fun heq => hnodup.1 (heq ▸ List.mem_append_left out hb)
        exact hinv.apart b (by simp [hb]) (key v) (by simp) hbs
  · intro b hb b' hb' hne
    rw [List.map_append, List.mem_append] at hb hb'
    rcases hb with hb | hb <;> rcases hb' with hb' | hb'
    · exact h.kids_apart hs.1 (hinv.child_of_mem ((hmemP b).mp hb).1)
        (hinv.child_of_mem ((hmemP b').mp hb').1) hne
    · exact (hinv.child_apart h ((hmemP b).mp hb).1).2 b' (by simp [hb'])
    · exact (hinv.child_apart h ((hmemP b').mp hb').1).1 b hb
    · exact hinv.apart b (by simp [hb]) b' (by simp [hb']) hne
  · intro w hw
    rcases List.mem_append.mp hw with hw | hw
    · exact hstored w hw
    · exact hinv.stored w (List.mem_cons_of_mem v hw)

/-- The walk runs to its end from any state that keeps the invariant, given fuel for
the keys not yet emitted. -/
theorem walk_of_inv (h : IsTree lookup kids key r) (hskip : Desc lookup kids r skip)
    {K : List κ} (hK : ∀ x, Desc lookup kids r x → x ∈ K) (fuel : ℕ) :
    ∀ (stack : List ν) (out : List κ), WalkInv lookup kids key r skip stack out →
      K.length ≤ fuel + out.length →
      ∃ out', walk lookup kids key skip fuel stack out = some out' ∧ out'.Nodup ∧
        ∀ x, x ∈ out' ↔ Desc lookup kids r x ∧ ¬ Desc lookup kids skip x := by
  -- the fuel counts down the keys of the tree left to emit
  induction fuel with
  | zero =>
    intro stack out hinv hfuel
    cases stack with
    | nil => exact ⟨out, rfl, hinv.done⟩
    | cons v stack => exact absurd (hinv.length_lt hK) (by omega)
  | succ fuel ih =>
    intro stack out hinv hfuel
    cases stack with
    | nil => exact ⟨out, rfl, hinv.done⟩
    | cons v stack =>
      obtain ⟨stack', hpush, hinv'⟩ := hinv.pop h hskip
      obtain ⟨out', hwalk, hout'⟩ := ih stack' (out ++ [key v]) hinv' (by simp; omega)
      exact ⟨out', by simp only [walk, hpush, hwalk], hout'⟩

/-- **The walk from the root of a tree emits the tree outside the subtree of
`skip`**, each node once, with as much fuel as a list of keys that holds the tree. -/
theorem walk_spec (h : IsTree lookup kids key r) (hskip : Desc lookup kids r skip)
    (hne : skip ≠ r) {v : ν} (hv : lookup r = some v) {K : List κ}
    (hK : ∀ x, Desc lookup kids r x → x ∈ K) {fuel : ℕ} (hfuel : K.length ≤ fuel) :
    ∃ out, walk lookup kids key skip fuel [v] [] = some out ∧ out.Nodup ∧
      ∀ x, x ∈ out ↔ Desc lookup kids r x ∧ ¬ Desc lookup kids skip x :=
  walk_of_inv h hskip hK fuel [v] [] (WalkInv.root h hskip hne hv) (by simpa using hfuel)

end Walk

end Dijets.Lib.TreeWalk
