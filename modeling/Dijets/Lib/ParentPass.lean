import Mathlib

/-!
# One pass that keeps the descendants of a root

Each element of a list has an id and the id of its parent. One pass over the list keeps
an element when its parent is the root or an element kept before it, and remembers the
ids kept (`retain`). When every element's parent, if it is in the list, stands before it
(`ParentsFirst`), the pass keeps exactly the elements below the root (`Below`), drops the
others, and lists each kept element after its parent (`retain_spec`). A list sorted by a
key that is smaller at each parent has its parents first (`parentsFirst_of_pairwise`).

## Main definitions

* `ParentPass.Below` — the elements below a root through parent links within a list.
* `ParentPass.retain` — the pass.
-/

set_option autoImplicit false

namespace Dijets.Lib.ParentPass

variable {α κ : Type*} (id parent : α → κ)

/-- `b` lies below the root `r` through elements of `L`. -/
inductive Below (L : List α) (r : κ) : α → Prop
  | child {b : α} : b ∈ L → parent b = r → Below L r b
  | step {p b : α} : Below L r p → b ∈ L → parent b = id p → Below L r b

/-- Every element's parent that is in the list stands before it. -/
def ParentsFirst (L : List α) : Prop :=
  ∀ l₁ b l₂, L = l₁ ++ b :: l₂ → ∀ p ∈ L, id p = parent b → p ∈ l₁

variable {id parent}

theorem Below.mem {L : List α} {r : κ} {b : α} (h : Below id parent L r b) : b ∈ L := by
  cases h with
  | child hb _ => exact hb
  | step _ hb _ => exact hb

/-- An element's parent is the root or an element below it earlier in the list, exactly
when the element is below the root. -/
theorem below_iff_of_split {L : List α} {r : κ} (hfirst : ParentsFirst id parent L) {P S : List α} {c : α}
    (hL : L = P ++ c :: S) :
    (parent c = r ∨ ∃ p ∈ P, Below id parent L r p ∧ id p = parent c) ↔
      Below id parent L r c := by
  have hc : c ∈ L := by simp [hL]
  constructor
  · rintro (hroot | ⟨p, -, hp, hpc⟩)
    · exact Below.child hc hroot
    · exact Below.step hp hc hpc.symm
  · intro h
    cases h with
    | child _ hroot => exact Or.inl hroot
    | @step p _ hp _ hpc =>
      -- the parent is in the list, so it stands before `c`
      exact Or.inr ⟨p, hfirst P c S hL p hp.mem hpc.symm, hp, hpc.symm⟩

/-! ## Keys that grow from parent to child -/

section Keys

variable {β : Type*} [LinearOrder β] (key : α → β) {L : List α}

/-- A list sorted by a key that is smaller at each parent in the list has its parents
first. -/
theorem parentsFirst_of_pairwise (hsorted : L.Pairwise (fun a b => key a ≤ key b))
    (hlt : ∀ b ∈ L, ∀ p ∈ L, id p = parent b → key p < key b) : ParentsFirst id parent L := by
  intro l₁ b l₂ hL p hp hpb
  have hkey := hlt b (by simp [hL]) p hp hpb
  rw [hL] at hp hsorted
  rcases List.mem_append.mp hp with hp | hp
  · exact hp
  · -- everything from `b` on has a key at least that of `b`
    have hafter := (List.pairwise_append.mp hsorted).2.1
    rcases List.mem_cons.mp hp with rfl | hp
    · exact absurd hkey (lt_irrefl _)
    · exact absurd hkey (not_lt.mpr ((List.pairwise_cons.mp hafter).1 p hp))

/-- Below a root, keys exceed the key of every element with the root's id. -/
theorem Below.key_lt {r : κ} (hlt : ∀ b ∈ L, ∀ p ∈ L, id p = parent b → key p < key b)
    {b : α} (h : Below id parent L r b) : ∀ R ∈ L, id R = r → key R < key b := by
  induction h with
  | child hb hroot =>
    intro R hR hRr
    exact hlt _ hb R hR (hRr.trans hroot.symm)
  | step hp hb hpb ih =>
    intro R hR hRr
    exact (ih R hR hRr).trans (hlt _ hb _ hp.mem hpb.symm)

/-- Nothing below a root has the root's id, when keys grow from parent to child. -/
theorem Below.id_ne {r : κ} (hlt : ∀ b ∈ L, ∀ p ∈ L, id p = parent b → key p < key b)
    {b : α} (h : Below id parent L r b) : id b ≠ r :=
  fun hbr => lt_irrefl _ (h.key_lt key hlt b h.mem hbr)

/-- **Dropping the element of the root's id changes nothing below the root**, when keys
grow from parent to child. -/
theorem below_iff_of_mem_iff {L' : List α} {r : κ}
    (hlt : ∀ b ∈ L, ∀ p ∈ L, id p = parent b → key p < key b)
    (hL' : ∀ b, b ∈ L' ↔ b ∈ L ∧ id b ≠ r) {b : α} :
    Below id parent L' r b ↔ Below id parent L r b := by
  constructor
  · intro h
    induction h with
    | child hb hroot => exact Below.child ((hL' _).mp hb).1 hroot
    | step _ hb hpb ih => exact Below.step ih ((hL' _).mp hb).1 hpb
  · intro h
    induction h with
    | child hb hroot => exact Below.child ((hL' _).mpr ⟨hb, (Below.child hb hroot).id_ne key hlt⟩) hroot
    | step hp hb hpb ih =>
      exact Below.step ih ((hL' _).mpr ⟨hb, (Below.step hp hb hpb).id_ne key hlt⟩) hpb

end Keys

/-- In a list of distinct ids, erasing the first element of an id erases every element of
that id. -/
theorem mem_eraseP_of_nodup [DecidableEq κ] {L : List α} (hL : (L.map id).Nodup) {k : κ} {b : α} :
    b ∈ L.eraseP (fun x => id x == k) ↔ b ∈ L ∧ id b ≠ k := by
  induction L with
  | nil => simp
  | cons a L ih =>
    rw [List.map_cons] at hL
    have hL' := List.nodup_cons.mp hL
    by_cases ha : id a = k
    · -- the head goes, and no later element has its id
      rw [List.eraseP_cons_of_pos (by simpa using ha)]
      constructor
      · intro hb
        refine ⟨List.mem_cons_of_mem a hb, fun hbk => hL'.1 ?_⟩
        exact ha ▸ hbk ▸ List.mem_map_of_mem hb
      · rintro ⟨hb, hbk⟩
        rcases List.mem_cons.mp hb with rfl | hb
        · exact absurd ha hbk
        · exact hb
    · rw [List.eraseP_cons_of_neg (by simpa using ha), List.mem_cons, List.mem_cons, ih hL'.2]
      constructor
      · rintro (rfl | ⟨hb, hbk⟩)
        · exact ⟨Or.inl rfl, ha⟩
        · exact ⟨Or.inr hb, hbk⟩
      · rintro ⟨rfl | hb, hbk⟩
        · exact Or.inl rfl
        · exact Or.inr ⟨hb, hbk⟩

variable (id parent) [DecidableEq κ]

/-- The pass, from the ids `tree` taken as kept: the ids kept at the end, the kept
elements in order, and the ids of the dropped ones in order. -/
def retain : List κ → List α → List κ × List α × List κ
  | tree, [] => (tree, [], [])
  | tree, b :: bs =>
    if parent b ∈ tree then
      let r := retain (id b :: tree) bs
      (r.1, b :: r.2.1, r.2.2)
    else
      let r := retain tree bs
      (r.1, r.2.1, id b :: r.2.2)

variable {id parent}

/-- The pass keeps each element after its parent: a kept id from the start, or an
element kept before it. -/
theorem retain_parent_before (tree : List κ) (L : List α) :
    ∀ l₁ b l₂, (retain id parent tree L).2.1 = l₁ ++ b :: l₂ →
      parent b ∈ tree ∨ ∃ p ∈ l₁, id p = parent b := by
  induction L generalizing tree with
  | nil => simp [retain]
  | cons c cs ih =>
    intro l₁ b l₂ hkept
    by_cases hc : parent c ∈ tree
    · simp only [retain, hc, if_true] at hkept
      cases l₁ with
      | nil =>
        simp only [List.nil_append, List.cons.injEq] at hkept
        exact Or.inl (hkept.1 ▸ hc)
      | cons d l₁ =>
        simp only [List.cons_append, List.cons.injEq] at hkept
        obtain ⟨hcd, hrest⟩ := hkept
        -- the ids kept from here on start with the id of `c`
        rcases ih (id c :: tree) l₁ b l₂ hrest with hb | ⟨p, hp, hpb⟩
        · rcases List.mem_cons.mp hb with hb | hb
          · exact Or.inr ⟨d, List.mem_cons_self, hcd ▸ hb.symm⟩
          · exact Or.inl hb
        · exact Or.inr ⟨p, List.mem_cons_of_mem d hp, hpb⟩
    · simp only [retain, hc, if_false] at hkept
      exact ih tree l₁ b l₂ hkept

section Spec

variable {L : List α} {r : κ}

/-- **The pass over a suffix**, from the ids of the root and of the elements below it in
the prefix already passed. -/
theorem retain_spec_from (hfirst : ParentsFirst id parent L) :
    ∀ (S P : List α) (tree : List κ), L = P ++ S →
      (∀ x, x ∈ tree ↔ x = r ∨ ∃ p ∈ P, Below id parent L r p ∧ id p = x) →
      (∀ x, x ∈ (retain id parent tree S).1 ↔
          x = r ∨ ∃ p ∈ L, Below id parent L r p ∧ id p = x) ∧
        (∀ b ∈ S, b ∈ (retain id parent tree S).2.1 ↔ Below id parent L r b) ∧
        (retain id parent tree S).2.1 ⊆ S ∧
        ∀ x, x ∈ (retain id parent tree S).2.2 ↔ ∃ b ∈ S, ¬ Below id parent L r b ∧ id b = x := by
  intro S
  induction S with
  | nil =>
    intro P tree hL htree
    simp only [List.append_nil] at hL
    subst hL
    simpa [retain] using htree
  | cons c S ih =>
    intro P tree hL htree
    -- whether `c` is kept is whether it is below the root
    have hdecide : parent c ∈ tree ↔ Below id parent L r c :=
      (htree (parent c)).trans (below_iff_of_split hfirst hL)
    have hL' : L = (P ++ [c]) ++ S := by simp [hL]
    by_cases hc : Below id parent L r c
    · have htree' : ∀ x, x ∈ id c :: tree ↔
          x = r ∨ ∃ p ∈ P ++ [c], Below id parent L r p ∧ id p = x := by
        intro x
        rw [List.mem_cons, htree x]
        constructor
        · rintro (rfl | rfl | ⟨p, hp, hpb, hpx⟩)
          · exact Or.inr ⟨c, by simp, hc, rfl⟩
          · exact Or.inl rfl
          · exact Or.inr ⟨p, by simp [hp], hpb, hpx⟩
        · rintro (rfl | ⟨p, hp, hpb, rfl⟩)
          · exact Or.inr (Or.inl rfl)
          · rcases List.mem_append.mp hp with hp | hp
            · exact Or.inr (Or.inr ⟨p, hp, hpb, rfl⟩)
            · rw [List.mem_singleton.mp hp]
              exact Or.inl rfl
      obtain ⟨hfin, hkept, hsub, hdrop⟩ := ih (P ++ [c]) (id c :: tree) hL' htree'
      simp only [retain, hdecide.mpr hc, if_true]
      refine ⟨hfin, ?_, ?_, ?_⟩
      · intro b hb
        rcases List.mem_cons.mp hb with rfl | hb
        · exact ⟨fun _ => hc, fun _ => List.mem_cons_self⟩
        · rw [List.mem_cons, hkept b hb]
          exact ⟨fun h => h.elim (fun h => h ▸ hc) (fun h => h), Or.inr⟩
      · exact List.cons_subset_cons c hsub
      · intro x
        rw [hdrop x]
        constructor
        · rintro ⟨b, hb, hnb, hbx⟩
          exact ⟨b, List.mem_cons_of_mem c hb, hnb, hbx⟩
        · rintro ⟨b, hb, hnb, hbx⟩
          rcases List.mem_cons.mp hb with rfl | hb
          · exact absurd hc hnb
          · exact ⟨b, hb, hnb, hbx⟩
    · have htree' : ∀ x, x ∈ tree ↔
          x = r ∨ ∃ p ∈ P ++ [c], Below id parent L r p ∧ id p = x := by
        intro x
        rw [htree x]
        constructor
        · rintro (rfl | ⟨p, hp, hpb, hpx⟩)
          · exact Or.inl rfl
          · exact Or.inr ⟨p, by simp [hp], hpb, hpx⟩
        · rintro (rfl | ⟨p, hp, hpb, hpx⟩)
          · exact Or.inl rfl
          · rcases List.mem_append.mp hp with hp | hp
            · exact Or.inr ⟨p, hp, hpb, hpx⟩
            · exact absurd (List.mem_singleton.mp hp ▸ hpb) hc
      obtain ⟨hfin, hkept, hsub, hdrop⟩ := ih (P ++ [c]) tree hL' htree'
      simp only [retain, (not_congr hdecide).mpr hc, if_false]
      refine ⟨hfin, ?_, ?_, ?_⟩
      · intro b hb
        rcases List.mem_cons.mp hb with rfl | hb
        · -- a later copy of `c` is dropped as well
          exact ⟨fun h => absurd ((hkept b (hsub h)).mp h) hc, fun h => absurd h hc⟩
        · exact hkept b hb
      · exact List.subset_cons_of_subset c hsub
      · intro x
        rw [List.mem_cons, hdrop x]
        constructor
        · rintro (rfl | ⟨b, hb, hnb, rfl⟩)
          · exact ⟨c, List.mem_cons_self, hc, rfl⟩
          · exact ⟨b, List.mem_cons_of_mem c hb, hnb, rfl⟩
        · rintro ⟨b, hb, hnb, rfl⟩
          rcases List.mem_cons.mp hb with rfl | hb
          · exact Or.inl rfl
          · exact Or.inr ⟨b, hb, hnb, rfl⟩

/-- **The pass keeps exactly the elements below the root.** From the root alone it keeps
the elements below it, drops the ids of the others, and ends with the ids of the root
and of the kept elements. -/
theorem retain_spec (hfirst : ParentsFirst id parent L) :
    (∀ x, x ∈ (retain id parent [r] L).1 ↔ x = r ∨ ∃ p ∈ L, Below id parent L r p ∧ id p = x) ∧
      (∀ b, b ∈ (retain id parent [r] L).2.1 ↔ b ∈ L ∧ Below id parent L r b) ∧
      ∀ x, x ∈ (retain id parent [r] L).2.2 ↔ ∃ b ∈ L, ¬ Below id parent L r b ∧ id b = x := by
  obtain ⟨hfin, hkept, hsub, hdrop⟩ :=
    @retain_spec_from _ _ id parent _ L r hfirst L [] [r] rfl (by simp)
  refine ⟨hfin, fun b => ⟨fun hb => ⟨hsub hb, (hkept b (hsub hb)).mp hb⟩, ?_⟩, hdrop⟩
  rintro ⟨hb, hbelow⟩
  exact (hkept b hb).mpr hbelow

end Spec


end Dijets.Lib.ParentPass
