import Dijets.Move.BorrowGraphInvariant
import Dijets.Lib.OptionLoop
import Dijets.Lib.Cover

/-!
# Covering and joining

`leq self other` says that `self` covers `other`: every edge of `other` has an edge of `self`
between the same references that is `≤` it, the same edge or a weak one at a prefix of its path.
`unmatched_edges` collects the edges of `other` that are not covered; `join` adds them to
`self`.

Read on strengths and paths (`EdgeKey.Leq`, `keysAt`), `leq` decides `Covers` between each two
references, on graphs where `self` has every reference of `other` (`leq_eq_some_true_iff`); so it
is a preorder (`leq_preorder`). `unmatchedEdges_spec` says what the collection holds: an edge of
`other` is covered by one of `self`, or its strength and path are among the unmatched between the
same references, and those are edges of `other` between two distinct references. `join` only adds
edges, so an edge of `self` stays; and it adds every unmatched edge and nothing else
(`addUnmatched_spec`, by `foldlM_grow` three loops deep). So the join of two graphs of the
invariant with the same references does not panic, keeps the invariant, and covers both
(`Inv.join`); and as its edges are theirs, it is their greatest lower bound (`join_meet`).
-/

set_option autoImplicit false

namespace Dijets.Move

open Dijets.Lib Dijets.Lib.OptionLoop Dijets.Lib.Cover

variable {Loc Lbl : Type} [LinearOrder Lbl]

/-- An edge covers one with its strength and path, whatever their locations. -/
theorem BorrowEdge.leq_of_key_eq {e e' : BorrowEdge Loc Lbl} (h : e.key = e'.key) : e.leq e' = true := by
  simp [BorrowEdge.leq, h]

omit [LinearOrder Lbl] in
/-- What `BorrowEdge::leq` reads of two edges, their strengths and paths: the same, or the first
weak at a prefix of the second's path. -/
def EdgeKey.Leq (k k' : EdgeKey Lbl) : Prop := k = k' ∨ k.strong = false ∧ k.path <+: k'.path

omit [LinearOrder Lbl] in
instance : IsPreorder (EdgeKey Lbl) EdgeKey.Leq where
  refl _ := Or.inl rfl
  trans a b c hab hbc := by
    rcases hab with rfl | ⟨ha, hab⟩
    · exact hbc
    · rcases hbc with rfl | ⟨-, hbc⟩
      · exact Or.inr ⟨ha, hab⟩
      · exact Or.inr ⟨ha, hab.trans hbc⟩

theorem BorrowEdge.leq_eq_true_iff {e e' : BorrowEdge Loc Lbl} : e.leq e' = true ↔ EdgeKey.Leq e.key e'.key := by
  simp [BorrowEdge.leq, EdgeKey.Leq, Paths.leq_iff_isPrefix, BorrowEdge.key]

namespace BorrowGraph

variable {a b j self other : BorrowGraph Loc Lbl}

/-- An edge of `other` from `p` to `c` is covered in `self`. -/
def Covered (self : BorrowGraph Loc Lbl) (p c : RefID) (e : EdgeKey Lbl × Loc) : Prop :=
  ∃ e' ∈ self.edges p c, (BorrowEdge.ofEntry e').leq (BorrowEdge.ofEntry e) = true

omit [LinearOrder Lbl] in
/-- The strengths and paths of the edges from `p` to `c`. -/
def keysAt (g : BorrowGraph Loc Lbl) (p c : RefID) : Set (EdgeKey Lbl) := {k | k ∈ (g.edges p c).map Prod.fst}

/-- The unmatched edges from `p` to `c`, as `unmatched_edges` looks them up. -/
def unmatchedAt (U : List (RefID × BorrowEdges Loc Lbl)) (p c : RefID) : EdgeSet Loc Lbl :=
  (SortedMap.get? c ((SortedMap.get? p U).getD [])).getD []

theorem covered_iff {p c : RefID} {e : EdgeKey Lbl × Loc} :
    Covered self p c e ↔ ∃ k ∈ self.keysAt p c, EdgeKey.Leq k e.1 := by
  constructor
  · rintro ⟨e', he', hleq⟩
    exact ⟨e'.1, List.mem_map_of_mem he', BorrowEdge.leq_eq_true_iff.mp hleq⟩
  · rintro ⟨k, hk, hleq⟩
    obtain ⟨e', he', rfl⟩ := List.mem_map.mp hk
    exact ⟨e', he', BorrowEdge.leq_eq_true_iff.mpr hleq⟩

/-! ## `leq` -/

/-- **`leq` holds of a cover.** If `self` has every reference of `other` and covers each of its
edges, `leq` does not panic and holds. -/
theorem leq_of_covered (hw : other.WellFormed) (hids : ∀ x ∈ other.ids, x ∈ self.ids)
    (hcov : ∀ p c e, e ∈ other.edges p c → Covered self p c e) : self.leq other = some true := by
  -- no edge is recorded, three loops deep
  have hU : self.unmatchedEdges other = some [] := by
    apply foldlM_fixed
    intro o ho
    obtain ⟨selfRef, hself⟩ := mem_ids_iff.mp (hids o.1 (List.mem_map_of_mem ho))
    simp only [hself, Option.bind_eq_bind, Option.bind_some]
    apply foldlM_fixed
    intro y hy
    apply foldlM_fixed
    intro e he
    obtain ⟨e', he', hleq⟩ := hcov o.1 y.1 e ((mem_edges_iff hw).mpr ⟨o.2, ho, y.2, hy, he⟩)
    rw [edges_of_get? hself] at he'
    cases hS : SortedMap.get? y.1 selfRef.borrowedBy with
    | none => simp [hS] at he'
    | some S =>
      rw [hS, Option.getD_some] at he'
      have hany : S.any (fun selfEdge => (BorrowEdge.ofEntry selfEdge).leq (BorrowEdge.ofEntry e)) = true :=
        List.any_eq_true.mpr ⟨e', he', hleq⟩
      simp [recordUnmatched, hS, hany]
  simp [leq, hU]

/-- A graph covers itself. -/
theorem leq_self (hw : a.WellFormed) : a.leq a = some true :=
  leq_of_covered hw (fun _ hx => hx) fun _ _ e he => ⟨e, he, BorrowEdge.leq_of_key_eq rfl⟩

/-! ## `unmatched_edges` -/

/-- The unmatched edges recorded are edges of `other` between two distinct references of
`self`. -/
def WellPlaced (self other : BorrowGraph Loc Lbl) (U : List (RefID × BorrowEdges Loc Lbl)) : Prop :=
  ∀ x ∈ U, ∀ y ∈ x.2, x.1 ≠ y.1 ∧ x.1 ∈ self.ids ∧ y.1 ∈ self.ids ∧ ∀ e ∈ y.2, e ∈ other.edges x.1 y.1

/-- The unmatched edges recorded only grow. -/
def UnmatchedGrows (U U' : List (RefID × BorrowEdges Loc Lbl)) : Prop :=
  ∀ p c e, e ∈ unmatchedAt U p c → e ∈ unmatchedAt U' p c

omit [LinearOrder Lbl] in
theorem unmatchedAt_insert (U : List (RefID × BorrowEdges Loc Lbl)) (p : RefID) (BP : BorrowEdges Loc Lbl) (x y : RefID) :
    unmatchedAt (SortedMap.insert p BP U) x y = if x = p then (SortedMap.get? y BP).getD [] else unmatchedAt U x y := by
  unfold unmatchedAt
  rw [SortedMap.get?_insert]
  split_ifs <;> rfl

omit [LinearOrder Lbl] in
theorem UnmatchedGrows.mem_keys {U U' : List (RefID × BorrowEdges Loc Lbl)} (h : UnmatchedGrows U U') {p c : RefID}
    {k : EdgeKey Lbl} (hk : k ∈ (unmatchedAt U p c).map Prod.fst) : k ∈ (unmatchedAt U' p c).map Prod.fst := by
  obtain ⟨e, he, rfl⟩ := List.mem_map.mp hk
  exact List.mem_map_of_mem (h p c e he)

omit [LinearOrder Lbl] in
/-- A recorded edge stands in an entry of the collection. -/
theorem exists_of_mem_unmatchedAt {U : List (RefID × BorrowEdges Loc Lbl)} {p c : RefID} {e : EdgeKey Lbl × Loc}
    (he : e ∈ unmatchedAt U p c) : ∃ BP S, (p, BP) ∈ U ∧ (c, S) ∈ BP ∧ e ∈ S := by
  unfold unmatchedAt at he
  cases hp : SortedMap.get? p U with
  | none => simp [hp, SortedMap.get?_nil] at he
  | some BP =>
    rw [hp, Option.getD_some] at he
    cases hc : SortedMap.get? c BP with
    | none => simp [hc] at he
    | some S =>
      rw [hc, Option.getD_some] at he
      exact ⟨BP, S, SortedMap.mem_of_get? hp, SortedMap.mem_of_get? hc, he⟩

section Record

variable {selfRef : Ref Loc Lbl} {p c : RefID} {U U' : List (RefID × BorrowEdges Loc Lbl)} {e : EdgeKey Lbl × Loc}

/-- The collection with `e` recorded from `p` to `c`. -/
abbrev recorded (U : List (RefID × BorrowEdges Loc Lbl)) (p c : RefID) (e : EdgeKey Lbl × Loc) :
    List (RefID × BorrowEdges Loc Lbl) :=
  SortedMap.insert p (SortedMap.insert c (SortedMap.orInsert e.1 e.2 (unmatchedAt U p c)) ((SortedMap.get? p U).getD [])) U

/-- `recordUnmatched` keeps the collection or records the edge; it records only between two
distinct references. -/
theorem recordUnmatched_eq (h : recordUnmatched selfRef p c U e = some U') :
    U' = U ∨ p ≠ c ∧ U' = recorded U p c e := by
  unfold recordUnmatched at h
  dsimp only at h
  split at h
  · split at h
    · cases h
    · rename_i hpc
      cases h
      exact Or.inr ⟨hpc, rfl⟩
  · cases h
    exact Or.inl rfl

theorem unmatchedGrows_recorded : UnmatchedGrows U (recorded U p c e) := by
  intro x y e' he'
  rw [unmatchedAt_insert]
  split_ifs with hxp
  · subst hxp
    rw [SortedMap.get?_insert]
    split_ifs with hyc
    · subst hyc
      exact SortedMap.mem_orInsert_of_mem he'
    · exact he'
  · exact he'

/-- **The innermost pass of `unmatched_edges`**, when it does not panic, only grows the
collection, and records the edge unless `self` covers it. -/
theorem recordUnmatched_of_eq_some (hself : SortedMap.get? p self.refs = some selfRef)
    (h : recordUnmatched selfRef p c U e = some U') :
    UnmatchedGrows U U' ∧ (Covered self p c e ∨ e.1 ∈ (unmatchedAt U' p c).map Prod.fst) := by
  by_cases hfound : ((SortedMap.get? c selfRef.borrowedBy).map fun parentToChild =>
      parentToChild.any fun selfEdge => (BorrowEdge.ofEntry selfEdge).leq (BorrowEdge.ofEntry e)).getD false = true
  · -- an edge of `self` covers it
    have hU : U' = U := by simpa [recordUnmatched, hfound, eq_comm] using h
    subst hU
    refine ⟨fun _ _ _ h => h, Or.inl ?_⟩
    cases hS : SortedMap.get? c selfRef.borrowedBy with
    | none => simp [hS] at hfound
    | some S =>
      simp only [hS, Option.map_some, Option.getD_some] at hfound
      obtain ⟨e', he', hleq⟩ := List.any_eq_true.mp hfound
      refine ⟨e', ?_, hleq⟩
      rw [edges_of_get? hself, hS]
      exact he'
  · -- it is recorded, under the parent and the child
    have hU : U' = recorded U p c e := by
      unfold recordUnmatched at h
      dsimp only at h
      rw [if_pos (by simpa using hfound)] at h
      split at h
      · cases h
      · exact (Option.some.inj h).symm
    subst hU
    refine ⟨unmatchedGrows_recorded, Or.inr ?_⟩
    rw [unmatchedAt_insert, if_pos rfl, SortedMap.get?_insert_self, Option.getD_some]
    exact SortedMap.mem_keys_orInsert_self

/-- Recording an edge of `other` between two distinct references of `self` keeps the collection
well placed. -/
theorem WellPlaced.recorded (hU : WellPlaced self other U) (hpc : p ≠ c) (hp : p ∈ self.ids) (hc : c ∈ self.ids)
    (he : e ∈ other.edges p c) : WellPlaced self other (recorded U p c e) := by
  intro x hx y hy
  rcases SortedMap.mem_of_mem_insert hx with rfl | hx
  · rcases SortedMap.mem_of_mem_insert hy with rfl | hy
    · refine ⟨hpc, hp, hc, fun e' he' => ?_⟩
      rcases SortedMap.mem_of_mem_orInsert he' with rfl | he'
      · exact he
      · -- an edge recorded before between the same references
        obtain ⟨BP, S, hBP, hS, he'S⟩ := exists_of_mem_unmatchedAt he'
        exact (hU _ hBP _ hS).2.2.2 e' he'S
    · -- an old entry of the parent's
      cases hp' : SortedMap.get? p U with
      | none => simp [hp'] at hy
      | some BP₀ =>
        rw [hp', Option.getD_some] at hy
        exact hU _ (SortedMap.mem_of_get? hp') y hy
  · exact hU x hx y hy

/-- Between two distinct references of `self`, the innermost pass does not panic. -/
theorem recordUnmatched_spec (hself : SortedMap.get? p self.refs = some selfRef) (hU : WellPlaced self other U)
    (hpc : p ≠ c) (hp : p ∈ self.ids) (hc : c ∈ self.ids) (he : e ∈ other.edges p c) :
    ∃ U', recordUnmatched selfRef p c U e = some U' ∧ WellPlaced self other U' ∧ UnmatchedGrows U U' ∧
      (Covered self p c e ∨ e.1 ∈ (unmatchedAt U' p c).map Prod.fst) := by
  have hsome : ∃ U', recordUnmatched selfRef p c U e = some U' := by
    unfold recordUnmatched
    dsimp only
    split <;> simp
  obtain ⟨U', hU'⟩ := hsome
  refine ⟨U', hU', ?_, recordUnmatched_of_eq_some hself hU'⟩
  rcases recordUnmatched_eq hU' with rfl | ⟨-, rfl⟩
  exacts [hU, hU.recorded hpc hp hc he]

end Record

/-- **What `unmatched_edges` collects.** Between two graphs of the invariant with the same
references it does not panic; each edge of `other` is covered in `self` or recorded, and what it
records are edges of `other` between two distinct references. -/
theorem unmatchedEdges_spec (hb : b.Inv) (hids : ∀ x, x ∈ a.ids ↔ x ∈ b.ids) :
    ∃ U, a.unmatchedEdges b = some U ∧ WellPlaced a b U ∧
      ∀ p c e, e ∈ b.edges p c → Covered a p c e ∨ e.1 ∈ (unmatchedAt U p c).map Prod.fst := by
  have hgrow := fun (p c : RefID) (e : EdgeKey Lbl × Loc) (U U' : List (RefID × BorrowEdges Loc Lbl))
      (h : Covered a p c e ∨ e.1 ∈ (unmatchedAt U p c).map Prod.fst) (hUU' : UnmatchedGrows U U') =>
    h.imp_right hUU'.mem_keys
  have key : ∃ U, a.unmatchedEdges b = some U ∧ WellPlaced a b U ∧ UnmatchedGrows [] U ∧
      ∀ o ∈ b.refs, ∀ y ∈ o.2.borrowedBy, ∀ e ∈ y.2, Covered a o.1 y.1 e ∨ e.1 ∈ (unmatchedAt U o.1 y.1).map Prod.fst :=
    foldlM_grow (l := b.refs) (WellPlaced a b) UnmatchedGrows
      (fun o U => ∀ y ∈ o.2.borrowedBy, ∀ e ∈ y.2, Covered a o.1 y.1 e ∨ e.1 ∈ (unmatchedAt U o.1 y.1).map Prod.fst)
      (fun _ _ _ _ h => h) (fun _ _ _ h₁ h₂ p c e he => h₂ p c e (h₁ p c e he))
      (fun o U U' hP hUU' y hy e he => hgrow _ _ _ U U' (hP y hy e he) hUU')
      (fun o ho U hU => by
        have hoa : o.1 ∈ a.ids := (hids o.1).mpr (List.mem_map_of_mem ho)
        obtain ⟨selfRef, hself⟩ := mem_ids_iff.mp hoa
        -- the middle loop, over the borrowers of `o` in `other`
        obtain ⟨U', hU', hI', hR', hP'⟩ := foldlM_grow (l := o.2.borrowedBy)
          (f := fun unmatched c => c.2.foldlM (recordUnmatched selfRef o.1 c.1) unmatched)
          (WellPlaced a b) UnmatchedGrows
          (fun y U => ∀ e ∈ y.2, Covered a o.1 y.1 e ∨ e.1 ∈ (unmatchedAt U o.1 y.1).map Prod.fst)
          (fun _ _ _ _ h => h) (fun _ _ _ h₁ h₂ p c e he => h₂ p c e (h₁ p c e he))
          (fun y U U' hP hUU' e he => hgrow _ _ _ U U' (hP e he) hUU')
          (fun y hy U hU => by
            have hyout : y.1 ∈ b.out o.1 := (mem_out_iff hb.toWellFormed).mpr ⟨o.2, ho, List.mem_map_of_mem hy⟩
            have hya : y.1 ∈ a.ids := (hids y.1).mpr (hb.mem_ids_of_mem_out hyout)
            -- the innermost loop, over the edges to that borrower
            exact foldlM_grow (l := y.2) (WellPlaced a b) UnmatchedGrows
              (fun e U => Covered a o.1 y.1 e ∨ e.1 ∈ (unmatchedAt U o.1 y.1).map Prod.fst)
              (fun _ _ _ _ h => h) (fun _ _ _ h₁ h₂ p c e he => h₂ p c e (h₁ p c e he))
              (fun e U U' hP hUU' => hgrow _ _ _ U U' hP hUU')
              (fun e he U hU => recordUnmatched_spec hself hU (hb.ne_of_mem_out hyout) hoa hya
                ((mem_edges_iff hb.toWellFormed).mpr ⟨o.2, ho, y.2, hy, he⟩)) U hU) U hU
        exact ⟨U', by simp [hself, hU'], hI', hR', hP'⟩) [] (fun _ hx => absurd hx List.not_mem_nil)
  obtain ⟨U, hU, hI, -, hP⟩ := key
  refine ⟨U, hU, hI, fun p c e he => ?_⟩
  obtain ⟨r, hr, S, hS, he⟩ := (mem_edges_iff hb.toWellFormed).mp he
  exact hP (p, r) hr (c, S) hS e he

/-- What `unmatched_edges` has collected when it did not panic: `self` has every reference of
`other`, and each edge of `other` is covered in `self` or recorded. -/
theorem covered_of_unmatchedEdges (hw : other.WellFormed) {U : List (RefID × BorrowEdges Loc Lbl)}
    (h : self.unmatchedEdges other = some U) :
    (∀ x ∈ other.ids, x ∈ self.ids) ∧
      ∀ p c e, e ∈ other.edges p c → Covered self p c e ∨ e.1 ∈ (unmatchedAt U p c).map Prod.fst := by
  have hgrow := fun (p c : RefID) (e : EdgeKey Lbl × Loc) (U U' : List (RefID × BorrowEdges Loc Lbl))
      (h : Covered self p c e ∨ e.1 ∈ (unmatchedAt U p c).map Prod.fst) (hUU' : UnmatchedGrows U U') =>
    h.imp_right hUU'.mem_keys
  obtain ⟨-, -, hP⟩ := foldlM_grow_of_eq_some (l := other.refs) (fun _ => True) UnmatchedGrows
    (fun o U => o.1 ∈ self.ids ∧
      ∀ y ∈ o.2.borrowedBy, ∀ e ∈ y.2, Covered self o.1 y.1 e ∨ e.1 ∈ (unmatchedAt U o.1 y.1).map Prod.fst)
    (fun _ _ _ _ h => h) (fun _ _ _ h₁ h₂ p c e he => h₂ p c e (h₁ p c e he))
    (fun o U U' hP hUU' => ⟨hP.1, fun y hy e he => hgrow _ _ _ U U' (hP.2 y hy e he) hUU'⟩)
    (fun o _ U U' _ hU' => by
      -- `&self.0[parent_id]` did not panic
      obtain ⟨selfRef, hself, hloop⟩ := Option.bind_eq_some_iff.mp hU'
      obtain ⟨-, hR, hP⟩ := foldlM_grow_of_eq_some (l := o.2.borrowedBy)
        (f := fun unmatched c => c.2.foldlM (recordUnmatched selfRef o.1 c.1) unmatched) (fun _ => True)
        UnmatchedGrows (fun y U => ∀ e ∈ y.2, Covered self o.1 y.1 e ∨ e.1 ∈ (unmatchedAt U o.1 y.1).map Prod.fst)
        (fun _ _ _ _ h => h) (fun _ _ _ h₁ h₂ p c e he => h₂ p c e (h₁ p c e he))
        (fun y U U' hP hUU' e he => hgrow _ _ _ U U' (hP e he) hUU')
        (fun y _ U U' _ hU' => foldlM_grow_of_eq_some (l := y.2) (fun _ => True) UnmatchedGrows
          (fun e U => Covered self o.1 y.1 e ∨ e.1 ∈ (unmatchedAt U o.1 y.1).map Prod.fst)
          (fun _ _ _ _ h => h) (fun _ _ _ h₁ h₂ p c e he => h₂ p c e (h₁ p c e he))
          (fun e U U' hP hUU' => hgrow _ _ _ U U' hP hUU')
          (fun e _ U U' _ hU' => ⟨trivial, recordUnmatched_of_eq_some hself hU'⟩) U U' trivial hU') U U' trivial hloop
      exact ⟨trivial, hR, mem_ids_iff.mpr ⟨selfRef, hself⟩, hP⟩) [] U trivial h
  refine ⟨fun x hx => ?_, fun p c e he => ?_⟩
  · obtain ⟨o, ho, rfl⟩ := List.mem_map.mp hx
    exact (hP o ho).1
  · obtain ⟨r, hr, S, hS, he⟩ := (mem_edges_iff hw).mp he
    exact (hP (p, r) hr).2 (c, S) hS e he

/-- **What `leq` decides.** Against a well-formed graph `other`, `leq` does not panic and holds
exactly when `self` has every reference of `other` and, between each two references, the
strengths and paths of `self` cover those of `other`. -/
theorem leq_eq_some_true_iff (hw : other.WellFormed) :
    self.leq other = some true ↔
      (∀ x ∈ other.ids, x ∈ self.ids) ∧ ∀ p c, Covers EdgeKey.Leq (self.keysAt p c) (other.keysAt p c) := by
  constructor
  · intro h
    obtain ⟨U, hU, hempty⟩ := Option.map_eq_some_iff.mp h
    obtain rfl : U = [] := List.isEmpty_iff.mp hempty
    obtain ⟨hids, hcov⟩ := covered_of_unmatchedEdges hw hU
    refine ⟨hids, fun p c k hk => ?_⟩
    obtain ⟨e, he, rfl⟩ := List.mem_map.mp hk
    rcases hcov p c e he with hcov | hrec
    · exact covered_iff.mp hcov
    · simp [unmatchedAt, SortedMap.get?_nil] at hrec
  · rintro ⟨hids, hcov⟩
    exact leq_of_covered hw hids fun p c e he => covered_iff.mpr (hcov p c e.1 (List.mem_map_of_mem he))

/-- **`leq` is a preorder** on well-formed graphs: every graph covers itself, and a graph
covering one that covers a third covers the third. -/
theorem leq_preorder :
    (∀ a : BorrowGraph Loc Lbl, a.WellFormed → a.leq a = some true) ∧
    ∀ a b c : BorrowGraph Loc Lbl, b.WellFormed → c.WellFormed →
      a.leq b = some true → b.leq c = some true → a.leq c = some true := by
  refine ⟨fun a ha => leq_self ha, fun a b c hb hc hab hbc => ?_⟩
  obtain ⟨hids₁, hcov₁⟩ := (leq_eq_some_true_iff hb).mp hab
  obtain ⟨hids₂, hcov₂⟩ := (leq_eq_some_true_iff hc).mp hbc
  exact (leq_eq_some_true_iff hc).mpr ⟨fun x hx => hids₁ x (hids₂ x hx), fun p q => (hcov₁ p q).trans (hcov₂ p q)⟩

/-! ## `join` -/

/-- **The loops of `join`** add to a graph of the invariant the edges recorded between two
distinct references of it, without panicking: the result keeps the invariant, the references
and every old edge, has each recorded edge's strength and path, and no other. -/
theorem addUnmatched_spec (ha : a.Inv) {U : List (RefID × BorrowEdges Loc Lbl)} (hU : WellPlaced a b U) :
    ∃ j, a.addUnmatched U = some j ∧ j.Inv ∧ (∀ x, x ∈ j.ids ↔ x ∈ a.ids) ∧ EdgesGrow a j ∧
      (∀ x ∈ U, ∀ y ∈ x.2, ∀ e ∈ y.2, e.1 ∈ (j.edges x.1 y.1).map Prod.fst) ∧
      ∀ p c, j.keysAt p c ⊆ a.keysAt p c ∪ b.keysAt p c := by
  -- the state: the invariant, the references of `a`, and edges only from `a` or `b`
  set I : BorrowGraph Loc Lbl → Prop := fun G => (G.Inv ∧ ∀ x, x ∈ G.ids ↔ x ∈ a.ids) ∧
    ∀ p c, G.keysAt p c ⊆ a.keysAt p c ∪ b.keysAt p c with hI
  have key : ∃ j, a.addUnmatched U = some j ∧ I j ∧ EdgesGrow a j ∧
      ∀ x ∈ U, ∀ y ∈ x.2, ∀ e ∈ y.2, e.1 ∈ (j.edges x.1 y.1).map Prod.fst :=
    foldlM_grow (l := U) I EdgesGrow
      (fun (x : RefID × BorrowEdges Loc Lbl) (G : BorrowGraph Loc Lbl) => ∀ y ∈ x.2, ∀ e ∈ y.2, e.1 ∈ (G.edges x.1 y.1).map Prod.fst)
      (fun _ _ _ _ h => h) (fun _ _ _ => EdgesGrow.trans) (fun x G G' hP hGG' y hy e he => hGG'.mem_keys (hP y hy e he))
      (fun x hx G hG =>
        foldlM_grow (l := x.2) I EdgesGrow
          (fun y G => ∀ e ∈ y.2, e.1 ∈ (G.edges x.1 y.1).map Prod.fst)
          (fun _ _ _ _ h => h) (fun _ _ _ => EdgesGrow.trans) (fun y G G' hP hGG' e he => hGG'.mem_keys (hP e he))
          (fun y hy G hG =>
            foldlM_grow (l := y.2) I EdgesGrow
              (fun e G => e.1 ∈ (G.edges x.1 y.1).map Prod.fst)
              (fun _ _ _ _ h => h) (fun _ _ _ => EdgesGrow.trans) (fun e G G' hP hGG' => hGG'.mem_keys hP)
              (fun e he G hG => by
                -- each recorded edge is one of `b` between two distinct references, so `add_edge`
                -- does not panic
                obtain ⟨hxy, hxa, hya, hb⟩ := hU x hx y hy
                obtain ⟨G', hG', hinv', hadd⟩ := hG.1.1.addEdge hxy ((hG.1.2 _).mpr hxa) ((hG.1.2 _).mpr hya)
                  (BorrowEdge.ofEntry e)
                refine ⟨G', hG', ⟨⟨hinv', fun z => (hadd.ids_iff z).trans (hG.1.2 z)⟩, fun p c k hk => ?_⟩,
                  hadd.edgesGrow, hadd.mem_keys⟩
                rcases hadd.mem_keys_iff.mp hk with hk | ⟨rfl, rfl, rfl⟩
                · exact hG.2 p c hk
                · exact Or.inr (List.mem_map_of_mem (f := Prod.fst) (hb e he)))
              G hG) G hG) a ⟨⟨ha, fun _ => Iff.rfl⟩, fun _ _ _ hk => Or.inl hk⟩
  obtain ⟨j, hj, ⟨⟨hinv, hids⟩, hsub⟩, hgrow, hall⟩ := key
  exact ⟨j, hj, hinv, hids, hgrow, hall, hsub⟩

/-- The join of two graphs of the invariant with the same references does not panic; it keeps
the invariant and the references, covers both, and its strengths and paths are theirs. -/
theorem join_spec (ha : a.Inv) (hb : b.Inv) (hids : ∀ x, x ∈ a.ids ↔ x ∈ b.ids) :
    ∃ j, a.join b = some j ∧ j.Inv ∧ (∀ x, x ∈ j.ids ↔ x ∈ a.ids) ∧ j.leq a = some true ∧
      j.leq b = some true ∧ ∀ p c, j.keysAt p c ⊆ a.keysAt p c ∪ b.keysAt p c := by
  obtain ⟨U, hU, hwp, hcov⟩ := unmatchedEdges_spec hb hids
  obtain ⟨j, hj, hinv, hjids, hgrow, hall, hsub⟩ := addUnmatched_spec ha hwp
  refine ⟨j, by simp [BorrowGraph.join, hU, hj], hinv, hjids, ?_, ?_, hsub⟩
  · -- every edge of `a` is still there
    exact leq_of_covered ha.toWellFormed (fun x hx => (hjids x).mpr hx)
      fun p c e he => ⟨e, hgrow p c e he, BorrowEdge.leq_of_key_eq rfl⟩
  · refine leq_of_covered hb.toWellFormed (fun x hx => (hjids x).mpr ((hids x).mpr hx)) fun p c e he => ?_
    rcases hcov p c e he with ⟨e', he', hleq⟩ | hk
    · exact ⟨e', hgrow p c e' he', hleq⟩
    · -- recorded, so the join has an edge with its strength and path
      obtain ⟨e'', he'', hkey⟩ := List.mem_map.mp hk
      obtain ⟨BP, S, hBP, hS, he''S⟩ := exists_of_mem_unmatchedAt he''
      have hin := hall (p, BP) hBP (c, S) hS e'' he''S
      rw [hkey] at hin
      obtain ⟨e₃, he₃, hk₃⟩ := List.mem_map.mp hin
      exact ⟨e₃, he₃, BorrowEdge.leq_of_key_eq hk₃⟩

/-- **Joining keeps the invariant and covers both graphs.** The join of two graphs of the
invariant with the same references does not panic; it keeps the invariant and the references,
and every edge of either graph is covered by an edge of the join between the same references. -/
theorem Inv.join (ha : a.Inv) (hb : b.Inv) (hids : ∀ x, x ∈ a.ids ↔ x ∈ b.ids) :
    ∃ j, a.join b = some j ∧ j.Inv ∧ (∀ x, x ∈ j.ids ↔ x ∈ a.ids) ∧ j.leq a = some true ∧ j.leq b = some true := by
  obtain ⟨j, hj, hinv, hjids, hja, hjb, -⟩ := join_spec ha hb hids
  exact ⟨j, hj, hinv, hjids, hja, hjb⟩

/-- **`join` is the meet for `leq`.** The join of two graphs of the invariant with the same
references does not panic, keeps the invariant, and is their greatest lower bound: a graph
covers the join exactly when it covers both. -/
theorem join_meet (ha : a.Inv) (hb : b.Inv) (hids : ∀ x, x ∈ a.ids ↔ x ∈ b.ids) :
    ∃ j, a.join b = some j ∧ j.Inv ∧
      ∀ g : BorrowGraph Loc Lbl, g.leq j = some true ↔ g.leq a = some true ∧ g.leq b = some true := by
  obtain ⟨j, hj, hinv, hjids, hja, hjb, hsub⟩ := join_spec ha hb hids
  obtain ⟨-, hcova⟩ := (leq_eq_some_true_iff ha.toWellFormed).mp hja
  obtain ⟨-, hcovb⟩ := (leq_eq_some_true_iff hb.toWellFormed).mp hjb
  refine ⟨j, hj, hinv, fun g => ?_⟩
  rw [leq_eq_some_true_iff hinv.toWellFormed, leq_eq_some_true_iff ha.toWellFormed,
    leq_eq_some_true_iff hb.toWellFormed]
  -- between each two references the join's strengths and paths are a greatest lower bound of
  -- theirs, and its references are theirs
  have hmeet : ∀ p c, Covers EdgeKey.Leq (g.keysAt p c) (j.keysAt p c) ↔
      Covers EdgeKey.Leq (g.keysAt p c) (a.keysAt p c) ∧ Covers EdgeKey.Leq (g.keysAt p c) (b.keysAt p c) :=
    fun p c => covers_iff_of_subset_union (hsub p c) (hcova p c) (hcovb p c)
  simp only [hmeet, hjids]
  constructor
  · rintro ⟨hg, hcov⟩
    exact ⟨⟨hg, fun p c => (hcov p c).1⟩, fun x hx => hg x ((hids x).mpr hx), fun p c => (hcov p c).2⟩
  · rintro ⟨⟨hg, hcov₁⟩, -, hcov₂⟩
    exact ⟨hg, fun p c => ⟨hcov₁ p c, hcov₂ p c⟩⟩

/-- Two graphs of references `0` and `1`: in one `1` borrows from `0` exactly, in the other from
its field `7`. -/
def strongBorrow : BorrowGraph Unit ℕ :=
  ⟨[(0, ⟨[(1, [(⟨true, []⟩, ())])], [], true⟩), (1, ⟨[], [(0, ())], true⟩)]⟩

def fieldBorrow : BorrowGraph Unit ℕ :=
  ⟨[(0, ⟨[(1, [(⟨false, [7]⟩, ())])], [], true⟩), (1, ⟨[], [(0, ())], true⟩)]⟩

theorem join_meet_strong_field :
    ∃ j, strongBorrow.join fieldBorrow = some j ∧ j.Inv ∧ ∀ g : BorrowGraph Unit ℕ,
      g.leq j = some true ↔ g.leq strongBorrow = some true ∧ g.leq fieldBorrow = some true :=
  join_meet (by decide) (by decide) (fun _ => Iff.rfl)

end BorrowGraph

end Dijets.Move
