import Mathlib

/-!
# Loops that may panic

A Rust loop whose body may panic (an `unwrap` of `None`, an `assert!` that fails) is a
`List.foldlM` in `Option`, with `none` for the panic. Such a loop is shown not to panic, and to
end in a state with a property, by an invariant of the entries done so far that every pass
keeps without panicking (`foldlM_invariant`). A pass knows where it stands in the list, so the
invariant may speak of the entries still to come as well. `foldlM_const` is the rule for an
invariant that does not depend on the entries done, and `foldlM_grow` the rule for a loop that
only adds to its state, each pass leaving something about its own entry that later passes keep.
`foldlM_grow_of_eq_some` is that rule read the other way: what a loop that did not panic has
left, whatever the passes that would have panicked.
-/

set_option autoImplicit false

namespace Dijets.Lib.OptionLoop

variable {α σ : Type*}

@[simp] theorem foldlM_nil_some (f : σ → α → Option σ) (s : σ) : ([] : List α).foldlM f s = some s := rfl

theorem foldlM_cons_some (f : σ → α → Option σ) (x : α) (l : List α) (s : σ) :
    (x :: l).foldlM f s = (f s x).bind fun s' => l.foldlM f s' := rfl

/-- A pass of a loop over a list whose entries' images under `f` do not repeat has not met its
entry's image before: the passes are at distinct keys. -/
theorem not_mem_map_prefix {β : Type*} {f : α → β} {l pre suf : List α} {x : α} (hl : l = pre ++ x :: suf)
    (hnd : (l.map f).Nodup) : f x ∉ pre.map f := by
  rw [hl, List.map_append, List.map_cons] at hnd
  exact fun hmem => (List.nodup_append.mp hnd).2.2 _ hmem _ List.mem_cons_self rfl

/-- **The loop rule.** If every pass, at an entry `x` with the entries `pre` before it and an
invariant of `pre`, succeeds with the invariant of `pre ++ [x]`, the whole loop succeeds with
the invariant of all the entries. -/
theorem foldlM_invariant {f : σ → α → Option σ} {l : List α} (I : List α → σ → Prop)
    (hstep : ∀ pre x suf s, l = pre ++ x :: suf → I pre s → ∃ s', f s x = some s' ∧ I (pre ++ [x]) s') :
    ∀ s, I [] s → ∃ s', l.foldlM f s = some s' ∧ I l s' := by
  -- the loop from any point of the list: the entries done and those to come make up `l`
  have key : ∀ suf pre s, l = pre ++ suf → I pre s → ∃ s', suf.foldlM f s = some s' ∧ I l s' := by
    intro suf
    induction suf with
    | nil =>
      intro pre s hl hs
      rw [List.append_nil] at hl
      exact ⟨s, rfl, hl ▸ hs⟩
    | cons x suf ih =>
      intro pre s hl hs
      obtain ⟨s₁, h₁, hs₁⟩ := hstep pre x suf s hl hs
      obtain ⟨s', h', hs'⟩ := ih (pre ++ [x]) s₁ (by rw [hl, List.append_assoc, List.singleton_append]) hs₁
      exact ⟨s', by rw [foldlM_cons_some, h₁, Option.bind_some]; exact h', hs'⟩
  intro s hs
  exact key l [] s rfl hs

/-- The loop rule for an invariant of the state alone. -/
theorem foldlM_const {f : σ → α → Option σ} {l : List α} (I : σ → Prop)
    (hstep : ∀ x ∈ l, ∀ s, I s → ∃ s', f s x = some s' ∧ I s') :
    ∀ s, I s → ∃ s', l.foldlM f s = some s' ∧ I s' := by
  intro s hs
  refine foldlM_invariant (fun _ s => I s) (fun pre x suf s hl hs => hstep x ?_ s hs) s hs
  rw [hl]
  exact List.mem_append_right _ List.mem_cons_self

/-- A loop each of whose passes leaves the state as it is returns it. -/
theorem foldlM_fixed {f : σ → α → Option σ} {l : List α} {s : σ} (h : ∀ x ∈ l, f s x = some s) :
    l.foldlM f s = some s := by
  induction l with
  | nil => rfl
  | cons x l ih =>
    rw [foldlM_cons_some, h x List.mem_cons_self, Option.bind_some]
    exact ih fun y hy => h y (List.mem_cons_of_mem _ hy)

/-- **The loop rule for a growing state.** If every pass keeps `I`, lets the state only grow
(`R`, reflexive and transitive) and leaves a property `P` of its own entry, which growing keeps,
then the loop ends grown, with `I`, and with `P` of every entry. Loops of loops nest: the inner
loop's conclusion is the outer pass's premise, with `P` of an outer entry being `P` of all its
inner ones. -/
theorem foldlM_grow {f : σ → α → Option σ} {l : List α} (I : σ → Prop) (R : σ → σ → Prop)
    (P : α → σ → Prop) (hrefl : ∀ s, R s s) (htrans : ∀ s₁ s₂ s₃, R s₁ s₂ → R s₂ s₃ → R s₁ s₃)
    (hP : ∀ x s s', P x s → R s s' → P x s')
    (hstep : ∀ x ∈ l, ∀ s, I s → ∃ s', f s x = some s' ∧ I s' ∧ R s s' ∧ P x s') :
    ∀ s, I s → ∃ s', l.foldlM f s = some s' ∧ I s' ∧ R s s' ∧ ∀ x ∈ l, P x s' := by
  induction l with
  | nil => exact fun s hs => ⟨s, rfl, hs, hrefl s, fun _ hx => absurd hx List.not_mem_nil⟩
  | cons x l ih =>
    intro s hs
    obtain ⟨s₁, h₁, hs₁, hR₁, hP₁⟩ := hstep x List.mem_cons_self s hs
    obtain ⟨s', h', hs', hR', hP'⟩ := ih (fun y hy => hstep y (List.mem_cons_of_mem _ hy)) s₁ hs₁
    refine ⟨s', by rw [foldlM_cons_some, h₁, Option.bind_some]; exact h', hs', htrans _ _ _ hR₁ hR', ?_⟩
    intro y hy
    rcases List.mem_cons.mp hy with rfl | hy
    · exact hP y s₁ s' hP₁ hR'
    · exact hP' y hy

/-- A loop that returned: every pass that returns keeps `I`, only grows the state under `R` and
leaves its entry's `P`, which later growth keeps; so the end state has them all. -/
theorem foldlM_grow_of_eq_some {f : σ → α → Option σ} {l : List α} (I : σ → Prop) (R : σ → σ → Prop)
    (P : α → σ → Prop) (hrefl : ∀ s, R s s) (htrans : ∀ s₁ s₂ s₃, R s₁ s₂ → R s₂ s₃ → R s₁ s₃)
    (hP : ∀ x s s', P x s → R s s' → P x s')
    (hstep : ∀ x ∈ l, ∀ s s', I s → f s x = some s' → I s' ∧ R s s' ∧ P x s') :
    ∀ s s', I s → l.foldlM f s = some s' → I s' ∧ R s s' ∧ ∀ x ∈ l, P x s' := by
  induction l with
  | nil =>
    intro s s' hs h
    rw [foldlM_nil_some, Option.some.injEq] at h
    subst h
    exact ⟨hs, hrefl s, fun _ hx => absurd hx List.not_mem_nil⟩
  | cons x l ih =>
    intro s s' hs h
    rw [foldlM_cons_some, Option.bind_eq_some_iff] at h
    obtain ⟨s₁, h₁, h'⟩ := h
    obtain ⟨hs₁, hR₁, hP₁⟩ := hstep x List.mem_cons_self s s₁ hs h₁
    obtain ⟨hs', hR', hP'⟩ := ih (fun y hy => hstep y (List.mem_cons_of_mem _ hy)) s₁ s' hs₁ h'
    refine ⟨hs', htrans _ _ _ hR₁ hR', fun y hy => ?_⟩
    rcases List.mem_cons.mp hy with rfl | hy
    · exact hP y s₁ s' hP₁ hR'
    · exact hP' y hy

end Dijets.Lib.OptionLoop
