import Mathlib

/-!
# Checks in `Except`

A checker written as a sequence of fallible checks, each returning `Except ε Unit`,
and loops of them (`for x in xs { check(x)? }`, which is `List.forM`), passes
exactly when each of its checks passes. This file says so once, for a bind
(`bind_eq_ok`), for a loop (`forM_eq_ok`) and for a loop over positions
(`forM_zipIdx_eq_ok`), so that a checker's specification is proved check by
check and never by unfolding the monad. A check that an index is in range of a
table, followed by a check of the entry there if there is one, is a check that
the entry exists and passes (`index_and_entry_iff`, and `optIndex_and_entry_iff`
for a table that may be absent). A loop that threads a state through `foldlM` is
proved by an invariant of the entries done so far (`foldlM_prefix_ok`, and
`foldlM_prefix_error` for the step at which a failing run stops); one that appends each
entry's bytes to a buffer appends all of them (`foldlM_append_eq`).
-/

set_option autoImplicit false

namespace Dijets.Lib.Check

variable {ε α β : Type}

theorem bind_eq_ok {x : Except ε α} {f : α → Except ε β} {b : β} :
    x >>= f = .ok b ↔ ∃ a, x = .ok a ∧ f a = .ok b := by
  cases x <;> simp [bind, Except.bind]

/-- A sequence of two checks passes iff both do. -/
@[simp] theorem seq_eq_ok {x : Except ε Unit} {y : Except ε β} {b : β} :
    (x >>= fun _ => y) = .ok b ↔ x = .ok () ∧ y = .ok b := by
  cases x <;> simp [bind, Except.bind]

@[simp] theorem ok_bind {a : α} {f : α → Except ε β} : (Except.ok a >>= f) = f a := rfl

@[simp] theorem pure_eq_ok {a b : α} : (pure a : Except ε α) = .ok b ↔ a = b := by
  simp [pure, Except.pure]

@[simp] theorem ok_eq_ok {a b : α} : (Except.ok a : Except ε α) = .ok b ↔ a = b := by
  simp

@[simp] theorem error_ne_ok {e : ε} {b : α} : (Except.error e : Except ε α) ≠ .ok b := by
  simp

@[simp] theorem throw_eq_ok {e : ε} {b : α} : (throw e : Except ε α) = .ok b ↔ False := by
  simp [throw, throwThe, MonadExceptOf.throw]

/-- A guard `if c then throw e` passes iff `c` fails. -/
@[simp] theorem ite_throw_eq_ok {c : Prop} [Decidable c] {e : ε} :
    (if c then throw e else pure () : Except ε Unit) = .ok () ↔ ¬ c := by
  split <;> simp_all

/-- A loop of checks passes iff every check does. It is stated for `forM`, the simp
normal form of `List.forM`. -/
@[simp] theorem forM_eq_ok {l : List α} {f : α → Except ε Unit} :
    forM l f = .ok () ↔ ∀ x ∈ l, f x = .ok () := by
  rw [← List.forM_eq_forM]
  induction l with
  | nil => simp [List.forM, pure, Except.pure]
  | cons a l ih =>
    simp only [List.forM, seq_eq_ok, List.mem_cons, forall_eq_or_imp]
    rw [ih]

/-- A loop of checks over the entries and their positions (`enumerate`) passes iff the
check of each position does. -/
theorem forM_zipIdx_eq_ok {l : List α} {f : α × ℕ → Except ε Unit} :
    forM l.zipIdx f = .ok () ↔ ∀ i (h : i < l.length), f (l[i], i) = .ok () := by
  rw [forM_eq_ok]
  constructor
  · intro hall i hi
    exact hall _ (List.mem_zipIdx_iff_getElem?.mpr (by simp [hi]))
  · rintro hall ⟨x, i⟩ hmem
    obtain ⟨hi, hx⟩ := List.getElem?_eq_some_iff.mp (List.mem_zipIdx_iff_getElem?.mp hmem)
    have hx : l[i] = x := hx
    rw [← hx]
    exact hall i hi

/-- A fact of every entry of a loop over positions that does not read the position. -/
theorem forall_mem_zipIdx_fst {l : List α} {P : α → Prop} :
    (∀ x ∈ l.zipIdx, P x.1) ↔ ∀ a ∈ l, P a := by
  constructor
  · intro h a ha
    obtain ⟨i, hi, rfl⟩ := List.getElem_of_mem ha
    exact h (l[i], i) (List.mem_zipIdx_iff_getElem?.mpr (by simp [hi]))
  · rintro h ⟨a, i⟩ hmem
    obtain ⟨hi, hx⟩ := List.getElem?_eq_some_iff.mp (List.mem_zipIdx_iff_getElem?.mp hmem)
    have hx : l[i] = a := hx
    exact hx ▸ h _ (List.getElem_mem hi)

theorem exists_mem_zipIdx_fst {l : List α} {P : α → Prop} :
    (∃ x ∈ l.zipIdx, P x.1) ↔ ∃ a ∈ l, P a := by
  rw [← not_iff_not]
  simp only [not_exists, not_and]
  exact forall_mem_zipIdx_fst (P := fun a => ¬ P a)

/-- **Accumulating loop rule.** A `foldlM` each of whose steps, from a state with `I`,
succeeds in a state with `I` of which `E` holds what it held before and `C x` besides,
succeeds, and `E` then holds of the start's and of every step's contribution. -/
theorem foldlM_accumulate {σ γ : Type} {f : σ → α → Except ε σ} (I : σ → Prop)
    (E : σ → γ → Prop) (C : α → γ → Prop) {l : List α}
    (hstep : ∀ s x, x ∈ l → I s → ∃ s', f s x = .ok s' ∧ I s' ∧ ∀ c, E s' c ↔ E s c ∨ C x c) :
    ∀ s, I s → ∃ s', l.foldlM f s = .ok s' ∧ I s' ∧ ∀ c, E s' c ↔ E s c ∨ ∃ x ∈ l, C x c := by
  induction l with
  | nil => exact fun s hs => ⟨s, rfl, hs, by simp⟩
  | cons x l ih =>
    intro s hs
    obtain ⟨s₁, h₁, hs₁, hE₁⟩ := hstep s x List.mem_cons_self hs
    obtain ⟨s', h', hs', hE'⟩ :=
      ih (fun s y hy => hstep s y (List.mem_cons_of_mem x hy)) s₁ hs₁
    refine ⟨s', ?_, hs', fun c => ?_⟩
    · rw [List.foldlM_cons, h₁]
      exact h'
    · rw [hE', hE₁]
      simp only [List.mem_cons, exists_eq_or_imp]
      tauto

/-- **Checking loop rule.** A `foldlM` whose step at an entry succeeds, from any state,
exactly when the entry has `G` succeeds exactly when every entry has `G`. -/
theorem foldlM_isOk_iff {σ : Type} {f : σ → α → Except ε σ} (G : α → Prop) {l : List α}
    (hstep : ∀ s x, x ∈ l → ((∃ s', f s x = .ok s') ↔ G x)) :
    ∀ s, (∃ s', l.foldlM f s = .ok s') ↔ ∀ x ∈ l, G x := by
  induction l with
  | nil => exact fun s => by simp
  | cons x l ih =>
    intro s
    have ih := ih fun s y hy => hstep s y (List.mem_cons_of_mem x hy)
    have hx := hstep s x List.mem_cons_self
    simp only [List.foldlM_cons, List.mem_cons, forall_eq_or_imp]
    cases hfx : f s x with
    | error e =>
      -- the step fails, so the entry lacks `G`
      have hG : ¬ G x := fun hG => by
        obtain ⟨s', hs'⟩ := hx.mpr hG
        rw [hfx] at hs'
        cases hs'
      simp [bind, Except.bind, hG]
    | ok s₁ =>
      have hG : G x := hx.mp ⟨s₁, hfx⟩
      simp only [bind, Except.bind, hG, true_and]
      exact ih s₁

/-- **Prefix loop rule**, for a run that succeeds. A `foldlM` each of whose steps takes
an invariant of the entries done so far to the invariant of those and the entry ends, if
it succeeds, with the invariant of all the entries. -/
theorem foldlM_prefix_ok {σ : Type} {f : σ → α → Except ε σ} (I : List α → σ → Prop)
    (hstep : ∀ pre x s s', I pre s → f s x = .ok s' → I (pre ++ [x]) s') {l : List α} :
    ∀ {pre : List α} {s s' : σ}, I pre s → l.foldlM f s = .ok s' → I (pre ++ l) s' := by
  induction l with
  | nil =>
    intro pre s s' hs h
    rw [List.foldlM_nil, pure_eq_ok] at h
    rw [List.append_nil, ← h]
    exact hs
  | cons x l ih =>
    intro pre s s' hs h
    rw [List.foldlM_cons, bind_eq_ok] at h
    obtain ⟨s₁, h₁, hrest⟩ := h
    have hdone := ih (hstep pre x s s₁ hs h₁) hrest
    rwa [List.append_assoc, List.singleton_append] at hdone

/-- **Prefix loop rule**, for a run that fails: it fails at the step of one entry, from a
state with the invariant of the entries before it. -/
theorem foldlM_prefix_error {σ : Type} {f : σ → α → Except ε σ} (I : List α → σ → Prop)
    (hstep : ∀ pre x s s', I pre s → f s x = .ok s' → I (pre ++ [x]) s') {l : List α} :
    ∀ {pre : List α} {s : σ} {e : ε}, I pre s → l.foldlM f s = .error e →
      ∃ l₁ x l₂ s₁, l = l₁ ++ x :: l₂ ∧ I (pre ++ l₁) s₁ ∧ f s₁ x = .error e := by
  induction l with
  | nil =>
    intro pre s e _ h
    cases h
  | cons x l ih =>
    intro pre s e hs h
    rw [List.foldlM_cons] at h
    cases hx : f s x with
    | error e' =>
      -- the run stops at its first entry
      rw [hx] at h
      cases h
      exact ⟨[], x, l, s, rfl, by rwa [List.append_nil], hx⟩
    | ok s₁ =>
      rw [hx] at h
      obtain ⟨l₁, y, l₂, s₂, rfl, hs₂, hy⟩ := ih (hstep pre x s s₁ hs hx) h
      refine ⟨x :: l₁, y, l₂, s₂, rfl, ?_, hy⟩
      rwa [List.append_assoc, List.singleton_append] at hs₂

/-- **Writing loop rule.** A `foldlM` of a writer that appends the bytes of an entry with
`P`, when the buffer stays below `limit`, appends the bytes of every entry, if all have `P`
and there is room for all of them. -/
theorem foldlM_append_eq {β : Type} {f : List β → α → Except ε (List β)} (bytes : α → List β)
    (P : α → Prop) (limit : ℕ)
    (hstep : ∀ b x, P x → b.length + (bytes x).length < limit → f b x = .ok (b ++ bytes x))
    {l : List α} :
    ∀ {b : List β}, (∀ x ∈ l, P x) → b.length + (l.flatMap bytes).length < limit →
      l.foldlM f b = .ok (b ++ l.flatMap bytes) := by
  induction l with
  | nil =>
    intro b _ _
    rw [List.foldlM_nil, List.flatMap_nil, List.append_nil]
    rfl
  | cons x l ih =>
    intro b hP hfit
    rw [List.flatMap_cons, List.length_append] at hfit
    have hrest : l.foldlM f (b ++ bytes x) = .ok (b ++ bytes x ++ l.flatMap bytes) :=
      ih (fun y hy => hP y (List.mem_cons_of_mem x hy)) (by rw [List.length_append]; omega)
    rw [List.foldlM_cons, hstep b x (hP x List.mem_cons_self) (by omega), ok_bind, hrest,
      List.flatMap_cons, List.append_assoc]

/-! ## Index checks -/

theorem index_and_entry_iff {l : List α} {idx : ℕ} {P : α → Prop} :
    (idx < l.length ∧ ∀ a, l[idx]? = some a → P a) ↔ ∃ a, l[idx]? = some a ∧ P a := by
  constructor
  · rintro ⟨hlt, hP⟩
    exact ⟨l[idx], List.getElem?_eq_getElem hlt, hP _ (List.getElem?_eq_getElem hlt)⟩
  · rintro ⟨a, ha, hPa⟩
    obtain ⟨hlt, -⟩ := List.getElem?_eq_some_iff.mp ha
    refine ⟨hlt, fun a' ha' => ?_⟩
    rw [ha, Option.some.injEq] at ha'
    exact ha' ▸ hPa

theorem optIndex_and_entry_iff {o : Option (List α)} {idx : ℕ} {P : α → Prop} :
    ((∀ l ∈ o, idx < l.length) ∧ ∀ a, o.bind (fun l => l[idx]?) = some a → P a) ↔
      ∀ l ∈ o, ∃ a, l[idx]? = some a ∧ P a := by
  cases o with
  | none => simp
  | some l => simpa using index_and_entry_iff

end Dijets.Lib.Check
