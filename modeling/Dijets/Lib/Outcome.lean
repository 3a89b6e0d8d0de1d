import Mathlib

/-!
# Outcomes of code that may panic

A Rust function that returns a `Result` can end in three ways: it returns `Ok`,
it returns `Err`, or it panics (an index out of bounds, an `unwrap` of `None`, a
failed assertion). `Outcome ε α` names the three, and its monad threads them the
way the `?` operator and unwinding do: an error or a panic ends the computation.

A value of `Option α` read inside such code is lifted with `none` as a panic,
which is how an out-of-bounds index `xs[i]` or an `unwrap` behaves; a value of
`Except ε α` is lifted as the `?` operator lifts a `Result`.

The inversion lemmas `bind_eq_ok`, `bind_eq_err` and `bind_eq_panic` are the only
facts about `bind` that proofs about a modelled function need: they peel one
call at a time off a computation whose outcome is known.
-/

namespace Dijets.Lib

/-- The outcome of a call that returns a `Result` with error type `ε`, or panics. -/
inductive Outcome (ε α : Type) where
  | ok (a : α)
  | err (e : ε)
  | panic
deriving DecidableEq, Repr

namespace Outcome

variable {ε α β : Type}

/-- Sequencing: an error or a panic ends the computation. -/
def bind : Outcome ε α → (α → Outcome ε β) → Outcome ε β
  | ok a, f => f a
  | err e, _ => err e
  | panic, _ => panic

instance : Monad (Outcome ε) where
  pure := ok
  bind := bind

instance : LawfulMonad (Outcome ε) :=
  LawfulMonad.mk' (Outcome ε) (fun x => by cases x <;> rfl) (fun _ _ => rfl)
    (fun x _ _ => by cases x <;> rfl)

instance : MonadExceptOf ε (Outcome ε) where
  throw := err
  tryCatch x h := match x with
    | err e => h e
    | x => x

/-- An absent value is a panic: `unwrap` of `None`, or an index out of bounds. -/
def ofOption : Option α → Outcome ε α
  | some a => ok a
  | none => panic

/-- The `?` operator on a `Result`. -/
def ofExcept : Except ε α → Outcome ε α
  | .ok a => ok a
  | .error e => err e

instance : MonadLift Option (Outcome ε) where
  monadLift := ofOption

instance : MonadLift (Except ε) (Outcome ε) where
  monadLift := ofExcept

@[simp] theorem pure_eq (a : α) : (pure a : Outcome ε α) = ok a := rfl

@[simp] theorem throw_eq (e : ε) : (throw e : Outcome ε α) = err e := rfl

@[simp] theorem ok_bind (a : α) (f : α → Outcome ε β) : (ok a >>= f) = f a := rfl

@[simp] theorem err_bind (e : ε) (f : α → Outcome ε β) : (err e >>= f) = err e := rfl

@[simp] theorem panic_bind (f : α → Outcome ε β) : (panic >>= f) = panic := rfl

@[simp] theorem liftOption_eq (o : Option α) :
    (monadLift o : Outcome ε α) = ofOption o := rfl

@[simp] theorem liftExcept_eq (x : Except ε α) :
    (monadLift x : Outcome ε α) = ofExcept x := rfl

/-- The lift a `do` block inserts for a value of `Option`. -/
@[simp] theorem liftM_option (o : Option α) : (liftM o : Outcome ε α) = ofOption o := rfl

/-- The lift a `do` block inserts for a value of `Except`. -/
@[simp] theorem liftM_except (x : Except ε α) : (liftM x : Outcome ε α) = ofExcept x := rfl

@[simp] theorem ofOption_some (a : α) : (ofOption (some a) : Outcome ε α) = ok a := rfl

@[simp] theorem ofOption_none : (ofOption none : Outcome ε α) = panic := rfl

@[simp] theorem ofExcept_ok (a : α) : (ofExcept (.ok a) : Outcome ε α) = ok a := rfl

@[simp] theorem ofExcept_error (e : ε) : (ofExcept (.error e) : Outcome ε α) = err e := rfl

@[simp] theorem ofOption_ne_err (o : Option α) (e : ε) : ofOption o ≠ err e := by
  cases o <;> simp

@[simp] theorem ofExcept_ne_panic (x : Except ε α) : ofExcept x ≠ panic := by
  cases x <;> simp

theorem ofOption_eq_ok {o : Option α} {a : α} : (ofOption o : Outcome ε α) = ok a ↔ o = some a := by
  cases o <;> simp

theorem ofOption_eq_panic {o : Option α} : (ofOption o : Outcome ε α) = panic ↔ o = none := by
  cases o <;> simp

theorem ofExcept_eq_ok {x : Except ε α} {a : α} : ofExcept x = ok a ↔ x = .ok a := by
  cases x <;> simp

theorem ofExcept_eq_err {x : Except ε α} {e : ε} : ofExcept x = err e ↔ x = .error e := by
  cases x <;> simp

@[simp] theorem bind_pure_unit (x : Outcome ε Unit) : (x >>= fun _ => pure ()) = x := by
  cases x <;> rfl

/-! ## Inversion of a sequence -/

theorem bind_eq_ok {x : Outcome ε α} {f : α → Outcome ε β} {b : β} :
    x >>= f = ok b ↔ ∃ a, x = ok a ∧ f a = ok b := by
  cases x <;> simp

theorem bind_eq_err {x : Outcome ε α} {f : α → Outcome ε β} {e : ε} :
    x >>= f = err e ↔ x = err e ∨ ∃ a, x = ok a ∧ f a = err e := by
  cases x <;> simp

theorem bind_eq_panic {x : Outcome ε α} {f : α → Outcome ε β} :
    x >>= f = panic ↔ x = panic ∨ ∃ a, x = ok a ∧ f a = panic := by
  cases x <;> simp

/-! ## Loops -/

/-- A loop of checks succeeds exactly when each of its checks does. -/
theorem forM_eq_ok {f : α → Outcome ε Unit} : ∀ {l : List α}, l.forM f = ok () ↔ ∀ x ∈ l, f x = ok ()
  | [] => by
    refine ⟨fun _ x hx => absurd hx List.not_mem_nil, fun _ => rfl⟩
  | x :: l => by
    rw [show (x :: l).forM f = (f x >>= fun _ => l.forM f) from rfl, bind_eq_ok,
      List.forall_mem_cons, forM_eq_ok]
    constructor
    · rintro ⟨⟨⟩, hx, hl⟩
      exact ⟨hx, hl⟩
    · rintro ⟨hx, hl⟩
      exact ⟨(), hx, hl⟩

end Outcome

end Dijets.Lib
