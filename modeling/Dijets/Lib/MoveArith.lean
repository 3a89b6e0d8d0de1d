import Mathlib

/-!
# Move's integers and aborts

A Move function either returns or aborts, and an abort undoes every change the
transaction made. It aborts explicitly, with a code that `Std::Errors` builds
from a category and a reason, or implicitly, when an operation on its unsigned
integers has no result of the type: an addition above the largest value, a
subtraction below zero, a shift by at least the width, a cast to a narrower type
of a value that does not fit.

Integers of `u8`, `u64` and `u128` are natural numbers here, below `2 ^ w` for
the width `w`, and each operation checks the condition under which Move computes
it. A left shift keeps the low `w` bits, as Move's does.

## Main definitions

* `Abort` — an explicit abort, with its category and reason, or an arithmetic error.
* `Move.add`, `Move.sub`, `Move.shl`, `Move.shr`, `Move.cast` — the checked operations.
-/

set_option autoImplicit false

namespace Dijets.Lib

/-- The categories of `Std::Errors`. -/
inductive ErrorCategory where
  | invalidState
  | requiresAddress
  | requiresRole
  | requiresCapability
  | notPublished
  | alreadyPublished
  | invalidArgument
  | limitExceeded
  | internal
  | custom
deriving DecidableEq, Repr

/-- Why a Move computation stopped early. -/
inductive Abort where
  /-- `abort` with the code `Std::Errors` builds from a category and a reason. -/
  | code (category : ErrorCategory) (reason : ℕ)
  /-- An operation on integers without a result of its type. -/
  | arithmeticError
deriving DecidableEq, Repr

namespace Move

/-- The largest `u64`. -/
def maxU64 : ℕ := 2 ^ 64 - 1

/-- The largest `u128`. -/
def maxU128 : ℕ := 2 ^ 128 - 1

/-- `assert(cond, code)`. -/
def assert (cond : Bool) (abort : Abort) : Except Abort Unit :=
  if cond then pure () else throw abort

/-- `+` on `u{w}`. -/
def add (w a b : ℕ) : Except Abort ℕ :=
  if a + b < 2 ^ w then pure (a + b) else throw .arithmeticError

/-- `-`, on any width. -/
def sub (a b : ℕ) : Except Abort ℕ :=
  if b ≤ a then pure (a - b) else throw .arithmeticError

/-- `<<` on `u{w}`, by a `u8`: the low `w` bits of the shifted value. -/
def shl (w a s : ℕ) : Except Abort ℕ :=
  if s < w then pure ((a <<< s) % 2 ^ w) else throw .arithmeticError

/-- `>>` on `u{w}`, by a `u8`. -/
def shr (w a s : ℕ) : Except Abort ℕ :=
  if s < w then pure (a >>> s) else throw .arithmeticError

/-- `(a as u{w})`. -/
def cast (w a : ℕ) : Except Abort ℕ :=
  if a < 2 ^ w then pure a else throw .arithmeticError

variable {w a b s : ℕ}

@[simp] theorem add_of_lt (h : a + b < 2 ^ w) : add w a b = .ok (a + b) := if_pos h

@[simp] theorem sub_of_le (h : b ≤ a) : sub a b = .ok (a - b) := if_pos h

@[simp] theorem shl_of_lt (h : s < w) : shl w a s = .ok ((a <<< s) % 2 ^ w) := if_pos h

@[simp] theorem shr_of_lt (h : s < w) : shr w a s = .ok (a >>> s) := if_pos h

@[simp] theorem cast_of_lt (h : a < 2 ^ w) : cast w a = .ok a := if_pos h

/-- A one-bit mask at a position below the width. -/
theorem shl_one (h : s < w) : shl w 1 s = .ok (2 ^ s) := by
  rw [shl_of_lt h, Nat.one_shiftLeft, Nat.mod_eq_of_lt (Nat.pow_lt_pow_right (by omega) h)]

/-! ## Peeling a computation that returned

A Move function is a sequence of asserts, checked operations and calls, and one
that returned passed every one of them. These inversion lemmas peel one step at
a time off a computation known to return.
-/

theorem bind_eq_ok {α β : Type} {x : Except Abort α} {f : α → Except Abort β} {b : β} :
    x >>= f = .ok b ↔ ∃ a, x = .ok a ∧ f a = .ok b := by
  cases x <;> simp [bind, Except.bind]

theorem assert_bind_eq_ok {β : Type} {c : Bool} {e : Abort} {f : Unit → Except Abort β} {b : β} :
    assert c e >>= f = .ok b ↔ c = true ∧ f () = .ok b := by
  cases c <;> simp [assert, bind, Except.bind, throw, throwThe, MonadExceptOf.throw, pure, Except.pure]

@[simp] theorem assert_eq_ok {c : Bool} {e : Abort} {u : Unit} : assert c e = .ok u ↔ c = true := by
  cases c <;> simp [assert, throw, throwThe, MonadExceptOf.throw, pure, Except.pure]

theorem add_eq_ok {r : ℕ} : add w a b = .ok r ↔ a + b < 2 ^ w ∧ r = a + b := by
  unfold add
  split_ifs with h <;> simp [h, pure, Except.pure, eq_comm]

theorem sub_eq_ok {r : ℕ} : sub a b = .ok r ↔ b ≤ a ∧ r = a - b := by
  unfold sub
  split_ifs with h <;> simp [h, pure, Except.pure, eq_comm]

end Move

end Dijets.Lib
