import Dijets.Lib.MoveArith
import Dijets.Lib.ByteBits
import Dijets.Lib.Run

/-!
# Sliding nonces

`SlidingNonce` lets an account's transactions run out of order but at most once.
A client gives each transaction a nonce; `try_record_nonce` records it and answers
`0`, or answers why it cannot. The resource keeps a window of 128 flags starting
at `min_nonce`: bit `i` of `nonce_mask` says whether `min_nonce + i` was recorded.
A nonce beyond the window moves it forward, by a shift of the mask or, past a
whole window's width, by clearing it; a nonce below the window is too old to tell,
and one more than `10000` above its start is refused so that the window cannot be
pushed to the end of the nonces.

The window holds the recorded nonces exactly (`Window`): each recorded nonce is
below the window or has its bit set, and each set bit is a recorded nonce. From
that, every call answers what the recorded nonces say it should (`expectedCode`),
the window never moves back, no non-zero nonce is recorded twice, and no call
aborts as long as nonces stay `10000` below the largest `u64`
(`try_record_nonce_replay_protection`).

## Main definitions

* `SlidingNonce.tryRecordNonce` — `try_record_nonce`, through `shiftWindow`
  (steps 3 to 3c of its documentation) and `recordBit` (steps 4 and 5).
* `SlidingNonce.expectedCode` — the answer the recorded nonces call for.
* `SlidingNonce.Window` — how the resource holds the recorded nonces.
-/

set_option autoImplicit false

namespace Dijets.Framework

open Dijets.Lib

/-- The `SlidingNonce` resource: the start of the window, and a `u128` mask with
bit `i` for the nonce `min_nonce + i`. -/
structure SlidingNonce where
  minNonce : ℕ
  nonceMask : ℕ
deriving DecidableEq, Repr

namespace SlidingNonce

def ESLIDING_NONCE : ℕ := 0
def ENONCE_TOO_OLD : ℕ := 1
def ENONCE_TOO_NEW : ℕ := 2
def ENONCE_ALREADY_RECORDED : ℕ := 3
def ENONCE_ALREADY_PUBLISHED : ℕ := 4
def NONCE_MASK_SIZE : ℕ := 128

/-- Steps 3 to 3c: move the window forward, if needed, so that `seqNonce` lies in
it, keeping the flags the old and the new window share. -/
def shiftWindow (t : SlidingNonce) (seqNonce : ℕ) : Except Abort SlidingNonce := do
  let bitPos ← Move.sub seqNonce t.minNonce
  if bitPos ≥ NONCE_MASK_SIZE then
    let shift ← Move.sub bitPos NONCE_MASK_SIZE >>= fun d => Move.add 64 d 1
    if shift ≥ NONCE_MASK_SIZE then
      let minNonce ← Move.add 64 seqNonce 1 >>= fun m => Move.sub m NONCE_MASK_SIZE
      pure { minNonce, nonceMask := 0 }
    else
      let nonceMask ← Move.cast 8 shift >>= Move.shr 128 t.nonceMask
      let minNonce ← Move.add 64 t.minNonce shift
      pure { minNonce, nonceMask }
  else
    pure t

/-- Steps 4 and 5: set the bit of `seqNonce` in the window, unless it is set. -/
def recordBit (t : SlidingNonce) (seqNonce : ℕ) : Except Abort (ℕ × SlidingNonce) := do
  let bitPos ← Move.sub seqNonce t.minNonce
  let set ← Move.cast 8 bitPos >>= Move.shl 128 1
  if t.nonceMask &&& set ≠ 0 then
    pure (ENONCE_ALREADY_RECORDED, t)
  else
    pure (0, { t with nonceMask := t.nonceMask ||| set })

/-- `try_record_nonce` past the published check: the code and the resource. -/
def recordInWindow (t : SlidingNonce) (seqNonce : ℕ) : Except Abort (ℕ × SlidingNonce) :=
  if t.minNonce > seqNonce then
    pure (ENONCE_TOO_OLD, t)
  else do
    let jumpLimit := 10000
    let limit ← Move.add 64 t.minNonce jumpLimit
    if limit ≤ seqNonce then
      pure (ENONCE_TOO_NEW, t)
    else
      shiftWindow t seqNonce >>= fun t => recordBit t seqNonce

/-- `try_record_nonce` on the account's resource, if published: `0` if the nonce
was recorded, and the resource it leaves. -/
def tryRecordNonce (resource : Option SlidingNonce) (seqNonce : ℕ) :
    Except Abort (ℕ × Option SlidingNonce) :=
  if seqNonce = 0 then
    pure (0, resource)
  else
    match resource with
    | none => throw (.code .notPublished ESLIDING_NONCE)
    | some t => (fun r => (r.1, some r.2)) <$> recordInWindow t seqNonce

/-- `record_nonce_or_abort`: an answer other than `0` aborts. -/
def recordNonceOrAbort (resource : Option SlidingNonce) (seqNonce : ℕ) :
    Except Abort (Option SlidingNonce) := do
  let (code, resource) ← tryRecordNonce resource seqNonce
  Move.assert (code == 0) (.code .invalidArgument code)
  pure resource

/-- `publish`: a fresh resource, with an empty window at `0`. -/
def publish (resource : Option SlidingNonce) : Except Abort SlidingNonce := do
  Move.assert (!resource.isSome) (.code .alreadyPublished ENONCE_ALREADY_PUBLISHED)
  pure { minNonce := 0, nonceMask := 0 }

/-! ## What the recorded nonces call for -/

/-- The answer to `seqNonce`, by the window's start and the nonces recorded so far. -/
def expectedCode (minNonce : ℕ) (recorded : List ℕ) (seqNonce : ℕ) : ℕ :=
  if seqNonce = 0 then 0
  else if minNonce > seqNonce then ENONCE_TOO_OLD
  else if minNonce + 10000 ≤ seqNonce then ENONCE_TOO_NEW
  else if seqNonce ∈ recorded then ENONCE_ALREADY_RECORDED
  else 0

/-- The window holds the recorded nonces: each one is below its start or has its
bit set, and each set bit is a recorded nonce. -/
structure Window (t : SlidingNonce) (recorded : List ℕ) : Prop where
  mask_lt : t.nonceMask < 2 ^ 128
  recorded_mem : ∀ n ∈ recorded, n < t.minNonce ∨ t.nonceMask.testBit (n - t.minNonce)
  bit_recorded : ∀ i, t.nonceMask.testBit i → t.minNonce + i ∈ recorded

/-! ## One call -/

variable {t : SlidingNonce} {seqNonce : ℕ}

theorem shiftWindow_of_lt (hle : t.minNonce ≤ seqNonce) (hlt : seqNonce < t.minNonce + 128) :
    shiftWindow t seqNonce = .ok t := by
  have hpos : ¬ NONCE_MASK_SIZE ≤ seqNonce - t.minNonce := by
    simp only [NONCE_MASK_SIZE]
    omega
  simp [shiftWindow, Move.sub_of_le hle, bind, Except.bind, hpos, pure, Except.pure]

/-- Past the window, it moves to end at `seqNonce`, the mask shifted down: by a
shift below the width, or cleared, which is the same for a mask of 128 bits. -/
theorem shiftWindow_of_le (hmask : t.nonceMask < 2 ^ 128) (hle : t.minNonce + 128 ≤ seqNonce)
    (hn : seqNonce < Move.maxU64) :
    shiftWindow t seqNonce =
      .ok ⟨seqNonce - 127, t.nonceMask >>> (seqNonce - 127 - t.minNonce)⟩ := by
  have hpos : seqNonce - t.minNonce ≥ NONCE_MASK_SIZE := by
    simp only [NONCE_MASK_SIZE]
    omega
  have hshift : seqNonce - t.minNonce - NONCE_MASK_SIZE + 1 = seqNonce - 127 - t.minNonce := by
    simp only [NONCE_MASK_SIZE]
    omega
  have hadd : seqNonce - t.minNonce - NONCE_MASK_SIZE + 1 < 2 ^ 64 := by
    simp only [Move.maxU64, NONCE_MASK_SIZE] at hn ⊢
    omega
  simp only [shiftWindow, Move.sub_of_le (by omega : t.minNonce ≤ seqNonce), bind, Except.bind,
    hpos, if_true, Move.sub_of_le hpos, Move.add_of_lt hadd, hshift]
  split_ifs with hwide
  · -- a whole window's width or more: the mask is cleared
    have hzero : t.nonceMask >>> (seqNonce - 127 - t.minNonce) = 0 := by
      rw [Nat.shiftRight_eq_div_pow, Nat.div_eq_of_lt]
      simp only [NONCE_MASK_SIZE] at hwide
      exact lt_of_lt_of_le hmask (Nat.pow_le_pow_right (by omega) hwide)
    have hmin : seqNonce + 1 - NONCE_MASK_SIZE = seqNonce - 127 := by
      simp only [NONCE_MASK_SIZE]
      omega
    have hadd1 : seqNonce + 1 < 2 ^ 64 := by
      simp only [Move.maxU64] at hn
      omega
    simp [Move.add_of_lt hadd1, Move.sub_of_le (by simp only [NONCE_MASK_SIZE]; omega :
      NONCE_MASK_SIZE ≤ seqNonce + 1), hmin, hzero, pure, Except.pure]
  · -- less than a window's width: the shared flags move down
    simp only [NONCE_MASK_SIZE, not_le] at hwide
    have hcast : seqNonce - 127 - t.minNonce < 2 ^ 8 := by omega
    have hmin : t.minNonce + (seqNonce - 127 - t.minNonce) = seqNonce - 127 := by omega
    have hadd2 : t.minNonce + (seqNonce - 127 - t.minNonce) < 2 ^ 64 := by
      simp only [Move.maxU64] at hn
      omega
    simp [Move.cast_of_lt hcast, Move.shr_of_lt hwide, Move.add_of_lt hadd2, hmin, pure,
      Except.pure]

/-- Inside the window, the bit of `seqNonce` is tested and, if clear, set. -/
theorem recordBit_of_lt (hle : t.minNonce ≤ seqNonce) (hlt : seqNonce < t.minNonce + 128) :
    recordBit t seqNonce =
      if t.nonceMask.testBit (seqNonce - t.minNonce) then .ok (ENONCE_ALREADY_RECORDED, t)
      else .ok (0, { t with nonceMask := t.nonceMask ||| 2 ^ (seqNonce - t.minNonce) }) := by
  have hpos : seqNonce - t.minNonce < 128 := by omega
  have hcast : seqNonce - t.minNonce < 2 ^ 8 := by omega
  simp only [recordBit, Move.sub_of_le hle, bind, Except.bind, Move.cast_of_lt hcast,
    Move.shl_one hpos, ne_eq, and_two_pow_ne_zero]
  split_ifs <;> rfl

/-- A nonce past the window: the window moves to end at it, and it is recorded. -/
theorem recordInWindow_of_le (hmask : t.nonceMask < 2 ^ 128) (hle : t.minNonce + 128 ≤ seqNonce)
    (hnew : seqNonce < t.minNonce + 10000) (hn : seqNonce < Move.maxU64)
    (hadd : t.minNonce + 10000 < 2 ^ 64) :
    recordInWindow t seqNonce =
      .ok (0, ⟨seqNonce - 127, (t.nonceMask >>> (seqNonce - 127 - t.minNonce)) ||| 2 ^ 127⟩) := by
  have hclear : (t.nonceMask >>> (seqNonce - 127 - t.minNonce)).testBit 127 = false := by
    rw [Nat.testBit_shiftRight]
    exact Nat.testBit_eq_false_of_lt (lt_of_lt_of_le hmask (Nat.pow_le_pow_right (by omega) (by omega)))
  have hbit := @recordBit_of_lt ⟨seqNonce - 127, t.nonceMask >>> (seqNonce - 127 - t.minNonce)⟩
    seqNonce (by simp) (by simp only; omega)
  have hsub : seqNonce - (seqNonce - 127) = 127 := by omega
  simp only [hsub, hclear, Bool.false_eq_true, if_false] at hbit
  simp only [recordInWindow, gt_iff_lt, not_lt.mpr (by omega : t.minNonce ≤ seqNonce), if_false,
    Move.add_of_lt hadd, bind, Except.bind, not_le.mpr hnew, shiftWindow_of_le hmask hle hn, hbit]

/-- A nonce in the window: tested against its bit. -/
theorem recordInWindow_of_lt (hle : t.minNonce ≤ seqNonce) (hlt : seqNonce < t.minNonce + 128)
    (hmin : t.minNonce + 10000 < 2 ^ 64) :
    recordInWindow t seqNonce = recordBit t seqNonce := by
  simp only [recordInWindow, gt_iff_lt, not_lt.mpr hle, if_false, Move.add_of_lt hmin, bind,
    Except.bind, not_le.mpr (by omega : seqNonce < t.minNonce + 10000), shiftWindow_of_lt hle hlt]

/-! ## The window -/

variable {recorded : List ℕ}

theorem Window.lt_of_testBit (hw : Window t recorded) {i : ℕ} (hi : t.nonceMask.testBit i) :
    i < 128 := by
  by_contra hge
  have hfalse := Nat.testBit_eq_false_of_lt
    (lt_of_lt_of_le hw.mask_lt (Nat.pow_le_pow_right (by omega) (not_lt.mp hge)))
  rw [hfalse] at hi
  exact Bool.false_ne_true hi

/-- In the window, a nonce is recorded exactly when its bit is set. -/
theorem Window.mem_iff (hw : Window t recorded) {n : ℕ} (hle : t.minNonce ≤ n) :
    n ∈ recorded ↔ t.nonceMask.testBit (n - t.minNonce) := by
  constructor
  · intro hn
    rcases hw.recorded_mem n hn with hlt | hbit
    · omega
    · exact hbit
  · intro hbit
    have hmem := hw.bit_recorded _ hbit
    rwa [Nat.add_sub_cancel' hle] at hmem

/-- Nothing past the window is recorded. -/
theorem Window.not_mem (hw : Window t recorded) {n : ℕ} (hle : t.minNonce + 128 ≤ n) :
    n ∉ recorded := by
  intro hn
  have hbit := (hw.mem_iff (by omega)).mp hn
  have := hw.lt_of_testBit hbit
  omega

theorem window_publish : Window ⟨0, 0⟩ [] where
  mask_lt := Nat.two_pow_pos 128
  recorded_mem := by simp
  bit_recorded := by simp

/-- Setting the bit of a nonce in the window records it. -/
theorem Window.record (hw : Window t recorded) {n : ℕ} (hle : t.minNonce ≤ n)
    (hlt : n < t.minNonce + 128) :
    Window { t with nonceMask := t.nonceMask ||| 2 ^ (n - t.minNonce) } (recorded ++ [n]) where
  mask_lt := Nat.or_lt_two_pow hw.mask_lt (Nat.pow_lt_pow_right (by omega) (by omega))
  recorded_mem := by
    intro m hm
    rcases List.mem_append.mp hm with hm | hm
    · rcases hw.recorded_mem m hm with hlt' | hbit
      · exact Or.inl hlt'
      · exact Or.inr (by simp [Nat.testBit_or, hbit])
    · rw [List.mem_singleton.mp hm]
      exact Or.inr (by simp [Nat.testBit_or, Nat.testBit_two_pow_self])
  bit_recorded := by
    intro i hi
    simp only [Nat.testBit_or, Nat.testBit_two_pow, Bool.or_eq_true, decide_eq_true_eq] at hi
    rcases hi with hi | rfl
    · exact List.mem_append_left _ (hw.bit_recorded i hi)
    · rw [Nat.add_sub_cancel' hle]
      exact List.mem_append_right _ (List.mem_singleton_self n)

/-- Moving the window to end at a nonce past it, and setting its bit, records it:
the nonces the window leaves behind fall below its new start. -/
theorem Window.slide (hw : Window t recorded) {n : ℕ} (hle : t.minNonce + 128 ≤ n) :
    Window ⟨n - 127, (t.nonceMask >>> (n - 127 - t.minNonce)) ||| 2 ^ 127⟩ (recorded ++ [n]) where
  mask_lt := by
    refine Nat.or_lt_two_pow ?_ (Nat.pow_lt_pow_right (by omega) (by omega))
    rw [Nat.shiftRight_eq_div_pow]
    exact lt_of_le_of_lt (Nat.div_le_self _ _) hw.mask_lt
  recorded_mem := by
    intro m hm
    rcases List.mem_append.mp hm with hm | hm
    · by_cases hm' : m < n - 127
      · exact Or.inl hm'
      · -- an old nonce still in the window keeps its bit, moved down
        right
        rcases hw.recorded_mem m hm with hlt | hbit
        · omega
        · have hidx : n - 127 - t.minNonce + (m - (n - 127)) = m - t.minNonce := by omega
          simp [Nat.testBit_or, Nat.testBit_shiftRight, hidx, hbit]
    · rw [List.mem_singleton.mp hm]
      right
      have hidx : n - (n - 127) = 127 := by omega
      dsimp only
      rw [hidx, Nat.testBit_or, Nat.testBit_two_pow_self, Bool.or_true]
  bit_recorded := by
    intro i hi
    simp only [Nat.testBit_or, Nat.testBit_shiftRight, Nat.testBit_two_pow, Bool.or_eq_true,
      decide_eq_true_eq] at hi
    rcases hi with hi | rfl
    · have hmem := hw.bit_recorded _ hi
      have hidx : t.minNonce + (n - 127 - t.minNonce + i) = n - 127 + i := by omega
      rw [hidx] at hmem
      exact List.mem_append_left _ hmem
    · have hidx : n - 127 + 127 = n := by omega
      rw [hidx]
      exact List.mem_append_right _ (List.mem_singleton_self n)

/-- **One call.** From a window that holds the recorded nonces and starts low
enough, a non-zero nonce below the bound is answered as the recorded nonces call
for, without an abort; the window does not move back, stays low enough, and holds
the nonce if it was recorded. -/
theorem recordInWindow_spec (hw : Window t recorded) (hmin : t.minNonce ≤ Move.maxU64 - 10000)
    (hn : seqNonce ≤ Move.maxU64 - 10000) (hn0 : seqNonce ≠ 0) :
    ∃ t', recordInWindow t seqNonce = .ok (expectedCode t.minNonce recorded seqNonce, t') ∧
      t.minNonce ≤ t'.minNonce ∧ t'.minNonce ≤ Move.maxU64 - 10000 ∧
      Window t' (if expectedCode t.minNonce recorded seqNonce = 0 then recorded ++ [seqNonce]
        else recorded) := by
  have hbound : t.minNonce + 10000 < 2 ^ 64 := by
    simp only [Move.maxU64] at hmin
    omega
  have hn' : seqNonce < Move.maxU64 := by
    simp only [Move.maxU64] at hn ⊢
    omega
  by_cases hold : t.minNonce > seqNonce
  · -- too old
    refine ⟨t, ?_, le_rfl, hmin, ?_⟩ <;>
      simp [recordInWindow, expectedCode, hold, hn0, ENONCE_TOO_OLD, hw, pure, Except.pure]
  by_cases hnew : t.minNonce + 10000 ≤ seqNonce
  · -- too new
    refine ⟨t, ?_, le_rfl, hmin, ?_⟩ <;>
      simp [recordInWindow, expectedCode, hold, hnew, hn0, Move.add_of_lt hbound, bind,
        Except.bind, ENONCE_TOO_NEW, hw, pure, Except.pure]
  have hle : t.minNonce ≤ seqNonce := by omega
  have hnew' : seqNonce < t.minNonce + 10000 := by omega
  by_cases hwin : seqNonce < t.minNonce + 128
  · -- in the window: the bit tells whether it was recorded
    rw [recordInWindow_of_lt hle hwin hbound, recordBit_of_lt hle hwin]
    by_cases hbit : t.nonceMask.testBit (seqNonce - t.minNonce)
    · have hmem := (hw.mem_iff hle).mpr hbit
      refine ⟨t, ?_, le_rfl, hmin, ?_⟩ <;>
        simp [expectedCode, hold, hnew, hn0, hmem, hbit, ENONCE_ALREADY_RECORDED, hw]
    · have hmem : seqNonce ∉ recorded := fun h => hbit ((hw.mem_iff hle).mp h)
      refine ⟨{ t with nonceMask := t.nonceMask ||| 2 ^ (seqNonce - t.minNonce) }, ?_, le_rfl,
        hmin, ?_⟩
      · simp [expectedCode, hold, hnew, hn0, hmem, hbit]
      · simpa [expectedCode, hold, hnew, hn0, hmem] using hw.record hle hwin
  · -- past the window: it moves, and the nonce cannot have been recorded
    have hpast : t.minNonce + 128 ≤ seqNonce := by omega
    have hmem := hw.not_mem hpast
    rw [recordInWindow_of_le hw.mask_lt hpast hnew' hn' hbound]
    refine ⟨⟨seqNonce - 127, (t.nonceMask >>> (seqNonce - 127 - t.minNonce)) ||| 2 ^ 127⟩, ?_,
      show t.minNonce ≤ seqNonce - 127 by omega, show seqNonce - 127 ≤ Move.maxU64 - 10000 by omega,
      ?_⟩
    · simp [expectedCode, hold, hnew, hn0, hmem]
    · simpa [expectedCode, hold, hnew, hn0, hmem] using hw.slide hpast

/-! ## Runs -/

/-- A transaction of the account calling `try_record_nonce` on its published
resource, logged with the nonce; an abort leaves the resource as it was. -/
def step (t : SlidingNonce) (seqNonce : ℕ) : SlidingNonce × (ℕ × Except Abort ℕ) :=
  match tryRecordNonce (some t) seqNonce with
  | .ok (code, resource) => (resource.getD t, (seqNonce, .ok code))
  | .error e => (t, (seqNonce, .error e))

/-- The log entries that recorded a nonce: a non-zero one answered `0`. -/
def recordsNonce : ℕ × Except Abort ℕ → Bool
  | (n, .ok 0) => n != 0
  | _ => false

/-- The nonces a log recorded, in order. -/
def recordedIn (log : List (ℕ × Except Abort ℕ)) : List ℕ :=
  (log.filter recordsNonce).map (·.1)

theorem recordsNonce_ok {n code : ℕ} : recordsNonce (n, .ok code) = true ↔ code = 0 ∧ n ≠ 0 := by
  cases code <;> simp [recordsNonce]

/-- A nonce answered `0` was not recorded before. -/
theorem not_mem_of_expectedCode_eq_zero {minNonce n : ℕ} (hn0 : n ≠ 0)
    (h : expectedCode minNonce recorded n = 0) : n ∉ recorded := by
  intro hmem
  simp only [expectedCode, hn0, hmem, if_false, if_true] at h
  split_ifs at h <;> simp_all [ENONCE_TOO_OLD, ENONCE_TOO_NEW, ENONCE_ALREADY_RECORDED]

@[simp] theorem recordedIn_nil : recordedIn [] = [] := rfl

theorem recordedIn_append_singleton (log : List (ℕ × Except Abort ℕ)) (e : ℕ × Except Abort ℕ) :
    recordedIn (log ++ [e]) = if recordsNonce e then recordedIn log ++ [e.1] else recordedIn log := by
  unfold recordedIn
  split_ifs with he <;> simp [List.filter_append, he]

/-- **One step.** The call is answered as the recorded nonces call for, and the
window moves on with the log. -/
theorem step_spec (hw : Window t recorded) (hmin : t.minNonce ≤ Move.maxU64 - 10000)
    (hn : seqNonce ≤ Move.maxU64 - 10000) :
    (step t seqNonce).2 = (seqNonce, .ok (expectedCode t.minNonce recorded seqNonce)) ∧
      t.minNonce ≤ (step t seqNonce).1.minNonce ∧
      (step t seqNonce).1.minNonce ≤ Move.maxU64 - 10000 ∧
      Window (step t seqNonce).1
        (if recordsNonce (step t seqNonce).2 then recorded ++ [seqNonce] else recorded) := by
  by_cases hn0 : seqNonce = 0
  · -- nonce 0 is answered 0 and recorded nowhere
    subst hn0
    simp [step, tryRecordNonce, expectedCode, recordsNonce, hw, hmin, pure, Except.pure]
  · obtain ⟨t', ht', hle, hmin', hw'⟩ := recordInWindow_spec hw hmin hn hn0
    have hstep : step t seqNonce = (t', (seqNonce, .ok (expectedCode t.minNonce recorded seqNonce))) := by
      simp [step, tryRecordNonce, hn0, ht', Functor.map, Except.map]
    have hrec : recordsNonce (seqNonce, .ok (expectedCode t.minNonce recorded seqNonce)) =
        decide (expectedCode t.minNonce recorded seqNonce = 0) := by
      cases hcode : expectedCode t.minNonce recorded seqNonce <;> simp [recordsNonce, hn0]
    rw [hstep, hrec]
    exact ⟨rfl, hle, hmin', by simpa using hw'⟩

/-- What every log of a run keeps, while its nonces stay below the bound. -/
def Kept (t : SlidingNonce) (log : List (ℕ × Except Abort ℕ)) : Prop :=
  (∀ e ∈ log, e.1 ≤ Move.maxU64 - 10000) →
    Window t (recordedIn log) ∧ (recordedIn log).Nodup ∧ t.minNonce ≤ Move.maxU64 - 10000 ∧
      ∀ e ∈ log, ∃ code, e.2 = .ok code

theorem kept_step {t : SlidingNonce} {log : List (ℕ × Except Abort ℕ)} (h : Kept t log)
    (seqNonce : ℕ) : Kept (step t seqNonce).1 (log ++ [(step t seqNonce).2]) := by
  intro hbound
  have hfst : (step t seqNonce).2.1 = seqNonce := by
    unfold step
    split <;> rfl
  have hn : seqNonce ≤ Move.maxU64 - 10000 := hfst ▸ hbound _ (List.mem_append_right _ (List.mem_singleton_self _))
  obtain ⟨hw, hnodup, hmin, hok⟩ := h fun e he => hbound e (List.mem_append_left _ he)
  obtain ⟨hans, -, hmin', hw'⟩ := step_spec hw hmin hn
  refine ⟨?_, ?_, hmin', ?_⟩
  · rw [recordedIn_append_singleton, hfst]
    exact hw'
  · -- a recorded nonce was answered `0`, so it was not recorded before
    rw [recordedIn_append_singleton]
    split_ifs with hrec
    · refine List.nodup_append.mpr ⟨hnodup, by simp, ?_⟩
      intro a ha b hb
      rw [List.mem_singleton.mp hb, hfst]
      rintro rfl
      rw [hans] at hrec
      exact not_mem_of_expectedCode_eq_zero (Iff.mp recordsNonce_ok hrec).2
        (Iff.mp recordsNonce_ok hrec).1 ha
    · exact hnodup
  · intro e he
    rcases List.mem_append.mp he with he | he
    · exact hok e he
    · rw [List.mem_singleton.mp he, hans]
      exact ⟨_, rfl⟩

theorem publish_none : publish none = .ok ⟨0, 0⟩ := rfl

theorem kept_publish {t : SlidingNonce} (h : publish none = .ok t) : Kept t [] := by
  rw [publish_none, Except.ok.injEq] at h
  subst h
  exact fun _ => ⟨window_publish, List.nodup_nil, Nat.zero_le _, by simp⟩

/-- **Replay protection.** Over any sequence of calls on a freshly published
resource with nonces at least `10000` below the largest `u64`: no non-zero nonce
is recorded twice, the window holds exactly the recorded nonces, no call aborts,
and every next call is answered as the window's start and the recorded nonces
call for, without moving the window back. -/
theorem try_record_nonce_replay_protection {t : SlidingNonce} {log : List (ℕ × Except Abort ℕ)}
    (h : Reachable (fun t => publish none = .ok t) step t log)
    (hbound : ∀ e ∈ log, e.1 ≤ Move.maxU64 - 10000) :
    (recordedIn log).Nodup ∧ Window t (recordedIn log) ∧ (∀ e ∈ log, ∃ code, e.2 = .ok code) ∧
      ∀ seqNonce ≤ Move.maxU64 - 10000,
        (step t seqNonce).2 = (seqNonce, .ok (expectedCode t.minNonce (recordedIn log) seqNonce)) ∧
          t.minNonce ≤ (step t seqNonce).1.minNonce := by
  have hkept : Kept t log :=
    h.log_invariant Kept (fun _ hs => kept_publish hs) (fun _ _ a hk => kept_step hk a)
  obtain ⟨hw, hnodup, hmin, hok⟩ := hkept hbound
  refine ⟨hnodup, hw, hok, fun seqNonce hn => ?_⟩
  obtain ⟨hans, hle, -, -⟩ := step_spec hw hmin hn
  exact ⟨hans, hle⟩

/-- The runs of the documentation's examples, then the nonces again: 129 and 8
have fallen below the window, and 400 is in it. -/
example : (run step ⟨0, 0⟩ [8, 129, 400, 129, 8, 400]).2.map (·.2) =
    [.ok 0, .ok 0, .ok 0, .ok ENONCE_TOO_OLD, .ok ENONCE_TOO_OLD, .ok ENONCE_ALREADY_RECORDED] := by
  decide

theorem try_record_nonce_replay_protection_examples :
    Reachable (fun t => publish none = .ok t) step (run step ⟨0, 0⟩ [8, 129, 400, 129, 8, 400]).1
      (run step ⟨0, 0⟩ [8, 129, 400, 129, 8, 400]).2 ∧
    (∀ e ∈ (run step ⟨0, 0⟩ [8, 129, 400, 129, 8, 400]).2, e.1 ≤ Move.maxU64 - 10000) ∧
    (recordedIn (run step ⟨0, 0⟩ [8, 129, 400, 129, 8, 400]).2).Nodup ∧
      Window (run step ⟨0, 0⟩ [8, 129, 400, 129, 8, 400]).1
        (recordedIn (run step ⟨0, 0⟩ [8, 129, 400, 129, 8, 400]).2) ∧
      (∀ e ∈ (run step ⟨0, 0⟩ [8, 129, 400, 129, 8, 400]).2, ∃ code, e.2 = .ok code) ∧
      ∀ seqNonce ≤ Move.maxU64 - 10000,
        (step (run step ⟨0, 0⟩ [8, 129, 400, 129, 8, 400]).1 seqNonce).2 =
            (seqNonce, .ok (expectedCode (run step ⟨0, 0⟩ [8, 129, 400, 129, 8, 400]).1.minNonce
              (recordedIn (run step ⟨0, 0⟩ [8, 129, 400, 129, 8, 400]).2) seqNonce)) ∧
          (run step ⟨0, 0⟩ [8, 129, 400, 129, 8, 400]).1.minNonce ≤
            (step (run step ⟨0, 0⟩ [8, 129, 400, 129, 8, 400]).1 seqNonce).1.minNonce := by
  have h : Reachable (fun t => publish none = .ok t) step
      (run step ⟨0, 0⟩ [8, 129, 400, 129, 8, 400]).1 (run step ⟨0, 0⟩ [8, 129, 400, 129, 8, 400]).2 :=
    @reachable_run _ _ _ (fun t => publish none = .ok t) step ⟨0, 0⟩ publish_none _
  have hbound : ∀ e ∈ (run step ⟨0, 0⟩ [8, 129, 400, 129, 8, 400]).2,
      e.1 ≤ Move.maxU64 - 10000 := by
    decide
  exact ⟨h, hbound, try_record_nonce_replay_protection h hbound⟩

end SlidingNonce

end Dijets.Framework
