import Dijets.Move.ControlFlowGraph
import Dijets.Lib.Counter

/-!
# The stack-usage verifier

`StackUsageVerifier::verify` checks every block of the function's control-flow graph on its
own, from an empty stack: no instruction may pop more values than the block has pushed so
far, and the block must end with nothing left. `instruction_effect` gives each instruction's
numbers of pops and pushes, from the resolver for calls and packs.

The height the block has pushed is a `u64`, and `stack_size_increment += num_pushes` is
unchecked in a release build, which validators run: it wraps. `VecUnpack` pushes a count the
binary gives, any `u64`, so a block can push past `u64::MAX` and come back to `0`
(`stack_usage_wraps`). The verifier is exact while no height overflows (`verify_eq_ok_iff`):
it then accepts exactly the functions whose blocks balance with unbounded integers.
-/

set_option autoImplicit false

namespace Dijets.Move

open Dijets.Lib

/-- The field count `instruction_effect` reads of a struct: `0` for a native one. -/
def StructDefinition.fieldCount (structDefinition : StructDefinition) : ℕ :=
  match structDefinition.fieldInformation with
  | .native => 0
  | .declared fields => fields.length

namespace StackUsageVerifier

/-- `instruction_effect`: the numbers of values the instruction pops and pushes. -/
def instructionEffect (resolver : BinaryIndexedView) (return_ : Signature) :
    Bytecode → Outcome PartialVMError (UInt64 × UInt64)
  -- instructions that pop, but don't push
  | .pop | .brTrue _ | .brFalse _ | .stLoc _ | .abort => pure (1, 0)
  -- instructions that push, but don't pop
  | .ldU8 _ | .ldU64 _ | .ldU128 _ | .ldTrue | .ldFalse | .ldConst _ | .copyLoc _ | .moveLoc _
  | .mutBorrowLoc _ | .immBorrowLoc _ => pure (0, 1)
  -- instructions that pop and push once
  | .not | .freezeRef | .readRef | .exists _ | .existsGeneric _ | .mutBorrowGlobal _
  | .mutBorrowGlobalGeneric _ | .immBorrowGlobal _ | .immBorrowGlobalGeneric _
  | .mutBorrowField _ | .mutBorrowFieldGeneric _ | .immBorrowField _ | .immBorrowFieldGeneric _
  | .moveFrom _ | .moveFromGeneric _ | .castU8 | .castU64 | .castU128 | .vecLen _
  | .vecPopBack _ => pure (1, 1)
  -- binary operations
  | .add | .sub | .mul | .mod | .div | .bitOr | .bitAnd | .xor | .shl | .shr | .or | .and
  | .eq | .neq | .lt | .gt | .le | .ge => pure (2, 1)
  | .vecPack _ num => pure (num.toUInt64, 1)
  | .vecUnpack _ num => pure (1, num.toUInt64)
  | .vecImmBorrow _ | .vecMutBorrow _ => pure (2, 1)
  | .moveTo _ | .moveToGeneric _ | .writeRef | .vecPushBack _ => pure (2, 0)
  | .vecSwap _ => pure (3, 0)
  | .branch _ | .nop => pure (0, 0)
  | .ret => pure (return_.length.toUInt64, 0)
  | .call idx => do
    let functionHandle ← resolver.functionHandleAt idx
    let parameters ← resolver.signatureAt functionHandle.parameters
    let returns ← resolver.signatureAt functionHandle.return_
    pure (parameters.length.toUInt64, returns.length.toUInt64)
  | .callGeneric idx => do
    let funcInst ← resolver.functionInstantiationAt idx
    let functionHandle ← resolver.functionHandleAt funcInst.handle
    let parameters ← resolver.signatureAt functionHandle.parameters
    let returns ← resolver.signatureAt functionHandle.return_
    pure (parameters.length.toUInt64, returns.length.toUInt64)
  | .pack idx => do
    let structDefinition ← resolver.structDefAt idx
    pure (structDefinition.fieldCount.toUInt64, 1)
  | .packGeneric idx => do
    let structInst ← resolver.structInstantiationAt idx
    let structDefinition ← resolver.structDefAt structInst.def
    pure (structDefinition.fieldCount.toUInt64, 1)
  | .unpack idx => do
    let structDefinition ← resolver.structDefAt idx
    pure (1, structDefinition.fieldCount.toUInt64)
  | .unpackGeneric idx => do
    let structInst ← resolver.structInstantiationAt idx
    let structDefinition ← resolver.structDefAt structInst.def
    pure (1, structDefinition.fieldCount.toUInt64)

/-- The effect of the instruction at an offset; `code[i as usize]` panics outside the code. -/
def effectAt (resolver : BinaryIndexedView) (return_ : Signature) (code : List Bytecode) (i : ℕ) :
    Outcome PartialVMError (UInt64 × UInt64) := do
  let instruction ← Outcome.ofOption code[i]?
  instructionEffect resolver return_ instruction

/-- The loop of `verify_block` over the offsets of the block, with the height pushed so far. -/
def verifyBlockLoop (resolver : BinaryIndexedView) (return_ : Signature) (code : List Bytecode)
    (function blockStart : ℕ) : List ℕ → UInt64 → Outcome PartialVMError UInt64
  | [], stackSizeIncrement => pure stackSizeIncrement
  | i :: is, stackSizeIncrement => do
    let (numPops, numPushes) ← effectAt resolver return_ code i
    if stackSizeIncrement < numPops then
      .err ((PartialVMError.new .negativeStackSizeWithinBlock).atCodeOffset function blockStart)
    else
      verifyBlockLoop resolver return_ code function blockStart is
        (stackSizeIncrement - numPops + numPushes)

/-- The offsets of a block, `block_start..=block_end`. -/
def blockOffsets (block : BasicBlock) : List ℕ := List.range' block.entry (block.exit + 1 - block.entry)

/-- `verify_block`. -/
def verifyBlock (resolver : BinaryIndexedView) (return_ : Signature) (code : List Bytecode)
    (function : ℕ) (block : BasicBlock) : Outcome PartialVMError Unit := do
  let stackSizeIncrement ← verifyBlockLoop resolver return_ code function block.entry
    (blockOffsets block) 0
  if stackSizeIncrement = 0 then pure ()
  else .err ((PartialVMError.new .positiveStackSizeAtBlockEnd).atCodeOffset function block.entry)

/-- `StackUsageVerifier::verify`: every block, in the order of the graph; `current_function`
is the function's index, or `0` for a script. -/
def verify (resolver : BinaryIndexedView) (functionView : FunctionView) :
    Outcome PartialVMError Unit :=
  functionView.cfg.blocks.forM
    (verifyBlock resolver functionView.return_ functionView.code.code (functionView.index.getD 0))

/-! ## What the verifier accepts -/

/-- An effect as a pair of natural numbers. -/
def natEffect (effect : UInt64 × UInt64) : ℕ × ℕ := (effect.1.toNat, effect.2.toNat)

/-- The effects of a block's instructions, when all are known. -/
def blockEffects (resolver : BinaryIndexedView) (return_ : Signature) (code : List Bytecode)
    (block : BasicBlock) : Outcome PartialVMError (List (UInt64 × UInt64)) :=
  (blockOffsets block).mapM (effectAt resolver return_ code)

/-- The check of the verifier with unbounded integers: in every block, the effect of each
instruction is known, no instruction pops more than the block has pushed so far, and the block
ends with nothing left. -/
def StackBalanced (resolver : BinaryIndexedView) (functionView : FunctionView) : Prop :=
  ∀ block ∈ functionView.cfg.blocks, ∃ effects,
    blockEffects resolver functionView.return_ functionView.code.code block = .ok effects ∧
      Counter.run (effects.map natEffect) 0 = some 0

/-- The `u64` arithmetic of one step: what is left after the pops, with the pushes wrapping. -/
theorem toNat_sub_add {s p q : UInt64} (h : ¬ s < p) :
    (s - p + q).toNat = (s.toNat - p.toNat + q.toNat) % 2 ^ 64 := by
  have hle : p ≤ s := UInt64.not_lt.mp h
  rw [UInt64.toNat_add, UInt64.toNat_sub_of_le _ _ hle]

/-- **The block loop is the counter in a `u64`**: it succeeds exactly when every instruction's
effect is known and the wrapping counter never pops more than it holds. -/
theorem verifyBlockLoop_eq_ok {resolver : BinaryIndexedView} {return_ : Signature}
    {code : List Bytecode} {function blockStart : ℕ} :
    ∀ {is : List ℕ} {s s' : UInt64},
      verifyBlockLoop resolver return_ code function blockStart is s = .ok s' ↔
        ∃ effects, is.mapM (effectAt resolver return_ code) = .ok effects ∧
          Counter.runMod (2 ^ 64) (effects.map natEffect) s.toNat = some s'.toNat
  | [], s, s' => by
    simp only [verifyBlockLoop, List.mapM_nil, pure, Outcome.ok.injEq]
    constructor
    · rintro rfl
      exact ⟨[], rfl, rfl⟩
    · rintro ⟨effects, rfl, h⟩
      exact UInt64.toNat_inj.mp (Option.some.inj h)
  | i :: is, s, s' => by
    rw [verifyBlockLoop, Outcome.bind_eq_ok, List.mapM_cons]
    constructor
    · rintro ⟨⟨p, q⟩, hi, hrest⟩
      dsimp only at hrest
      -- the pop check passed, so the loop went on with the wrapped height
      by_cases hlt : s < p
      · rw [if_pos hlt] at hrest
        cases hrest
      · rw [if_neg hlt, verifyBlockLoop_eq_ok] at hrest
        obtain ⟨effects, his, hrun⟩ := hrest
        refine ⟨(p, q) :: effects, ?_, ?_⟩
        · rw [hi, Outcome.ok_bind, his]
          rfl
        · rw [List.map_cons, natEffect, Counter.runMod,
            if_neg (by rwa [UInt64.lt_iff_toNat_lt] at hlt), ← toNat_sub_add hlt]
          exact hrun
    · rintro ⟨effects, heffects, hrun⟩
      rw [Outcome.bind_eq_ok] at heffects
      obtain ⟨⟨p, q⟩, hi, heffects⟩ := heffects
      rw [Outcome.bind_eq_ok] at heffects
      obtain ⟨rest, his, heffects⟩ := heffects
      cases heffects
      refine ⟨(p, q), hi, ?_⟩
      dsimp only
      rw [List.map_cons, natEffect, Counter.runMod] at hrun
      have hlt : ¬ s < p := by
        intro hlt
        rw [if_pos (UInt64.lt_iff_toNat_lt.mp hlt)] at hrun
        cases hrun
      rw [if_neg (by rwa [UInt64.lt_iff_toNat_lt] at hlt), ← toNat_sub_add hlt] at hrun
      rw [if_neg hlt, verifyBlockLoop_eq_ok]
      exact ⟨rest, his, hrun⟩

/-- A block passes exactly when its wrapping counter ends at `0`. -/
theorem verifyBlock_eq_ok {resolver : BinaryIndexedView} {return_ : Signature}
    {code : List Bytecode} {function : ℕ} {block : BasicBlock} :
    verifyBlock resolver return_ code function block = .ok () ↔
      ∃ effects, blockEffects resolver return_ code block = .ok effects ∧
        Counter.runMod (2 ^ 64) (effects.map natEffect) 0 = some 0 := by
  rw [verifyBlock, Outcome.bind_eq_ok]
  constructor
  · rintro ⟨s, hloop, hend⟩
    have hs : s = 0 := by
      by_contra hne
      rw [if_neg hne] at hend
      cases hend
    subst hs
    exact Iff.mp verifyBlockLoop_eq_ok hloop
  · rintro ⟨effects, heffects, hrun⟩
    exact ⟨0, Iff.mpr verifyBlockLoop_eq_ok ⟨effects, heffects, hrun⟩, if_pos rfl⟩

/-- **The verifier is exact while no height overflows.** When the heights of every block stay
below `2 ^ 64` with unbounded integers, the verifier accepts exactly the functions whose
blocks balance. -/
theorem verify_eq_ok_iff {resolver : BinaryIndexedView} {functionView : FunctionView}
    (hbelow : ∀ block ∈ functionView.cfg.blocks, ∀ effects,
      blockEffects resolver functionView.return_ functionView.code.code block = .ok effects →
        Counter.Below (2 ^ 64) (effects.map natEffect) 0) :
    verify resolver functionView = .ok () ↔ StackBalanced resolver functionView := by
  rw [verify, Outcome.forM_eq_ok]
  refine forall₂_congr fun block hblock => ?_
  rw [verifyBlock_eq_ok]
  constructor
  · rintro ⟨effects, heffects, hrun⟩
    exact ⟨effects, heffects, Counter.runMod_eq_run (hbelow block hblock effects heffects) ▸ hrun⟩
  · rintro ⟨effects, heffects, hrun⟩
    exact ⟨effects, heffects, (Counter.runMod_eq_run (hbelow block hblock effects heffects)).trans hrun⟩

/-- **A block that overflows its height passes.** The function `LdU8(0); VecUnpack(0, u64::MAX);
LdTrue; Ret` of a module returning nothing pushes `2 ^ 64` values, and the release build's
height wraps back to `0`. -/
theorem stack_usage_wraps :
    let module : CompiledModule :=
      ⟨6, 0, [], [], [⟨0, 0, 0, 0, []⟩], [], [], [], [], [], [[]], [], [], [], [], []⟩
    let code : CodeUnit := ⟨0, [.ldU8 0, .vecUnpack 0 (2 ^ 64 - 1), .ldTrue, .ret]⟩
    ∃ functionView, FunctionView.function module 0 code ⟨0, 0, 0, 0, []⟩ = .ok functionView ∧
      verify (.module module) functionView = .ok () ∧
      ¬ StackBalanced (.module module) functionView := by
  intro module code
  let block : BasicBlock := ⟨0, 3, []⟩
  -- the four effects: the wrapping height ends at `0`, the unbounded one at `2 ^ 64`
  have hcomputed : blockEffects (.module module) [] code.code block =
      .ok [(0, 1), (1, (2 ^ 64 - 1 : ℕ).toUInt64), (0, 1), (0, 0)] := rfl
  have hverify : verify (.module module) ⟨some 0, code, [], [], [], [], ⟨[block]⟩⟩ = .ok () := by
    rw [verify, Outcome.forM_eq_ok]
    intro b hb
    rw [List.mem_singleton.mp hb, verifyBlock_eq_ok]
    exact ⟨_, hcomputed, by decide⟩
  refine ⟨⟨some 0, code, [], [], [], [], ⟨[block]⟩⟩, rfl, hverify, fun h => ?_⟩
  obtain ⟨effects, heffects, hrun⟩ := h block (List.mem_singleton_self _)
  rw [hcomputed] at heffects
  cases heffects
  exact absurd hrun (by decide)

end StackUsageVerifier

end Dijets.Move
