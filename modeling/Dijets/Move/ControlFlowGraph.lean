import Dijets.Move.BinaryViews
import Mathlib.Data.List.Basic

/-!
# The control-flow graph of a function

`VMControlFlowGraph::new` first collects the offsets that begin blocks: the entry, every
branch target, and the offset after every branch. It then walks the code once and closes a
block at each offset whose successor begins a block, or that is the last one, with the
successors `Bytecode::get_successors` gives for that offset. The blocks are a `BTreeMap` from
their entries; they are created in the order of their entries, so the map is the list of its
blocks in that order. `FunctionView::function` builds the graph before any check of the code
runs.

`get_successors` opens with `checked_precondition!`, an `assert!`: the offset must be at most
`u16::max_value() - 2`. The last offset of a code unit always closes a block, so a code unit
of `u16::max_value()` instructions, which the binary format accepts, makes `new` panic
(`new_eq_panic`). A `CodeOffset` is a `u16`; offsets are natural numbers here, which is the
code's arithmetic for code of at most `u16::max_value()` instructions.

Below that length the blocks cover the code, one after the other, each from an offset that
begins a block to the first offset that ends one, and their successors are entries of blocks
in ascending order (`new_spec`).

## Main results

* `new_eq_ok` — for code of fewer than `u16::max_value()` instructions, `new` builds the
  blocks and its `assert_eq!` holds.
* `new_eq_panic` — for code of `u16::max_value()` instructions, `new` panics.
* `new_spec` — the blocks partition the code, every branch target and every offset after a
  branch begins one, and successors are entries of blocks, ascending.
-/

set_option autoImplicit false

namespace Dijets.Move

open Dijets.Lib

/-- `BasicBlock`: the offsets of its first and last instructions, and its successors. -/
structure BasicBlock where
  entry : ℕ
  exit : ℕ
  successors : List ℕ
deriving DecidableEq, Repr

/-- `VMControlFlowGraph`: its blocks, in the order of their entries. -/
structure VMControlFlowGraph where
  blocks : List BasicBlock
deriving DecidableEq, Repr

/-- `ENTRY_BLOCK_ID`. -/
def ENTRY_BLOCK_ID : ℕ := 0

/-- `u16::max_value()`, the largest `CodeOffset`. -/
def CODE_OFFSET_MAX : ℕ := 65535

/-- `get_successors` after its `checked_precondition!`, which panics unless the offset is at
most `u16::max_value() - 2` and inside the code. -/
def Bytecode.getSuccessorsChecked (pc : ℕ) (code : List Bytecode) :
    Outcome PartialVMError (List ℕ) :=
  if pc ≤ CODE_OFFSET_MAX - 2 ∧ pc < code.length then .ok (Bytecode.getSuccessors pc code)
  else .panic

namespace VMControlFlowGraph

/-- `record_block_ids`: a branch's target begins a block, and so does the offset after a
branch. -/
def recordBlockIds (codeLen : ℕ) (blockIds : List ℕ) (bytecode : Bytecode) (pc : ℕ) : List ℕ :=
  let blockIds :=
    match bytecode.offset with
    | some offset => blockIds.insert offset
    | none => blockIds
  if bytecode.isBranch && pc + 1 < codeLen then blockIds.insert (pc + 1) else blockIds

/-- The first loop of `new`: the entry and every offset `record_block_ids` collects. -/
def blockIds (code : List Bytecode) : List ℕ :=
  code.zipIdx.foldl (fun ids p => recordBlockIds code.length ids p.1 p.2) [ENTRY_BLOCK_ID]

/-- `is_end_of_block`. -/
def isEndOfBlock (pc : ℕ) (code : List Bytecode) (blockIds : List ℕ) : Bool :=
  pc + 1 == code.length || blockIds.contains (pc + 1)

/-- One iteration of the second loop of `new`, over the blocks made so far and the entry of
the next one. -/
def addBlock (code : List Bytecode) (blockIds : List ℕ) (state : List BasicBlock × ℕ) (pc : ℕ) :
    Outcome PartialVMError (List BasicBlock × ℕ) :=
  if isEndOfBlock pc code blockIds then do
    let successors ← Bytecode.getSuccessorsChecked pc code
    pure (state.1 ++ [⟨state.2, pc, successors⟩], pc + 1)
  else pure state

/-- The second loop of `new`: its blocks and the entry it ends with. -/
def buildBlocks (code : List Bytecode) : Outcome PartialVMError (List BasicBlock × ℕ) :=
  (List.range code.length).foldlM (addBlock code (blockIds code)) ([], 0)

/-- `VMControlFlowGraph::new`, with its closing `assert_eq!` on the entry the second loop ends
with. -/
def new (code : List Bytecode) : Outcome PartialVMError VMControlFlowGraph := do
  let (blocks, entry) ← buildBlocks code
  if entry = code.length then pure ⟨blocks⟩ else .panic

/-- `blocks`: the entries of the blocks. -/
def blockIdList (cfg : VMControlFlowGraph) : List ℕ := cfg.blocks.map BasicBlock.entry

end VMControlFlowGraph

/-- `FunctionView`: what the verifier reads of one function, its code, the signatures of its
parameters, results and locals, and its control-flow graph. -/
structure FunctionView where
  index : Option ℕ
  code : CodeUnit
  parameters : Signature
  return_ : Signature
  locals : Signature
  typeParameters : List AbilitySet
  cfg : VMControlFlowGraph

namespace FunctionView

/-- `FunctionView::function`: the view of a module's function. -/
def function (module : CompiledModule) (index : ℕ) (code : CodeUnit)
    (functionHandle : FunctionHandle) : Outcome PartialVMError FunctionView := do
  let parameters ← (BinaryIndexedView.module module).signatureAt functionHandle.parameters
  let return_ ← (BinaryIndexedView.module module).signatureAt functionHandle.return_
  let locals ← (BinaryIndexedView.module module).signatureAt code.locals
  let cfg ← VMControlFlowGraph.new code.code
  pure ⟨some index, code, parameters, return_, locals, functionHandle.typeParameters, cfg⟩

/-- `FunctionView::script`: the view of a script's function, which returns nothing. -/
def script (script : CompiledScript) : Outcome PartialVMError FunctionView := do
  let parameters ← (BinaryIndexedView.script script).signatureAt script.parameters
  let locals ← (BinaryIndexedView.script script).signatureAt script.code.locals
  let cfg ← VMControlFlowGraph.new script.code.code
  pure ⟨none, script.code, parameters, [], locals, script.typeParameters, cfg⟩

end FunctionView

/-! ## Blocks one after the other -/

/-- The blocks cover the offsets from `start` to `stop`, each from its entry to its exit, one
after the other. -/
inductive Covers : List BasicBlock → ℕ → ℕ → Prop
  | nil (n : ℕ) : Covers [] n n
  | cons {b : BasicBlock} {bs : List BasicBlock} {stop : ℕ} :
      b.entry ≤ b.exit → Covers bs (b.exit + 1) stop → Covers (b :: bs) b.entry stop

theorem Covers.le {bs : List BasicBlock} {start stop : ℕ} (h : Covers bs start stop) :
    start ≤ stop := by
  induction h with
  | nil => exact Nat.le_refl _
  | cons hle _ ih => omega

theorem Covers.append_singleton {bs : List BasicBlock} {start stop : ℕ} (h : Covers bs start stop)
    {b : BasicBlock} (hentry : b.entry = stop) (hle : b.entry ≤ b.exit) :
    Covers (bs ++ [b]) start (b.exit + 1) := by
  induction h with
  | nil n =>
    subst hentry
    exact .cons hle (.nil _)
  | cons hle' _ ih => exact .cons hle' (ih hentry)

/-- An offset the blocks cover lies in one of them. -/
theorem Covers.exists_mem {bs : List BasicBlock} {start stop : ℕ} (h : Covers bs start stop)
    {pc : ℕ} (hlo : start ≤ pc) (hhi : pc < stop) : ∃ b ∈ bs, b.entry ≤ pc ∧ pc ≤ b.exit := by
  induction h with
  | nil => omega
  | @cons b bs stop hle _ ih =>
    by_cases hpc : pc ≤ b.exit
    · exact ⟨b, List.mem_cons_self, hlo, hpc⟩
    · obtain ⟨b', hb', h'⟩ := ih (by omega) hhi
      exact ⟨b', List.mem_cons_of_mem b hb', h'⟩

namespace VMControlFlowGraph

variable {code : List Bytecode}

/-! ## The offsets that begin blocks -/

theorem mem_recordBlockIds_of_mem {len pc x : ℕ} {ids : List ℕ} {b : Bytecode} (hx : x ∈ ids) :
    x ∈ recordBlockIds len ids b pc := by
  unfold recordBlockIds
  have hmid : x ∈ (match b.offset with | some offset => ids.insert offset | none => ids) := by
    cases b.offset with
    | some o => exact List.mem_insert_of_mem hx
    | none => exact hx
  split_ifs
  · exact List.mem_insert_of_mem hmid
  · exact hmid

theorem offset_mem_recordBlockIds {len pc o : ℕ} {ids : List ℕ} {b : Bytecode}
    (ho : b.offset = some o) : o ∈ recordBlockIds len ids b pc := by
  unfold recordBlockIds
  rw [ho]
  split_ifs
  · exact List.mem_insert_of_mem List.mem_insert_self
  · exact List.mem_insert_self

theorem succ_mem_recordBlockIds {len pc : ℕ} {ids : List ℕ} {b : Bytecode}
    (hb : b.isBranch = true) (hlt : pc + 1 < len) : pc + 1 ∈ recordBlockIds len ids b pc := by
  unfold recordBlockIds
  rw [if_pos (by simp [hb, hlt])]
  exact List.mem_insert_self

/-- An offset in the ids is still there after more instructions are recorded. -/
theorem mem_foldl_recordBlockIds {len x : ℕ} :
    ∀ {L : List (Bytecode × ℕ)} {ids : List ℕ}, x ∈ ids →
      x ∈ L.foldl (fun ids p => recordBlockIds len ids p.1 p.2) ids
  | [], _, hx => hx
  | _ :: L, _, hx => mem_foldl_recordBlockIds (L := L) (mem_recordBlockIds_of_mem hx)

/-- An offset that recording one of the instructions adds is in the ids. -/
theorem mem_foldl_recordBlockIds_of_pair {len x : ℕ} {p : Bytecode × ℕ}
    (hp : ∀ ids, x ∈ recordBlockIds len ids p.1 p.2) :
    ∀ {L : List (Bytecode × ℕ)} {ids : List ℕ}, p ∈ L →
      x ∈ L.foldl (fun ids p => recordBlockIds len ids p.1 p.2) ids
  | [], _, hmem => absurd hmem List.not_mem_nil
  | q :: L, ids, hmem => by
    rcases List.mem_cons.mp hmem with rfl | hmem
    · exact @mem_foldl_recordBlockIds len x L _ (hp ids)
    · exact @mem_foldl_recordBlockIds_of_pair len x p hp L _ hmem

/-- A branch target begins a block. -/
theorem offset_mem_blockIds {pc o : ℕ} {b : Bytecode} (hb : code[pc]? = some b)
    (ho : b.offset = some o) : o ∈ blockIds code :=
  mem_foldl_recordBlockIds_of_pair (p := (b, pc)) (fun _ => offset_mem_recordBlockIds ho)
    (List.mk_mem_zipIdx_iff_getElem?.mpr hb)

/-- The offset after a branch begins a block. -/
theorem succ_mem_blockIds {pc : ℕ} {b : Bytecode} (hb : code[pc]? = some b)
    (hbr : b.isBranch = true) (hlt : pc + 1 < code.length) : pc + 1 ∈ blockIds code :=
  mem_foldl_recordBlockIds_of_pair (p := (b, pc)) (fun _ => succ_mem_recordBlockIds hbr hlt)
    (List.mk_mem_zipIdx_iff_getElem?.mpr hb)

theorem isEndOfBlock_of_mem {pc : ℕ} (h : pc + 1 ∈ blockIds code) :
    isEndOfBlock pc code (blockIds code) = true := by
  simp [isEndOfBlock, h]

theorem isEndOfBlock_last (hne : code ≠ []) :
    isEndOfBlock (code.length - 1) code (blockIds code) = true := by
  have : 0 < code.length := List.length_pos_iff.mpr hne
  simp only [isEndOfBlock, Bool.or_eq_true, beq_iff_eq]
  exact Or.inl (by omega)

/-! ## The loop that builds the blocks -/

/-- What a block of `new` is: it ends at an offset that ends a block, no offset before that
does, and its successors are those of its last instruction. -/
structure IsBlock (code : List Bytecode) (b : BasicBlock) : Prop where
  entry_le_exit : b.entry ≤ b.exit
  isEndOfBlock_exit : isEndOfBlock b.exit code (blockIds code) = true
  not_isEndOfBlock : ∀ pc, b.entry ≤ pc → pc < b.exit → isEndOfBlock pc code (blockIds code) = false
  successors_eq : b.successors = Bytecode.getSuccessors b.exit code

/-- The invariant of the second loop after the offsets below `k`: the blocks cover the
offsets up to the next entry, each is a block, and no offset from the next entry to `k` ends a
block. -/
structure BuildInv (code : List Bytecode) (k : ℕ) (state : List BasicBlock × ℕ) : Prop where
  covers : Covers state.1 0 state.2
  entry_le : state.2 ≤ k
  isBlock : ∀ b ∈ state.1, IsBlock code b
  open_ : ∀ pc, state.2 ≤ pc → pc < k → isEndOfBlock pc code (blockIds code) = false

theorem buildInv_zero : BuildInv code 0 ([], 0) :=
  ⟨.nil 0, Nat.le_refl 0, fun _ h => absurd h List.not_mem_nil,
    fun _ _ h => absurd h (Nat.not_lt_zero _)⟩

theorem getSuccessorsChecked_eq_ok {pc : ℕ} {successors : List ℕ}
    (h : Bytecode.getSuccessorsChecked pc code = .ok successors) :
    successors = Bytecode.getSuccessors pc code := by
  unfold Bytecode.getSuccessorsChecked at h
  split_ifs at h
  cases h
  rfl

/-- One iteration keeps the invariant. -/
theorem BuildInv.addBlock {k : ℕ} {state state' : List BasicBlock × ℕ} (h : BuildInv code k state)
    (hstep : addBlock code (blockIds code) state k = .ok state') : BuildInv code (k + 1) state' := by
  unfold VMControlFlowGraph.addBlock at hstep
  by_cases hend : isEndOfBlock k code (blockIds code) = true
  · -- the offset closes the open block
    rw [if_pos hend, Outcome.bind_eq_ok] at hstep
    obtain ⟨successors, hsucc, hstep⟩ := hstep
    cases hstep
    have hle : state.2 ≤ k := h.entry_le
    refine ⟨h.covers.append_singleton rfl hle, Nat.le_refl _, fun b hb => ?_,
      fun pc h₁ h₂ => by omega⟩
    rcases List.mem_append.mp hb with hb | hb
    · exact h.isBlock b hb
    · rw [List.mem_singleton.mp hb]
      exact ⟨hle, hend, fun pc h₁ h₂ => h.open_ pc h₁ h₂, getSuccessorsChecked_eq_ok hsucc⟩
  · rw [if_neg hend] at hstep
    cases hstep
    refine ⟨h.covers, Nat.le_succ_of_le h.entry_le, h.isBlock, fun pc h₁ h₂ => ?_⟩
    rcases Nat.lt_succ_iff_lt_or_eq.mp h₂ with h₂ | rfl
    · exact h.open_ pc h₁ h₂
    · exact Bool.eq_false_iff.mpr hend

/-- An iteration at an offset the precondition of `get_successors` admits succeeds. -/
theorem addBlock_isOk {k : ℕ} (state : List BasicBlock × ℕ) (hk : k ≤ CODE_OFFSET_MAX - 2)
    (hlt : k < code.length) : ∃ state', addBlock code (blockIds code) state k = .ok state' := by
  unfold VMControlFlowGraph.addBlock Bytecode.getSuccessorsChecked
  split_ifs with hend hpre
  · exact ⟨_, rfl⟩
  · exact absurd ⟨hk, hlt⟩ hpre
  · exact ⟨_, rfl⟩

theorem foldlM_range_succ {σ : Type} (f : σ → ℕ → Outcome PartialVMError σ) (s : σ) (k : ℕ) :
    (List.range (k + 1)).foldlM f s = (List.range k).foldlM f s >>= fun s' => f s' k := by
  simp only [List.range_succ, List.foldlM_append, List.foldlM_cons, List.foldlM_nil, bind_pure]

/-- The loop over the offsets below `k`, all of which the precondition admits, succeeds with
the invariant. -/
theorem buildBlocks_upTo :
    ∀ k, k ≤ code.length → k ≤ CODE_OFFSET_MAX - 1 →
      ∃ state, (List.range k).foldlM (addBlock code (blockIds code)) ([], 0) = .ok state ∧
        BuildInv code k state
  | 0, _, _ => ⟨_, rfl, buildInv_zero⟩
  | k + 1, hk, hmax => by
    obtain ⟨state, hstate, hinv⟩ := buildBlocks_upTo k (by omega) (by omega)
    obtain ⟨state', hstep⟩ := @addBlock_isOk code k state (by omega) (by omega)
    refine ⟨state', ?_, hinv.addBlock hstep⟩
    rw [foldlM_range_succ, hstate, Outcome.ok_bind, hstep]

/-- The last offset closes the last block, so the loop ends at the end of the code. -/
theorem BuildInv.entry_eq_length {state : List BasicBlock × ℕ}
    (h : BuildInv code code.length state) : state.2 = code.length := by
  by_cases hne : code = []
  · subst hne
    exact Nat.le_zero.mp h.entry_le
  · have hpos := List.length_pos_iff.mpr hne
    rcases Nat.lt_or_ge state.2 code.length with hlt | hge
    · -- an open block would leave the last offset not ending a block
      have hopen := h.open_ (code.length - 1) (by omega) (by omega)
      rw [isEndOfBlock_last hne] at hopen
      cases hopen
    · exact Nat.le_antisymm h.entry_le hge

/-- **`new` succeeds below `u16::max_value()` instructions**: its blocks cover the code and
each is a block. -/
theorem new_eq_ok (hlen : code.length ≤ CODE_OFFSET_MAX - 1) :
    ∃ cfg, new code = .ok cfg ∧ Covers cfg.blocks 0 code.length ∧ ∀ b ∈ cfg.blocks, IsBlock code b := by
  obtain ⟨state, hstate, hinv⟩ := @buildBlocks_upTo code code.length (Nat.le_refl _) hlen
  have hentry := hinv.entry_eq_length
  refine ⟨⟨state.1⟩, ?_, ?_, hinv.isBlock⟩
  · rw [new, buildBlocks, hstate, Outcome.ok_bind]
    dsimp only
    rw [if_pos hentry]
    rfl
  · have hcov := hinv.covers
    rw [hentry] at hcov
    exact hcov

/-- **`new` panics at `u16::max_value()` instructions**: the last offset, `u16::max_value() - 1`,
closes a block, and `get_successors` refuses it. -/
theorem new_eq_panic (hlen : code.length = CODE_OFFSET_MAX) : new code = .panic := by
  have hne : code ≠ [] := List.ne_nil_of_length_pos (by rw [hlen]; decide)
  obtain ⟨state, hstate, _⟩ :=
    @buildBlocks_upTo code (CODE_OFFSET_MAX - 1) (by omega) (Nat.le_refl _)
  have hlast : addBlock code (blockIds code) state (CODE_OFFSET_MAX - 1) = .panic := by
    have hend := isEndOfBlock_last hne
    rw [hlen] at hend
    unfold VMControlFlowGraph.addBlock Bytecode.getSuccessorsChecked
    rw [if_pos hend, if_neg (by simp [CODE_OFFSET_MAX])]
    rfl
  have hbuild : buildBlocks code = .panic := by
    rw [buildBlocks, hlen, show CODE_OFFSET_MAX = CODE_OFFSET_MAX - 1 + 1 from rfl,
      foldlM_range_succ, hstate, Outcome.ok_bind, hlast]
  rw [new, hbuild]
  rfl

/-- The longest code unit the binary format admits, `u16::max_value()` instructions: `Nop`s and
then `Ret`, without a branch target. -/
def maxLengthCode : List Bytecode :=
  List.replicate (CODE_OFFSET_MAX - 1) Bytecode.nop ++ [Bytecode.ret]

theorem new_panics_at_max_length :
    maxLengthCode ≠ [] ∧
      (∀ (pc : ℕ) (b : Bytecode) (o : ℕ), maxLengthCode[pc]? = some b → b.offset = some o →
        o < maxLengthCode.length) ∧
      new maxLengthCode = .panic := by
  have hlen : maxLengthCode.length = CODE_OFFSET_MAX := by
    rw [maxLengthCode, List.length_append, List.length_replicate, List.length_singleton]
    rfl
  refine ⟨List.ne_nil_of_length_pos (by rw [hlen]; decide), fun pc b o hb ho => ?_, new_eq_panic hlen⟩
  -- neither `Nop` nor `Ret` has a target
  have hmem : b ∈ maxLengthCode := List.mem_of_getElem? hb
  simp only [maxLengthCode, List.mem_append, List.mem_replicate, List.mem_singleton] at hmem
  rcases hmem with ⟨-, rfl⟩ | rfl <;> cases ho

/-! ## The blocks partition the code -/

section Partition

variable {blocks : List BasicBlock} (hcov : Covers blocks 0 code.length)
  (hblocks : ∀ b ∈ blocks, IsBlock code b)
include hcov hblocks

/-- An offset that begins a block is the entry of one. -/
theorem exists_entry_of_mem_blockIds {x : ℕ} (hx : x ∈ blockIds code) (hlt : x < code.length) :
    ∃ b ∈ blocks, b.entry = x := by
  obtain ⟨b, hb, hlo, hhi⟩ := hcov.exists_mem (Nat.zero_le x) hlt
  refine ⟨b, hb, ?_⟩
  -- an offset inside `b` before its exit would not end a block
  by_contra hne
  have hinner := (hblocks b hb).not_isEndOfBlock (x - 1) (by omega) (by omega)
  rw [isEndOfBlock_of_mem (show x - 1 + 1 ∈ blockIds code by rwa [Nat.sub_add_cancel (by omega)])]
    at hinner
  cases hinner

end Partition

end VMControlFlowGraph

namespace Bytecode

/-- A successor is the instruction's branch target, or the next offset inside the code. -/
theorem mem_getSuccessors {pc s : ℕ} {code : List Bytecode} (hs : s ∈ getSuccessors pc code) :
    (∃ b, code[pc]? = some b ∧ b.offset = some s) ∨ (s = pc + 1 ∧ pc + 1 < code.length) := by
  unfold getSuccessors at hs
  cases hpc : code[pc]? with
  | none => simp [hpc] at hs
  | some b =>
    simp only [hpc] at hs
    have hoff : s ∈ b.offset.toList → ∃ b', some b = some b' ∧ b'.offset = some s := fun h =>
      ⟨b, rfl, Option.mem_toList.mp h⟩
    by_cases hnext : pc + 1 ≥ code.length
    · rw [if_pos hnext] at hs
      exact .inl (hoff hs)
    · rw [if_neg hnext] at hs
      generalize hv : (if (!b.isUnconditionalBranch && !b.offset.toList.contains (pc + 1)) = true then
        b.offset.toList ++ [pc + 1] else b.offset.toList) = v at hs
      -- the two successors may have been swapped into ascending order
      have hmem : s ∈ v := by
        split at hs
        · split_ifs at hs <;> simp only [List.mem_cons, List.not_mem_nil, or_false] at hs ⊢ <;> tauto
        · exact hs
      rw [← hv] at hmem
      split_ifs at hmem
      · rcases List.mem_append.mp hmem with hmem | hmem
        · exact .inl (hoff hmem)
        · exact .inr ⟨List.mem_singleton.mp hmem, by omega⟩
      · exact .inl (hoff hmem)

/-- The successors are in ascending order, without repetition. -/
theorem pairwise_getSuccessors (pc : ℕ) (code : List Bytecode) :
    (getSuccessors pc code).Pairwise (· < ·) := by
  unfold getSuccessors
  cases hpc : code[pc]? with
  | none => exact List.Pairwise.nil
  | some b =>
    dsimp only
    have htarget : b.offset.toList.Pairwise (· < ·) := by
      cases b.offset <;> simp
    by_cases hnext : pc + 1 ≥ code.length
    · rw [if_pos hnext]
      exact htarget
    · rw [if_neg hnext]
      generalize hv : (if (!b.isUnconditionalBranch && !b.offset.toList.contains (pc + 1)) = true then
        b.offset.toList ++ [pc + 1] else b.offset.toList) = v
      -- at most the target and the next offset, which differ when both are there
      have hfacts : v.Nodup ∧ v.length ≤ 2 := by
        rw [← hv]
        split_ifs with hadd
        · cases ho : b.offset with
          | none => simp
          | some o =>
            simp only [ho, Option.toList_some, List.contains_cons, List.contains_nil, Bool.or_false,
              Bool.and_eq_true, Bool.not_eq_true', beq_eq_false_iff_ne] at hadd
            simpa using hadd.2.symm
        · cases b.offset <;> simp
      split
      · rename_i a c
        have hne : a ≠ c := by simpa using hfacts.1
        split_ifs with hgt
        · simpa using hgt
        · simp only [List.pairwise_cons, List.mem_singleton, forall_eq, List.not_mem_nil,
            IsEmpty.forall_iff, implies_true, List.Pairwise.nil, and_true]
          omega
      · rename_i hnot
        obtain ⟨_, hlen⟩ := hfacts
        match v, hlen, hnot with
        | [], _, _ => exact List.Pairwise.nil
        | [_], _, _ => exact List.pairwise_singleton _ _
        | [a, c], _, hnot => exact absurd rfl (hnot a c)
        | _ :: _ :: _ :: _, hlen, _ => simp at hlen

end Bytecode

namespace VMControlFlowGraph

variable {code : List Bytecode}

/-- **The blocks partition the code.** For code of fewer than `u16::max_value()` instructions
whose branch targets lie inside it, `new` builds blocks that cover the offsets of the code one
after the other; every branch target, and every offset after a branch (`Ret` and `Abort`
among them), is a block's entry; and each block's successors, those of its last instruction,
are entries of blocks, in ascending order without repetition. -/
theorem new_spec (hlen : code.length ≤ CODE_OFFSET_MAX - 1)
    (htargets : ∀ (pc : ℕ) (b : Bytecode) (o : ℕ), code[pc]? = some b → b.offset = some o →
      o < code.length) :
    ∃ cfg, new code = .ok cfg ∧ Covers cfg.blocks 0 code.length ∧
      (∀ (pc : ℕ) (b : Bytecode) (o : ℕ), code[pc]? = some b → b.offset = some o →
        ∃ blk ∈ cfg.blocks, blk.entry = o) ∧
      (∀ (pc : ℕ) (b : Bytecode), code[pc]? = some b → b.isBranch = true → pc + 1 < code.length →
        ∃ blk ∈ cfg.blocks, blk.entry = pc + 1) ∧
      (∀ blk ∈ cfg.blocks, blk.successors = Bytecode.getSuccessors blk.exit code ∧
        blk.successors.Pairwise (· < ·) ∧
        ∀ s ∈ blk.successors, ∃ blk' ∈ cfg.blocks, blk'.entry = s) := by
  obtain ⟨cfg, hnew, hcov, hblocks⟩ := new_eq_ok hlen
  have hentry := @exists_entry_of_mem_blockIds code cfg.blocks hcov hblocks
  refine ⟨cfg, hnew, hcov,
    fun pc b o hb ho => hentry (offset_mem_blockIds hb ho) (htargets pc b o hb ho),
    fun pc b hb hbr hlt => hentry (succ_mem_blockIds hb hbr hlt) hlt, fun blk hblk => ?_⟩
  have hsucc := (hblocks blk hblk).successors_eq
  refine ⟨hsucc, hsucc ▸ Bytecode.pairwise_getSuccessors _ _, fun s hs => ?_⟩
  rw [hsucc] at hs
  rcases Bytecode.mem_getSuccessors hs with ⟨b, hb, ho⟩ | ⟨rfl, hlt⟩
  · exact hentry (offset_mem_blockIds hb ho) (htargets _ b s hb ho)
  · -- the exit ends a block before the end of the code, so the next offset begins one
    have hend := (hblocks blk hblk).isEndOfBlock_exit
    simp only [isEndOfBlock, Bool.or_eq_true, beq_iff_eq, List.contains_iff_mem] at hend
    exact hentry (hend.resolve_left (by omega)) hlt

/-- A conditional branch over one instruction: its blocks cover the three offsets. -/
theorem new_spec_brTrue :
    ∃ cfg, new [Bytecode.brTrue 2, .pop, .ret] = .ok cfg ∧ Covers cfg.blocks 0 3 := by
  obtain ⟨cfg, hnew, hcov, -⟩ := new_spec (by decide : [Bytecode.brTrue 2, .pop, .ret].length ≤ CODE_OFFSET_MAX - 1) (by
    intro pc b o hb ho
    rcases pc with _ | _ | _ | pc <;> simp at hb <;> subst hb <;> simp [Bytecode.offset] at ho ⊢; omega)
  exact ⟨cfg, hnew, hcov⟩

end VMControlFlowGraph

end Dijets.Move
