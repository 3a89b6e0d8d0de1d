import Mathlib.Data.List.Chain
import Dijets.Move.Dependencies

/-!
# Frames of a module on the call stack

What the acquires annotations are for. A function that takes from or borrows a global
resource of its module, or calls a function of its module that does, says so in its
annotation (`AcquiresVerifier`). Then, whenever the top frame of an execution takes or
borrows a resource of a module `M`, the frames running functions of `M` are a block at
the top of the call stack, and each of them is annotated with the resource; so no frame
of another module sits between two frames of `M`.

The call stack, top first, is what an execution is seen as here. A step moves the top
frame to any instruction of its body (whatever the instruction does to values and
locals, and a call of a native function, which runs without bytecode of its own), calls
a function, pushing its frame, or returns, popping the top frame. A call resolves as the
loader resolves it (`Resolves`): a handle of the caller's own module names the
definition with that handle, and a handle of another module names, by the module's id
and the function's name, a function of the module published under that id.

The modules are published in a list, in order, each accepted when it was (`Published`).
A module names only modules published before it (the dependency checker), and no two
have one id, so a call either stays in its module or goes to one published earlier:
going down the stack, the modules' places never decrease (`WellCalled` and
`CalledBy.lt_or_self`), and the frames of the top frame's module come first.

## Main results

* `annotationExact_of_published` — each function's annotation is what its body acquires.
* `frames_of_module_prefix` — the frames of the module whose resource the top frame
  takes or borrows are the top `k` frames, each annotated with the resource.
-/

set_option autoImplicit false

namespace Dijets.Move

open Relation
open InstantiationLoopChecker (DistinctFunctionHandles)

/-- Modules in the order they were published, each accepted when it was: by the bounds
checker, with distinct function handles (the duplication checker), with every function
that has a body passing `AcquiresVerifier`, and by the dependency checker against the
modules published before it; and no id published twice. -/
structure Published (modules : List CompiledModule) : Prop where
  bounds : ∀ m ∈ modules, BoundsChecker.verifyModule m = .ok ()
  distinctHandles : ∀ m ∈ modules, DistinctFunctionHandles m
  acquires : ∀ m ∈ modules, ∀ g fd code, m.functionDefs[g]? = some fd → fd.code = some code →
    AcquiresVerifier.verify m g fd = .ok ()
  dependencies : ∀ i m, modules[i]? = some m →
    Dependencies.verifyModuleImpl m (modules.take i) = .ok ()
  once : (modules.map CompiledModule.selfId).Nodup

theorem Published.inBounds {modules : List CompiledModule} (hp : Published modules)
    {m : CompiledModule} (hm : m ∈ modules) : ModuleInBounds m :=
  (BoundsChecker.verifyModule_eq_ok_iff m).mp (hp.bounds m hm)

namespace CallStack

/-- A frame: the module and the function definition it runs, and its program counter. -/
structure Frame where
  module : ℕ
  function : ℕ
  pc : ℕ
deriving DecidableEq, Repr

/-- The instruction a frame is at, if its function has a body and `pc` is in it. -/
def Frame.instruction? (modules : List CompiledModule) (fr : Frame) : Option Bytecode := do
  let m ← modules[fr.module]?
  let fd ← m.functionDefs[fr.function]?
  let code ← fd.code
  code.code[fr.pc]?

/-- A call through function handle `h` of module `i` runs definition `g` of module `j`:
for a handle of the module's own, the definition with that handle; for another, a
function of the module published under the handle's id, of the handle's name. -/
def Resolves (modules : List CompiledModule) (i h j g : ℕ) : Prop :=
  ∃ m fh n gd, modules[i]? = some m ∧ m.functionHandles[h]? = some fh ∧
    modules[j]? = some n ∧ n.functionDefs[g]? = some gd ∧
    if fh.module = m.selfModuleHandleIdx then j = i ∧ gd.function = h
    else n.selfId = m.moduleIdForHandle m.moduleHandles[fh.module]! ∧
      n.identifiers[n.functionHandles[gd.function]!.name]! = m.identifiers[fh.name]!

/-- `callee` runs the function that the call `caller` is at calls. -/
def CalledBy (modules : List CompiledModule) (caller callee : Frame) : Prop :=
  ∃ m instr h, modules[caller.module]? = some m ∧ caller.instruction? modules = some instr ∧
    CallsHandle m instr h ∧ Resolves modules caller.module h callee.module callee.function

/-- One step of an execution, on its call stack, top first. -/
inductive Step (modules : List CompiledModule) : List Frame → List Frame → Prop
  | jump {fr : Frame} {rest : List Frame} (pc : ℕ) :
      Step modules (fr :: rest) ({ fr with pc } :: rest)
  | call {fr callee : Frame} {rest : List Frame} :
      CalledBy modules fr callee → callee.pc = 0 → Step modules (fr :: rest) (callee :: fr :: rest)
  | ret {fr : Frame} {rest : List Frame} : Step modules (fr :: rest) rest

/-- Each frame below the top is at the call of the frame above it. -/
def WellCalled (modules : List CompiledModule) (stack : List Frame) : Prop :=
  stack.IsChain fun callee caller => CalledBy modules caller callee

variable {modules : List CompiledModule}

theorem instruction?_eq_some {fr : Frame} {instr : Bytecode} :
    fr.instruction? modules = some instr ↔ ∃ m fd code, modules[fr.module]? = some m ∧
      m.functionDefs[fr.function]? = some fd ∧ fd.code = some code ∧
        code.code[fr.pc]? = some instr := by
  simp [Frame.instruction?, Option.bind_eq_some_iff]

/-! ## The stack along a run -/

/-- **Step lemma.** Every step keeps each frame at the call of the frame above it. -/
theorem WellCalled.step {s s' : List Frame} (hw : WellCalled modules s)
    (hs : Step modules s s') : WellCalled modules s' := by
  cases hs with
  | jump pc =>
    -- the frame below called the top frame's function, wherever the top frame now is
    rw [WellCalled, List.isChain_cons] at hw ⊢
    exact hw
  | call hcall _ => exact List.IsChain.cons_cons hcall hw
  | ret => exact hw.tail

/-- **Run lemma.** Along a run from a stack where each frame is at the call of the one
above it, every stack is so. -/
theorem wellCalled_of_reflTransGen {s s' : List Frame} (hs : WellCalled modules s)
    (h : ReflTransGen (Step modules) s s') : WellCalled modules s' := by
  induction h with
  | refl => exact hs
  | tail _ hstep ih => exact ih.step hstep

/-! ## Published modules -/

section Published

variable (hp : Published modules)
include hp

/-- **The verifier's guarantee.** In a published module, each function's annotation is
exactly what its body acquires, each with key. -/
theorem annotationExact_of_published {m : CompiledModule} (hm : m ∈ modules) {g : ℕ}
    {fd : FunctionDefinition} {code : CodeUnit} (hg : m.functionDefs[g]? = some fd)
    (hcode : fd.code = some code) : AnnotationExact m fd code :=
  (AcquiresVerifier.verify_eq_ok_iff (hp.inBounds hm) (hp.distinctHandles m hm)
    (List.mem_of_getElem? hg) hcode).mp (hp.acquires m hm g fd code hg hcode)

/-- A frame at an instruction that acquires `r` runs a function annotated with `r`. -/
theorem annotated_of_instruction {fr : Frame} {m : CompiledModule} {instr : Bytecode} {r : ℕ}
    (hm : modules[fr.module]? = some m) (hinstr : fr.instruction? modules = some instr)
    (hacq : InstrAcquires m instr r) :
    ∃ fd, m.functionDefs[fr.function]? = some fd ∧ r ∈ fd.acquiresGlobalResources := by
  obtain ⟨m', fd, code, hm', hfd, hcode, hpc⟩ := instruction?_eq_some.mp hinstr
  obtain rfl : m' = m := Option.some.inj (hm'.symm.trans hm)
  have hexact := annotationExact_of_published hp (List.mem_of_getElem? hm) hfd hcode
  exact ⟨fd, hfd, (hexact.1 r).mpr ⟨instr, List.mem_of_getElem? hpc, hacq⟩⟩

/-- Two published modules with one id are one. -/
theorem index_eq_of_selfId {j k : ℕ} {n n' : CompiledModule} (hj : modules[j]? = some n)
    (hk : modules[k]? = some n') (h : n.selfId = n'.selfId) : j = k := by
  obtain ⟨hjlt, rfl⟩ := List.getElem?_eq_some_iff.mp hj
  obtain ⟨hklt, rfl⟩ := List.getElem?_eq_some_iff.mp hk
  have hj' : j < (modules.map CompiledModule.selfId).length := by simpa using hjlt
  have hk' : k < (modules.map CompiledModule.selfId).length := by simpa using hklt
  exact (@List.Nodup.getElem_inj_iff _ _ hp.once j hj' k hk').mp (by simpa using h)

omit hp in
theorem exists_index_of_mem_take {i : ℕ} {d : CompiledModule} (hd : d ∈ modules.take i) :
    ∃ k < i, modules[k]? = some d := by
  obtain ⟨k, hk⟩ := List.mem_iff_getElem?.mp hd
  rw [List.getElem?_take] at hk
  -- past `i`, the prefix has no entry
  split_ifs at hk with hki
  exact ⟨k, hki, hk⟩

/-- **A call stays in its module or goes to an earlier one.** A call through a handle of
the caller's own module runs the definition with that handle; any other runs a function
of a module published before the caller's. -/
theorem CalledBy.lt_or_self {caller callee : Frame} (hcall : CalledBy modules caller callee) :
    callee.module < caller.module ∨
      (callee.module = caller.module ∧ ∃ m instr h gd, modules[caller.module]? = some m ∧
        caller.instruction? modules = some instr ∧ CallsHandle m instr h ∧
          m.functionDefs[callee.function]? = some gd ∧ DefOfHandle m h gd) := by
  obtain ⟨m, instr, h, hm, hinstr, hcalls, m', fh, n, gd, hm', hfh, hn, hgd, hres⟩ := hcall
  have hmm : m = m' := Option.some.inj (hm.symm.trans hm')
  subst hmm
  split_ifs at hres with hself
  · -- a handle of the module itself: the callee is its definition there
    obtain ⟨hj, hgh⟩ := hres
    rw [hj] at hn
    have hnm : m = n := Option.some.inj (hm.symm.trans hn)
    subst hnm
    exact Or.inr ⟨hj, m, instr, h, gd, hm, hinstr, hcalls, hgd,
      ⟨List.mem_of_getElem? hgd, hgh, fh, hfh, hself⟩⟩
  · -- a handle of another module: the module under its id was published before
    obtain ⟨hid, -⟩ := hres
    have hmod : fh.module < m.moduleHandles.length :=
      ((hp.inBounds (List.mem_of_getElem? hm)).functionHandles fh (List.mem_of_getElem? hfh)).1
    obtain ⟨d, hd, hdid, -⟩ := Dependencies.importsDeclared_of_verifyModuleImpl
      (hp.dependencies _ m hm) fh.module _ (List.getElem?_eq_getElem hmod)
      (fun h => hself (Option.some.inj h))
    obtain ⟨k, hk, hdk⟩ := exists_index_of_mem_take hd
    have hmh : m.moduleHandles[fh.module]! = m.moduleHandles[fh.module] :=
      getElem!_pos m.moduleHandles fh.module hmod
    have hsame : callee.module = k := index_eq_of_selfId hp hn hdk (by rw [hid, hdid, hmh]; rfl)
    exact Or.inl (hsame ▸ hk)

/-- Going down a stack of a run, the modules' places never decrease. -/
theorem modules_pairwise_le {stack : List Frame} (hw : WellCalled modules stack) :
    (stack.map Frame.module).Pairwise (· ≤ ·) := by
  refine (List.isChain_map_of_isChain Frame.module (fun callee caller hcall => ?_) hw).pairwise
  rcases hcall.lt_or_self hp with hlt | ⟨heq, -⟩
  · exact hlt.le
  · exact heq.le

end Published

/-- In a list that never decreases, the entries equal to the first are a block at the
front. -/
theorem exists_block_eq_head {l : List ℕ} (hl : l.Pairwise (· ≤ ·)) (hlen : 0 < l.length) :
    ∃ k, 0 < k ∧ ∀ n (hn : n < l.length), l[n] = l[0] ↔ n < k := by
  obtain ⟨a, l, rfl⟩ := List.exists_cons_of_length_pos hlen
  simp only [List.getElem_cons_zero]
  -- the block ends at the first entry other than `a`
  let k := (a :: l).findIdx fun x => x ≠ a
  have hk0 : 0 < k := by simp [k, List.findIdx_cons]
  refine ⟨k, hk0, fun n hn => ⟨fun heq => ?_, fun hnk => ?_⟩⟩
  · by_contra hnk
    have hk : k < (a :: l).length := by omega
    have hne : (a :: l)[k] ≠ a :=
      of_decide_eq_true (@List.findIdx_getElem ℕ (fun x => decide (x ≠ a)) (a :: l) hk)
    have hle : ∀ i j (hi : i < (a :: l).length) (hj : j < (a :: l).length), i ≤ j →
        (a :: l)[i] ≤ (a :: l)[j] := by
      intro i j hi hj hij
      rcases Nat.lt_or_ge i j with h | h
      · exact List.pairwise_iff_getElem.mp hl i j hi hj h
      · obtain rfl : i = j := by omega
        exact le_rfl
    have h0 : a ≤ (a :: l)[k] := hle 0 k (by simp) hk (Nat.zero_le k)
    have hkn : (a :: l)[k] ≤ (a :: l)[n] := hle k n hk hn (by omega)
    omega
  · simpa using List.not_of_lt_findIdx hnk

/-- **Frames of the module that holds a resource.** In a run from one frame, when the top
frame takes or borrows, by an instruction of module `M`, the resource of `M`'s struct
definition `r`, the frames running functions of `M` are the top `k` frames for some
`k ≥ 1`, and each of them runs a function annotated with `r`. -/
theorem frames_of_module_prefix (hp : Published modules) {fr₀ top : Frame}
    {rest : List Frame} (hrun : ReflTransGen (Step modules) [fr₀] (top :: rest))
    {m : CompiledModule} {instr : Bytecode} {r : ℕ} (hm : modules[top.module]? = some m)
    (hinstr : top.instruction? modules = some instr) (hacc : AccessesGlobal m instr r) :
    ∃ k, 0 < k ∧ ∀ n (hn : n < (top :: rest).length),
      ((top :: rest)[n].module = top.module ↔ n < k) ∧
        (n < k → ∃ fd, m.functionDefs[(top :: rest)[n].function]? = some fd ∧
          r ∈ fd.acquiresGlobalResources) := by
  have hw := wellCalled_of_reflTransGen (List.isChain_singleton fr₀) hrun
  obtain ⟨k, hk0, hk⟩ := exists_block_eq_head (modules_pairwise_le hp hw) (by simp)
  have hblock : ∀ n (hn : n < (top :: rest).length),
      (top :: rest)[n].module = top.module ↔ n < k := fun n hn => by
    have hn' := hk n (by simpa using hn)
    rw [List.getElem_map, List.getElem_map, List.getElem_cons_zero] at hn'
    exact hn'
  refine ⟨k, hk0, fun n hn => ⟨hblock n hn, fun hnk => ?_⟩⟩
  -- down the block, by induction: each frame of `M` below the top called the one above
  induction n with
  | zero => exact annotated_of_instruction hp hm hinstr (Or.inl hacc)
  | succ n ih =>
    obtain ⟨fd, hfd, hr⟩ := ih (by omega) (by omega)
    have hcall : CalledBy modules (top :: rest)[n + 1] (top :: rest)[n] := hw.getElem n hn
    have hsame : (top :: rest)[n].module = (top :: rest)[n + 1].module := by
      rw [(hblock n (by omega)).mpr (by omega), (hblock (n + 1) hn).mpr hnk]
    rcases hcall.lt_or_self hp with hlt | ⟨-, m', instr', h, gd, hm', hinstr', hcalls, hgd, hdef⟩
    · omega
    · have hm'' : modules[(top :: rest)[n + 1].module]? = some m := by
        rw [(hblock (n + 1) hn).mpr hnk, hm]
      obtain rfl : m' = m := Option.some.inj (hm'.symm.trans hm'')
      obtain rfl : gd = fd := Option.some.inj (hgd.symm.trans hfd)
      exact annotated_of_instruction hp hm'' hinstr' (Or.inr ⟨h, gd, hcalls, hdef, hr⟩)

/-- **Acquires annotations cover every global access.** Over modules published in order,
each accepted when it was: (a) each function with a body is annotated with exactly the
resources of its module that the body takes or borrows, itself or through a call to a
function of the module, each of a struct with key; (b) in every run from one frame,
whenever the top frame takes or borrows the resource `r` of its module `M`, the frames
running functions of `M` are the top `k` frames, and each is annotated with `r`. -/
theorem acquires_cover_global_access (hp : Published modules) :
    (∀ m ∈ modules, ∀ (g : ℕ) (fd : FunctionDefinition) (code : CodeUnit),
      m.functionDefs[g]? = some fd → fd.code = some code → AnnotationExact m fd code) ∧
    ∀ (fr₀ top : Frame) (rest : List Frame), ReflTransGen (Step modules) [fr₀] (top :: rest) →
      ∀ m instr r, modules[top.module]? = some m → top.instruction? modules = some instr →
        AccessesGlobal m instr r →
        ∃ k, 0 < k ∧ ∀ n (hn : n < (top :: rest).length),
          ((top :: rest)[n].module = top.module ↔ n < k) ∧
            (n < k → ∃ fd, m.functionDefs[(top :: rest)[n].function]? = some fd ∧
              r ∈ fd.acquiresGlobalResources) :=
  ⟨fun _ hm _ _ _ hg hcode => annotationExact_of_published hp hm hg hcode,
    fun _ _ _ hrun _ _ _ hm hinstr hacc => frames_of_module_prefix hp hrun hm hinstr hacc⟩

/-- A module with a resource `S` (with key), a function `g` that moves it from global
storage, and a function `f` that calls `g`; both are annotated with `S`. -/
def acquiresExample : CompiledModule :=
  { version := 3, selfModuleHandleIdx := 0, moduleHandles := [⟨0, 0⟩],
    structHandles := [⟨0, 1, ⟨0x8⟩, []⟩],
    functionHandles := [⟨0, 3, 0, 0, []⟩, ⟨0, 4, 0, 0, []⟩],
    fieldHandles := [], friendDecls := [], structDefInstantiations := [],
    functionInstantiations := [], fieldInstantiations := [], signatures := [[]],
    identifiers := ["M", "S", "x", "f", "g"], addressIdentifiers := [⟨Vector.replicate 16 0⟩],
    constantPool := [], structDefs := [⟨0, .declared [⟨2, .bool⟩]⟩],
    functionDefs := [⟨0, .public, [0], some ⟨0, [.call 1, .ret]⟩⟩,
      ⟨1, .public, [0], some ⟨0, [.moveFrom 0, .pop, .ret]⟩⟩] }

theorem published_acquiresExample : Published [acquiresExample] where
  bounds := by
    intro m hm
    rw [List.mem_singleton.mp hm]
    decide
  distinctHandles := by
    intro m hm
    rw [List.mem_singleton.mp hm]
    show List.Nodup _
    decide
  acquires := by
    intro m hm g fd code hg _
    rw [List.mem_singleton.mp hm] at hg ⊢
    rcases g with _ | _ | g
    · obtain rfl : fd = ⟨0, .public, [0], some ⟨0, [.call 1, .ret]⟩⟩ := by
        simpa [acquiresExample] using hg.symm
      decide +kernel
    · obtain rfl : fd = ⟨1, .public, [0], some ⟨0, [.moveFrom 0, .pop, .ret]⟩⟩ := by
        simpa [acquiresExample] using hg.symm
      decide +kernel
    · simp [acquiresExample] at hg
  dependencies := by
    intro i m hi
    rcases i with _ | i
    · obtain rfl : m = acquiresExample := by simpa using hi.symm
      decide +kernel
    · simp at hi
  once := by decide +kernel

/-- The call of `g` from `f` in `acquiresExample`. -/
theorem step_acquiresExample :
    Step [acquiresExample] [⟨0, 0, 0⟩] [⟨0, 1, 0⟩, ⟨0, 0, 0⟩] :=
  Step.call ⟨acquiresExample, .call 1, 1, rfl, rfl, rfl,
    acquiresExample, ⟨0, 4, 0, 0, []⟩, acquiresExample, _, rfl, rfl, rfl, rfl,
    by decide⟩ rfl

theorem acquires_cover_acquiresExample :
    Published [acquiresExample] ∧
      AnnotationExact acquiresExample ⟨0, .public, [0], some ⟨0, [.call 1, .ret]⟩⟩
        ⟨0, [.call 1, .ret]⟩ ∧
      ∃ k, 0 < k ∧ ∀ n (hn : n < 2),
        (([⟨0, 1, 0⟩, ⟨0, 0, 0⟩] : List Frame)[n].module = 0 ↔ n < k) ∧
          (n < k → ∃ fd, acquiresExample.functionDefs[
            ([⟨0, 1, 0⟩, ⟨0, 0, 0⟩] : List Frame)[n].function]? = some fd ∧
              0 ∈ fd.acquiresGlobalResources) :=
  ⟨published_acquiresExample,
    (acquires_cover_global_access published_acquiresExample).1 _ (List.mem_singleton_self _)
      0 _ _ rfl rfl,
    (acquires_cover_global_access published_acquiresExample).2 _ _ _
      (ReflTransGen.single step_acquiresExample) _ (.moveFrom 0) 0 rfl rfl rfl⟩

end CallStack

end Dijets.Move
