import Dijets.Move.Errors
import Dijets.Move.FileFormat
import Dijets.Move.CheckBoundsSpec
import Dijets.Lib.SortedMap
import Dijets.Lib.Components

/-!
# Loops in the instantiation of generics

`InstantiationLoopChecker::verify_module`: a module's generic functions must not call
one another in a loop that builds a bigger type at each turn, as `f<T>` calling
`f<vector<T>>` does. The checker builds a graph on the type parameters of the
module's function definitions, with an edge from a caller's type parameter to each
type parameter of a callee in the module whose type argument holds it: an
`Identity` edge when the argument is the parameter itself, a `TyConApp` edge when
the parameter stands inside it. It rejects the module when a strongly connected
component of the graph holds a `TyConApp` edge.

The graph is its list of edges, in the order `add_edge` adds them. petgraph's
`tarjan_scc` is a parameter, `tarjanScc`, and the theorems assume of it only the
contract of a search for strongly connected components (`Components.SccSpec`):
which component the error reports is the last it lists. `func_handle_def_map` is read
by lookups only, and is modelled as an ascending association list.

The checker decides exactly that no `TyConApp` edge of the graph it builds lies on a
cycle (`verifyModuleImpl_eq_ok_iff`), whichever search meets the contract. It numbers a caller by its place among the
definitions with a body, and a callee by its place among all definitions. The two
agree when no native definition comes before one with a body, and the checker then
decides the instantiation graph of the module's own indices (`CallEdge`); otherwise
they do not, and a module with a native definition first passes with a loop
(`native_first_loop_accepted`).
-/

set_option autoImplicit false

namespace Dijets.Move

open Lib PartialVMError SignatureToken

/-- `FunctionDefinition::is_native`: a function without a body. -/
def FunctionDefinition.isNative (fd : FunctionDefinition) : Bool :=
  fd.code.isNone

/-- The instantiation `[..]!` reads past the end of the table, where the source panics;
the bounds checker has ruled that out before this checker runs. -/
instance : Inhabited FunctionInstantiation := ⟨⟨0, 0⟩⟩

namespace InstantiationLoopChecker

/-- `Node`: type parameter `paramIdx` of function definition `defIdx`. -/
structure Node where
  defIdx : ℕ
  paramIdx : ℕ
deriving DecidableEq, Repr

/-- `Edge`: how a caller's type parameter makes up the callee's type argument. -/
inductive Edge where
  | identity
  | tyConApp (ty : SignatureToken)
deriving DecidableEq, Repr

def Edge.isTyConApp : Edge → Bool
  | .identity => false
  | .tyConApp _ => true

/-- An edge of the graph, with its ends. -/
structure GraphEdge where
  source : Node
  target : Node
  weight : Edge
deriving DecidableEq, Repr

/-- The graph, as its edges in the order they are added. Every node is added with an
edge, so the nodes are the ends of the edges. -/
abbrev Graph := List GraphEdge

/-- `func_handle_def_map`: each function handle's definition, the last one when several
definitions share the handle. -/
def funcHandleDefMap (module : CompiledModule) : List (ℕ × ℕ) :=
  module.functionDefs.zipIdx.foldl (fun map p => SortedMap.insert p.1.function p.2 map) []

/-- `extract_type_parameters`: the type parameters a type mentions, each once. -/
def extractTypeParameters (ty : SignatureToken) : List ℕ :=
  (ty.preorderTraversal.filterMap fun t =>
    match t with
    | .typeParameter idx => some idx
    | _ => none).dedup

/-- The body of `build_graph_call`'s loop: the edges for type argument `ty` of the
callee's type parameter `formalIdx`. -/
def argumentEdges (callerIdx calleeIdx : ℕ) (ty : SignatureToken) (formalIdx : ℕ) : Graph :=
  match ty with
  | .typeParameter actualIdx => [⟨⟨callerIdx, actualIdx⟩, ⟨calleeIdx, formalIdx⟩, .identity⟩]
  | _ => (extractTypeParameters ty).map fun typeParam =>
    ⟨⟨callerIdx, typeParam⟩, ⟨calleeIdx, formalIdx⟩, .tyConApp ty⟩

/-- `build_graph_call`: the edges of a call from `callerIdx` to `calleeIdx` with the type
arguments of signature `typeActualsIdx`. -/
def buildGraphCall (module : CompiledModule) (callerIdx calleeIdx typeActualsIdx : ℕ) : Graph :=
  (module.signatures[typeActualsIdx]!).zipIdx.flatMap fun (ty, formalIdx) =>
    argumentEdges callerIdx calleeIdx ty formalIdx

/-- The body of `build_graph_function_def`'s loop: a generic call to a function defined
in the module. Calls to other modules' functions add nothing. -/
def instructionEdges (module : CompiledModule) (callerIdx : ℕ) : Bytecode → Graph
  | .callGeneric calleeInstIdx =>
    let calleeSi := module.functionInstantiations[calleeInstIdx]!
    match SortedMap.get? calleeSi.handle (funcHandleDefMap module) with
    | some calleeIdx => buildGraphCall module callerIdx calleeIdx calleeSi.typeParameters
    | none => []
  | _ => []

/-- `build_graph_function_def`. -/
def buildGraphFunctionDef (module : CompiledModule) (callerIdx : ℕ)
    (callerDef : FunctionDefinition) : Graph :=
  match callerDef.code with
  | none => []
  | some code => code.code.flatMap (instructionEdges module callerIdx)

/-- `build_graph`: the definitions with a body, numbered by their place among these. -/
def buildGraph (module : CompiledModule) : Graph :=
  ((module.functionDefs.filter fun d => !d.isNative).zipIdx).flatMap fun (funcDef, defIdx) =>
    buildGraphFunctionDef module defIdx funcDef

variable (tarjanScc : List (Node × Node) → List (List Node))

/-- The graph's edges as pairs of nodes, for the component search. -/
def pairs (graph : Graph) : List (Node × Node) :=
  graph.map fun e => (e.source, e.target)

/-- The edges of a component: those leaving one of its nodes for another. -/
def componentEdges (graph : Graph) (nodes : List Node) : Graph :=
  nodes.flatMap fun n => graph.filter fun e => e.source = n ∧ e.target ∈ nodes

/-- `find_non_trivial_components`: the components, with their edges, that hold a
`TyConApp` edge. -/
def findNonTrivialComponents (graph : Graph) : List (List Node × Graph) :=
  (tarjanScc (pairs graph)).filterMap fun nodes =>
    if (componentEdges graph nodes).any (·.weight.isTyConApp) then
      some (nodes, componentEdges graph nodes)
    else none

/-- `format_node`. -/
def formatNode (n : Node) : String :=
  "f" ++ toString n.defIdx ++ "#" ++ toString n.paramIdx

/-- `format_edge`. -/
def formatEdge (e : GraphEdge) : String :=
  match e.weight with
  | .tyConApp ty => formatNode e.source ++ " --" ++ ty.debug ++ "--> " ++ formatNode e.target
  | .identity => formatNode e.source ++ " ----> " ++ formatNode e.target

/-- `verify_module_impl`: the last non-trivial component, if any, is reported with its
`TyConApp` edges and its nodes. -/
def verifyModuleImpl (module : CompiledModule) : PartialVMResult Unit :=
  match (findNonTrivialComponents tarjanScc (buildGraph module)).getLast? with
  | none => .ok ()
  | some (nodes, edges) =>
    let msgEdges := ", ".intercalate (edges.filterMap fun e =>
      match e.weight with
      | .tyConApp _ => some (formatEdge e)
      | .identity => none)
    let msgNodes := ", ".intercalate (nodes.map formatNode)
    .error ((new .loopInInstantiationGraph).withMessage
      ("edges with constructors: [" ++ msgEdges ++ "], nodes: [" ++ msgNodes ++ "]"))

/-! ## What the checker decides -/

/-- An edge of `graph` from `a` to `b`; a `TyConApp` one when `tyCon` holds. -/
def EdgeAt (graph : Graph) (tyCon : Bool) (a b : Node) : Prop :=
  ∃ e ∈ graph, e.source = a ∧ e.target = b ∧ (tyCon = true → e.weight.isTyConApp = true)

/-- No `TyConApp` edge lies on a cycle: from its target no path leads back to its
source. -/
def NoTyConAppCycle (graph : Graph) : Prop :=
  ∀ a b, EdgeAt graph true a b → ¬ Relation.ReflTransGen (EdgeAt graph false) b a

section Decides

variable {tarjanScc} {graph : Graph}

theorem step_pairs : Components.Step (pairs graph) = EdgeAt graph false := by
  funext a b
  simp only [Components.Step, pairs, List.mem_map, Prod.mk.injEq, EdgeAt, Bool.false_eq_true,
    false_implies, and_true]

theorem mem_componentEdges {nodes : List Node} {e : GraphEdge} :
    e ∈ componentEdges graph nodes ↔ e ∈ graph ∧ e.source ∈ nodes ∧ e.target ∈ nodes := by
  simp only [componentEdges, List.mem_flatMap, List.mem_filter, decide_eq_true_eq]
  constructor
  · rintro ⟨n, hn, he, rfl, ht⟩
    exact ⟨he, hn, ht⟩
  · rintro ⟨he, hs, ht⟩
    exact ⟨e.source, hs, he, rfl, ht⟩

/-- No component holds a `TyConApp` edge exactly when no such edge lies on a cycle. -/
theorem findNonTrivialComponents_eq_nil_iff (hscc : Components.SccSpec tarjanScc) :
    findNonTrivialComponents tarjanScc graph = [] ↔ NoTyConAppCycle graph := by
  simp only [findNonTrivialComponents, List.filterMap_eq_nil_iff, ite_eq_right_iff, reduceCtorEq,
    imp_false, List.any_eq_true, mem_componentEdges, not_exists, not_and]
  constructor
  · rintro h a b ⟨e, he, rfl, rfl, hty⟩ hcyc
    have hpair : (e.source, e.target) ∈ pairs graph := List.mem_map_of_mem he
    rw [← step_pairs] at hcyc
    obtain ⟨c, hc, hs, ht⟩ := (hscc.exists_component_of_edge_iff hpair).mpr hcyc
    exact h c hc e ⟨he, hs, ht⟩ (hty rfl)
  · intro h c hc e ⟨he, hs, ht⟩ hty
    have hpair : (e.source, e.target) ∈ pairs graph := List.mem_map_of_mem he
    have hcyc := (hscc.exists_component_of_edge_iff hpair).mp ⟨c, hc, hs, ht⟩
    rw [step_pairs] at hcyc
    exact h e.source e.target ⟨e, he, rfl, rfl, fun _ => hty⟩ hcyc

/-- **What the checker decides.** `verify_module_impl` passes exactly when no
`TyConApp` edge of the graph it builds lies on a cycle. -/
theorem verifyModuleImpl_eq_ok_iff (hscc : Components.SccSpec tarjanScc) (m : CompiledModule) :
    verifyModuleImpl tarjanScc m = .ok () ↔ NoTyConAppCycle (buildGraph m) := by
  rw [← findNonTrivialComponents_eq_nil_iff hscc, ← List.getLast?_eq_none_iff]
  unfold verifyModuleImpl
  split <;> simp_all

/-- Whether the checker passes a module does not depend on the search, as long as it
meets the contract; only the component reported may. -/
theorem verifyModuleImpl_eq_ok_congr {tarjanScc' : List (Node × Node) → List (List Node)}
    (hscc : Components.SccSpec tarjanScc) (hscc' : Components.SccSpec tarjanScc')
    (m : CompiledModule) :
    verifyModuleImpl tarjanScc m = .ok () ↔ verifyModuleImpl tarjanScc' m = .ok () := by
  rw [verifyModuleImpl_eq_ok_iff hscc, verifyModuleImpl_eq_ok_iff hscc']

end Decides

/-! ## The edges the checker builds -/

section Edges

variable {m : CompiledModule} {tc : Bool} {a b : Node}

theorem mem_extractTypeParameters {ty : SignatureToken} {i : ℕ} :
    i ∈ extractTypeParameters ty ↔ typeParameter i ∈ ty.preorderTraversal := by
  simp only [extractTypeParameters, List.mem_dedup, List.mem_filterMap]
  constructor
  · rintro ⟨t, ht, h⟩
    cases t with
    | typeParameter idx =>
      cases h
      exact ht
    | _ => cases h
  · intro h
    exact ⟨_, h, rfl⟩

theorem edgeAt_flatMap {γ : Type} (l : List γ) (F : γ → Graph) :
    EdgeAt (l.flatMap F) tc a b ↔ ∃ x ∈ l, EdgeAt (F x) tc a b := by
  simp only [EdgeAt, List.mem_flatMap]
  constructor
  · rintro ⟨e, ⟨x, hx, he⟩, h⟩
    exact ⟨x, hx, e, he, h⟩
  · rintro ⟨x, hx, e, he, h⟩
    exact ⟨e, ⟨x, hx, he⟩, h⟩

/-- The edges of one type argument: from each type parameter it holds, a `TyConApp`
edge unless the argument is that parameter. -/
theorem edgeAt_argumentEdges {f g j : ℕ} {ty : SignatureToken} :
    EdgeAt (argumentEdges f g ty j) tc a b ↔ a.defIdx = f ∧ b = ⟨g, j⟩ ∧
      typeParameter a.paramIdx ∈ ty.preorderTraversal ∧
      (tc = true → ty ≠ typeParameter a.paramIdx) := by
  unfold argumentEdges
  split
  · -- the argument is a type parameter itself: one `Identity` edge
    rename_i k
    obtain ⟨fa, pa⟩ := a
    simp only [EdgeAt, List.mem_singleton, exists_eq_left, Edge.isTyConApp, preorderTraversal,
      Node.mk.injEq, typeParameter.injEq, ne_eq]
    constructor
    · rintro ⟨⟨rfl, rfl⟩, rfl, h⟩
      exact ⟨rfl, rfl, rfl, fun htc => absurd (h htc) Bool.false_ne_true⟩
    · rintro ⟨rfl, rfl, rfl, h⟩
      exact ⟨⟨rfl, rfl⟩, rfl, fun htc => absurd rfl (h htc)⟩
  · -- a type built around its parameters: a `TyConApp` edge from each
    rename_i hty
    simp only [EdgeAt, List.mem_map]
    constructor
    · rintro ⟨_, ⟨i, hi, rfl⟩, rfl, rfl, -⟩
      exact ⟨rfl, rfl, Iff.mp mem_extractTypeParameters hi, fun _ => hty i⟩
    · rintro ⟨hf, rfl, hmem, -⟩
      exact ⟨_, ⟨a.paramIdx, Iff.mpr mem_extractTypeParameters hmem, rfl⟩, by rw [← hf], rfl,
        fun _ => rfl⟩

theorem edgeAt_buildGraphCall {f g s : ℕ} :
    EdgeAt (buildGraphCall m f g s) tc a b ↔ a.defIdx = f ∧ b.defIdx = g ∧
      ∃ ty, (m.signatures[s]!)[b.paramIdx]? = some ty ∧
        typeParameter a.paramIdx ∈ ty.preorderTraversal ∧
        (tc = true → ty ≠ typeParameter a.paramIdx) := by
  simp only [buildGraphCall, edgeAt_flatMap, edgeAt_argumentEdges]
  constructor
  · rintro ⟨⟨ty, j⟩, hmem, hf, rfl, hp, hne⟩
    exact ⟨hf, rfl, ty, List.mem_zipIdx_iff_getElem?.mp hmem, hp, hne⟩
  · rintro ⟨hf, hg, ty, hty, hp, hne⟩
    exact ⟨⟨ty, b.paramIdx⟩, List.mem_zipIdx_iff_getElem?.mpr hty, hf, by rw [← hg], hp, hne⟩

theorem edgeAt_instructionEdges {f : ℕ} {instr : Bytecode} :
    EdgeAt (instructionEdges m f instr) tc a b ↔ ∃ fi, instr = .callGeneric fi ∧
      ∃ g, SortedMap.get? (m.functionInstantiations[fi]!).handle (funcHandleDefMap m) = some g ∧
        EdgeAt (buildGraphCall m f g (m.functionInstantiations[fi]!).typeParameters) tc a b := by
  unfold instructionEdges
  split
  · rename_i fi
    dsimp only
    split
    · rename_i g hg
      constructor
      · intro h
        exact ⟨fi, rfl, g, hg, h⟩
      · rintro ⟨fi', hfi, g', hg', h⟩
        cases hfi
        rw [hg] at hg'
        cases hg'
        exact h
    · -- the callee is another module's
      rename_i hg
      constructor
      · rintro ⟨_, h, -⟩
        cases h
      · rintro ⟨fi', hfi, g', hg', -⟩
        cases hfi
        rw [hg] at hg'
        cases hg'
  · rename_i hinstr
    constructor
    · rintro ⟨_, h, -⟩
      cases h
    · rintro ⟨fi, h, -⟩
      exact absurd h (hinstr fi)

theorem edgeAt_buildGraphFunctionDef {f : ℕ} {fd : FunctionDefinition} :
    EdgeAt (buildGraphFunctionDef m f fd) tc a b ↔
      ∃ code, fd.code = some code ∧ ∃ instr ∈ code.code, EdgeAt (instructionEdges m f instr) tc a b := by
  unfold buildGraphFunctionDef
  split
  · rename_i hcode
    simp [hcode, EdgeAt]
  · rename_i code hcode
    simp [hcode, edgeAt_flatMap]

end Edges

/-! ## The instantiation graph at the definitions' own indices -/

/-- Definition `f`'s body calls definition `g` generically, with `ty` as its `j`-th type
argument. -/
def CallArgument (m : CompiledModule) (f g j : ℕ) (ty : SignatureToken) : Prop :=
  ∃ fd code fi inst gd tys, m.functionDefs[f]? = some fd ∧ fd.code = some code ∧
    Bytecode.callGeneric fi ∈ code.code ∧ m.functionInstantiations[fi]? = some inst ∧
    m.functionDefs[g]? = some gd ∧ gd.function = inst.handle ∧
    m.signatures[inst.typeParameters]? = some tys ∧ tys[j]? = some ty

/-- An edge of the instantiation graph, at the definitions' own indices: type parameter
`a` of the caller stands in the callee's type argument `b`, as the argument itself (an
`Identity` edge) or inside it (a `TyConApp` edge). With `tyCon`, a `TyConApp` edge. -/
def CallEdge (m : CompiledModule) (tyCon : Bool) (a b : Node) : Prop :=
  ∃ ty, CallArgument m a.defIdx b.defIdx b.paramIdx ty ∧
    typeParameter a.paramIdx ∈ ty.preorderTraversal ∧
    (tyCon = true → ty ≠ typeParameter a.paramIdx)

/-- No cycle of the instantiation graph holds a `TyConApp` edge. -/
def NoGrowingLoop (m : CompiledModule) : Prop :=
  ∀ a b, CallEdge m true a b → ¬ Relation.ReflTransGen (CallEdge m false) b a

/-- What the duplication checker ensures of the function definitions: no two share a
handle. -/
def DistinctFunctionHandles (m : CompiledModule) : Prop :=
  (m.functionDefs.map (·.function)).Nodup

/-- No native definition comes before a definition with a body. -/
def NativesLast (m : CompiledModule) : Prop :=
  ∀ (i j : ℕ) (fi fj : FunctionDefinition), i < j → m.functionDefs[i]? = some fi →
    m.functionDefs[j]? = some fj → fi.isNative = true → fj.isNative = true

section Indices

variable {m : CompiledModule} {tc : Bool} {a b : Node}

/-- Where no entry that passes `p` follows one that fails it, filtering keeps the
places of the entries that pass. -/
theorem getElem?_filter_of_prefix {γ : Type} {p : γ → Bool} : ∀ {l : List γ},
    (∀ (i j : ℕ) (x y : γ), i < j → l[i]? = some x → l[j]? = some y → p x = false →
      p y = false) →
    ∀ {i : ℕ} {x : γ}, (l.filter p)[i]? = some x ↔ l[i]? = some x ∧ p x = true
  | [], _, i, x => by simp
  | y :: l, h, i, x => by
    have htail : ∀ (i j : ℕ) (x y : γ), i < j → l[i]? = some x → l[j]? = some y →
        p x = false → p y = false :=
      fun i j x y hij hx hy => h (i + 1) (j + 1) x y (by omega) hx hy
    by_cases hy : p y = true
    · rw [List.filter_cons_of_pos hy]
      cases i with
      | zero =>
        simp only [List.getElem?_cons_zero, Option.some.injEq, iff_self_and]
        intro hyx
        rw [← hyx]
        exact hy
      | succ i => simpa using getElem?_filter_of_prefix htail
    · -- every later entry fails `p` as well, so nothing after `y` is kept
      have hfalse : p y = false := by simpa using hy
      have hrest : ∀ z ∈ l, p z = false := by
        intro z hz
        obtain ⟨k, hk, rfl⟩ := List.getElem_of_mem hz
        exact h 0 (k + 1) y l[k] (by omega) rfl (by simp [hk]) hfalse
      have hnil : l.filter p = [] := List.filter_eq_nil_iff.mpr fun z hz => by simp [hrest z hz]
      rw [List.filter_cons_of_neg hy, hnil]
      simp only [List.getElem?_nil, reduceCtorEq, false_iff, not_and, Bool.not_eq_true]
      intro hx
      cases i with
      | zero =>
        simp only [List.getElem?_cons_zero, Option.some.injEq] at hx
        rw [← hx]
        exact hfalse
      | succ i => exact hrest x (List.mem_of_getElem? hx)

/-- With natives last, `build_graph`'s numbering of the definitions with a body is their
place among all definitions. -/
theorem mem_zipIdx_filter_isNative (hn : NativesLast m) {fd : FunctionDefinition} {i : ℕ} :
    (fd, i) ∈ (m.functionDefs.filter fun d => !d.isNative).zipIdx ↔
      m.functionDefs[i]? = some fd ∧ fd.isNative = false := by
  rw [List.mem_zipIdx_iff_getElem?, getElem?_filter_of_prefix]
  · simp
  · intro i j x y hij hx hy hpx
    simpa using hn i j x y hij hx hy (by simpa using hpx)

theorem get?_funcHandleDefMap (hd : DistinctFunctionHandles m) (h g : ℕ) :
    SortedMap.get? h (funcHandleDefMap m) = some g ↔
      ∃ gd, m.functionDefs[g]? = some gd ∧ gd.function = h :=
  SortedMap.get?_foldl_insert_zipIdx FunctionDefinition.function hd h g

/-- In a module in bounds, a generic call in a body names an instantiation. -/
theorem callGeneric_inBounds (hb : ModuleInBounds m) {fd : FunctionDefinition} {code : CodeUnit}
    {fi : ℕ} (hfd : fd ∈ m.functionDefs) (hcode : fd.code = some code)
    (hi : Bytecode.callGeneric fi ∈ code.code) : ∃ inst, m.functionInstantiations[fi]? = some inst := by
  obtain ⟨fh, -, -, hbody⟩ := hb.functionDefs fd hfd
  obtain ⟨parameters, -, -, locals, -, -, hinstrs⟩ := hbody code hcode
  obtain ⟨inst, hinst, -⟩ := hinstrs _ hi
  exact ⟨inst, hinst⟩

/-- In a module in bounds, an instantiation's type arguments are a signature. -/
theorem typeArguments_inBounds (hb : ModuleInBounds m) {fi : ℕ} {inst : FunctionInstantiation}
    (hinst : m.functionInstantiations[fi]? = some inst) :
    ∃ tys, m.signatures[inst.typeParameters]? = some tys := by
  obtain ⟨-, hlt⟩ := hb.functionInstantiations inst (List.mem_of_getElem? hinst)
  have hlt : inst.typeParameters < m.signatures.length := hlt
  exact ⟨_, List.getElem?_eq_getElem hlt⟩

/-- **The checker's graph is the instantiation graph** of a module in bounds whose
function definitions have distinct handles and whose natives come last. -/
theorem edgeAt_buildGraph_iff (hb : ModuleInBounds m) (hd : DistinctFunctionHandles m)
    (hn : NativesLast m) : EdgeAt (buildGraph m) tc a b ↔ CallEdge m tc a b := by
  simp only [buildGraph, edgeAt_flatMap, Prod.exists, mem_zipIdx_filter_isNative hn,
    edgeAt_buildGraphFunctionDef, edgeAt_instructionEdges, edgeAt_buildGraphCall]
  constructor
  · rintro ⟨fd, f, ⟨hfd, -⟩, code, hcode, _, hi, fi, rfl, g, hg, rfl, rfl, ty, hty, hp, hne⟩
    obtain ⟨inst, hinst⟩ := callGeneric_inBounds hb (List.mem_of_getElem? hfd) hcode hi
    obtain ⟨tys, htys⟩ := typeArguments_inBounds hb hinst
    simp only [List.getElem!_eq_getElem?_getD, hinst, htys, Option.getD_some] at hg hty
    obtain ⟨gd, hgd, hh⟩ := (get?_funcHandleDefMap hd _ _).mp hg
    exact ⟨ty, ⟨fd, code, fi, inst, gd, tys, hfd, hcode, hi, hinst, hgd, hh, htys, hty⟩, hp, hne⟩
  · rintro ⟨ty, ⟨fd, code, fi, inst, gd, tys, hfd, hcode, hi, hinst, hgd, hh, htys, hty⟩, hp, hne⟩
    have hnat : fd.isNative = false := by simp [FunctionDefinition.isNative, hcode]
    have hinst' : m.functionInstantiations[fi]! = inst := by
      simp [List.getElem!_eq_getElem?_getD, hinst]
    have htys' : m.signatures[inst.typeParameters]! = tys := by
      simp [List.getElem!_eq_getElem?_getD, htys]
    refine ⟨fd, a.defIdx, ⟨hfd, hnat⟩, code, hcode, _, hi, fi, rfl, b.defIdx, ?_, rfl, rfl, ty, ?_,
      hp, hne⟩
    · rw [hinst']
      exact (get?_funcHandleDefMap hd _ _).mpr ⟨gd, hgd, hh⟩
    · rw [hinst', htys']
      exact hty

end Indices

/-- **What the checker decides, at the module's own indices.** On a module in bounds
whose function definitions have distinct handles and whose natives come last,
`verify_module_impl` passes exactly when no cycle of the instantiation graph holds a
`TyConApp` edge. -/
theorem verifyModuleImpl_eq_ok_iff_noGrowingLoop
    {tarjanScc : List (Node × Node) → List (List Node)} (hscc : Components.SccSpec tarjanScc)
    {m : CompiledModule} (hb : ModuleInBounds m) (hd : DistinctFunctionHandles m)
    (hn : NativesLast m) :
    verifyModuleImpl tarjanScc m = .ok () ↔ NoGrowingLoop m := by
  have hedges : EdgeAt (buildGraph m) = CallEdge m := by
    funext tc a b
    exact propext (edgeAt_buildGraph_iff hb hd hn)
  rw [verifyModuleImpl_eq_ok_iff hscc]
  simp only [NoTyConAppCycle, NoGrowingLoop, hedges]

end InstantiationLoopChecker

/-! ## A native definition first -/

open InstantiationLoopChecker

/-- A module with the function definitions `functionDefs`, over the handles `n` and
`f<T>` and the signatures `()` and `<vector<T>>`. -/
def genericModule (functionDefs : List FunctionDefinition) : CompiledModule :=
  { version := 3, selfModuleHandleIdx := 0, moduleHandles := [⟨0, 0⟩], structHandles := [],
    functionHandles := [⟨0, 1, 0, 0, []⟩, ⟨0, 2, 0, 0, [AbilitySet.EMPTY]⟩], fieldHandles := [],
    friendDecls := [], structDefInstantiations := [], functionInstantiations := [⟨1, 1⟩],
    fieldInstantiations := [], signatures := [[], [.vector (.typeParameter 0)]],
    identifiers := ["M", "n", "f"], addressIdentifiers := [⟨Vector.replicate 16 0⟩],
    constantPool := [], structDefs := [], functionDefs }

/-- `fun f<T>() { f<vector<T>>(); }`. -/
def growingDef : FunctionDefinition :=
  ⟨1, .public, [], some ⟨0, [.callGeneric 0, .ret]⟩⟩

-- alone, `f` is reported with its loop
example : verifyModuleImpl Components.closureScc (genericModule [growingDef]) =
    .error ((new .loopInInstantiationGraph).withMessage
      "edges with constructors: [f0#0 --Vector(TypeParameter(0))--> f0#0], nodes: [f0#0]") := by
  decide

/-- Alone, `f` has a growing loop, which the checker's error shows. -/
theorem growingDef_growing_loop : ¬ NoGrowingLoop (genericModule [growingDef]) := by
  intro h
  have hnatives : NativesLast (genericModule [growingDef]) := by
    intro i j fi fj hij hi hj
    rcases j with _ | j
    · omega
    · simp [genericModule] at hj
  have hok := (verifyModuleImpl_eq_ok_iff_noGrowingLoop Components.closureScc_spec
    ((BoundsChecker.verifyModule_eq_ok_iff _).mp (by decide))
    (by unfold DistinctFunctionHandles; decide) hnatives).mpr h
  exact absurd hok (by decide)

/-- `native fun n();` then `fun f<T>() { f<vector<T>>(); }`. -/
def nativeFirstModule : CompiledModule :=
  genericModule [⟨0, .public, [], none⟩, growingDef]

/-- The checker passes a module in bounds whose generic function calls itself at an ever
bigger type. `f` is definition 1, but `build_graph` numbers it 0 as a caller, among the
definitions with a body, and 1 as a callee: the self-call becomes the edge
`f0#0 --Vector(TypeParameter(0))--> f1#0`, on no cycle. -/
theorem native_first_loop_accepted {tarjanScc : List (Node × Node) → List (List Node)}
    (hscc : Components.SccSpec tarjanScc) :
    BoundsChecker.verifyModule nativeFirstModule = .ok () ∧
      verifyModuleImpl tarjanScc nativeFirstModule = .ok () ∧ ¬ NoGrowingLoop nativeFirstModule := by
  -- the search by closure passes the module, and so does every search of the contract
  have hok : verifyModuleImpl tarjanScc nativeFirstModule = .ok () :=
    (verifyModuleImpl_eq_ok_congr Components.closureScc_spec hscc _).mp (by decide)
  refine ⟨by decide, hok, fun h => h ⟨1, 0⟩ ⟨1, 0⟩ ?_ Relation.ReflTransGen.refl⟩
  -- the self-call of definition 1 is a `TyConApp` edge from its parameter to itself
  refine ⟨.vector (.typeParameter 0), ?_, by decide, by decide⟩
  exact ⟨_, _, 0, _, _, _, rfl, rfl, by decide, rfl, rfl, rfl, rfl, rfl⟩

theorem native_first_loop_accepted_closureScc :
    BoundsChecker.verifyModule nativeFirstModule = .ok () ∧
      verifyModuleImpl Components.closureScc nativeFirstModule = .ok () ∧
      ¬ NoGrowingLoop nativeFirstModule :=
  native_first_loop_accepted Components.closureScc_spec

end Dijets.Move
