import Dijets.Vm.MVHashMap
import Dijets.Lib.Outcome

/-!
# The multi-version hash map: writes, skips and reads

Once built, an `MVHashMap` is shared by the threads that execute a block. Each possible
write `(key, version)` is assigned once, by `write` (a value) or by `skip` (the
transaction did not write the key after all), through the cell's `OnceCell`; a second
assignment panics. `read(key, version)` scans the cells of the key below `version` from the
greatest down, passes over skipped ones, and returns the value of the first written one,
or the version of the first unassigned one (the read must wait for it), or `Err(None)` when
every cell below is skipped or there is none.

The threads' operations are atomic on a cell, so an execution is a sequence of them
(`runOps`), and a read may happen between any two. `Holds writes σ m` says that `m` has, for
each possible write, the cell `σ` gives it: the map that `new_from` builds holds the
assignment of no cell (`holds_newFrom`), each write or skip of a cell not yet assigned keeps
that with the cell assigned (`Holds.apply`), and so every run does (`holds_runOps`). A read
of a map that holds `σ` is decided by `σ` alone (`read_spec`): it depends on the greatest
possible write of the key below the version that `σ` does not skip (`LatestLive`).

`read_agrees_with_assignments` states this for every run; with the proptest's `Baseline`
(`Baseline.new`, `Baseline.get`) it says that once every possible write below a version is
assigned, a read there returns what the last insert or remove before it in the block left.
-/

set_option autoImplicit false

namespace Dijets.Vm

open Dijets.Lib

/-- `mvhashmap::Error`. -/
inductive Error where
  /-- A write of an entry that is not in the list of possible writes. -/
  | unexpectedWrite
  deriving DecidableEq, Repr

namespace MVHashMap

variable {K V : Type} [DecidableEq K]

/-- `MVHashMap::get_entry`: the cell of a possible write. -/
def getEntry (m : MVHashMap K V) (key : K) (version : Version) : Except Error (WriteCell V) :=
  match HashMap.get? key m.data with
  | none => .error .unexpectedWrite
  | some tree =>
    match SortedMap.get? version tree with
    | none => .error .unexpectedWrite
    | some cell => .ok cell

/-- The map with the cell of `key` at `version` set, as `OnceCell::set` sets it through the
shared reference. -/
def setCell (m : MVHashMap K V) (key : K) (version : Version) (cell : WriteCell V) :
    MVHashMap K V :=
  ⟨HashMap.modify key [] (SortedMap.insert version cell) m.data⟩

/-- `MVHashMap::write`. Setting a cell that is already set panics: `WriteCell::write`
expects `set` to succeed (and a test build checks before it). -/
def write (m : MVHashMap K V) (key : K) (version : Version) (data : V) :
    Outcome Error (MVHashMap K V) := do
  let entry ← Outcome.ofExcept (m.getEntry key version)
  if entry.isSome then Outcome.panic else pure (m.setCell key version (some (some data)))

/-- `MVHashMap::skip`. -/
def skip (m : MVHashMap K V) (key : K) (version : Version) : Outcome Error (MVHashMap K V) := do
  let entry ← Outcome.ofExcept (m.getEntry key version)
  if entry.isSome then Outcome.panic else pure (m.setCell key version (some none))

/-- `MVHashMap::skip_if_not_set`. -/
def skipIfNotSet (m : MVHashMap K V) (key : K) (version : Version) :
    Except Error (MVHashMap K V) := do
  let entry ← m.getEntry key version
  pure (if !entry.isSome then m.setCell key version (some none) else m)

/-- The loop of `read`, over the cells of the versions below `version`, greatest first. -/
def readScan (version : Version) : List (Version × WriteCell V) → Except (Option Version) V
  | [] => .error none
  | (entryKey, entryVal) :: rest =>
    if entryKey < version then
      match entryVal with
      -- not yet computed: the version that blocks the read
      | none => .error (some entryKey)
      -- skipped: go to the previous version
      | some none => readScan version rest
      | some (some v) => .ok v
    else readScan version rest

/-- `MVHashMap::read`: `tree.range(0..version)` iterated by `next_back`. -/
def read (m : MVHashMap K V) (key : K) (version : Version) : Except (Option Version) V :=
  match HashMap.get? key m.data with
  | none => .error none
  | some tree => readScan version (tree.filter (·.1 < version)).reverse

/-! ## Runs of writes and skips -/

/-- A write or a skip of a possible write, as a thread of the executor performs it. -/
inductive Op (K V : Type) where
  | write (key : K) (version : Version) (data : V)
  | skip (key : K) (version : Version)

/-- The possible write an operation assigns. -/
def Op.entry : Op K V → K × Version
  | .write key version _ => (key, version)
  | .skip key version => (key, version)

/-- The cell an operation leaves. -/
def Op.cell : Op K V → WriteCell V
  | .write _ _ data => some (some data)
  | .skip _ _ => some none

/-- One operation on the map. -/
def apply (m : MVHashMap K V) : Op K V → Outcome Error (MVHashMap K V)
  | .write key version data => m.write key version data
  | .skip key version => m.skip key version

/-- The operations in the order they happen; an error or a panic ends the run. -/
def runOps (m : MVHashMap K V) : List (Op K V) → Outcome Error (MVHashMap K V)
  | [] => .ok m
  | o :: ops => (m.apply o) >>= fun m => runOps m ops

/-- The cell a run leaves to a possible write: that of the operation on it, if any. -/
def assignment (ops : List (Op K V)) (e : K × Version) : WriteCell V :=
  ((ops.find? fun o => o.entry = e).map Op.cell).getD WriteCell.new

/-! ## The cells a map holds -/

/-- `m` has a tree for each key of the possible writes, with a cell for each of its versions,
the one `σ` gives; no other key has a tree. -/
structure Holds (writes : List (K × Version)) (σ : K × Version → WriteCell V) (m : MVHashMap K V) :
    Prop where
  nodup : HashMap.KeysNodup m.data
  tree : ∀ k ∈ writes.map Prod.fst, ∃ t, HashMap.get? k m.data = some t ∧ SortedMap.Sorted t ∧
    ∀ u c, (u, c) ∈ t ↔ (k, u) ∈ writes ∧ c = σ (k, u)
  absent : ∀ k ∉ writes.map Prod.fst, HashMap.get? k m.data = none

variable {writes : List (K × Version)} {σ : K × Version → WriteCell V} {m : MVHashMap K V}

omit [DecidableEq K] in
theorem mem_keys_of_mem {k : K} {u : Version} (h : (k, u) ∈ writes) : k ∈ writes.map Prod.fst :=
  List.mem_map.mpr ⟨(k, u), h, rfl⟩

/-- **The built map holds no assignment.** -/
theorem holds_newFrom (writes : List (K × Version)) :
    Holds writes (fun _ => WriteCell.new) (newFrom (V := V) writes).1 := by
  obtain ⟨hmap, -⟩ := built_newFrom (V := V) writes
  refine ⟨hmap.nodup, fun k hk => ⟨_, hmap.get?_of_mem k hk, sorted_treeOf writes k,
    fun u c => mem_treeOf⟩, hmap.get?_of_not_mem⟩

/-- The cell of a possible write is the one `σ` gives it; any other entry is an unexpected
write. -/
theorem Holds.getEntry (h : Holds writes σ m) (key : K) (version : Version) :
    m.getEntry key version =
      if (key, version) ∈ writes then .ok (σ (key, version)) else .error .unexpectedWrite := by
  by_cases hk : key ∈ writes.map Prod.fst
  · obtain ⟨t, ht, hsorted, hmem⟩ := h.tree key hk
    simp only [MVHashMap.getEntry, ht]
    split_ifs with hw
    · rw [(SortedMap.get?_eq_some_iff hsorted).mpr ((hmem _ _).mpr ⟨hw, rfl⟩)]
    · have hnone : SortedMap.get? version t = none :=
        SortedMap.get?_eq_none_iff.mpr fun e he hev => hw (hev ▸ ((hmem e.1 e.2).mp he).1)
      rw [hnone]
  · have hw : (key, version) ∉ writes := fun hw => hk (mem_keys_of_mem hw)
    rw [MVHashMap.getEntry, h.absent key hk, if_neg hw]

/-- **Setting a cell.** Setting the cell of a possible write leaves a map that holds `σ` with
that cell changed. -/
theorem Holds.setCell (h : Holds writes σ m) {key : K} {version : Version}
    (hw : (key, version) ∈ writes) (cell : WriteCell V) :
    Holds writes (Function.update σ (key, version) cell) (m.setCell key version cell) := by
  have hkey := mem_keys_of_mem hw
  obtain ⟨t, ht, hsorted, hmem⟩ := h.tree key hkey
  refine ⟨h.nodup.modify, fun k hk => ?_, fun k hk => ?_⟩
  · by_cases hkk : k = key
    · subst hkk
      refine ⟨SortedMap.insert version cell t, ?_, SortedMap.sorted_insert hsorted, fun u c => ?_⟩
      · rw [MVHashMap.setCell, HashMap.get?_modify, if_pos rfl, ht]
        rfl
      -- the new cell, or an old one of another version
      rw [SortedMap.mem_insert hsorted, hmem]
      by_cases hu : u = version
      · subst hu
        simp [hw]
      · simp [hu]
    · obtain ⟨t', ht', hsorted', hmem'⟩ := h.tree k hk
      refine ⟨t', ?_, hsorted', fun u c => ?_⟩
      · rw [MVHashMap.setCell, HashMap.get?_modify, if_neg hkk]
        exact ht'
      · have hne : (k, u) ≠ (key, version) := fun he => hkk (Prod.mk.inj he).1
        rw [hmem', Function.update_of_ne hne]
  · have hkk : k ≠ key := fun he => hk (he ▸ hkey)
    rw [MVHashMap.setCell, HashMap.get?_modify, if_neg hkk]
    exact h.absent k hk

/-- **One operation.** A write or skip of a possible write that is not yet assigned
succeeds, and the map then holds the assignment with its cell. -/
theorem Holds.apply (h : Holds writes σ m) (o : Op K V) (hw : o.entry ∈ writes)
    (hfresh : σ o.entry = WriteCell.new) :
    m.apply o = .ok (m.setCell o.entry.1 o.entry.2 o.cell) ∧
      Holds writes (Function.update σ o.entry o.cell) (m.setCell o.entry.1 o.entry.2 o.cell) := by
  refine ⟨?_, h.setCell hw o.cell⟩
  -- the cell is there and unassigned, so it is set
  cases o with
  | write key version data =>
    simp only [Op.entry] at hw hfresh
    rw [MVHashMap.apply, MVHashMap.write, h.getEntry, if_pos hw, hfresh]
    rfl
  | skip key version =>
    simp only [Op.entry] at hw hfresh
    rw [MVHashMap.apply, MVHashMap.skip, h.getEntry, if_pos hw, hfresh]
    rfl

/-- **Every run of fresh assignments succeeds**: operations on distinct possible writes that
are not yet assigned, in any order, leave a map that holds what they assign. -/
theorem holds_runOps (ops : List (Op K V)) (hw : ∀ o ∈ ops, o.entry ∈ writes)
    (hnodup : (ops.map Op.entry).Nodup) :
    ∀ {σ : K × Version → WriteCell V} {m : MVHashMap K V}, Holds writes σ m →
      (∀ o ∈ ops, σ o.entry = WriteCell.new) →
      ∃ m', m.runOps ops = .ok m' ∧
        Holds writes (fun e => ((ops.find? fun o => o.entry = e).map Op.cell).getD (σ e)) m' := by
  induction ops with
  | nil =>
    intro σ m h _
    exact ⟨m, rfl, by simpa using h⟩
  | cons o ops ih =>
    intro σ m h hfresh
    rw [List.map_cons, List.nodup_cons] at hnodup
    obtain ⟨happ, h₁⟩ := h.apply o (hw o List.mem_cons_self) (hfresh o List.mem_cons_self)
    -- the rest of the run assigns other entries, still fresh after the first
    have hfresh₁ : ∀ o' ∈ ops, Function.update σ o.entry o.cell o'.entry = WriteCell.new := by
      intro o' ho'
      have hne : o'.entry ≠ o.entry := fun he => hnodup.1 (he ▸ List.mem_map_of_mem ho')
      rw [Function.update_of_ne hne]
      exact hfresh o' (List.mem_cons_of_mem o ho')
    obtain ⟨m', hrun, h'⟩ := ih (fun o' ho' => hw o' (List.mem_cons_of_mem o ho')) hnodup.2 h₁
      hfresh₁
    refine ⟨m', by rw [runOps, happ]; exact hrun, ?_⟩
    convert h' using 2 with e
    -- an entry assigned by the first operation is not assigned again
    by_cases he : o.entry = e
    · subst he
      have hnone : (ops.find? fun o' => decide (o'.entry = o.entry)) = none := by
        rw [List.find?_eq_none]
        intro o' ho'
        have hne : o'.entry ≠ o.entry := fun he => hnodup.1 (he ▸ List.mem_map_of_mem ho')
        simpa using hne
      simp [hnone]
    · simp [he, Function.update_of_ne (Ne.symm he)]

/-! ## Reads -/

/-- The possible write of `key` a read at `version` depends on: the greatest below `version`
that `σ` has not skipped. -/
def LatestLive (writes : List (K × Version)) (σ : K × Version → WriteCell V) (key : K)
    (version u : Version) : Prop :=
  (key, u) ∈ writes ∧ u < version ∧ σ (key, u) ≠ some none ∧
    ∀ u', (key, u') ∈ writes → u < u' → u' < version → σ (key, u') = some none

/-- What a read returns for the cell it stops at, or for none. -/
def scanResult : Option (Version × WriteCell V) → Except (Option Version) V
  | some (u, none) => .error (some u)
  | some (_, some (some v)) => .ok v
  | _ => .error none

/-- A skipped cell. -/
def WriteCell.isSkipped : WriteCell V → Bool
  | some none => true
  | _ => false

omit [DecidableEq K] in
theorem WriteCell.isSkipped_iff {c : WriteCell V} : WriteCell.isSkipped c = true ↔ c = some none := by
  rcases c with _ | _ | v <;> simp [WriteCell.isSkipped]

omit [DecidableEq K] in
theorem WriteCell.isSkipped_eq_false {c : WriteCell V} :
    WriteCell.isSkipped c = false ↔ c ≠ some none := by
  rw [ne_eq, ← WriteCell.isSkipped_iff, Bool.not_eq_true]

/-- The cells a read stops at: below the version and not skipped. -/
def stopsAt (version : Version) (e : Version × WriteCell V) : Bool :=
  decide (e.1 < version) && !WriteCell.isSkipped e.2

omit [DecidableEq K] in
/-- The loop of `read` returns for the first cell it stops at. -/
theorem readScan_eq (version : Version) (l : List (Version × WriteCell V)) :
    readScan version l = scanResult (l.find? (stopsAt version)) := by
  induction l with
  | nil => rfl
  | cons e l ih =>
    obtain ⟨u, c⟩ := e
    rw [List.find?_cons]
    by_cases hu : u < version
    · rcases c with _ | _ | v
      · simp [readScan, hu, stopsAt, WriteCell.isSkipped, scanResult]
      · simp [readScan, hu, stopsAt, WriteCell.isSkipped, ih]
      · simp [readScan, hu, stopsAt, WriteCell.isSkipped, scanResult]
    · simp [readScan, hu, stopsAt, ih]

omit [DecidableEq K] in
/-- A read scans the whole tree from the top: the cells at or above the version are
filtered out, and it would not stop at them. -/
theorem read_tree (version : Version) (t : List (Version × WriteCell V)) :
    readScan version (t.filter (·.1 < version)).reverse =
      scanResult (t.reverse.find? (stopsAt version)) := by
  rw [readScan_eq, ← List.filter_reverse, List.find?_filter]
  congr 2
  funext e
  by_cases he : e.1 < version <;> simp [stopsAt, he]

omit [DecidableEq K] in
theorem scanResult_eq_ok {o : Option (Version × WriteCell V)} {v : V} :
    scanResult o = .ok v ↔ ∃ u, o = some (u, some (some v)) := by
  rcases o with _ | ⟨u, _ | _ | v'⟩ <;> simp [scanResult]

omit [DecidableEq K] in
theorem scanResult_eq_error_some {o : Option (Version × WriteCell V)} {u : Version} :
    scanResult o = .error (some u) ↔ o = some (u, none) := by
  rcases o with _ | ⟨u', _ | _ | v'⟩ <;> simp [scanResult, eq_comm]

omit [DecidableEq K] in
theorem scanResult_eq_error_none {o : Option (Version × WriteCell V)}
    (ho : ∀ e, o = some e → e.2 ≠ some none) : scanResult o = .error none ↔ o = none := by
  rcases o with _ | ⟨u', _ | _ | v'⟩ <;> simp_all [scanResult]

section Tree

variable {key : K} {version : Version} {t : List (Version × WriteCell V)}

omit [DecidableEq K] in
/-- The cell a read of a key's tree stops at is that of the possible write it depends on. -/
theorem find?_stopsAt_eq_some (hsorted : SortedMap.Sorted t)
    (hmem : ∀ u c, (u, c) ∈ t ↔ (key, u) ∈ writes ∧ c = σ (key, u)) {u : Version}
    {c : WriteCell V} :
    t.reverse.find? (stopsAt version) = some (u, c) ↔
      LatestLive writes σ key version u ∧ c = σ (key, u) := by
  rw [SortedMap.find?_reverse_eq_some_iff hsorted, hmem]
  simp only [stopsAt, Bool.and_eq_true, decide_eq_true_eq, Bool.and_eq_false_iff,
    decide_eq_false_iff_not, Bool.not_eq_true', Bool.not_eq_false', WriteCell.isSkipped_iff,
    WriteCell.isSkipped_eq_false, Prod.forall]
  constructor
  · rintro ⟨⟨hw, rfl⟩, ⟨hlt, hlive⟩, habove⟩
    refine ⟨⟨hw, hlt, hlive, fun u' hw' hu hu' => ?_⟩, rfl⟩
    rcases habove u' (σ (key, u')) ((hmem _ _).mpr ⟨hw', rfl⟩) hu with h | h
    · exact absurd hu' h
    · exact h
  · rintro ⟨⟨hw, hlt, hlive, habove⟩, rfl⟩
    refine ⟨⟨hw, rfl⟩, ⟨hlt, hlive⟩, fun u' c' he' hu => ?_⟩
    obtain ⟨hw', rfl⟩ := (hmem _ _).mp he'
    by_cases hu' : u' < version
    · exact .inr (habove u' hw' hu hu')
    · exact .inl hu'

omit [DecidableEq K] in
/-- A read of a key's tree stops at no cell when every possible write below is skipped. -/
theorem find?_stopsAt_eq_none (hmem : ∀ u c, (u, c) ∈ t ↔ (key, u) ∈ writes ∧ c = σ (key, u)) :
    t.reverse.find? (stopsAt version) = none ↔
      ∀ u, (key, u) ∈ writes → u < version → σ (key, u) = some none := by
  rw [List.find?_eq_none]
  simp only [List.mem_reverse, stopsAt, Bool.and_eq_true, decide_eq_true_eq, not_and,
    Bool.not_eq_true', WriteCell.isSkipped_eq_false, not_not]
  constructor
  · intro hall u hw hlt
    exact hall (u, σ (key, u)) ((hmem _ _).mpr ⟨hw, rfl⟩) hlt
  · rintro hall ⟨u, c⟩ he hlt
    obtain ⟨hw, rfl⟩ := (hmem _ _).mp he
    exact hall u hw hlt

end Tree

/-- **A read is decided by the assignment.** On a map that holds `σ`, `read(key, version)`
returns the value of the greatest possible write below `version` that is not skipped, if
it is written; its version, if it is still unassigned; and `Err(None)` when every possible
write below is skipped or there is none. -/
theorem read_spec (h : Holds writes σ m) (key : K) (version : Version) :
    (∀ v, m.read key version = .ok v ↔
      ∃ u, LatestLive writes σ key version u ∧ σ (key, u) = some (some v)) ∧
    (∀ u, m.read key version = .error (some u) ↔
      LatestLive writes σ key version u ∧ σ (key, u) = WriteCell.new) ∧
    (m.read key version = .error none ↔
      ∀ u, (key, u) ∈ writes → u < version → σ (key, u) = some none) := by
  by_cases hk : key ∈ writes.map Prod.fst
  · obtain ⟨t, ht, hsorted, hmem⟩ := h.tree key hk
    have hread : m.read key version = scanResult (t.reverse.find? (stopsAt version)) := by
      simp only [MVHashMap.read, ht, read_tree]
    rw [hread]
    refine ⟨fun v => ?_, fun u => ?_, ?_⟩
    · rw [scanResult_eq_ok]
      simp only [find?_stopsAt_eq_some hsorted hmem]
      exact exists_congr fun u => and_congr_right fun _ => eq_comm
    · rw [scanResult_eq_error_some, find?_stopsAt_eq_some hsorted hmem]
      exact and_congr_right fun _ => eq_comm
    · -- a read never stops at a skipped cell
      rw [scanResult_eq_error_none fun e he => by
        have hstop := List.find?_some he
        simp only [stopsAt, Bool.and_eq_true, Bool.not_eq_true', WriteCell.isSkipped_eq_false] at hstop
        exact hstop.2]
      exact find?_stopsAt_eq_none hmem
  · -- a key that no transaction may write: nothing to depend on
    have hread : m.read key version = .error none := by
      simp only [MVHashMap.read, h.absent key hk]
    have hnw : ∀ u, (key, u) ∉ writes := fun u hw => hk (mem_keys_of_mem hw)
    simp [hread, LatestLive, hnw]

/-- **Reads during any run.** From the map `new_from` builds, operations on distinct possible
writes in any order all succeed, and after them a read is decided by what they assigned. -/
theorem reads_of_runOps (writes : List (K × Version)) (ops : List (Op K V))
    (hw : ∀ o ∈ ops, o.entry ∈ writes) (hnodup : (ops.map Op.entry).Nodup) :
    ∃ m, (newFrom (V := V) writes).1.runOps ops = .ok m ∧ Holds writes (assignment ops) m := by
  obtain ⟨m, hrun, hm⟩ := holds_runOps ops hw hnodup (holds_newFrom writes) fun _ _ => rfl
  exact ⟨m, hrun, hm⟩

/-! ## The proptest's baseline -/

/-- `Operator` of the proptest. -/
inductive Operator (V : Type) where
  | insert (v : V)
  | remove
  | skip
  | read

/-- `ExpectedOutput` of the proptest. -/
inductive ExpectedOutput (V : Type) where
  | notInMap
  | deleted
  | value (v : V)
  deriving DecidableEq

/-- The value `Baseline::new` records for an operator, if it records one. -/
def Operator.valueToUpdate : Operator V → Option (Option V)
  | .insert v => some (some v)
  | .remove => some none
  | .skip | .read => none

/-- `Baseline::new`: for each key, the value each insert or remove leaves, by index. -/
def Baseline.new (txns : List (K × Operator V)) : List (K × List (ℕ × Option V)) :=
  txns.zipIdx.foldl (fun baseline (e : (K × Operator V) × ℕ) =>
    match e.1.2.valueToUpdate with
    | some value => HashMap.modify e.1.1 [] (SortedMap.insert e.2 value) baseline
    | none => baseline) []

/-- `Baseline::get`: the last entry of the key below the version. -/
def Baseline.get (baseline : List (K × List (ℕ × Option V))) (key : K) (version : ℕ) :
    ExpectedOutput V :=
  match (HashMap.get? key baseline).bind fun tree => (tree.filter (·.1 < version)).getLast? with
  | none => .notInMap
  | some (_, some v) => .value v
  | some (_, none) => .deleted

/-- `versions_to_write` of `run_and_assert`: every transaction but a read may write its key. -/
def versionsToWrite (txns : List (K × Operator V)) : List (K × Version) :=
  txns.zipIdx.filterMap fun e =>
    match e.1.2 with
    | .read => none
    | _ => some (e.1.1, e.2)

/-- What the thread of `run_and_assert` does to the map for transaction `idx`. -/
def opOf (key : K) (idx : ℕ) : Operator V → Option (Op K (Option V))
  | .insert v => some (.write key idx (some v))
  | .remove => some (.write key idx none)
  | .skip => some (.skip key idx)
  | .read => none

/-- What `run_and_assert` compares a read with the baseline as; `none` when the read waits
and is retried. -/
def expectedOfRead : Except (Option Version) (Option V) → Option (ExpectedOutput V)
  | .ok (some v) => some (.value v)
  | .ok none => some .deleted
  | .error none => some .notInMap
  | .error (some _) => none

/-- Transaction `i` is an insert or a remove of `key` that leaves `b`. -/
def Update (txns : List (K × Operator V)) (key : K) (i : ℕ) (b : Option V) : Prop :=
  ∃ op, txns[i]? = some (key, op) ∧ op.valueToUpdate = some b

/-- The last insert or remove of `key` before `version` is transaction `i`, leaving `b`. -/
def LastUpdate (txns : List (K × Operator V)) (key : K) (version i : ℕ) (b : Option V) : Prop :=
  Update txns key i b ∧ i < version ∧ ∀ i' b', Update txns key i' b' → i < i' → version ≤ i'

/-- The baseline after the first `n` transactions: each key's tree holds its updates below
`n`, and a key without a tree has none. -/
structure BaselineInv (txns : List (K × Operator V)) (n : ℕ) (M : List (K × List (ℕ × Option V))) :
    Prop where
  nodup : HashMap.KeysNodup M
  tree : ∀ k t, HashMap.get? k M = some t →
    SortedMap.Sorted t ∧ ∀ i b, (i, b) ∈ t ↔ Update txns k i b ∧ i < n
  absent : ∀ k, HashMap.get? k M = none → ∀ i b, Update txns k i b → n ≤ i

theorem baselineInv_nil (txns : List (K × Operator V)) : BaselineInv txns 0 [] :=
  ⟨HashMap.KeysNodup.nil, fun _ _ h => (by cases h), fun _ _ _ _ _ => Nat.zero_le _⟩

/-- **One transaction of the baseline.** -/
theorem BaselineInv.step {txns : List (K × Operator V)} {n : ℕ}
    {M : List (K × List (ℕ × Option V))} (h : BaselineInv txns n M) {x : K × Operator V}
    (hx : txns[n]? = some x) :
    BaselineInv txns (n + 1) (match x.2.valueToUpdate with
      | some value => HashMap.modify x.1 [] (SortedMap.insert n value) M
      | none => M) := by
  -- an update at `n` is the one of transaction `n`
  have hat : ∀ k b, Update txns k n b ↔ k = x.1 ∧ x.2.valueToUpdate = some b := by
    intro k b
    simp only [Update, hx, Option.some.injEq]
    constructor
    · rintro ⟨op, rfl, hop⟩
      exact ⟨rfl, hop⟩
    · rintro ⟨rfl, hop⟩
      exact ⟨x.2, rfl, hop⟩
  have hlt : ∀ k i b, (Update txns k i b ∧ i < n + 1) ↔
      (Update txns k i b ∧ i < n) ∨ (i = n ∧ k = x.1 ∧ x.2.valueToUpdate = some b) := by
    intro k i b
    constructor
    · rintro ⟨hu, hi⟩
      rcases Nat.lt_succ_iff_lt_or_eq.mp hi with hi | rfl
      · exact .inl ⟨hu, hi⟩
      · exact .inr ⟨rfl, (hat k b).mp hu⟩
    · rintro (⟨hu, hi⟩ | ⟨rfl, hk, hb⟩)
      · exact ⟨hu, by omega⟩
      · exact ⟨(hat k b).mpr ⟨hk, hb⟩, by omega⟩
  cases hval : x.2.valueToUpdate with
  | none =>
    refine ⟨h.nodup, fun k t ht => ?_, fun k hk i b hu => ?_⟩
    · obtain ⟨hsorted, hmem⟩ := h.tree k t ht
      exact ⟨hsorted, fun i b => by rw [hmem, hlt, hval]; simp⟩
    · have hne : i ≠ n := fun he => by
        subst he
        have := ((hat k b).mp hu).2
        rw [hval] at this
        cases this
      have := h.absent k hk i b hu
      omega
  | some value =>
    refine ⟨h.nodup.modify, fun k t ht => ?_, fun k hk i b hu => ?_⟩
    · by_cases hk : k = x.1
      · subst hk
        rw [HashMap.get?_modify, if_pos rfl, Option.some.injEq] at ht
        subst ht
        -- the tree so far (or an empty one) with the new entry
        have hold : SortedMap.Sorted ((HashMap.get? x.1 M).getD []) ∧
            ∀ i b, (i, b) ∈ (HashMap.get? x.1 M).getD [] ↔ Update txns x.1 i b ∧ i < n := by
          cases hg : HashMap.get? x.1 M with
          | none =>
            refine ⟨SortedMap.sorted_nil, fun i b => ?_⟩
            have := h.absent x.1 hg i b
            simp only [Option.getD_none, List.not_mem_nil, false_iff, not_and]
            intro hu
            have := this hu
            omega
          | some t => exact h.tree x.1 t hg
        refine ⟨SortedMap.sorted_insert hold.1, fun i b => ?_⟩
        rw [SortedMap.mem_insert hold.1, hold.2, hlt, hval]
        by_cases hi : i = n
        · subst hi
          simp [eq_comm]
        · simp [hi]
      · rw [HashMap.get?_modify, if_neg hk] at ht
        obtain ⟨hsorted, hmem⟩ := h.tree k t ht
        exact ⟨hsorted, fun i b => by rw [hmem, hlt]; simp [hk]⟩
    · have hk' : k ≠ x.1 := by
        rintro rfl
        rw [HashMap.get?_modify, if_pos rfl] at hk
        cases hk
      rw [HashMap.get?_modify, if_neg hk'] at hk
      have hne : i ≠ n := fun he => hk' ((hat k b).mp (he ▸ hu)).1
      have := h.absent k hk i b hu
      omega

/-- The baseline of the transactions from `n` on. -/
theorem BaselineInv.foldl {txns : List (K × Operator V)} :
    ∀ (l : List (K × Operator V)) (n : ℕ) (M : List (K × List (ℕ × Option V))),
      txns.drop n = l → BaselineInv txns n M →
      BaselineInv txns (n + l.length) ((l.zipIdx n).foldl (fun baseline (e : (K × Operator V) × ℕ) =>
        match e.1.2.valueToUpdate with
        | some value => HashMap.modify e.1.1 [] (SortedMap.insert e.2 value) baseline
        | none => baseline) M)
  | [], n, M, _, h => by simpa using h
  | x :: l, n, M, hl, h => by
    have hx : txns[n]? = some x := by
      rw [← Nat.add_zero n, ← List.getElem?_drop, hl]
      rfl
    have hl' : txns.drop (n + 1) = l := by
      rw [← List.drop_drop, hl]
      rfl
    have hrest := BaselineInv.foldl l (n + 1) _ hl' (h.step hx)
    rw [List.zipIdx_cons, List.foldl_cons, List.length_cons,
      show n + (l.length + 1) = n + 1 + l.length by omega]
    exact hrest

theorem baselineInv_new (txns : List (K × Operator V)) :
    BaselineInv txns txns.length (Baseline.new txns) := by
  have h := BaselineInv.foldl txns 0 [] List.drop_zero (baselineInv_nil txns)
  rw [Nat.zero_add] at h
  exact h

omit [DecidableEq K] in
theorem Update.lt_length {txns : List (K × Operator V)} {key : K} {i : ℕ} {b : Option V}
    (hu : Update txns key i b) : i < txns.length := by
  obtain ⟨op, hop, -⟩ := hu
  exact (List.getElem?_eq_some_iff.mp hop).1

/-- **The baseline's answer** is the last insert or remove of the key before the version. -/
theorem baseline_get_spec (txns : List (K × Operator V)) (key : K) (version : ℕ) :
    (∀ v, Baseline.get (Baseline.new txns) key version = .value v ↔
      ∃ i, LastUpdate txns key version i (some v)) ∧
    (Baseline.get (Baseline.new txns) key version = .deleted ↔
      ∃ i, LastUpdate txns key version i none) ∧
    (Baseline.get (Baseline.new txns) key version = .notInMap ↔
      ∀ i b, Update txns key i b → version ≤ i) := by
  have h := baselineInv_new txns
  -- the entry `get` returns, as a search from the top of the key's tree
  have hfind : ∀ i b, ((HashMap.get? key (Baseline.new txns)).bind fun tree =>
      (tree.filter (·.1 < version)).getLast?) = some (i, b) ↔ LastUpdate txns key version i b := by
    intro i b
    cases hg : HashMap.get? key (Baseline.new txns) with
    | none =>
      simp only [Option.bind_none, reduceCtorEq, false_iff]
      rintro ⟨hu, hi, -⟩
      have := h.absent key hg i b hu
      have := hu.lt_length
      omega
    | some t =>
      obtain ⟨hsorted, hmem⟩ := h.tree key t hg
      rw [Option.bind_some, List.getLast?_filter, SortedMap.find?_reverse_eq_some_iff hsorted, hmem]
      simp only [decide_eq_true_eq, decide_eq_false_iff_not, not_lt, Prod.forall, hmem]
      constructor
      · rintro ⟨⟨hu, -⟩, hi, habove⟩
        exact ⟨hu, hi, fun i' b' hu' hii' => habove i' b' ⟨hu', hu'.lt_length⟩ hii'⟩
      · rintro ⟨hu, hi, habove⟩
        exact ⟨⟨hu, hu.lt_length⟩, hi, fun i' b' hu' hii' => habove i' b' hu'.1 hii'⟩
  have hnone : ((HashMap.get? key (Baseline.new txns)).bind fun tree =>
      (tree.filter (·.1 < version)).getLast?) = none ↔ ∀ i b, Update txns key i b → version ≤ i := by
    cases hg : HashMap.get? key (Baseline.new txns) with
    | none =>
      -- no update of the key at all
      refine ⟨fun _ i b hu => ?_, fun _ => rfl⟩
      have := h.absent key hg i b hu
      have := hu.lt_length
      omega
    | some t =>
      obtain ⟨-, hmem⟩ := h.tree key t hg
      rw [Option.bind_some, List.getLast?_filter, List.find?_eq_none]
      simp only [List.mem_reverse, decide_eq_true_eq, not_lt, Prod.forall, hmem]
      exact ⟨fun hall i b hu => hall i b ⟨hu, hu.lt_length⟩, fun hall i b hu => hall i b hu.1⟩
  unfold Baseline.get
  generalize ((HashMap.get? key (Baseline.new txns)).bind fun tree =>
    (tree.filter (·.1 < version)).getLast?) = r at hfind hnone
  rcases r with _ | ⟨i, _ | v⟩
  · -- no update below the version
    have hno : ∀ i b, ¬ LastUpdate txns key version i b := fun i b hl => by
      cases (hfind i b).mpr hl
    refine ⟨fun v => ⟨(fun h => by cases h), ?_⟩, ⟨(fun h => by cases h), ?_⟩, iff_of_true rfl (hnone.mp rfl)⟩
    all_goals
      rintro ⟨i, hl⟩
      exact (hno i _ hl).elim
  · -- the last one is a remove
    refine ⟨fun v => ⟨(fun h => by cases h), ?_⟩, ⟨fun _ => ⟨i, (hfind i none).mp rfl⟩, fun _ => rfl⟩,
      iff_of_false (fun h => by cases h) fun hall => Option.some_ne_none _ (hnone.mpr hall)⟩
    rintro ⟨i', hl⟩
    cases (hfind i' (some v)).mpr hl
  · -- the last one is an insert
    refine ⟨fun v' => ⟨?_, ?_⟩, ⟨(fun h => by cases h), ?_⟩,
      iff_of_false (fun h => by cases h) fun hall => Option.some_ne_none _ (hnone.mpr hall)⟩
    · rintro ⟨⟩
      exact ⟨i, (hfind i (some v)).mp rfl⟩
    · rintro ⟨i', hl⟩
      cases (hfind i' (some v')).mpr hl
      rfl
    · rintro ⟨i', hl⟩
      cases (hfind i' none).mpr hl

omit [DecidableEq K] in
theorem mem_versionsToWrite {txns : List (K × Operator V)} {k : K} {u : ℕ} :
    (k, u) ∈ versionsToWrite txns ↔ ∃ op, txns[u]? = some (k, op) ∧ opOf (V := V) k u op ≠ none := by
  simp only [versionsToWrite, List.mem_filterMap, List.mem_zipIdx_iff_getElem?]
  constructor
  · rintro ⟨⟨⟨k', op⟩, u'⟩, hget, hop⟩
    cases op with
    | read => cases hop
    | insert v | remove | skip =>
      simp only [Option.some.injEq, Prod.mk.injEq] at hop
      obtain ⟨rfl, rfl⟩ := hop
      exact ⟨_, hget, nofun⟩
  · rintro ⟨op, hget, hop⟩
    refine ⟨((k, op), u), hget, ?_⟩
    cases op with
    | read => exact absurd rfl hop
    | insert v | remove | skip => rfl

omit [DecidableEq K] in
/-- The operation of a transaction assigns its possible write, with the cell of its operator. -/
theorem opOf_spec {k : K} {i : ℕ} {op : Operator V} {o : Op K (Option V)}
    (h : opOf k i op = some o) :
    o.entry = (k, i) ∧ o.cell = some op.valueToUpdate := by
  cases op <;> simp only [opOf, Option.some.injEq, reduceCtorEq] at h <;> subst h <;>
    exact ⟨rfl, rfl⟩

/-- An operation of a run on distinct entries leaves its own cell. -/
theorem assignment_of_mem {ops : List (Op K V)} (hnodup : (ops.map Op.entry).Nodup)
    {o : Op K V} (ho : o ∈ ops) : assignment ops o.entry = o.cell := by
  have hsome : (ops.find? fun o' => decide (o'.entry = o.entry)).isSome :=
    List.find?_isSome.mpr ⟨o, ho, decide_eq_true rfl⟩
  obtain ⟨o', ho'⟩ := Option.isSome_iff_exists.mp hsome
  have hentry : o'.entry = o.entry := by simpa using List.find?_some ho'
  have hsame : o' = o := List.inj_on_of_nodup_map hnodup (List.mem_of_find?_eq_some ho') ho hentry
  rw [assignment, ho', hsame]
  rfl

section Proptest

variable {txns : List (K × Operator V)} {ops : List (Op K (Option V))} {key : K} {version : Version}

/-- Below the version, once every operation of the key is done, an assigned cell that is not
skipped is an update, with its value. -/
theorem assignment_of_done (hnodup : (ops.map Op.entry).Nodup)
    (hdone : ∀ i x, i < version → txns[i]? = some x → x.1 = key →
      ∀ o, opOf x.1 i x.2 = some o → o ∈ ops)
    {u : Version} (hw : (key, u) ∈ versionsToWrite txns) (hu : u < version) :
    (∀ b, assignment ops (key, u) = some (some b) ↔ Update txns key u b) ∧
      assignment ops (key, u) ≠ WriteCell.new := by
  obtain ⟨op, hget, hop⟩ := Iff.mp mem_versionsToWrite hw
  obtain ⟨o, ho⟩ := Option.ne_none_iff_exists'.mp hop
  obtain ⟨hentry, hcell⟩ := opOf_spec ho
  have hassign : assignment ops (key, u) = some op.valueToUpdate := by
    rw [← hentry, assignment_of_mem hnodup (hdone u _ hu hget rfl o ho), hcell]
  refine ⟨fun b => ?_, by rw [hassign]; nofun⟩
  rw [hassign, Update, hget]
  simp

/-- Once every operation of the key below the version is done, the possible write a read
depends on is the last update before it. -/
theorem latestLive_iff_lastUpdate (hnodup : (ops.map Op.entry).Nodup)
    (hdone : ∀ i x, i < version → txns[i]? = some x → x.1 = key →
      ∀ o, opOf x.1 i x.2 = some o → o ∈ ops) {u : Version} {b : Option V} :
    (LatestLive (versionsToWrite txns) (assignment ops) key version u ∧
      assignment ops (key, u) = some (some b)) ↔ LastUpdate txns key version u b := by
  -- an update of the key is a possible write of it
  have hwrite : ∀ i b, Update txns key i b → (key, i) ∈ versionsToWrite txns := by
    rintro i b ⟨op, hget, hop⟩
    refine Iff.mpr mem_versionsToWrite ⟨op, hget, ?_⟩
    cases op <;> simp_all [Operator.valueToUpdate, opOf]
  constructor
  · rintro ⟨⟨hw, hu, -, habove⟩, hb⟩
    refine ⟨((assignment_of_done hnodup hdone hw hu).1 b).mp hb, hu, fun i' b' hu' hii' => ?_⟩
    -- a later update below the version would be a later possible write that is not skipped
    by_contra hle
    have hlt : i' < version := Nat.lt_of_not_le hle
    have hw' := hwrite i' b' hu'
    have hskip := habove i' hw' hii' hlt
    have hb' := ((assignment_of_done hnodup hdone hw' hlt).1 b').mpr hu'
    rw [hskip] at hb'
    cases hb'
  · rintro ⟨hupd, hu, habove⟩
    have hw := hwrite u b hupd
    have hb := ((assignment_of_done hnodup hdone hw hu).1 b).mpr hupd
    refine ⟨⟨hw, hu, by rw [hb]; nofun, fun u' hw' hu' hlt => ?_⟩, hb⟩
    -- a later possible write below the version that is not skipped would be a later update
    obtain ⟨hassign, hnew⟩ := assignment_of_done hnodup hdone hw' hlt
    rcases hc : assignment ops (key, u') with _ | _ | b'
    · exact absurd hc hnew
    · rfl
    · exact absurd hlt (Nat.not_lt.mpr (habove u' b' ((hassign b').mp hc) hu'))

/-- **Reads agree with the baseline.** In `run_and_assert`, once the operations of all
transactions of the key before the version are done, in any order with any others, a read
there does not wait, and returns what the baseline expects. -/
theorem read_eq_baseline (hops : ∀ o ∈ ops, ∃ i x, txns[i]? = some x ∧ opOf x.1 i x.2 = some o)
    (hnodup : (ops.map Op.entry).Nodup)
    (hdone : ∀ i x, i < version → txns[i]? = some x → x.1 = key →
      ∀ o, opOf x.1 i x.2 = some o → o ∈ ops) :
    ∃ m, (newFrom (V := Option V) (versionsToWrite txns)).1.runOps ops = .ok m ∧
      expectedOfRead (m.read key version) = some (Baseline.get (Baseline.new txns) key version) := by
  have hw : ∀ o ∈ ops, o.entry ∈ versionsToWrite txns := by
    intro o ho
    obtain ⟨i, x, hget, hop⟩ := hops o ho
    rw [(opOf_spec hop).1]
    exact Iff.mpr mem_versionsToWrite ⟨x.2, hget, by rw [hop]; nofun⟩
  obtain ⟨m, hrun, hm⟩ := reads_of_runOps _ ops hw hnodup
  obtain ⟨hok, -, hnone⟩ := read_spec hm key version
  obtain ⟨hvalue, hdeleted, hnotIn⟩ := baseline_get_spec txns key version
  refine ⟨m, hrun, ?_⟩
  cases hg : Baseline.get (Baseline.new txns) key version with
  | notInMap =>
    -- every possible write below is skipped
    have hread : m.read key version = .error none := by
      refine hnone.mpr fun u hwu hu => ?_
      obtain ⟨hassign, hnew⟩ := assignment_of_done hnodup hdone hwu hu
      rcases hc : assignment ops (key, u) with _ | _ | b
      · exact absurd hc hnew
      · rfl
      · exact absurd hu (Nat.not_lt.mpr (hnotIn.mp hg u b ((hassign b).mp hc)))
    rw [hread]
    rfl
  | deleted =>
    obtain ⟨i, hl⟩ := hdeleted.mp hg
    have hread : m.read key version = .ok none :=
      (hok none).mpr ⟨i, (latestLive_iff_lastUpdate hnodup hdone).mpr hl⟩
    rw [hread]
    rfl
  | value v =>
    obtain ⟨i, hl⟩ := (hvalue v).mp hg
    have hread : m.read key version = .ok (some v) :=
      (hok (some v)).mpr ⟨i, (latestLive_iff_lastUpdate hnodup hdone).mpr hl⟩
    rw [hread]
    rfl

end Proptest

/-- **Reads agree with sequential execution.** After any operations on distinct possible
writes, in any order, a read returns the value of the greatest possible write of the key
below the version that is not skipped when it is written, waits for it when it is not yet
assigned, and finds nothing when every one below is skipped; and once every transaction of
the key below the version has done its operation, a read returns what the last insert or
remove before it leaves in the proptest's baseline. -/
theorem read_agrees_with_assignments :
    (∀ (writes : List (K × Version)) (ops : List (Op K V)),
      (∀ o ∈ ops, o.entry ∈ writes) → (ops.map Op.entry).Nodup →
      ∃ m, (newFrom (V := V) writes).1.runOps ops = .ok m ∧ ∀ key version,
        (∀ v, m.read key version = .ok v ↔
          ∃ u, LatestLive writes (assignment ops) key version u ∧
            assignment ops (key, u) = some (some v)) ∧
        (∀ u, m.read key version = .error (some u) ↔
          LatestLive writes (assignment ops) key version u ∧
            assignment ops (key, u) = WriteCell.new) ∧
        (m.read key version = .error none ↔
          ∀ u, (key, u) ∈ writes → u < version → assignment ops (key, u) = some none)) ∧
    ∀ (txns : List (K × Operator V)) (ops : List (Op K (Option V))) (key : K) (version : Version),
      (∀ o ∈ ops, ∃ i x, txns[i]? = some x ∧ opOf x.1 i x.2 = some o) →
      (ops.map Op.entry).Nodup →
      (∀ i x, i < version → txns[i]? = some x → x.1 = key →
        ∀ o, opOf x.1 i x.2 = some o → o ∈ ops) →
      ∃ m, (newFrom (V := Option V) (versionsToWrite txns)).1.runOps ops = .ok m ∧
        expectedOfRead (m.read key version) =
          some (Baseline.get (Baseline.new txns) key version) := by
  refine ⟨fun writes ops hw hnodup => ?_, fun txns ops key version hops hnodup hdone => ?_⟩
  · obtain ⟨m, hrun, hm⟩ := reads_of_runOps writes ops hw hnodup
    exact ⟨m, hrun, read_spec hm⟩
  · exact read_eq_baseline hops hnodup hdone

/-- An insert of key `0` by transaction `0`, then a read of it by transaction `1`: once the
insert is written, the read sees it. -/
theorem read_agrees_with_assignments_insertRead :
    (∃ m, (newFrom (V := ℕ) [(0, 0)]).1.runOps [.write 0 0 5] = .ok m ∧
      (m.read 0 1 = .ok 5 ↔ ∃ u, LatestLive [(0, 0)] (assignment [.write 0 0 5]) 0 1 u ∧
        assignment [.write 0 0 5] (0, u) = some (some 5))) ∧
    ∃ m, (newFrom (V := Option ℕ) (versionsToWrite [(0, .insert 5), (0, .read)])).1.runOps
        [.write 0 0 (some 5)] = .ok m ∧
      expectedOfRead (m.read 0 1) =
        some (Baseline.get (Baseline.new [(0, Operator.insert 5), (0, .read)]) 0 1) := by
  refine ⟨?_, read_agrees_with_assignments.2 _ _ 0 1 ?_ (by decide) ?_⟩
  · obtain ⟨m, hrun, hread⟩ := read_agrees_with_assignments.1 [(0, 0)] [.write 0 0 5]
      (by simp [Op.entry]) (by decide)
    exact ⟨m, hrun, (hread 0 1).1 5⟩
  · intro o ho
    rw [List.mem_singleton] at ho
    exact ⟨0, _, rfl, by rw [ho]; rfl⟩
  · intro i x hi hx _ o ho
    obtain rfl : i = 0 := Nat.lt_one_iff.mp hi
    cases hx
    simp only [opOf, Option.some.injEq] at ho
    simp [ho]

end MVHashMap

end Dijets.Vm
