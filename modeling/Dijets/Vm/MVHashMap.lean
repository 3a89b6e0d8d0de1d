import Dijets.Lib.HashMap
import Dijets.Lib.SortedMap

/-!
# The multi-version hash map: construction

`MVHashMap` (`mvhashmap/src/lib.rs`) holds, for every key that a block's transactions
may write, one write cell per transaction (`Version`) that may write it, in a
`BTreeMap` by version. This module models how the map is built: by `new_from`, in one
loop, and by `new_from_parallel`, which splits the possible writes around a pivot key
(`split_merge`), builds the two parts recursively and merges them with
`HashMap::extend`.

What a build must produce is stated once, as `Built`: each key of the possible writes
has the tree of its versions inserted in list order (`treeOf`), no other key has an
entry, and the count returned is the size of the largest tree (`maxTree`). `new_from`
builds that (`built_newFrom`), and so does every run of `split_merge` that returns
(`built_of_splitMerge`): a partition by a test on the key sends all the writes of a key
to the same part, so `extend` only ever joins maps with disjoint keys.

`split_merge` recurses while `1 << recursion_depth` is at most `num_cpus`. The shift is
a `usize` one, which wraps its amount (in a release build; a debug build panics), so
for `num_cpus` of `2^63` or more the test never stops the recursion, and a part that
keeps all its writes (every key at least the pivot) is split again forever. The model
therefore takes a fuel that bounds the depth: below `2^63` a depth of 63 is enough
(`splitMerge_isSome`), and at `2^63` no fuel is (`splitMerge_replicate_eq_none`).
-/

set_option autoImplicit false

namespace Dijets.Vm

open Dijets.Lib

/-- `Version`: the index of a transaction in its block. -/
abbrev Version := ℕ

/-- A `WriteCell`, the `OnceCell<Option<V>>` of one possible write: `none` while it is
unassigned, `some none` once skipped, `some (some v)` once written. -/
abbrev WriteCell (V : Type) := Option (Option V)

/-- `WriteCell::new`. -/
def WriteCell.new {V : Type} : WriteCell V := none

/-- `MVHashMap`: for each key, the cells of its versions, in ascending order. -/
structure MVHashMap (K V : Type) where
  data : List (K × List (Version × WriteCell V))

namespace MVHashMap

variable {K V : Type} [DecidableEq K]

/-- `MVHashMap::new_from`: a cell for each possible write, and the size of the largest
tree. -/
def newFrom (possibleWrites : List (K × Version)) : MVHashMap K V × ℕ :=
  let outerMap := possibleWrites.foldl (fun outerMap (kv : K × Version) =>
    HashMap.modify kv.1 [] (SortedMap.insert kv.2 WriteCell.new) outerMap) []
  let maxDependencySize := (outerMap.map Prod.snd).foldl
    (fun maxDepth btreeMap => max maxDepth btreeMap.length) 0
  (⟨outerMap⟩, maxDependencySize)

/-- `PARALLEL_THRESHOLD`. -/
def PARALLEL_THRESHOLD : ℕ := 1000

/-- The sequential branch of `split_merge`: the cells as `new_from` makes them, and the
size of each tree after each insert, the largest kept. -/
def splitMergeLeaf (split : List (K × Version)) :
    ℕ × List (K × List (Version × WriteCell V)) :=
  split.foldl (fun acc (pv : K × Version) =>
    let data := HashMap.modify pv.1 [] (SortedMap.insert pv.2 WriteCell.new) acc.2
    let place := (HashMap.get? pv.1 data).getD []
    (max acc.1 place.length, data)) (0, [])

section Parallel

variable [LT K] [DecidableLT K] [Inhabited K]

/-- `MVHashMap::split_merge`, within `fuel` levels of recursion (`none` when a run goes
deeper). `usize` is 64 bits wide and `<<` wraps its shift amount. -/
def splitMerge (numCpus : UInt64) (fuel recursionDepth : ℕ) (split : List (K × Version)) :
    Option (ℕ × List (K × List (Version × WriteCell V))) :=
  if (1 : UInt64) <<< recursionDepth.toUInt64 > numCpus ∨ split.length < PARALLEL_THRESHOLD then
    some (splitMergeLeaf split)
  else
    match fuel with
    | 0 => none
    | fuel + 1 => do
      -- partition the possible writes by keys and work on each partition
      let pivotAddress := split[split.length / 2]!.1
      let (left, right) := split.partition fun p => decide (p.1 < pivotAddress)
      let (m0, leftMap) ← splitMerge numCpus fuel (recursionDepth + 1) left
      let (m1, rightMap) ← splitMerge numCpus fuel (recursionDepth + 1) right
      some (max m0 m1, HashMap.extend leftMap rightMap)

/-- `MVHashMap::new_from_parallel`, for the count `num_cpus::get()` returns. -/
def newFromParallel (numCpus : UInt64) (fuel : ℕ) (possibleWrites : List (K × Version)) :
    Option (MVHashMap K V × ℕ) :=
  (splitMerge numCpus fuel 0 possibleWrites).map fun r => (⟨r.2⟩, r.1)

end Parallel

/-! ## What a build produces -/

/-- The versions of `k` in a list of writes, inserted in order into an empty tree. -/
def treeOf (writes : List (K × Version)) (k : K) : List (Version × WriteCell V) :=
  ((writes.filter (·.1 = k)).map Prod.snd).foldl (fun t u => SortedMap.insert u WriteCell.new t) []

/-- The size of the largest tree. -/
def maxTree (writes : List (K × Version)) : ℕ :=
  (writes.map Prod.fst).toFinset.sup fun k => (treeOf (V := V) writes k).length

/-- The map of a list of writes: each of its keys has its tree, and no other key is there. -/
structure MapOf (writes : List (K × Version)) (data : List (K × List (Version × WriteCell V))) :
    Prop where
  nodup : HashMap.KeysNodup data
  get?_of_mem : ∀ k ∈ writes.map Prod.fst, HashMap.get? k data = some (treeOf writes k)
  get?_of_not_mem : ∀ k ∉ writes.map Prod.fst, HashMap.get? k data = none

/-- A build of the map of `writes`, with the size of its largest tree. -/
def Built (writes : List (K × Version)) (r : ℕ × List (K × List (Version × WriteCell V))) : Prop :=
  MapOf writes r.2 ∧ r.1 = maxTree (V := V) writes

theorem treeOf_append_singleton (writes : List (K × Version)) (kv : K × Version) (k : K) :
    treeOf (V := V) (writes ++ [kv]) k =
      if k = kv.1 then SortedMap.insert kv.2 WriteCell.new (treeOf writes k) else treeOf writes k := by
  by_cases hk : k = kv.1
  · subst hk
    simp [treeOf, List.filter_append]
  · have hne : ¬ kv.1 = k := fun h => hk h.symm
    simp [treeOf, List.filter_append, hk, hne]

theorem treeOf_of_not_mem {writes : List (K × Version)} {k : K} (hk : k ∉ writes.map Prod.fst) :
    treeOf (V := V) writes k = [] := by
  have hnil : writes.filter (·.1 = k) = [] := by
    rw [List.filter_eq_nil_iff]
    intro e he hek
    exact hk (List.mem_map.mpr ⟨e, he, of_decide_eq_true hek⟩)
  simp [treeOf, hnil]

/-- Writes that a test on the key keeps give each kept key the tree it has in all of them. -/
theorem treeOf_filter {writes : List (K × Version)} {q : K → Bool} {k : K} (hq : q k) :
    treeOf (V := V) (writes.filter fun e => q e.1) k = treeOf writes k := by
  have hfilter : (writes.filter fun e => q e.1).filter (·.1 = k) = writes.filter (·.1 = k) := by
    rw [List.filter_filter]
    refine List.filter_congr fun e _ => ?_
    by_cases he : e.1 = k
    · simp [he, hq]
    · simp [he]
  simp only [treeOf, hfilter]

omit [DecidableEq K] in
theorem sorted_foldl_insert (us : List Version) {t : List (Version × WriteCell V)}
    (ht : SortedMap.Sorted t) :
    SortedMap.Sorted (us.foldl (fun t u => SortedMap.insert u WriteCell.new t) t) := by
  induction us generalizing t with
  | nil => exact ht
  | cons u us ih => exact ih (SortedMap.sorted_insert ht)

omit [DecidableEq K] in
/-- Inserting versions one by one: a version gets a new cell if it was inserted, and keeps
what the tree had otherwise. -/
theorem mem_foldl_insert (us : List Version) {t : List (Version × WriteCell V)}
    (ht : SortedMap.Sorted t) {u : Version} {c : WriteCell V} :
    (u, c) ∈ us.foldl (fun t u => SortedMap.insert u WriteCell.new t) t ↔
      (u ∈ us ∧ c = WriteCell.new) ∨ ((u, c) ∈ t ∧ u ∉ us) := by
  induction us generalizing t with
  | nil => simp
  | cons u' us ih =>
    rw [List.foldl_cons, ih (SortedMap.sorted_insert ht), SortedMap.mem_insert ht,
      Prod.mk.injEq, List.mem_cons]
    by_cases hu : u = u'
    · subst hu
      by_cases hus : u ∈ us <;> simp [hus]
    · simp [hu]

theorem sorted_treeOf (writes : List (K × Version)) (k : K) :
    SortedMap.Sorted (treeOf (V := V) writes k) :=
  sorted_foldl_insert _ SortedMap.sorted_nil

/-- **The cells of a tree** are the new cells of the key's possible writes. -/
theorem mem_treeOf {writes : List (K × Version)} {k : K} {u : Version} {c : WriteCell V} :
    (u, c) ∈ treeOf writes k ↔ (k, u) ∈ writes ∧ c = WriteCell.new := by
  rw [treeOf, mem_foldl_insert _ SortedMap.sorted_nil]
  simp only [List.mem_map, List.mem_filter, decide_eq_true_eq, List.not_mem_nil, false_and,
    or_false]
  constructor
  · rintro ⟨⟨e, ⟨he, rfl⟩, rfl⟩, hc⟩
    exact ⟨he, hc⟩
  · rintro ⟨he, hc⟩
    exact ⟨⟨(k, u), ⟨he, rfl⟩, rfl⟩, hc⟩

omit [DecidableEq K] in
theorem mem_keys_filter {writes : List (K × Version)} {q : K → Bool} {k : K} :
    k ∈ (writes.filter fun e => q e.1).map Prod.fst ↔ k ∈ writes.map Prod.fst ∧ q k := by
  simp only [List.mem_map, List.mem_filter]
  constructor
  · rintro ⟨e, ⟨he, hq⟩, rfl⟩
    exact ⟨⟨e, he, rfl⟩, hq⟩
  · rintro ⟨⟨e, he, rfl⟩, hq⟩
    exact ⟨e, ⟨he, hq⟩, rfl⟩

theorem MapOf.nil : MapOf (V := V) ([] : List (K × Version)) [] :=
  ⟨HashMap.KeysNodup.nil, fun _ hk => by simp at hk, fun _ _ => rfl⟩

/-- **The building step.** Inserting a write's cell into the map of the writes before it
gives the map of them all. -/
theorem MapOf.modify {writes : List (K × Version)} {data : List (K × List (Version × WriteCell V))}
    (h : MapOf writes data) (kv : K × Version) :
    MapOf (writes ++ [kv]) (HashMap.modify kv.1 [] (SortedMap.insert kv.2 WriteCell.new) data) := by
  have hmem : ∀ k, k ∈ (writes ++ [kv]).map Prod.fst ↔ k = kv.1 ∨ k ∈ writes.map Prod.fst := by
    simp [or_comm]
  refine ⟨h.nodup.modify, fun k hk => ?_, fun k hk => ?_⟩
  · by_cases hkv : k = kv.1
    · subst hkv
      -- the tree so far, or an empty one for a key not seen before
      have htree : (HashMap.get? kv.1 data).getD [] = treeOf writes kv.1 := by
        by_cases hw : kv.1 ∈ writes.map Prod.fst
        · rw [h.get?_of_mem _ hw]
          rfl
        · rw [h.get?_of_not_mem _ hw, treeOf_of_not_mem hw]
          rfl
      rw [HashMap.get?_modify, if_pos rfl, treeOf_append_singleton, if_pos rfl, htree]
    · have hw := ((hmem k).mp hk).resolve_left hkv
      rw [HashMap.get?_modify, if_neg hkv, treeOf_append_singleton, if_neg hkv, h.get?_of_mem _ hw]
  · have hkv : k ≠ kv.1 := fun he => hk ((hmem k).mpr (.inl he))
    rw [HashMap.get?_modify, if_neg hkv]
    exact h.get?_of_not_mem _ fun hw => hk ((hmem k).mpr (.inr hw))

theorem MapOf.foldl_modify {writes : List (K × Version)}
    {data : List (K × List (Version × WriteCell V))} (h : MapOf writes data)
    (more : List (K × Version)) :
    MapOf (writes ++ more) (more.foldl (fun outerMap (kv : K × Version) =>
      HashMap.modify kv.1 [] (SortedMap.insert kv.2 WriteCell.new) outerMap) data) := by
  induction more generalizing writes data with
  | nil => simpa using h
  | cons kv more ih =>
    rw [List.foldl_cons, ← List.singleton_append, ← List.append_assoc]
    exact ih (h.modify kv)

/-- The keys of the map are the keys of the writes. -/
theorem MapOf.mem_keys {writes : List (K × Version)}
    {data : List (K × List (Version × WriteCell V))} (h : MapOf writes data) {k : K} :
    k ∈ HashMap.keys data ↔ k ∈ writes.map Prod.fst := by
  rw [← not_iff_not, ← HashMap.get?_eq_none_iff]
  by_cases hk : k ∈ writes.map Prod.fst
  · simp [h.get?_of_mem _ hk, hk]
  · simp [h.get?_of_not_mem _ hk, hk]

/-- The largest tree of the map of the writes is `maxTree`. -/
theorem MapOf.foldl_max {writes : List (K × Version)}
    {data : List (K × List (Version × WriteCell V))} (h : MapOf writes data) :
    (data.map Prod.snd).foldl (fun maxDepth btreeMap => max maxDepth btreeMap.length) 0 =
      maxTree (V := V) writes := by
  rw [HashMap.foldl_max_values List.length h.nodup, Nat.zero_max, maxTree]
  have hkeys : (HashMap.keys data).toFinset = (writes.map Prod.fst).toFinset := by
    ext k
    simp only [List.mem_toFinset]
    exact h.mem_keys
  rw [hkeys]
  refine Finset.sup_congr rfl fun k hk => ?_
  rw [h.get?_of_mem _ (List.mem_toFinset.mp hk)]
  rfl

theorem built_newFrom (possibleWrites : List (K × Version)) :
    MapOf possibleWrites (newFrom (V := V) possibleWrites).1.data ∧
      (newFrom (V := V) possibleWrites).2 = maxTree (V := V) possibleWrites := by
  have hmap := MapOf.foldl_modify (MapOf.nil (V := V)) possibleWrites
  rw [List.nil_append] at hmap
  exact ⟨hmap, hmap.foldl_max⟩

/-! ## The sequential branch of `split_merge` -/

/-- Raising one term of a supremum to a bound it is already under leaves the maximum with
that bound unchanged. -/
theorem max_sup_raise {s : Finset K} {g g' : K → ℕ} {a : ℕ} {j : K} (hle : g j ≤ a)
    (hj : g' j = a) (hother : ∀ k, k ≠ j → g' k = g k) :
    max (s.sup g') a = max (s.sup g) a := by
  apply le_antisymm
  · refine max_le (Finset.sup_le fun k hk => ?_) (le_max_right _ _)
    by_cases h : k = j
    · subst h
      rw [hj]
      exact le_max_right _ _
    · rw [hother k h]
      exact le_max_of_le_left (Finset.le_sup hk)
  · refine max_le (Finset.sup_le fun k hk => ?_) (le_max_right _ _)
    by_cases h : k = j
    · subst h
      exact le_max_of_le_right hle
    · rw [← hother k h]
      exact le_max_of_le_left (Finset.le_sup hk)

theorem maxTree_append_singleton (writes : List (K × Version)) (kv : K × Version) :
    maxTree (V := V) (writes ++ [kv]) =
      max (maxTree (V := V) writes) (treeOf (V := V) (writes ++ [kv]) kv.1).length := by
  rw [maxTree, maxTree, List.map_append, List.map_singleton, List.toFinset_append,
    List.toFinset_cons, List.toFinset_nil, Finset.union_insert, Finset.union_empty,
    Finset.sup_insert, sup_comm]
  -- the tree of the new write's key has grown, the others are as they were
  refine max_sup_raise (g := fun k => (treeOf (V := V) writes k).length) (j := kv.1) ?_ rfl
    fun k hk => ?_
  · rw [treeOf_append_singleton, if_pos rfl]
    exact SortedMap.length_le_length_insert
  · simp only [treeOf_append_singleton, if_neg hk]

/-- **The sequential branch builds the map**, with the largest tree as its count. -/
theorem built_splitMergeLeaf (split : List (K × Version)) :
    Built (V := V) split (splitMergeLeaf split) := by
  suffices h : ∀ (writes more : List (K × Version))
      (acc : ℕ × List (K × List (Version × WriteCell V))),
      Built writes acc → Built (writes ++ more) (more.foldl (fun acc (pv : K × Version) =>
        let data := HashMap.modify pv.1 [] (SortedMap.insert pv.2 WriteCell.new) acc.2
        let place := (HashMap.get? pv.1 data).getD []
        (max acc.1 place.length, data)) acc) by
    have hleaf := h [] split (0, []) ⟨MapOf.nil, by simp [maxTree]⟩
    rw [List.nil_append] at hleaf
    exact hleaf
  intro writes more
  induction more generalizing writes with
  | nil => simp
  | cons kv more ih =>
    rintro ⟨m, data⟩ ⟨hmap, hmax⟩
    dsimp only at hmap hmax
    subst hmax
    rw [List.foldl_cons, ← List.singleton_append, ← List.append_assoc]
    refine ih _ _ ⟨hmap.modify kv, ?_⟩
    -- the tree just inserted into is the new write's tree
    have hplace : (HashMap.get? kv.1
        (HashMap.modify kv.1 [] (SortedMap.insert kv.2 WriteCell.new) data)).getD [] =
        treeOf (V := V) (writes ++ [kv]) kv.1 := by
      rw [(hmap.modify kv).get?_of_mem kv.1 (by simp)]
      rfl
    simp only [hplace, maxTree_append_singleton]

/-! ## The split -/

section Split

variable [LT K] [DecidableLT K] [Inhabited K]

omit [Inhabited K] in
/-- **The merge.** Maps of the writes below and not below a pivot, joined by `extend`, are
the map of all the writes, and the larger of their counts is the count of all. -/
theorem Built.extend {split : List (K × Version)} (pivot : K)
    {r₀ r₁ : ℕ × List (K × List (Version × WriteCell V))}
    (h₀ : Built (split.filter fun p => decide (p.1 < pivot)) r₀)
    (h₁ : Built (split.filter fun p => !decide (p.1 < pivot)) r₁) :
    Built split (max r₀.1 r₁.1, HashMap.extend r₀.2 r₁.2) := by
  obtain ⟨hmap₀, hmax₀⟩ := h₀
  obtain ⟨hmap₁, hmax₁⟩ := h₁
  have hmem₀ := fun k => @mem_keys_filter _ split (fun k => decide (k < pivot)) k
  have hmem₁ := fun k => @mem_keys_filter _ split (fun k => !decide (k < pivot)) k
  refine ⟨⟨hmap₀.nodup.extend, fun k hk => ?_, fun k hk => ?_⟩, ?_⟩
  · -- a key of the writes has its tree in the part its test sends it to
    rw [HashMap.get?_extend hmap₁.nodup]
    by_cases hlt : k < pivot
    · have hq : decide (k < pivot) = true := decide_eq_true hlt
      rw [hmap₁.get?_of_not_mem _ (fun h => by simp [hmem₁, hlt] at h),
        hmap₀.get?_of_mem _ ((hmem₀ k).mpr ⟨hk, hq⟩), Option.none_or,
        treeOf_filter (q := fun k => decide (k < pivot)) hq]
    · have hq : (!decide (k < pivot)) = true := by simpa using hlt
      rw [hmap₁.get?_of_mem _ ((hmem₁ k).mpr ⟨hk, hq⟩), Option.some_or,
        treeOf_filter (q := fun k => !decide (k < pivot)) hq]
  · rw [HashMap.get?_extend hmap₁.nodup, hmap₁.get?_of_not_mem _ (fun h => hk ((hmem₁ k).mp h).1),
      hmap₀.get?_of_not_mem _ (fun h => hk ((hmem₀ k).mp h).1)]
    rfl
  · -- the keys split into those below the pivot and the others
    have hkeys : (split.map Prod.fst).toFinset =
        ((split.filter fun p => decide (p.1 < pivot)).map Prod.fst).toFinset ∪
          ((split.filter fun p => !decide (p.1 < pivot)).map Prod.fst).toFinset := by
      ext k
      simp only [Finset.mem_union, List.mem_toFinset, hmem₀, hmem₁]
      by_cases hk : k < pivot <;> simp [hk]
    show max r₀.1 r₁.1 = maxTree split
    rw [hmax₀, hmax₁, maxTree, maxTree, maxTree, hkeys, Finset.sup_union]
    congr 1
    · refine Finset.sup_congr rfl fun k hk => ?_
      rw [treeOf_filter (q := fun k => decide (k < pivot)) ((hmem₀ k).mp (List.mem_toFinset.mp hk)).2]
    · refine Finset.sup_congr rfl fun k hk => ?_
      rw [treeOf_filter (q := fun k => !decide (k < pivot)) ((hmem₁ k).mp (List.mem_toFinset.mp hk)).2]

variable {numCpus : UInt64} {fuel recursionDepth : ℕ} {split : List (K × Version)}

theorem splitMerge_of_stop
    (hstop : (1 : UInt64) <<< recursionDepth.toUInt64 > numCpus ∨ split.length < PARALLEL_THRESHOLD) :
    splitMerge (V := V) numCpus fuel recursionDepth split = some (splitMergeLeaf split) := by
  rw [splitMerge.eq_def, if_pos hstop]

theorem splitMerge_zero
    (hgo : ¬ ((1 : UInt64) <<< recursionDepth.toUInt64 > numCpus ∨ split.length < PARALLEL_THRESHOLD)) :
    splitMerge (V := V) numCpus 0 recursionDepth split = none := by
  rw [splitMerge, if_neg hgo]

/-- A call that does not stop splits around the key in the middle of its writes. -/
theorem splitMerge_succ
    (hgo : ¬ ((1 : UInt64) <<< recursionDepth.toUInt64 > numCpus ∨ split.length < PARALLEL_THRESHOLD)) :
    splitMerge (V := V) numCpus (fuel + 1) recursionDepth split =
      (splitMerge numCpus fuel (recursionDepth + 1)
          (split.filter fun p => decide (p.1 < split[split.length / 2]!.1))).bind fun r₀ =>
        (splitMerge numCpus fuel (recursionDepth + 1)
            (split.filter fun p => !decide (p.1 < split[split.length / 2]!.1))).bind fun r₁ =>
          some (max r₀.1 r₁.1, HashMap.extend r₀.2 r₁.2) := by
  rw [splitMerge, if_neg hgo]
  simp only [List.partition_eq_filter_filter]
  rfl

/-- **Every run of `split_merge` that returns builds the map.** -/
theorem built_of_splitMerge :
    ∀ {fuel recursionDepth : ℕ} {split : List (K × Version)}
      {r : ℕ × List (K × List (Version × WriteCell V))},
      splitMerge numCpus fuel recursionDepth split = some r → Built split r := by
  intro fuel
  induction fuel with
  | zero =>
    intro recursionDepth split r h
    by_cases hstop : (1 : UInt64) <<< recursionDepth.toUInt64 > numCpus ∨
        split.length < PARALLEL_THRESHOLD
    · rw [splitMerge_of_stop hstop, Option.some.injEq] at h
      exact h ▸ built_splitMergeLeaf split
    · rw [splitMerge_zero hstop] at h
      cases h
  | succ fuel ih =>
    intro recursionDepth split r h
    by_cases hstop : (1 : UInt64) <<< recursionDepth.toUInt64 > numCpus ∨
        split.length < PARALLEL_THRESHOLD
    · rw [splitMerge_of_stop hstop, Option.some.injEq] at h
      exact h ▸ built_splitMergeLeaf split
    · -- both parts returned, and the result is their merge
      rw [splitMerge_succ hstop, Option.bind_eq_some_iff] at h
      obtain ⟨r₀, h₀, h⟩ := h
      rw [Option.bind_eq_some_iff] at h
      obtain ⟨r₁, h₁, hr⟩ := h
      rw [← Option.some.inj hr]
      exact Built.extend _ (ih h₀) (ih h₁)

omit [DecidableEq K] [LT K] [DecidableLT K] [Inhabited K] in
theorem toNat_one_shiftLeft (d : ℕ) :
    ((1 : UInt64) <<< d.toUInt64).toNat = 2 ^ (d % 2 ^ 64 % 64) := by
  rw [UInt64.toNat_shiftLeft, UInt64.toNat_one, Nat.one_shiftLeft, Nat.toUInt64_eq,
    UInt64.toNat_ofNat', Nat.mod_eq_of_lt]
  exact Nat.pow_lt_pow_right Nat.one_lt_two (by omega)

/-- **Below `2^63` CPUs the recursion returns**, within 63 levels: the shift test stops
it once `2 ^ recursion_depth` passes `num_cpus`, at depth 63 at the latest. -/
theorem splitMerge_isSome (hcpus : numCpus.toNat < 2 ^ 63) :
    ∀ (fuel recursionDepth : ℕ) (split : List (K × Version)), recursionDepth ≤ 63 →
      63 ≤ recursionDepth + fuel → (splitMerge (V := V) numCpus fuel recursionDepth split).isSome := by
  intro fuel
  induction fuel with
  | zero =>
    intro recursionDepth split hdepth hfuel
    -- at depth 63 the shift has passed the count
    have hshift : (1 : UInt64) <<< recursionDepth.toUInt64 > numCpus := by
      rw [gt_iff_lt, UInt64.lt_iff_toNat_lt, toNat_one_shiftLeft,
        show recursionDepth % 2 ^ 64 % 64 = 63 by omega]
      exact hcpus
    rw [splitMerge_of_stop (Or.inl hshift)]
    rfl
  | succ fuel ih =>
    intro recursionDepth split hdepth hfuel
    by_cases hstop : (1 : UInt64) <<< recursionDepth.toUInt64 > numCpus ∨
        split.length < PARALLEL_THRESHOLD
    · rw [splitMerge_of_stop hstop]
      rfl
    · -- the shift has not passed the count, so the depth is below 63
      have hlt : recursionDepth < 63 := by
        have hle : ¬ (1 : UInt64) <<< recursionDepth.toUInt64 > numCpus := fun h => hstop (Or.inl h)
        rw [gt_iff_lt, UInt64.lt_iff_toNat_lt, toNat_one_shiftLeft,
          show recursionDepth % 2 ^ 64 % 64 = recursionDepth by omega] at hle
        by_contra hge
        have hpow : 2 ^ 63 ≤ 2 ^ recursionDepth := Nat.pow_le_pow_right (by omega) (by omega)
        omega
      obtain ⟨r₀, h₀⟩ := Option.isSome_iff_exists.mp (ih (recursionDepth + 1)
        (split.filter fun p => decide (p.1 < split[split.length / 2]!.1)) (by omega) (by omega))
      obtain ⟨r₁, h₁⟩ := Option.isSome_iff_exists.mp (ih (recursionDepth + 1)
        (split.filter fun p => !decide (p.1 < split[split.length / 2]!.1)) (by omega) (by omega))
      rw [splitMerge_succ hstop, h₀, Option.bind_some, h₁, Option.bind_some]
      rfl

/-- **Parallel construction equals sequential construction**, below `2^63` CPUs:
`new_from_parallel` returns within 63 levels of `split_merge`, with the tree `new_from`
builds for every key, and the same count. -/
theorem new_from_parallel_eq_new_from (numCpus : UInt64) (hcpus : numCpus.toNat < 2 ^ 63)
    (possibleWrites : List (K × Version)) (fuel : ℕ) (hfuel : 63 ≤ fuel) :
    ∃ r, newFromParallel (V := V) numCpus fuel possibleWrites = some r ∧
      (∀ k, HashMap.get? k r.1.data = HashMap.get? k (newFrom (V := V) possibleWrites).1.data) ∧
      r.2 = (newFrom (V := V) possibleWrites).2 := by
  obtain ⟨r, hr⟩ := Option.isSome_iff_exists.mp
    (splitMerge_isSome (V := V) hcpus fuel 0 possibleWrites (by omega) (by omega))
  obtain ⟨hmap, hmax⟩ := built_of_splitMerge hr
  obtain ⟨hmap', hmax'⟩ := built_newFrom (V := V) possibleWrites
  refine ⟨(⟨r.2⟩, r.1), by rw [newFromParallel, hr]; rfl, fun k => ?_, by rw [hmax, hmax']⟩
  -- both are the map of the writes
  by_cases hk : k ∈ possibleWrites.map Prod.fst
  · rw [hmap.get?_of_mem k hk, hmap'.get?_of_mem k hk]
  · rw [hmap.get?_of_not_mem k hk, hmap'.get?_of_not_mem k hk]

theorem new_from_parallel_eq_new_from_fourCpus :
    (4 : UInt64).toNat < 2 ^ 63 ∧ 63 ≤ 63 ∧
      ∃ r, newFromParallel (V := Unit) (4 : UInt64) 63 [((0 : ℕ), 0), (1, 1), (0, 2)] = some r ∧
        (∀ k, HashMap.get? k r.1.data =
          HashMap.get? k (newFrom (V := Unit) [((0 : ℕ), 0), (1, 1), (0, 2)]).1.data) ∧
        r.2 = (newFrom (V := Unit) [((0 : ℕ), 0), (1, 1), (0, 2)]).2 :=
  ⟨by decide, le_refl 63, new_from_parallel_eq_new_from 4 (by decide) _ 63 (le_refl 63)⟩

omit [DecidableEq K] [LT K] [DecidableLT K] [Inhabited K] in
/-- At `2^63` CPUs the stop test fails at every depth, for a part of at least
`PARALLEL_THRESHOLD` writes: `1 << 63` does not pass the count, and deeper shifts wrap. -/
theorem goes_at_two_pow_63 (recursionDepth : ℕ) {split : List (K × Version)}
    (hlen : PARALLEL_THRESHOLD ≤ split.length) :
    ¬ ((1 : UInt64) <<< recursionDepth.toUInt64 > UInt64.ofNat (2 ^ 63) ∨
      split.length < PARALLEL_THRESHOLD) := by
  rintro (h | h)
  · rw [gt_iff_lt, UInt64.lt_iff_toNat_lt, toNat_one_shiftLeft, UInt64.toNat_ofNat'] at h
    have hle : 2 ^ (recursionDepth % 2 ^ 64 % 64) ≤ 2 ^ 63 :=
      Nat.pow_le_pow_right (by omega) (by omega)
    omega
  · omega

/-- Writes of a single key all go to one part, so at `2^63` CPUs a thousand of them are
split again at every depth, and no fuel is enough. -/
theorem splitMerge_replicate_eq_none (kv : K × Version) {n : ℕ} (hn : PARALLEL_THRESHOLD ≤ n) :
    ∀ fuel recursionDepth,
      splitMerge (V := V) (UInt64.ofNat (2 ^ 63)) fuel recursionDepth (List.replicate n kv) = none := by
  have hlen : PARALLEL_THRESHOLD ≤ (List.replicate n kv).length := by
    rw [List.length_replicate]
    exact hn
  have hpivot : (List.replicate n kv)[(List.replicate n kv).length / 2]!.1 = kv.1 := by
    have hlt : n / 2 < n := Nat.div_lt_self (by simp [PARALLEL_THRESHOLD] at hn; omega) (by omega)
    simp [hlt]
  have hnil : ∀ fuel recursionDepth,
      splitMerge (V := V) (UInt64.ofNat (2 ^ 63)) fuel recursionDepth ([] : List (K × Version)) =
        some (splitMergeLeaf []) :=
    fun _ _ => splitMerge_of_stop (Or.inr (by simp [PARALLEL_THRESHOLD]))
  intro fuel
  induction fuel with
  | zero => exact fun recursionDepth => splitMerge_zero (goes_at_two_pow_63 recursionDepth hlen)
  | succ fuel ih =>
    intro recursionDepth
    rw [splitMerge_succ (goes_at_two_pow_63 recursionDepth hlen), hpivot]
    -- every write goes to the part its key's test sends it to, the other part is empty
    by_cases hself : kv.1 < kv.1
    · have hl : (List.replicate n kv).filter (fun p => decide (p.1 < kv.1)) = List.replicate n kv := by
        simp [hself]
      rw [hl, ih, Option.bind_none]
    · have hl : (List.replicate n kv).filter (fun p => decide (p.1 < kv.1)) = [] := by
        simp [hself]
      have hr : (List.replicate n kv).filter (fun p => !decide (p.1 < kv.1)) = List.replicate n kv := by
        simp [hself]
      rw [hl, hr, hnil, Option.bind_some, ih, Option.bind_none]

end Split

/-- **At `2^63` CPUs the parallel construction does not return**, for a thousand
writes of one key, with the 63 levels that suffice below `2^63` (and with any other fuel:
`splitMerge_replicate_eq_none`). -/
theorem new_from_parallel_diverges_at_two_pow_63 :
    newFromParallel (K := ℕ) (V := Unit) (UInt64.ofNat (2 ^ 63)) 63
      (List.replicate 1000 (0, 0)) = none := by
  rw [newFromParallel, splitMerge_replicate_eq_none _ (by decide)]
  rfl

end MVHashMap

end Dijets.Vm
