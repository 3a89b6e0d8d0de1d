import Mathlib

/-!
# Ordered maps as ascending association lists

A `BTreeMap` is read as the list of its entries in ascending key order, the order
its iterators visit them in. `insert` gives a key that is present its new value
and otherwise puts the new entry in its place. A map built by inserts from the
empty map has strictly ascending keys (`Sorted`), so each key stands in it at most
once, and on such a map an insert is characterised by its entries: the new one,
and the old ones of the other keys.

## Main definitions

* `SortedMap.insert` — `BTreeMap::insert`.
* `SortedMap.get?`, `SortedMap.orInsert`, `SortedMap.erase` — `BTreeMap::get`,
  `entry(..).or_insert` and `remove`.
* `SortedMap.Sorted` — the keys ascend strictly.
* `SortedMap.mem_insert` — the entries after an insert.
-/

set_option autoImplicit false

namespace Dijets.Lib.SortedMap

variable {κ β : Type*} [LinearOrder κ]

/-- `BTreeMap::insert`: the entry of `k` gets the value `v`, in its key's place. -/
def insert (k : κ) (v : β) : List (κ × β) → List (κ × β)
  | [] => [(k, v)]
  | (k', v') :: rest =>
    if k < k' then (k, v) :: (k', v') :: rest
    else if k = k' then (k, v) :: rest
    else (k', v') :: insert k v rest

/-- `BTreeMap::get`: the value of the first entry of `k`. -/
def get? (k : κ) : List (κ × β) → Option β
  | [] => none
  | (k', v') :: rest => if k = k' then some v' else get? k rest

/-- `BTreeMap::entry(k).or_insert(v)`: a key that is present keeps its value. -/
def orInsert (k : κ) (v : β) (m : List (κ × β)) : List (κ × β) :=
  match get? k m with
  | some _ => m
  | none => insert k v m

/-- `BTreeMap::remove`: drop the first entry of `k`. -/
def erase (k : κ) : List (κ × β) → List (κ × β)
  | [] => []
  | (k', v') :: rest => if k = k' then rest else (k', v') :: erase k rest

/-- The keys ascend strictly. -/
def Sorted (m : List (κ × β)) : Prop := m.Pairwise (fun a b => a.1 < b.1)

instance : DecidablePred (Sorted : List (κ × β) → Prop) :=
  fun m => inferInstanceAs (Decidable (m.Pairwise _))

variable {k : κ} {v : β} {m : List (κ × β)} {e : κ × β}

/-! The equations of `insert`, `get?` and `erase`, which the proofs below rewrite with instead
of unfolding the definitions. -/

theorem insert_nil (k : κ) (v : β) : insert k v ([] : List (κ × β)) = [(k, v)] := rfl

theorem insert_cons (k : κ) (v : β) (x : κ × β) (rest : List (κ × β)) :
    insert k v (x :: rest) =
      if k < x.1 then (k, v) :: x :: rest
      else if k = x.1 then (k, v) :: rest
      else x :: insert k v rest := rfl

theorem get?_nil (k : κ) : get? k ([] : List (κ × β)) = none := rfl

theorem get?_cons (k : κ) (x : κ × β) (rest : List (κ × β)) :
    get? k (x :: rest) = if k = x.1 then some x.2 else get? k rest := rfl

theorem erase_nil (k : κ) : erase k ([] : List (κ × β)) = [] := rfl

theorem erase_cons (k : κ) (x : κ × β) (rest : List (κ × β)) :
    erase k (x :: rest) = if k = x.1 then rest else x :: erase k rest := rfl

theorem sorted_nil : Sorted ([] : List (κ × β)) := List.Pairwise.nil

theorem Sorted.tail {x : κ × β} (hm : Sorted (x :: m)) : Sorted m :=
  (List.pairwise_cons.mp hm).2

theorem Sorted.head_lt {x : κ × β} (hm : Sorted (x :: m)) : ∀ e ∈ m, x.1 < e.1 :=
  (List.pairwise_cons.mp hm).1

/-- Each key stands in a sorted map at most once. -/
theorem Sorted.nodup_keys (hm : Sorted m) : (m.map Prod.fst).Nodup :=
  List.pairwise_map.mpr (hm.imp ne_of_lt)

/-- An insert adds no entry but the new one. -/
theorem mem_of_mem_insert (he : e ∈ insert k v m) : e = (k, v) ∨ e ∈ m := by
  induction m with
  | nil => simpa [insert_nil, insert_cons] using he
  | cons x rest ih =>
    obtain ⟨k', v'⟩ := x
    simp only [insert_cons] at he
    split_ifs at he
    · simpa using he
    · rcases List.mem_cons.mp he with h | h
      · exact Or.inl h
      · exact Or.inr (List.mem_cons_of_mem _ h)
    · rcases List.mem_cons.mp he with h | h
      · exact Or.inr (h ▸ List.mem_cons_self)
      · exact (ih h).imp_right (List.mem_cons_of_mem _)

theorem sorted_insert (hm : Sorted m) : Sorted (insert k v m) := by
  induction m with
  | nil => simp [insert_nil, Sorted]
  | cons x rest ih =>
    obtain ⟨k', v'⟩ := x
    have hhead := hm.head_lt
    simp only [insert_cons]
    split_ifs with hlt heq
    · -- the new key goes first
      refine List.Pairwise.cons (fun e he => ?_) hm
      rcases List.mem_cons.mp he with rfl | he
      · exact hlt
      · exact hlt.trans (hhead e he)
    · -- the key was present: only its value changes
      subst heq
      exact List.Pairwise.cons hhead hm.tail
    · -- the new entry belongs further on
      have hk' : k' < k := lt_of_le_of_ne (not_lt.mp hlt) (Ne.symm heq)
      refine List.Pairwise.cons (fun e he => ?_) (ih hm.tail)
      rcases mem_of_mem_insert he with rfl | he
      · exact hk'
      · exact hhead e he

/-- **The entries after an insert** into a sorted map: the new entry, and the old
entries of the other keys. -/
theorem mem_insert (hm : Sorted m) : e ∈ insert k v m ↔ e = (k, v) ∨ (e ∈ m ∧ e.1 ≠ k) := by
  induction m with
  | nil => simp [insert_nil]
  | cons x rest ih =>
    obtain ⟨k', v'⟩ := x
    have hhead := hm.head_lt
    simp only [insert_cons]
    split_ifs with hlt heq
    · -- every key of the map is above `k`
      grind
    · subst heq
      grind
    · have hk' : k' < k := lt_of_le_of_ne (not_lt.mp hlt) (Ne.symm heq)
      rw [List.mem_cons, ih hm.tail]
      grind

/-- An insert never shrinks a map. -/
theorem length_le_length_insert : m.length ≤ (insert k v m).length := by
  induction m with
  | nil => simp [insert_nil]
  | cons x rest ih =>
    obtain ⟨k', v'⟩ := x
    simp only [insert_cons]
    split_ifs <;> simp [ih]

/-! ## Lookups -/

/-- In a sorted map, a key's value is the value of its entry. -/
theorem get?_eq_some_iff (hm : Sorted m) : get? k m = some v ↔ (k, v) ∈ m := by
  induction m with
  | nil => simp [get?_nil]
  | cons x rest ih =>
    obtain ⟨k', v'⟩ := x
    have hhead := hm.head_lt
    simp only [get?_cons]
    split_ifs with heq
    · -- the first entry is the key's, and no later entry has the key
      subst heq
      have hnot : (k, v) ∉ rest := fun h => lt_irrefl k (hhead (k, v) h)
      simp [hnot, eq_comm]
    · rw [ih hm.tail, List.mem_cons]
      grind

/-- A key's value, when there is one, is the value of one of its entries. -/
theorem mem_of_get? (h : get? k m = some v) : (k, v) ∈ m := by
  induction m with
  | nil => cases h
  | cons x rest ih =>
    obtain ⟨k', v'⟩ := x
    simp only [get?_cons] at h
    split_ifs at h with heq
    · cases h
      rw [heq]
      exact List.mem_cons_self
    · exact List.mem_cons_of_mem _ (ih h)

/-- Where no key repeats, a key's value is the value of its entry, sorted or not. -/
theorem get?_eq_some_iff_of_nodup (hm : (m.map Prod.fst).Nodup) :
    get? k m = some v ↔ (k, v) ∈ m := by
  refine ⟨mem_of_get?, fun h => ?_⟩
  induction m with
  | nil => cases h
  | cons x rest ih =>
    obtain ⟨k', v'⟩ := x
    simp only [List.map_cons, List.nodup_cons] at hm
    simp only [get?_cons]
    rcases List.mem_cons.mp h with h | h
    · rw [Prod.mk.injEq] at h
      simp [h.1, h.2]
    · -- the key is a later one's, so not the head's
      have hne : k ≠ k' := fun heq => hm.1 (heq ▸ List.mem_map_of_mem (f := Prod.fst) h)
      rw [if_neg hne]
      exact ih hm.2 h

theorem get?_eq_none_iff : get? k m = none ↔ ∀ e ∈ m, e.1 ≠ k := by
  induction m with
  | nil => simp [get?_nil]
  | cons x rest ih =>
    obtain ⟨k', v'⟩ := x
    simp only [get?_cons]
    split_ifs with heq
    · simp [heq]
    · simp [ih, Ne.symm heq]

/-- Scanning a sorted map from its greatest key down, the first entry with a property has
the greatest key among those with it. -/
theorem find?_reverse_spec (hm : Sorted m) {p : κ × β → Bool} (h : m.reverse.find? p = some e) :
    e ∈ m ∧ p e ∧ ∀ e' ∈ m, e.1 < e'.1 → p e' = false := by
  obtain ⟨hpe, as, bs, hsplit, has⟩ := List.find?_eq_some_iff_append.mp h
  have hmem : e ∈ m := List.mem_reverse.mp (hsplit ▸ List.mem_append_right _ List.mem_cons_self)
  refine ⟨hmem, hpe, fun e' he' hlt => ?_⟩
  -- scanned before `e` means a greater key; after it, a smaller one
  have hrev : m.reverse.Pairwise (fun a b => b.1 < a.1) := List.pairwise_reverse.mpr hm
  rw [hsplit, List.pairwise_append, List.pairwise_cons] at hrev
  have he'r : e' ∈ as ++ e :: bs := hsplit ▸ List.mem_reverse.mpr he'
  rcases List.mem_append.mp he'r with has' | hbs
  · simpa using has e' has'
  · rcases List.mem_cons.mp hbs with rfl | hbs'
    · exact absurd hlt (lt_irrefl _)
    · exact absurd (hrev.2.1.1 e' hbs') (not_lt.mpr hlt.le)

/-- **The last entry with a property.** Scanning a sorted map from its greatest key down
(a `BTreeMap` iterated by `next_back`, or the last of a `range`) finds the entry with the
greatest key among those with the property. -/
theorem find?_reverse_eq_some_iff (hm : Sorted m) {p : κ × β → Bool} :
    m.reverse.find? p = some e ↔ e ∈ m ∧ p e ∧ ∀ e' ∈ m, e.1 < e'.1 → p e' = false := by
  refine ⟨find?_reverse_spec hm, fun ⟨hmem, hpe, habove⟩ => ?_⟩
  obtain ⟨f, hf⟩ := Option.isSome_iff_exists.mp
    (List.find?_isSome.mpr ⟨e, List.mem_reverse.mpr hmem, hpe⟩)
  rw [hf]
  obtain ⟨hfm, hpf, hfabove⟩ := find?_reverse_spec hm hf
  -- neither key is above the other, so they are one entry
  rcases lt_trichotomy f.1 e.1 with hlt | heq | hgt
  · rw [hfabove e hmem hlt] at hpe
    cases hpe
  · exact congrArg some (List.inj_on_of_nodup_map hm.nodup_keys hfm hmem heq)
  · rw [habove f hfm hgt] at hpf
    cases hpf

/-- An `or_insert` adds no entry but the new one. -/
theorem mem_of_mem_orInsert (he : e ∈ orInsert k v m) : e = (k, v) ∨ e ∈ m := by
  unfold orInsert at he
  split at he
  · exact Or.inr he
  · exact mem_of_mem_insert he

theorem sorted_orInsert (hm : Sorted m) : Sorted (orInsert k v m) := by
  unfold orInsert
  split
  · exact hm
  · exact sorted_insert hm

/-! ## Lookups after an update -/

@[simp] theorem get?_insert_self : get? k (insert k v m) = some v := by
  induction m with
  | nil => simp [insert_nil, get?_cons]
  | cons x rest ih =>
    obtain ⟨k', v'⟩ := x
    simp only [insert_cons]
    split_ifs with hlt heq
    · simp [get?_cons]
    · simp [get?_cons]
    · simp [get?_cons, heq, ih]

theorem get?_insert_ne {k' : κ} (hne : k' ≠ k) : get? k' (insert k v m) = get? k' m := by
  induction m with
  | nil => simp [insert_nil, get?_nil, get?_cons, hne]
  | cons x rest ih =>
    obtain ⟨k'', v''⟩ := x
    simp only [insert_cons]
    split_ifs with hlt heq
    · simp [get?_cons, hne]
    · subst heq
      simp [get?_cons, hne]
    · simp only [get?_cons, ih]

theorem get?_insert {k' : κ} : get? k' (insert k v m) = if k' = k then some v else get? k' m := by
  split_ifs with h
  · subst h
    exact get?_insert_self
  · exact get?_insert_ne h

/-- Inserting the entries of a list whose keys do not repeat, one after another: a key
of the list gets its value there, and the others keep theirs. -/
theorem get?_foldl_insert {ps : List (κ × β)} (hps : (ps.map Prod.fst).Nodup)
    (acc : List (κ × β)) :
    get? k (ps.foldl (fun m p => insert p.1 p.2 m) acc) = (get? k ps).or (get? k acc) := by
  induction ps generalizing acc with
  | nil => simp [get?_nil]
  | cons p ps ih =>
    obtain ⟨k', v'⟩ := p
    simp only [List.map_cons, List.nodup_cons] at hps
    rw [List.foldl_cons, ih hps.2]
    by_cases hk : k = k'
    · -- the key is the head's, and no later entry has it
      subst hk
      have hnone : get? k ps = none :=
        get?_eq_none_iff.mpr fun e he heq => hps.1 (heq ▸ List.mem_map_of_mem he)
      simp [hnone, get?_cons]
    · simp [get?_insert_ne hk, get?_cons, hk]

/-- A table filed by position under a key of each entry, where no key repeats: the
position filed under a key is that of the entry with the key. -/
theorem get?_foldl_insert_zipIdx {γ : Type*} (key : γ → κ) {l : List γ}
    (hkeys : (l.map key).Nodup) (k : κ) (i : ℕ) :
    get? k (l.zipIdx.foldl (fun map p => insert (key p.1) p.2 map) []) = some i ↔
      ∃ x, l[i]? = some x ∧ key x = k := by
  let ps := l.zipIdx.map fun p => (key p.1, p.2)
  have hfold : l.zipIdx.foldl (fun map p => insert (key p.1) p.2 map) [] =
      ps.foldl (fun m p => insert p.1 p.2 m) [] := by
    simp [ps, List.foldl_map]
  have hps : (ps.map Prod.fst).Nodup := by
    have hfst : ps.map Prod.fst = (l.zipIdx.map Prod.fst).map key := by
      simp only [ps, List.map_map]
      rfl
    rw [hfst, List.zipIdx_map_fst]
    exact hkeys
  rw [hfold, get?_foldl_insert hps]
  simp only [get?_nil, Option.or_none, get?_eq_some_iff_of_nodup hps, ps, List.mem_map, Prod.mk.injEq,
    Prod.exists]
  constructor
  · rintro ⟨x, t, hmem, rfl, rfl⟩
    exact ⟨x, List.mem_zipIdx_iff_getElem?.mp hmem, rfl⟩
  · rintro ⟨x, hx, rfl⟩
    exact ⟨x, i, List.mem_zipIdx_iff_getElem?.mpr hx, rfl, rfl⟩

/-- An `or_insert` gives the key its new value only when it had none. -/
theorem get?_orInsert {k' : κ} :
    get? k' (orInsert k v m) = (get? k' m).or (if k' = k then some v else none) := by
  unfold orInsert
  split
  · rename_i v' hk
    by_cases hkk : k' = k
    · subst hkk
      simp [hk]
    · simp [hkk]
  · rename_i hk
    by_cases hkk : k' = k
    · subst hkk
      simp [hk]
    · simp [hkk, get?_insert_ne hkk]

theorem get?_erase_ne {k' : κ} (hne : k' ≠ k) : get? k' (erase k m) = get? k' m := by
  induction m with
  | nil => rfl
  | cons x rest ih =>
    obtain ⟨k'', v''⟩ := x
    simp only [erase_cons]
    split_ifs with heq
    · subst heq
      simp [get?_cons, hne]
    · simp only [get?_cons, ih]

/-- In a sorted map a removed key is gone: it stood there once. -/
theorem get?_erase_self (hm : Sorted m) : get? k (erase k m) = none := by
  induction m with
  | nil => rfl
  | cons x rest ih =>
    obtain ⟨k', v'⟩ := x
    simp only [erase_cons]
    split_ifs with heq
    · subst heq
      exact get?_eq_none_iff.mpr fun e he heq => lt_irrefl k (heq ▸ hm.head_lt e he)
    · simp [get?_cons, heq, ih hm.tail]

/-- A removal keeps only old entries. -/
theorem mem_of_mem_erase (he : e ∈ erase k m) : e ∈ m := by
  induction m with
  | nil => exact he
  | cons x rest ih =>
    simp only [erase_cons] at he
    split_ifs at he
    · exact List.mem_cons_of_mem _ he
    · rcases List.mem_cons.mp he with rfl | he
      · exact List.mem_cons_self
      · exact List.mem_cons_of_mem _ (ih he)

theorem sorted_erase (hm : Sorted m) : Sorted (erase k m) := by
  induction m with
  | nil => exact sorted_nil
  | cons x rest ih =>
    simp only [erase_cons]
    split_ifs
    · exact hm.tail
    · -- the kept entries are a sublist of the old ones
      refine List.Pairwise.cons (fun e he => hm.head_lt e ?_) (ih hm.tail)
      exact mem_of_mem_erase he

/-- **The entries after a removal** from a sorted map: the old entries of the other keys. -/
theorem mem_erase (hm : Sorted m) : e ∈ erase k m ↔ e ∈ m ∧ e.1 ≠ k := by
  induction m with
  | nil => simp [erase_nil]
  | cons x rest ih =>
    obtain ⟨k', v'⟩ := x
    have hhead := hm.head_lt
    simp only [erase_cons]
    split_ifs with heq
    · -- the first entry is the key's, and every later key is above it
      subst heq
      constructor
      · intro he
        exact ⟨List.mem_cons_of_mem _ he, (hhead e he).ne'⟩
      · rintro ⟨he, hne⟩
        rcases List.mem_cons.mp he with rfl | he
        · exact absurd rfl hne
        · exact he
    · rw [List.mem_cons, List.mem_cons, ih hm.tail]
      grind

/-- A key with a value is a key of the map. -/
theorem mem_keys_of_get? (h : get? k m = some v) : k ∈ m.map Prod.fst := by
  induction m with
  | nil => simp [get?_nil] at h
  | cons x rest ih =>
    obtain ⟨k', v'⟩ := x
    simp only [get?_cons] at h
    split_ifs at h with heq
    · simp [heq]
    · exact List.mem_cons_of_mem _ (ih h)

/-- `contains_key`: a key has a value exactly when it is a key of the map. -/
theorem get?_isSome_iff : (get? k m).isSome ↔ k ∈ m.map Prod.fst := by
  constructor
  · intro h
    obtain ⟨v', hv⟩ := Option.isSome_iff_exists.mp h
    exact mem_keys_of_get? hv
  · intro h
    obtain ⟨e, he, rfl⟩ := List.mem_map.mp h
    cases hk : get? e.1 m with
    | none => exact absurd rfl (get?_eq_none_iff.mp hk e he)
    | some _ => rfl

/-! ## Keys after an update -/

/-- An insert keeps the entries of the other keys. -/
theorem mem_insert_of_mem (he : e ∈ m) (hne : e.1 ≠ k) : e ∈ insert k v m := by
  induction m with
  | nil => cases he
  | cons x rest ih =>
    simp only [insert_cons]
    rcases List.mem_cons.mp he with rfl | he'
    · split_ifs with hlt heq
      · exact List.mem_cons_of_mem _ List.mem_cons_self
      · exact absurd heq.symm hne
      · exact List.mem_cons_self
    · split_ifs with hlt heq
      · exact List.mem_cons_of_mem _ (List.mem_cons_of_mem _ he')
      · exact List.mem_cons_of_mem _ he'
      · exact List.mem_cons_of_mem _ (ih he')

/-- An `or_insert` keeps every entry. -/
theorem mem_orInsert_of_mem (he : e ∈ m) : e ∈ orInsert k v m := by
  unfold orInsert
  split
  · exact he
  · rename_i hk
    exact mem_insert_of_mem he (get?_eq_none_iff.mp hk e he)

/-- After an `or_insert` the key has a value. -/
theorem mem_keys_orInsert_self : k ∈ (orInsert k v m).map Prod.fst := by
  refine get?_isSome_iff.mp ?_
  rw [get?_orInsert]
  cases get? k m <;> simp

/-- An insert adds its key to the keys. -/
theorem mem_keys_insert {k' : κ} : k' ∈ (insert k v m).map Prod.fst ↔ k' = k ∨ k' ∈ m.map Prod.fst := by
  induction m with
  | nil => simp [insert_nil]
  | cons x rest ih =>
    obtain ⟨k'', v''⟩ := x
    simp only [insert_cons]
    split_ifs with hlt heq
    · simp
    · subst heq
      simp
    · simp only [List.map_cons, List.mem_cons, ih]
      grind

/-- An `or_insert` adds its key to the keys. -/
theorem mem_keys_orInsert {k' : κ} : k' ∈ (orInsert k v m).map Prod.fst ↔ k' = k ∨ k' ∈ m.map Prod.fst := by
  unfold orInsert
  split
  · rename_i hk
    refine ⟨Or.inr, ?_⟩
    rintro (rfl | hk')
    exacts [mem_keys_of_get? hk, hk']
  · exact mem_keys_insert

/-- A removal from a sorted map takes its key out of the keys. -/
theorem mem_keys_erase (hm : Sorted m) {k' : κ} :
    k' ∈ (erase k m).map Prod.fst ↔ k' ∈ m.map Prod.fst ∧ k' ≠ k := by
  simp only [List.mem_map]
  constructor
  · rintro ⟨e, he, rfl⟩
    exact ⟨⟨e, ((mem_erase hm).mp he).1, rfl⟩, ((mem_erase hm).mp he).2⟩
  · rintro ⟨⟨e, he, rfl⟩, hne⟩
    exact ⟨e, (mem_erase hm).mpr ⟨he, hne⟩, rfl⟩

/-- Giving a key of a sorted map another value keeps the keys in their places. -/
theorem keys_insert_of_get? {v' : β} (hm : Sorted m) (h : get? k m = some v') :
    (insert k v m).map Prod.fst = m.map Prod.fst := by
  induction m with
  | nil => simp [get?_nil] at h
  | cons x rest ih =>
    obtain ⟨k'', v''⟩ := x
    by_cases heq : k = k''
    · subst heq
      simp [insert_cons]
    · -- the key stands further on, above the first one
      have hrest : get? k rest = some v' := by simpa [get?_nil, get?_cons, heq] using h
      have hgt : k'' < k := hm.head_lt _ ((get?_eq_some_iff hm.tail).mp hrest)
      simp [insert_cons, not_lt.mpr hgt.le, heq, ih hm.tail hrest]

/-- Giving a key its own value changes nothing. -/
theorem insert_eq_self (hm : Sorted m) (h : get? k m = some v) : insert k v m = m := by
  induction m with
  | nil => simp [get?_nil] at h
  | cons x rest ih =>
    obtain ⟨k'', v''⟩ := x
    by_cases heq : k = k''
    · subst heq
      have hv : v'' = v := by simpa [get?_nil, get?_cons] using h
      simp [insert_cons, hv]
    · have hrest : get? k rest = some v := by simpa [get?_nil, get?_cons, heq] using h
      have hgt : k'' < k := hm.head_lt _ ((get?_eq_some_iff hm.tail).mp hrest)
      simp [insert_cons, not_lt.mpr hgt.le, heq, ih hm.tail hrest]

/-- A second insert of a key overrides the first. -/
theorem insert_insert {v' : β} : insert k v' (insert k v m) = insert k v' m := by
  induction m with
  | nil => simp [insert_nil, insert_cons]
  | cons x rest ih =>
    obtain ⟨k', v''⟩ := x
    simp only [insert_cons]
    split_ifs with hlt heq
    · simp [insert_cons]
    · simp [insert_cons, heq]
    · simp [insert_cons, hlt, heq, ih]

/-- A removal keeps the other entries in their order. -/
theorem erase_sublist : (erase k m).Sublist m := by
  induction m with
  | nil => exact List.Sublist.slnil
  | cons x rest ih =>
    obtain ⟨k', v'⟩ := x
    simp only [erase_cons]
    split_ifs
    · exact List.sublist_cons_self _ _
    · exact ih.cons_cons _

/-- Removing a key that is present takes one entry off. -/
theorem length_erase_of_mem (h : k ∈ m.map Prod.fst) : (erase k m).length + 1 = m.length := by
  induction m with
  | nil => exact absurd h List.not_mem_nil
  | cons x rest ih =>
    obtain ⟨k', v'⟩ := x
    simp only [erase_cons]
    split_ifs with hk
    · rfl
    · have hrest : k ∈ rest.map Prod.fst := by
        rcases List.mem_cons.mp h with h | h
        · exact absurd h hk
        · exact h
      rw [List.length_cons, ih hrest, List.length_cons]

/-- An insert adds at most one entry. -/
theorem length_insert_le : (insert k v m).length ≤ m.length + 1 := by
  induction m with
  | nil => exact Nat.le_refl _
  | cons x rest ih =>
    obtain ⟨k', v'⟩ := x
    simp only [insert_cons]
    split_ifs
    · exact Nat.le_refl _
    · rw [List.length_cons, List.length_cons]
      omega
    · rw [List.length_cons, List.length_cons]
      omega

/-- Inserting an absent key adds one entry. -/
theorem length_insert_of_get?_eq_none (h : get? k m = none) : (insert k v m).length = m.length + 1 := by
  induction m with
  | nil => rfl
  | cons x rest ih =>
    obtain ⟨k', v'⟩ := x
    have hne : k ≠ k' := fun heq => by simp [get?_cons, heq] at h
    have hrest : get? k rest = none := by simpa [get?_cons, hne] using h
    simp only [insert_cons, if_neg hne]
    split_ifs
    · rfl
    · rw [List.length_cons, List.length_cons, ih hrest]

/-- Giving a present key of a sorted map another value keeps its length. -/
theorem length_insert_of_get?_eq_some {v' : β} (hm : Sorted m) (h : get? k m = some v') :
    (insert k v m).length = m.length := by
  have hkeys := congrArg List.length (keys_insert_of_get? (v := v) hm h)
  rwa [List.length_map, List.length_map] at hkeys

/-- Removing an absent key changes nothing. -/
theorem erase_of_get?_eq_none (h : get? k m = none) : erase k m = m := by
  induction m with
  | nil => rfl
  | cons x rest ih =>
    obtain ⟨k', v'⟩ := x
    have hne : k ≠ k' := fun heq => by simp [get?_cons, heq] at h
    have hrest : get? k rest = none := by simpa [get?_cons, hne] using h
    rw [erase_cons, if_neg hne, ih hrest]

theorem insert_ne_nil : insert k v m ≠ [] := by
  cases m with
  | nil => exact List.cons_ne_nil _ _
  | cons x rest =>
    rw [insert_cons]
    split_ifs <;> exact List.cons_ne_nil _ _

/-- The last entry of a sorted map has the greatest key. -/
theorem Sorted.le_of_getLast? (hm : Sorted m) (h : m.getLast? = some e) : ∀ e' ∈ m, e'.1 ≤ e.1 := by
  obtain ⟨ys, rfl⟩ := List.getLast?_eq_some_iff.mp h
  intro e' he'
  rcases List.mem_append.mp he' with hys | hlast
  · exact le_of_lt ((List.pairwise_append.mp hm).2.2 e' hys e (List.mem_singleton_self e))
  · rw [List.mem_singleton.mp hlast]

/-- A lookup after a removal from a sorted map. -/
theorem get?_erase (hm : Sorted m) {k' : κ} :
    get? k' (erase k m) = if k' = k then none else get? k' m := by
  split_ifs with h
  · subst h
    exact get?_erase_self hm
  · exact get?_erase_ne h

theorem get?_erase_eq_some_iff (hm : Sorted m) {k' : κ} {v' : β} :
    get? k' (erase k m) = some v' ↔ k' ≠ k ∧ get? k' m = some v' := by
  rw [get?_erase hm]
  split_ifs with h
  · exact iff_of_false (by simp) (fun h' => h'.1 h)
  · exact ⟨fun h' => ⟨h, h'⟩, fun h' => h'.2⟩

theorem get?_insert_eq_some_iff {k' : κ} {v' : β} :
    get? k' (insert k v m) = some v' ↔ (k' = k ∧ v = v') ∨ (k' ≠ k ∧ get? k' m = some v') := by
  by_cases h : k' = k
  · subst h
    rw [get?_insert_self, Option.some.injEq]
    exact ⟨fun h' => Or.inl ⟨rfl, h'⟩, fun h' => h'.elim And.right fun h'' => absurd rfl h''.1⟩
  · rw [get?_insert_ne h]
    exact ⟨fun h' => Or.inr ⟨h, h'⟩, fun h' => h'.elim (fun h'' => absurd h''.1 h) And.right⟩

/-- A lookup in the entries of a sorted map whose keys pass a test. -/
theorem get?_filter_key (hm : Sorted m) (q : κ → Bool) :
    get? k (m.filter fun e => q e.1) = if q k then get? k m else none := by
  have hf : Sorted (m.filter fun e => q e.1) := List.Pairwise.sublist List.filter_sublist hm
  split_ifs with hq
  · cases h : get? k m with
    | none =>
      rw [get?_eq_none_iff] at h ⊢
      exact fun e he => h e (List.mem_filter.mp he).1
    | some v =>
      rw [get?_eq_some_iff hm] at h
      exact (get?_eq_some_iff hf).mpr (List.mem_filter.mpr ⟨h, hq⟩)
  · rw [get?_eq_none_iff]
    intro e he hek
    have := (List.mem_filter.mp he).2
    rw [hek] at this
    exact hq this

/-! ## Sums over the values

What a map holds in total, for a measure `f` of its values, changes under an
insert by the new value less the one it replaces, and under a removal by the
value removed. Both are stated additively, so that `omega` can do the accounting.
-/

section Sum

variable (f : β → ℕ)

/-- The sum of `f` over the values of a map. -/
def valueSum (m : List (κ × β)) : ℕ := (m.map fun e => f e.2).sum

omit [LinearOrder κ] in
@[simp] theorem valueSum_nil : valueSum f ([] : List (κ × β)) = 0 := rfl

omit [LinearOrder κ] in
@[simp] theorem valueSum_cons (x : κ × β) (m : List (κ × β)) :
    valueSum f (x :: m) = f x.2 + valueSum f m := by
  simp [valueSum]

/-- The value of a key, measured by `f`, or `0` when the key is absent. -/
def measureAt (k : κ) (m : List (κ × β)) : ℕ := ((get? k m).map f).getD 0

/-- A key below every key of a sorted map is absent from it. -/
theorem get?_of_lt_head {k' : κ} {v' : β} (hm : Sorted ((k', v') :: m)) (hlt : k < k') :
    get? k ((k', v') :: m) = none := by
  rw [get?_eq_none_iff]
  intro e he hek
  rcases List.mem_cons.mp he with rfl | he
  · exact absurd hek (ne_of_gt hlt)
  · exact absurd hek (ne_of_gt (hlt.trans (hm.head_lt e he)))

/-- A removal takes the removed value out of the sum. -/
theorem valueSum_erase (m : List (κ × β)) :
    valueSum f (erase k m) + measureAt f k m = valueSum f m := by
  induction m with
  | nil => simp [erase_nil, measureAt, get?_nil]
  | cons x rest ih =>
    obtain ⟨k', v'⟩ := x
    by_cases h : k = k'
    · simp [erase_cons, measureAt, get?_cons, h, Nat.add_comm]
    · have hrest : measureAt f k ((k', v') :: rest) = measureAt f k rest := by
        simp [measureAt, get?_cons, h]
      simp only [erase_cons, h, if_false, valueSum_cons, hrest]
      omega

/-- An insert into a sorted map puts the new value in the sum in place of the old. -/
theorem valueSum_insert (hm : Sorted m) :
    valueSum f (insert k v m) + measureAt f k m = valueSum f m + f v := by
  induction m with
  | nil => simp [insert_nil, measureAt, get?_nil]
  | cons x rest ih =>
    obtain ⟨k', v'⟩ := x
    simp only [insert_cons]
    split_ifs with hlt heq
    · -- the key is new, below every key of the map
      have habs : measureAt f k ((k', v') :: rest) = 0 := by
        simp [measureAt, get?_of_lt_head hm hlt]
      simp only [habs, valueSum_cons]
      omega
    · -- the key was present: its value is replaced
      subst heq
      simp [measureAt, get?_cons]
      omega
    · have hrest : measureAt f k ((k', v') :: rest) = measureAt f k rest := by
        simp [measureAt, get?_cons, heq]
      have := ih hm.tail
      simp only [valueSum_cons, hrest]
      omega

end Sum

end Dijets.Lib.SortedMap
