import Dijets.Mempool.Index
import Mathlib.Data.List.Perm.Basic
import Mathlib.Algebra.Order.BigOperators.Group.List
import Mathlib.Algebra.Order.Group.Nat
import Mathlib.Data.Finset.Card

/-!
# The parking lot's representation invariant

`ParkingLotIndex` keeps the parked transactions of the mempool as a vector of accounts, each
with the set of its parked sequence numbers, a map from each account to its place in the
vector, and a count. The source states two of its invariants in a comment: every set in the
vector is non-empty, and the map sends each account to its entry. `remove` keeps them with
`Vec::swap_remove`, which moves the last entry into the place it empties, and then has to
re-point the moved account.

`Inv` is the invariant with the count: every set non-empty (and sorted, as a `BTreeSet`
keeps it), the map sending `a` to `i` exactly when entry `i` is `a`'s, and the count the
number of sequence numbers in the vector. `insert` and `remove` keep it from any state that
holds it (`Inv.insert`, `Inv.remove`). Under it, the index is a map from accounts to sets
of sequence numbers (`entryOf`), which `insert` and `remove` update at one account
(`entryOf_insert`, `entryOf_remove`), and what it is for is the set of parked pairs:
`contains` and `size` read that set, and `get_poppable` returns the greatest sequence number
of some account whenever it is not empty.

## Main definitions

* `ParkingLotIndex.Inv` — the representation invariant.
* `ParkingLotIndex.entryOf` — the sequence numbers the index keeps for an account.
* `ParkingLotOp`, `ParkingLotOp.run`, `ParkingLotOp.parked` — runs of `insert` and `remove`,
  and the parked pairs they leave.

## Main results

* `parkingLot_representation` — after every run, the invariant holds, `contains` is
  membership in the parked pairs, `size` is their number, and `get_poppable` returns the
  greatest parked sequence number of an account when there is one.
-/

set_option autoImplicit false

namespace Dijets.Mempool

open Dijets.Lib

/-! ## `Vec::swap_remove` -/

section SwapRemove

variable {α : Type} {l : List α} {i : ℕ}

theorem swapRemove_eq (l : List α) (i : ℕ) :
    swapRemove l i =
      match l.getLast? with
      | some last => if i + 1 < l.length then (l.set i last).dropLast else l.dropLast
      | none => l := rfl

/-- After `swap_remove(i)`, place `i` holds the last element, unless it was the last place;
every other place below the new length keeps its element. -/
theorem getElem?_swapRemove (hi : i < l.length) (j : ℕ) :
    (swapRemove l i)[j]? = if j + 1 < l.length then (if j = i then l[l.length - 1]? else l[j]?) else none := by
  have hlast : l.getLast? = some l[l.length - 1] := by
    rw [List.getLast?_eq_getElem?, List.getElem?_eq_getElem (by omega)]
  rw [swapRemove_eq, hlast]
  dsimp only
  split
  · -- an inner place: the last element is written there, then the last place dropped
    rw [List.getElem?_dropLast, List.length_set, List.getElem?_set]
    by_cases hj : j + 1 < l.length
    · rw [if_pos (by omega), if_pos hj]
      by_cases hji : j = i
      · subst hji
        rw [if_pos rfl, if_pos hi, if_pos rfl, List.getElem?_eq_getElem (by omega)]
      · rw [if_neg (Ne.symm hji), if_neg hji]
    · rw [if_neg (by omega), if_neg hj]
  · -- the last place: it is dropped
    rw [List.getElem?_dropLast]
    by_cases hj : j + 1 < l.length
    · rw [if_pos (by omega), if_pos hj, if_neg (by omega)]
    · rw [if_neg (by omega), if_neg hj]

theorem length_swapRemove (hi : i < l.length) : (swapRemove l i).length = l.length - 1 := by
  have hlast : l.getLast? = some l[l.length - 1] := by
    rw [List.getLast?_eq_getElem?, List.getElem?_eq_getElem (by omega)]
  rw [swapRemove_eq, hlast]
  dsimp only
  split <;> simp

/-- `swap_remove(i)` is a removal of place `i`, up to the order of the rest. -/
theorem swapRemove_perm (hi : i < l.length) : (swapRemove l i).Perm (l.eraseIdx i) := by
  obtain ⟨ys, last, rfl⟩ : ∃ ys last, l = ys ++ [last] :=
    ⟨l.dropLast, l.getLast (List.ne_nil_of_length_pos (by omega)), (List.dropLast_append_getLast _).symm⟩
  have hsr : ys ++ [last] ≠ [] := List.append_ne_nil_of_right_ne_nil _ (List.cons_ne_nil _ _)
  rw [swapRemove_eq, List.getLast?_append, List.getLast?_singleton, Option.some_or]
  dsimp only
  rw [List.length_append, List.length_singleton] at hi ⊢
  split
  · rename_i hlt
    have hys : i < ys.length := by omega
    rw [List.set_append_left _ _ hys, List.dropLast_append_of_ne_nil (List.cons_ne_nil _ _),
      List.dropLast_singleton, List.append_nil, List.eraseIdx_append_of_lt_length hys]
    exact (List.set_perm_cons_eraseIdx hys last).trans (List.perm_append_singleton _ _).symm
  · rename_i hge
    have hys : i = ys.length := by omega
    subst hys
    rw [List.dropLast_concat, List.eraseIdx_append_of_length_le (Nat.le_refl _), Nat.sub_self,
      List.eraseIdx_cons_zero, List.append_nil]

end SwapRemove

/-- A sum over a list in which one element is replaced. -/
theorem sum_map_set {α : Type} (f : α → ℕ) {l : List α} {i : ℕ} {y : α} (h : l[i]? = some y) (x : α) :
    ((l.set i x).map f).sum + f y = (l.map f).sum + f x := by
  have hi : i < l.length := (List.getElem?_eq_some_iff.mp h).1
  have hy : l[i] = y := (List.getElem?_eq_some_iff.mp h).2
  have hset := (List.set_perm_cons_eraseIdx hi x).map f
  have hl := ((List.getElem_cons_eraseIdx_perm hi).map f).symm
  rw [hset.sum_eq, hl.sum_eq, List.map_cons, List.map_cons, List.sum_cons, List.sum_cons, hy]
  omega

namespace ParkingLotIndex

/-! ## The invariant -/

/-- The number of sequence numbers the vector holds. -/
def total (data : List (AccountAddress × List (ℕ × Unit))) : ℕ := (data.map fun e => e.2.length).sum

theorem total_eq (data : List (AccountAddress × List (ℕ × Unit))) :
    total data = (data.map fun e => e.2.length).sum := rfl

/-- The invariant of `ParkingLotIndex`: the source's two (every set non-empty, and the map of
accounts to their places), the sets sorted as a `BTreeSet` keeps them, and the count. -/
structure Inv (p : ParkingLotIndex) : Prop where
  sorted : ∀ e ∈ p.data, SortedMap.Sorted e.2
  ne_nil : ∀ e ∈ p.data, e.2 ≠ []
  indicesSorted : SortedMap.Sorted p.accountIndices
  index_iff : ∀ a i, SortedMap.get? a p.accountIndices = some i ↔ (p.data[i]?).map Prod.fst = some a
  size_eq : p.size = total p.data

theorem inv_new : new.Inv :=
  ⟨fun _ h => absurd h List.not_mem_nil, fun _ h => absurd h List.not_mem_nil, SortedMap.sorted_nil,
    fun a i => by simp [new, SortedMap.get?_nil], rfl⟩

variable {p : ParkingLotIndex}

/-- No account has two places: the map sends it to each. -/
theorem Inv.eq_of_account (h : p.Inv) {i j : ℕ} {a : AccountAddress}
    (hi : (p.data[i]?).map Prod.fst = some a) (hj : (p.data[j]?).map Prod.fst = some a) : i = j := by
  have hi' := (h.index_iff a i).mpr hi
  rw [(h.index_iff a j).mpr hj, Option.some.injEq] at hi'
  exact hi'.symm

theorem Inv.nodup (h : p.Inv) : (p.data.map Prod.fst).Nodup := by
  rw [List.nodup_iff_injective_getElem]
  intro i j hij
  have hij' : (p.data.map Prod.fst)[i] = (p.data.map Prod.fst)[j] := hij
  have hi : (p.data[i.1]?).map Prod.fst = some (p.data.map Prod.fst)[i] := by
    rw [List.getElem?_eq_getElem (by simpa using i.2)]
    simp
  have hj : (p.data[j.1]?).map Prod.fst = some (p.data.map Prod.fst)[i] := by
    rw [hij', List.getElem?_eq_getElem (by simpa using j.2)]
    simp
  exact Fin.ext (h.eq_of_account hi hj)

/-- The sequence numbers the index keeps for an account: the set of the entry the map
points it to. -/
def entryOf (p : ParkingLotIndex) (a : AccountAddress) : Option (List (ℕ × Unit)) :=
  (SortedMap.get? a p.accountIndices).bind fun i => (p.data[i]?).map Prod.snd

theorem entryOf_eq (a : AccountAddress) :
    p.entryOf a = (SortedMap.get? a p.accountIndices).bind fun i => (p.data[i]?).map Prod.snd := rfl

/-- `contains` looks the sequence number up in the account's set. -/
theorem contains_eq (a : AccountAddress) (s : ℕ) :
    p.contains a s = ((p.entryOf a).map fun txns => (SortedMap.get? s txns).isSome).getD false := by
  rw [entryOf_eq]
  unfold contains
  cases SortedMap.get? a p.accountIndices with
  | none => rfl
  | some i =>
    simp only [Option.bind_some]
    cases p.data[i]? with
    | none => rfl
    | some e => rfl

/-- Under the invariant, the map points an account to an entry that is the account's. -/
theorem Inv.get?_data (h : p.Inv) {a : AccountAddress} {i : ℕ}
    (hi : SortedMap.get? a p.accountIndices = some i) : ∃ txns, p.data[i]? = some (a, txns) := by
  have ha := (h.index_iff a i).mp hi
  cases hd : p.data[i]? with
  | none => rw [hd] at ha; cases ha
  | some e =>
    rw [hd, Option.map_some, Option.some.injEq] at ha
    exact ⟨e.2, by rw [← ha]⟩

/-- A place whose entry keeps its account keeps the account of every place. -/
theorem map_fst_set {l : List (AccountAddress × List (ℕ × Unit))} {i : ℕ} {a : AccountAddress}
    (hi : (l[i]?).map Prod.fst = some a) (y : List (ℕ × Unit)) (j : ℕ) :
    ((l.set i (a, y))[j]?).map Prod.fst = (l[j]?).map Prod.fst := by
  rw [List.getElem?_set]
  split
  · rename_i hij
    subst hij
    have hlt : i < l.length := by
      by_contra hge
      rw [List.getElem?_eq_none (by omega)] at hi
      cases hi
    rw [if_pos hlt, hi, Option.map_some]
  · rfl

/-- Replacing the set of one entry keeps the invariant, when the new set is sorted and not
empty and the count moves by what the set gained or lost. -/
theorem Inv.set (h : p.Inv) {i : ℕ} {a : AccountAddress} {txns txns' : List (ℕ × Unit)}
    (hd : p.data[i]? = some (a, txns)) (hs : SortedMap.Sorted txns') (hne : txns' ≠ []) {size' : ℕ}
    (hsize : size' + txns.length = p.size + txns'.length) :
    ({ p with data := p.data.set i (a, txns'), size := size' } : ParkingLotIndex).Inv where
  sorted e he := by
    rcases List.mem_or_eq_of_mem_set he with he | rfl
    · exact h.sorted e he
    · exact hs
  ne_nil e he := by
    rcases List.mem_or_eq_of_mem_set he with he | rfl
    · exact h.ne_nil e he
    · exact hne
  indicesSorted := h.indicesSorted
  index_iff c j := by
    rw [map_fst_set (by rw [hd]; rfl) txns' j]
    exact h.index_iff c j
  size_eq := by
    have hsum := sum_map_set (fun e : AccountAddress × List (ℕ × Unit) => e.2.length) hd (a, txns')
    have htotal := h.size_eq
    rw [total_eq] at htotal ⊢
    dsimp only at hsum ⊢
    omega

/-- A new account's entry after the last keeps the invariant. -/
theorem Inv.push (h : p.Inv) {a : AccountAddress} (ha : SortedMap.get? a p.accountIndices = none) (s : ℕ) :
    ({ data := p.data ++ [(a, [(s, ())])], accountIndices := SortedMap.insert a p.data.length p.accountIndices,
       size := p.size + 1 } : ParkingLotIndex).Inv where
  sorted e he := by
    rcases List.mem_append.mp he with he | he
    · exact h.sorted e he
    · rw [List.mem_singleton.mp he]
      exact List.pairwise_singleton _ _
  ne_nil e he := by
    rcases List.mem_append.mp he with he | he
    · exact h.ne_nil e he
    · rw [List.mem_singleton.mp he]
      exact List.cons_ne_nil _ _
  indicesSorted := SortedMap.sorted_insert h.indicesSorted
  index_iff c j := by
    -- the places below the old length keep their accounts; the new one is `a`'s
    have hold : ∀ c, (p.data[j]?).map Prod.fst = some c → j < p.data.length := fun c hc => by
      by_contra hge
      rw [List.getElem?_eq_none (by omega)] at hc
      cases hc
    rw [List.getElem?_append]
    by_cases hc : c = a
    · subst hc
      rw [SortedMap.get?_insert_self, Option.some.injEq]
      have hnot : (p.data[j]?).map Prod.fst ≠ some c := fun hj => by
        rw [← h.index_iff, ha] at hj
        cases hj
      split
      · exact ⟨fun hj => by omega, fun hj => absurd hj hnot⟩
      · rename_i hge
        rw [List.getElem?_singleton]
        constructor
        · intro hj
          rw [if_pos (by omega)]
          rfl
        · intro hj
          split at hj
          · omega
          · cases hj
    · rw [SortedMap.get?_insert_ne hc, h.index_iff]
      split
      · rfl
      · rename_i hge
        rw [List.getElem?_singleton]
        constructor
        · intro hj
          exact absurd (hold c hj) hge
        · intro hj
          split at hj
          · simp only [Option.map_some, Option.some.injEq] at hj
            exact absurd hj.symm hc
          · cases hj
  size_eq := by
    rw [h.size_eq]
    simp [total_eq]

/-- A set in the vector holds at most the count. -/
theorem Inv.length_le_size (h : p.Inv) {i : ℕ} {a : AccountAddress} {txns : List (ℕ × Unit)}
    (hd : p.data[i]? = some (a, txns)) : txns.length ≤ p.size := by
  rw [h.size_eq, total]
  exact List.le_sum_of_mem (List.mem_map.mpr ⟨(a, txns), List.mem_of_getElem? hd, rfl⟩)

/-- The accounts of the places after `swap_remove(i)`. -/
theorem map_fst_swapRemove {l : List (AccountAddress × List (ℕ × Unit))} {i : ℕ} (hi : i < l.length) (j : ℕ) :
    ((swapRemove l i)[j]?).map Prod.fst =
      if j + 1 < l.length then (if j = i then (l[l.length - 1]?).map Prod.fst else (l[j]?).map Prod.fst)
      else none := by
  rw [getElem?_swapRemove hi]
  split_ifs <;> rfl

/-- Taking out the entry of place `i` with `swap_remove`, and re-pointing the account moved
into it, keeps the invariant, when the count drops by the entry's set. -/
theorem Inv.removeEntry (h : p.Inv) {i : ℕ} {a : AccountAddress} {txns : List (ℕ × Unit)}
    (hd : p.data[i]? = some (a, txns)) {size' : ℕ} (hsize : size' + txns.length = p.size) :
    ({ data := swapRemove p.data i,
       accountIndices := match (swapRemove p.data i)[i]? with
         | some (swappedAccount, _) => SortedMap.insert swappedAccount i (SortedMap.erase a p.accountIndices)
         | none => SortedMap.erase a p.accountIndices,
       size := size' } : ParkingLotIndex).Inv := by
  have hi : i < p.data.length := (List.getElem?_eq_some_iff.mp hd).1
  have hmem : ∀ e ∈ swapRemove p.data i, e ∈ p.data := fun e he =>
    List.mem_of_mem_eraseIdx ((swapRemove_perm hi).mem_iff.mp he)
  have hai : (p.data[i]?).map Prod.fst = some a := by rw [hd]; rfl
  have hplace : ∀ c j, (p.data[j]?).map Prod.fst = some c → j < p.data.length := fun c j hc => by
    by_contra hge
    rw [List.getElem?_eq_none (by omega)] at hc
    cases hc
  have herase := SortedMap.sorted_erase (k := a) h.indicesSorted
  refine ⟨fun e he => h.sorted e (hmem e he), fun e he => h.ne_nil e (hmem e he), ?_, ?_, ?_⟩
  · dsimp only
    split
    · exact SortedMap.sorted_insert herase
    · exact herase
  · intro c j
    dsimp only
    rw [getElem?_swapRemove hi i, map_fst_swapRemove hi j]
    by_cases hlast : i + 1 < p.data.length
    · -- the last entry, another account's, moves into place `i`
      rw [if_pos hlast, if_pos rfl]
      obtain ⟨b, tb, hdb⟩ : ∃ b tb, p.data[p.data.length - 1]? = some (b, tb) := by
        rw [List.getElem?_eq_getElem (by omega)]
        exact ⟨_, _, rfl⟩
      have hbl : (p.data[p.data.length - 1]?).map Prod.fst = some b := by rw [hdb]; rfl
      have hba : b ≠ a := fun hba => by
        rw [hba] at hbl
        have := h.eq_of_account hai hbl
        omega
      rw [hdb]
      dsimp only [Option.map_some]
      by_cases hcb : c = b
      · subst hcb
        rw [SortedMap.get?_insert_self, Option.some.injEq]
        constructor
        · rintro rfl
          rw [if_pos hlast, if_pos rfl]
        · intro hj
          split at hj
          · split at hj
            · exact (by assumption : j = i).symm
            · have := h.eq_of_account hj hbl
              omega
          · cases hj
      · rw [SortedMap.get?_insert_ne hcb, SortedMap.get?_erase h.indicesSorted]
        by_cases hca : c = a
        · subst hca
          rw [if_pos rfl]
          refine ⟨fun hj => absurd hj (by simp), fun hj => ?_⟩
          split at hj
          · split at hj
            · exact absurd (Option.some.inj hj) hba
            · rename_i hji
              exact absurd (h.eq_of_account hj hai) hji
          · cases hj
        · rw [if_neg hca, h.index_iff]
          constructor
          · intro hj
            have hji : j ≠ i := fun hji => hca (Option.some.inj (hj.symm.trans (hji ▸ hai)))
            have hjl : j + 1 < p.data.length := by
              have := hplace c j hj
              have hjn : j ≠ p.data.length - 1 := fun hjn => hcb (Option.some.inj (hj.symm.trans (hjn ▸ hbl)))
              omega
            rw [if_pos hjl, if_neg hji]
            exact hj
          · intro hj
            split at hj
            · split at hj
              · exact absurd (Option.some.inj hj).symm hcb
              · exact hj
            · cases hj
    · -- the last entry is the one taken out: nothing moves
      rw [if_neg hlast]
      rw [SortedMap.get?_erase h.indicesSorted]
      by_cases hca : c = a
      · subst hca
        rw [if_pos rfl]
        refine ⟨fun hj => absurd hj (by simp), fun hj => ?_⟩
        split at hj
        · split at hj
          · omega
          · rename_i hji
            exact absurd (h.eq_of_account hj hai) hji
        · cases hj
      · rw [if_neg hca, h.index_iff]
        constructor
        · intro hj
          have hji : j ≠ i := fun hji => hca (Option.some.inj (hj.symm.trans (hji ▸ hai)))
          have hjl : j + 1 < p.data.length := by
            have := hplace c j hj
            omega
          rw [if_pos hjl, if_neg hji]
          exact hj
        · intro hj
          split at hj
          · split at hj
            · omega
            · exact hj
          · cases hj
  · -- the count: the entry's set leaves the vector
    have hperm := ((swapRemove_perm hi).map fun e : AccountAddress × List (ℕ × Unit) => e.2.length).sum_eq
    have hall := ((List.getElem_cons_eraseIdx_perm hi).map fun e : AccountAddress × List (ℕ × Unit) =>
      e.2.length).sum_eq
    have hdi : p.data[i] = (a, txns) := (List.getElem?_eq_some_iff.mp hd).2
    rw [List.map_cons, List.sum_cons, hdi] at hall
    have htotal := h.size_eq
    rw [total_eq] at htotal ⊢
    dsimp only at hperm hall ⊢
    omega

/-! ## The accounts' sets -/

/-- Under the invariant, an account's set is the set of its entry in the vector. -/
theorem Inv.entryOf_eq_some_iff (h : p.Inv) {c : AccountAddress} {t : List (ℕ × Unit)} :
    p.entryOf c = some t ↔ (c, t) ∈ p.data := by
  rw [entryOf_eq]
  constructor
  · intro he
    obtain ⟨i, hi, hb⟩ := Option.bind_eq_some_iff.mp he
    obtain ⟨txns, hd⟩ := h.get?_data hi
    rw [hd, Option.map_some, Option.some.injEq] at hb
    rw [← hb]
    exact List.mem_of_getElem? hd
  · intro hm
    obtain ⟨i, hd⟩ := List.mem_iff_getElem?.mp hm
    rw [(h.index_iff c i).mpr (by rw [hd]; rfl), Option.bind_some, hd, Option.map_some]

theorem Inv.sorted_of_entryOf (h : p.Inv) {c : AccountAddress} {t : List (ℕ × Unit)}
    (he : p.entryOf c = some t) : SortedMap.Sorted t :=
  h.sorted _ (h.entryOf_eq_some_iff.mp he)

/-- Rewriting the set of the place an account is mapped to changes that account's set only. -/
theorem entryOf_set (h : p.Inv) {i : ℕ} {a : AccountAddress}
    (hi : SortedMap.get? a p.accountIndices = some i) (txns' : List (ℕ × Unit)) (size' : ℕ)
    (c : AccountAddress) :
    ({ p with data := p.data.set i (a, txns'), size := size' } : ParkingLotIndex).entryOf c =
      if c = a then some txns' else p.entryOf c := by
  obtain ⟨txns, hd⟩ := h.get?_data hi
  have hlt : i < p.data.length := (List.getElem?_eq_some_iff.mp hd).1
  rw [entryOf_eq, entryOf_eq]
  dsimp only
  split
  · rename_i hc
    subst hc
    rw [hi, Option.bind_some, List.getElem?_set_self hlt, Option.map_some]
  · rename_i hc
    -- another account's place is another place
    cases hj : SortedMap.get? c p.accountIndices with
    | none => rfl
    | some j =>
      have hji : i ≠ j := fun hij => by
        subst hij
        exact hc (Option.some.inj (((h.index_iff c i).mp hj).symm.trans ((h.index_iff _ i).mp hi)))
      rw [Option.bind_some, Option.bind_some, List.getElem?_set_ne hji]

/-- A new account's entry after the last gives that account its set, and no other account a
new one. -/
theorem entryOf_push (h : p.Inv) {a : AccountAddress} (t : List (ℕ × Unit)) (size' : ℕ) (c : AccountAddress) :
    ({ data := p.data ++ [(a, t)], accountIndices := SortedMap.insert a p.data.length p.accountIndices,
       size := size' } : ParkingLotIndex).entryOf c = if c = a then some t else p.entryOf c := by
  rw [entryOf_eq, entryOf_eq]
  dsimp only
  split
  · rename_i hc
    subst hc
    rw [SortedMap.get?_insert_self, Option.bind_some, List.getElem?_append_right (Nat.le_refl _),
      Nat.sub_self, List.getElem?_singleton, if_pos rfl, Option.map_some]
  · rename_i hc
    rw [SortedMap.get?_insert_ne hc]
    cases hj : SortedMap.get? c p.accountIndices with
    | none => rfl
    | some j =>
      obtain ⟨txns, hd⟩ := h.get?_data hj
      rw [Option.bind_some, Option.bind_some, List.getElem?_append_left (List.getElem?_eq_some_iff.mp hd).1]

/-- Under the invariant, the entries of the places other than `i` are those of the accounts
other than the one at `i`. -/
theorem Inv.mem_eraseIdx_iff (h : p.Inv) {i : ℕ} {a : AccountAddress} {txns : List (ℕ × Unit)}
    (hd : p.data[i]? = some (a, txns)) {c : AccountAddress} {t : List (ℕ × Unit)} :
    (c, t) ∈ p.data.eraseIdx i ↔ (c, t) ∈ p.data ∧ c ≠ a := by
  rw [List.mem_eraseIdx_iff_getElem?]
  constructor
  · rintro ⟨j, hji, hj⟩
    refine ⟨List.mem_of_getElem? hj, fun hca => hji (h.eq_of_account (a := a) ?_ ?_)⟩
    · rw [hj, hca, Option.map_some]
    · rw [hd, Option.map_some]
  · rintro ⟨hm, hca⟩
    obtain ⟨j, hj⟩ := List.mem_iff_getElem?.mp hm
    refine ⟨j, fun hji => hca ?_, hj⟩
    rw [hji, hd, Option.some.injEq, Prod.mk.injEq] at hj
    exact hj.1.symm

/-- Taking out the entry of place `i` as `remove` does leaves its account without a set, and
every other account's set as it was: the moved entry is found at its new place. -/
theorem entryOf_removeEntry (h : p.Inv) {i : ℕ} {a : AccountAddress} {txns : List (ℕ × Unit)}
    (hd : p.data[i]? = some (a, txns)) {size' : ℕ} (hsize : size' + txns.length = p.size)
    (c : AccountAddress) :
    ({ data := swapRemove p.data i,
       accountIndices := match (swapRemove p.data i)[i]? with
         | some (swappedAccount, _) => SortedMap.insert swappedAccount i (SortedMap.erase a p.accountIndices)
         | none => SortedMap.erase a p.accountIndices,
       size := size' } : ParkingLotIndex).entryOf c = if c = a then none else p.entryOf c := by
  have hi : i < p.data.length := (List.getElem?_eq_some_iff.mp hd).1
  -- both sides are read through the entries of the vector, which `swap_remove` permutes
  apply Option.ext
  intro t
  rw [(h.removeEntry hd hsize).entryOf_eq_some_iff, (swapRemove_perm hi).mem_iff, h.mem_eraseIdx_iff hd]
  split
  · rename_i hc
    exact iff_of_false (fun hm => hm.2 hc) (by simp)
  · rename_i hc
    rw [h.entryOf_eq_some_iff]
    exact and_iff_left hc

/-! ## `insert` -/

section Insert

variable (txn : MempoolTransaction)

/-- `insert` for an account that has a place: its set gains the sequence number, and the
count grows if the number is new. -/
theorem insert_of_get?_some {i : ℕ} {account : AccountAddress} {seqNums : List (ℕ × Unit)}
    (hi : SortedMap.get? txn.txn.sender p.accountIndices = some i) (hd : p.data[i]? = some (account, seqNums)) :
    p.insert txn =
      { p with data := p.data.set i (account, SortedMap.insert txn.txn.sequenceNumber () seqNums),
               size := if (SortedMap.get? txn.txn.sequenceNumber seqNums).isNone then p.size + 1 else p.size } := by
  unfold insert
  dsimp only
  rw [hi]
  dsimp only
  rw [hd]

/-- `insert` for an account without a place: it gets the place after the last. -/
theorem insert_of_get?_none (hi : SortedMap.get? txn.txn.sender p.accountIndices = none) :
    p.insert txn =
      { data := p.data ++ [(txn.txn.sender, [(txn.txn.sequenceNumber, ())])],
        accountIndices := SortedMap.insert txn.txn.sender p.data.length p.accountIndices,
        size := p.size + 1 } := by
  unfold insert
  dsimp only
  rw [hi]
  simp only [List.length_append, List.length_singleton, Nat.add_sub_cancel]

/-- **`insert` keeps the invariant.** The branch that logs a broken invariant is never taken
from a state that holds it. -/
theorem Inv.insert (h : p.Inv) : (p.insert txn).Inv := by
  cases hi : SortedMap.get? txn.txn.sender p.accountIndices with
  | some i =>
    obtain ⟨txns, hd⟩ := h.get?_data hi
    have hs := h.sorted _ (List.mem_of_getElem? hd)
    rw [insert_of_get?_some txn hi hd]
    refine h.set hd (SortedMap.sorted_insert hs) SortedMap.insert_ne_nil ?_
    cases hget : SortedMap.get? txn.txn.sequenceNumber txns with
    | none =>
      rw [SortedMap.length_insert_of_get?_eq_none hget, Option.isNone_none, if_pos rfl]
      omega
    | some u =>
      rw [SortedMap.length_insert_of_get?_eq_some hs hget]
      simp
  | none =>
    rw [insert_of_get?_none txn hi]
    exact h.push hi _

/-- After `insert`, the account's set holds the sequence number, and every other account's
set is as it was. -/
theorem entryOf_insert (h : p.Inv) (c : AccountAddress) :
    (p.insert txn).entryOf c =
      if c = txn.txn.sender then
        some (SortedMap.insert txn.txn.sequenceNumber () ((p.entryOf txn.txn.sender).getD []))
      else p.entryOf c := by
  cases hi : SortedMap.get? txn.txn.sender p.accountIndices with
  | some i =>
    obtain ⟨txns, hd⟩ := h.get?_data hi
    have hown : p.entryOf txn.txn.sender = some txns := by
      rw [entryOf_eq, hi, Option.bind_some, hd, Option.map_some]
    rw [insert_of_get?_some txn hi hd, hown, Option.getD_some]
    exact entryOf_set h hi _ _ c
  | none =>
    have hown : p.entryOf txn.txn.sender = none := by
      rw [entryOf_eq, hi, Option.bind_none]
    rw [insert_of_get?_none txn hi, hown, Option.getD_none]
    exact entryOf_push h _ _ c

end Insert

/-! ## `remove` -/

section Remove

variable (txn : MempoolTransaction)

/-- `remove` for an account without a place leaves the index as it is. -/
theorem remove_of_get?_none (hi : SortedMap.get? txn.txn.sender p.accountIndices = none) :
    p.remove txn = p := by
  unfold remove
  dsimp only
  rw [hi]

/-- `remove` from an account whose set keeps other numbers: the set loses the number, and the
count drops if the number was there. -/
theorem remove_of_ne_nil {i : ℕ} {account : AccountAddress} {txns : List (ℕ × Unit)}
    (hi : SortedMap.get? txn.txn.sender p.accountIndices = some i) (hd : p.data[i]? = some (account, txns))
    (hne : SortedMap.erase txn.txn.sequenceNumber txns ≠ []) :
    p.remove txn =
      { p with data := p.data.set i (account, SortedMap.erase txn.txn.sequenceNumber txns),
               size := if (SortedMap.get? txn.txn.sequenceNumber txns).isSome then p.size - 1 else p.size } := by
  unfold remove
  dsimp only
  rw [hi]
  dsimp only
  rw [hd]
  dsimp only
  rw [if_neg fun hempty => hne (List.isEmpty_iff.mp hempty)]

/-- `remove` of the last number of an account: its entry leaves the vector by `swap_remove`,
and the account moved into its place is mapped there. -/
theorem remove_of_eq_nil {i : ℕ} {account : AccountAddress} {txns : List (ℕ × Unit)}
    (hi : SortedMap.get? txn.txn.sender p.accountIndices = some i) (hd : p.data[i]? = some (account, txns))
    (hnil : SortedMap.erase txn.txn.sequenceNumber txns = []) :
    p.remove txn =
      { data := swapRemove p.data i,
        accountIndices := match (swapRemove p.data i)[i]? with
          | some (swappedAccount, _) =>
            SortedMap.insert swappedAccount i (SortedMap.erase txn.txn.sender p.accountIndices)
          | none => SortedMap.erase txn.txn.sender p.accountIndices,
        size := if (SortedMap.get? txn.txn.sequenceNumber txns).isSome then p.size - 1 else p.size } := by
  unfold remove
  dsimp only
  rw [hi]
  dsimp only
  rw [hd]
  dsimp only
  rw [hnil, List.isEmpty_nil]
  exact if_pos rfl

/-- A set loses the number if it held it, and its length drops by as much. -/
theorem length_erase_add (txns : List (ℕ × Unit)) (s : ℕ) :
    (SortedMap.erase s txns).length + (if (SortedMap.get? s txns).isSome then 1 else 0) = txns.length := by
  cases hget : SortedMap.get? s txns with
  | none =>
    rw [SortedMap.erase_of_get?_eq_none hget]
    rfl
  | some u => exact SortedMap.length_erase_of_mem (SortedMap.mem_keys_of_get? hget)

/-- The count `remove` leaves, against the set it empties. -/
theorem Inv.size_remove_of_eq_nil (h : p.Inv) {i : ℕ} {a : AccountAddress} {txns : List (ℕ × Unit)}
    (hd : p.data[i]? = some (a, txns)) {s : ℕ} (hnil : SortedMap.erase s txns = []) :
    (if (SortedMap.get? s txns).isSome then p.size - 1 else p.size) + txns.length = p.size := by
  have hmem := List.mem_of_getElem? hd
  have hlen := length_erase_add txns s
  have hle := h.length_le_size hd
  rw [hnil, List.length_nil, Nat.zero_add] at hlen
  split_ifs at hlen ⊢
  · omega
  · exact absurd (List.length_eq_zero_iff.mp hlen.symm) (h.ne_nil _ hmem)

/-- The count `remove` leaves, against the set it shrinks. -/
theorem Inv.size_remove_of_ne_nil (h : p.Inv) {i : ℕ} {a : AccountAddress} {txns : List (ℕ × Unit)}
    (hd : p.data[i]? = some (a, txns)) (s : ℕ) :
    (if (SortedMap.get? s txns).isSome then p.size - 1 else p.size) + txns.length =
      p.size + (SortedMap.erase s txns).length := by
  have hlen := length_erase_add txns s
  have hle := h.length_le_size hd
  split_ifs at hlen ⊢ <;> omega

/-- **`remove` keeps the invariant**, in both of its branches: the set that keeps other
numbers is rewritten in place, and the emptied one leaves by `swap_remove`. -/
theorem Inv.remove (h : p.Inv) : (p.remove txn).Inv := by
  cases hi : SortedMap.get? txn.txn.sender p.accountIndices with
  | none =>
    rw [remove_of_get?_none txn hi]
    exact h
  | some i =>
    obtain ⟨txns, hd⟩ := h.get?_data hi
    by_cases hnil : SortedMap.erase txn.txn.sequenceNumber txns = []
    · rw [remove_of_eq_nil txn hi hd hnil]
      exact h.removeEntry hd (h.size_remove_of_eq_nil hd hnil)
    · rw [remove_of_ne_nil txn hi hd hnil]
      have hs := h.sorted _ (List.mem_of_getElem? hd)
      exact h.set hd (SortedMap.sorted_erase hs) hnil (h.size_remove_of_ne_nil hd _)

/-- After `remove`, the account's set has lost the sequence number, and is gone if it held
nothing else; every other account's set is as it was. -/
theorem entryOf_remove (h : p.Inv) (c : AccountAddress) :
    (p.remove txn).entryOf c =
      if c = txn.txn.sender then
        (p.entryOf txn.txn.sender).bind fun txns =>
          if SortedMap.erase txn.txn.sequenceNumber txns = [] then none
          else some (SortedMap.erase txn.txn.sequenceNumber txns)
      else p.entryOf c := by
  cases hi : SortedMap.get? txn.txn.sender p.accountIndices with
  | none =>
    have hown : p.entryOf txn.txn.sender = none := by
      rw [entryOf_eq, hi, Option.bind_none]
    rw [remove_of_get?_none txn hi, hown, Option.bind_none]
    split
    · rename_i hc
      rw [hc, hown]
    · rfl
  | some i =>
    obtain ⟨txns, hd⟩ := h.get?_data hi
    have hown : p.entryOf txn.txn.sender = some txns := by
      rw [entryOf_eq, hi, Option.bind_some, hd, Option.map_some]
    rw [hown, Option.bind_some]
    by_cases hnil : SortedMap.erase txn.txn.sequenceNumber txns = []
    · rw [remove_of_eq_nil txn hi hd hnil, if_pos hnil]
      exact entryOf_removeEntry h hd (h.size_remove_of_eq_nil hd hnil) c
    · rw [remove_of_ne_nil txn hi hd hnil, if_neg hnil]
      exact entryOf_set h hi _ _ c

end Remove

/-! ## What `contains`, `size` and `get_poppable` read -/

section Read

variable (txn : MempoolTransaction)

/-- `contains` of an account whose set is known. -/
theorem contains_of_entryOf {a : AccountAddress} {txns : List (ℕ × Unit)} (he : p.entryOf a = some txns)
    (s : ℕ) : p.contains a s = (SortedMap.get? s txns).isSome := by
  rw [contains_eq, he]
  rfl

theorem contains_of_entryOf_none {a : AccountAddress} (he : p.entryOf a = none) (s : ℕ) :
    p.contains a s = false := by
  rw [contains_eq, he]
  rfl

/-- After `insert`, `contains` holds of the inserted pair and of the pairs it held before. -/
theorem contains_insert (h : p.Inv) (c : AccountAddress) (s : ℕ) :
    (p.insert txn).contains c s = (decide (c = txn.txn.sender ∧ s = txn.txn.sequenceNumber) || p.contains c s) := by
  rw [contains_eq, entryOf_insert txn h c]
  by_cases hc : c = txn.txn.sender
  · subst hc
    rw [if_pos rfl, Option.map_some, Option.getD_some]
    by_cases hs : s = txn.txn.sequenceNumber
    · subst hs
      rw [SortedMap.get?_insert_self]
      simp
    · rw [SortedMap.get?_insert_ne hs]
      cases he : p.entryOf txn.txn.sender with
      | none => simp [contains_of_entryOf_none he, SortedMap.get?_nil, hs]
      | some txns => simp [contains_of_entryOf he, hs]
  · rw [if_neg hc, ← contains_eq]
    simp [hc]

/-- After `remove`, `contains` holds of the pairs it held before but the removed one. -/
theorem contains_remove (h : p.Inv) (c : AccountAddress) (s : ℕ) :
    (p.remove txn).contains c s = (!decide (c = txn.txn.sender ∧ s = txn.txn.sequenceNumber) && p.contains c s) := by
  rw [contains_eq, entryOf_remove txn h c]
  by_cases hc : c = txn.txn.sender
  · subst hc
    rw [if_pos rfl]
    cases he : p.entryOf txn.txn.sender with
    | none => simp [contains_of_entryOf_none he]
    | some txns =>
      have hs := h.sorted_of_entryOf he
      rw [Option.bind_some, contains_of_entryOf he]
      by_cases hnil : SortedMap.erase txn.txn.sequenceNumber txns = []
      · -- an emptied set held the removed number only
        have hget : SortedMap.get? s (SortedMap.erase txn.txn.sequenceNumber txns) =
            if s = txn.txn.sequenceNumber then none else SortedMap.get? s txns :=
          SortedMap.get?_erase hs
        rw [hnil, SortedMap.get?_nil] at hget
        rw [if_pos hnil]
        by_cases hs' : s = txn.txn.sequenceNumber
        · simp [hs']
        · rw [if_neg hs'] at hget
          simpa [hs'] using hget.symm
      · rw [if_neg hnil, Option.map_some, Option.getD_some, SortedMap.get?_erase hs]
        by_cases hs' : s = txn.txn.sequenceNumber <;> simp [hs']
  · rw [if_neg hc, ← contains_eq]
    simp [hc]

/-- `insert` counts the pair when it is new. -/
theorem size_insert (h : p.Inv) :
    (p.insert txn).size =
      if p.contains txn.txn.sender txn.txn.sequenceNumber then p.size else p.size + 1 := by
  cases hi : SortedMap.get? txn.txn.sender p.accountIndices with
  | some i =>
    obtain ⟨txns, hd⟩ := h.get?_data hi
    have hown : p.entryOf txn.txn.sender = some txns := h.entryOf_eq_some_iff.mpr (List.mem_of_getElem? hd)
    rw [insert_of_get?_some txn hi hd, contains_of_entryOf hown]
    cases SortedMap.get? txn.txn.sequenceNumber txns <;> rfl
  | none =>
    have hown : p.entryOf txn.txn.sender = none := by
      rw [entryOf_eq, hi, Option.bind_none]
    rw [insert_of_get?_none txn hi, contains_of_entryOf_none hown]
    rfl

/-- `remove` uncounts the pair when it was there. -/
theorem size_remove (h : p.Inv) :
    (p.remove txn).size =
      if p.contains txn.txn.sender txn.txn.sequenceNumber then p.size - 1 else p.size := by
  cases hi : SortedMap.get? txn.txn.sender p.accountIndices with
  | none =>
    have hown : p.entryOf txn.txn.sender = none := by
      rw [entryOf_eq, hi, Option.bind_none]
    rw [remove_of_get?_none txn hi, contains_of_entryOf_none hown]
    rfl
  | some i =>
    obtain ⟨txns, hd⟩ := h.get?_data hi
    have hown : p.entryOf txn.txn.sender = some txns := h.entryOf_eq_some_iff.mpr (List.mem_of_getElem? hd)
    rw [contains_of_entryOf hown]
    -- both branches of `remove` count alike
    by_cases hnil : SortedMap.erase txn.txn.sequenceNumber txns = []
    · rw [remove_of_eq_nil txn hi hd hnil]
    · rw [remove_of_ne_nil txn hi hd hnil]

end Read

/-- **`get_poppable`.** From an index that holds a pair, wherever the random choice lands,
`get_poppable` returns a pair the index holds, with the greatest sequence number its account
has. -/
theorem Inv.getPoppable_spec (h : p.Inv) (hpos : 0 < p.size) (pick : ℕ) :
    ∃ a s, p.getPoppable pick = some (a, s) ∧ p.contains a s = true ∧
      ∀ s', p.contains a s' = true → s' ≤ s := by
  have hne : p.data ≠ [] := by
    intro hnil
    rw [h.size_eq, total_eq, hnil] at hpos
    exact absurd hpos (Nat.lt_irrefl 0)
  have hlt : pick % p.data.length < p.data.length := Nat.mod_lt _ (List.length_pos_iff.mpr hne)
  obtain ⟨⟨a, txns⟩, hd⟩ : ∃ e, p.data[pick % p.data.length]? = some e :=
    ⟨_, List.getElem?_eq_getElem hlt⟩
  have hmem := List.mem_of_getElem? hd
  have hs : SortedMap.Sorted txns := h.sorted _ hmem
  -- the chosen account's set is not empty, so it has a last, greatest, number
  obtain ⟨last, hlast⟩ : ∃ e, txns.getLast? = some e :=
    Option.ne_none_iff_exists'.mp (mt List.getLast?_eq_none_iff.mp (h.ne_nil _ hmem))
  have hown : p.entryOf a = some txns := h.entryOf_eq_some_iff.mpr hmem
  refine ⟨a, last.1, ?_, ?_, ?_⟩
  · unfold getPoppable
    rw [hd]
    dsimp only
    rw [hlast, Option.map_some]
  · rw [contains_of_entryOf hown, Option.isSome_iff_exists]
    exact ⟨last.2, (SortedMap.get?_eq_some_iff hs).mpr (List.mem_of_getLast? hlast)⟩
  · intro s' hs'
    rw [contains_of_entryOf hown, Option.isSome_iff_exists] at hs'
    obtain ⟨u, hu⟩ := hs'
    exact hs.le_of_getLast? hlast _ (SortedMap.mem_of_get? hu)

/-! ## The index as a set of parked pairs -/

/-- The index stands for the set `S` of parked pairs: it keeps its invariant, `contains` is
membership in `S`, and the count is the number of pairs in `S`. -/
structure Represents (p : ParkingLotIndex) (S : Finset TxnPointer) : Prop where
  inv : p.Inv
  contains_iff : ∀ a s, p.contains a s = true ↔ (a, s) ∈ S
  size_eq_card : p.size = S.card

theorem represents_new : new.Represents ∅ where
  inv := inv_new
  contains_iff a s := by
    rw [contains_eq]
    exact iff_of_false (by simp [entryOf_eq, new, SortedMap.get?_nil]) (Finset.notMem_empty _)
  size_eq_card := rfl

variable {S : Finset TxnPointer} (txn : MempoolTransaction)

theorem Represents.insert (hr : p.Represents S) :
    (p.insert txn).Represents (Insert.insert (txn.txn.sender, txn.txn.sequenceNumber) S) where
  inv := hr.inv.insert txn
  contains_iff a s := by
    rw [contains_insert txn hr.inv, Bool.or_eq_true, decide_eq_true_iff, hr.contains_iff,
      Finset.mem_insert, Prod.mk.injEq]
  size_eq_card := by
    rw [size_insert txn hr.inv]
    split
    · rename_i hc
      rw [Finset.card_insert_of_mem ((hr.contains_iff _ _).mp hc), hr.size_eq_card]
    · rename_i hc
      rw [Finset.card_insert_of_notMem (mt (hr.contains_iff _ _).mpr hc), hr.size_eq_card]

theorem Represents.remove (hr : p.Represents S) :
    (p.remove txn).Represents (S.erase (txn.txn.sender, txn.txn.sequenceNumber)) where
  inv := hr.inv.remove txn
  contains_iff a s := by
    rw [contains_remove txn hr.inv, Bool.and_eq_true, Bool.not_eq_true', decide_eq_false_iff_not,
      hr.contains_iff, Finset.mem_erase, ne_eq, Prod.mk.injEq]
  size_eq_card := by
    rw [size_remove txn hr.inv]
    split
    · rename_i hc
      rw [Finset.card_erase_of_mem ((hr.contains_iff _ _).mp hc), hr.size_eq_card]
    · rename_i hc
      rw [Finset.erase_eq_of_notMem (mt (hr.contains_iff _ _).mpr hc), hr.size_eq_card]

end ParkingLotIndex

/-! ## Runs of `insert` and `remove` -/

/-- A call on the parking lot. -/
inductive ParkingLotOp where
  | insert (txn : MempoolTransaction)
  | remove (txn : MempoolTransaction)
deriving DecidableEq, Repr

namespace ParkingLotOp

/-- One call, on the index. -/
def apply (p : ParkingLotIndex) : ParkingLotOp → ParkingLotIndex
  | insert txn => p.insert txn
  | remove txn => p.remove txn

/-- The index a run of calls leaves, from `ParkingLotIndex::new`. -/
def run (ops : List ParkingLotOp) : ParkingLotIndex := ops.foldl apply ParkingLotIndex.new

/-- One call, on the set of parked pairs: `insert` parks the transaction's pair, `remove`
takes it out. -/
def applyParked (S : Finset TxnPointer) : ParkingLotOp → Finset TxnPointer
  | insert txn => Insert.insert (txn.txn.sender, txn.txn.sequenceNumber) S
  | remove txn => S.erase (txn.txn.sender, txn.txn.sequenceNumber)

/-- The pairs a run has inserted and not removed since. -/
def parked (ops : List ParkingLotOp) : Finset TxnPointer := ops.foldl applyParked ∅

theorem run_append_singleton (ops : List ParkingLotOp) (op : ParkingLotOp) :
    run (ops ++ [op]) = apply (run ops) op := by
  rw [run, run, List.foldl_append, List.foldl_cons, List.foldl_nil]

theorem parked_append_singleton (ops : List ParkingLotOp) (op : ParkingLotOp) :
    parked (ops ++ [op]) = applyParked (parked ops) op := by
  rw [parked, parked, List.foldl_append, List.foldl_cons, List.foldl_nil]

/-- One call keeps the index standing for the parked pairs. -/
theorem represents_apply {p : ParkingLotIndex} {S : Finset TxnPointer} (hr : p.Represents S) :
    ∀ op, (apply p op).Represents (applyParked S op)
  | insert txn => hr.insert txn
  | remove txn => hr.remove txn

/-- Every run leaves an index that stands for the pairs it parked. -/
theorem represents_run (ops : List ParkingLotOp) : (run ops).Represents (parked ops) := by
  induction ops using List.reverseRecOn with
  | nil => exact ParkingLotIndex.represents_new
  | append_singleton ops op ih =>
    rw [run_append_singleton, parked_append_singleton]
    exact represents_apply ih op

/-- **The parking lot's representation invariant.** After every run of `insert` and `remove`:
every set in the vector is non-empty, the map sends an account to a place exactly when the
place is the account's, no account has two places, and the count is the number of sequence
numbers in the vector; `contains` holds exactly of the parked pairs, the count is their
number, and when it is not zero `get_poppable` returns, for every choice, a parked pair with
the greatest parked sequence number of its account. -/
theorem parkingLot_representation (ops : List ParkingLotOp) :
    (∀ e ∈ (run ops).data, e.2 ≠ []) ∧
    (∀ a i, SortedMap.get? a (run ops).accountIndices = some i ↔ ((run ops).data[i]?).map Prod.fst = some a) ∧
    ((run ops).data.map Prod.fst).Nodup ∧
    (run ops).size = ParkingLotIndex.total (run ops).data ∧
    (∀ a s, (run ops).contains a s = true ↔ (a, s) ∈ parked ops) ∧
    (run ops).size = (parked ops).card ∧
    (0 < (run ops).size → ∀ pick, ∃ a s, (run ops).getPoppable pick = some (a, s) ∧
      (a, s) ∈ parked ops ∧ ∀ s', (a, s') ∈ parked ops → s' ≤ s) := by
  have hr := represents_run ops
  have hinv := hr.inv
  refine ⟨hinv.ne_nil, hinv.index_iff, hinv.nodup, hinv.size_eq, hr.contains_iff, hr.size_eq_card, ?_⟩
  intro hpos pick
  obtain ⟨a, s, hpop, hs, hmax⟩ := hinv.getPoppable_spec hpos pick
  refine ⟨a, s, hpop, (hr.contains_iff a s).mp hs, fun s' hs' => hmax s' ((hr.contains_iff a s').mpr hs')⟩

end ParkingLotOp

end Dijets.Mempool
