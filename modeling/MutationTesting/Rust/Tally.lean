/-
  MutationTesting.Rust.Tally

  Sums under keys.  `tally` is the loop that adds the value of each entry of a
  list to the value its key has in a map, starting from zero.  What a key has in
  the end is the sum of its values, so the order of the entries does not matter.

  A map or a directory that is iterated is listed: each of its entries once, in
  an order of which nothing is known.
-/
import MutationTesting.Rust.HashMap
import Mathlib.Algebra.BigOperators.Group.List.Basic
import Mathlib.Algebra.GroupWithZero.Nat
import Mathlib.Data.List.Perm.Basic
import Mathlib.Data.List.Nodup
import Mathlib.Data.Finset.Sort

namespace MutationTesting.Rust

/-! ## Listings -/

/-- The list has what satisfies `p`, each once, in some order. -/
structure Lists {α : Type} (xs : List α) (p : α → Prop) : Prop where
  nodup : xs.Nodup
  mem_iff : ∀ a, a ∈ xs ↔ p a

namespace Lists

variable {α β : Type} {p q : α → Prop} {xs ys : List α}

theorem perm (hxs : Lists xs p) (hys : Lists ys p) : xs.Perm ys :=
  (List.perm_ext_iff_of_nodup hxs.nodup hys.nodup).mpr fun a =>
    (hxs.mem_iff a).trans (hys.mem_iff a).symm

theorem filter (h : Lists xs p) (f : α → Bool) :
    Lists (xs.filter f) fun a => p a ∧ f a = true where
  nodup := h.nodup.filter f
  mem_iff a := by rw [List.mem_filter, h.mem_iff]

/-- What is taken of a listing depends on the elements only that are taken. -/
theorem filterMap_perm {f : α → Option β} (hxs : Lists xs p) (hys : Lists ys q)
    (h : ∀ a, (f a).isSome → (p a ↔ q a)) : (xs.filterMap f).Perm (ys.filterMap f) := by
  have htaken : ∀ zs : List α,
      zs.filterMap f = (zs.filter fun a => (f a).isSome).filterMap f := by
    intro zs
    rw [List.filterMap_filter]
    congr 1
    funext a
    cases f a <;> rfl
  have hsame : Lists (xs.filter fun a => (f a).isSome) fun a => q a ∧ (f a).isSome = true := by
    rw [funext fun a => propext (and_congr_left fun hsome => (h a hsome).symm)]
    exact hxs.filter _
  rw [htaken xs, htaken ys]
  exact (hsame.perm (hys.filter _)).filterMap f

end Lists

namespace HashMap

variable {κ ν : Type} [DecidableEq κ]

/-! ## Values of a key -/

/-- The values of the entries of a key. -/
def valuesAt (key : κ) (entries : List (κ × ν)) : List ν :=
  (entries.filter fun entry => entry.1 = key).map Prod.snd

theorem mem_valuesAt {key : κ} {entries : List (κ × ν)} {value : ν} :
    value ∈ valuesAt key entries ↔ (key, value) ∈ entries := by
  simp [valuesAt]

theorem valuesAt_cons_self (key : κ) (value : ν) (entries : List (κ × ν)) :
    valuesAt key ((key, value) :: entries) = value :: valuesAt key entries := by
  rw [valuesAt, List.filter_cons_of_pos (by simp), List.map_cons, valuesAt]

theorem valuesAt_cons_of_ne {key key' : κ} (hkey : key ≠ key') (value : ν)
    (entries : List (κ × ν)) :
    valuesAt key ((key', value) :: entries) = valuesAt key entries := by
  rw [valuesAt, List.filter_cons_of_neg (by simpa using Ne.symm hkey), valuesAt]

theorem valuesAt_eq_nil_iff {key : κ} {entries : List (κ × ν)} :
    valuesAt key entries = [] ↔ key ∉ entries.map Prod.fst := by
  rw [valuesAt, List.map_eq_nil_iff, List.filter_eq_nil_iff]
  constructor
  · intro h hmem
    obtain ⟨entry, hentry, hkey⟩ := List.mem_map.mp hmem
    exact h entry hentry (decide_eq_true hkey)
  · intro h entry hmem hkey
    exact h (List.mem_map.mpr ⟨entry, hmem, of_decide_eq_true hkey⟩)

theorem valuesAt_append (key : κ) (entries entries' : List (κ × ν)) :
    valuesAt key (entries ++ entries') = valuesAt key entries ++ valuesAt key entries' := by
  rw [valuesAt, List.filter_append, List.map_append, valuesAt, valuesAt]

/-- The entries of a map, as it is drained. -/
abbrev Drains (entries : List (κ × ν)) (map : HashMap κ ν) : Prop :=
  Lists entries fun entry => map.lookup entry.1 = some entry.2

/-- The entries of a map in the order of their keys. -/
def sortedEntries [LinearOrder κ] (map : HashMap κ ν) : List (κ × ν) :=
  map.keys.sort.filterMap fun key => (map.lookup key).map fun value => (key, value)

theorem drains_sortedEntries [LinearOrder κ] (map : HashMap κ ν) :
    Drains map.sortedEntries map := by
  constructor
  · refine List.pairwise_filterMap.mpr ((Finset.sort_nodup map.keys _).imp ?_)
    rintro key key' hne entry hentry entry' hentry' rfl
    obtain ⟨value, -, rfl⟩ := Option.map_eq_some_iff.mp hentry
    obtain ⟨value', -, heq⟩ := Option.map_eq_some_iff.mp hentry'
    exact hne (congrArg Prod.fst heq).symm
  · rintro ⟨key, value⟩
    rw [sortedEntries, List.mem_filterMap]
    constructor
    · rintro ⟨key', -, hentry⟩
      obtain ⟨value', hlookup, heq⟩ := Option.map_eq_some_iff.mp hentry
      cases heq
      exact hlookup
    · intro hlookup
      refine ⟨key, ?_, by rw [hlookup]; rfl⟩
      rw [Finset.mem_sort, Finmap.mem_keys]
      exact Finmap.mem_of_lookup_eq_some hlookup

/-- In a map that is drained a key has one value or none. -/
theorem Drains.valuesAt_perm {entries : List (κ × ν)} {map : HashMap κ ν}
    (h : Drains entries map) (key : κ) :
    (valuesAt key entries).Perm (map.lookup key).toList := by
  have hnodup : (valuesAt key entries).Nodup := by
    refine (h.nodup.filter _).map_on ?_
    rintro ⟨k, v⟩ hmem ⟨k', v'⟩ hmem' hvalue
    have hk : k = key := of_decide_eq_true (List.mem_filter.mp hmem).2
    have hk' : k' = key := of_decide_eq_true (List.mem_filter.mp hmem').2
    rw [hk, hk', show v = v' from hvalue]
  refine (List.perm_ext_iff_of_nodup hnodup ?_).mpr fun value => ?_
  · cases map.lookup key <;> simp
  · rw [mem_valuesAt, Option.mem_toList]
    exact h.mem_iff (key, value)

/-- The values of a key in maps that are drained one after the other. -/
theorem valuesAt_flatten_perm {drained : List (List (κ × ν))} {maps : List (HashMap κ ν)}
    (h : List.Forall₂ Drains drained maps) (key : κ) :
    (valuesAt key drained.flatten).Perm (maps.filterMap fun map => map.lookup key) := by
  induction h with
  | nil => exact .rfl
  | @cons entries map drained maps hentries _ ih =>
    have hhead : (map :: maps).filterMap (fun map => map.lookup key) =
        (map.lookup key).toList ++ maps.filterMap fun map => map.lookup key := by
      cases hlookup : map.lookup key with
      | none => rw [List.filterMap_cons_none hlookup, Option.toList_none, List.nil_append]
      | some value =>
        rw [List.filterMap_cons_some hlookup, Option.toList_some, List.singleton_append]
    rw [List.flatten_cons, valuesAt_append, hhead]
    exact (Drains.valuesAt_perm hentries key).append ih

/-! ## Adding to an entry -/

variable [AddCommMonoid ν]

/-- `*map.entry(key).or_insert(zero) += value`. -/
def add (map : HashMap κ ν) (key : κ) (value : ν) : HashMap κ ν :=
  (map.orInsert key 0).modify key (· + value)

theorem lookup_add (map : HashMap κ ν) (key key' : κ) (value : ν) :
    (map.add key value).lookup key' =
      if key' = key then some ((map.lookup key).getD 0 + value) else map.lookup key' := by
  rw [add, lookup_modify, lookup_orInsert, lookup_orInsert, if_pos rfl, Option.map_some]
  by_cases hkey : key' = key
  · rw [if_pos hkey, if_pos hkey]
  · rw [if_neg hkey, if_neg hkey, if_neg hkey]

/-- Opening an entry adds nothing to it. -/
theorem orInsert_eq_add (map : HashMap κ ν) (key : κ) : map.orInsert key 0 = map.add key 0 := by
  apply Finmap.ext_lookup
  intro key'
  rw [lookup_orInsert, lookup_add, add_zero]

/-- Adding to an entry that is there. -/
theorem modify_eq_add {map : HashMap κ ν} {key : κ} (h : key ∈ map) (value : ν) :
    map.modify key (· + value) = map.add key value := by
  obtain ⟨held, hheld⟩ := Finmap.mem_iff.mp h
  apply Finmap.ext_lookup
  intro key'
  rw [lookup_modify, lookup_add, hheld, Option.map_some, Option.getD_some]

/-! ## Tallies -/

/-- Add the entries to the map in turn. -/
def tally (map : HashMap κ ν) (entries : List (κ × ν)) : HashMap κ ν :=
  entries.foldl (fun map entry => map.add entry.1 entry.2) map

@[simp] theorem tally_cons (map : HashMap κ ν) (entry : κ × ν) (entries : List (κ × ν)) :
    map.tally (entry :: entries) = (map.add entry.1 entry.2).tally entries := rfl

theorem tally_append (map : HashMap κ ν) (entries entries' : List (κ × ν)) :
    map.tally (entries ++ entries') = (map.tally entries).tally entries' :=
  List.foldl_append

/-- In the end a key that occurs has the sum of its values. -/
theorem lookup_tally (map : HashMap κ ν) (entries : List (κ × ν)) (key : κ) :
    (map.tally entries).lookup key =
      if key ∈ entries.map Prod.fst then
        some ((map.lookup key).getD 0 + (valuesAt key entries).sum)
      else map.lookup key := by
  induction entries generalizing map with
  | nil => rfl
  | cons entry entries ih =>
    obtain ⟨key', value⟩ := entry
    rw [tally_cons, ih, lookup_add]
    by_cases hkey : key = key'
    · subst hkey
      have hmem : key ∈ ((key, value) :: entries).map Prod.fst := List.mem_cons_self
      rw [if_pos rfl, if_pos hmem, valuesAt_cons_self, List.sum_cons]
      by_cases hlater : key ∈ entries.map Prod.fst
      · rw [if_pos hlater, Option.getD_some, add_assoc]
      -- this was the last entry of the key
      · rw [if_neg hlater, valuesAt_eq_nil_iff.mpr hlater, List.sum_nil, add_zero]
    · have hmem : key ∈ ((key', value) :: entries).map Prod.fst ↔ key ∈ entries.map Prod.fst := by
        rw [List.map_cons, List.mem_cons, or_iff_right hkey]
      rw [if_neg hkey, valuesAt_cons_of_ne hkey]
      simp only [hmem]

/-- The sum of the values, if there are any. -/
def total (values : List ν) : Option ν := if values.isEmpty then none else some values.sum

theorem total_perm {values values' : List ν} (h : values.Perm values') :
    total values = total values' := by
  rw [total, total, h.sum_eq, h.isEmpty_eq]

theorem total_eq_some {values : List ν} {value : ν} :
    total values = some value ↔ values ≠ [] ∧ values.sum = value := by
  rw [total]
  cases values with
  | nil => simp
  | cons held values => simp

theorem lookup_tally_empty (entries : List (κ × ν)) (key : κ) :
    (tally ∅ entries).lookup key = total (valuesAt key entries) := by
  rw [lookup_tally, Finmap.lookup_empty, Option.getD_none, zero_add, total]
  by_cases hkey : key ∈ entries.map Prod.fst
  · have hne : valuesAt key entries ≠ [] := fun hnil => valuesAt_eq_nil_iff.mp hnil hkey
    rw [if_pos hkey, if_neg (mt List.isEmpty_iff.mp hne)]
  · rw [if_neg hkey, if_pos (List.isEmpty_iff.mpr (valuesAt_eq_nil_iff.mpr hkey))]

/-- A key has the sum of its values in the maps that are drained. -/
theorem lookup_tally_flatten {drained : List (List (κ × ν))} {maps : List (HashMap κ ν)}
    (h : List.Forall₂ Drains drained maps) (key : κ) :
    (tally ∅ drained.flatten).lookup key = total (maps.filterMap fun map => map.lookup key) := by
  rw [lookup_tally_empty]
  exact total_perm (valuesAt_flatten_perm h key)

/-- The order of the entries does not matter. -/
theorem tally_perm (map : HashMap κ ν) {entries entries' : List (κ × ν)}
    (h : entries.Perm entries') : map.tally entries = map.tally entries' := by
  apply Finmap.ext_lookup
  intro key
  have hkeys : key ∈ entries.map Prod.fst ↔ key ∈ entries'.map Prod.fst :=
    (h.map Prod.fst).mem_iff
  have hvalues : (valuesAt key entries).Perm (valuesAt key entries') :=
    (h.filter _).map Prod.snd
  rw [lookup_tally, lookup_tally, hvalues.sum_eq]
  simp only [hkeys]

end HashMap

end MutationTesting.Rust
