/-
  MutationTesting.Rust.HashMap

  `std::collections::HashMap` as a finite map: two maps with the same entries
  are equal, so nothing depends on an iteration order.  `IndexMap` keeps the
  order of its insertions.
-/
import Mathlib.Data.Finmap

namespace MutationTesting.Rust

abbrev HashMap (κ ν : Type) := Finmap fun _ : κ => ν

namespace HashMap

variable {κ ν : Type} [DecidableEq κ]

/-- `map.entry(key).or_insert(value)`. -/
def orInsert (map : HashMap κ ν) (key : κ) (value : ν) : HashMap κ ν :=
  match map.lookup key with
  | some _ => map
  | none => map.insert key value

/-- Write through a reference into the entry of `key`. -/
def modify (map : HashMap κ ν) (key : κ) (f : ν → ν) : HashMap κ ν :=
  match map.lookup key with
  | some value => map.insert key (f value)
  | none => map

theorem lookup_orInsert (map : HashMap κ ν) (key key' : κ) (value : ν) :
    (map.orInsert key value).lookup key' =
      if key' = key then some ((map.lookup key).getD value) else map.lookup key' := by
  unfold orInsert
  cases h : map.lookup key with
  | some held =>
    by_cases hkey : key' = key
    · rw [hkey, if_pos rfl, h, Option.getD_some]
    · rw [if_neg hkey]
  | none =>
    by_cases hkey : key' = key
    · rw [hkey, if_pos rfl, Finmap.lookup_insert, Option.getD_none]
    · rw [if_neg hkey, Finmap.lookup_insert_of_ne _ hkey]

theorem lookup_modify (map : HashMap κ ν) (key key' : κ) (f : ν → ν) :
    (map.modify key f).lookup key' =
      if key' = key then (map.lookup key).map f else map.lookup key' := by
  unfold modify
  cases h : map.lookup key with
  | none =>
    by_cases hkey : key' = key
    · rw [hkey, if_pos rfl, h, Option.map_none]
    · rw [if_neg hkey]
  | some held =>
    by_cases hkey : key' = key
    · rw [hkey, if_pos rfl, Finmap.lookup_insert, Option.map_some]
    · rw [if_neg hkey, Finmap.lookup_insert_of_ne _ hkey]

@[simp] theorem mem_orInsert {map : HashMap κ ν} {key key' : κ} {value : ν} :
    key' ∈ map.orInsert key value ↔ key' = key ∨ key' ∈ map := by
  rw [← Finmap.lookup_isSome, lookup_orInsert, ← Finmap.lookup_isSome]
  by_cases hkey : key' = key
  · simp [hkey]
  · simp [hkey]

@[simp] theorem mem_modify {map : HashMap κ ν} {key key' : κ} {f : ν → ν} :
    key' ∈ map.modify key f ↔ key' ∈ map := by
  rw [← Finmap.lookup_isSome, lookup_modify, ← Finmap.lookup_isSome]
  by_cases hkey : key' = key
  · rw [if_pos hkey, hkey, Option.isSome_map]
  · rw [if_neg hkey]

/-- Writing back what is there changes nothing. -/
theorem modify_of_id (map : HashMap κ ν) (key : κ) {f : ν → ν} (hf : ∀ value, f value = value) :
    map.modify key f = map := by
  apply Finmap.ext_lookup
  intro key'
  rw [lookup_modify, funext hf, Option.map_id']
  by_cases hkey : key' = key
  · rw [if_pos hkey, hkey]
  · rw [if_neg hkey]

/-- Two writes to one entry are one. -/
@[simp] theorem modify_modify (map : HashMap κ ν) (key : κ) (f g : ν → ν) :
    (map.modify key f).modify key g = map.modify key (g ∘ f) := by
  apply Finmap.ext_lookup
  intro key'
  rw [lookup_modify, lookup_modify, lookup_modify, lookup_modify, if_pos rfl, Option.map_map]
  by_cases hkey : key' = key
  · rw [if_pos hkey, if_pos hkey]
  · rw [if_neg hkey, if_neg hkey, if_neg hkey]

/-- Every value of the map has the property. -/
def Forall (p : ν → Prop) (map : HashMap κ ν) : Prop :=
  ∀ key value, map.lookup key = some value → p value

theorem forall_empty (p : ν → Prop) : Forall p (∅ : HashMap κ ν) := by
  intro key value h
  rw [Finmap.lookup_empty] at h
  cases h

theorem forall_orInsert {p : ν → Prop} {map : HashMap κ ν} {key : κ} {value : ν}
    (hvalue : p value) : Forall p (map.orInsert key value) ↔ Forall p map := by
  constructor
  · intro h key' value' hlookup
    refine h key' value' ?_
    rw [lookup_orInsert]
    by_cases hkey : key' = key
    · rw [if_pos hkey, ← hkey, hlookup, Option.getD_some]
    · rw [if_neg hkey, hlookup]
  · intro h key' value' hlookup
    rw [lookup_orInsert] at hlookup
    by_cases hkey : key' = key
    · rw [if_pos hkey] at hlookup
      obtain rfl := Option.some.inj hlookup
      -- an entry that was there keeps its value
      cases hold : map.lookup key with
      | none => exact hvalue
      | some held => exact h key held hold
    · rw [if_neg hkey] at hlookup
      exact h key' value' hlookup

theorem forall_modify {p : ν → Prop} {map : HashMap κ ν} {key : κ} {held : ν}
    (hheld : map.lookup key = some held) (f : ν → ν) :
    Forall p (map.modify key f) ↔
      p (f held) ∧ ∀ key' value, key' ≠ key → map.lookup key' = some value → p value := by
  constructor
  · intro h
    refine ⟨h key (f held) ?_, fun key' value hkey hlookup => h key' value ?_⟩
    · rw [lookup_modify, if_pos rfl, hheld, Option.map_some]
    · rw [lookup_modify, if_neg hkey, hlookup]
  · rintro ⟨hself, hothers⟩ key' value hlookup
    rw [lookup_modify] at hlookup
    by_cases hkey : key' = key
    · rw [if_pos hkey, hheld] at hlookup
      obtain rfl := Option.some.inj hlookup
      exact hself
    · rw [if_neg hkey] at hlookup
      exact hothers key' value hkey hlookup

end HashMap

/-- `indexmap::IndexMap`. -/
structure IndexMap (κ ν : Type) where
  entries : List (κ × ν)

namespace IndexMap

variable {κ ν : Type} [DecidableEq κ]

/-- `IndexMap::new`. -/
def empty : IndexMap κ ν := ⟨[]⟩

/-- `IndexMap::len`. -/
def len (map : IndexMap κ ν) : Nat := map.entries.length

/-- `IndexMap::insert`: the value of a key that is there is replaced, a new key
    comes last. -/
def insert (map : IndexMap κ ν) (key : κ) (value : ν) : IndexMap κ ν :=
  if key ∈ map.entries.map Prod.fst then
    ⟨map.entries.map fun entry => if entry.1 = key then (key, value) else entry⟩
  else ⟨map.entries ++ [(key, value)]⟩

end IndexMap

end MutationTesting.Rust
