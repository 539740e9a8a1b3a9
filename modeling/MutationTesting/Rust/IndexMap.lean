/-
  MutationTesting.Rust.IndexMap

  Reading an `IndexMap`: the value and the position of a key, entries that are
  vectors and grow by a push, and entries reached by their position.
-/
import MutationTesting.Rust.HashMap

namespace MutationTesting.Rust.IndexMap

variable {κ ν : Type}

/-- The keys in the order of their first insertion. -/
def keys (map : IndexMap κ ν) : List κ := map.entries.map Prod.fst

@[simp] theorem keys_empty : (empty : IndexMap κ ν).keys = [] := rfl

variable [DecidableEq κ]

/-- `get`. -/
def get (map : IndexMap κ ν) (key : κ) : Option ν :=
  (map.entries.find? fun entry => entry.1 = key).map Prod.snd

/-- `get_index_of`. -/
def getIndexOf (map : IndexMap κ ν) (key : κ) : Option Nat :=
  if key ∈ map.keys then some (map.keys.idxOf key) else none

/-- `insert_full`: the position of the key, and the map after the insertion. -/
def insertFull (map : IndexMap κ ν) (key : κ) (value : ν) : Nat × IndexMap κ ν :=
  (map.keys.idxOf key, map.insert key value)

/-- `map.entry(key).or_default().push(x)`. -/
def entryPush (map : IndexMap κ (List ν)) (key : κ) (x : ν) : IndexMap κ (List ν) :=
  map.insert key ((map.get key).getD [] ++ [x])

/-- `==`, which does not compare the orders of the entries. -/
def eq [DecidableEq ν] (map other : IndexMap κ ν) : Bool :=
  decide (map.len = other.len) && map.entries.all fun entry => other.get entry.1 = some entry.2

@[simp] theorem get_empty (key : κ) : (empty : IndexMap κ ν).get key = none := rfl

theorem get_eq_none {map : IndexMap κ ν} {key : κ} : map.get key = none ↔ key ∉ map.keys := by
  simp only [get, keys, Option.map_eq_none_iff, List.find?_eq_none, decide_eq_true_eq,
    List.mem_map, not_exists, not_and]

theorem get_isSome {map : IndexMap κ ν} {key : κ} : (map.get key).isSome ↔ key ∈ map.keys := by
  rw [Option.isSome_iff_ne_none, Ne, get_eq_none, not_not]

theorem keys_insert (map : IndexMap κ ν) (key : κ) (value : ν) :
    (map.insert key value).keys = if key ∈ map.keys then map.keys else map.keys ++ [key] := by
  unfold insert keys
  split
  · rw [List.map_map]
    refine List.map_congr_left fun entry _ => ?_
    by_cases h : entry.1 = key
    · simp [h]
    · simp [h]
  · rw [List.map_append, List.map_singleton]

theorem nodup_keys_insert {map : IndexMap κ ν} (h : map.keys.Nodup) (key : κ) (value : ν) :
    (map.insert key value).keys.Nodup := by
  rw [keys_insert]
  split
  · exact h
  · rename_i hkey
    refine List.nodup_append.mpr ⟨h, List.nodup_singleton _, ?_⟩
    rintro a ha b hb rfl
    exact hkey (List.mem_singleton.mp hb ▸ ha)

/-- Looking up a key after an insertion. -/
theorem get_insert (map : IndexMap κ ν) (key key' : κ) (value : ν) :
    (map.insert key value).get key' = if key' = key then some value else map.get key' := by
  unfold insert
  by_cases hin : key ∈ map.entries.map Prod.fst
  · -- the entry of the key is rewritten in place
    have hfst : ∀ entry : κ × ν,
        (if entry.1 = key then (key, value) else entry).1 = entry.1 := by
      intro entry
      by_cases h : entry.1 = key
      · rw [if_pos h, h]
      · rw [if_neg h]
    rw [if_pos hin, get, List.find?_map]
    simp only [Function.comp_def, hfst]
    by_cases hkey : key' = key
    · rw [if_pos hkey, hkey]
      obtain ⟨entry, hfound⟩ : ∃ entry,
          map.entries.find? (fun entry => decide (entry.1 = key)) = some entry := by
        rw [← Option.isSome_iff_exists, List.find?_isSome]
        obtain ⟨entry, hentry, hkey⟩ := List.mem_map.mp hin
        exact ⟨entry, hentry, by simpa using hkey⟩
      have hentry : entry.1 = key := by simpa using List.find?_some hfound
      rw [hfound, Option.map_some, Option.map_some, if_pos hentry]
    · rw [if_neg hkey, get]
      cases hfound : map.entries.find? (fun entry => decide (entry.1 = key')) with
      | none => rfl
      | some entry =>
        have hentry : entry.1 = key' := by simpa using List.find?_some hfound
        rw [Option.map_some, Option.map_some, Option.map_some, if_neg (hentry ▸ hkey)]
  · rw [if_neg hin, get, List.find?_append]
    by_cases hkey : key' = key
    · have hnone : map.entries.find? (fun entry => decide (entry.1 = key)) = none := by
        rw [List.find?_eq_none]
        intro entry hentry hfst
        exact hin (of_decide_eq_true hfst ▸ List.mem_map_of_mem hentry)
      rw [if_pos hkey, hkey, hnone]
      simp
    · rw [if_neg hkey, get]
      simp [Ne.symm hkey]

theorem get_entryPush (map : IndexMap κ (List ν)) (key key' : κ) (x : ν) :
    ((map.entryPush key x).get key').getD [] =
      if key' = key then (map.get key).getD [] ++ [x] else (map.get key').getD [] := by
  rw [entryPush, get_insert]
  by_cases hkey : key' = key
  · rw [if_pos hkey, if_pos hkey, Option.getD_some]
  · rw [if_neg hkey, if_neg hkey]

/-- With its keys distinct, a map has the entries that `get` finds. -/
theorem mem_entries_iff {map : IndexMap κ ν} (h : map.keys.Nodup) {key : κ} {value : ν} :
    (key, value) ∈ map.entries ↔ map.get key = some value := by
  unfold get keys at *
  obtain ⟨entries⟩ := map
  simp only at h ⊢
  induction entries with
  | nil => simp
  | cons entry entries ih =>
    obtain ⟨hfst, hrest⟩ := List.nodup_cons.mp h
    rw [List.mem_cons, List.find?_cons]
    by_cases hentry : entry.1 = key
    · have hnot : ∀ value', (key, value') ∉ entries := fun value' hmem =>
        hfst (hentry ▸ List.mem_map_of_mem hmem)
      simp only [hentry, decide_true, Option.map_some, Option.some.injEq, hnot, or_false]
      exact ⟨fun heq => by rw [← heq], fun heq => by rw [← hentry, ← heq]⟩
    · have hne : (key, value) ≠ entry := by
        rintro rfl
        exact hentry rfl
      simp only [hentry, decide_false, hne, false_or]
      exact ih hrest

/-- Equal maps have the same values. -/
theorem get_of_eq [DecidableEq ν] {map other : IndexMap κ ν} (hmap : map.keys.Nodup)
    (h : map.eq other = true) (key : κ) : map.get key = other.get key := by
  rw [eq, Bool.and_eq_true, decide_eq_true_eq, List.all_eq_true] at h
  obtain ⟨hlen, hall⟩ := h
  have hfound : ∀ {key value}, map.get key = some value → other.get key = some value := by
    intro key value hget
    exact of_decide_eq_true (hall _ ((mem_entries_iff hmap).mpr hget))
  have hsub : map.keys ⊆ other.keys := by
    intro key hkey
    obtain ⟨value, hget⟩ := Option.isSome_iff_exists.mp (get_isSome.mpr hkey)
    exact get_isSome.mp (Option.isSome_iff_exists.mpr ⟨value, hfound hget⟩)
  -- as many keys, all of them in the other map
  have hperm : map.keys.Perm other.keys :=
    (hmap.subperm hsub).perm_of_length_le (by simpa [keys, len] using hlen.ge)
  cases hget : map.get key with
  | some value => exact (hfound hget).symm
  | none => exact (get_eq_none.mpr fun hkey => get_eq_none.mp hget (hperm.mem_iff.mpr hkey)).symm

/-! ## Entries by position -/

/-- The value at a position, `get_index`. -/
def getAt (map : IndexMap κ ν) (i : Nat) : Option ν := (map.entries[i]?).map Prod.snd

/-- Write through a reference to the value at a position. -/
def modifyAt (map : IndexMap κ ν) (i : Nat) (f : ν → ν) : IndexMap κ ν :=
  ⟨map.entries.modify i fun entry => (entry.1, f entry.2)⟩

/-- `map.entry(key).or_default().insert(x)`, where the values are `IndexSet`s. -/
def entryInsert [DecidableEq ν] (map : IndexMap κ (List ν)) (key : κ) (x : ν) :
    IndexMap κ (List ν) :=
  let held := (map.get key).getD []
  map.insert key (if x ∈ held then held else held ++ [x])

omit [DecidableEq κ] in
theorem getAt_lt {map : IndexMap κ ν} {i : Nat} {value : ν} (h : map.getAt i = some value) :
    i < map.len := by
  obtain ⟨entry, hentry, -⟩ := Option.map_eq_some_iff.mp h
  exact (List.getElem?_eq_some_iff.mp hentry).1

omit [DecidableEq κ] in
theorem keys_length (map : IndexMap κ ν) : map.keys.length = map.len := List.length_map _

omit [DecidableEq κ] in
@[simp] theorem keys_modifyAt (map : IndexMap κ ν) (i : Nat) (f : ν → ν) :
    (map.modifyAt i f).keys = map.keys := by
  refine List.ext_getElem? fun j => ?_
  simp only [keys, modifyAt, List.getElem?_map, List.getElem?_modify]
  by_cases h : i = j
  · simp [h, Function.comp_def]
  · simp [h]

omit [DecidableEq κ] in
theorem getAt_modifyAt (map : IndexMap κ ν) (i j : Nat) (f : ν → ν) :
    (map.modifyAt i f).getAt j = if i = j then (map.getAt j).map f else map.getAt j := by
  simp only [getAt, modifyAt, List.getElem?_modify]
  by_cases h : i = j
  · simp [h, Function.comp_def]
  · simp [h]

/-- A new key comes last. -/
theorem insert_of_notMem {map : IndexMap κ ν} {key : κ} (h : key ∉ map.keys) (value : ν) :
    map.insert key value = ⟨map.entries ++ [(key, value)]⟩ := if_neg h

theorem getAt_insert {map : IndexMap κ ν} {key : κ} (h : key ∉ map.keys) (value : ν) (j : Nat) :
    (map.insert key value).getAt j = if j = map.len then some value else map.getAt j := by
  rw [insert_of_notMem h, getAt, len]
  rcases Nat.lt_trichotomy j map.entries.length with hlt | rfl | hgt
  · rw [if_neg hlt.ne, List.getElem?_append_left hlt, getAt]
  · simp
  · rw [if_neg hgt.ne', getAt, List.getElem?_eq_none, List.getElem?_eq_none hgt.le]
    rw [List.length_append]
    exact hgt

/-- A write to the entry that came last is one before it is inserted. -/
theorem modifyAt_insert {map : IndexMap κ ν} {key : κ} (h : key ∉ map.keys) (value : ν)
    (f : ν → ν) : (map.insert key value).modifyAt map.len f = map.insert key (f value) := by
  rw [insert_of_notMem h, insert_of_notMem h, modifyAt]
  have hlt : map.len < (map.entries ++ [(key, value)]).length := by simp [len]
  refine congrArg IndexMap.mk ?_
  rw [List.modify_eq_take_cons_drop hlt]
  simp [len]

/-- A new key is given the next position. -/
theorem insertFull_of_notMem {map : IndexMap κ ν} {key : κ} (h : key ∉ map.keys) (value : ν) :
    map.insertFull key value = (map.len, map.insert key value) := by
  rw [insertFull, List.idxOf_eq_length h, keys_length]

/-- The position of a key is where it stands among the keys. -/
theorem getIndexOf_eq_some {map : IndexMap κ ν} (h : map.keys.Nodup) {key : κ} {i : Nat} :
    map.getIndexOf key = some i ↔ map.keys[i]? = some key := by
  unfold getIndexOf
  constructor
  · intro hi
    by_cases hkey : key ∈ map.keys
    · rw [if_pos hkey] at hi
      cases hi
      exact List.getElem?_idxOf hkey
    · rw [if_neg hkey] at hi
      cases hi
  · intro hi
    obtain ⟨hlt, rfl⟩ := List.getElem?_eq_some_iff.mp hi
    rw [if_pos (List.getElem_mem hlt), h.idxOf_getElem i hlt]

theorem get_entryInsert [DecidableEq ν] (map : IndexMap κ (List ν)) (key key' : κ) (x : ν) :
    ((map.entryInsert key x).get key').getD [] =
      if key' = key then
        if x ∈ (map.get key).getD [] then (map.get key).getD []
        else (map.get key).getD [] ++ [x]
      else (map.get key').getD [] := by
  rw [entryInsert, get_insert]
  by_cases hkey : key' = key
  · rw [if_pos hkey, if_pos hkey, Option.getD_some]
  · rw [if_neg hkey, if_neg hkey]

end MutationTesting.Rust.IndexMap
