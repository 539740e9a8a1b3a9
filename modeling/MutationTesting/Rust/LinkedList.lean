/-
  MutationTesting.Rust.LinkedList

  Linked lists threaded through a vector: a cell is named by its index and holds
  the index of the next one, and several lists share the vector.  `Threaded`
  relates a head to the cells that following the links visits; `Family` is a
  family of such lists that have no cell in common.
-/
import MutationTesting.Rust.Iterator
import Mathlib.Logic.Function.Basic
import Mathlib.Data.List.Perm.Subperm

namespace MutationTesting.Rust.LinkedList

open MutationTesting.Rust

/-! ## One list -/

/-- Following the links from the head visits the cells in this order. -/
inductive Threaded (links : List (Option Nat)) : Option Nat → List Nat → Prop
  | nil : Threaded links none []
  | cons {i : Nat} {next : Option Nat} {cells : List Nat} (hlink : links[i]? = some next)
      (rest : Threaded links next cells) : Threaded links (some i) (i :: cells)

namespace Threaded

variable {links links' : List (Option Nat)} {head : Option Nat} {cells : List Nat}

theorem unique {cells' : List Nat} (h : Threaded links head cells)
    (h' : Threaded links head cells') : cells = cells' := by
  induction h generalizing cells' with
  | nil =>
    cases h'
    rfl
  | cons hlink _ ih =>
    cases h' with
    | cons hlink' rest' =>
      obtain rfl := Option.some.inj (hlink.symm.trans hlink')
      rw [ih rest']

/-- Following the links from a cell of the list visits the rest of it. -/
theorem suffix (h : Threaded links head cells) {i : Nat} (hi : i ∈ cells) :
    ∃ front back, cells = front ++ i :: back ∧ Threaded links (some i) (i :: back) := by
  induction h with
  | nil => exact absurd hi List.not_mem_nil
  | @cons j next cells hlink rest ih =>
    rcases List.mem_cons.mp hi with rfl | hi
    · exact ⟨[], cells, rfl, .cons hlink rest⟩
    · obtain ⟨front, back, hcells, hback⟩ := ih hi
      exact ⟨j :: front, back, by rw [hcells, List.cons_append], hback⟩

/-- A list that ends visits no cell twice. -/
theorem nodup (h : Threaded links head cells) : cells.Nodup := by
  induction h with
  | nil => exact List.nodup_nil
  | @cons i next cells hlink rest ih =>
    refine List.nodup_cons.mpr ⟨fun hi => ?_, ih⟩
    -- a second visit would start the whole list again
    obtain ⟨front, back, hcells, hback⟩ := rest.suffix hi
    have hsame : i :: cells = i :: back := unique (.cons hlink rest) hback
    have hlen := congrArg List.length hsame
    simp only [hcells, List.length_cons, List.length_append] at hlen
    omega

theorem lt_length (h : Threaded links head cells) {i : Nat} (hi : i ∈ cells) :
    i < links.length := by
  obtain ⟨_, _, _, hback⟩ := h.suffix hi
  cases hback with
  | cons hlink _ => exact (List.getElem?_eq_some_iff.mp hlink).1

/-- A list depends on the links of its own cells only. -/
theorem frame (h : Threaded links head cells) (hsame : ∀ i ∈ cells, links'[i]? = links[i]?) :
    Threaded links' head cells := by
  induction h with
  | nil => exact .nil
  | @cons i next cells hlink rest ih =>
    refine .cons ((hsame i List.mem_cons_self).trans hlink) (ih fun j hj => ?_)
    exact hsame j (List.mem_cons_of_mem _ hj)

theorem head_eq_none (h : Threaded links head cells) : head = none ↔ cells = [] := by
  cases h with
  | nil => simp
  | cons => simp

/-- Linking the last cell to the head of another list joins the two. -/
theorem append {head' : Option Nat} {cells' front : List Nat} {last : Nat}
    (h : Threaded links head (front ++ [last])) (h' : Threaded links head' cells')
    (hdisjoint : ∀ i ∈ front ++ [last], i ∉ cells') :
    Threaded (links.set last head') head (front ++ last :: cells') := by
  have hlast : last < links.length := h.lt_length (by simp)
  have htail : Threaded (links.set last head') head' cells' := by
    refine h'.frame fun i hi => ?_
    rw [List.getElem?_set_ne]
    rintro rfl
    exact hdisjoint _ (by simp) hi
  have hnodup := h.nodup
  clear hdisjoint
  generalize hall : front ++ [last] = all at h hnodup
  induction h generalizing front with
  | nil => simp at hall
  | @cons i next cells hlink rest ih =>
    cases front with
    | nil =>
      obtain ⟨rfl, rfl⟩ : last = i ∧ cells = [] := by simpa [eq_comm] using hall
      exact .cons (List.getElem?_set_self hlast) htail
    | cons j front =>
      rw [List.cons_append, List.cons.injEq] at hall
      obtain ⟨rfl, hrest⟩ := hall
      obtain ⟨hnotMem, hnodup⟩ := List.nodup_cons.mp hnodup
      refine .cons ?_ (ih hrest hnodup)
      rw [List.getElem?_set_ne ?_, hlink]
      rintro rfl
      exact hnotMem (hrest ▸ by simp)

/-- An iterator that holds the next cell, and moves on along its link, produces
    the cells of the list. -/
theorem produces {σ α : Type} [FallibleIterator σ α] (state : Option Nat → σ) (item : Nat → α)
    (hnone : FallibleIterator.next (state none) = .ok (none, state none))
    (hsome : ∀ i next, links[i]? = some next →
      FallibleIterator.next (state (some i)) = .ok (some (item i), state next))
    (h : Threaded links head cells) : Produces (state head) (cells.map item) := by
  have hspent : Spent (state none) :=
    ⟨fun it => it = state none, rfl, fun it hit => ⟨state none, hit ▸ hnone, rfl⟩⟩
  induction h with
  | nil => exact ⟨state none, .done hnone, hspent⟩
  | cons hlink _ ih =>
    obtain ⟨last, hyields, hlast⟩ := ih
    exact ⟨last, .more (hsome _ _ hlink) hyields, hlast⟩

end Threaded

/-! ## A family of lists -/

section Family

variable {κ : Type}

/-- For each key a list, and no cell on two of them. -/
structure Family (links : List (Option Nat)) (head : κ → Option Nat) (cells : κ → List Nat) :
    Prop where
  threaded : ∀ k, Threaded links (head k) (cells k)
  disjoint : ∀ k k' i, i ∈ cells k → i ∈ cells k' → k = k'

namespace Family

variable {links : List (Option Nat)} {head : κ → Option Nat} {cells : κ → List Nat}

theorem empty (links : List (Option Nat)) :
    Family links (fun _ : κ => none) (fun _ => []) where
  threaded _ := .nil
  disjoint _ _ _ h := absurd h List.not_mem_nil

/-- The lists do not change when the vector grows. -/
theorem grow (h : Family links head cells) (new : List (Option Nat)) :
    Family (links ++ new) head cells where
  threaded k := (h.threaded k).frame fun _ hi =>
    List.getElem?_append_left ((h.threaded k).lt_length hi)
  disjoint := h.disjoint

variable [DecidableEq κ]

/-- A cell that is on no list is linked to the head of a list, and becomes its
    head. -/
theorem link (h : Family links head cells) (k : κ) {i : Nat} (hi : i < links.length)
    (hfree : ∀ k', i ∉ cells k') :
    Family (links.set i (head k)) (Function.update head k (some i))
      (Function.update cells k (i :: cells k)) := by
  have hframe : ∀ k', Threaded (links.set i (head k)) (head k') (cells k') := by
    intro k'
    refine (h.threaded k').frame fun j hj => ?_
    rw [List.getElem?_set_ne]
    rintro rfl
    exact hfree k' hj
  constructor
  · intro k'
    by_cases hk : k' = k
    · rw [hk, Function.update_self, Function.update_self]
      exact .cons (List.getElem?_set_self hi) (hframe k)
    · rw [Function.update_of_ne hk, Function.update_of_ne hk]
      exact hframe k'
  · -- the new cell is on the list of `k` only
    have hcells : ∀ k' j, j ∈ Function.update cells k (i :: cells k) k' →
        j ∈ cells k' ∨ j = i ∧ k' = k := by
      intro k' j hj
      by_cases hk : k' = k
      · rw [hk, Function.update_self] at hj
        rcases List.mem_cons.mp hj with hj | hj
        · exact .inr ⟨hj, hk⟩
        · exact .inl (hk ▸ hj)
      · rw [Function.update_of_ne hk] at hj
        exact .inl hj
    intro k₁ k₂ j h₁ h₂
    rcases hcells k₁ j h₁ with h₁ | ⟨hj₁, hk₁⟩
    · rcases hcells k₂ j h₂ with h₂ | ⟨hj₂, -⟩
      · exact h.disjoint k₁ k₂ j h₁ h₂
      · exact absurd (hj₂ ▸ h₁) (hfree k₁)
    · rcases hcells k₂ j h₂ with h₂ | ⟨-, hk₂⟩
      · exact absurd (hj₁ ▸ h₂) (hfree k₂)
      · rw [hk₁, hk₂]

/-- A cell pushed onto the vector with a link to the head of a list becomes its
    head. -/
theorem push (h : Family links head cells) (k : κ) :
    Family (links ++ [head k]) (Function.update head k (some links.length))
      (Function.update cells k (links.length :: cells k)) := by
  have hfree : ∀ k', links.length ∉ cells k' := fun k' hk' =>
    Nat.lt_irrefl _ ((h.threaded k').lt_length hk')
  have hset : (links ++ [none]).set links.length (head k) = links ++ [head k] := by
    rw [List.set_append_right _ _ (Nat.le_refl _), Nat.sub_self, List.set_cons_zero]
  rw [← hset]
  exact (h.grow [none]).link k (by simp) hfree

/-- Linking the last cell of the list of `k` to the list of `k'` moves the cells
    of `k` in front of those of `k'`. -/
theorem append (h : Family links head cells) {k k' : κ} (hk : k ≠ k') {front : List Nat}
    {last : Nat} (hcells : cells k = front ++ [last]) :
    Family (links.set last (head k')) (Function.update (Function.update head k' (head k)) k none)
      (Function.update (Function.update cells k' (cells k ++ cells k')) k []) := by
  have hlast : last ∈ cells k := by
    rw [hcells]
    simp
  have hdisjoint : ∀ i ∈ front ++ [last], i ∉ cells k' := by
    intro i hi hi'
    rw [← hcells] at hi
    exact hk (h.disjoint k k' i hi hi')
  constructor
  · intro j
    by_cases hj : j = k
    · rw [hj, Function.update_self, Function.update_self]
      exact .nil
    · rw [Function.update_of_ne hj, Function.update_of_ne hj]
      by_cases hj' : j = k'
      · rw [hj', Function.update_self, Function.update_self, hcells, List.append_assoc,
          List.singleton_append]
        exact Threaded.append (hcells ▸ h.threaded k) (h.threaded k') hdisjoint
      · rw [Function.update_of_ne hj', Function.update_of_ne hj']
        refine (h.threaded j).frame fun i hi => ?_
        rw [List.getElem?_set_ne]
        rintro rfl
        exact hj (h.disjoint j k last hi hlast)
  · -- a cell of the joined list comes from one of the two
    have hmem : ∀ j i,
        i ∈ Function.update (Function.update cells k' (cells k ++ cells k')) k [] j →
        j ≠ k ∧ (i ∈ cells j ∨ j = k' ∧ i ∈ cells k) := by
      intro j i hi
      by_cases hj : j = k
      · rw [hj, Function.update_self] at hi
        exact absurd hi List.not_mem_nil
      · rw [Function.update_of_ne hj] at hi
        by_cases hj' : j = k'
        · rw [hj', Function.update_self] at hi
          exact ⟨hj, (List.mem_append.mp hi).elim (fun hi => .inr ⟨hj', hi⟩)
            fun hi => .inl (hj' ▸ hi)⟩
        · rw [Function.update_of_ne hj'] at hi
          exact ⟨hj, .inl hi⟩
    intro j₁ j₂ i h₁ h₂
    obtain ⟨hne₁, h₁⟩ := hmem j₁ i h₁
    obtain ⟨hne₂, h₂⟩ := hmem j₂ i h₂
    rcases h₁ with h₁ | ⟨hj₁, h₁⟩
    · rcases h₂ with h₂ | ⟨-, h₂⟩
      · exact h.disjoint j₁ j₂ i h₁ h₂
      · exact absurd (h.disjoint j₁ k i h₁ h₂) hne₁
    · rcases h₂ with h₂ | ⟨hj₂, -⟩
      · exact absurd (h.disjoint j₂ k i h₂ h₁) hne₂
      · rw [hj₁, hj₂]

/-- The list of `k` becomes that of `k'`, whose own is empty. -/
theorem move (h : Family links head cells) {k k' : κ} (hempty : cells k' = []) :
    Family links (Function.update (Function.update head k' (head k)) k none)
      (Function.update (Function.update cells k' (cells k ++ cells k')) k []) := by
  have hmem : ∀ j, j ≠ k →
      Function.update (Function.update cells k' (cells k ++ cells k')) k [] j =
        if j = k' then cells k else cells j := by
    intro j hj
    rw [Function.update_of_ne hj]
    by_cases hj' : j = k'
    · rw [if_pos hj', hj', Function.update_self, hempty, List.append_nil]
    · rw [if_neg hj', Function.update_of_ne hj']
  constructor
  · intro j
    by_cases hj : j = k
    · rw [hj, Function.update_self, Function.update_self]
      exact .nil
    · rw [hmem j hj, Function.update_of_ne hj]
      by_cases hj' : j = k'
      · rw [if_pos hj', hj', Function.update_self]
        exact h.threaded k
      · rw [if_neg hj', Function.update_of_ne hj']
        exact h.threaded j
  · intro j₁ j₂ i h₁ h₂
    have hne : ∀ j, i ∈ Function.update (Function.update cells k' (cells k ++ cells k')) k [] j →
        j ≠ k := by
      rintro j hi rfl
      rw [Function.update_self] at hi
      exact absurd hi List.not_mem_nil
    have hne₁ := hne j₁ h₁
    have hne₂ := hne j₂ h₂
    rw [hmem j₁ hne₁] at h₁
    rw [hmem j₂ hne₂] at h₂
    by_cases hj₁ : j₁ = k'
    · by_cases hj₂ : j₂ = k'
      · rw [hj₁, hj₂]
      · rw [if_pos hj₁] at h₁
        rw [if_neg hj₂] at h₂
        exact absurd (h.disjoint j₂ k i h₂ h₁) hne₂
    · rw [if_neg hj₁] at h₁
      by_cases hj₂ : j₂ = k'
      · rw [if_pos hj₂] at h₂
        exact absurd (h.disjoint j₁ k i h₁ h₂) hne₁
      · rw [if_neg hj₂] at h₂
        exact h.disjoint j₁ j₂ i h₁ h₂

end Family

end Family

end MutationTesting.Rust.LinkedList
