/-
  MutationTesting.Rust.HashSet

  `std::collections::HashSet`: a duplicate-free list of elements.  The order in
  which a `HashSet` is iterated is not specified, so it is a parameter: a
  `HashOrder` reorders the elements, and nothing more is known of it.
-/
import MutationTesting.Rust.Abort
import Mathlib.Data.List.Perm.Basic
import Mathlib.Data.List.Nodup

namespace MutationTesting.Rust

/-- A hash set: its elements, each once. -/
structure HashSet (α : Type) where
  elems : List α
  nodup : elems.Nodup

/-- An iteration order of the hash sets over `α`. -/
structure HashOrder (α : Type) where
  iter : List α → List α
  iter_perm : ∀ xs, (iter xs).Perm xs

/-- The order in which the elements were inserted last. -/
def HashOrder.insertion (α : Type) : HashOrder α := ⟨id, fun _ => .rfl⟩

namespace HashSet

variable {α : Type}

instance : Membership α (HashSet α) := ⟨fun s a => a ∈ s.elems⟩

theorem mem_def {s : HashSet α} {a : α} : a ∈ s ↔ a ∈ s.elems := Iff.rfl

/-- `HashSet::new`. -/
def empty : HashSet α := ⟨[], List.nodup_nil⟩

@[simp] theorem not_mem_empty (a : α) : a ∉ (empty : HashSet α) := by
  simp [mem_def, empty]

/-- `HashSet::iter` and `HashSet::drain` in the given order. -/
def iter (order : HashOrder α) (s : HashSet α) : List α := order.iter s.elems

@[simp] theorem mem_iter {order : HashOrder α} {s : HashSet α} {a : α} :
    a ∈ s.iter order ↔ a ∈ s :=
  (order.iter_perm s.elems).mem_iff

theorem nodup_iter (order : HashOrder α) (s : HashSet α) : (s.iter order).Nodup :=
  (order.iter_perm s.elems).nodup_iff.mpr s.nodup

section DecidableEq

variable [DecidableEq α]

instance (a : α) (s : HashSet α) : Decidable (a ∈ s) :=
  inferInstanceAs (Decidable (a ∈ s.elems))

/-- `HashSet::insert`. -/
def insert (s : HashSet α) (a : α) : HashSet α :=
  ⟨s.elems.insert a, s.nodup.insert⟩

@[simp] theorem mem_insert {s : HashSet α} {a b : α} : a ∈ s.insert b ↔ a = b ∨ a ∈ s :=
  List.mem_insert_iff

/-- `HashSet::extend`. -/
def extend (s : HashSet α) (xs : List α) : HashSet α := xs.foldl insert s

@[simp] theorem mem_extend {s : HashSet α} {xs : List α} {a : α} :
    a ∈ s.extend xs ↔ a ∈ s ∨ a ∈ xs := by
  induction xs generalizing s with
  | nil => simp [extend]
  | cons x xs ih =>
    have hstep : s.extend (x :: xs) = (s.insert x).extend xs := rfl
    rw [hstep, ih, mem_insert, List.mem_cons]
    tauto

/-- `collect::<HashSet<_>>`. -/
def collect (xs : List α) : HashSet α := empty.extend xs

@[simp] theorem mem_collect {xs : List α} {a : α} : a ∈ collect xs ↔ a ∈ xs := by
  simp [collect]

end DecidableEq

end HashSet

end MutationTesting.Rust
