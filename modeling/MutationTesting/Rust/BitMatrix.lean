/-
  MutationTesting.Rust.BitMatrix

  Sparse matrices of bits (`SparseBitMatrix`, `SparseIntervalMatrix`): a row is
  a finite set of columns, and is not there until something is written to it.
  A row that is not there and an empty row have the same members and are told
  apart by `row`.
-/
import Mathlib.Data.Finset.Basic
import Mathlib.Data.Finset.Lattice.Lemmas
import Mathlib.Data.Finset.Range

namespace MutationTesting.Rust

/-- A matrix with the given rows that are there. -/
structure BitMatrix (ρ : Type) where
  row : ρ → Option (Finset Nat)

namespace BitMatrix

variable {ρ : Type}

def empty : BitMatrix ρ := ⟨fun _ => none⟩

/-- The columns set in a row, none where the row is not there. -/
def cols (m : BitMatrix ρ) (r : ρ) : Finset Nat := (m.row r).getD ∅

/-- `contains(row, column)`. -/
def contains (m : BitMatrix ρ) (r : ρ) (c : Nat) : Bool := decide (c ∈ m.cols r)

theorem cols_of_some {m : BitMatrix ρ} {r : ρ} {set : Finset Nat} (h : m.row r = some set) :
    m.cols r = set := by
  rw [cols, h, Option.getD_some]

theorem cols_of_none {m : BitMatrix ρ} {r : ρ} (h : m.row r = none) : m.cols r = ∅ := by
  rw [cols, h, Option.getD_none]

@[simp] theorem cols_empty (r : ρ) : (empty : BitMatrix ρ).cols r = ∅ := rfl

variable [DecidableEq ρ]

/-- The matrix with the union of row `r` and `set` in row `r`. -/
def write (m : BitMatrix ρ) (r : ρ) (set : Finset Nat) : BitMatrix ρ :=
  ⟨fun r' => if r' = r then some (m.cols r ∪ set) else m.row r'⟩

/-- `insert(row, column)`: whether the column was not set, and the matrix with
    it set. -/
def insert (m : BitMatrix ρ) (r : ρ) (c : Nat) : Bool × BitMatrix ρ :=
  (!m.contains r c, m.write r {c})

/-- `insert_all_into_row(row)` of a matrix with `columns` columns. -/
def insertAllIntoRow (m : BitMatrix ρ) (columns : Nat) (r : ρ) : BitMatrix ρ :=
  m.write r (Finset.range columns)

/-- `union_row(row, set)`: whether the row changes, and the matrix after it. -/
def unionRow (m : BitMatrix ρ) (r : ρ) (set : Finset Nat) : Bool × BitMatrix ρ :=
  (!decide (set ⊆ m.cols r), m.write r set)

/-- `union_rows(read, write)`: the columns of the first row are added to the
    second. -/
def unionRows (m : BitMatrix ρ) (read write : ρ) : Bool × BitMatrix ρ :=
  match m.row read with
  | none => (false, m)
  | some set => if read = write then (false, m) else m.unionRow write set

theorem cols_write (m : BitMatrix ρ) (r r' : ρ) (set : Finset Nat) :
    (m.write r set).cols r' = if r' = r then m.cols r ∪ set else m.cols r' := by
  by_cases h : r' = r
  · simp [cols, write, h]
  · simp [cols, write, h]

/-- A union of rows adds the columns of the first row to the second, whichever
    of the two rows are there. -/
theorem cols_unionRows (m : BitMatrix ρ) (read write r : ρ) :
    (m.unionRows read write).2.cols r =
      if r = write then m.cols write ∪ m.cols read else m.cols r := by
  unfold unionRows
  cases h : m.row read with
  | none =>
    simp only [cols_of_none h, Finset.union_empty]
    by_cases hr : r = write
    · rw [if_pos hr, hr]
    · rw [if_neg hr]
  | some set =>
    have hset : m.cols read = set := cols_of_some h
    by_cases hrw : read = write
    · simp only [if_pos hrw]
      rw [hrw, Finset.union_self]
      by_cases hr : r = write
      · rw [if_pos hr, hr]
      · rw [if_neg hr]
    · simp only [if_neg hrw, unionRow, cols_write, hset]

/-- A union of rows reports whether the second row changes. -/
theorem unionRows_changed (m : BitMatrix ρ) (read write : ρ) :
    (m.unionRows read write).1 = true ↔ ¬ m.cols read ⊆ m.cols write := by
  unfold unionRows
  cases h : m.row read with
  | none => simp [cols_of_none h]
  | some set =>
    have hset : m.cols read = set := cols_of_some h
    by_cases hrw : read = write
    · simp [hrw]
    · simp [if_neg hrw, unionRow, hset]

end BitMatrix

/-! ## Runs of columns -/

/-- `first_unset_in(start..=end)`: the lowest column of the range that is not in
    the row. -/
def firstUnsetIn (set : Finset Nat) (start stop : Nat) : Option Nat :=
  (List.range' start (stop + 1 - start)).find? (· ∉ set)

theorem firstUnsetIn_eq_some {set : Finset Nat} {start stop c : Nat} :
    firstUnsetIn set start stop = some c ↔
      start ≤ c ∧ c ≤ stop ∧ c ∉ set ∧ ∀ c', start ≤ c' → c' < c → c' ∈ set := by
  unfold firstUnsetIn
  rw [List.find?_range'_eq_some]
  simp only [decide_eq_true_eq, List.mem_range'_1, Bool.not_eq_true', decide_eq_false_iff_not,
    not_not]
  constructor
  · rintro ⟨hc, ⟨hle, hlt⟩, hbefore⟩
    exact ⟨hle, by omega, hc, fun c' h h' => hbefore c' h h'⟩
  · rintro ⟨hle, hlt, hc, hbefore⟩
    exact ⟨hc, ⟨hle, by omega⟩, fun c' h h' => hbefore c' h h'⟩

theorem firstUnsetIn_eq_none {set : Finset Nat} {start stop : Nat} :
    firstUnsetIn set start stop = none ↔ ∀ c, start ≤ c → c ≤ stop → c ∈ set := by
  unfold firstUnsetIn
  rw [List.find?_eq_none]
  simp only [decide_eq_true_eq, List.mem_range'_1, not_not]
  constructor
  · intro h c hle hlt
    exact h c ⟨hle, by omega⟩
  · rintro h c ⟨hle, hlt⟩
    exact h c hle (by omega)

end MutationTesting.Rust
