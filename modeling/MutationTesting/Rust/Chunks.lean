/-
  MutationTesting.Rust.Chunks

  A sorted vector and the ranges of its chunks: `chunk_by` on the key of an
  entry, and a map from each key to the range of the entries that have it.  The
  entries of a key are then a slice.
-/
import MutationTesting.Rust.Abort
import MutationTesting.Rust.IndexMap
import Mathlib.Data.List.SplitBy
import Mathlib.Order.Defs.LinearOrder

namespace MutationTesting.Rust.Chunks

variable {α κ : Type} [LinearOrder κ] (key : α → κ)

/-- One round of the loop over the chunks: the range of the chunk goes under the key
    of its first entry. -/
def record (state : IndexMap κ (Nat × Nat) × Nat) (chunk : List α) :
    Res (IndexMap κ (Nat × Nat) × Nat) := do
  let (ranges, start) := state
  let first ← index chunk 0
  return (ranges.insert (key first) (start, start + chunk.length), start + chunk.length)

/-- The ranges of the chunks of equal keys. -/
def rangesOf (xs : List α) : Res (IndexMap κ (Nat × Nat)) := do
  let (ranges, _) ← (xs.splitBy fun x y => key x = key y).foldlM (record key) (.empty, 0)
  return ranges

/-- `&xs[range]`, the empty slice where there is no range. -/
def slice {β : Type} (ranges : IndexMap κ (Nat × Nat)) (xs : List β) (k : κ) : List β :=
  match ranges.get k with
  | some (start, stop) => (xs.drop start).take (stop - start)
  | none => []

variable {key}

/-- The chunks still to be recorded: each has entries of one key, and keys that
    are in no other chunk. -/
inductive Separate (key : α → κ) : List (List α) → Prop where
  | nil : Separate key []
  | cons {x : α} {chunk : List α} {chunks : List (List α)} (hsame : ∀ y ∈ chunk, key y = key x)
      (hother : ∀ y ∈ chunks.flatten, key y ≠ key x) (rest : Separate key chunks) :
      Separate key ((x :: chunk) :: chunks)

/-- The keys of a chunk are all those of its first entry. -/
theorem key_of_isChain {x : α} {chunk : List α}
    (h : (x :: chunk).IsChain fun y z => (decide (key y = key z)) = true) :
    ∀ y ∈ chunk, key y = key x := by
  induction chunk generalizing x with
  | nil => exact fun y hy => absurd hy List.not_mem_nil
  | cons z chunk ih =>
    obtain ⟨hxz, hrest⟩ := List.isChain_cons_cons.mp h
    have hz : key x = key z := of_decide_eq_true hxz
    intro y hy
    rcases List.mem_cons.mp hy with rfl | hy
    · exact hz.symm
    · exact (ih hrest y hy).trans hz.symm

/-- The chunks of a sorted list are separate. -/
theorem separate_chunks {chunks : List (List α)} (hnil : [] ∉ chunks)
    (hchain : ∀ chunk ∈ chunks, chunk.IsChain fun y z => (decide (key y = key z)) = true)
    (hnext : chunks.IsChain fun a b =>
      ∃ ha hb, (decide (key (a.getLast ha) = key (b.head hb))) = false)
    (hsorted : chunks.flatten.Pairwise fun x y => key x ≤ key y) : Separate key chunks := by
  induction chunks with
  | nil => exact .nil
  | cons chunk chunks ih =>
    obtain ⟨x, rest, rfl⟩ : ∃ x rest, chunk = x :: rest :=
      List.exists_cons_of_ne_nil fun h => hnil (by rw [h]; exact List.mem_cons_self)
    have hsame := key_of_isChain (hchain _ List.mem_cons_self)
    rw [List.flatten_cons] at hsorted
    obtain ⟨-, hlater, hcross⟩ := List.pairwise_append.mp hsorted
    refine .cons hsame ?_ (ih (fun h => hnil (List.mem_cons_of_mem _ h))
      (fun c hc => hchain c (List.mem_cons_of_mem _ hc)) hnext.tail hlater)
    intro y hy
    cases chunks with
    | nil => exact absurd hy List.not_mem_nil
    | cons next chunks =>
      obtain ⟨z, restz, rfl⟩ : ∃ z restz, next = z :: restz :=
        List.exists_cons_of_ne_nil fun h => hnil (by rw [h]; simp)
      obtain ⟨⟨ha, hb, hdiffer⟩, -⟩ := List.isChain_cons_cons.mp hnext
      have hlast : key ((x :: rest).getLast ha) = key x := by
        rcases List.mem_cons.mp (List.getLast_mem ha) with h | h
        · rw [h]
        · exact hsame _ h
      have hz : key x < key z := by
        refine lt_of_le_of_ne (hcross x List.mem_cons_self z (by simp)) fun heq => ?_
        rw [hlast, List.head_cons] at hdiffer
        exact of_decide_eq_false hdiffer heq
      -- every later entry is at least the first of the next chunk
      have hle : key z ≤ key y := by
        rw [List.flatten_cons, List.cons_append, List.mem_cons] at hy
        rcases hy with rfl | hy
        · exact le_refl _
        · rw [List.flatten_cons, List.cons_append] at hlater
          exact (List.pairwise_cons.mp hlater).1 y hy
      exact (hz.trans_le hle).ne'

/-- Recording separate chunks gives each of their keys its range, and leaves the
    other keys alone. -/
theorem foldlM_record {chunks : List (List α)} (hchunks : Separate key chunks)
    (done : List α) (ranges : IndexMap κ (Nat × Nat))
    (hdone : ∀ x ∈ chunks.flatten, ∀ y ∈ done, key x ≠ key y)
    (hranges : ∀ (rest : List α) (k : κ), slice ranges (done ++ rest) k =
      done.filter fun x => key x = k) :
    ∃ ranges', chunks.foldlM (record key) (ranges, done.length) =
        .ok (ranges', (done ++ chunks.flatten).length) ∧
      ∀ k, slice ranges' (done ++ chunks.flatten) k =
        (done ++ chunks.flatten).filter fun x => key x = k := by
  induction hchunks generalizing done ranges with
  | nil =>
    refine ⟨ranges, by simp, fun k => ?_⟩
    have hk := hranges [] k
    simpa using hk
  | @cons x chunk chunks hsame hother hrest ih =>
    have hfresh : ∀ y ∈ done, key y ≠ key x := fun y hy h =>
      hdone x (by simp) y hy h.symm
    have hchunk : ∀ y ∈ x :: chunk, key y = key x := by
      intro y hy
      rcases List.mem_cons.mp hy with rfl | hy
      · rfl
      · exact hsame y hy
    obtain ⟨ranges', hfold, hslices⟩ := ih (done ++ (x :: chunk))
      (ranges.insert (key x) (done.length, done.length + (x :: chunk).length))
      (by
        intro y hy z hz
        rcases List.mem_append.mp hz with hz | hz
        · exact hdone y (by simp [hy]) z hz
        · rw [hchunk z hz]
          exact hother y hy)
      (by
        intro rest k
        unfold slice
        rw [IndexMap.get_insert, List.filter_append]
        by_cases hk : k = key x
        · have hnone : (done.filter fun y => key y = k) = [] := by
            rw [List.filter_eq_nil_iff]
            intro y hy
            rw [hk]
            simpa using hfresh y hy
          have hall : ((x :: chunk).filter fun y => key y = k) = x :: chunk := by
            rw [List.filter_eq_self]
            intro y hy
            rw [hk]
            simpa using hchunk y hy
          rw [if_pos hk, hnone, hall, List.append_assoc, List.nil_append]
          simp
        · have hnone : ((x :: chunk).filter fun y => key y = k) = [] := by
            rw [List.filter_eq_nil_iff]
            intro y hy
            rw [hchunk y hy]
            simpa using Ne.symm hk
          rw [if_neg hk, hnone, List.append_nil, List.append_assoc]
          exact hranges _ k)
    refine ⟨ranges', ?_, ?_⟩
    · have hstep : record key (ranges, done.length) (x :: chunk) =
          .ok (ranges.insert (key x) (done.length, done.length + (x :: chunk).length),
            (done ++ x :: chunk).length) := by
        simp [record, index]
      rw [List.foldlM_cons, hstep, Res.ok_bind, hfold, List.flatten_cons, List.append_assoc]
    · intro k
      rw [List.flatten_cons, ← List.append_assoc]
      exact hslices k

/-- In a sorted vector the range of a key has exactly the entries with that key. -/
theorem rangesOf_spec {xs : List α} (hsorted : xs.Pairwise fun x y => key x ≤ key y) :
    ∃ ranges, rangesOf key xs = .ok ranges ∧
      ∀ k, slice ranges xs k = xs.filter fun x => key x = k := by
  have hflatten := List.flatten_splitBy (fun x y => decide (key x = key y)) xs
  have hseparate : Separate key (xs.splitBy fun x y => decide (key x = key y)) :=
    separate_chunks (List.nil_notMem_splitBy _ _)
      (fun chunk hchunk => List.isChain_of_mem_splitBy hchunk)
      (List.isChain_getLast_head_splitBy (fun x y => decide (key x = key y)) xs)
      (by rwa [hflatten])
  obtain ⟨ranges, hfold, hslices⟩ := foldlM_record hseparate [] .empty
    (fun _ _ y hy => absurd hy List.not_mem_nil) (fun _ _ => rfl)
  rw [hflatten, List.nil_append] at hfold hslices
  refine ⟨ranges, ?_, hslices⟩
  rw [List.length_nil] at hfold
  rw [rangesOf, hfold]
  rfl

theorem slice_map {β : Type} (f : α → β) (ranges : IndexMap κ (Nat × Nat)) (xs : List α) (k : κ) :
    slice ranges (xs.map f) k = (slice ranges xs k).map f := by
  unfold slice
  cases ranges.get k with
  | none => rfl
  | some range =>
    dsimp only
    rw [List.map_take, List.map_drop]

end MutationTesting.Rust.Chunks
