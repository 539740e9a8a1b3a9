/-
  MutationTesting.Graph.Walk

  Walks in finitely branching graphs, given by the successors of each vertex:
  acyclic relations, whose chains never repeat a vertex, the depth of a vertex,
  and the number of walks that start at it.
-/
import Mathlib.Logic.Relation
import Mathlib.Data.List.Chain
import Mathlib.Data.List.Nodup
import Mathlib.Data.List.Perm.Subperm
import Mathlib.Algebra.Order.BigOperators.Group.List
import Mathlib.Algebra.GroupWithZero.Nat

namespace MutationTesting.Graph

open Relation

variable {α : Type}

/-! ## Acyclic relations -/

/-- No vertex reaches itself in one step or more. -/
def Acyclic (r : α → α → Prop) : Prop := ∀ a, ¬ TransGen r a a

section Acyclic

variable {r : α → α → Prop}

/-- A relation along which some rank decreases has no cycle. -/
theorem acyclic_of_rank (rank : α → Nat) (h : ∀ a b, r a b → rank b < rank a) : Acyclic r := by
  have hlt : ∀ a b, TransGen r a b → rank b < rank a := by
    intro a b hab
    induction hab with
    | single hab => exact h _ _ hab
    | tail _ hbc ih => exact (h _ _ hbc).trans ih
  intro a ha
  exact Nat.lt_irrefl _ (hlt a a ha)

theorem Acyclic.nodup_of_isChain (hr : Acyclic r) {path : List α} (h : path.IsChain r) :
    path.Nodup := by
  have hpairwise : path.Pairwise (TransGen r) := (h.imp fun _ _ => TransGen.single).pairwise
  refine hpairwise.imp ?_
  rintro a b hab rfl
  exact hr a hab

/-- A chain of an acyclic relation is no longer than there are vertices. -/
theorem Acyclic.length_le (hr : Acyclic r) {path vertices : List α} (h : path.IsChain r)
    (hsub : path ⊆ vertices) : path.length ≤ vertices.length :=
  ((hr.nodup_of_isChain h).subperm hsub).length_le

end Acyclic

/-! ## Depth and number of walks -/

section Successors

variable (succ : α → List α)

/-- `b` is a successor of `a`. -/
def Step (a b : α) : Prop := b ∈ succ a

/-- Every walk from `a` has at most `depth` vertices. -/
def DepthLe (depth : Nat) (a : α) : Prop :=
  ∀ rest, (a :: rest).IsChain (Step succ) → (a :: rest).length ≤ depth

/-- The number of walks from `a`, of those with at most `depth` further
    vertices: the empty one, and those that go on from a successor. -/
def walkCount : Nat → α → Nat
  | 0, _ => 1
  | depth + 1, a => 1 + ((succ a).map (walkCount depth)).sum

variable {succ}

/-- A walk has a first vertex. -/
theorem DepthLe.pos {depth : Nat} {a : α} (h : DepthLe succ depth a) : 0 < depth :=
  h [] (.singleton a)

theorem DepthLe.step {depth : Nat} {a b : α} (h : DepthLe succ (depth + 1) a)
    (hb : b ∈ succ a) : DepthLe succ depth b := by
  intro rest hrest
  have hlen := h (b :: rest) (hrest.cons_cons hb)
  exact Nat.le_of_succ_le_succ hlen

theorem DepthLe.mono {depth depth' : Nat} {a : α} (h : DepthLe succ depth a)
    (hle : depth ≤ depth') : DepthLe succ depth' a :=
  fun rest hrest => (h rest hrest).trans hle

/-- The successors are no deeper than the vertex itself. -/
theorem DepthLe.of_mem {depth : Nat} {a b : α} (h : DepthLe succ depth a) (hb : b ∈ succ a) :
    DepthLe succ depth b :=
  (h.mono (Nat.le_succ depth)).step hb

/-- Past the depth of a vertex no further walk is found. -/
theorem walkCount_succ {depth : Nat} {a : α} (h : DepthLe succ depth a) :
    walkCount succ (depth + 1) a = walkCount succ depth a := by
  induction depth generalizing a with
  | zero => exact absurd h.pos (Nat.lt_irrefl 0)
  | succ depth ih =>
    have hsame : ∀ b ∈ succ a, walkCount succ (depth + 1) b = walkCount succ depth b :=
      fun b hb => ih (h.step hb)
    calc walkCount succ (depth + 2) a
        = 1 + ((succ a).map (walkCount succ (depth + 1))).sum := rfl
      _ = 1 + ((succ a).map (walkCount succ depth)).sum := by rw [List.map_congr_left hsame]
      _ = walkCount succ (depth + 1) a := rfl

/-- Below the depth, a vertex has the empty walk and those of its successors. -/
theorem walkCount_eq {depth : Nat} {a : α} (h : DepthLe succ depth a) :
    walkCount succ depth a = 1 + ((succ a).map (walkCount succ depth)).sum := by
  rw [← walkCount_succ h]
  rfl

theorem walkCount_pos (succ : α → List α) (depth : Nat) (a : α) :
    0 < walkCount succ depth a := by
  cases depth with
  | zero => exact Nat.one_pos
  | succ depth =>
    have hle : 1 ≤ 1 + ((succ a).map (walkCount succ depth)).sum := Nat.le_add_right 1 _
    exact hle

/-- In an acyclic graph every vertex is at most as deep as there are vertices. -/
theorem Acyclic.depthLe (hr : Acyclic (Step succ)) {vertices : List α}
    (hsucc : ∀ a, succ a ⊆ vertices) {a : α} (ha : a ∈ vertices) :
    DepthLe succ vertices.length a := by
  have hmem : ∀ (rest : List α) (a : α), a ∈ vertices → (a :: rest).IsChain (Step succ) →
      a :: rest ⊆ vertices := by
    intro rest
    induction rest with
    | nil =>
      intro a ha _ b hb
      rwa [List.mem_singleton.mp hb]
    | cons b rest ih =>
      intro a ha h
      obtain ⟨hab, hrest⟩ := List.isChain_cons_cons.mp h
      exact List.cons_subset.mpr ⟨ha, ih b (hsucc a hab) hrest⟩
  intro rest h
  exact hr.length_le h (hmem rest a ha h)

end Successors

end MutationTesting.Graph
