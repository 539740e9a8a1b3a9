/-
  MutationTesting.Graph.Blocks

  Graphs whose vertices are the points of blocks: the points of a block follow
  one another, and the last one leads to the first points of other blocks.
  Walks within a set of points, and the points at which they leave it.
-/
import MutationTesting.Graph.Walk

namespace MutationTesting.Graph

open Relation

/-- The index of the last point of each block, and the blocks it leads to. -/
structure Blocks (β : Type) where
  last : β → Nat
  successors : β → List β

namespace Blocks

variable {β : Type}

/-- A step from a point to the next one. -/
inductive Step (g : Blocks β) : β × Nat → β × Nat → Prop
  | next {b : β} {i : Nat} (hi : i < g.last b) : Step g (b, i) (b, i + 1)
  | block {b c : β} (hc : c ∈ g.successors b) : Step g (b, g.last b) (c, 0)

/-- A step from a point of the set. -/
def StepWithin (g : Blocks β) (stays : β × Nat → Prop) (p q : β × Nat) : Prop :=
  stays p ∧ g.Step p q

/-- A walk within the set comes to a point out of it. -/
def Leaves (g : Blocks β) (stays : β × Nat → Prop) (p q : β × Nat) : Prop :=
  ReflTransGen (g.StepWithin stays) p q ∧ ¬ stays q

/-- All points of the block from the given one on are in the set. -/
def Crossed (g : Blocks β) (stays : β × Nat → Prop) (b : β) (i : Nat) : Prop :=
  ∀ k, i ≤ k → k ≤ g.last b → stays (b, k)

/-- A step from a block that lies in the set to a successor. -/
def CrossStep (g : Blocks β) (stays : β × Nat → Prop) (b c : β) : Prop :=
  g.Crossed stays b 0 ∧ c ∈ g.successors b

/-- The points of a block from one up to another are in the set, the last one aside. -/
def WithinBlock (g : Blocks β) (stays : β × Nat → Prop) (b : β) (i j : Nat) : Prop :=
  i ≤ j ∧ j ≤ g.last b ∧ ∀ k, i ≤ k → k < j → stays (b, k)

variable {g : Blocks β} {stays : β × Nat → Prop}

theorem WithinBlock.walk {b : β} {i j : Nat} (h : g.WithinBlock stays b i j) :
    ReflTransGen (g.StepWithin stays) (b, i) (b, j) := by
  obtain ⟨hij, hj, hstays⟩ := h
  induction hij with
  | refl => exact .refl
  | @step j hij ih =>
    have hprefix := ih (Nat.le_of_succ_le hj) fun k hk hkj => hstays k hk (Nat.lt_succ_of_lt hkj)
    exact hprefix.tail ⟨hstays j hij (Nat.lt_succ_self j), .next hj⟩

/-- A block that is crossed leads on to its successors. -/
theorem Crossed.walk {b c : β} {i : Nat} (h : g.Crossed stays b i) (hi : i ≤ g.last b)
    (hc : c ∈ g.successors b) : ReflTransGen (g.StepWithin stays) (b, i) (c, 0) := by
  have hblock : g.WithinBlock stays b i (g.last b) :=
    ⟨hi, Nat.le_refl _, fun k hk hlt => h k hk hlt.le⟩
  exact hblock.walk.tail ⟨h _ hi (Nat.le_refl _), .block hc⟩

theorem walk_of_crossSteps {root c : β} (h : ReflTransGen (g.CrossStep stays) root c) :
    ReflTransGen (g.StepWithin stays) (root, 0) (c, 0) := by
  induction h with
  | refl => exact .refl
  | tail _ hstep ih => exact ih.trans (hstep.1.walk (Nat.zero_le _) hstep.2)

/-- A walk within the set stays in its block, or crosses what is left of it and then
    whole blocks up to the one that it ends in. -/
theorem walk_iff {b c : β} {i j : Nat} (hi : i ≤ g.last b) :
    ReflTransGen (g.StepWithin stays) (b, i) (c, j) ↔
      (c = b ∧ g.WithinBlock stays b i j) ∨
        g.Crossed stays b i ∧ ∃ root ∈ g.successors b,
          ReflTransGen (g.CrossStep stays) root c ∧ g.WithinBlock stays c 0 j := by
  constructor
  · intro h
    generalize hp : (c, j) = p at h
    induction h generalizing c j with
    | refl =>
      cases hp
      exact .inl ⟨rfl, Nat.le_refl i, hi, fun k hk hlt => absurd hlt (Nat.not_lt.mpr hk)⟩
    | @tail q p _ hstep ih =>
      obtain ⟨hstays, hstep⟩ := hstep
      cases hstep with
      | @next d k hk =>
        cases hp
        -- one point further in the block
        have hfurther : ∀ i, g.WithinBlock stays c i k → g.WithinBlock stays c i (k + 1) := by
          rintro i ⟨hik, -, hin⟩
          refine ⟨Nat.le_succ_of_le hik, hk, fun m hm hlt => ?_⟩
          rcases Nat.lt_succ_iff_lt_or_eq.mp hlt with hlt | rfl
          · exact hin m hm hlt
          · exact hstays
        rcases ih rfl with ⟨rfl, hin⟩ | ⟨hcrossed, root, hroot, hpath, hin⟩
        · exact .inl ⟨rfl, hfurther _ hin⟩
        · exact .inr ⟨hcrossed, root, hroot, hpath, hfurther _ hin⟩
      | @block d e he =>
        cases hp
        have hstart : g.WithinBlock stays c 0 0 :=
          ⟨Nat.le_refl 0, Nat.zero_le _, fun m _ hlt => absurd hlt (Nat.not_lt_zero m)⟩
        -- the block before is crossed, as its last point is in the set too
        have hcross : ∀ i, g.WithinBlock stays d i (g.last d) → g.Crossed stays d i := by
          rintro i ⟨-, -, hin⟩ m hm hle
          rcases Nat.lt_or_eq_of_le hle with hlt | rfl
          · exact hin m hm hlt
          · exact hstays
        rcases ih rfl with ⟨rfl, hin⟩ | ⟨hcrossed, root, hroot, hpath, hin⟩
        · exact .inr ⟨hcross i hin, c, he, .refl, hstart⟩
        · exact .inr ⟨hcrossed, root, hroot, hpath.tail ⟨hcross 0 hin, he⟩, hstart⟩
  · rintro (⟨rfl, hin⟩ | ⟨hcrossed, root, hroot, hpath, hin⟩)
    · exact hin.walk
    · exact ((hcrossed.walk hi hroot).trans (walk_of_crossSteps hpath)).trans hin.walk

/-- A walk leaves the set at the first point of a block that is out of it, in the
    block it starts in or in one that it comes to by crossing whole blocks. -/
theorem leaves_iff {b c : β} {i j : Nat} (hi : i ≤ g.last b) :
    g.Leaves stays (b, i) (c, j) ↔
      (c = b ∧ g.WithinBlock stays b i j ∧ ¬ stays (b, j)) ∨
        g.Crossed stays b i ∧ ∃ root ∈ g.successors b,
          ReflTransGen (g.CrossStep stays) root c ∧ g.WithinBlock stays c 0 j ∧
            ¬ stays (c, j) := by
  rw [Leaves, walk_iff hi, or_and_right]
  refine or_congr ?_ ?_
  · constructor
    · rintro ⟨⟨rfl, hin⟩, hout⟩
      exact ⟨rfl, hin, hout⟩
    · rintro ⟨rfl, hin, hout⟩
      exact ⟨⟨rfl, hin⟩, hout⟩
  · constructor
    · rintro ⟨⟨hcrossed, root, hroot, hpath, hin⟩, hout⟩
      exact ⟨hcrossed, root, hroot, hpath, hin, hout⟩
    · rintro ⟨hcrossed, root, hroot, hpath, hin, hout⟩
      exact ⟨⟨hcrossed, root, hroot, hpath, hin⟩, hout⟩

/-- Where a point of the block is out of the set, the walk leaves it at the first one. -/
theorem leaves_of_within {b c : β} {i j k : Nat} (hin : g.WithinBlock stays b i j)
    (hout : ¬ stays (b, j)) : g.Leaves stays (b, i) (c, k) ↔ c = b ∧ k = j := by
  rw [leaves_iff (hin.1.trans hin.2.1)]
  constructor
  · rintro (⟨rfl, hin', hout'⟩ | ⟨hcrossed, -⟩)
    · -- of two points out of the set, neither is before the other
      refine ⟨rfl, Nat.le_antisymm ?_ ?_⟩
      · by_contra hlt
        exact hout (hin'.2.2 j hin.1 (Nat.not_le.mp hlt))
      · by_contra hlt
        exact hout' (hin.2.2 k hin'.1 (Nat.not_le.mp hlt))
    · exact absurd (hcrossed j hin.1 hin.2.1) hout
  · rintro ⟨rfl, rfl⟩
    exact .inl ⟨rfl, hin, hout⟩

/-- Where what is left of the block lies in the set, the walk leaves it in a block that
    it comes to. -/
theorem leaves_of_crossed {b c : β} {i j : Nat} (hi : i ≤ g.last b)
    (hcrossed : g.Crossed stays b i) :
    g.Leaves stays (b, i) (c, j) ↔ (∃ root ∈ g.successors b,
      ReflTransGen (g.CrossStep stays) root c) ∧ g.WithinBlock stays c 0 j ∧ ¬ stays (c, j) := by
  rw [leaves_iff hi]
  constructor
  · rintro (⟨rfl, hin, hout⟩ | ⟨-, root, hroot, hpath, hin, hout⟩)
    · exact absurd (hcrossed j hin.1 hin.2.1) hout
    · exact ⟨⟨root, hroot, hpath⟩, hin, hout⟩
  · rintro ⟨⟨root, hroot, hpath⟩, hin, hout⟩
    exact .inr ⟨hcrossed, root, hroot, hpath, hin, hout⟩

end Blocks

end MutationTesting.Graph
