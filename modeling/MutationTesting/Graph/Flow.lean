/-
  MutationTesting.Graph.Flow

  Forward analyses over the points of blocks: each point adds some facts to the set
  that flows into it and removes others, and sets that meet are united.  A fact is in the
  least solution at a point exactly if it flows there, along a walk from a point that adds
  it over points that do not remove it.
-/
import MutationTesting.Graph.Blocks
import Mathlib.Data.Set.Basic

namespace MutationTesting.Graph

open Relation

/-- The facts that each point adds and removes. -/
structure GenKill (β ι : Type) where
  blocks : Blocks β
  gen : β × Nat → Set ι
  kill : β × Nat → Set ι

namespace GenKill

variable {β ι : Type} (f : GenKill β ι)

/-- What a point makes of a set. -/
def transfer (p : β × Nat) (facts : Set ι) : Set ι :=
  {x | x ∈ f.gen p ∨ x ∈ facts ∧ x ∉ f.kill p}

/-- The set before a point of a block, from the sets at the starts of the blocks. -/
def before (entry : β → Set ι) (b : β) : Nat → Set ι
  | 0 => entry b
  | i + 1 => f.transfer (b, i) (before entry b i)

/-- The set at the end of a block. -/
def exit (entry : β → Set ι) (b : β) : Set ι :=
  f.transfer (b, f.blocks.last b) (f.before entry b (f.blocks.last b))

/-- The block can be reached from the start. -/
def Reachable (start b : β) : Prop := ReflTransGen (fun b c => c ∈ f.blocks.successors b) start b

/-- Sets at the starts of the blocks that take up what leaves the blocks before. -/
def Solves (start : β) (entry : β → Set ι) : Prop :=
  ∀ b, f.Reachable start b → ∀ c ∈ f.blocks.successors b, f.exit entry b ⊆ entry c

/-- The least such sets. -/
structure Least (start : β) (entry : β → Set ι) : Prop where
  solves : f.Solves start entry
  least : ∀ entry', f.Solves start entry' → ∀ b, entry b ⊆ entry' b

/-- A step over a point that does not remove the fact. -/
def Keeps (x : ι) (p q : β × Nat) : Prop := f.blocks.Step p q ∧ x ∉ f.kill p

/-- The fact is added at a point that can be reached, and from there comes to `q`. -/
def Flows (start : β) (x : ι) (q : β × Nat) : Prop :=
  ∃ p, f.Reachable start p.1 ∧ p.2 ≤ f.blocks.last p.1 ∧ x ∈ f.gen p ∧
    ∃ r, f.blocks.Step p r ∧ ReflTransGen (f.Keeps x) r q

variable {f} {start : β} {entry : β → Set ι}

theorem transfer_mono {facts facts' : Set ι} (h : facts ⊆ facts') (p : β × Nat) :
    f.transfer p facts ⊆ f.transfer p facts' := by
  rintro x (hx | ⟨hx, hkill⟩)
  · exact .inl hx
  · exact .inr ⟨h hx, hkill⟩

theorem before_mono {entry' : β → Set ι} (h : ∀ b, entry b ⊆ entry' b) (b : β) (i : Nat) :
    f.before entry b i ⊆ f.before entry' b i := by
  induction i with
  | zero => exact h b
  | succ i ih => exact transfer_mono ih (b, i)

theorem Reachable.step {b : β} (hb : f.Reachable start b) {p q : β × Nat} (hp : p.1 = b)
    (h : f.blocks.Step p q) : f.Reachable start q.1 := by
  cases h with
  | next hi =>
    cases hp
    exact hb
  | block hc =>
    cases hp
    exact hb.tail hc

/-- What flows to a point of a block that can be reached flows on to the next point, or is
    removed. -/
theorem Flows.step {x : ι} {p q : β × Nat} (hstep : f.blocks.Step p q)
    (hp : f.Reachable start p.1 ∧ p.2 ≤ f.blocks.last p.1)
    (h : x ∈ f.transfer p {x | f.Flows start x p}) : f.Flows start x q := by
  rcases h with hgen | ⟨⟨origin, horigin, hle, hgen, r, hr, hwalk⟩, hkill⟩
  · exact ⟨p, hp.1, hp.2, hgen, q, hstep, .refl⟩
  · exact ⟨origin, horigin, hle, hgen, r, hr, hwalk.tail ⟨hstep, hkill⟩⟩

/-- From sets of facts that flow to the starts of the blocks come such sets at all points. -/
theorem before_subset_flows {b : β} (hb : f.Reachable start b) {i : Nat}
    (hi : i ≤ f.blocks.last b) :
    f.before (fun b => {x | f.Flows start x (b, 0)}) b i ⊆ {x | f.Flows start x (b, i)} := by
  induction i with
  | zero => exact fun x hx => hx
  | succ i ih =>
    have hle := Nat.le_of_succ_le hi
    intro x hx
    exact Flows.step (.next hi) ⟨hb, hle⟩ (transfer_mono (ih hle) (b, i) hx)

theorem solves_flows : f.Solves start fun b => {x | f.Flows start x (b, 0)} := by
  intro b hb c hc x hx
  exact Flows.step (.block hc) ⟨hb, le_rfl⟩
    (transfer_mono (before_subset_flows hb le_rfl) _ hx)

/-- What flows to a point is in every solution there. -/
theorem Solves.mem_before (h : f.Solves start entry) {x : ι} {q : β × Nat}
    (hx : f.Flows start x q) : x ∈ f.before entry q.1 q.2 := by
  obtain ⟨p, hp, hle, hgen, r, hr, hwalk⟩ := hx
  -- a step takes what is made of the set before it to the set after it
  have hstep : ∀ {p q : β × Nat}, f.Reachable start p.1 → f.blocks.Step p q →
      x ∈ f.transfer p (f.before entry p.1 p.2) → x ∈ f.before entry q.1 q.2 := by
    intro p q hp hstep hx
    cases hstep with
    | next hi => exact hx
    | block hc => exact h _ hp _ hc hx
  have hreach : f.Reachable start q.1 ∧ x ∈ f.before entry q.1 q.2 := by
    induction hwalk with
    | refl => exact ⟨hp.step rfl hr, hstep hp hr (.inl hgen)⟩
    | tail _ hkeeps ih =>
      obtain ⟨hreach, hmem⟩ := ih
      exact ⟨hreach.step rfl hkeeps.1, hstep hreach hkeeps.1 (.inr ⟨hmem, hkeeps.2⟩)⟩
  exact hreach.2

/-- The least solution has at each point what flows there. -/
theorem Least.mem_before (h : f.Least start entry) {b : β} (hb : f.Reachable start b) {i : Nat}
    (hi : i ≤ f.blocks.last b) {x : ι} :
    x ∈ f.before entry b i ↔ f.Flows start x (b, i) := by
  constructor
  · intro hx
    exact before_subset_flows hb hi (before_mono (h.least _ solves_flows) b i hx)
  · exact fun hx => h.solves.mem_before hx

end GenKill

end MutationTesting.Graph
