/-
  MutationTesting.Graph.Simulation

  Labelled transition systems with silent steps, and the traces of their runs:
  of the finite ones, of those that end in a final state, and of the infinite
  ones.  Two systems that simulate each other have the same traces.
-/
import Mathlib.Logic.Basic

namespace MutationTesting.Graph

/-- A system with states `σ` whose steps emit an event or are silent. -/
structure Lts (σ ε : Type) where
  step : σ → Option ε → σ → Prop

namespace Lts

variable {σ τ ε : Type}

/-- A run from one state to another and the events it emits. -/
inductive Run (l : Lts σ ε) : σ → List ε → σ → Prop
  | nil (s : σ) : Run l s [] s
  | silent {s t u : σ} {es : List ε} : l.step s none t → Run l t es u → Run l s es u
  | visible {s t u : σ} {e : ε} {es : List ε} :
      l.step s (some e) t → Run l t es u → Run l s (e :: es) u

/-- A state without steps. -/
def Final (l : Lts σ ε) (s : σ) : Prop := ∀ label t, ¬ l.step s label t

/-- The events of some run. -/
def Trace (l : Lts σ ε) (s : σ) (es : List ε) : Prop := ∃ t, l.Run s es t

/-- The events of some run that ends in a final state. -/
def CompleteTrace (l : Lts σ ε) (s : σ) (es : List ε) : Prop := ∃ t, l.Run s es t ∧ l.Final t

/-- The events of some run without end. -/
def InfiniteTrace (l : Lts σ ε) (s : σ) (es : Nat → ε) : Prop :=
  ∃ states : Nat → σ, states 0 = s ∧ ∀ n, l.Run (states n) [es n] (states (n + 1))

variable {l : Lts σ ε} {l' : Lts τ ε}

theorem Run.append {s t u : σ} {es es' : List ε} (h : l.Run s es t) (h' : l.Run t es' u) :
    l.Run s (es ++ es') u := by
  induction h with
  | nil s => exact h'
  | silent hstep _ ih => exact .silent hstep (ih h')
  | visible hstep _ ih => exact .visible hstep (ih h')

/-- A single step, with its event if it has one. -/
theorem Run.of_step {s t : σ} {label : Option ε} (h : l.step s label t) :
    l.Run s label.toList t := by
  cases label with
  | none => exact .silent h (.nil t)
  | some e => exact .visible h (.nil t)

/-! ## Simulation -/

/-- The second system answers every step of the first with a run that emits the
    same event, and comes to a final state when the first is in one. -/
structure Simulation (l : Lts σ ε) (l' : Lts τ ε) (R : σ → τ → Prop) : Prop where
  step : ∀ {s s' label t}, R s t → l.step s label s' → ∃ t', l'.Run t label.toList t' ∧ R s' t'
  final : ∀ {s t}, R s t → l.Final s → ∃ t', l'.Run t [] t' ∧ l'.Final t'

section Simulation

variable {R : σ → τ → Prop} {s : σ} {t : τ}

theorem Simulation.run (h : Simulation l l' R) {es : List ε} {s' : σ} (hrun : l.Run s es s')
    (hR : R s t) : ∃ t', l'.Run t es t' ∧ R s' t' := by
  induction hrun generalizing t with
  | nil s => exact ⟨t, .nil t, hR⟩
  | silent hstep _ ih =>
    obtain ⟨t₁, hrun₁, hR₁⟩ := h.step hR hstep
    obtain ⟨t', hrun', hR'⟩ := ih hR₁
    exact ⟨t', hrun₁.append hrun', hR'⟩
  | visible hstep _ ih =>
    obtain ⟨t₁, hrun₁, hR₁⟩ := h.step hR hstep
    obtain ⟨t', hrun', hR'⟩ := ih hR₁
    exact ⟨t', hrun₁.append hrun', hR'⟩

theorem Simulation.trace (h : Simulation l l' R) (hR : R s t) {es : List ε}
    (htrace : l.Trace s es) : l'.Trace t es := by
  obtain ⟨s', hrun⟩ := htrace
  obtain ⟨t', hrun', -⟩ := h.run hrun hR
  exact ⟨t', hrun'⟩

theorem Simulation.completeTrace (h : Simulation l l' R) (hR : R s t) {es : List ε}
    (htrace : l.CompleteTrace s es) : l'.CompleteTrace t es := by
  obtain ⟨s', hrun, hfinal⟩ := htrace
  obtain ⟨t₁, hrun₁, hR₁⟩ := h.run hrun hR
  obtain ⟨t', hrun', hfinal'⟩ := h.final hR₁ hfinal
  refine ⟨t', ?_, hfinal'⟩
  rw [← List.append_nil es]
  exact hrun₁.append hrun'

theorem Simulation.infiniteTrace (h : Simulation l l' R) (hR : R s t) {es : Nat → ε}
    (htrace : l.InfiniteTrace s es) : l'.InfiniteTrace t es := by
  obtain ⟨states, rfl, hstates⟩ := htrace
  -- the answers are chosen one after the other, each related to the state it answers
  let answer (n : Nat) (t : {t // R (states n) t}) :
      {t' // l'.Run t.1 [es n] t' ∧ R (states (n + 1)) t'} :=
    ⟨(h.run (hstates n) t.2).choose, (h.run (hstates n) t.2).choose_spec⟩
  let answers : (n : Nat) → {t // R (states n) t} :=
    fun n => Nat.rec ⟨t, hR⟩ (fun n t => ⟨(answer n t).1, (answer n t).2.2⟩) n
  exact ⟨fun n => (answers n).1, rfl, fun n => (answer n (answers n)).2.1⟩

end Simulation

/-- No run tells the two states apart. -/
structure SameTraces (l : Lts σ ε) (s : σ) (l' : Lts τ ε) (t : τ) : Prop where
  finite : ∀ es, l.Trace s es ↔ l'.Trace t es
  complete : ∀ es, l.CompleteTrace s es ↔ l'.CompleteTrace t es
  infinite : ∀ es, l.InfiniteTrace s es ↔ l'.InfiniteTrace t es

/-- Systems that simulate each other have the same traces from related states. -/
theorem sameTraces_of_simulations {R : σ → τ → Prop} (h : Simulation l l' R)
    (h' : Simulation l' l fun t s => R s t) {s : σ} {t : τ} (hR : R s t) :
    SameTraces l s l' t where
  finite _ := ⟨h.trace hR, h'.trace hR⟩
  complete _ := ⟨h.completeTrace hR, h'.completeTrace hR⟩
  infinite _ := ⟨h.infiniteTrace hR, h'.infiniteTrace hR⟩

end Lts

end MutationTesting.Graph
