/-
  MutationTesting.Mutator.Basic

  Mutants, mutant streams and mutations (`src/mutator/mutator_impl.rs`).

  Five `Iter` structures implement `MutantIterator` in the source.  They differ
  in the candidates they hold and in the mutant they build from one; the way
  they step is the same, so it is written once, in `Iter`.  A boxed iterator is
  only ever asked for its next mutant: `MutantStream` keeps, for each candidate
  still held, what building its mutant comes to.
-/
import MutationTesting.Mutator.Utils
import MutationTesting.Rust.Iterator

namespace MutationTesting.Mutator

open MutationTesting.Rust MutationTesting.Mir MutationTesting.Pcg

structure MutantLocation where
  basicBlock : Nat
  statementIndex : Nat
  deriving DecidableEq

structure MutantRange where
  start : MutantLocation
  end_ : MutantLocation
  deriving DecidableEq

/-- A MIR body along with a source range describing where the mutation appears
    and a description of the mutation performed. -/
structure Mutant where
  body : Body
  range : MutantRange
  info : String
  deriving DecidableEq

/-- Iterators over mutants. -/
abbrev MutantIterator (σ : Type) := FallibleIterator σ Mutant

/-- What `maybe_next` makes of a popped candidate: a mutant, `None` where a `?`
    finds nothing, or a panic. -/
abbrev Attempt := Res (Option Mutant)

/-! ## Iterators over candidates -/

/-- The state of a mutation's `Iter`: the candidates not tried yet and the
    attempt at each. -/
structure Iter (γ : Type) where
  candidates : List γ
  attempt : γ → Attempt

namespace Iter

variable {γ : Type}

/-- `Iter::maybe_next`: pop a candidate and try to build its mutant. -/
def maybeNext (it : Iter γ) : Res (Option Mutant × Iter γ) :=
  match Vec.pop it.candidates with
  | none => .ok (none, it)
  | some (candidate, rest) => do
    let mutant ← it.attempt candidate
    return (mutant, { it with candidates := rest })

theorem maybeNext_length {it it' : Iter γ} {mutant : Option Mutant}
    (h : it.maybeNext = .ok (mutant, it')) (hne : it.candidates ≠ []) :
    it'.candidates.length < it.candidates.length := by
  unfold maybeNext at h
  cases hpop : Vec.pop it.candidates with
  | none =>
    cases hc : it.candidates using List.reverseRecOn with
    | nil => exact absurd hc hne
    | append_singleton ys y => simp [hc] at hpop
  | some popped =>
    obtain ⟨candidate, rest⟩ := popped
    simp only [hpop] at h
    obtain ⟨m, -, h⟩ := Res.bind_inv h
    cases h
    exact Vec.pop_length hpop

/-- `Iter::next`: `while !candidates.is_empty()`, return the first mutant that
    could be built. -/
def next (it : Iter γ) : Res (Option Mutant × Iter γ) :=
  if hne : it.candidates = [] then .ok (none, it)
  else
    match h : it.maybeNext with
    | .error e => .error e
    | .ok (some mutant, it') => .ok (some mutant, it')
    | .ok (none, it') =>
      have := maybeNext_length h hne
      next it'
termination_by it.candidates.length

theorem next_nil (attempt : γ → Attempt) :
    next ⟨[], attempt⟩ = .ok (none, ⟨[], attempt⟩) := by
  rw [next, dif_pos rfl]

/-- One round of the loop tries the last candidate. -/
theorem next_concat (attempt : γ → Attempt) (cs : List γ) (c : γ) :
    next ⟨cs ++ [c], attempt⟩ =
      match attempt c with
      | .error e => .error e
      | .ok (some mutant) => .ok (some mutant, ⟨cs, attempt⟩)
      | .ok none => next ⟨cs, attempt⟩ := by
  have hmaybe : maybeNext ⟨cs ++ [c], attempt⟩ =
      (attempt c >>= fun mutant => .ok (mutant, ⟨cs, attempt⟩)) := by
    simp [maybeNext]
  rw [next, dif_neg (by simp)]
  split
  all_goals
    next h =>
      rw [hmaybe] at h
      cases hc : attempt c with
      | error e => simp_all
      | ok m => cases m <;> simp_all

end Iter

/-! ## Streams -/

/-- A boxed iterator: the attempts it has still to make, last one first. -/
structure MutantStream where
  attempts : List Attempt

namespace MutantStream

/-- `MutantStream::new`. -/
def new {γ : Type} (iter : Iter γ) : MutantStream := ⟨iter.candidates.map iter.attempt⟩

/-- The stream as an iterator over its own attempts. -/
def toIter (stream : MutantStream) : Iter Attempt := ⟨stream.attempts, id⟩

/-- `MutantStream::next`. -/
def next (stream : MutantStream) : Res (Option Mutant × MutantStream) := do
  let (mutant, iter) ← stream.toIter.next
  return (mutant, ⟨iter.candidates⟩)

instance : MutantIterator MutantStream := ⟨next⟩

theorem next_nil : next ⟨[]⟩ = .ok (none, ⟨[]⟩) := by
  simp [next, toIter, Iter.next_nil]

theorem next_concat (attempts : List Attempt) (attempt : Attempt) :
    next ⟨attempts ++ [attempt]⟩ =
      match attempt with
      | .error e => .error e
      | .ok (some mutant) => .ok (some mutant, ⟨attempts⟩)
      | .ok none => next ⟨attempts⟩ := by
  rw [next, toIter, Iter.next_concat]
  cases attempt with
  | error e => rfl
  | ok m => cases m <;> rfl

/-- The mutants a stream has still to return, in the order of its `next`. -/
def mutants (stream : MutantStream) : List Mutant :=
  stream.attempts.reverse.filterMap fun attempt => attempt.toOption.join

theorem spent_nil : Spent (⟨[]⟩ : MutantStream) :=
  ⟨fun stream => stream = ⟨[]⟩, rfl, by
    rintro stream rfl
    exact ⟨⟨[]⟩, next_nil, rfl⟩⟩

/-- A stream none of whose attempts panics returns the mutants of its attempts
    and is then spent. -/
theorem produces_mutants (stream : MutantStream)
    (hok : ∀ attempt ∈ stream.attempts, ∃ m, attempt = .ok m) :
    Produces stream stream.mutants := by
  suffices h : Yields stream stream.mutants ⟨[]⟩ from ⟨⟨[]⟩, h, spent_nil⟩
  obtain ⟨attempts⟩ := stream
  induction attempts using List.reverseRecOn with
  | nil => exact .done next_nil
  | append_singleton as a ih =>
    have hrest := ih fun attempt hmem => hok attempt (by simp_all)
    obtain ⟨m, rfl⟩ := hok a (by simp)
    cases m with
    | none =>
      have hstep : FallibleIterator.next (⟨as ++ [.ok none]⟩ : MutantStream) =
          FallibleIterator.next (⟨as⟩ : MutantStream) := next_concat as _
      simpa [mutants, Except.toOption] using Yields.of_next_eq hstep hrest
    | some mutant =>
      have hstep : FallibleIterator.next (⟨as ++ [.ok (some mutant)]⟩ : MutantStream) =
          .ok (some mutant, ⟨as⟩) := next_concat as _
      simpa [mutants, Except.toOption] using Yields.more hstep hrest

/-- A finite stream has the contents of its attempts, none of which panics. -/
theorem mutants_of_produces {stream : MutantStream} {ms : List Mutant} (h : Produces stream ms) :
    stream.mutants = ms := by
  obtain ⟨attempts⟩ := stream
  obtain ⟨it, hy, -⟩ := h
  induction attempts using List.reverseRecOn generalizing ms with
  | nil => exact (Yields.unique (.done next_nil) hy).1
  | append_singleton as a ih =>
    have hstep : FallibleIterator.next (⟨as ++ [a]⟩ : MutantStream) = _ := next_concat as a
    cases a with
    | error e =>
      cases hy with
      | done hnext | more hnext _ => cases hstep.symm.trans hnext
    | ok m =>
      cases m with
      | none =>
        -- a candidate without a mutant is passed over
        have hrest := ih (Yields.of_next_eq hstep.symm hy)
        simpa [mutants, Except.toOption] using hrest
      | some built =>
        cases hy with
        | done hnext => cases hstep.symm.trans hnext
        | more hnext rest =>
          cases hstep.symm.trans hnext
          have hrest := ih rest
          simpa [mutants, Except.toOption] using hrest

/-- When every candidate becomes a mutant, the stream returns those mutants, the
    last candidate's first. -/
theorem produces_of_attempts {γ : Type} {candidates : List γ} {attempt : γ → Attempt}
    {mutant : γ → Mutant} (h : ∀ c ∈ candidates, attempt c = .ok (some (mutant c))) :
    Produces (new ⟨candidates, attempt⟩) (candidates.reverse.map mutant) := by
  have hmutants : (new ⟨candidates, attempt⟩).mutants = candidates.reverse.map mutant := by
    rw [mutants, new, ← List.map_reverse, List.filterMap_map, ← List.filterMap_eq_map]
    apply List.filterMap_congr
    intro c hc
    simp [h c (List.mem_reverse.mp hc), Except.toOption]
  rw [← hmutants]
  apply produces_mutants
  intro a ha
  obtain ⟨c, hc, rfl⟩ := List.mem_map.mp ha
  exact ⟨_, h c hc⟩

/-- Every mutant a stream returns was built from one of its candidates. -/
theorem exists_of_emits {γ : Type} {it : Iter γ} {mutant : Mutant}
    (h : Emits (new it) mutant) : ∃ c ∈ it.candidates, it.attempt c = .ok (some mutant) := by
  obtain ⟨candidates, attempt⟩ := it
  induction candidates using List.reverseRecOn with
  | nil =>
    cases h with
    | here h | later h _ =>
      have hnil := (next_nil).symm.trans h
      cases hnil
  | append_singleton cs c ih =>
    -- candidates are taken from the end
    have hnext := next_concat (cs.map attempt) (attempt c)
    have hcs : new ⟨cs ++ [c], attempt⟩ = ⟨cs.map attempt ++ [attempt c]⟩ := by simp [new]
    rw [hcs] at h
    cases hc : attempt c with
    | error e =>
      rw [hc] at hnext h
      cases h with
      | here h | later h _ => cases hnext.symm.trans h
    | ok m =>
      rw [hc] at hnext h
      cases m with
      | none =>
        have hrest : Emits (new ⟨cs, attempt⟩) mutant := by
          cases h with
          | here h => exact .here (hnext.symm.trans h)
          | later h rest => exact .later (hnext.symm.trans h) rest
        obtain ⟨d, hd, hbuilt⟩ := ih hrest
        exact ⟨d, List.mem_append_left _ hd, hbuilt⟩
      | some built =>
        cases h with
        | here h =>
          cases hnext.symm.trans h
          exact ⟨c, by simp, hc⟩
        | later h rest =>
          cases hnext.symm.trans h
          obtain ⟨d, hd, hbuilt⟩ := ih rest
          exact ⟨d, List.mem_append_left _ hd, hbuilt⟩

/-- A stream that has returned a mutant has fewer attempts left. -/
theorem next_length {stream stream' : MutantStream} {mutant : Mutant}
    (h : stream.next = .ok (some mutant, stream')) :
    stream'.attempts.length < stream.attempts.length := by
  obtain ⟨attempts⟩ := stream
  induction attempts using List.reverseRecOn with
  | nil =>
    rw [next_nil] at h
    cases h
  | append_singleton as a ih =>
    rw [next_concat] at h
    rw [List.length_append, List.length_singleton]
    cases a with
    | error e => cases h
    | ok m =>
      cases m with
      | none =>
        -- `next` goes on with the candidates that are left
        have hlt := ih h
        simp only at hlt
        omega
      | some built =>
        cases h
        simp

instance : FiniteIterator MutantStream Mutant where
  rel := fun stream' stream => stream'.attempts.length < stream.attempts.length
  wf := (measure fun stream : MutantStream => stream.attempts.length).wf
  next_rel := next_length

end MutantStream

/-! ## Mutations -/

/-- A `Mutation` uses a MIR body and the analyses for two consecutive statements
    to produce a set of mutant MIR bodies. -/
structure Mutation (σ : Type) where
  makeStream : CompilerCtxt → Body → PcgLocation → PcgLocation → Res σ
  name : String

end MutationTesting.Mutator
