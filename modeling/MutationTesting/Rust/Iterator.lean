/-
  MutationTesting.Rust.Iterator

  Iterators whose `next` may abort, and `while let Some(x) = it.next()` loops
  over them.

  `Yields it xs it'` says that successive calls of `next` on `it` return the
  elements of `xs` and then, for the first time, `None`, which leaves `it'`.
  `Spent it` says that every call from now on returns `None`.  A stream is
  finite with contents `xs` (`Produces`) when it yields `xs` and is then spent.
-/
import MutationTesting.Rust.Abort

namespace MutationTesting.Rust

/-- The `next` of an iterator, with the iterator it leaves behind. -/
class FallibleIterator (σ : Type) (α : outParam Type) where
  next : σ → Res (Option α × σ)

open FallibleIterator (next)

section Yields

variable {σ α : Type} [FallibleIterator σ α]

/-- The calls of `next` up to and including the first `None`. -/
inductive Yields : σ → List α → σ → Prop
  | done {it it' : σ} (h : next it = .ok (none, it')) : Yields it [] it'
  | more {it it' it'' : σ} {x : α} {xs : List α} (h : next it = .ok (some x, it'))
      (rest : Yields it' xs it'') : Yields it (x :: xs) it''

/-- Some call of `next`, with no `None` before it, returns `x`. -/
inductive Emits : σ → α → Prop
  | here {it it' : σ} {x : α} (h : next it = .ok (some x, it')) : Emits it x
  | later {it it' : σ} {x y : α} (h : next it = .ok (some y, it')) (rest : Emits it' x) :
      Emits it x

/-- Successive calls of `next` on the first iterator leave the second one. -/
inductive Reaches : σ → σ → Prop
  | refl {it : σ} : Reaches it it
  | step {it it' it'' : σ} {x : Option α} (h : next it = .ok (x, it')) (rest : Reaches it' it'') :
      Reaches it it''

/-- `next` returns `None` now and on every later call. -/
def Spent (it : σ) : Prop :=
  ∃ P : σ → Prop, P it ∧ ∀ s, P s → ∃ s', next s = .ok (none, s') ∧ P s'

/-- A finite stream with the contents `xs`. -/
def Produces (it : σ) (xs : List α) : Prop :=
  ∃ it', Yields it xs it' ∧ Spent it'

/-- What every call of `next` preserves holds of every iterator reached. -/
theorem Reaches.invariant {P : σ → Prop}
    (hstep : ∀ {it it' : σ} {x : Option α}, next it = .ok (x, it') → P it → P it') {it it' : σ}
    (h : Reaches it it') (hP : P it) : P it' := by
  induction h with
  | refl => exact hP
  | step hnext _ ih => exact ih (hstep hnext hP)

theorem Yields.reaches {it it' : σ} {xs : List α} (h : Yields it xs it') : Reaches it it' := by
  induction h with
  | done hnext => exact .step hnext .refl
  | more hnext _ ih => exact .step hnext ih

theorem Spent.next_eq {it : σ} (h : Spent it) :
    ∃ it', next it = .ok (none, it') ∧ Spent it' := by
  obtain ⟨P, hit, hP⟩ := h
  obtain ⟨it', hnext, hit'⟩ := hP it hit
  exact ⟨it', hnext, P, hit', hP⟩

/-- An iterator whose next call returns `None` and leaves a spent one is spent. -/
theorem Spent.of_next {it it' : σ} (h : next it = .ok (none, it')) (hit' : Spent it') :
    Spent it := by
  obtain ⟨P, hP, hstep⟩ := hit'
  refine ⟨fun s => s = it ∨ P s, .inl rfl, ?_⟩
  rintro s (rfl | hs)
  · exact ⟨it', h, .inr hP⟩
  · obtain ⟨s', hs', hPs'⟩ := hstep s hs
    exact ⟨s', hs', .inr hPs'⟩

theorem Spent.produces {it : σ} (h : Spent it) : Produces it [] := by
  obtain ⟨it', hnext, hit'⟩ := h.next_eq
  exact ⟨it', .done hnext, hit'⟩

theorem Produces.spent {it : σ} (h : Produces it []) : Spent it := by
  obtain ⟨it', hy, hspent⟩ := h
  cases hy with
  | done hnext => exact .of_next hnext hspent

/-- A finite stream that returns `None` is spent. -/
theorem Produces.spent_of_next {it it' : σ} {xs : List α} (h : Produces it xs)
    (hnext : next it = .ok (none, it')) : Spent it := by
  obtain ⟨last, hy, hspent⟩ := h
  cases hy with
  | done hnext' => exact .of_next hnext' hspent
  | more hnext' _ =>
    rw [hnext] at hnext'
    cases hnext'

/-- Every call on a finite stream returns and leaves a finite stream. -/
theorem Produces.next_isOk {it : σ} {xs : List α} (h : Produces it xs) :
    ∃ x it', next it = .ok (x, it') := by
  obtain ⟨_, hy, -⟩ := h
  cases hy with
  | done hnext => exact ⟨_, _, hnext⟩
  | more hnext _ => exact ⟨_, _, hnext⟩

theorem Produces.of_next {it it' : σ} {x : Option α} {xs : List α} (h : Produces it xs)
    (hnext : next it = .ok (x, it')) : ∃ ys, Produces it' ys := by
  obtain ⟨last, hy, hspent⟩ := h
  cases hy with
  | done hnext' =>
    rw [hnext] at hnext'
    cases hnext'
    exact ⟨[], hspent.produces⟩
  | more hnext' rest =>
    rw [hnext] at hnext'
    cases hnext'
    exact ⟨_, last, rest, hspent⟩

/-- A finite stream stays one, whatever calls are made. -/
theorem Produces.of_reaches {it it' : σ} {xs : List α} (h : Produces it xs)
    (hreaches : Reaches it it') : ∃ ys, Produces it' ys := by
  refine hreaches.invariant (P := fun it => ∃ ys, Produces it ys) ?_ ⟨xs, h⟩
  rintro it it' x hnext ⟨ys, hys⟩
  exact hys.of_next hnext

/-- What an iterator yields depends on its next call only. -/
theorem Yields.of_next_eq {it jt it' : σ} {xs : List α} (h : next it = next jt)
    (hy : Yields jt xs it') : Yields it xs it' := by
  cases hy with
  | done hnext => exact .done (h.trans hnext)
  | more hnext rest => exact .more (h.trans hnext) rest

/-- An iterator yields one list and ends in one state. -/
theorem Yields.unique {it a b : σ} {xs ys : List α} (hx : Yields it xs a)
    (hy : Yields it ys b) : xs = ys ∧ a = b := by
  induction hx generalizing ys with
  | done h =>
    cases hy with
    | done h' =>
      rw [h] at h'
      cases h'
      exact ⟨rfl, rfl⟩
    | more h' _ =>
      rw [h] at h'
      cases h'
  | more h _ ih =>
    cases hy with
    | done h' =>
      rw [h] at h'
      cases h'
    | more h' rest =>
      rw [h] at h'
      cases h'
      obtain ⟨rfl, rfl⟩ := ih rest
      exact ⟨rfl, rfl⟩

/-- What an iterator yields it emits, and nothing else. -/
theorem Yields.mem_iff_emits {it it' : σ} {xs : List α} (hy : Yields it xs it') {x : α} :
    x ∈ xs ↔ Emits it x := by
  induction hy with
  | done h =>
    refine ⟨fun hx => by simp at hx, fun he => ?_⟩
    cases he with
    | here h' | later h' _ =>
      rw [h] at h'
      cases h'
  | more h rest ih =>
    constructor
    · intro hx
      rcases List.mem_cons.mp hx with rfl | hx
      · exact .here h
      · exact .later h (ih.mp hx)
    · intro he
      cases he with
      | here h' =>
        rw [h] at h'
        cases h'
        exact List.mem_cons_self
      | later h' rest' =>
        rw [h] at h'
        cases h'
        exact List.mem_cons_of_mem _ (ih.mpr rest')

theorem Produces.unique {it : σ} {xs ys : List α} (hx : Produces it xs)
    (hy : Produces it ys) : xs = ys := by
  obtain ⟨_, hx, -⟩ := hx
  obtain ⟨_, hy, -⟩ := hy
  exact (hx.unique hy).1

end Yields

/-- An iterator type on which the successors of `next` descend along a
    well-founded relation whenever an element is returned. -/
class FiniteIterator (σ : Type) (α : outParam Type) extends FallibleIterator σ α where
  rel : σ → σ → Prop
  wf : WellFounded rel
  next_rel {it it' : σ} {x : α} (h : next it = .ok (some x, it')) : rel it' it

section WhileLet

variable {σ α : Type} [FiniteIterator σ α] {m : Type → Type} [Monad m] [MonadExceptOf Abort m]

/-- `while let Some(x) = it.next() { body }`. -/
def whileLet (it : σ) (body : α → m Unit) : m Unit :=
  match h : next it with
  | .error e => throw e
  | .ok (none, _) => pure ()
  | .ok (some x, it') => do
    have : FiniteIterator.rel it' it := FiniteIterator.next_rel h
    body x
    whileLet it' body
termination_by (⟨FiniteIterator.rel, FiniteIterator.wf⟩ : WellFoundedRelation σ).wf.wrap it

end WhileLet

section Drain

variable {σ α : Type} [FiniteIterator σ α]

/-- All the elements an iterator returns, and the abort that ended it if it was
    not a `None`. -/
def drain (it : σ) : List α × Option Abort :=
  match h : next it with
  | .error e => ([], some e)
  | .ok (none, _) => ([], none)
  | .ok (some x, it') =>
    have : FiniteIterator.rel it' it := FiniteIterator.next_rel h
    ((x :: (drain it').1), (drain it').2)
termination_by (⟨FiniteIterator.rel, FiniteIterator.wf⟩ : WellFoundedRelation σ).wf.wrap it

theorem drain_of_error {it : σ} {e : Abort} (h : next it = .error e) :
    drain it = ([], some e) := by
  rw [drain]
  split
  all_goals simp_all

theorem drain_of_none {it it' : σ} (h : next it = .ok (none, it')) : drain it = ([], none) := by
  rw [drain]
  split
  all_goals simp_all

theorem drain_of_some {it it' : σ} {x : α} (h : next it = .ok (some x, it')) :
    drain it = (x :: (drain it').1, (drain it').2) := by
  rw [drain]
  split
  all_goals simp_all

/-- An iterator that yields a list is drained of that list. -/
theorem Yields.drain_eq {it it' : σ} {xs : List α} (h : Yields it xs it') :
    drain it = (xs, none) := by
  induction h with
  | done hnext => exact drain_of_none hnext
  | more hnext _ ih => rw [drain_of_some hnext, ih]

variable {m : Type → Type} [Monad m] [LawfulMonad m] [MonadExceptOf Abort m]

/-- The loop runs its body on the elements in turn, and then passes the abort on. -/
theorem whileLet_eq_forM (it : σ) (body : α → m Unit) :
    whileLet it body =
      ((drain it).1.forM body >>= fun _ =>
        match (drain it).2 with
        | none => pure ()
        | some e => throw e) := by
  -- the iterator comes closer to its end with each element
  have hwf : WellFounded (FiniteIterator.rel : σ → σ → Prop) := FiniteIterator.wf
  induction it using hwf.induction with
  | _ it ih =>
    cases h : next it with
    | error e =>
      rw [drain_of_error h, whileLet]
      split
      all_goals simp_all
    | ok r =>
      obtain ⟨x, it'⟩ := r
      cases x with
      | none =>
        rw [drain_of_none h, whileLet]
        split
        all_goals simp_all
      | some x =>
        have hrest := ih it' (FiniteIterator.next_rel h)
        rw [drain_of_some h, whileLet]
        split
        all_goals simp_all

end Drain

/-! ## Collecting -/

section Collect

variable {σ α : Type} [FallibleIterator σ α]

/-- `it.collect::<Vec<_>>()`, for at most the given number of elements. -/
def collect : Nat → σ → Res (List α)
  | rounds, it => do
    match ← next it with
    | (none, _) => return []
    | (some x, it') =>
      match rounds with
      | 0 => .error .diverges
      | rounds + 1 => do
        let xs ← collect rounds it'
        return x :: xs

/-- With a round for each element, what is collected is what the iterator
    yields. -/
theorem Yields.collect_eq {it it' : σ} {xs : List α} (h : Yields it xs it') {rounds : Nat}
    (hrounds : xs.length ≤ rounds) : collect rounds it = .ok xs := by
  induction h generalizing rounds with
  | done hnext =>
    unfold collect
    rw [hnext]
    rfl
  | more hnext _ ih =>
    cases rounds with
    | zero => exact absurd hrounds (Nat.not_succ_le_zero _)
    | succ rounds =>
      unfold collect
      rw [hnext, Res.ok_bind]
      simp only [ih (Nat.le_of_succ_le_succ hrounds), Res.ok_bind, Res.pure_eq]

end Collect

end MutationTesting.Rust
