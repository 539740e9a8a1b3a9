/-
  MutationTesting.Graph.Search

  Depth-first search with a set of visited vertices: a vertex is marked when it
  is pushed, so it is pushed and popped once.  The search ends after as many
  rounds as there are vertices, and pops exactly the vertices that its roots
  lead to.
-/
import MutationTesting.Rust.Abort
import Mathlib.Data.Finset.Card
import Mathlib.Logic.Relation
import MutationTesting.Graph.Walk

namespace MutationTesting.Graph

open Relation MutationTesting.Rust

variable {α β : Type} [DecidableEq α]

/-- The visited vertices and the stack of those still to be expanded. -/
structure Frontier (α : Type) where
  visited : Finset α
  stack : List α
  deriving DecidableEq

namespace Frontier

def empty : Frontier α := ⟨∅, []⟩

/-- `if visited.insert(v) { stack.push(v) }`. -/
def push (frontier : Frontier α) (v : α) : Frontier α :=
  if v ∈ frontier.visited then frontier
  else ⟨insert v frontier.visited, frontier.stack ++ [v]⟩

/-- `push` for each vertex of a list. -/
def pushAll (frontier : Frontier α) (vs : List α) : Frontier α := vs.foldl push frontier

@[simp] theorem pushAll_nil (frontier : Frontier α) : frontier.pushAll [] = frontier := rfl

theorem pushAll_cons (frontier : Frontier α) (v : α) (vs : List α) :
    frontier.pushAll (v :: vs) = (frontier.push v).pushAll vs := rfl

/-- What a push does: the stack grows by the vertices that were not visited,
    each once. -/
theorem pushAll_spec (frontier : Frontier α) (vs : List α) :
    ∃ fresh : List α, (frontier.pushAll vs).stack = frontier.stack ++ fresh ∧ fresh.Nodup ∧
      (∀ v, v ∈ fresh ↔ v ∈ vs ∧ v ∉ frontier.visited) ∧
      (frontier.pushAll vs).visited = frontier.visited ∪ vs.toFinset ∧
      (frontier.pushAll vs).visited.card = frontier.visited.card + fresh.length := by
  induction vs generalizing frontier with
  | nil => exact ⟨[], by simp, List.nodup_nil, by simp, by simp, by simp⟩
  | cons v vs ih =>
    by_cases hv : v ∈ frontier.visited
    · have hsame : frontier.push v = frontier := if_pos hv
      obtain ⟨fresh, hstack, hnodup, hmem, hvisited, hcard⟩ := ih frontier
      rw [pushAll_cons, hsame]
      refine ⟨fresh, hstack, hnodup, ?_, ?_, hcard⟩
      · intro u
        rw [hmem, List.mem_cons]
        refine and_congr_left fun hu => ⟨.inr, fun h => h.resolve_left ?_⟩
        rintro rfl
        exact hu hv
      · rw [hvisited, List.toFinset_cons, Finset.union_insert, Finset.insert_eq_of_mem]
        exact Finset.mem_union_left _ hv
    · have hpush : frontier.push v = ⟨insert v frontier.visited, frontier.stack ++ [v]⟩ :=
        if_neg hv
      obtain ⟨fresh, hstack, hnodup, hmem, hvisited, hcard⟩ := ih (frontier.push v)
      rw [hpush] at hstack hmem hvisited hcard
      rw [pushAll_cons, hpush]
      have hvfresh : v ∉ fresh := fun h => ((hmem v).mp h).2 (Finset.mem_insert_self _ _)
      refine ⟨v :: fresh, by rw [hstack, List.append_assoc, List.singleton_append],
        List.nodup_cons.mpr ⟨hvfresh, hnodup⟩, ?_, ?_, ?_⟩
      · intro u
        rw [List.mem_cons, hmem, List.mem_cons, Finset.mem_insert]
        by_cases hu : u = v
        · simp [hu, hv]
        · simp [hu]
      · rw [hvisited, List.toFinset_cons, Finset.insert_union, Finset.union_insert]
      · rw [hcard, Finset.card_insert_of_notMem hv, List.length_cons]
        omega

end Frontier

/-! ## The search -/

section Search

variable (succ : α → List α)

/-- `while let Some(v) = stack.pop()`, pushing the successors of each vertex, for
    at most the given number of rounds: the vertices in the order of their pops. -/
def search : Nat → Frontier α → Res (List α)
  | rounds, frontier =>
    match Vec.pop frontier.stack with
    | none => .ok []
    | some (v, stack) =>
      match rounds with
      | 0 => .error .diverges
      | rounds + 1 => do
        let popped ← search rounds (Frontier.pushAll ⟨frontier.visited, stack⟩ (succ v))
        return v :: popped

@[simp] theorem search_nil (rounds : Nat) (visited : Finset α) :
    search succ rounds ⟨visited, []⟩ = .ok [] := by
  unfold search
  rfl

theorem search_concat (rounds : Nat) (visited : Finset α) (stack : List α) (v : α) :
    search succ (rounds + 1) ⟨visited, stack ++ [v]⟩ = (do
      let popped ← search succ rounds (Frontier.pushAll ⟨visited, stack⟩ (succ v))
      return v :: popped) := by
  conv => lhs; unfold search
  rw [Vec.pop_concat]

theorem search_zero_concat (visited : Finset α) (stack : List α) (v : α) :
    search succ 0 ⟨visited, stack ++ [v]⟩ = .error .diverges := by
  unfold search
  rw [Vec.pop_concat]

/-- The state of a search between two rounds: the stack holds visited vertices,
    each once, and the successors of a visited vertex that is off the stack are
    visited. -/
structure Frontier.Searching (frontier : Frontier α) : Prop where
  nodup : frontier.stack.Nodup
  stacked : ∀ v ∈ frontier.stack, v ∈ frontier.visited
  closed : ∀ v ∈ frontier.visited, v ∉ frontier.stack → ∀ u ∈ succ v, u ∈ frontier.visited

variable {succ}

theorem Frontier.Searching.step {visited : Finset α} {stack : List α} {v : α}
    (h : Frontier.Searching succ ⟨visited, stack ++ [v]⟩) :
    Frontier.Searching succ (Frontier.pushAll ⟨visited, stack⟩ (succ v)) := by
  obtain ⟨fresh, hstack, hfresh, hmem, hvisited, -⟩ :=
    Frontier.pushAll_spec ⟨visited, stack⟩ (succ v)
  obtain ⟨hnodup, -, hdisjoint⟩ := List.nodup_append.mp h.nodup
  have hstacked : ∀ u ∈ stack, u ∈ visited :=
    fun u hu => h.stacked u (List.mem_append_left _ hu)
  constructor
  · rw [hstack]
    refine List.nodup_append.mpr ⟨hnodup, hfresh, ?_⟩
    rintro u hu u' hu' rfl
    exact ((hmem u).mp hu').2 (hstacked u hu)
  · intro u hu
    rw [hstack] at hu
    rw [hvisited, Finset.mem_union, List.mem_toFinset]
    rcases List.mem_append.mp hu with hu | hu
    · exact .inl (hstacked u hu)
    · exact .inr ((hmem u).mp hu).1
  · intro u hu hoff w hw
    rw [hvisited, Finset.mem_union, List.mem_toFinset] at hu ⊢
    rw [hstack, List.mem_append, not_or] at hoff
    -- `u` was visited before this round, as what the round visits is on the stack
    have huv : u ∈ visited := by
      by_contra hnew
      exact hoff.2 ((hmem u).mpr ⟨hu.resolve_left hnew, hnew⟩)
    by_cases hsame : u = v
    · rw [hsame] at hw
      exact .inr hw
    · refine .inl (h.closed u huv ?_ w hw)
      rw [List.mem_append, List.mem_singleton, not_or]
      exact ⟨hoff.1, hsame⟩

/-- A search that ends has popped each vertex once, and exactly those that its
    stack leads to through vertices not visited before. -/
theorem search_spec {rounds : Nat} {frontier : Frontier α} {popped : List α}
    (h : search succ rounds frontier = .ok popped) (hinv : Frontier.Searching succ frontier) :
    popped.Nodup ∧
      (∀ v ∈ popped, v ∈ frontier.stack ∨ v ∉ frontier.visited) ∧
      (∀ v ∈ popped, ∃ root ∈ frontier.stack, ReflTransGen (Step succ) root v) ∧
      (∀ v ∈ frontier.stack, v ∈ popped) ∧
      (∀ v ∈ popped, ∀ u ∈ succ v, u ∈ frontier.visited ∨ u ∈ popped) := by
  induction rounds generalizing frontier popped with
  | zero =>
    obtain ⟨visited, stack⟩ := frontier
    cases stack using List.reverseRecOn with
    | nil =>
      rw [search_nil] at h
      cases h
      simp
    | append_singleton stack v =>
      rw [search_zero_concat] at h
      cases h
  | succ rounds ih =>
    obtain ⟨visited, stack⟩ := frontier
    cases stack using List.reverseRecOn with
    | nil =>
      rw [search_nil] at h
      cases h
      simp
    | append_singleton stack v =>
      rw [search_concat] at h
      obtain ⟨later, hlater, h⟩ := Res.bind_inv h
      cases h
      obtain ⟨hnodup, hfreshOnly, hreach, hall, hclosed⟩ := ih hlater hinv.step
      obtain ⟨fresh, hstack, -, hmem, hvisited, -⟩ :=
        Frontier.pushAll_spec ⟨visited, stack⟩ (succ v)
      have hv : v ∈ visited := hinv.stacked v (by simp)
      have hvstack : v ∉ stack := by
        intro hmem'
        exact (List.nodup_append.mp hinv.nodup).2.2 v hmem' v (by simp) rfl
      -- a later vertex was on the stack, or is not visited yet
      have hlaterNew : ∀ u ∈ later, u ∈ stack ∨ u ∉ visited := by
        intro u hu
        rcases hfreshOnly u hu with hin | hout
        · rw [hstack, List.mem_append] at hin
          exact hin.imp id fun hfresh => ((hmem u).mp hfresh).2
        · rw [hvisited, Finset.mem_union, not_or] at hout
          exact .inr hout.1
      refine ⟨List.nodup_cons.mpr ⟨?_, hnodup⟩, ?_, ?_, ?_, ?_⟩
      · intro hin
        rcases hlaterNew v hin with hin | hout
        · exact hvstack hin
        · exact hout hv
      · intro u hu
        rcases List.mem_cons.mp hu with rfl | hu
        · exact .inl (by simp)
        · exact (hlaterNew u hu).imp (List.mem_append_left _) id
      · intro u hu
        rcases List.mem_cons.mp hu with rfl | hu
        · exact ⟨u, by simp, .refl⟩
        · obtain ⟨root, hroot, hpath⟩ := hreach u hu
          rw [hstack, List.mem_append] at hroot
          rcases hroot with hroot | hroot
          · exact ⟨root, List.mem_append_left _ hroot, hpath⟩
          · exact ⟨v, by simp, .head ((hmem root).mp hroot).1 hpath⟩
      · intro u hu
        rcases List.mem_append.mp hu with hu | hu
        · refine List.mem_cons_of_mem _ (hall u ?_)
          rw [hstack]
          exact List.mem_append_left _ hu
        · rw [List.mem_singleton.mp hu]
          exact List.mem_cons_self
      · intro u hu w hw
        -- a successor is visited before the round, or the round puts it on the stack
        have hsplit : ∀ x, x ∈ (Frontier.pushAll ⟨visited, stack⟩ (succ v)).visited →
            x ∈ visited ∨ x ∈ v :: later := by
          intro x hx
          by_cases hold : x ∈ visited
          · exact .inl hold
          · refine .inr (List.mem_cons_of_mem _ (hall x ?_))
            rw [hvisited, Finset.mem_union, List.mem_toFinset] at hx
            rw [hstack]
            exact List.mem_append_right _ ((hmem x).mpr ⟨hx.resolve_left hold, hold⟩)
        rcases List.mem_cons.mp hu with rfl | hu
        · refine hsplit w ?_
          rw [hvisited, Finset.mem_union, List.mem_toFinset]
          exact .inr hw
        · rcases hclosed u hu w hw with hvis | hpop
          · exact hsplit w hvis
          · exact .inr (List.mem_cons_of_mem _ hpop)

/-- Pushing the roots onto an empty frontier starts a search. -/
theorem Frontier.searching_roots (roots : List α) :
    Frontier.Searching succ (Frontier.empty.pushAll roots) ∧
      (∀ v, v ∈ (Frontier.empty.pushAll roots).stack ↔ v ∈ roots) ∧
      ∀ v, v ∈ (Frontier.empty.pushAll roots).visited ↔ v ∈ roots := by
  obtain ⟨fresh, hstack, hnodup, hmem, hvisited, -⟩ :=
    Frontier.pushAll_spec (.empty : Frontier α) roots
  have hstack' : ∀ v, v ∈ (Frontier.empty.pushAll roots).stack ↔ v ∈ roots := by
    intro v
    rw [hstack]
    simp [Frontier.empty, hmem]
  have hvisited' : ∀ v, v ∈ (Frontier.empty.pushAll roots).visited ↔ v ∈ roots := by
    intro v
    rw [hvisited]
    simp [Frontier.empty]
  refine ⟨⟨?_, ?_, ?_⟩, hstack', hvisited'⟩
  · rw [hstack]
    exact hnodup
  · intro v hv
    exact (hvisited' v).mpr ((hstack' v).mp hv)
  · intro v hv hoff
    exact absurd ((hstack' v).mpr ((hvisited' v).mp hv)) hoff

/-- Distinct roots are all pushed, in order. -/
theorem Frontier.pushAll_empty {roots : List α} (h : roots.Nodup) :
    Frontier.empty.pushAll roots = ⟨roots.toFinset, roots⟩ := by
  induction roots using List.reverseRecOn with
  | nil => rfl
  | append_singleton roots v ih =>
    obtain ⟨hroots, -, hdisjoint⟩ := List.nodup_append.mp h
    have hv : v ∉ roots := fun hv => hdisjoint v hv v (by simp) rfl
    have hih : roots.foldl Frontier.push Frontier.empty = ⟨roots.toFinset, roots⟩ := ih hroots
    rw [Frontier.pushAll, List.foldl_append, hih, List.foldl_cons, List.foldl_nil, Frontier.push,
      if_neg (by rwa [List.mem_toFinset])]
    congr 1
    ext u
    simp

/-- A search from some roots pops exactly the vertices they lead to. -/
theorem mem_search {rounds : Nat} {roots popped : List α}
    (h : search succ rounds (Frontier.empty.pushAll roots) = .ok popped) (v : α) :
    v ∈ popped ↔ ∃ root ∈ roots, ReflTransGen (Step succ) root v := by
  obtain ⟨hinv, hstack, hvisited⟩ := Frontier.searching_roots roots
  obtain ⟨-, -, hreach, hall, hclosed⟩ := search_spec h hinv
  constructor
  · intro hv
    obtain ⟨root, hroot, hpath⟩ := hreach v hv
    exact ⟨root, (hstack root).mp hroot, hpath⟩
  · rintro ⟨root, hroot, hpath⟩
    have hpopped : ∀ u ∈ roots, u ∈ popped := fun u hu => hall u ((hstack u).mpr hu)
    -- the popped vertices are closed under successors
    induction hpath with
    | refl => exact hpopped root hroot
    | tail _ hstep ih =>
      rcases hclosed _ ih _ hstep with hvis | hin
      · exact hpopped _ ((hvisited _).mp hvis)
      · exact hin

theorem search_nodup {rounds : Nat} {roots popped : List α}
    (h : search succ rounds (Frontier.empty.pushAll roots) = .ok popped) : popped.Nodup :=
  (search_spec h (Frontier.searching_roots roots).1).1

/-- With a round for every vertex that is on the stack or not visited yet, the
    search ends. -/
theorem search_isOk {vertices : Finset α} (hsucc : ∀ v ∈ vertices, ∀ u ∈ succ v, u ∈ vertices)
    {rounds : Nat} {frontier : Frontier α} (hvisited : frontier.visited ⊆ vertices)
    (hstack : ∀ v ∈ frontier.stack, v ∈ vertices)
    (hrounds : frontier.stack.length + (vertices.card - frontier.visited.card) ≤ rounds) :
    ∃ popped, search succ rounds frontier = .ok popped := by
  induction rounds generalizing frontier with
  | zero =>
    obtain ⟨visited, stack⟩ := frontier
    have hnil : stack = [] := List.length_eq_zero_iff.mp (by simp only at hrounds; omega)
    exact ⟨[], by rw [hnil, search_nil]⟩
  | succ rounds ih =>
    obtain ⟨visited, stack⟩ := frontier
    cases stack using List.reverseRecOn with
    | nil => exact ⟨[], search_nil ..⟩
    | append_singleton stack v =>
      have hv : v ∈ vertices := hstack v (by simp)
      obtain ⟨fresh, hstack', -, hmem, hvisited', hcard⟩ :=
        Frontier.pushAll_spec ⟨visited, stack⟩ (succ v)
      have hsub : (Frontier.pushAll ⟨visited, stack⟩ (succ v)).visited ⊆ vertices := by
        intro u hu
        rw [hvisited', Finset.mem_union, List.mem_toFinset] at hu
        exact hu.elim (fun h => hvisited h) (hsucc v hv u)
      have hle : (Frontier.pushAll ⟨visited, stack⟩ (succ v)).visited.card ≤ vertices.card :=
        Finset.card_le_card hsub
      obtain ⟨popped, hpopped⟩ := ih hsub
        (by
          intro u hu
          rw [hstack', List.mem_append] at hu
          rcases hu with hu | hu
          · exact hstack u (List.mem_append_left _ hu)
          · exact hsucc v hv u ((hmem u).mp hu).1)
        (by
          -- what the round puts on the stack it also visits
          rw [hcard, hstack', List.length_append]
          rw [hcard] at hle
          simp only [List.length_append, List.length_singleton] at hrounds hle ⊢
          omega)
      refine ⟨v :: popped, ?_⟩
      rw [search_concat, hpopped]
      rfl

/-- With a round for every vertex, a search from some roots ends. -/
theorem search_roots_isOk {vertices : Finset α}
    (hsucc : ∀ v ∈ vertices, ∀ u ∈ succ v, u ∈ vertices) {roots : List α}
    (hroots : ∀ v ∈ roots, v ∈ vertices) {rounds : Nat} (hrounds : vertices.card ≤ rounds) :
    ∃ popped, search succ rounds (Frontier.empty.pushAll roots) = .ok popped := by
  obtain ⟨-, hstack, hvisited⟩ := @Frontier.searching_roots _ _ succ roots
  obtain ⟨fresh, hfresh, -, -, -, hcard⟩ := Frontier.pushAll_spec (.empty : Frontier α) roots
  have hsub : (Frontier.empty.pushAll roots).visited ⊆ vertices :=
    fun v hv => hroots v ((hvisited v).mp hv)
  have hle := Finset.card_le_card hsub
  refine search_isOk hsucc hsub (fun v hv => hroots v ((hstack v).mp hv)) ?_
  rw [hcard, hfresh] at *
  simp only [Frontier.empty, Finset.card_empty, List.nil_append, Nat.zero_add] at hle ⊢
  omega

end Search

/-! ## Searches with a state -/

/-- The same loop around a body that may abort and keeps a state: from a popped
    vertex the body computes the vertices to push.  The result is the set of
    visited vertices and the last state. -/
def searchWith (expand : α → β → Res (List α × β)) : Nat → Frontier α → β → Res (Finset α × β)
  | rounds, frontier, state =>
    match Vec.pop frontier.stack with
    | none => .ok (frontier.visited, state)
    | some (v, stack) =>
      match rounds with
      | 0 => .error .diverges
      | rounds + 1 => do
        let (next, state) ← expand v state
        searchWith expand rounds (Frontier.pushAll ⟨frontier.visited, stack⟩ next) state

@[simp] theorem searchWith_nil (expand : α → β → Res (List α × β)) (rounds : Nat)
    (visited : Finset α) (state : β) :
    searchWith expand rounds ⟨visited, []⟩ state = .ok (visited, state) := by
  unfold searchWith
  rfl

/-- Where the body pushes the successors of a vertex and updates the state by it,
    the loop is the search followed by the updates in the order of the pops. -/
theorem searchWith_eq {expand : α → β → Res (List α × β)} {succ : α → List α}
    {visit : β → α → β} {vertices : Finset α}
    (hexpand : ∀ v ∈ vertices, ∀ state, expand v state = .ok (succ v, visit state v))
    (hsucc : ∀ v ∈ vertices, ∀ u ∈ succ v, u ∈ vertices) {rounds : Nat} {frontier : Frontier α}
    (hstack : ∀ v ∈ frontier.stack, v ∈ vertices) (hinv : Frontier.Searching succ frontier)
    {popped : List α} (h : search succ rounds frontier = .ok popped) (state : β) :
    searchWith expand rounds frontier state =
      .ok (frontier.visited ∪ popped.toFinset, popped.foldl visit state) := by
  induction rounds generalizing frontier popped state with
  | zero =>
    obtain ⟨visited, stack⟩ := frontier
    cases stack using List.reverseRecOn with
    | nil =>
      rw [search_nil] at h
      cases h
      simp
    | append_singleton stack v =>
      rw [search_zero_concat] at h
      cases h
  | succ rounds ih =>
    obtain ⟨visited, stack⟩ := frontier
    cases stack using List.reverseRecOn with
    | nil =>
      rw [search_nil] at h
      cases h
      simp
    | append_singleton stack v =>
      rw [search_concat] at h
      obtain ⟨later, hlater, h⟩ := Res.bind_inv h
      cases h
      have hv : v ∈ vertices := hstack v (by simp)
      obtain ⟨fresh, hstack', -, hmem, hvisited', -⟩ :=
        Frontier.pushAll_spec ⟨visited, stack⟩ (succ v)
      have hin : ∀ u ∈ (Frontier.pushAll ⟨visited, stack⟩ (succ v)).stack, u ∈ vertices := by
        intro u hu
        rw [hstack', List.mem_append] at hu
        rcases hu with hu | hu
        · exact hstack u (List.mem_append_left _ hu)
        · exact hsucc v hv u ((hmem u).mp hu).1
      have hloop := ih hin hinv.step hlater (visit state v)
      unfold searchWith
      rw [Vec.pop_concat]
      simp only [hexpand v hv, Res.ok_bind, hloop, List.foldl_cons]
      -- what this round visits is on the stack, and so is popped later
      have hpopped := (search_spec hlater hinv.step).2.2.2.1
      congr 2
      ext u
      rw [Finset.mem_union, Finset.mem_union, hvisited', Finset.mem_union, List.mem_toFinset,
        List.mem_toFinset, List.mem_toFinset, List.mem_cons]
      constructor
      · rintro ((hu | hu) | hu)
        · exact .inl hu
        · by_cases hold : u ∈ visited
          · exact .inl hold
          · refine .inr (.inr (hpopped u ?_))
            rw [hstack']
            exact List.mem_append_right _ ((hmem u).mpr ⟨hu, hold⟩)
        · exact .inr (.inr hu)
      · rintro (hu | rfl | hu)
        · exact .inl (.inl hu)
        · exact .inl (.inl (hinv.stacked u (by simp)))
        · exact .inr hu

/-- A search with a state from some roots: it ends, and has updated the state by
    each vertex that the roots lead to, once. -/
theorem searchWith_roots {expand : α → β → Res (List α × β)} {succ : α → List α}
    {visit : β → α → β} {vertices : Finset α}
    (hexpand : ∀ v ∈ vertices, ∀ state, expand v state = .ok (succ v, visit state v))
    (hsucc : ∀ v ∈ vertices, ∀ u ∈ succ v, u ∈ vertices) {roots : List α}
    (hroots : ∀ v ∈ roots, v ∈ vertices) {rounds : Nat} (hrounds : vertices.card ≤ rounds)
    (state : β) :
    ∃ popped : List α, popped.Nodup ∧
      (∀ v, v ∈ popped ↔ ∃ root ∈ roots, ReflTransGen (Step succ) root v) ∧
      searchWith expand rounds (Frontier.empty.pushAll roots) state =
        .ok (popped.toFinset, popped.foldl visit state) := by
  obtain ⟨hinv, hstack, hvisited⟩ := @Frontier.searching_roots _ _ succ roots
  obtain ⟨popped, hpopped⟩ := search_roots_isOk hsucc hroots hrounds
  refine ⟨popped, search_nodup hpopped, mem_search hpopped, ?_⟩
  rw [searchWith_eq hexpand hsucc (fun v hv => hroots v ((hstack v).mp hv)) hinv hpopped]
  -- the roots are popped too
  congr 2
  refine Finset.union_eq_right.mpr fun v hv => ?_
  rw [List.mem_toFinset, mem_search hpopped]
  exact ⟨v, (hvisited v).mp hv, .refl⟩

/-! ## Searches that stop -/

/-- `for v in depth_first_search(root)` with an early return: whether a vertex that the
    search comes to passes the test.  The successors of a vertex are pushed before it is
    tested. -/
def searchUntil (next : α → Res (List α)) (test : α → Res Bool) : Nat → Frontier α → Res Bool
  | rounds, frontier =>
    match Vec.pop frontier.stack with
    | none => .ok false
    | some (v, stack) =>
      match rounds with
      | 0 => .error .diverges
      | rounds + 1 => do
        let vs ← next v
        if ← test v then return true
        else searchUntil next test rounds (Frontier.pushAll ⟨frontier.visited, stack⟩ vs)

end MutationTesting.Graph
