/-
  MutationTesting.Rust.WorkList

  The loop `while let Some(task) = tasks.pop()` that emits the results of each
  task and pushes its children, without a set of tasks already seen: a task
  that is reached in several ways is processed as often.  Where the children
  never lead on for ever, the loop ends and has emitted exactly the results of
  the tasks that the first ones lead to.
-/
import MutationTesting.Rust.Abort
import MutationTesting.Graph.Walk

namespace MutationTesting.Rust

open Relation MutationTesting.Graph

variable {τ β : Type}

section WorkList

variable (children : τ → List τ) (emit : τ → List β)

/-- The loop, for at most the given number of rounds, and all that it emits. -/
def drainWorkList : Nat → List τ → Res (List β)
  | rounds, tasks =>
    match Vec.pop tasks with
    | none => .ok []
    | some (task, tasks) =>
      match rounds with
      | 0 => .error .diverges
      | rounds + 1 => do
        let emitted ← drainWorkList rounds (tasks ++ children task)
        return emit task ++ emitted

@[simp] theorem drainWorkList_nil (rounds : Nat) :
    drainWorkList children emit rounds [] = .ok [] := by
  unfold drainWorkList
  rfl

/-- One round: the last task emits its results and is replaced by its children. -/
theorem drainWorkList_concat (rounds : Nat) (tasks : List τ) (task : τ) :
    drainWorkList children emit (rounds + 1) (tasks ++ [task]) = (do
      let emitted ← drainWorkList children emit rounds (tasks ++ children task)
      return emit task ++ emitted) := by
  conv => lhs; unfold drainWorkList
  rw [Vec.pop_concat]

/-- `b` is among the results of a task that some task of the list leads to. -/
def WorkListEmits (tasks : List τ) (b : β) : Prop :=
  ∃ task ∈ tasks, ∃ last, ReflTransGen (Step children) task last ∧ b ∈ emit last

variable {children emit}

@[simp] theorem not_workListEmits_nil (b : β) : ¬ WorkListEmits children emit [] b := by
  rintro ⟨task, htask, -⟩
  exact absurd htask List.not_mem_nil

/-- What the last task leads to is itself or something its children lead to. -/
theorem workListEmits_concat {tasks : List τ} {task : τ} {b : β} :
    WorkListEmits children emit (tasks ++ [task]) b ↔
      b ∈ emit task ∨ WorkListEmits children emit (tasks ++ children task) b := by
  constructor
  · rintro ⟨first, hfirst, last, hreach, hb⟩
    rcases List.mem_append.mp hfirst with hold | hnew
    · exact .inr ⟨first, List.mem_append_left _ hold, last, hreach, hb⟩
    · rw [List.mem_singleton.mp hnew] at hreach
      rcases hreach.cases_head with hsame | ⟨child, hchild, hrest⟩
      · exact .inl (hsame ▸ hb)
      · exact .inr ⟨child, List.mem_append_right _ hchild, last, hrest, hb⟩
  · rintro (hb | ⟨first, hfirst, last, hreach, hb⟩)
    · exact ⟨task, by simp, task, .refl, hb⟩
    · rcases List.mem_append.mp hfirst with hold | hchild
      · exact ⟨first, List.mem_append_left _ hold, last, hreach, hb⟩
      · exact ⟨task, by simp, last, hreach.head hchild, hb⟩

/-- Whatever the number of rounds, a loop that ends has emitted exactly the
    results of the tasks that its first ones lead to. -/
theorem mem_drainWorkList {rounds : Nat} {tasks : List τ} {emitted : List β}
    (h : drainWorkList children emit rounds tasks = .ok emitted) (b : β) :
    b ∈ emitted ↔ WorkListEmits children emit tasks b := by
  induction rounds generalizing tasks emitted with
  | zero =>
    cases tasks using List.reverseRecOn with
    | nil =>
      rw [drainWorkList_nil] at h
      cases h
      simp
    | append_singleton tasks task =>
      unfold drainWorkList at h
      rw [Vec.pop_concat] at h
      cases h
  | succ rounds ih =>
    cases tasks using List.reverseRecOn with
    | nil =>
      rw [drainWorkList_nil] at h
      cases h
      simp
    | append_singleton tasks task =>
      rw [drainWorkList_concat] at h
      obtain ⟨later, hlater, h⟩ := Res.bind_inv h
      cases h
      -- this round emits the results of the task, the later ones those of its children
      rw [List.mem_append, ih hlater, workListEmits_concat]

/-- With a round for every walk from its tasks the loop ends. -/
theorem drainWorkList_isOk (emit : τ → List β) {depth rounds : Nat} {tasks : List τ}
    (hdepth : ∀ task ∈ tasks, DepthLe children depth task)
    (hrounds : (tasks.map (walkCount children depth)).sum ≤ rounds) :
    ∃ emitted, drainWorkList children emit rounds tasks = .ok emitted := by
  induction rounds generalizing tasks with
  | zero =>
    cases tasks using List.reverseRecOn with
    | nil => exact ⟨[], by simp⟩
    | append_singleton tasks task =>
      -- the last task alone needs a round
      have hpos := walkCount_pos children depth task
      simp only [List.map_append, List.map_singleton, List.sum_append, List.sum_singleton]
        at hrounds
      omega
  | succ rounds ih =>
    cases tasks using List.reverseRecOn with
    | nil => exact ⟨[], by simp⟩
    | append_singleton tasks task =>
      have htask : DepthLe children depth task := hdepth task (by simp)
      have hdepth' : ∀ next ∈ tasks ++ children task, DepthLe children depth next := by
        intro next hnext
        rcases List.mem_append.mp hnext with hold | hchild
        · exact hdepth next (List.mem_append_left _ hold)
        · exact htask.of_mem hchild
      -- the walks of the task are its children's and the empty one, which this round pays for
      have hrounds' : ((tasks ++ children task).map (walkCount children depth)).sum ≤ rounds := by
        simp only [List.map_append, List.map_singleton, List.sum_append, List.sum_singleton]
          at hrounds ⊢
        rw [walkCount_eq htask] at hrounds
        omega
      obtain ⟨later, hlater⟩ := ih hdepth' hrounds'
      refine ⟨emit task ++ later, ?_⟩
      rw [drainWorkList_concat, hlater]
      rfl

end WorkList

end MutationTesting.Rust
