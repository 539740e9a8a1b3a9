/-
  MutationTesting.Rust.IndexVec

  Vectors that hand out the index of each entry they are given.

  A loop over a list that pushes one entry an element, each computed from the
  vector as grown so far, hands out the next indices in order.  Where what an
  element comes to is stable under growth, the entries are those of the vector
  the loop started from.
-/
import MutationTesting.Rust.Abort

namespace MutationTesting.Rust.IndexVec

variable {α δ : Type}

/-- `IndexVec::push`: the grown vector and the index of the new entry. -/
def push (xs : List δ) (x : δ) : List δ × Nat := (xs ++ [x], xs.length)

/-- Pushes the entry of each element, and returns the indices they were given. -/
def pushEach (entry : List δ → α → Res δ) : List δ → List α → Res (List δ × List Nat)
  | xs, [] => .ok (xs, [])
  | xs, a :: as => do
    let x ← entry xs a
    let (xs, i) := push xs x
    let (xs, is) ← pushEach entry xs as
    return (xs, i :: is)

theorem pushEach_cons (entry : List δ → α → Res δ) (xs : List δ) (a : α) (as : List α) :
    pushEach entry xs (a :: as) = (do
      let x ← entry xs a
      let grown ← pushEach entry (xs ++ [x]) as
      return (grown.1, xs.length :: grown.2)) := rfl

/-- The entry of `a` does not change when the vector grows. -/
def Stable (entry : List δ → α → Res δ) (xs : List δ) (a : α) : Prop :=
  ∀ new, entry (xs ++ new) a = entry xs a

variable {entry : List δ → α → Res δ} {xs : List δ}

theorem Stable.append {a : α} (h : Stable entry xs a) (new : List δ) :
    Stable entry (xs ++ new) a := by
  intro newer
  rw [List.append_assoc, h, h]

/-- Elements that are stable come to the same in the grown vector. -/
theorem mapM_append {as : List α} (h : ∀ a ∈ as, Stable entry xs a) (new : List δ) :
    as.mapM (entry (xs ++ new)) = as.mapM (entry xs) := by
  induction as with
  | nil => rfl
  | cons a as ih =>
    obtain ⟨ha, has⟩ := List.forall_mem_cons.mp h
    rw [List.mapM_cons, List.mapM_cons, ha new, ih has]

/-- Of stable elements the loop pushes what they come to in the first vector, and
    it hands out the indices from its length on. -/
theorem pushEach_eq {as : List α} (h : ∀ a ∈ as, Stable entry xs a) :
    pushEach entry xs as = (do
      let new ← as.mapM (entry xs)
      return (xs ++ new, List.range' xs.length as.length)) := by
  induction as generalizing xs with
  | nil => simp [pushEach]
  | cons a as ih =>
    obtain ⟨ha, has⟩ := List.forall_mem_cons.mp h
    rw [pushEach_cons, List.mapM_cons, bind_assoc]
    refine congrArg (entry xs a >>= ·) (funext fun x => ?_)
    -- the rest of the list is processed in the vector with `x`
    rw [ih fun b hb => (has b hb).append [x], mapM_append has]
    simp only [bind_assoc, pure_bind, List.append_assoc, List.singleton_append,
      List.length_append, List.length_cons, List.length_nil, Nat.zero_add, List.range'_succ]

end MutationTesting.Rust.IndexVec
