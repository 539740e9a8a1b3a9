/-
  MutationTesting.Rust.Unwind

  Computations on a state that may unwind.  Unwinding does not restore the
  state: what a computation has written before it panicked stays written, also
  behind a `catch_unwind`.

  `Preserves P x` says that `P` survives `x`, however `x` ends.
-/
import MutationTesting.Rust.Iterator

namespace MutationTesting.Rust

/-- What a computation returns, or how it aborts, and the state it leaves. -/
def Unwind (S α : Type) := S → Res α × S

namespace Unwind

variable {S α β : Type}

instance : Monad (Unwind S) where
  pure a := fun s => (.ok a, s)
  bind x f := fun s =>
    match x s with
    | (.ok a, s') => f a s'
    | (.error e, s') => (.error e, s')

instance : LawfulMonad (Unwind S) := by
  refine LawfulMonad.mk' (Unwind S) ?_ (fun _ _ => rfl) ?_
  · intro α x
    funext s
    show (match x s with
      | (.ok a, s') => (.ok a, s')
      | (.error e, s') => (.error e, s')) = x s
    rcases x s with ⟨_ | _, _⟩ <;> rfl
  · intro α β γ x f g
    funext s
    show (match (match x s with
        | (.ok a, s') => f a s'
        | (.error e, s') => (.error e, s')) with
      | (.ok b, s') => g b s'
      | (.error e, s') => (.error e, s')) =
      match x s with
      | (.ok a, s') => (f a >>= g) s'
      | (.error e, s') => (.error e, s')
    rcases x s with ⟨_ | _, _⟩ <;> rfl

instance : MonadExceptOf Abort (Unwind S) where
  throw e := fun s => (.error e, s)
  tryCatch x handler := fun s =>
    match x s with
    | (.error e, s') => handler e s'
    | r => r

def get : Unwind S S := fun s => (.ok s, s)

def modify (f : S → S) : Unwind S Unit := fun s => (.ok (), f s)

/-- A computation that does not touch the state. -/
def ofRes (r : Res α) : Unwind S α := fun s => (r, s)

/-- `std::panic::catch_unwind`: whether the computation panicked. -/
def catchUnwind (x : Unwind S Unit) : Unwind S Bool := fun s =>
  match x s with
  | (.ok (), s') => (.ok false, s')
  | (.error _, s') => (.ok true, s')

/-! ## Running -/

@[simp] theorem pure_run (a : α) (s : S) : (pure a : Unwind S α) s = (.ok a, s) := rfl

@[simp] theorem get_run (s : S) : (get : Unwind S S) s = (.ok s, s) := rfl

@[simp] theorem modify_run (f : S → S) (s : S) : modify f s = (.ok (), f s) := rfl

@[simp] theorem ofRes_run (r : Res α) (s : S) : (ofRes r : Unwind S α) s = (r, s) := rfl

theorem bind_run (x : Unwind S α) (f : α → Unwind S β) (s : S) :
    (x >>= f) s =
      match x s with
      | (.ok a, s') => f a s'
      | (.error e, s') => (.error e, s') := rfl

theorem catchUnwind_run (x : Unwind S Unit) (s : S) :
    catchUnwind x s = (.ok (!(x s).1.isOk), (x s).2) := by
  rw [catchUnwind]
  rcases x s with ⟨_ | _, _⟩ <;> rfl

/-! ## Invariants -/

/-- `P` holds of the state the computation leaves, in whatever way it ends. -/
def Preserves (P : S → Prop) (x : Unwind S α) : Prop := ∀ s, P s → P (x s).2

namespace Preserves

variable {P : S → Prop}

theorem pure (a : α) : Preserves P (Pure.pure a : Unwind S α) := fun _ h => h

theorem throw (e : Abort) : Preserves P (MonadExcept.throw e : Unwind S α) := fun _ h => h

theorem ofRes (r : Res α) : Preserves P (Unwind.ofRes r : Unwind S α) := fun _ h => h

theorem get : Preserves P (Unwind.get : Unwind S S) := fun _ h => h

theorem modify {f : S → S} (hf : ∀ s, P s → P (f s)) : Preserves P (Unwind.modify f) := hf

theorem bind {x : Unwind S α} {f : α → Unwind S β} (hx : Preserves P x)
    (hf : ∀ a, Preserves P (f a)) : Preserves P (x >>= f) := by
  intro s hs
  have hleft := hx s hs
  rw [bind_run]
  rcases hr : x s with ⟨_ | a, s'⟩
  · rw [hr] at hleft
    exact hleft
  · rw [hr] at hleft
    exact hf a s' hleft

theorem forM {xs : List α} {f : α → Unwind S Unit} (hf : ∀ a ∈ xs, Preserves P (f a)) :
    Preserves P (xs.forM f) := by
  induction xs with
  | nil => exact pure ()
  | cons a xs ih =>
    rw [List.forM_eq_forM, List.forM_cons]
    exact bind (hf a List.mem_cons_self) fun _ => ih fun b hb => hf b (List.mem_cons_of_mem _ hb)

end Preserves

end Unwind

end MutationTesting.Rust
