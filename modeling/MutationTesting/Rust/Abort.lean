/-
  MutationTesting.Rust.Abort

  Rust computations that may fail to return: panics of the standard library
  (`unwrap` on `None`, an index out of bounds, a failed `assert!`), panics with
  a message, and loops that never end.  `Res` is the error monad over them, and
  the `Vec` operations that can panic are given in it.

  A vector is a `List` with its end at the end of the list, so `pop` takes the
  last element as in Rust.
-/
import Mathlib.Data.List.Basic
import Mathlib.Data.List.Forall2
import Mathlib.Data.List.Induction
import Mathlib.Data.List.InsertIdx

namespace MutationTesting.Rust

/-- The ways in which a Rust computation fails to return. -/
inductive Abort where
  | unwrapNone
  | indexOutOfBounds
  | assertionFailed
  | message (text : String)
  | diverges
  deriving DecidableEq

/-- A Rust computation that returns a value or aborts. -/
abbrev Res (α : Type) := Except Abort α

variable {α β : Type}

namespace Res

@[simp] theorem ok_bind (a : α) (f : α → Res β) : (Except.ok a >>= f) = f a := rfl

@[simp] theorem error_bind (e : Abort) (f : α → Res β) :
    ((Except.error e : Res α) >>= f) = .error e := rfl

@[simp] theorem pure_eq (a : α) : (pure a : Res α) = .ok a := rfl

theorem isOk_eq_true {x : Res α} : x.isOk = true ↔ ∃ a, x = .ok a := by
  cases x with
  | error e => simp [Except.isOk, Except.toBool]
  | ok a => simp [Except.isOk, Except.toBool]

theorem isOk_eq_false {x : Res α} : x.isOk = false ↔ ∃ e, x = .error e := by
  cases x with
  | error e => simp [Except.isOk, Except.toBool]
  | ok a => simp [Except.isOk, Except.toBool]

/-- Inverts one `do`-step of a computation that returned. -/
theorem bind_inv {x : Res α} {f : α → Res β} {b : β} (h : (x >>= f) = .ok b) :
    ∃ a, x = .ok a ∧ f a = .ok b := by
  cases x with
  | error e => simp at h
  | ok a => exact ⟨a, rfl, h⟩

/-- What every round of a loop that returned keeps, of what was processed so far. -/
theorem foldlM_induct {σ : Type} {f : σ → α → Res σ} (P : List α → σ → Prop) {all : List α}
    (hstep : ∀ seen a rest s s', all = seen ++ a :: rest → P seen s → f s a = .ok s' →
      P (seen ++ [a]) s')
    {s s' : σ} (hstart : P [] s) (h : all.foldlM f s = .ok s') : P all s' := by
  have hsuffix : ∀ rest seen s, all = seen ++ rest → P seen s → rest.foldlM f s = .ok s' →
      P all s' := by
    intro rest
    induction rest with
    | nil =>
      intro seen s hall hP h
      cases h
      rwa [hall, List.append_nil]
    | cons a rest ih =>
      intro seen s hall hP h
      rw [List.foldlM_cons] at h
      obtain ⟨s₁, hs₁, h⟩ := bind_inv h
      refine ih (seen ++ [a]) s₁ ?_ (hstep seen a rest s s₁ hall hP hs₁) h
      rw [hall, List.append_assoc, List.singleton_append]
  exact hsuffix all [] s rfl hstart h

/-- A monadic filter that every element passes. -/
theorem filterM_of_forall {p : α → Res Bool} {xs : List α} (h : ∀ x ∈ xs, p x = .ok true) :
    xs.filterM p = .ok xs := by
  have haux : ∀ (xs acc : List α), (∀ x ∈ xs, p x = .ok true) →
      List.filterAuxM p xs acc = .ok (xs.reverse ++ acc) := by
    intro xs
    induction xs with
    | nil => exact fun acc _ => rfl
    | cons x xs ih =>
      intro acc h
      obtain ⟨hx, hxs⟩ := List.forall_mem_cons.mp h
      rw [List.filterAuxM, hx, ok_bind, cond_true, ih _ hxs, List.reverse_cons, List.append_assoc,
        List.singleton_append]
  rw [List.filterM, haux xs [] h, ok_bind, List.append_nil, List.reverse_reverse]
  rfl

/-- A `mapM` that returned has one result for each input, in order. -/
theorem forall₂_of_mapM {f : α → Res β} {xs : List α} {ys : List β} (h : xs.mapM f = .ok ys) :
    List.Forall₂ (fun x y => f x = .ok y) xs ys := by
  induction xs generalizing ys with
  | nil =>
    rw [List.mapM_nil, pure_eq] at h
    cases h
    exact .nil
  | cons x xs ih =>
    rw [List.mapM_cons] at h
    obtain ⟨y, hy, h⟩ := bind_inv h
    obtain ⟨rest, hrest, h⟩ := bind_inv h
    cases h
    exact .cons hy (ih hrest)

/-- Every result of a `mapM` that returned comes from one of the inputs. -/
theorem mem_mapM_inv {f : α → Res β} {xs : List α} {ys : List β} (h : xs.mapM f = .ok ys)
    {y : β} (hy : y ∈ ys) : ∃ x ∈ xs, f x = .ok y := by
  have hall := forall₂_of_mapM h
  obtain ⟨k, hk, rfl⟩ := List.mem_iff_getElem.mp hy
  have hk' : k < xs.length := hall.length_eq ▸ hk
  exact ⟨xs[k], List.getElem_mem hk', hall.get hk' hk⟩

/-- Every input of a `mapM` that returned has its result there. -/
theorem exists_mem_of_mapM {f : α → Res β} {xs : List α} {ys : List β} (h : xs.mapM f = .ok ys)
    {x : α} (hx : x ∈ xs) : ∃ y ∈ ys, f x = .ok y := by
  have hall := forall₂_of_mapM h
  obtain ⟨k, hk, rfl⟩ := List.mem_iff_getElem.mp hx
  have hk' : k < ys.length := hall.length_eq ▸ hk
  exact ⟨ys[k], List.getElem_mem hk', hall.get hk hk'⟩

/-- A `mapM` returns if every one of its calls does. -/
theorem mapM_isOk {f : α → Res β} {xs : List α} (h : ∀ x ∈ xs, ∃ y, f x = .ok y) :
    ∃ ys, xs.mapM f = .ok ys := by
  induction xs with
  | nil => exact ⟨[], rfl⟩
  | cons x xs ih =>
    obtain ⟨y, hy⟩ := h x List.mem_cons_self
    obtain ⟨ys, hys⟩ := ih fun x' hx' => h x' (List.mem_cons_of_mem _ hx')
    exact ⟨y :: ys, by rw [List.mapM_cons, hy, hys]; rfl⟩

/-- Lists made for distinct inputs, each without repetition and with its input
    readable off its elements, have no element in common. -/
theorem nodup_flatten_of_mapM {f : α → Res (List β)} (key : β → α) {xs : List α}
    {yss : List (List β)} (h : xs.mapM f = .ok yss) (hxs : xs.Nodup)
    (hf : ∀ x ys, f x = .ok ys → ys.Nodup ∧ ∀ y ∈ ys, key y = x) : yss.flatten.Nodup := by
  induction xs generalizing yss with
  | nil =>
    rw [List.mapM_nil, pure_eq] at h
    cases h
    exact List.nodup_nil
  | cons x xs ih =>
    rw [List.mapM_cons] at h
    obtain ⟨ys, hys, h⟩ := bind_inv h
    obtain ⟨rest, hrest, h⟩ := bind_inv h
    cases h
    obtain ⟨hx, hxs⟩ := List.nodup_cons.mp hxs
    obtain ⟨hnodup, hkey⟩ := hf x ys hys
    rw [List.flatten_cons, List.nodup_append]
    refine ⟨hnodup, ih hrest hxs, ?_⟩
    rintro y hy y' hy' rfl
    -- an element of both would have two inputs
    obtain ⟨zs, hzs, hyzs⟩ := List.mem_flatten.mp hy'
    obtain ⟨x', hx', hfx'⟩ := mem_mapM_inv hrest hzs
    have hsame : x' = x := ((hf x' zs hfx').2 y hyzs).symm.trans (hkey y hy)
    exact hx (hsame ▸ hx')

end Res

/-- `Option::unwrap`. -/
def unwrap : Option α → Res α
  | some a => .ok a
  | none => .error .unwrapNone

@[simp] theorem unwrap_some (a : α) : unwrap (some a) = .ok a := rfl

/-- Indexing of a `Vec` or `IndexVec` with `[i]`. -/
def index (xs : List α) (i : Nat) : Res α :=
  match xs[i]? with
  | some a => .ok a
  | none => .error .indexOutOfBounds

theorem index_of_lt {xs : List α} {i : Nat} (h : i < xs.length) : index xs i = .ok xs[i] := by
  simp [index, h]

theorem index_append_left {xs ys : List α} {i : Nat} (h : i < xs.length) :
    index (xs ++ ys) i = index xs i := by
  simp [index, List.getElem?_append_left h]

theorem index_eq_ok {xs : List α} {i : Nat} {a : α} : index xs i = .ok a ↔ xs[i]? = some a := by
  unfold index
  cases xs[i]? with
  | none => simp
  | some b => simp

/-- `assert!`. -/
def assert (condition : Bool) : Res Unit :=
  if condition then .ok () else .error .assertionFailed

@[simp] theorem assert_true : assert true = .ok () := rfl

namespace Vec

/-- `Vec::pop`: the last element and the vector without it. -/
def pop (xs : List α) : Option (α × List α) :=
  match xs.getLast? with
  | some x => some (x, xs.dropLast)
  | none => none

@[simp] theorem pop_nil : pop ([] : List α) = none := rfl

@[simp] theorem pop_concat (xs : List α) (x : α) : pop (xs ++ [x]) = some (x, xs) := by
  simp [pop]

theorem pop_length {xs rest : List α} {x : α} (h : pop xs = some (x, rest)) :
    rest.length < xs.length := by
  cases xs using List.reverseRecOn with
  | nil => simp at h
  | append_singleton ys y =>
    rw [pop_concat] at h
    cases h
    simp

/-- `Vec::insert`, which panics past the end. -/
def insert (xs : List α) (i : Nat) (x : α) : Res (List α) :=
  if i ≤ xs.length then .ok (xs.insertIdx i x) else .error .indexOutOfBounds

theorem insert_of_le {xs : List α} {i : Nat} (x : α) (h : i ≤ xs.length) :
    insert xs i x = .ok (xs.insertIdx i x) := by
  rw [insert, if_pos h]

theorem insert_of_not_le {xs : List α} {i : Nat} (x : α) (h : ¬ i ≤ xs.length) :
    insert xs i x = .error .indexOutOfBounds := by
  rw [insert, if_neg h]

/-- `xs.drain(i..)`: what stays in the vector and what is drained, which panics
    past the end. -/
def drainFrom (xs : List α) (i : Nat) : Res (List α × List α) :=
  if i ≤ xs.length then .ok (xs.take i, xs.drop i) else .error .indexOutOfBounds

theorem drainFrom_of_le {xs : List α} {i : Nat} (h : i ≤ xs.length) :
    drainFrom xs i = .ok (xs.take i, xs.drop i) := by
  rw [drainFrom, if_pos h]

end Vec

end MutationTesting.Rust
