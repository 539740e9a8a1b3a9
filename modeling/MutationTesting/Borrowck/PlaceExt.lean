/-
  MutationTesting.Borrowck.PlaceExt

  Which borrows need not be tracked (`borrowck/src/place_ext.rs`), and what comparing
  places makes of those that are: it never comes across a shared reference, a deeper
  access conflicts with more, and so does the bias towards an overlap.  Places of which
  one leads on from the other conflict.
-/
import MutationTesting.Borrowck.PlacesConflict
import MutationTesting.Rust.BitMatrix

namespace MutationTesting.Borrowck

open MutationTesting.Rust MutationTesting.Mir

/-- `LocalsStateAtExit`. -/
inductive LocalsStateAtExit where
  | allAreInvalidated
  | someAreInvalidated (hasStorageDeadOrMoved : Finset Local)
  deriving DecidableEq

/-- `LocalDecl::is_ref_to_thread_local`. -/
def PlaceCtxt.isRefToThreadLocal (cx : PlaceCtxt) (decl : LocalDecl) : Bool :=
  match decl.localInfo with
  | .staticRef defId => cx.definitions.isThreadLocalStatic defId
  | _ => false

/-- `LocalDecl::is_ref_to_static`. -/
def isRefToStatic (decl : LocalDecl) : Bool :=
  match decl.localInfo with
  | .staticRef _ => true
  | _ => false

/-- The first check of `ignore_borrow`: the local is neither mutated nor invalidated. -/
def ignoreLocal (cx : PlaceCtxt) (l : Local) : LocalsStateAtExit → Res Bool
  | .allAreInvalidated => .ok false
  | .someAreInvalidated hasStorageDeadOrMoved =>
    if l ∈ hasStorageDeadOrMoved then .ok false
    else do
      let decl ← index cx.localDecls l
      return decide (decl.mutability = .not)

/-- The loop of `ignore_borrow`, over the elements after the given projection. -/
def ignoreElems (cx : PlaceCtxt) (l : Local) : List PlaceElem → List PlaceElem → Res Bool
  | base, elem :: rest => do
    if elem = .deref then
      let ty ← cx.ty l base
      match ty with
      | .ref _ _ .not =>
        if base.isEmpty then
          let decl ← index cx.localDecls l
          if cx.isRefToThreadLocal decl then ignoreElems cx l (base ++ [elem]) rest
          else return true
        else return true
      | .rawPtr _ _ => return true
      | _ => ignoreElems cx l (base ++ [elem]) rest
    else ignoreElems cx l (base ++ [elem]) rest
  | _, [] => return false

/-- `ignore_borrow`. -/
def ignoreBorrow (cx : PlaceCtxt) (place : Place) (localsStateAtExit : LocalsStateAtExit) :
    Res Bool := do
  if ← ignoreLocal cx place.local localsStateAtExit then return true
  else ignoreElems cx place.local [] place.projection

/-! ## Tracked borrows -/

section Tracked

variable {cx : PlaceCtxt} {l : Local}

theorem PlaceCtxt.ty_isOk (hl : l < cx.localDecls.length) (base : List PlaceElem) :
    ∃ ty, cx.ty l base = .ok ty :=
  ⟨_, Place.ty_of_lt cx.tcx ⟨l, base⟩ hl⟩

/-- What is not ignored is not ignored from any element on. -/
theorem ignoreElems_append {xs ys base : List PlaceElem}
    (h : ignoreElems cx l base (xs ++ ys) = .ok false) :
    ignoreElems cx l (base ++ xs) ys = .ok false := by
  induction xs generalizing base with
  | nil =>
    rw [List.append_nil]
    exact h
  | cons elem xs ih =>
    rw [List.append_cons]
    refine ih ?_
    rw [List.cons_append, ignoreElems] at h
    by_cases hderef : elem = .deref
    · rw [if_pos hderef] at h
      obtain ⟨ty, -, h⟩ := Res.bind_inv h
      cases ty with
      | ref region ty mutbl =>
        cases mutbl with
        | «mut» => exact h
        | not =>
          dsimp only at h
          by_cases hempty : base.isEmpty = true
          · rw [if_pos hempty] at h
            obtain ⟨decl, -, h⟩ := Res.bind_inv h
            cases hdecl : cx.isRefToThreadLocal decl with
            | true =>
              rw [hdecl, if_pos rfl] at h
              exact h
            | false =>
              rw [hdecl] at h
              cases h
          · rw [if_neg hempty] at h
            cases h
      | rawPtr => cases h
      | _ => exact h
    · rw [if_neg hderef] at h
      exact h

/-- A shared reference that a tracked borrow goes through is one to a thread local. -/
theorem isRefToThreadLocal_of_deref {base rest : List PlaceElem} {region : Region} {ty : Ty}
    (h : ignoreElems cx l base (.deref :: rest) = .ok false)
    (hty : cx.ty l base = .ok (.ref region ty .not)) :
    base = [] ∧ ∃ decl, index cx.localDecls l = .ok decl ∧ cx.isRefToThreadLocal decl = true := by
  rw [ignoreElems, if_pos rfl, hty, Res.ok_bind] at h
  dsimp only at h
  by_cases hempty : base.isEmpty = true
  · rw [if_pos hempty] at h
    obtain ⟨decl, hdecl, h⟩ := Res.bind_inv h
    refine ⟨List.isEmpty_iff.mp hempty, decl, hdecl, ?_⟩
    by_contra hnot
    rw [if_neg hnot] at h
    cases h
  · rw [if_neg hempty] at h
    cases h

/-- The local does not hold a reference to a thread local. -/
def NotThreadLocal (cx : PlaceCtxt) (l : Local) : Prop :=
  ∀ decl, index cx.localDecls l = .ok decl → cx.isRefToThreadLocal decl = false

theorem notThreadLocal_of_not_static {decl : LocalDecl} (hdecl : cx.localDecls[l]? = some decl)
    (hstatic : isRefToStatic decl = false) : NotThreadLocal cx l := by
  intro decl' hdecl'
  rw [index_eq_ok, hdecl] at hdecl'
  cases hdecl'
  unfold isRefToStatic at hstatic
  unfold PlaceCtxt.isRefToThreadLocal
  split
  · rename_i hinfo
    rw [hinfo] at hstatic
    cases hstatic
  · rfl

/-- The second loop never comes across a shared reference, and goes through to the end
    for a deep access. -/
theorem borrowedConflict_isOk (hl : l < cx.localDecls.length) (hnot : NotThreadLocal cx l)
    (access : AccessDepth) {base rest : List PlaceElem}
    (h : ignoreElems cx l base rest = .ok false) :
    ∃ r, borrowedConflict cx l access base rest = .ok r ∧ (access = .deep → r = none) := by
  induction rest generalizing base with
  | nil => exact ⟨none, by rw [borrowedConflict]; rfl, fun _ => rfl⟩
  | cons elem rest ih =>
    obtain ⟨ty, hty⟩ := PlaceCtxt.ty_isOk hl base
    obtain ⟨r, hr, hdeep⟩ := ih (@ignoreElems_append cx l [elem] rest base h)
    rw [borrowedConflict, hty, Res.ok_bind]
    -- one round returns or goes on, unless the element is behind a shared reference
    have hround : ∃ answer, borrowedElem cx elem ty access = .ok answer ∧
        (access = .deep → answer = none) := by
      fun_cases borrowedElem cx elem ty access
      case case3 region ty hnotArtificial hnotShallow =>
        obtain ⟨-, decl, hdecl, hthread⟩ := isRefToThreadLocal_of_deref h hty
        rw [hnot decl hdecl] at hthread
        cases hthread
      case case6 => exact ⟨_, rfl, fun _ => rfl⟩
      all_goals
        refine ⟨_, rfl, fun hd => ?_⟩
        cases hd
    obtain ⟨answer, hanswer, hnone⟩ := hround
    rw [hanswer, Res.ok_bind]
    cases answer with
    | some answer =>
      exact ⟨some answer, rfl, fun hd => absurd (hnone hd) (Option.some_ne_none answer)⟩
    | none => exact ⟨r, hr, hdeep⟩

/-- The elements that are the same, or equal or disjoint, go on to what is behind them. -/
theorem ignoreElems_drop {place : Place} {state : LocalsStateAtExit}
    (h : ignoreBorrow cx place state = .ok false) (n : Nat) :
    ignoreElems cx place.local (place.projection.take n) (place.projection.drop n) =
      .ok false := by
  obtain ⟨ignored, -, h⟩ := Res.bind_inv h
  cases ignored with
  | true => cases h
  | false =>
    rw [← List.take_append_drop n place.projection] at h
    exact ignoreElems_append h

/-- Comparing a tracked borrow with an access never panics behind the first loop, and a
    deep access conflicts unless the places part. -/
theorem placeComponentsConflict_of_tracked {borrowPlace accessPlace : Place}
    {state : LocalsStateAtExit} (htracked : ignoreBorrow cx borrowPlace state = .ok false)
    (hl : borrowPlace.local < cx.localDecls.length) (hnot : NotThreadLocal cx borrowPlace.local)
    (hlocal : borrowPlace.local = accessPlace.local) {bias : PlaceConflictBias}
    {common : Option Bool}
    (hcommon : commonConflict cx borrowPlace.local bias [] borrowPlace.projection
      accessPlace.projection = .ok common) (kind : BorrowKind) (access : AccessDepth) :
    ∃ r, placeComponentsConflict cx borrowPlace kind accessPlace access bias = .ok r ∧
      (access = .deep → r = common.getD !decide (kind = .fake .shallow ∧
        borrowPlace.projection.length < accessPlace.projection.length)) := by
  obtain ⟨answer, hanswer, hdeep⟩ := borrowedConflict_isOk hl hnot access
    (ignoreElems_drop htracked accessPlace.projection.length)
  simp only [placeComponentsConflict, hlocal, decide_true, assert_true, Res.ok_bind]
  rw [← hlocal, hcommon, Res.ok_bind]
  cases common with
  | some common => exact ⟨common, rfl, fun _ => rfl⟩
  | none =>
    simp only [hanswer, Res.ok_bind]
    cases answer with
    | some answer => exact ⟨answer, rfl, fun hd => absurd (hdeep hd) (Option.some_ne_none answer)⟩
    | none => exact ⟨_, rfl, fun _ => rfl⟩

end Tracked

/-! ## Biases -/

/-- What the bias against an overlap does not find disjoint, no bias does. -/
theorem placeProjectionConflict_bias {cx : PlaceCtxt} {l : Local} {base : List PlaceElem}
    {elem1 elem2 : PlaceElem} {overlap : Overlap}
    (h : placeProjectionConflict cx l base elem1 elem2 .noOverlap = .ok overlap)
    (hoverlap : overlap ≠ .disjoint) :
    placeProjectionConflict cx l base elem1 elem2 .overlap = .ok overlap := by
  revert h
  fun_cases placeProjectionConflict cx l base elem1 elem2 .noOverlap
  case case6 | case7 | case8 | case9 | case10 =>
    intro h
    cases h
    exact absurd rfl hoverlap
  all_goals
    intro h
    rw [← h]
    simp_all [placeProjectionConflict]

/-- Places that do not part under the bias against an overlap do not part under the
    other. -/
theorem commonConflict_bias {cx : PlaceCtxt} {l : Local} {base bs as : List PlaceElem}
    {r : Option Bool} (h : commonConflict cx l .noOverlap base bs as = .ok r)
    (hr : r ≠ some false) : commonConflict cx l .overlap base bs as = .ok r := by
  induction bs generalizing base as with
  | nil => rwa [commonConflict_nil_left] at h ⊢
  | cons b bs ih =>
    cases as with
    | nil => rwa [commonConflict_nil_right] at h ⊢
    | cons a as =>
      rw [commonConflict] at h ⊢
      obtain ⟨overlap, hoverlap, h⟩ := Res.bind_inv h
      have hne : overlap ≠ .disjoint := by
        rintro rfl
        cases h
        exact hr rfl
      rw [placeProjectionConflict_bias hoverlap hne, Res.ok_bind]
      cases overlap with
      | arbitrary => exact h
      | disjoint => exact absurd rfl hne
      | equalOrDisjoint => exact ih h

/-- A conflict under the bias against an overlap is one under the other. -/
theorem borrowConflictsWithPlace_bias {cx : PlaceCtxt} {borrowPlace accessPlace : Place}
    {kind : BorrowKind} {access : AccessDepth}
    (h : borrowConflictsWithPlace cx borrowPlace kind accessPlace access .noOverlap = .ok true) :
    borrowConflictsWithPlace cx borrowPlace kind accessPlace access .overlap = .ok true := by
  unfold borrowConflictsWithPlace at h ⊢
  by_cases hlocal : borrowPlace.local = accessPlace.local
  · rw [if_neg (not_not_intro hlocal)] at h ⊢
    by_cases hempty : (borrowPlace.projection.isEmpty && accessPlace.projection.isEmpty) = true
    · rw [if_pos hempty]
    · rw [if_neg hempty] at h ⊢
      simp only [placeComponentsConflict, hlocal, decide_true, assert_true, Res.ok_bind] at h ⊢
      obtain ⟨common, hcommon, h⟩ := Res.bind_inv h
      have hne : common ≠ some false := by
        rintro rfl
        cases h
      rw [commonConflict_bias hcommon hne, Res.ok_bind]
      exact h
  · rw [if_pos hlocal] at h
    cases h

/-! ## Places that lead on from one another -/

/-- The element overlaps itself. -/
def SelfOverlapping : PlaceElem → Prop
  | .subtype _ => False
  | .subslice first last false => first < last
  | _ => True

theorem placeProjectionConflict_self (cx : PlaceCtxt) (l : Local) (base : List PlaceElem)
    {elem : PlaceElem} (h : SelfOverlapping elem) :
    placeProjectionConflict cx l base elem elem .overlap = .ok .equalOrDisjoint := by
  cases elem with
  | subtype => exact absurd h id
  | field => exact if_pos rfl
  | downcast => exact congrArg Except.ok (if_pos rfl)
  | constantIndex offset minLength fromEnd =>
    cases fromEnd with
    | false => exact congrArg Except.ok (if_pos rfl)
    | true => exact congrArg Except.ok (if_pos rfl)
  | subslice first last fromEnd =>
    cases fromEnd with
    | false =>
      have hlt : first < last := h
      exact congrArg Except.ok (if_pos (not_or.mpr ⟨Nat.not_le.mpr hlt, Nat.not_le.mpr hlt⟩))
    | true => rfl
  | deref | index | opaqueCast => rfl

/-- Two places of which one leads on from the other do not part. -/
theorem commonConflict_append (cx : PlaceCtxt) (l : Local) {common : List PlaceElem}
    (hcommon : ∀ elem ∈ common, SelfOverlapping elem) {bs as : List PlaceElem}
    (hends : bs = [] ∨ as = []) (base : List PlaceElem) :
    commonConflict cx l .overlap base (common ++ bs) (common ++ as) = .ok none := by
  induction common generalizing base with
  | nil =>
    rcases hends with rfl | rfl
    · rw [List.append_nil, commonConflict_nil_left]
    · rw [List.append_nil, commonConflict_nil_right]
  | cons elem common ih =>
    rw [List.cons_append, List.cons_append, commonConflict,
      placeProjectionConflict_self cx l base (hcommon elem List.mem_cons_self), Res.ok_bind]
    exact ih (fun elem helem => hcommon elem (List.mem_cons_of_mem _ helem)) _

theorem borrowConflictsWithPlace_of_components {cx : PlaceCtxt} {borrowPlace accessPlace : Place}
    (hlocal : borrowPlace.local = accessPlace.local) {kind : BorrowKind} {access : AccessDepth}
    {bias : PlaceConflictBias}
    (h : placeComponentsConflict cx borrowPlace kind accessPlace access bias = .ok true) :
    borrowConflictsWithPlace cx borrowPlace kind accessPlace access bias = .ok true := by
  unfold borrowConflictsWithPlace
  rw [if_neg (not_not_intro hlocal)]
  by_cases hempty : (borrowPlace.projection.isEmpty && accessPlace.projection.isEmpty) = true
  · rw [if_pos hempty]
  · rw [if_neg hempty, h]

/-- Whatever its depth, an access to a part of a borrowed place conflicts, unless the
    borrow is shallow. -/
theorem borrowConflictsWithPlace_part (cx : PlaceCtxt) {borrowPlace accessPlace : Place}
    (hlocal : borrowPlace.local = accessPlace.local) {rest : List PlaceElem}
    (hrest : accessPlace.projection = borrowPlace.projection ++ rest)
    (hcommon : ∀ elem ∈ borrowPlace.projection, SelfOverlapping elem) {kind : BorrowKind}
    (hkind : kind = .fake .shallow → rest = []) (access : AccessDepth) :
    borrowConflictsWithPlace cx borrowPlace kind accessPlace access .overlap = .ok true := by
  have hnone := commonConflict_append cx borrowPlace.local hcommon (@Or.inl _ (rest = []) rfl) []
  rw [List.append_nil, ← hrest] at hnone
  have hend : borrowPlace.projection.drop accessPlace.projection.length = [] := by
    rw [List.drop_eq_nil_iff, hrest, List.length_append]
    exact Nat.le_add_right ..
  have hlast : decide (kind = .fake .shallow ∧
      borrowPlace.projection.length < accessPlace.projection.length) = false := by
    refine decide_eq_false fun h => ?_
    obtain ⟨hshallow, hlt⟩ := h
    rw [hrest, hkind hshallow, List.append_nil] at hlt
    exact Nat.lt_irrefl _ hlt
  -- neither loop returns: the places agree, and the borrow has no more elements
  refine borrowConflictsWithPlace_of_components hlocal ?_
  rw [placeComponentsConflict, decide_eq_true hlocal, assert_true, Res.ok_bind, hnone, Res.ok_bind]
  simp only [hend, borrowedConflict, Res.pure_eq, Res.ok_bind, hlast, Bool.not_false]

/-- A deep access conflicts with a tracked borrow of a part of the accessed place. -/
theorem borrowConflictsWithPlace_whole {cx : PlaceCtxt} {borrowPlace accessPlace : Place}
    {state : LocalsStateAtExit} (htracked : ignoreBorrow cx borrowPlace state = .ok false)
    (hl : borrowPlace.local < cx.localDecls.length) (hnot : NotThreadLocal cx borrowPlace.local)
    (hlocal : borrowPlace.local = accessPlace.local) {rest : List PlaceElem}
    (hrest : borrowPlace.projection = accessPlace.projection ++ rest)
    (hcommon : ∀ elem ∈ accessPlace.projection, SelfOverlapping elem) (kind : BorrowKind) :
    borrowConflictsWithPlace cx borrowPlace kind accessPlace .deep .overlap = .ok true := by
  have hnone := commonConflict_append cx borrowPlace.local hcommon (@Or.inr (rest = []) _ rfl) []
  rw [List.append_nil, ← hrest] at hnone
  obtain ⟨r, hr, hdeep⟩ := placeComponentsConflict_of_tracked htracked hl hnot hlocal hnone kind
    .deep
  refine borrowConflictsWithPlace_of_components hlocal ?_
  rw [hr, hdeep rfl, hrest]
  simp

/-- A local conflicts with every tracked borrow of it, whatever the bias. -/
theorem placesConflict_local {cx : PlaceCtxt} {borrowPlace : Place} {state : LocalsStateAtExit}
    (htracked : ignoreBorrow cx borrowPlace state = .ok false)
    (hl : borrowPlace.local < cx.localDecls.length) (hnot : NotThreadLocal cx borrowPlace.local)
    (bias : PlaceConflictBias) :
    placesConflict cx borrowPlace (.from borrowPlace.local) bias = .ok true := by
  have hlocal : borrowPlace.local = (Place.from borrowPlace.local).local := rfl
  have hnone : commonConflict cx borrowPlace.local bias [] borrowPlace.projection
      (Place.from borrowPlace.local).projection = .ok none :=
    commonConflict_nil_right ..
  obtain ⟨r, hr, hdeep⟩ := placeComponentsConflict_of_tracked htracked hl hnot hlocal hnone
    (.mut .twoPhaseBorrow) .deep
  refine borrowConflictsWithPlace_of_components hlocal ?_
  rw [hr, hdeep rfl]
  rfl

/-- Of two places, one leads on from the other: a deep access conflicts with a tracked
    borrow either way round, any other access only if it is to a part of what is borrowed. -/
theorem borrowConflictsWithPlace_prefix {cx : PlaceCtxt} {borrowPlace accessPlace : Place}
    {state : LocalsStateAtExit} (htracked : ignoreBorrow cx borrowPlace state = .ok false)
    (hl : borrowPlace.local < cx.localDecls.length) (hnot : NotThreadLocal cx borrowPlace.local)
    (hlocal : borrowPlace.local = accessPlace.local) {access : AccessDepth}
    (hends : borrowPlace.projection <+: accessPlace.projection ∨
      access = .deep ∧ accessPlace.projection <+: borrowPlace.projection)
    (hself : ∀ elem ∈ accessPlace.projection, SelfOverlapping elem) {kind : BorrowKind}
    (hkind : kind ≠ .fake .shallow) :
    borrowConflictsWithPlace cx borrowPlace kind accessPlace access .overlap = .ok true := by
  rcases hends with ⟨rest, hrest⟩ | ⟨rfl, rest, hrest⟩
  · exact borrowConflictsWithPlace_part cx hlocal hrest.symm
      (fun elem helem => hself elem (hrest ▸ List.mem_append_left rest helem))
      (fun hshallow => absurd hshallow hkind) access
  · exact borrowConflictsWithPlace_whole htracked hl hnot hlocal hrest.symm hself kind

/-! ## Places of a pair -/

namespace Lent

/-- A scalar, a pair of them, and a shared borrow of one. -/
def localDecls : List LocalDecl :=
  [.withSourceInfo .usize ⟨0, 0⟩, .withSourceInfo (.tuple (.ty .usize (.ty .usize .nil))) ⟨0, 0⟩,
    .withSourceInfo (.ref (.reVar 0) .usize .not) ⟨0, 0⟩]

/-- A component of the pair. -/
def component (index : Nat) : Place := ⟨1, [.field index .usize]⟩

/-- The type of a field, and of what a reference points to. -/
def projectionTy : Ty → PlaceElem → Ty
  | _, .field _ ty => ty
  | .ref _ ty _, .deref => ty
  | ty, _ => ty

def cx : PlaceCtxt where
  tcx := {
    projectionTy
    constTy _ := .usize
    otherRvalueTy _ _ := .usize
    debugPlace _ := "_"
    debugStatement _ := "_" }
  localDecls
  definitions := ⟨fun _ => false, fun _ => false, fun _ => false⟩

/-- A union in the place of the pair. -/
def unionCx : PlaceCtxt :=
  { cx with
    localDecls := [.withSourceInfo .usize ⟨0, 0⟩, .withSourceInfo (.adt 0 .nil) ⟨0, 0⟩]
    definitions := ⟨fun _ => true, fun _ => false, fun _ => false⟩ }

/-- Two fields of a union conflict under either bias. -/
theorem borrowConflictsWithPlace_bias_union :
    borrowConflictsWithPlace unionCx (component 0) .shared (component 1) .deep .overlap =
      .ok true :=
  borrowConflictsWithPlace_bias (by rfl)

end Lent

end MutationTesting.Borrowck
