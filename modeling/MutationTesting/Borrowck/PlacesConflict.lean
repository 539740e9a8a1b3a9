/-
  MutationTesting.Borrowck.PlacesConflict

  When a borrow of one place conflicts with an access to another
  (`borrowck/src/places_conflict.rs`).  What a place stands for at run time is given by
  cells, the steps from a local to a part of memory: a borrow that is found not to
  conflict is one that the access cannot touch, whatever the indices, the lengths of
  slices and the active variants are.
-/
import MutationTesting.Mir.Access
import MutationTesting.Mir.Typing

namespace MutationTesting.Borrowck

open MutationTesting.Rust MutationTesting.Mir

/-- What rustc answers about definitions. -/
structure Definitions where
  isUnion : DefId → Bool
  hasDtor : DefId → Bool
  isThreadLocalStatic : DefId → Bool

/-- The types of the places of a body. -/
structure PlaceCtxt where
  tcx : TyCtxt
  localDecls : List LocalDecl
  definitions : Definitions

/-- `PlaceRef::ty` of the place with the given local and projection. -/
def PlaceCtxt.ty (cx : PlaceCtxt) (l : Local) (base : List PlaceElem) : Res Ty :=
  Place.ty cx.tcx cx.localDecls ⟨l, base⟩

/-- `Ty::is_union`. -/
def PlaceCtxt.isUnion (cx : PlaceCtxt) : Ty → Bool
  | .adt defId _ => cx.definitions.isUnion defId
  | _ => false

inductive PlaceConflictBias where
  | overlap
  | noOverlap
  deriving DecidableEq

inductive Overlap where
  | arbitrary
  | equalOrDisjoint
  | disjoint
  deriving DecidableEq

/-- Elements of arrays and slices. -/
def isArrayElem : PlaceElem → Bool
  | .index _ | .constantIndex .. | .subslice .. => true
  | _ => false

/-! ## One element of two places -/

/-- Whether two elements that are equal or disjoint are known to be disjoint. -/
def Overlap.ofCompare (mayBeEqual : Prop) [Decidable mayBeEqual] : Overlap :=
  if mayBeEqual then .equalOrDisjoint else .disjoint

/-- What the bias makes of two array indices. -/
def PlaceConflictBias.ofIndices : PlaceConflictBias → Overlap
  | .overlap => .equalOrDisjoint
  | .noOverlap => .disjoint

/-- `place_projection_conflict`, for two elements projected out of the place with the
    given local and projection. -/
def placeProjectionConflict (cx : PlaceCtxt) (l : Local) (base : List PlaceElem)
    (elem1 elem2 : PlaceElem) (bias : PlaceConflictBias) : Res Overlap :=
  match elem1, elem2 with
  | .deref, .deref => .ok .equalOrDisjoint
  | .opaqueCast _, .opaqueCast _ => .ok .equalOrDisjoint
  | .field f1 _, .field f2 _ =>
    if f1 = f2 then .ok .equalOrDisjoint
    else do
      let ty ← cx.ty l base
      return if cx.isUnion ty then .arbitrary else .disjoint
  | .downcast v1, .downcast v2 => .ok (.ofCompare (v1 = v2))
  | .index _, .index _ | .index _, .constantIndex .. | .index _, .subslice ..
  | .constantIndex .., .index _ | .subslice .., .index _ => .ok bias.ofIndices
  | .constantIndex o1 _ false, .constantIndex o2 _ false
  | .constantIndex o1 _ true, .constantIndex o2 _ true => .ok (.ofCompare (o1 = o2))
  | .constantIndex offsetFromBegin minLength1 false, .constantIndex offsetFromEnd minLength2 true
  | .constantIndex offsetFromEnd minLength1 true, .constantIndex offsetFromBegin minLength2 false =>
    .ok (.ofCompare (offsetFromBegin ≥ max minLength1 minLength2 - offsetFromEnd))
  | .constantIndex offset _ false, .subslice first last false
  | .subslice first last false, .constantIndex offset _ false =>
    .ok (.ofCompare (first ≤ offset ∧ offset < last))
  | .constantIndex offset _ false, .subslice first _ _
  | .subslice first _ _, .constantIndex offset _ false => .ok (.ofCompare (offset ≥ first))
  | .constantIndex offset _ true, .subslice _ last true
  | .subslice _ last true, .constantIndex offset _ true => .ok (.ofCompare (offset > last))
  | .subslice f1 t1 false, .subslice f2 t2 false =>
    .ok (.ofCompare (¬ (f2 ≥ t1 ∨ f1 ≥ t2)))
  | .subslice .., .subslice .. => .ok .equalOrDisjoint
  | _, _ => .error (.message "mismatched projections in place_element_conflict")

/-! ## Two places -/

/-- The first loop of `place_components_conflict`, over the elements that both places
    have after the given projection: whether it returns. -/
def commonConflict (cx : PlaceCtxt) (l : Local) (bias : PlaceConflictBias) :
    List PlaceElem → List PlaceElem → List PlaceElem → Res (Option Bool)
  | base, borrowC :: borrowRest, accessC :: accessRest => do
    match ← placeProjectionConflict cx l base borrowC accessC bias with
    | .arbitrary => return some true
    | .disjoint => return some false
    | .equalOrDisjoint => commonConflict cx l bias (base ++ [borrowC]) borrowRest accessRest
  | _, _, _ => return none

@[simp] theorem commonConflict_nil_left (cx : PlaceCtxt) (l : Local) (bias : PlaceConflictBias)
    (base as : List PlaceElem) : commonConflict cx l bias base [] as = .ok none := by
  cases as <;> rfl

@[simp] theorem commonConflict_nil_right (cx : PlaceCtxt) (l : Local) (bias : PlaceConflictBias)
    (base bs : List PlaceElem) : commonConflict cx l bias base bs [] = .ok none := by
  cases bs <;> rfl

/-- One round of the second loop, over the elements that only the borrow has: whether
    it returns. -/
def borrowedElem (cx : PlaceCtxt) (elem : PlaceElem) (baseTy : Ty) (access : AccessDepth) :
    Res (Option Bool) :=
  match access, elem, baseTy with
  | .shallow (some _), _, _ => .ok (some false)
  | .shallow none, .deref, _ => .ok (some false)
  | _, .deref, .ref _ _ .not => .error (.message "Tracking borrow behind shared reference.")
  | .drop, .deref, .ref _ _ .mut => .ok (some false)
  | .drop, .field _ _, .adt defId _ =>
    .ok (if cx.definitions.hasDtor defId then some true else none)
  | _, _, _ => .ok none

/-- The second loop of `place_components_conflict`, over the elements that the borrow has
    after the given projection. -/
def borrowedConflict (cx : PlaceCtxt) (l : Local) (access : AccessDepth) :
    List PlaceElem → List PlaceElem → Res (Option Bool)
  | base, elem :: rest => do
    let baseTy ← cx.ty l base
    match ← borrowedElem cx elem baseTy access with
    | some answer => return some answer
    | none => borrowedConflict cx l access (base ++ [elem]) rest
  | _, [] => return none

/-- `place_components_conflict`. -/
def placeComponentsConflict (cx : PlaceCtxt) (borrowPlace : Place) (borrowKind : BorrowKind)
    (accessPlace : Place) (access : AccessDepth) (bias : PlaceConflictBias) : Res Bool := do
  assert (borrowPlace.local = accessPlace.local)
  match ← commonConflict cx borrowPlace.local bias [] borrowPlace.projection
    accessPlace.projection with
  | some answer => return answer
  | none =>
    let n := accessPlace.projection.length
    match ← borrowedConflict cx borrowPlace.local access (borrowPlace.projection.take n)
      (borrowPlace.projection.drop n) with
    | some answer => return answer
    | none =>
      return !decide (borrowKind = .fake .shallow ∧
        borrowPlace.projection.length < accessPlace.projection.length)

/-- `borrow_conflicts_with_place`. -/
def borrowConflictsWithPlace (cx : PlaceCtxt) (borrowPlace : Place) (borrowKind : BorrowKind)
    (accessPlace : Place) (access : AccessDepth) (bias : PlaceConflictBias) : Res Bool :=
  if borrowPlace.local ≠ accessPlace.local then .ok false
  else if borrowPlace.projection.isEmpty && accessPlace.projection.isEmpty then .ok true
  else placeComponentsConflict cx borrowPlace borrowKind accessPlace access bias

/-- `places_conflict`. -/
def placesConflict (cx : PlaceCtxt) (borrowPlace accessPlace : Place) (bias : PlaceConflictBias) :
    Res Bool :=
  borrowConflictsWithPlace cx borrowPlace (.mut .twoPhaseBorrow) accessPlace .deep bias

/-! ## Places at run time -/

/-- A step from a part of memory to a part of it, or to what it points to. -/
inductive Cell where
  | deref (ofMutRef : Bool)
  | field (index : Nat) (inUnion hasDtor : Bool)
  | elem (index : Nat)
  | variant (index : Nat)
  | cast
  deriving DecidableEq

/-- What the cells that a place stands for depend on at run time: the values of locals
    used as indices, and the type, the length and the active variant of what is at some
    cells. -/
structure Valuation where
  indexOf : Local → Nat
  tyAt : List Cell → Ty
  lenAt : List Cell → Nat
  variantAt : List Cell → Nat

/-- The cell of a `Deref` out of the type. -/
def Cell.ofDeref (ty : Ty) : Cell :=
  .deref (decide (ty.refMutability = some .mut))

/-- Whether the type itself, not only a part of it, has a destructor. -/
def PlaceCtxt.hasDtor (cx : PlaceCtxt) : Ty → Bool
  | .adt defId _ => cx.definitions.hasDtor defId
  | _ => false

/-- The cell of a field of the type. -/
def PlaceCtxt.fieldCell (cx : PlaceCtxt) (index : Nat) (ty : Ty) : Cell :=
  .field index (cx.isUnion ty) (cx.hasDtor ty)

/-- The element, projected out of what is at the given cells, stands for the cell.  A
    subslice stands for each of its elements. -/
def PlaceCtxt.ElemCell (cx : PlaceCtxt) (v : Valuation) (cells : List Cell) :
    PlaceElem → Cell → Prop
  | .deref, c => c = .ofDeref (v.tyAt cells)
  | .field index _, c => c = cx.fieldCell index (v.tyAt cells)
  | .index ix, c => c = .elem (v.indexOf ix)
  | .constantIndex offset minLength false, c =>
    minLength ≤ v.lenAt cells ∧ offset < minLength ∧ c = .elem offset
  | .constantIndex offset minLength true, c =>
    minLength ≤ v.lenAt cells ∧ 1 ≤ offset ∧ offset ≤ minLength ∧
      c = .elem (v.lenAt cells - offset)
  | .subslice first last false, c => ∃ n, first ≤ n ∧ n < last ∧ c = .elem n
  | .subslice first last true, c => ∃ n, first ≤ n ∧ n + last < v.lenAt cells ∧ c = .elem n
  | .downcast variant, c => v.variantAt cells = variant ∧ c = .variant variant
  | .opaqueCast _, c | .subtype _, c => c = .cast

/-- The elements, projected out of a place with the given projection and cells, stand
    for further cells, and the types of the places are those of what is there. -/
inductive PlaceCtxt.Leads (cx : PlaceCtxt) (v : Valuation) (l : Local) :
    List PlaceElem → List Cell → List PlaceElem → List Cell → Prop
  | nil (base : List PlaceElem) (cells : List Cell) : Leads cx v l base cells [] []
  | cons {base rest : List PlaceElem} {elem : PlaceElem} {cells : List Cell} {c : Cell}
      {further : List Cell} (hty : cx.ty l base = .ok (v.tyAt cells))
      (helem : cx.ElemCell v cells elem c)
      (hrest : Leads cx v l (base ++ [elem]) (cells ++ [c]) rest further) :
      Leads cx v l base cells (elem :: rest) (c :: further)

/-- The cells that a place stands for. -/
def PlaceCtxt.Denotes (cx : PlaceCtxt) (v : Valuation) (place : Place) (cells : List Cell) :
    Prop :=
  cx.Leads v place.local [] [] place.projection cells

/-- Different fields of one union. -/
def Cell.ShareUnion : Cell → Cell → Prop
  | .field i true _, .field j true _ => i ≠ j
  | _, _ => False

/-- Whether an access touches what lies behind the given cells: a shallow one stops at
    pointers, one of an artificial field at once, and dropping stops at mutable
    references, but for those inside of a type with a destructor. -/
def Reaches : AccessDepth → List Cell → Prop
  | _, [] => True
  | .deep, _ => True
  | .shallow (some _), _ => False
  | .shallow none, .deref _ :: _ => False
  | .shallow none, _ :: cells => Reaches (.shallow none) cells
  | .drop, .deref true :: _ => False
  | .drop, .field _ _ true :: _ => True
  | .drop, _ :: cells => Reaches .drop cells

/-- An access touches what is borrowed: it is to a part of it, of which a shallow borrow
    has none but the whole, or it reaches it, or it is to another field of a union. -/
inductive Touches (access : AccessDepth) (kind : BorrowKind) :
    List Cell → List Cell → Prop
  | part {accessed : List Cell} (h : kind = .fake .shallow → accessed = []) :
    Touches access kind accessed []
  | reached {borrowed : List Cell} (h : Reaches access borrowed) :
    Touches access kind [] borrowed
  | union {accessed borrowed : List Cell} {c d : Cell} (h : c.ShareUnion d) :
    Touches access kind (c :: accessed) (d :: borrowed)
  | step {accessed borrowed : List Cell} (c : Cell) (h : Touches access kind accessed borrowed) :
    Touches access kind (c :: accessed) (c :: borrowed)

/-! ## Soundness -/

section Sound

variable {cx : PlaceCtxt} {v : Valuation} {l : Local}

/-- What the overlap of two elements says of their cells. -/
def Overlap.Describes : Overlap → Cell → Cell → Prop
  | .arbitrary, c, d => c.ShareUnion d
  | .equalOrDisjoint, c, d => ¬ c.ShareUnion d
  | .disjoint, c, d => c ≠ d ∧ ¬ c.ShareUnion d

theorem Overlap.describes_self {c : Cell} : Overlap.equalOrDisjoint.Describes c c := by
  cases c with
  | field i inUnion dtor =>
    cases inUnion with
    | false => exact id
    | true => exact fun h => h rfl
  | deref | elem | variant | cast => exact id

theorem Overlap.ofCompare_describes {mayBeEqual : Prop} [Decidable mayBeEqual] {c d : Cell}
    (hshare : ¬ c.ShareUnion d) (hequal : c = d → mayBeEqual) :
    (Overlap.ofCompare mayBeEqual).Describes c d := by
  unfold Overlap.ofCompare
  by_cases h : mayBeEqual
  · rw [if_pos h]
    exact hshare
  · rw [if_neg h]
    exact ⟨fun heq => h (hequal heq), hshare⟩

/-- An element of an array or a slice stands for one of its elements. -/
theorem PlaceCtxt.ElemCell.exists_elem {cells : List Cell} {elem : PlaceElem} {c : Cell}
    (h : cx.ElemCell v cells elem c)
    (harray : isArrayElem elem = true) : ∃ n, c = .elem n := by
  cases elem with
  | index ix => exact ⟨_, h⟩
  | constantIndex offset minLength fromEnd =>
    cases fromEnd with
    | false => exact ⟨_, h.2.2⟩
    | true => exact ⟨_, h.2.2.2⟩
  | subslice first last fromEnd =>
    cases fromEnd with
    | false =>
      obtain ⟨n, -, -, hc⟩ := h
      exact ⟨n, hc⟩
    | true =>
      obtain ⟨n, -, -, hc⟩ := h
      exact ⟨n, hc⟩
  | deref | field | downcast | opaqueCast | subtype => cases harray

theorem PlaceCtxt.ElemCell.not_shareUnion {cells : List Cell} {elem : PlaceElem} {c d : Cell}
    (h : cx.ElemCell v cells elem c)
    (harray : isArrayElem elem = true) : ¬ c.ShareUnion d := by
  obtain ⟨n, rfl⟩ := h.exists_elem harray
  exact id

/-- With the bias towards an overlap, the overlap of two elements describes the cells
    that they stand for. -/
theorem placeProjectionConflict_describes {base : List PlaceElem} {cells : List Cell}
    (hty : cx.ty l base = .ok (v.tyAt cells)) {elem1 elem2 : PlaceElem} {c d : Cell}
    (hc : cx.ElemCell v cells elem1 c) (hd : cx.ElemCell v cells elem2 d) {r : Overlap}
    (h : placeProjectionConflict cx l base elem1 elem2 .overlap = .ok r) : r.Describes c d := by
  revert h
  fun_cases placeProjectionConflict cx l base elem1 elem2 .overlap
  case case4 f1 ty1 f2 ty2 hne =>
    rintro h
    rw [hty, Res.ok_bind] at h
    cases h
    obtain rfl := hc
    obtain rfl := hd
    cases hunion : cx.isUnion (v.tyAt cells) with
    | true => simp [PlaceCtxt.fieldCell, hunion, Overlap.Describes, Cell.ShareUnion, hne]
    | false => simp [PlaceCtxt.fieldCell, hunion, Overlap.Describes, Cell.ShareUnion, hne]
  all_goals
    intro h
    cases h
  -- the same field, or what there is only one of
  case case1 | case2 | case3 =>
    obtain rfl := hc
    obtain rfl := hd
    exact Overlap.describes_self
  case case5 v1 v2 =>
    obtain ⟨hv1, rfl⟩ := hc
    obtain ⟨hv2, rfl⟩ := hd
    exact Overlap.ofCompare_describes id fun _ => hv1.symm.trans hv2
  -- a runtime index may be any
  case case6 | case7 | case8 | case9 | case10 => exact hc.not_shareUnion rfl
  case case22 => exact hc.not_shareUnion rfl
  all_goals
    refine Overlap.ofCompare_describes (hc.not_shareUnion rfl) fun heq => ?_
    subst heq
  -- a slice, of which only the first elements are known to be left out
  case case17 _ _ _ _ fromEnd hfromEnd =>
    obtain rfl : fromEnd = true := eq_true_of_ne_false hfromEnd
    obtain ⟨-, -, rfl⟩ := hc
    obtain ⟨n, hfirst, -, heq⟩ := hd
    cases heq
    exact hfirst
  case case18 _ _ fromEnd _ _ hfromEnd =>
    obtain rfl : fromEnd = true := eq_true_of_ne_false hfromEnd
    obtain ⟨-, -, rfl⟩ := hd
    obtain ⟨n, hfirst, -, heq⟩ := hc
    cases heq
    exact hfirst
  -- two ranges of constants, from one end or from both
  all_goals
    simp only [PlaceCtxt.ElemCell] at hc hd
    grind

/-- Elements that are not of an array stand for one cell if they are not disjoint. -/
theorem placeProjectionConflict_exact {base : List PlaceElem} {cells : List Cell}
    {elem1 elem2 : PlaceElem} {c d : Cell} {bias : PlaceConflictBias}
    (hc : cx.ElemCell v cells elem1 c) (hd : cx.ElemCell v cells elem2 d)
    (harray : isArrayElem elem1 = false)
    (h : placeProjectionConflict cx l base elem1 elem2 bias = .ok .equalOrDisjoint) : c = d := by
  revert h
  fun_cases placeProjectionConflict cx l base elem1 elem2 bias
  case case4 f1 ty1 f2 ty2 hne =>
    intro h
    obtain ⟨ty', -, h⟩ := Res.bind_inv h
    cases hunion : cx.isUnion ty' with
    | true => simp [hunion] at h
    | false => simp [hunion] at h
  case case5 v1 v2 =>
    intro h
    obtain ⟨-, rfl⟩ := hc
    obtain ⟨-, rfl⟩ := hd
    have hsame : v1 = v2 := by
      by_contra hne
      rw [Overlap.ofCompare, if_neg hne] at h
      cases h
    rw [hsame]
  case case1 | case2 | case3 =>
    intro h
    exact Eq.trans hc (Eq.symm hd)
  case case23 =>
    intro h
    cases h
  all_goals cases harray

/-! ### Places that part -/

/-- The cells differ at some point, and not only in the field of a union. -/
inductive Parted : List Cell → List Cell → Prop
  | here {p q : List Cell} {c d : Cell} (hne : c ≠ d) (hshare : ¬ c.ShareUnion d) :
    Parted (c :: p) (d :: q)
  | there {p q : List Cell} (c : Cell) (h : Parted p q) : Parted (c :: p) (c :: q)

theorem Cell.shareUnion_comm {c d : Cell} : c.ShareUnion d ↔ d.ShareUnion c := by
  unfold Cell.ShareUnion
  split
  · exact ne_comm
  · rename_i hnot
    constructor
    · exact False.elim
    · intro h
      split at h
      · exact hnot _ _ _ _ rfl rfl
      · exact h

theorem Cell.ne_of_shareUnion {c d : Cell} (h : c.ShareUnion d) : c ≠ d := by
  rintro rfl
  exact Overlap.describes_self h

variable {access : AccessDepth} {kind : BorrowKind}

/-- Cells that part are not touched. -/
theorem Parted.not_touches {borrowed accessed : List Cell} (h : Parted borrowed accessed) :
    ¬ Touches access kind accessed borrowed := by
  intro htouch
  induction h with
  | here hne hshare =>
    cases htouch with
    | union h => exact hshare (Cell.shareUnion_comm.mp h)
    | step => exact hne rfl
  | there c _ ih =>
    cases htouch with
    | union h => exact Cell.ne_of_shareUnion h rfl
    | step _ h => exact ih h

@[simp] theorem touches_cons {accessed borrowed : List Cell} (c : Cell) :
    Touches access kind (c :: accessed) (c :: borrowed) ↔
      Touches access kind accessed borrowed := by
  constructor
  · intro h
    cases h with
    | union h => exact absurd rfl (Cell.ne_of_shareUnion h)
    | step _ h => exact h
  · exact .step c

@[simp] theorem touches_nil {accessed : List Cell} :
    Touches access kind accessed [] ↔ (kind = .fake .shallow → accessed = []) := by
  constructor
  · intro h
    cases h with
    | part h => exact h
    | reached => exact fun _ => rfl
  · exact .part

theorem touches_of_nil {c : Cell} {borrowed : List Cell} :
    Touches access kind [] (c :: borrowed) ↔ Reaches access (c :: borrowed) := by
  constructor
  · intro h
    cases h with
    | reached h => exact h
  · exact .reached

/-- No element of the projection is one of an array or a slice. -/
def NoArrayElem (projection : List PlaceElem) : Prop :=
  ∀ elem ∈ projection, isArrayElem elem = false

/-- What the first loop finds out: the places part, or share a union, or one leads on
    from where the other ends. -/
inductive CommonSpec (cx : PlaceCtxt) (v : Valuation) (l : Local) (base : List PlaceElem)
    (bs as : List PlaceElem) (b a : List Cell) : Option Bool → Prop
  | parted (h : Parted b a) (hfalse : NoArrayElem bs → r = some false) :
    CommonSpec cx v l base bs as b a r
  | union (h : ∀ access kind, Touches access kind a b) :
    CommonSpec cx v l base bs as b a (some true)
  | along (cells tail : List Cell)
      (hleads : cx.Leads v l (base ++ bs.take as.length) cells (bs.drop as.length) tail)
      (htouches : ∀ access kind, Touches access kind a b ↔
        (kind = .fake .shallow → as.length ≤ bs.length) ∧ Reaches access tail) :
    CommonSpec cx v l base bs as b a none

theorem PlaceCtxt.Leads.length_eq {base elems : List PlaceElem} {cells further : List Cell}
    (h : cx.Leads v l base cells elems further) : further.length = elems.length := by
  induction h with
  | nil => rfl
  | cons _ _ _ ih => rw [List.length_cons, List.length_cons, ih]

/-- The first loop over two places that stand for some cells. -/
theorem commonConflict_spec {bs as base base' : List PlaceElem} {cells b a : List Cell}
    (hb : cx.Leads v l base cells bs b) (ha : cx.Leads v l base' cells as a) {r : Option Bool}
    (h : commonConflict cx l .overlap base bs as = .ok r) :
    CommonSpec cx v l base bs as b a r := by
  induction bs generalizing base base' as cells b a with
  | nil =>
    cases hb
    rw [commonConflict_nil_left] at h
    cases h
    refine .along cells [] ?_ fun access kind => ?_
    · rw [List.drop_nil]
      exact .nil _ cells
    · rw [touches_nil, ← List.length_eq_zero_iff, ha.length_eq]
      simp [Reaches]
  | cons e bs ih =>
    cases ha with
    | nil =>
      rw [commonConflict_nil_right] at h
      cases h
      refine .along cells b ?_ fun access kind => ?_
      · rw [List.length_nil, List.take_zero, List.drop_zero, List.append_nil]
        exact hb
      · cases hb with
        | cons => simp [touches_of_nil]
    | @cons _ as e' _ d a _ hd ha =>
      cases hb with
      | @cons _ _ _ _ c b hty hc hb =>
        rw [commonConflict] at h
        obtain ⟨overlap, hoverlap, h⟩ := Res.bind_inv h
        have hdescribes := placeProjectionConflict_describes hty hc hd hoverlap
        cases overlap with
        | arbitrary =>
          cases h
          exact .union fun access kind => .union (Cell.shareUnion_comm.mp hdescribes)
        | disjoint =>
          cases h
          exact .parted (.here hdescribes.1 hdescribes.2) fun _ => rfl
        | equalOrDisjoint =>
          by_cases hsame : c = d
          · subst hsame
            -- the loop goes on behind one cell
            cases ih hb ha h with
            | parted hparted hfalse =>
              exact .parted (.there c hparted) fun hno =>
                hfalse fun elem helem => hno elem (List.mem_cons_of_mem _ helem)
            | union htouches => exact .union fun access kind => (htouches access kind).step c
            | along cells' tail hleads htouches =>
              refine .along cells' tail ?_ fun access kind => ?_
              · rw [List.append_assoc] at hleads
                exact hleads
              · rw [touches_cons, htouches]
                simp
          · -- only elements of arrays can be disjoint here
            refine .parted (.here hsame hdescribes) fun hno => absurd ?_ hsame
            exact placeProjectionConflict_exact hc hd (hno e List.mem_cons_self) hoverlap

/-! ### What only the borrow has -/

@[simp] theorem reaches_nil (access : AccessDepth) : Reaches access [] := by
  cases access <;> trivial

@[simp] theorem reaches_deep (cells : List Cell) : Reaches .deep cells := by
  cases cells <;> trivial

theorem reaches_shallow_cons {c : Cell} {cells : List Cell} :
    Reaches (.shallow none) (c :: cells) ↔
      (∀ ofMutRef, c ≠ .deref ofMutRef) ∧ Reaches (.shallow none) cells := by
  cases c <;> simp [Reaches]

theorem reaches_drop_cons {c : Cell} {cells : List Cell} :
    Reaches .drop (c :: cells) ↔
      (∃ index inUnion, c = .field index inUnion true) ∨
        c ≠ .deref true ∧ Reaches .drop cells := by
  cases c with
  | deref ofMutRef => cases ofMutRef <;> simp [Reaches]
  | field index inUnion dtor => cases dtor <;> simp [Reaches]
  | elem | variant | cast => simp [Reaches]

theorem PlaceCtxt.ElemCell.deref_inv {cells : List Cell} {elem : PlaceElem} {ofMutRef : Bool}
    (h : cx.ElemCell v cells elem (.deref ofMutRef)) :
    elem = .deref ∧ ofMutRef = decide ((v.tyAt cells).refMutability = some .mut) := by
  by_cases harray : isArrayElem elem = true
  · obtain ⟨n, hn⟩ := h.exists_elem harray
    cases hn
  · cases elem with
    | deref => exact ⟨rfl, (Cell.deref.inj h)⟩
    | downcast => cases h.2
    | field | opaqueCast | subtype => cases h
    | index | constantIndex | subslice => exact absurd rfl harray

theorem PlaceCtxt.ElemCell.field_inv {cells : List Cell} {elem : PlaceElem} {index : Nat}
    {inUnion dtor : Bool} (h : cx.ElemCell v cells elem (.field index inUnion dtor)) :
    (∃ ty, elem = .field index ty) ∧ dtor = cx.hasDtor (v.tyAt cells) := by
  by_cases harray : isArrayElem elem = true
  · obtain ⟨n, hn⟩ := h.exists_elem harray
    cases hn
  · cases elem with
    | field index' ty =>
      obtain ⟨rfl, -, rfl⟩ := Cell.field.inj h
      exact ⟨⟨ty, rfl⟩, rfl⟩
    | downcast => cases h.2
    | deref | opaqueCast | subtype => cases h
    | index | constantIndex | subslice => exact absurd rfl harray

/-- What one round of the second loop says of the cell of its element. -/
theorem borrowedElem_spec {access : AccessDepth} {cells : List Cell} {elem : PlaceElem} {c : Cell}
    (hc : cx.ElemCell v cells elem c) {r : Option Bool}
    (h : borrowedElem cx elem (v.tyAt cells) access = .ok r) (tail : List Cell) :
    Reaches access (c :: tail) ↔ r = some true ∨ r = none ∧ Reaches access tail := by
  revert h
  generalize hty : v.tyAt cells = ty
  fun_cases borrowedElem cx elem ty access
  all_goals
    intro h
    cases h
  case case1 field => simp [Reaches]
  case case2 =>
    obtain rfl := hc
    simp [reaches_shallow_cons, Cell.ofDeref]
  case case4 region ty =>
    obtain rfl := hc
    simp [hty, Cell.ofDeref, Ty.refMutability, Reaches]
  case case5 index ty defId args =>
    obtain rfl := hc
    rw [reaches_drop_cons, hty]
    cases hdtor : cx.definitions.hasDtor defId with
    | true => simp [PlaceCtxt.fieldCell, PlaceCtxt.hasDtor, hdtor]
    | false => simp [PlaceCtxt.fieldCell, PlaceCtxt.hasDtor, hdtor]
  case case6 hnotRef hnotArtificial hnotShallow hnotMut hnotAdt =>
    -- the loop goes on
    suffices h : Reaches access (c :: tail) ↔ Reaches access tail by simp [h]
    cases access with
    | shallow field =>
      cases field with
      | some field => exact absurd rfl (hnotArtificial field)
      | none =>
        rw [reaches_shallow_cons]
        refine and_iff_right fun ofMutRef hderef => ?_
        subst hderef
        exact hnotShallow rfl hc.deref_inv.1
    | deep => simp
    | drop =>
      rw [reaches_drop_cons]
      have hnoDtor : ¬ ∃ index inUnion, c = .field index inUnion true := by
        rintro ⟨index, inUnion, rfl⟩
        obtain ⟨⟨fieldTy, helem⟩, hdtor⟩ := hc.field_inv
        cases ty with
        | adt defId args => exact hnotAdt index fieldTy defId args rfl helem rfl
        | _ =>
          rw [hty] at hdtor
          cases hdtor
      have hnoDeref : c ≠ .deref true := by
        rintro rfl
        obtain ⟨helem, hmut⟩ := hc.deref_inv
        cases ty with
        | ref region ty mutbl =>
          cases mutbl with
          | not => exact hnotRef region ty helem rfl
          | «mut» => exact hnotMut region ty rfl helem rfl
        | _ =>
          rw [hty] at hmut
          cases hmut
      exact ⟨fun h => (h.resolve_left hnoDtor).2, fun h => .inr ⟨hnoDeref, h⟩⟩

/-- The second loop finds out whether the access reaches what is borrowed. -/
theorem borrowedConflict_spec {access : AccessDepth} {base rest : List PlaceElem}
    {cells tail : List Cell} (hleads : cx.Leads v l base cells rest tail) {r : Option Bool}
    (h : borrowedConflict cx l access base rest = .ok r) :
    Reaches access tail ↔ r ≠ some false := by
  induction hleads with
  | nil =>
    rw [borrowedConflict] at h
    cases h
    simp
  | @cons base rest elem cells c further hty hc _ ih =>
    rw [borrowedConflict, hty, Res.ok_bind] at h
    obtain ⟨answer, hanswer, h⟩ := Res.bind_inv h
    rw [borrowedElem_spec hc hanswer]
    cases answer with
    | none => simp [ih h]
    | some answer =>
      cases h
      simp

/-! ### Both loops -/

/-- A borrow that is found not to conflict is not touched by the access, in no
    valuation.  Where no array element is borrowed, one that conflicts is touched in
    all. -/
theorem borrowConflictsWithPlace_touches {borrowPlace accessPlace : Place} {b a : List Cell}
    (hb : cx.Denotes v borrowPlace b) (ha : cx.Denotes v accessPlace a) {r : Bool}
    (h : borrowConflictsWithPlace cx borrowPlace kind accessPlace access .overlap = .ok r) :
    (r = false → ¬ (borrowPlace.local = accessPlace.local ∧ Touches access kind a b)) ∧
      (NoArrayElem borrowPlace.projection → r = true →
        borrowPlace.local = accessPlace.local ∧ Touches access kind a b) := by
  obtain ⟨l, bs⟩ := borrowPlace
  obtain ⟨l', as⟩ := accessPlace
  unfold borrowConflictsWithPlace at h
  by_cases hlocal : l = l'
  · subst hlocal
    rw [if_neg (not_not_intro rfl)] at h
    simp only [true_and]
    by_cases hempty : (bs.isEmpty && as.isEmpty) = true
    · -- two locals, which the general case would find to conflict as well
      rw [if_pos hempty] at h
      cases h
      obtain ⟨hborrow, haccess⟩ := (Bool.and_eq_true _ _).mp hempty
      obtain rfl := List.isEmpty_iff.mp hborrow
      obtain rfl := List.isEmpty_iff.mp haccess
      obtain rfl := List.length_eq_zero_iff.mp ha.length_eq
      cases hb
      exact ⟨nofun, fun _ _ => .reached (reaches_nil access)⟩
    · rw [if_neg hempty] at h
      simp only [placeComponentsConflict, decide_true, assert_true, Res.ok_bind] at h
      obtain ⟨common, hcommon, h⟩ := Res.bind_inv h
      have hspec := commonConflict_spec hb ha hcommon
      cases hspec with
      | parted hparted hfalse =>
        refine ⟨fun _ => hparted.not_touches, fun hno htrue => ?_⟩
        rw [hfalse hno] at h
        cases h
        cases htrue
      | union htouches =>
        cases h
        exact ⟨nofun, fun _ _ => htouches access kind⟩
      | along cells tail hleads htouches =>
        obtain ⟨answer, hanswer, h⟩ := Res.bind_inv h
        rw [List.nil_append] at hleads
        have hreaches := borrowedConflict_spec hleads hanswer
        suffices hiff : r = true ↔ Touches access kind a b by
          refine ⟨fun hfalse htouch => ?_, fun _ => hiff.mp⟩
          rw [hiff.mpr htouch] at hfalse
          cases hfalse
        rw [htouches, hreaches]
        cases answer with
        | some answer =>
          cases h
          -- the second loop has returned, so the borrow has more elements
          have hle : as.length ≤ bs.length := by
            by_contra hlt
            rw [List.drop_eq_nil_of_le (Nat.le_of_not_le hlt), borrowedConflict] at hanswer
            cases hanswer
          simp [hle]
        | none =>
          cases h
          simp [imp_iff_not_or]
  · rw [if_pos hlocal] at h
    cases h
    exact ⟨fun _ h => hlocal h.1, nofun⟩

end Sound

end MutationTesting.Borrowck
