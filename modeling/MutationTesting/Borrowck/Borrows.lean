/-
  MutationTesting.Borrowck.Borrows

  The borrows in scope at each point (`Borrows` in `borrowck/src/dataflow.rs`): a borrow is
  added where it is made, and removed where it goes out of scope and where what it borrows
  is overwritten.  rustc iterates the analysis to its least solution.
-/
import MutationTesting.Borrowck.OutOfScope
import MutationTesting.Graph.Flow

namespace MutationTesting.Borrowck

open MutationTesting.Rust MutationTesting.Mir MutationTesting.Graph Relation

/-- `Borrows`, with the types of the places of its body. -/
structure Borrows where
  cx : PlaceCtxt
  body : Body
  borrowSet : BorrowSet
  borrowsOutOfScopeAtLocation : IndexMap Location (List BorrowIndex)

/-- The place that an operand of inline assembly writes to. -/
def asmOutPlace : InlineAsmOperand → Option Place
  | .output place => place
  | .inOut _ outPlace => outPlace
  | .input _ | .other _ => none

namespace Borrows

/-- `Borrows::new`. -/
def new (cx : PlaceCtxt) (body : Body) (regioncx : RegionInferenceContext)
    (borrowSet : BorrowSet) (poloniusNext : Bool) : Res Borrows := do
  let borrowsOutOfScopeAtLocation ←
    calculateBorrowsOutOfScopeAtLocation body regioncx borrowSet
  if poloniusNext then
    let loansOutOfScopeAtLocation ← calculateLoansOutOfScopeAtLocation body regioncx borrowSet
    assert (borrowsOutOfScopeAtLocation.eq loansOutOfScopeAtLocation)
    return { cx, body, borrowSet, borrowsOutOfScopeAtLocation := loansOutOfScopeAtLocation }
  else return { cx, body, borrowSet, borrowsOutOfScopeAtLocation }

/-- `kill_loans_out_of_scope_at_location`. -/
def killLoansOutOfScopeAtLocation (self : Borrows) (state : Finset BorrowIndex)
    (location : Location) : Finset BorrowIndex :=
  match self.borrowsOutOfScopeAtLocation.get location with
  | some indices => state \ indices.toFinset
  | none => state

/-- The borrows that `kill_borrows_on_place` kills. -/
def borrowsOnPlace (self : Borrows) (place : Place) : Res (List BorrowIndex) := do
  let otherBorrowsOfLocal := (self.borrowSet.localMap.get place.local).getD []
  if place.projection.isEmpty then
    let decl ← index self.cx.localDecls place.local
    return if isRefToStatic decl then [] else otherBorrowsOfLocal
  else
    otherBorrowsOfLocal.filterM fun i => do
      let data ← self.borrowSet.get i
      placesConflict self.cx data.borrowedPlace place .noOverlap

/-- `kill_borrows_on_place`. -/
def killBorrowsOnPlace (self : Borrows) (state : Finset BorrowIndex) (place : Place) :
    Res (Finset BorrowIndex) := do
  let killed ← self.borrowsOnPlace place
  return state \ killed.toFinset

/-- `apply_primary_statement_effect`. -/
def applyPrimaryStatementEffect (self : Borrows) (state : Finset BorrowIndex)
    (kind : StatementKind) (location : Location) : Res (Finset BorrowIndex) :=
  match kind with
  | .assign lhs (.ref _ _ place) => do
    if ← ignoreBorrow self.cx place self.borrowSet.localsStateAtExit then return state
    else
      match self.borrowSet.getIndexOf location with
      | none => .error (.message "could not find BorrowIndex for location")
      | some i => self.killBorrowsOnPlace (insert i state) lhs
  | .assign lhs _ => self.killBorrowsOnPlace state lhs
  | .storageDead l => self.killBorrowsOnPlace state (Place.from l)
  | _ => .ok state

/-- `apply_primary_terminator_effect`. -/
def applyPrimaryTerminatorEffect (self : Borrows) (state : Finset BorrowIndex)
    (kind : TerminatorKind) : Res (Finset BorrowIndex) :=
  match kind with
  | .inlineAsm operands _ _ =>
    (operands.filterMap asmOutPlace).foldlM self.killBorrowsOnPlace state
  | _ => .ok state

/-- The early effect and then the primary one. -/
def applyEffects (self : Borrows) (state : Finset BorrowIndex) (entry : Location × Executed) :
    Res (Finset BorrowIndex) :=
  let state := self.killLoansOutOfScopeAtLocation state entry.1
  match entry.2 with
  | .statement statement => self.applyPrimaryStatementEffect state statement.kind entry.1
  | .terminator terminator => self.applyPrimaryTerminatorEffect state terminator.kind

/-- The state before a statement or terminator of a block, from the one at its start. -/
def stateBefore (self : Borrows) (entry : BasicBlock → Finset BorrowIndex) (bb : BasicBlock)
    (i : Nat) : Res (Finset BorrowIndex) := do
  let data ← index self.body.basicBlocks bb
  ((data.executed bb).take i).foldlM self.applyEffects (entry bb)

/-- The borrows in scope for what the borrow checker checks at a location: the state after
    the early effect. -/
def inScope (self : Borrows) (entry : BasicBlock → Finset BorrowIndex) (location : Location) :
    Res (Finset BorrowIndex) := do
  let state ← self.stateBefore entry location.block location.statementIndex
  return self.killLoansOutOfScopeAtLocation state location

/-! ## One step -/

/-- The borrow is killed on the place. -/
def Overwrites (self : Borrows) (place : Place) (i : BorrowIndex) : Prop :=
  ∃ killed, self.borrowsOnPlace place = .ok killed ∧ i ∈ killed

/-- The places on which a statement or terminator kills borrows. -/
def overwritten (self : Borrows) : Executed → List Place
  | .statement ⟨_, .assign lhs (.ref _ _ place)⟩ =>
    if ignoreBorrow self.cx place self.borrowSet.localsStateAtExit = .ok true then [] else [lhs]
  | .statement ⟨_, .assign lhs _⟩ => [lhs]
  | .statement ⟨_, .storageDead l⟩ => [Place.from l]
  | .terminator ⟨_, .inlineAsm operands _ _⟩ => operands.filterMap asmOutPlace
  | _ => []

/-- The borrow that a statement makes. -/
def made (self : Borrows) (entry : Location × Executed) : Option BorrowIndex :=
  match entry.2 with
  | .statement ⟨_, .assign _ (.ref _ _ place)⟩ =>
    if ignoreBorrow self.cx place self.borrowSet.localsStateAtExit = .ok true then none
    else self.borrowSet.getIndexOf entry.1
  | _ => none

/-- The borrow goes out of scope at the location. -/
def OutOfScopeAt (self : Borrows) (location : Location) (i : BorrowIndex) : Prop :=
  i ∈ (self.borrowsOutOfScopeAtLocation.get location).getD []

variable {self : Borrows} {state state' : Finset BorrowIndex} {i : BorrowIndex}

theorem mem_killLoansOutOfScopeAtLocation {location : Location} :
    i ∈ self.killLoansOutOfScopeAtLocation state location ↔
      i ∈ state ∧ ¬ self.OutOfScopeAt location i := by
  unfold killLoansOutOfScopeAtLocation OutOfScopeAt
  cases self.borrowsOutOfScopeAtLocation.get location with
  | none => simp
  | some indices => simp

theorem mem_killBorrowsOnPlace {place : Place}
    (h : self.killBorrowsOnPlace state place = .ok state') :
    i ∈ state' ↔ i ∈ state ∧ ¬ self.Overwrites place i := by
  obtain ⟨killed, hkilled, h⟩ := Res.bind_inv h
  cases h
  simp [Overwrites, hkilled]

/-- Killing the borrows on several places, one after the other. -/
theorem mem_foldlM_killBorrowsOnPlace {places : List Place}
    (h : places.foldlM self.killBorrowsOnPlace state = .ok state') :
    i ∈ state' ↔ i ∈ state ∧ ∀ place ∈ places, ¬ self.Overwrites place i := by
  induction places generalizing state with
  | nil =>
    cases h
    simp
  | cons place places ih =>
    rw [List.foldlM_cons] at h
    obtain ⟨state₁, hstate₁, h⟩ := Res.bind_inv h
    rw [ih h, mem_killBorrowsOnPlace hstate₁, List.forall_mem_cons, and_assoc]

/-- What one step makes of the state: a borrow that is made is in scope, and others are so
    as long as they are not killed. -/
theorem mem_applyEffects {entry : Location × Executed}
    (h : self.applyEffects state entry = .ok state') :
    i ∈ state' ↔ (self.made entry = some i ∨ i ∈ state ∧ ¬ self.OutOfScopeAt entry.1 i) ∧
      ∀ place ∈ self.overwritten entry.2, ¬ self.Overwrites place i := by
  obtain ⟨location, executed⟩ := entry
  cases executed with
  | statement statement =>
    obtain ⟨info, kind⟩ := statement
    cases kind with
    | assign lhs rvalue =>
      cases rvalue with
      | ref region kind place =>
        obtain ⟨ignored, hignored, h⟩ := Res.bind_inv h
        cases ignored with
        | true =>
          cases h
          simp [made, overwritten, hignored, mem_killLoansOutOfScopeAtLocation]
        | false =>
          rw [if_neg Bool.false_ne_true] at h
          cases hindex : self.borrowSet.getIndexOf location with
          | none =>
            simp only [hindex] at h
            cases h
          | some made =>
            simp only [hindex] at h
            rw [mem_killBorrowsOnPlace h, Finset.mem_insert, mem_killLoansOutOfScopeAtLocation]
            simp [Borrows.made, overwritten, hignored, hindex, eq_comm]
      | _ =>
        rw [mem_killBorrowsOnPlace h, mem_killLoansOutOfScopeAtLocation]
        simp [made, overwritten]
    | storageDead l =>
      rw [mem_killBorrowsOnPlace h, mem_killLoansOutOfScopeAtLocation]
      simp [made, overwritten]
    | _ =>
      cases h
      simp [made, overwritten, mem_killLoansOutOfScopeAtLocation]
  | terminator terminator =>
    obtain ⟨info, kind⟩ := terminator
    cases kind with
    | inlineAsm operands targets unwind =>
      rw [mem_foldlM_killBorrowsOnPlace h, mem_killLoansOutOfScopeAtLocation]
      simp [made, overwritten]
    | _ =>
      cases h
      simp [made, overwritten, mem_killLoansOutOfScopeAtLocation]

/-! ## The flow of borrows -/

/-- What is executed at a point of the body, with its location. -/
def entryAt (body : Body) (p : BasicBlock × Nat) : Option (Location × Executed) :=
  (body.basicBlocks[p.1]?).bind fun data => (data.executed p.1)[p.2]?

/-- A borrow is removed at the point by what is written there. -/
def Overwritten (self : Borrows) (p : BasicBlock × Nat) (i : BorrowIndex) : Prop :=
  ∃ entry, entryAt self.body p = some entry ∧
    ∃ place ∈ self.overwritten entry.2, self.Overwrites place i

/-- The analysis, over the points of the body. -/
def flow (self : Borrows) : GenKill BasicBlock BorrowIndex where
  blocks := pointsOf self.body
  gen p := {i | ∃ entry, entryAt self.body p = some entry ∧ self.made entry = some i ∧
    ¬ self.Overwritten p i}
  kill p := {i | self.OutOfScopeAt ⟨p.1, p.2⟩ i ∨ self.Overwritten p i}

theorem entryAt_location {body : Body} {p : BasicBlock × Nat} {entry : Location × Executed}
    (h : entryAt body p = some entry) : entry.1 = ⟨p.1, p.2⟩ := by
  obtain ⟨data, -, h⟩ := Option.bind_eq_some_iff.mp h
  exact BasicBlockData.getElem?_executed h

/-- The points of a complete body execute something. -/
theorem entryAt_isSome {body : Body} (hbody : Complete body) {bb : BasicBlock} {i : Nat}
    (hbb : bb < body.basicBlocks.length) (hi : i ≤ (pointsOf body).last bb) :
    ∃ data entry, body.basicBlocks[bb]? = some data ∧ (data.executed bb)[i]? = some entry := by
  obtain ⟨data, terminator, hdata, hterminator, -, hlength, -⟩ := hbody.block hbb
  have hsome : data.terminator = some terminator := by
    unfold expectTerminator at hterminator
    cases h : data.terminator with
    | none =>
      rw [h] at hterminator
      cases hterminator
    | some terminator' =>
      rw [h] at hterminator
      cases hterminator
      rfl
  have hlt : i < (data.executed bb).length := by
    rw [BasicBlockData.executed, List.length_append, List.length_map, List.length_zipIdx, hsome]
    simp only [hlength, Option.toList_some, List.map_singleton, List.length_singleton]
    exact Nat.lt_succ_of_le hi
  exact ⟨data, _, hdata, List.getElem?_eq_getElem hlt⟩

/-- The states that are computed in a block are those of the analysis. -/
theorem mem_stateBefore (hbody : Complete self.body) {entry : BasicBlock → Finset BorrowIndex}
    {bb : BasicBlock} (hbb : bb < self.body.basicBlocks.length) {k : Nat}
    (hk : k ≤ (pointsOf self.body).last bb) (h : self.stateBefore entry bb k = .ok state) :
    i ∈ state ↔ i ∈ self.flow.before (fun b => {i | i ∈ entry b}) bb k := by
  induction k generalizing state i with
  | zero =>
    obtain ⟨data, -, h⟩ := Res.bind_inv h
    cases h
    rfl
  | succ k ih =>
    obtain ⟨data, executed, hdata, hexecuted⟩ :=
      entryAt_isSome hbody hbb (Nat.le_of_succ_le hk)
    have hat : entryAt self.body (bb, k) = some executed := by
      rw [entryAt, hdata]
      exact hexecuted
    have hlocation := entryAt_location hat
    unfold stateBefore at h ih
    rw [index_eq_ok.mpr hdata, Res.ok_bind, List.take_add_one, hexecuted, List.foldlM_append] at h
    obtain ⟨before, hbefore, h⟩ := Res.bind_inv h
    rw [Option.toList_some, List.foldlM_cons] at h
    obtain ⟨after, hafter, h⟩ := Res.bind_inv h
    cases h
    rw [index_eq_ok.mpr hdata, Res.ok_bind] at ih
    have hoverwritten : self.Overwritten (bb, k) i ↔
        ∃ place ∈ self.overwritten executed.2, self.Overwrites place i := by
      simp [Overwritten, hat]
    have hmade : i ∈ self.flow.gen (bb, k) ↔
        self.made executed = some i ∧ ¬ self.Overwritten (bb, k) i := by
      constructor
      · rintro ⟨executed', hat', hmade⟩
        rw [hat] at hat'
        cases hat'
        exact hmade
      · exact fun hmade => ⟨executed, hat, hmade⟩
    rw [mem_applyEffects hafter, ih (Nat.le_of_succ_le hk) hbefore, hlocation]
    have hnone : (∀ place ∈ self.overwritten executed.2, ¬ self.Overwrites place i) ↔
        ¬ self.Overwritten (bb, k) i := by
      simp only [hoverwritten, not_exists, not_and]
    rw [hnone]
    constructor
    · rintro ⟨hmade' | ⟨hin, hout⟩, hkept⟩
      · exact .inl (hmade.mpr ⟨hmade', hkept⟩)
      · exact .inr ⟨hin, fun hkill => hkill.elim hout hkept⟩
    · rintro (hgen | ⟨hin, hkill⟩)
      · obtain ⟨hmade', hkept⟩ := hmade.mp hgen
        exact ⟨.inl hmade', hkept⟩
      · exact ⟨.inr ⟨hin, fun hout => hkill (.inl hout)⟩, fun hover => hkill (.inr hover)⟩

/-! ## What is in scope -/

variable {cx : PlaceCtxt} {localsStateAtExit : LocalsStateAtExit} {visitor : MirVisitor}
  {body : Body} {preorder : List BasicBlock} {regioncx : RegionInferenceContext}
  {set : BorrowSet}

/-- The borrows of a set that is built are at locations of the body. -/
theorem located_of_build (hpreorder : preorder.Nodup)
    (hbuild : BorrowSet.build cx localsStateAtExit visitor body preorder = .ok set) :
    set.Located body := by
  intro i data hdata
  obtain ⟨executed, hvisit, -⟩ := BorrowSet.made_of_build hpreorder hbuild hdata
  obtain ⟨bb, -, hmem⟩ := List.mem_flatMap.mp hvisit
  obtain ⟨block, hblock, hmem⟩ := List.mem_flatMap.mp hmem
  rw [Option.mem_toList] at hblock
  obtain ⟨hbb, hat⟩ := BasicBlockData.mem_executed.mp hmem
  subst hbb
  have hlast : (pointsOf body).last data.reserveLocation.block = block.statements.length := by
    simp only [pointsOf, Option.mem_def.mp hblock, Option.map_some, Option.getD_some]
  refine ⟨(List.getElem?_eq_some_iff.mp hblock).1, ?_⟩
  rw [hlast]
  rcases hat with ⟨statement, hstatement, -⟩ | ⟨hend, -⟩
  · exact (List.getElem?_eq_some_iff.mp hstatement).1.le
  · exact hend.le

/-- A new analysis removes each borrow where a walk from it leaves its region, by either
    computation of what goes out of scope. -/
theorem outOfScopeAt_of_new (hbody : Complete body) (hset : set.Located body)
    {poloniusNext : Bool} (h : Borrows.new cx body regioncx set poloniusNext = .ok self) :
    self.cx = cx ∧ self.body = body ∧ self.borrowSet = set ∧
      ∀ location i, self.OutOfScopeAt location i ↔ set.LeavesRegion body regioncx i location := by
  obtain ⟨map, hmap, hlists⟩ := calculateBorrowsOutOfScope_lists hbody regioncx hset
  unfold Borrows.new at h
  rw [hmap, Res.ok_bind] at h
  cases poloniusNext with
  | false =>
    cases h
    exact ⟨rfl, rfl, rfl, fun location i => hlists.mem location i⟩
  | true =>
    rw [if_pos rfl] at h
    obtain ⟨loans, -, h⟩ := Res.bind_inv h
    obtain ⟨_, hassert, h⟩ := Res.bind_inv h
    cases h
    -- the assertion holds, so both have the same values
    have heq : map.eq loans = true := by
      unfold assert at hassert
      by_contra hne
      rw [if_neg hne] at hassert
      cases hassert
    refine ⟨rfl, rfl, rfl, fun location i => ?_⟩
    rw [← hlists.mem, OutOfScopeAt, IndexMap.get_of_eq hlists.keys heq]

/-- A step to a point of the region of the borrow, from one where nothing is written that
    it borrows. -/
def Carries (self : Borrows) (regioncx : RegionInferenceContext) (region : RegionVid)
    (i : BorrowIndex) (p q : BasicBlock × Nat) : Prop :=
  (pointsOf self.body).Step p q ∧ regioncx.InRegion region q ∧ ¬ self.Overwritten p i

/-- A walk over points where the borrow is not killed is one within its region. -/
theorem walk_of_keeps {data : BorrowData} {r q : BasicBlock × Nat}
    (hout : ∀ p, self.OutOfScopeAt ⟨p.1, p.2⟩ i ↔ (pointsOf self.body).Leaves
      (regioncx.InRegion data.region) (pointOf data.reserveLocation) p)
    (hreserve : regioncx.InRegion data.region (pointOf data.reserveLocation))
    (hover : ¬ self.Overwritten (pointOf data.reserveLocation) i)
    (hr : (pointsOf self.body).Step (pointOf data.reserveLocation) r)
    (hwalk : ReflTransGen (self.flow.Keeps i) r q) :
    ReflTransGen ((pointsOf self.body).StepWithin (regioncx.InRegion data.region))
        (pointOf data.reserveLocation) q ∧
      (¬ self.OutOfScopeAt ⟨q.1, q.2⟩ i →
        TransGen (self.Carries regioncx data.region i) (pointOf data.reserveLocation) q) := by
  have hregion : ∀ {q}, ReflTransGen ((pointsOf self.body).StepWithin
      (regioncx.InRegion data.region)) (pointOf data.reserveLocation) q →
      ¬ self.OutOfScopeAt ⟨q.1, q.2⟩ i → regioncx.InRegion data.region q := by
    intro q hwithin hnot
    by_contra hleft
    exact hnot ((hout q).mpr ⟨hwithin, hleft⟩)
  induction hwalk with
  | refl =>
    have hwithin : ReflTransGen ((pointsOf self.body).StepWithin
        (regioncx.InRegion data.region)) (pointOf data.reserveLocation) r :=
      .single ⟨hreserve, hr⟩
    exact ⟨hwithin, fun hnot => .single ⟨hr, hregion hwithin hnot, hover⟩⟩
  | @tail p q _ hkeeps ih =>
    obtain ⟨hstep, hkill⟩ := hkeeps
    have hnot : ¬ self.OutOfScopeAt ⟨p.1, p.2⟩ i := fun h => hkill (.inl h)
    have hwithin := ih.1.tail ⟨hregion ih.1 hnot, hstep⟩
    refine ⟨hwithin, fun hnot' => ?_⟩
    exact (ih.2 hnot).tail ⟨hstep, hregion hwithin hnot', fun h => hkill (.inr h)⟩

/-- A walk within the region of the borrow is one over points where it is not killed. -/
theorem keeps_of_walk {data : BorrowData} {q : BasicBlock × Nat}
    (hout : ∀ p, self.OutOfScopeAt ⟨p.1, p.2⟩ i ↔ (pointsOf self.body).Leaves
      (regioncx.InRegion data.region) (pointOf data.reserveLocation) p)
    (hwalk : TransGen (self.Carries regioncx data.region i) (pointOf data.reserveLocation) q) :
    ¬ self.OutOfScopeAt ⟨q.1, q.2⟩ i ∧ ¬ self.Overwritten (pointOf data.reserveLocation) i ∧
      ∃ r, (pointsOf self.body).Step (pointOf data.reserveLocation) r ∧
        ReflTransGen (self.flow.Keeps i) r q := by
  have hin : ∀ {q}, regioncx.InRegion data.region q → ¬ self.OutOfScopeAt ⟨q.1, q.2⟩ i :=
    fun hregion hleft => ((hout _).mp hleft).2 hregion
  induction hwalk with
  | single hcarries =>
    obtain ⟨hstep, hregion, hover⟩ := hcarries
    exact ⟨hin hregion, hover, _, hstep, .refl⟩
  | tail _ hcarries ih =>
    obtain ⟨hstep, hregion, hover⟩ := hcarries
    obtain ⟨hnot, hfirst, r, hr, hkeeps⟩ := ih
    exact ⟨hin hregion, hfirst, r, hr, hkeeps.tail ⟨hstep, fun hkill => hkill.elim hnot hover⟩⟩

theorem entryAt_of_visit {entry : Location × Executed} (h : entry ∈ visits body preorder) :
    entryAt body (pointOf entry.1) = some entry ∧ entry.1.block ∈ preorder := by
  obtain ⟨bb, hbb, hmem⟩ := List.mem_flatMap.mp h
  obtain ⟨block, hblock, hmem⟩ := List.mem_flatMap.mp hmem
  obtain ⟨k, hk⟩ := List.mem_iff_getElem?.mp hmem
  obtain ⟨location, executed⟩ := entry
  have hlocation : location = ⟨bb, k⟩ := BasicBlockData.getElem?_executed hk
  subst hlocation
  refine ⟨?_, hbb⟩
  rw [entryAt, pointOf, Option.mem_def.mp (Option.mem_toList.mp hblock)]
  exact hk

/-- The borrow with an index is made at its location, and nowhere else. -/
theorem made_iff (hpreorder : preorder.Nodup)
    (hbuild : BorrowSet.build cx localsStateAtExit visitor body preorder = .ok set)
    (hcx : self.cx = cx) (hset : self.borrowSet = set) (p : BasicBlock × Nat) :
    (∃ entry, entryAt body p = some entry ∧ self.made entry = some i) ↔
      ∃ data, set.locationMap.getAt i = some data ∧ p = pointOf data.reserveLocation := by
  obtain ⟨hmaps, hstate, -⟩ := BorrowSet.gathered_of_build hpreorder hbuild
  have hindex : ∀ location, set.getIndexOf location = some i ↔
      set.locationMap.keys[i]? = some location :=
    fun location => IndexMap.getIndexOf_eq_some hmaps.keys
  constructor
  · rintro ⟨entry, hat, hmade⟩
    have hlocation := entryAt_location hat
    have hkey : set.locationMap.keys[i]? = some entry.1 := by
      rw [← hindex, ← hset]
      unfold made at hmade
      split at hmade
      · split at hmade
        · cases hmade
        · exact hmade
      · cases hmade
    cases hdata : set.locationMap.getAt i with
    | none =>
      rw [IndexMap.getAt, Option.map_eq_none_iff] at hdata
      rw [IndexMap.keys, List.getElem?_map, hdata] at hkey
      cases hkey
    | some data =>
      have hreserved := hmaps.reserved i data hdata
      rw [hkey, hlocation] at hreserved
      exact ⟨data, rfl, by rw [← Option.some.inj hreserved, pointOf]⟩
  · rintro ⟨data, hdata, rfl⟩
    obtain ⟨executed, hvisit, htracked⟩ := BorrowSet.made_of_build hpreorder hbuild hdata
    refine ⟨_, (entryAt_of_visit hvisit).1, ?_⟩
    unfold trackedBorrow at htracked
    split at htracked
    · rename_i info assigned region kind borrowed hexecuted
      obtain rfl : executed = _ := hexecuted
      split at htracked
      · rename_i hignore
        have hnot : ¬ ignoreBorrow cx borrowed localsStateAtExit = .ok true := by
          rw [hignore]
          simp
        rw [made, hcx, hset, hstate]
        exact (if_neg hnot).trans ((hindex _).mpr (hmaps.reserved i data hdata))
      · cases htracked
    · cases htracked

/-- The borrows of a body and where they are in scope, as the borrow checker computes
    them: rustc visits the blocks that can be reached in preorder and iterates the
    analysis to its least solution, and a region has the point where a borrow with it is
    made. -/
structure Computed (borrows : Borrows) (visitor : MirVisitor) (preorder : List BasicBlock)
    (regioncx : RegionInferenceContext) (entry : BasicBlock → Finset BorrowIndex) : Prop where
  complete : Complete borrows.body
  nodup : preorder.Nodup
  reachable : ∀ bb, bb ∈ preorder ↔
    ReflTransGen (fun b c => c ∈ (pointsOf borrows.body).successors b) 0 bb
  build : BorrowSet.build borrows.cx borrows.borrowSet.localsStateAtExit visitor borrows.body
    preorder = .ok borrows.borrowSet
  new : ∃ poloniusNext,
    Borrows.new borrows.cx borrows.body regioncx borrows.borrowSet poloniusNext = .ok borrows
  live : ∀ i data, borrows.borrowSet.locationMap.getAt i = some data →
    regioncx.InRegion data.region (pointOf data.reserveLocation)
  least : borrows.flow.Least 0 fun bb => {i | i ∈ entry bb}

/-- A borrow is in scope at a location exactly if a walk leads there from where it was
    made, all of whose points are in its region, and on which nothing is written that it
    borrows. -/
theorem mem_inScope_iff {entry : BasicBlock → Finset BorrowIndex}
    (hcomputed : self.Computed visitor preorder regioncx entry) {location : Location}
    (hlocation : InBody self.body location) (hblock : location.block ∈ preorder)
    (h : self.inScope entry location = .ok state) (i : BorrowIndex) :
    i ∈ state ↔ ∃ data, self.borrowSet.locationMap.getAt i = some data ∧
      TransGen (self.Carries regioncx data.region i) (pointOf data.reserveLocation)
        (pointOf location) := by
  obtain ⟨hbody, hpreorder, hreach, hbuild, ⟨poloniusNext, hnew⟩, hlive, hentry⟩ := hcomputed
  obtain ⟨-, -, -, hout⟩ :=
    outOfScopeAt_of_new hbody (located_of_build hpreorder hbuild) hnew
  have hmade := fun p => @made_iff self i _ _ _ _ _ _ hpreorder hbuild rfl rfl p
  -- the kills of one borrow are where the walks from it leave its region
  have hleaves : ∀ {data}, self.borrowSet.locationMap.getAt i = some data →
      ∀ p : BasicBlock × Nat,
      self.OutOfScopeAt ⟨p.1, p.2⟩ i ↔ (pointsOf self.body).Leaves
        (regioncx.InRegion data.region) (pointOf data.reserveLocation) p := by
    intro data hdata p
    rw [hout, BorrowSet.LeavesRegion]
    constructor
    · rintro ⟨data', hdata', hleaves⟩
      rw [hdata] at hdata'
      cases hdata'
      exact hleaves
    · exact fun hleaves => ⟨data, hdata, hleaves⟩
  obtain ⟨before, hbefore, h⟩ := Res.bind_inv h
  cases h
  have hreachable : self.flow.Reachable 0 location.block := (hreach _).mp hblock
  rw [mem_killLoansOutOfScopeAtLocation, mem_stateBefore hbody hlocation.1 hlocation.2 hbefore,
    hentry.mem_before hreachable hlocation.2]
  constructor
  · rintro ⟨⟨p, -, -, ⟨executed, hat, hexecuted, hover⟩, r, hr, hkeeps⟩, hnot⟩
    obtain ⟨data, hdata, rfl⟩ := (hmade p).mp ⟨executed, hat, hexecuted⟩
    exact ⟨data, hdata, (walk_of_keeps (hleaves hdata) (hlive i data hdata) hover hr hkeeps).2 hnot⟩
  · rintro ⟨data, hdata, hwalk⟩
    obtain ⟨hnot, hover, r, hr, hkeeps⟩ := keeps_of_walk (hleaves hdata) hwalk
    obtain ⟨executed, hat, hexecuted⟩ := (hmade _).mpr ⟨data, hdata, rfl⟩
    obtain ⟨made, hvisit, -⟩ := BorrowSet.made_of_build hpreorder hbuild hdata
    have hfirst : self.flow.Reachable 0 data.reserveLocation.block :=
      (hreach _).mp (entryAt_of_visit hvisit).2
    exact ⟨⟨pointOf data.reserveLocation, hfirst,
      (located_of_build hpreorder hbuild i data hdata).2,
      ⟨executed, hat, hexecuted, hover⟩, r, hr, hkeeps⟩, hnot⟩

/-! ## The shortcut for locals -/

theorem ignoreBorrow_of_tracked {executed : Executed} {data : BorrowData}
    (htracked : trackedBorrow cx localsStateAtExit (data.reserveLocation, executed) =
      some data.issued) : ignoreBorrow cx data.borrowedPlace localsStateAtExit = .ok false := by
  unfold trackedBorrow at htracked
  split at htracked
  · split at htracked
    · rename_i hborrowed
      have hsame := congrArg BorrowData.borrowedPlace (Option.some.inj htracked)
      simp only [BorrowData.issued] at hsame
      rwa [hsame] at hborrowed
    · cases htracked
  · cases htracked

/-- A tracked borrow of a local conflicts with the whole local. -/
theorem placesConflict_of_tracked {executed : Executed} {data : BorrowData}
    (htracked : trackedBorrow cx localsStateAtExit (data.reserveLocation, executed) =
      some data.issued) {decl : LocalDecl}
    (hdecl : cx.localDecls[data.borrowedPlace.local]? = some decl)
    (hstatic : isRefToStatic decl = false) (bias : PlaceConflictBias) :
    placesConflict cx data.borrowedPlace (.from data.borrowedPlace.local) bias = .ok true :=
  placesConflict_local (ignoreBorrow_of_tracked htracked) (List.getElem?_eq_some_iff.mp hdecl).1
    (notThreadLocal_of_not_static hdecl hstatic) bias

/-- A write to a local kills all borrows of it without comparing places: they are those
    that the comparison would find, whatever its bias. -/
theorem borrowsOnPlace_local {preorder : List BasicBlock} (hpreorder : preorder.Nodup)
    (hbuild : BorrowSet.build self.cx localsStateAtExit visitor body preorder = .ok self.borrowSet)
    {l : Local} {decl : LocalDecl} (hdecl : self.cx.localDecls[l]? = some decl)
    (hstatic : isRefToStatic decl = false) (bias : PlaceConflictBias) :
    self.borrowsOnPlace (.from l) =
      ((self.borrowSet.localMap.get l).getD []).filterM (fun i => do
        let data ← self.borrowSet.get i
        placesConflict self.cx data.borrowedPlace (.from l) bias) := by
  obtain ⟨hmaps, -, -⟩ := BorrowSet.gathered_of_build hpreorder hbuild
  rw [Res.filterM_of_forall]
  · rw [borrowsOnPlace, Place.from, List.isEmpty_nil, if_pos rfl, index_eq_ok.mpr hdecl,
      Res.ok_bind, hstatic]
    rfl
  · intro i hi
    obtain ⟨data, hdata, rfl⟩ := (hmaps.locals l i).mp hi
    obtain ⟨executed, -, htracked⟩ := BorrowSet.made_of_build hpreorder hbuild hdata
    rw [BorrowSet.get, hdata]
    exact placesConflict_of_tracked htracked hdecl hstatic bias

end Borrows

/-! ## A borrow that is written to -/

namespace Lent

/-- `_2 = &'0 _1.0; _1.index = Len(_1.index); _0 = *_2`. -/
def body (index : Nat) : Body where
  basicBlocks := [{
    statements :=
      [⟨⟨0, 0⟩, .assign (.from 2) (.ref (.reVar 0) .shared (component 0))⟩,
        ⟨⟨0, 0⟩, .assign (component index) (.len (component index))⟩,
        ⟨⟨0, 0⟩, .assign (.from 0) (.use (.copy ⟨2, [.deref]⟩))⟩]
    terminator := some ⟨⟨0, 0⟩, .return⟩
    isCleanup := false }]
  localDecls

/-- The locals of the places of the body, in the order in which rustc visits them. -/
def visitor : MirVisitor where
  ofPlace place context :=
    [(place.local, if place.projection.isEmpty then context else .mutatingUse .projection)]
  ofRvalue
    | .ref _ _ place | .len place | .use (.copy place) =>
      [(place.local, .nonMutatingUse .projection)]
    | _ => []
  ofStatement _ := []
  ofTerminator
    | .return => [(0, .nonMutatingUse .move)]
    | _ => []

/-- The one region has the points up to the last use of the borrow. -/
def regioncx : RegionInferenceContext where
  definitions := [⟨.existential false, .ROOT, none⟩]
  livenessConstraints := .withSpecificPoints ⟨4, fun _ => 0, fun _ => 0, Location.mk 0⟩
  constraints := .empty
  constraintGraph := ⟨.normal, [none], []⟩
  constraintSccs := ⟨1, fun _ => 0, fun _ => [], fun _ => .new 0 ⟨.existential false, .ROOT, none⟩⟩
  revSccGraph := none
  memberConstraints := ⟨.empty, [], []⟩
  memberConstraintsApplied := []
  sccValues := {
    elements := ⟨4, fun _ => 0, fun _ => 0, Location.mk 0⟩
    placeholderIndices := .empty
    points := ⟨fun _ => some {0, 1, 2}⟩
    freeRegions := .empty
    placeholders := .empty }
  universalRegionRelations := {
    universalRegions := ⟨0, 0, 0, 0⟩
    outlivesRelation := ⟨fun _ _ => false, fun _ => [], fun _ => none⟩
    inverseOutlives := ⟨fun _ _ => false, fun _ => [], fun _ => none⟩ }

/-- The shared borrow. -/
def data : BorrowData := ⟨⟨0, 0⟩, .notTwoPhase, .shared, 0, component 0, .from 2⟩

def borrowSet : BorrowSet where
  locationMap := ⟨[(⟨0, 0⟩, data)]⟩
  activationMap := .empty
  localMap := ⟨[(1, [0])]⟩
  localsStateAtExit := .allAreInvalidated

/-- The borrow goes out of scope at the terminator. -/
def borrows (index : Nat) : Borrows where
  cx
  body := body index
  borrowSet
  borrowsOutOfScopeAtLocation := ⟨[(⟨0, 3⟩, [0])]⟩

theorem no_successors (index : Nat) (bb : BasicBlock) :
    (pointsOf (body index)).successors bb = [] := by
  match bb with
  | 0 => rfl
  | _ + 1 => rfl

theorem getAt_borrowSet {i : BorrowIndex} {found : BorrowData}
    (h : borrowSet.locationMap.getAt i = some found) : i = 0 ∧ found = data := by
  match i with
  | 0 =>
    cases h
    exact ⟨rfl, rfl⟩
  | _ + 1 => cases h

theorem computed (index : Nat) :
    (borrows index).Computed visitor [0] regioncx fun _ => ∅ where
  complete := by
    refine ⟨fun block hblock => ?_, fun block hblock target htarget => ?_⟩
    · rw [List.mem_singleton.mp hblock]
      rfl
    · rw [List.mem_singleton.mp hblock] at htarget
      cases htarget
  nodup := List.nodup_singleton 0
  reachable bb := by
    constructor
    · intro h
      rw [List.mem_singleton.mp h]
    · intro h
      rcases ReflTransGen.cases_tail h with rfl | ⟨b, -, hstep⟩
      · exact List.mem_singleton.mpr rfl
      · have hstep' : bb ∈ (pointsOf (body index)).successors b := hstep
        rw [no_successors] at hstep'
        cases hstep'
  build := rfl
  new := ⟨false, rfl⟩
  live i found h := by
    obtain ⟨rfl, rfl⟩ := getAt_borrowSet h
    intro row hrow
    cases hrow
    decide
  least := by
    refine ⟨fun b _ c hc => ?_, fun entry' _ b => ?_⟩
    · have hc' : c ∈ (pointsOf (body index)).successors b := hc
      rw [no_successors] at hc'
      cases hc'
    · rintro i hi
      exact absurd hi (Finset.notMem_empty i)

/-- Whatever component is written to, a write to the whole pair kills the borrow. -/
theorem borrowsOnPlace_pair :
    (borrows 0).borrowsOnPlace (.from 1) =
      [0].filterM (fun i => do
        let data ← borrowSet.get i
        placesConflict cx data.borrowedPlace (.from 1) .overlap) :=
  @Borrows.borrowsOnPlace_local (borrows 0) .allAreInvalidated visitor (body 0) [0]
    (List.nodup_singleton 0) rfl 1 _ rfl rfl .overlap

end Lent

end MutationTesting.Borrowck
