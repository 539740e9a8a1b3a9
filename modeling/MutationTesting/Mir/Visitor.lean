/-
  MutationTesting.Mir.Visitor

  The contexts in which rustc's MIR visitor comes to a local, as the vendored borrow
  checker matches on them.  What the visitor reports of a statement or terminator, and
  in which order, is a parameter.
-/
import MutationTesting.Mir.Control
import Mathlib.Data.List.Nodup

namespace MutationTesting.Mir

inductive NonMutatingUseContext where
  | inspect
  | copy
  | move
  | sharedBorrow
  | fakeBorrow
  | rawBorrow
  | placeMention
  | projection
  deriving DecidableEq

inductive MutatingUseContext where
  | store
  | setDiscriminant
  | deinit
  | asmOutput
  | call
  | yield
  | drop
  | borrow
  | rawBorrow
  | projection
  | retag
  deriving DecidableEq

inductive NonUseContext where
  | storageLive
  | storageDead
  | ascribeUserTy (variance : Interned)
  | varDebugInfo
  deriving DecidableEq

inductive PlaceContext where
  | nonMutatingUse (context : NonMutatingUseContext)
  | mutatingUse (context : MutatingUseContext)
  | nonUse (context : NonUseContext)
  deriving DecidableEq

/-- `PlaceContext::is_use`. -/
def PlaceContext.isUse : PlaceContext → Bool
  | .nonUse _ => false
  | _ => true

/-- The calls of `visit_local` that rustc's visitor makes below `visit_place`,
    `visit_rvalue`, and a statement that is no assignment or a terminator. -/
structure MirVisitor where
  ofPlace : Place → PlaceContext → List (Local × PlaceContext)
  ofRvalue : Rvalue → List (Local × PlaceContext)
  ofStatement : StatementKind → List (Local × PlaceContext)
  ofTerminator : TerminatorKind → List (Local × PlaceContext)

/-- The statements of a block and its terminator, with their locations, in the order in
    which a visitor comes to them. -/
def BasicBlockData.executed (data : BasicBlockData) (bb : BasicBlock) :
    List (Location × Executed) :=
  data.statements.zipIdx.map (fun entry => (⟨bb, entry.2⟩, .statement entry.1)) ++
    data.terminator.toList.map fun terminator =>
      (⟨bb, data.statements.length⟩, .terminator terminator)

/-- The location of a statement or terminator of a block. -/
theorem BasicBlockData.mem_executed {data : BasicBlockData} {bb : BasicBlock} {loc : Location}
    {e : Executed} :
    (loc, e) ∈ data.executed bb ↔ loc.block = bb ∧
      ((∃ statement, data.statements[loc.statementIndex]? = some statement ∧
          e = .statement statement) ∨
        loc.statementIndex = data.statements.length ∧
          ∃ terminator, data.terminator = some terminator ∧ e = .terminator terminator) := by
  obtain ⟨block, i⟩ := loc
  rw [BasicBlockData.executed]
  simp only [List.mem_append, List.mem_map, Prod.exists, List.mem_zipIdx_iff_getElem?,
    Option.mem_toList]
  constructor
  · rintro (⟨statement, j, hj, heq⟩ | ⟨terminator, hterminator, heq⟩)
    · cases heq
      exact ⟨rfl, .inl ⟨statement, hj, rfl⟩⟩
    · cases heq
      exact ⟨rfl, .inr ⟨rfl, terminator, hterminator, rfl⟩⟩
  · rintro ⟨rfl, ⟨statement, hi, rfl⟩ | ⟨rfl, terminator, hterminator, rfl⟩⟩
    · exact .inl ⟨statement, i, hi, rfl⟩
    · exact .inr ⟨terminator, hterminator, rfl⟩

/-- The `i`-th of them is at the `i`-th location. -/
theorem BasicBlockData.getElem?_executed {data : BasicBlockData} {bb : BasicBlock} {i : Nat}
    {loc : Location} {e : Executed} (h : (data.executed bb)[i]? = some (loc, e)) :
    loc = ⟨bb, i⟩ := by
  rw [executed, List.getElem?_append] at h
  rw [List.length_map, List.length_zipIdx] at h
  by_cases hlt : i < data.statements.length
  · rw [if_pos hlt, List.getElem?_map, List.getElem?_zipIdx, List.getElem?_eq_getElem hlt] at h
    cases h
    simp
  · rw [if_neg hlt] at h
    obtain ⟨terminator, hterminator, heq⟩ := List.mem_map.mp (List.mem_of_getElem? h)
    cases heq
    have hzero : i - data.statements.length = 0 := by
      obtain ⟨hlen, -⟩ := List.getElem?_eq_some_iff.mp h
      rw [List.length_map] at hlen
      have hone : data.terminator.toList.length ≤ 1 := by
        cases data.terminator with
        | none => exact Nat.zero_le 1
        | some _ => exact Nat.le_refl 1
      omega
    have hi : i = data.statements.length := by omega
    rw [hi]

/-- A visitor comes to each location of a block once. -/
theorem BasicBlockData.nodup_executed (data : BasicBlockData) (bb : BasicBlock) :
    ((data.executed bb).map Prod.fst).Nodup := by
  have hlocations : (data.statements.zipIdx.map fun entry =>
      ((⟨bb, entry.2⟩, .statement entry.1) : Location × Executed)).map Prod.fst =
      (List.range data.statements.length).map (Location.mk bb) := by
    rw [List.range_eq_range', ← List.zipIdx_map_snd 0 data.statements, List.map_map, List.map_map]
    rfl
  rw [BasicBlockData.executed, List.map_append, hlocations]
  refine List.nodup_append.mpr
    ⟨List.Nodup.map (fun i j h => (Location.mk.inj h).2) List.nodup_range, ?_, ?_⟩
  · cases data.terminator with
    | none => exact List.nodup_nil
    | some terminator => exact List.nodup_singleton _
  · -- the terminator is behind the statements
    rintro loc hloc loc' hloc' rfl
    obtain ⟨i, hi, rfl⟩ := List.mem_map.mp hloc
    obtain ⟨_, hterminator, heq⟩ := List.mem_map.mp hloc'
    obtain ⟨terminator, -, rfl⟩ := List.mem_map.mp hterminator
    obtain rfl := (Location.mk.inj heq).2
    exact Nat.lt_irrefl _ (List.mem_range.mp hi)

end MutationTesting.Mir
