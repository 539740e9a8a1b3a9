/-
  MutationTesting.Mutator.Deletion

  An insertion mutant against the body it was made from: deleting the one
  statement and the locals beyond the declared ones gives back the body, so
  whatever the borrow checker says of the mutant and not of the body is about
  that statement.
-/
import MutationTesting.Mutator.Mutations
import MutationTesting.Mir.Locals

namespace MutationTesting.Mir

/-- The statement at a location, if there is one. -/
def Body.statementAt (body : Body) (loc : Location) : Option Statement := do
  let data ← body.basicBlocks[loc.block]?
  data.statements[loc.statementIndex]?

/-- The body without the statement at a location. -/
def Body.deleteStatement (body : Body) (loc : Location) : Body :=
  match body.basicBlocks[loc.block]? with
  | some data =>
    body.setBlock loc.block { data with statements := data.statements.eraseIdx loc.statementIndex }
  | none => body

theorem Body.deleteStatement_eq {body : Body} {bb : BasicBlock} {data : BasicBlockData}
    (h : body.basicBlocks[bb]? = some data) (index : Nat) :
    body.deleteStatement ⟨bb, index⟩ =
      body.setBlock bb { data with statements := data.statements.eraseIdx index } := by
  simp only [deleteStatement, h]

/-- The body with its first `n` locals only. -/
def Body.truncateLocals (body : Body) (n : Nat) : Body :=
  { body with localDecls := body.localDecls.take n }

end MutationTesting.Mir

namespace MutationTesting.Mutator

open MutationTesting.Rust MutationTesting.Mir MutationTesting.Pcg

/-- The mutant is the body with one statement more, between `curr` and the
    location after it, and with locals that the body does not use. -/
structure InsertsOneStatement (body : Body) (curr : Location) (mutantBody : Body) : Prop where
  delete_eq : (mutantBody.deleteStatement ⟨curr.block, curr.statementIndex + 1⟩).truncateLocals
    body.localDecls.length = body
  inserted : ∃ new, mutantBody.statementAt ⟨curr.block, curr.statementIndex + 1⟩ = some new
  before : ∀ k ≤ curr.statementIndex,
    mutantBody.statementAt ⟨curr.block, k⟩ = body.statementAt ⟨curr.block, k⟩
  after : ∀ k > curr.statementIndex,
    mutantBody.statementAt ⟨curr.block, k + 1⟩ = body.statementAt ⟨curr.block, k⟩
  other_blocks : ∀ bb ≠ curr.block, mutantBody.basicBlocks[bb]? = body.basicBlocks[bb]?
  fresh : LocalsDeclared body → ∀ l, body.localDecls.length ≤ l →
    l < mutantBody.localDecls.length → l ∉ body.locals

section Insertion

variable {body : Body} {curr : Location} {fresh : List LocalDecl} {new : Statement}
  {mutant : Mutant}

/-- Where the statements of the split block are in the mutant. -/
theorem Insertion.statementAt (h : Insertion body curr fresh new mutant) :
    ∃ bb, body.basicBlocks[curr.block]? = some bb ∧
      curr.statementIndex < bb.statements.length ∧ ∀ k,
      mutant.body.statementAt ⟨curr.block, k⟩ =
        (bb.statements.insertIdx (curr.statementIndex + 1) new)[k]? := by
  obtain ⟨bb, hbb, hlt, hblocks⟩ := h.exists_block
  refine ⟨bb, hbb, hlt, fun k => ?_⟩
  rw [Body.statementAt, hblocks, List.getElem?_set_self (List.getElem?_eq_some_iff.mp hbb).1]
  rfl

theorem Insertion.statementAt_new (h : Insertion body curr fresh new mutant) :
    mutant.body.statementAt ⟨curr.block, curr.statementIndex + 1⟩ = some new := by
  obtain ⟨bb, hbb, hlt, hat⟩ := h.statementAt
  rw [hat, List.getElem?_insertIdx_self, if_pos (by omega)]

/-- Deletion undoes the insertion. -/
theorem Insertion.delete_eq (h : Insertion body curr fresh new mutant) :
    (mutant.body.deleteStatement ⟨curr.block, curr.statementIndex + 1⟩).truncateLocals
      body.localDecls.length = body := by
  obtain ⟨bb, hbb, hlt, hblocks⟩ := h.exists_block
  have hblock : curr.block < body.basicBlocks.length := (List.getElem?_eq_some_iff.mp hbb).1
  have hget : mutant.body.basicBlocks[curr.block]? = some
      { bb with statements := bb.statements.insertIdx (curr.statementIndex + 1) new } := by
    rw [hblocks, List.getElem?_set_self hblock]
  have hdeleted : (mutant.body.deleteStatement
      ⟨curr.block, curr.statementIndex + 1⟩).basicBlocks = body.basicBlocks := by
    rw [Body.deleteStatement_eq hget, Body.setBlock_basicBlocks, hblocks, List.set_set]
    simp only [List.eraseIdx_insertIdx_self]
    obtain ⟨_, rfl⟩ := List.getElem?_eq_some_iff.mp hbb
    exact List.set_getElem_self hblock
  have hdecls : (mutant.body.deleteStatement
      ⟨curr.block, curr.statementIndex + 1⟩).localDecls = body.localDecls ++ fresh := by
    rw [Body.deleteStatement_eq hget, Body.setBlock_localDecls, h.localDecls_eq]
  rw [Body.truncateLocals, hdeleted, hdecls, List.take_left]

theorem Insertion.insertsOneStatement (h : Insertion body curr fresh new mutant) :
    InsertsOneStatement body curr mutant.body := by
  obtain ⟨bb, hbb, hlt, hat⟩ := h.statementAt
  have hbody : ∀ k, body.statementAt ⟨curr.block, k⟩ = bb.statements[k]? := by
    intro k
    rw [Body.statementAt, hbb]
    rfl
  refine
    { delete_eq := h.delete_eq
      inserted := ⟨new, h.statementAt_new⟩
      before := ?_
      after := ?_
      other_blocks := ?_
      fresh := ?_ }
  · intro k hk
    rw [hat, hbody, List.getElem?_insertIdx_of_lt (by omega)]
  · intro k hk
    rw [hat, hbody, List.getElem?_insertIdx_of_gt (by omega), Nat.add_sub_cancel]
  · intro other hne
    obtain ⟨_, _, _, hblocks⟩ := h.exists_block
    rw [hblocks, List.getElem?_set_ne (Ne.symm hne)]
  · intro hdeclared l hle _ hused
    -- what the body uses it declares
    exact absurd (hdeclared l hused) (Nat.not_lt.mpr hle)

end Insertion

/-- Every mutant of the four insertion mutations is the body with one statement
    inserted after `curr`. -/
theorem MutationKind.inserts_one_statement {order : HashOrder Pcg.Place} {ctx : CompilerCtxt}
    {body : Body} {curr next : PcgLocation} {k : MutationKind} (hk : k.isExpiry = false)
    {stream : MutantStream} (hstream : k.makeStream order ctx body curr next = .ok stream)
    {mutant : Mutant} (hm : Emits stream mutant) :
    InsertsOneStatement body curr.location mutant.body := by
  obtain ⟨cs, -, c, -, hbuilt⟩ := exists_of_emits hstream hm
  obtain ⟨fresh, new, hinsertion⟩ := attempt_insertion hk hbuilt
  exact hinsertion.insertsOneStatement

/-- The sample's move out of `x`. -/
theorem MutationKind.inserts_one_statement_move : ∃ stream mutant,
    makeStream Sample.order .moveFromBorrowed Sample.ctx Sample.body Sample.curr Sample.next =
      .ok stream ∧ Emits stream mutant ∧
    InsertsOneStatement Sample.body Sample.curr.location mutant.body := by
  obtain ⟨stream, mutant, hstream, -, it', hyields, -⟩ :=
    produces_of_consecutive Sample.consecutive Sample.move_candidates
  have hemits : Emits stream (mutant Sample.x) := hyields.mem_iff_emits.mp (by simp)
  exact ⟨stream, _, hstream, hemits, inserts_one_statement rfl hstream hemits⟩

end MutationTesting.Mutator
