/-
  MutationTesting.Mir.Body

  Surgery on bodies: overwriting the data of one block, and what that does to
  the statements of the body taken together.  Bodies are compared up to the
  spans of their statements.
-/
import MutationTesting.Mir.Syntax
import Mathlib.Data.List.Perm.Basic
import Mathlib.Data.List.InsertIdx

namespace MutationTesting.Mir

namespace Body

/-- The body with the data of block `bb` overwritten. -/
def setBlock (body : Body) (bb : BasicBlock) (data : BasicBlockData) : Body :=
  { body with basicBlocks := body.basicBlocks.set bb data }

@[simp] theorem setBlock_localDecls (body : Body) (bb : BasicBlock) (data : BasicBlockData) :
    (body.setBlock bb data).localDecls = body.localDecls := rfl

@[simp] theorem setBlock_basicBlocks (body : Body) (bb : BasicBlock) (data : BasicBlockData) :
    (body.setBlock bb data).basicBlocks = body.basicBlocks.set bb data := rfl

/-- The statements of all blocks, in block order. -/
def statements (body : Body) : List Statement :=
  body.basicBlocks.flatMap (·.statements)

end Body

/-! ## Spans -/

/-- The statement without its source info. -/
def Statement.eraseSpan (statement : Statement) : Statement :=
  { statement with sourceInfo := ⟨0, 0⟩ }

theorem Statement.eraseSpan_inj {s s' : Statement} :
    s.eraseSpan = s'.eraseSpan ↔ s.kind = s'.kind := by
  obtain ⟨_, kind⟩ := s
  obtain ⟨_, kind'⟩ := s'
  simp [eraseSpan]

def BasicBlockData.eraseSpans (block : BasicBlockData) : BasicBlockData :=
  { block with statements := block.statements.map Statement.eraseSpan }

/-- The body with the source info of its statements erased. -/
def Body.eraseSpans (body : Body) : Body :=
  { body with basicBlocks := body.basicBlocks.map BasicBlockData.eraseSpans }

/-- Two insertions at one place agree when the inserted statements do. -/
theorem eraseSpan_insertIdx_inj {statements : List Statement} {i : Nat}
    (hi : i ≤ statements.length) (s s' : Statement) :
    (statements.insertIdx i s).map Statement.eraseSpan =
        (statements.insertIdx i s').map Statement.eraseSpan ↔
      s.kind = s'.kind := by
  rw [List.map_insertIdx, List.map_insertIdx, ← Statement.eraseSpan_inj]
  constructor
  · intro h
    -- read both lists at the place of the insertion
    have hlen : ∀ t : Statement,
        i < ((statements.map Statement.eraseSpan).insertIdx i t).length := by
      intro t
      rw [List.length_insertIdx_of_le_length (by simpa using hi), List.length_map]
      omega
    have hget := List.getElem_insertIdx_self (hlen s.eraseSpan)
    have hget' := List.getElem_insertIdx_self (hlen s'.eraseSpan)
    rw [← hget, ← hget']
    congr 1
  · intro h
    rw [h]

/-- Overwriting a block exchanges its statements for the new ones. -/
theorem flatMap_set_perm {blocks : List BasicBlockData} {bb : BasicBlock}
    {old : BasicBlockData} (h : blocks[bb]? = some old) (new : BasicBlockData) :
    ((blocks.set bb new).flatMap (·.statements) ++ old.statements).Perm
      (blocks.flatMap (·.statements) ++ new.statements) := by
  induction blocks generalizing bb with
  | nil => simp at h
  | cons b blocks ih =>
    cases bb with
    | zero =>
      obtain rfl : b = old := by simpa using h
      -- the blocks after the one that is set are the same
      simp only [List.set_cons_zero, List.flatMap_cons]
      generalize blocks.flatMap (·.statements) = rest
      calc (new.statements ++ rest) ++ b.statements
          |>.Perm (b.statements ++ (new.statements ++ rest)) := List.perm_append_comm
        _ |>.Perm (b.statements ++ (rest ++ new.statements)) :=
            List.perm_append_comm.append_left _
        _ = (b.statements ++ rest) ++ new.statements := (List.append_assoc ..).symm
    | succ bb =>
      simp only [List.getElem?_cons_succ] at h
      simp only [List.set_cons_succ, List.flatMap_cons, List.append_assoc]
      exact (ih h).append_left _

end MutationTesting.Mir
