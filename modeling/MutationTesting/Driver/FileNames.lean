/-
  MutationTesting.Driver.FileNames

  The names of the files a run writes (the end of `run_mutation_tests` in
  `src/main.rs`).  Both files are inside the results directory, and a crate name
  is neither empty nor a path, so a path is a file name here.

  No two of the names are equal: up to the first `-` a name is that of its crate,
  and what follows tells which of the crate's files it is.
-/
import Std.Data.String.ToNat
import Mathlib.Data.List.TakeWhile

namespace MutationTesting.Driver

/-- `Path::file_stem`: the name up to its last dot, if that is not its first
    character. -/
def fileStem (fileName : String) : String :=
  if fileName = ".." then fileName
  else
    match fileName.toList.reverse.dropWhile (· ≠ '.') with
    | [] | [_] => fileName
    | _ :: stem => .ofList stem.reverse

/-- `Path::with_extension`. -/
def withExtension (fileName extension : String) : String :=
  fileStem fileName ++ "." ++ extension

/-- `mutants_log_path`. -/
def mutantsLogPath (uniqueCrateName : String) : String :=
  withExtension (uniqueCrateName ++ "-mutants") "json"

/-- `mutator_results_path`. -/
def mutatorResultsPath (uniqueCrateName : String) : String :=
  withExtension uniqueCrateName "json"

/-- What is appended to the crate name, in turn. -/
def nameSuffix : Nat → String
  | 0 => ""
  | suffix + 1 => "-" ++ toString suffix

/-- The names that are tried for a crate, in turn. -/
def candidateName (crateName : String) (k : Nat) : String := crateName ++ nameSuffix k

/-- What is relied on of a crate name. -/
def IsCrateName (crateName : String) : Prop := ∀ c ∈ crateName.toList, c ≠ '-' ∧ c ≠ '.'

theorem isCrateName_of_all {crateName : String}
    (h : crateName.toList.all (fun c => c != '-' && c != '.') = true) : IsCrateName crateName := by
  intro c hc
  simpa using List.all_eq_true.mp h c hc

/-! ## Extensions -/

theorem fileStem_of_no_dot {fileName : String} (h : '.' ∉ fileName.toList) :
    fileStem fileName = fileName := by
  have hdrop : fileName.toList.reverse.dropWhile (· ≠ '.') = [] := by
    rw [List.dropWhile_eq_nil_iff]
    intro c hc
    simp only [decide_not, Bool.not_eq_eq_eq_not, Bool.not_true, decide_eq_false_iff_not]
    rintro rfl
    exact h (List.mem_reverse.mp hc)
  unfold fileStem
  split
  · rfl
  · rw [hdrop]

theorem not_mem_toString_of_not_isDigit {c : Char} (hc : c.isDigit = false) (n : Nat) :
    c ∉ (toString n).toList := by
  intro hmem
  have hdigit := Nat.isDigit_of_mem_toDigits (by decide) (by decide)
    ((Nat.toList_repr (n := n)) ▸ hmem)
  rw [hc] at hdigit
  cases hdigit

/-- A character of a suffix is the dash or a digit. -/
theorem not_mem_nameSuffix {c : Char} (hdigit : c.isDigit = false) (hdash : c ≠ '-') (k : Nat) :
    c ∉ (nameSuffix k).toList := by
  cases k with
  | zero => exact List.not_mem_nil
  | succ suffix =>
    rw [nameSuffix, String.toList_append]
    intro hmem
    rcases List.mem_append.mp hmem with hmem | hmem
    · exact hdash (List.mem_singleton.mp hmem)
    · exact not_mem_toString_of_not_isDigit hdigit suffix hmem

theorem no_dot_candidateName {crateName : String} (h : IsCrateName crateName) (k : Nat) :
    '.' ∉ (candidateName crateName k).toList := by
  rw [candidateName, String.toList_append]
  intro hmem
  rcases List.mem_append.mp hmem with hmem | hmem
  · exact (h _ hmem).2 rfl
  · exact not_mem_nameSuffix rfl (by decide) k hmem

theorem mutatorResultsPath_eq {crateName : String} (h : IsCrateName crateName) (k : Nat) :
    mutatorResultsPath (candidateName crateName k) = crateName ++ (nameSuffix k ++ ".json") := by
  have hext : ".json" = "." ++ "json" := rfl
  rw [mutatorResultsPath, withExtension, fileStem_of_no_dot (no_dot_candidateName h k),
    candidateName, hext]
  simp only [String.append_assoc]

theorem mutantsLogPath_eq {crateName : String} (h : IsCrateName crateName) (k : Nat) :
    mutantsLogPath (candidateName crateName k) =
      crateName ++ (nameSuffix k ++ "-mutants" ++ ".json") := by
  have hdot : '.' ∉ (candidateName crateName k ++ "-mutants").toList := by
    rw [String.toList_append]
    intro hmem
    rcases List.mem_append.mp hmem with hmem | hmem
    · exact no_dot_candidateName h k hmem
    · revert hmem
      decide
  have hext : ".json" = "." ++ "json" := rfl
  rw [mutantsLogPath, withExtension, fileStem_of_no_dot hdot, candidateName, hext]
  simp only [String.append_assoc]

/-! ## Names are distinct -/

/-- No crate name has the first character of the string. -/
def EndsCrateName (rest : String) : Prop :=
  ∃ c cs, rest.toList = c :: cs ∧ (c = '-' ∨ c = '.')

theorem takeWhile_crateName {crateName rest : String} (hcrate : IsCrateName crateName)
    (hrest : EndsCrateName rest) :
    (crateName ++ rest).toList.takeWhile (fun c => c ≠ '-' ∧ c ≠ '.') = crateName.toList := by
  obtain ⟨c, cs, hrest, hc⟩ := hrest
  rw [String.toList_append, List.takeWhile_append_of_pos, hrest, List.takeWhile_cons_of_neg,
    List.append_nil]
  · rcases hc with rfl | rfl <;> decide
  · intro c hmem
    exact decide_eq_true (hcrate c hmem)

theorem crateName_inj {a b rest rest' : String} (ha : IsCrateName a) (hb : IsCrateName b)
    (hrest : EndsCrateName rest) (hrest' : EndsCrateName rest') (h : a ++ rest = b ++ rest') :
    a = b ∧ rest = rest' := by
  have hab : a = b := by
    rw [← String.toList_inj, ← takeWhile_crateName ha hrest, h, takeWhile_crateName hb hrest']
  rw [hab] at h
  exact ⟨hab, (String.append_right_inj b).mp h⟩

theorem nameSuffix_injective : Function.Injective nameSuffix := by
  have hne : ∀ suffix, nameSuffix 0 ≠ nameSuffix (suffix + 1) := by
    intro suffix h
    have hlist := congrArg String.toList h
    rw [nameSuffix, nameSuffix, String.toList_append] at hlist
    cases hlist
  intro k l h
  cases k with
  | zero =>
    cases l with
    | zero => rfl
    | succ suffix => exact absurd h (hne suffix)
  | succ suffix =>
    cases l with
    | zero => exact absurd h.symm (hne suffix)
    | succ suffix' =>
      rw [nameSuffix, nameSuffix] at h
      rw [Nat.repr_injective ((String.append_right_inj "-").mp h)]

theorem endsCrateName_append (k : Nat) {rest : String} (h : EndsCrateName rest) :
    EndsCrateName (nameSuffix k ++ rest) := by
  cases k with
  | zero =>
    rw [nameSuffix, String.empty_append]
    exact h
  | succ suffix =>
    refine ⟨'-', (toString suffix).toList ++ rest.toList, ?_, .inl rfl⟩
    rw [nameSuffix, String.toList_append, String.toList_append]
    rfl

theorem endsCrateName_results (k : Nat) : EndsCrateName (nameSuffix k ++ ".json") :=
  endsCrateName_append k ⟨'.', _, rfl, .inr rfl⟩

theorem endsCrateName_log (k : Nat) : EndsCrateName (nameSuffix k ++ "-mutants" ++ ".json") := by
  rw [String.append_assoc]
  exact endsCrateName_append k ⟨'-', _, rfl, .inl rfl⟩

section Paths

variable {a b : String} (ha : IsCrateName a) (hb : IsCrateName b) {k l : Nat}

include ha hb

theorem mutatorResultsPath_inj :
    mutatorResultsPath (candidateName a k) = mutatorResultsPath (candidateName b l) ↔
      a = b ∧ k = l := by
  constructor
  · intro h
    rw [mutatorResultsPath_eq ha, mutatorResultsPath_eq hb] at h
    obtain ⟨hab, h⟩ := crateName_inj ha hb (endsCrateName_results k) (endsCrateName_results l) h
    exact ⟨hab, nameSuffix_injective ((String.append_left_inj ".json").mp h)⟩
  · rintro ⟨rfl, rfl⟩
    rfl

theorem mutantsLogPath_inj :
    mutantsLogPath (candidateName a k) = mutantsLogPath (candidateName b l) ↔
      a = b ∧ k = l := by
  constructor
  · intro h
    rw [mutantsLogPath_eq ha, mutantsLogPath_eq hb] at h
    obtain ⟨hab, h⟩ := crateName_inj ha hb (endsCrateName_log k) (endsCrateName_log l) h
    have h := (String.append_left_inj ".json").mp h
    exact ⟨hab, nameSuffix_injective ((String.append_left_inj "-mutants").mp h)⟩
  · rintro ⟨rfl, rfl⟩
    rfl

/-- No results file is a log file: no suffix has an `m`. -/
theorem mutantsLogPath_ne_mutatorResultsPath :
    mutantsLogPath (candidateName a k) ≠ mutatorResultsPath (candidateName b l) := by
  intro h
  rw [mutantsLogPath_eq ha, mutatorResultsPath_eq hb] at h
  obtain ⟨-, h⟩ := crateName_inj ha hb (endsCrateName_log k) (endsCrateName_results l) h
  have h := (String.append_left_inj ".json").mp h
  refine not_mem_nameSuffix (c := 'm') rfl (by decide) l ?_
  rw [← h, String.toList_append]
  exact List.mem_append_right _ (by decide)

end Paths

end MutationTesting.Driver
