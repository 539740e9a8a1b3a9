/-
  MutationTesting.Driver.Compile

  The results of all crates in one file (`compile_results` in
  `tests/compile_results.rs`).

  The output is a results file itself, in the directory that is read, but it is
  truncated before the directory is listed, and an empty file does not parse.  So
  the output does not depend on an earlier one, and compiling again changes
  nothing.
-/
import MutationTesting.Driver.Directory
import MutationTesting.Driver.Verdict
import Mathlib.Data.String.Basic

namespace MutationTesting.Driver

open MutationTesting.Rust MutationTesting.Mir MutationTesting.Pcg MutationTesting.Mutator

/-! ## Reading -/

/-- `serde_json::from_reader`, of which only this is relied on: the results that
    were written are read back, a map of names parses as no results but the empty
    ones, and an empty file does not parse. -/
structure ResultsReader where
  fromReader : Contents → Option MutatorResults
  fromReader_results : ∀ results, fromReader (.mutatorResults results) = some results
  fromReader_functions : ∀ itemNames results,
    fromReader (.functions itemNames) = some results → results = ∅
  fromReader_empty : fromReader (.text "") = none

inductive DirEntry where
  | file (path : String)
  | directory (path : String)

def DirEntry.file? : DirEntry → Option String
  | .file path => some path
  | .directory _ => none

/-- The orders in which `read_dir` lists a directory and a map is drained, which
    may be another for each file. -/
structure ReadOrder where
  readDir : Directory → List DirEntry
  drain : (path : String) → MutatorResults → List (String × MutatorData)
  lists_readDir : ∀ dir, Lists ((readDir dir).filterMap DirEntry.file?) (· ∈ dir)
  drains_drain : ∀ path results, HashMap.Drains (drain path results) results

/-- `path.to_string_lossy().ends_with("-mutants.json")`. -/
def endsWithMutants (path : String) : Bool := "-mutants.json".toList.isSuffixOf path.toList

/-- The file in which the results are compiled. -/
def compiledPath : String := "mutation-testing-results.json"

section

variable (reader : ResultsReader) (order : ReadOrder)

/-- The body of the loop over the entries of a results file. -/
def addResult (mutatorResults : MutatorResults) : String × MutatorData → MutatorResults
  | (mutatorName, result) => (mutatorResults.orInsert mutatorName .zero).modify mutatorName
      fun entry => entry + result

/-- The body of the loop over the entries of the directory. -/
def compileEntry (dir : Directory) (mutatorResults : MutatorResults) :
    DirEntry → MutatorResults
  | .directory _ => mutatorResults
  | .file path =>
    if endsWithMutants path then mutatorResults
    else
      match (dir.lookup path).bind reader.fromReader with
      | none => mutatorResults
      | some fileResults => (order.drain path fileResults).foldl addResult mutatorResults

/-- The directory as it is listed: the output has been created. -/
def withOutput (dir : Directory) : Directory := dir.insert compiledPath (.text "")

/-- The results compiled from a directory. -/
def compiledResults (dir : Directory) : MutatorResults :=
  (order.readDir dir).foldl (compileEntry reader order dir) ∅

/-- `compile_results`. -/
def compileResults (dir : Directory) : Directory :=
  (withOutput dir).insert compiledPath
    (.mutatorResults (compiledResults reader order (withOutput dir)))

/-! ## What is counted -/

/-- The results that are read from a file, if any. -/
def countedResults (dir : Directory) (path : String) : Option MutatorResults :=
  if endsWithMutants path then none else (dir.lookup path).bind reader.fromReader

theorem mem_of_countedResults {reader : ResultsReader} {dir : Directory} {path : String}
    (h : (countedResults reader dir path).isSome) : path ∈ dir := by
  rw [countedResults] at h
  split at h
  · cases h
  · rw [← Finmap.lookup_isSome]
    exact Option.isSome_of_isSome_bind h

/-- The results that are counted, in the order in which they are read. -/
def countedFiles (dir : Directory) : List MutatorResults :=
  ((order.readDir dir).filterMap DirEntry.file?).filterMap (countedResults reader dir)

/-- The loop over a results file adds its entries up. -/
theorem foldl_addResult (mutatorResults : MutatorResults)
    (entries : List (String × MutatorData)) :
    entries.foldl addResult mutatorResults = mutatorResults.tally entries := rfl

theorem compileEntry_file (dir : Directory) (mutatorResults : MutatorResults) (path : String) :
    compileEntry reader order dir mutatorResults (.file path) =
      match countedResults reader dir path with
      | none => mutatorResults
      | some fileResults => mutatorResults.tally (order.drain path fileResults) := by
  simp only [compileEntry, countedResults, foldl_addResult]
  split
  · rfl
  · rfl

/-- The loops add up the entries of the files that are counted. -/
theorem exists_drained (dir : Directory) (entries : List DirEntry) :
    ∃ drained, List.Forall₂ HashMap.Drains drained
        ((entries.filterMap DirEntry.file?).filterMap (countedResults reader dir)) ∧
      ∀ mutatorResults, entries.foldl (compileEntry reader order dir) mutatorResults =
        mutatorResults.tally drained.flatten := by
  induction entries with
  | nil => exact ⟨[], .nil, fun _ => rfl⟩
  | cons entry entries ih =>
    obtain ⟨drained, hdrained, hfold⟩ := ih
    cases entry with
    | directory path => exact ⟨drained, hdrained, hfold⟩
    | file path =>
      have hfile : (DirEntry.file path :: entries).filterMap DirEntry.file? =
        path :: entries.filterMap DirEntry.file? := rfl
      rw [hfile]
      cases hcounted : countedResults reader dir path with
      | none =>
        -- a file that is skipped or does not parse adds nothing
        refine ⟨drained, ?_, fun mutatorResults => ?_⟩
        · rw [List.filterMap_cons_none hcounted]
          exact hdrained
        · rw [List.foldl_cons, compileEntry_file, hcounted, hfold]
      | some fileResults =>
        refine ⟨order.drain path fileResults :: drained, ?_, fun mutatorResults => ?_⟩
        · rw [List.filterMap_cons_some hcounted]
          exact .cons (order.drains_drain path fileResults) hdrained
        · rw [List.foldl_cons, compileEntry_file, hcounted, hfold, List.flatten_cons,
            HashMap.tally_append]

theorem lookup_compiledResults (dir : Directory) (name : String) :
    (compiledResults reader order dir).lookup name =
      HashMap.total ((countedFiles reader order dir).filterMap fun results =>
        results.lookup name) := by
  obtain ⟨drained, hdrained, hfold⟩ := exists_drained reader order dir (order.readDir dir)
  rw [compiledResults, hfold]
  exact HashMap.lookup_tally_flatten hdrained name

/-- A name in what is compiled is in a file that is counted. -/
theorem exists_countedResults {dir : Directory} {name : String}
    (h : name ∈ compiledResults reader order dir) :
    ∃ path results, countedResults reader dir path = some results ∧ name ∈ results := by
  obtain ⟨data, hdata⟩ := Finmap.mem_iff.mp h
  rw [lookup_compiledResults, HashMap.total_eq_some] at hdata
  obtain ⟨held, hheld⟩ := List.exists_mem_of_ne_nil _ hdata.1
  obtain ⟨results, hresults, hlookup⟩ := List.mem_filterMap.mp hheld
  obtain ⟨path, -, hcounted⟩ := List.mem_filterMap.mp hresults
  exact ⟨path, results, hcounted, Finmap.mem_of_lookup_eq_some hlookup⟩

variable {reader} in
/-- What is counted next to the output was there before it. -/
theorem countedResults_withOutput {dir : Directory} {path : String} {results : MutatorResults}
    (h : countedResults reader (withOutput dir) path = some results) :
    path ≠ compiledPath ∧ endsWithMutants path = false ∧
      (dir.lookup path).bind reader.fromReader = some results := by
  rw [countedResults] at h
  split at h
  · cases h
  next hsuffix =>
    have houtput : path ≠ compiledPath := by
      rintro rfl
      rw [withOutput, Finmap.lookup_insert, Option.bind_some, reader.fromReader_empty] at h
      cases h
    rw [withOutput, Finmap.lookup_insert_of_ne _ houtput] at h
    exact ⟨houtput, Bool.not_eq_true _ ▸ hsuffix, h⟩

/-! ## No order matters -/

theorem countedFiles_perm (order' : ReadOrder) (dir : Directory) :
    (countedFiles reader order dir).Perm (countedFiles reader order' dir) :=
  ((order.lists_readDir dir).perm (order'.lists_readDir dir)).filterMap _

theorem compiledResults_order (order' : ReadOrder) (dir : Directory) :
    compiledResults reader order dir = compiledResults reader order' dir := by
  apply Finmap.ext_lookup
  intro name
  rw [lookup_compiledResults, lookup_compiledResults]
  exact HashMap.total_perm ((countedFiles_perm reader order order' dir).filterMap _)

/-- An earlier output is truncated before the directory is listed. -/
theorem withOutput_compileResults (dir : Directory) :
    withOutput (compileResults reader order dir) = withOutput dir := by
  rw [compileResults, withOutput, Finmap.insert_insert, withOutput, Finmap.insert_insert]

/-- Compiling again changes nothing, in whatever order. -/
theorem compileResults_compileResults (order' : ReadOrder) (dir : Directory) :
    compileResults reader order' (compileResults reader order dir) =
      compileResults reader order dir := by
  have hagain := compileResults.eq_1 reader order' (compileResults reader order dir)
  rw [hagain, withOutput_compileResults, compiledResults_order reader order' order, compileResults]

end

/-! ## The filter and the file names -/

/-- The reader skips the logs that are written. -/
theorem endsWithMutants_mutantsLogPath {crateName : String} (h : IsCrateName crateName) (k : Nat) :
    endsWithMutants (mutantsLogPath (candidateName crateName k)) = true := by
  have hsuffix : "-mutants.json" = "-mutants" ++ ".json" := rfl
  rw [endsWithMutants, List.isSuffixOf_iff_suffix, mutantsLogPath_eq h, hsuffix]
  refine ⟨crateName.toList ++ (nameSuffix k).toList, ?_⟩
  simp only [String.toList_append, List.append_assoc]

/-- It does not skip the results: what comes before the extension has no dash, or
    ends in a digit. -/
theorem endsWithMutants_mutatorResultsPath {crateName : String} (h : IsCrateName crateName)
    (k : Nat) : endsWithMutants (mutatorResultsPath (candidateName crateName k)) = false := by
  rw [Bool.eq_false_iff, endsWithMutants, ne_eq, List.isSuffixOf_iff_suffix,
    mutatorResultsPath_eq h]
  rintro ⟨before, hbefore⟩
  have hsuffix : "-mutants.json".toList = "-mutants".toList ++ ".json".toList := rfl
  rw [hsuffix, String.toList_append, String.toList_append, ← List.append_assoc,
    ← List.append_assoc] at hbefore
  -- the extension aside, the name would end in `-mutants`
  have hname := List.append_cancel_right hbefore
  cases k with
  | zero =>
    have hdash : '-' ∈ crateName.toList := by
      rw [nameSuffix, String.toList_empty, List.append_nil] at hname
      rw [← hname]
      exact List.mem_append_right _ (by decide)
    exact (h _ hdash).1 rfl
  | succ suffix =>
    have hne : (toString suffix).toList ≠ [] := by
      rw [ne_eq, String.toList_eq_nil_iff]
      exact Nat.repr_ne_empty
    have hlast := congrArg List.getLast? hname
    rw [nameSuffix, String.toList_append, ← List.append_assoc, List.getLast?_append_of_ne_nil _ hne,
      List.getLast?_append_of_ne_nil _ (by decide)] at hlast
    exact not_mem_toString_of_not_isDigit (c := 's') rfl suffix
      (List.mem_of_getLast? hlast.symm)

/-- No crate is called so that its results are the output. -/
theorem mutatorResultsPath_ne_compiledPath {crateName : String} (h : IsCrateName crateName)
    (k : Nat) : mutatorResultsPath (candidateName crateName k) ≠ compiledPath := by
  intro hpath
  have hcompiled : compiledPath = "mutation" ++ ("-testing-results" ++ ".json") := rfl
  have hmutation : IsCrateName "mutation" := isCrateName_of_all (by decide)
  rw [mutatorResultsPath_eq h, hcompiled] at hpath
  obtain ⟨-, hsuffix⟩ := crateName_inj h hmutation (endsCrateName_results k)
    ⟨'-', _, rfl, .inl rfl⟩ hpath
  have hsuffix := (String.append_left_inj ".json").mp hsuffix
  refine not_mem_nameSuffix (c := 't') rfl (by decide) k ?_
  rw [hsuffix]
  decide

/-! ## The runs of a set of crates -/

/-- The results are the sums of those of the runs. -/
structure SumsUp (results : MutatorResults) (runs : List MutatorResults) : Prop where
  mem_iff : ∀ name, name ∈ results ↔ ∃ run ∈ runs, name ∈ run
  instances_eq : ∀ name data, results.lookup name = some data →
    data.instances = ((runs.filterMap (·.lookup name)).map (·.instances)).sum
  passed_eq : ∀ name data, results.lookup name = some data →
    data.passed = ((runs.filterMap (·.lookup name)).map (·.passed)).sum
  failed_eq : ∀ name data, results.lookup name = some data →
    data.failed = ((runs.filterMap (·.lookup name)).map (·.failed)).sum
  panicked_eq : ∀ name data, results.lookup name = some data →
    data.panicked = ((runs.filterMap (·.lookup name)).map (·.panicked)).sum
  mem_errorCodes_iff : ∀ name data, results.lookup name = some data → ∀ code,
    code ∈ data.errorCodes ↔ ∃ held ∈ runs.filterMap (·.lookup name), code ∈ held.errorCodes

theorem SumsUp.of_lookup {results : MutatorResults} {runs : List MutatorResults}
    (h : ∀ name, results.lookup name =
      HashMap.total (runs.filterMap fun run => run.lookup name)) : SumsUp results runs := by
  have hsum : ∀ name data, results.lookup name = some data →
      data = (runs.filterMap (·.lookup name)).sum := by
    intro name data hlookup
    rw [h, HashMap.total_eq_some] at hlookup
    exact hlookup.2.symm
  have hcount : ∀ (count : MutatorData → Int), count 0 = 0 →
      (∀ a b, count (a + b) = count a + count b) → ∀ name data, results.lookup name = some data →
      count data = ((runs.filterMap (·.lookup name)).map count).sum := by
    intro count hzero hadd name data hlookup
    rw [hsum name data hlookup]
    exact MutatorData.count_sum hzero hadd _
  refine ⟨?_, hcount _ rfl fun _ _ => rfl, hcount _ rfl fun _ _ => rfl, hcount _ rfl fun _ _ => rfl,
    hcount _ rfl fun _ _ => rfl, ?_⟩
  · intro name
    rw [Finmap.mem_iff, h]
    simp only [HashMap.total_eq_some, exists_and_left, exists_eq', and_true]
    simp [List.filterMap_eq_nil_iff, Finmap.lookup_eq_none]
  · intro name data hlookup code
    rw [hsum name data hlookup]
    exact MutatorData.mem_errorCodes_sum

/-- In the directory there is no results file: a file has the name of the output
    or of a log, or does not parse. -/
def ResultsReader.NoResults (reader : ResultsReader) (dir : Directory) : Prop :=
  ∀ path contents, dir.lookup path = some contents →
    path = compiledPath ∨ endsWithMutants path = true ∨ reader.fromReader contents = none

section

variable {σ : Type} [FiniteIterator σ Mutant]

/-- Each run writes its results, and no two of them have the same crate name. -/
structure DistinctCrates (runs : List (ToolRun σ)) : Prop where
  writes : ∀ run ∈ runs, ∃ crateName, IsCrateName crateName ∧ run.WritesAs crateName
  pairwise : runs.Pairwise fun run later =>
    ∀ crateName, run.WritesAs crateName → ¬ later.WritesAs crateName

namespace DistinctCrates

variable {runs : List (ToolRun σ)} (h : DistinctCrates runs)

include h

theorem properName : ∀ run ∈ runs, run.ProperName := by
  intro run hrun crateName hcrateName
  obtain ⟨c, hc, hwrites⟩ := h.writes run hrun
  obtain rfl := Option.some.inj (hwrites.crateName_eq.symm.trans hcrateName)
  exact hc

theorem keepLogs : KeepLogs runs := by
  refine h.pairwise.imp ?_
  intro run later hdistinct crateName hwrites hwrites'
  exact absurd hwrites' (hdistinct crateName hwrites)

end DistinctCrates

/-- The files of a run that writes: its results last, and before them a log. -/
theorem created_of_mem_history {runs : List (ToolRun σ)}
    (hwrites : ∀ run ∈ runs, ∃ crateName, IsCrateName crateName ∧ run.WritesAs crateName)
    {dir : Directory} {w : World} (hw : w ∈ history runs dir) :
    ∃ (crateName : String) (k : Nat), IsCrateName crateName ∧
      w.created.getLast? = some (mutatorResultsPath (candidateName crateName k)) ∧
      ∀ path ∈ w.created, w.created.getLast? = some path ∨ endsWithMutants path = true := by
  induction runs generalizing dir with
  | nil => cases hw
  | cons run runs ih =>
    obtain ⟨⟨crateName, hcrate, hwritesAs⟩, hruns⟩ := List.forall_mem_cons.mp hwrites
    have hproper : run.ProperName := by
      intro crateName' hcrateName
      obtain rfl := Option.some.inj (hwritesAs.crateName_eq.symm.trans hcrateName)
      exact hcrate
    rcases List.mem_cons.mp hw with rfl | hw
    · obtain ⟨w₁, itemNames, -, -, hcreated, hexec⟩ := ToolRun.exec_cases hproper dir
      rcases hexec with ⟨hnot, -⟩ | ⟨c, k, -, hc, -, -, hexec⟩
      · exact absurd hwritesAs (hnot crateName)
      have hlast := World.getLast?_created_written run.host.keepsLog (candidateName c k) w₁
      rw [hexec]
      refine ⟨c, k, hc, hlast, fun path hpath => ?_⟩
      rcases (World.mem_created_written hcreated).mp hpath with rfl | ⟨-, rfl⟩
      · exact .inl hlast
      · exact .inr (endsWithMutants_mutantsLogPath hc k)
    · exact ih hruns hw

section

variable (reader : ResultsReader) {runs : List (ToolRun σ)} {dir : Directory}

/-- The results of a run are counted, and are in the last file it has created. -/
theorem countedResults_of_mem_history (h : DistinctCrates runs) (hstay : FunctionsStay runs dir)
    {w : World} (hw : w ∈ history runs dir) : ∃ path, w.created.getLast? = some path ∧
      countedResults reader (withOutput (finalDir runs dir)) path = some w.mutatorResults := by
  obtain ⟨crateName, k, hcrate, hlast, -⟩ := created_of_mem_history h.writes hw
  refine ⟨_, hlast, ?_⟩
  rw [countedResults, endsWithMutants_mutatorResultsPath hcrate, if_neg Bool.false_ne_true,
    withOutput, Finmap.lookup_insert_of_ne _ (mutatorResultsPath_ne_compiledPath hcrate k),
    (results_stay h.properName h.keepLogs hstay).2 _ hw _ hlast, Option.bind_some,
    reader.fromReader_results]

/-- Nothing else is counted that has an entry. -/
theorem mem_history_of_countedResults (h : DistinctCrates runs) (hdir : reader.NoResults dir)
    {path name : String} {results : MutatorResults} (hname : name ∈ results)
    (hcounted : countedResults reader (withOutput (finalDir runs dir)) path = some results) :
    ∃ w ∈ history runs dir, w.created.getLast? = some path := by
  obtain ⟨houtput, hsuffix, hcounted⟩ := countedResults_withOutput hcounted
  by_contra hnone
  -- a run that has created the file has created it as its log
  have hcreated : ∀ w ∈ history runs dir, path ∉ w.created := by
    intro w hw hpath
    obtain ⟨-, -, -, -, hfiles⟩ := created_of_mem_history h.writes hw
    rcases hfiles path hpath with hlast | hlog
    · exact hnone ⟨w, hw, hlast⟩
    · exact absurd hlog (Bool.eq_false_iff.mp hsuffix)
  by_cases hvisual : path = functionsPath ∧ ∃ run ∈ runs, run.Visualizes
  · -- of the names of the visualization none is the name of a mutation
    obtain ⟨rfl, hvisual⟩ := hvisual
    obtain ⟨itemNames, hnames⟩ := exists_lookup_functions h.properName hcreated (.inl hvisual)
    rw [hnames, Option.bind_some] at hcounted
    rw [reader.fromReader_functions itemNames results hcounted] at hname
    exact absurd hname Finmap.notMem_empty
  have hfiles : ∀ w ∈ history runs dir, path ∉ w.files := by
    intro w hw hpath
    rcases World.mem_files.mp hpath with ⟨hvisualized, rfl⟩ | hpath
    · exact hvisual ⟨rfl, (exists_visualized_iff h.properName).mp ⟨w, hw, hvisualized⟩⟩
    · exact hcreated w hw hpath
  rw [lookup_finalDir h.properName hfiles] at hcounted
  obtain ⟨contents, hlookup, hparse⟩ := Option.bind_eq_some_iff.mp hcounted
  rcases hdir path contents hlookup with heq | hlog | hunparsable
  · exact houtput heq
  · exact absurd hlog (Bool.eq_false_iff.mp hsuffix)
  · rw [hunparsable] at hparse
    cases hparse

/-- What is counted under a name are the entries of the runs. -/
theorem countedFiles_finalDir (order : ReadOrder) (h : DistinctCrates runs)
    (hstay : FunctionsStay runs dir) (hdir : reader.NoResults dir) (name : String) :
    ((countedFiles reader order (withOutput (finalDir runs dir))).filterMap
        (·.lookup name)).Perm
      (((history runs dir).map World.mutatorResults).filterMap (·.lookup name)) := by
  -- the last file of each run, and no other, is counted
  let paths := (history runs dir).filterMap fun w => w.created.getLast?
  let entry := fun path =>
    (countedResults reader (withOutput (finalDir runs dir)) path).bind (·.lookup name)
  have hpaths : Lists paths fun path => ∃ w ∈ history runs dir, w.created.getLast? = some path := by
    constructor
    · refine List.pairwise_filterMap.mpr
        ((results_stay h.properName h.keepLogs hstay).1.imp ?_)
      rintro w w' hdisjoint path hlast path' hlast' rfl
      exact hdisjoint (List.mem_of_getLast? hlast) (List.mem_of_getLast? hlast')
    · intro path
      exact List.mem_filterMap
  have hresults : paths.filterMap (countedResults reader (withOutput (finalDir runs dir))) =
      (history runs dir).map World.mutatorResults := by
    rw [List.filterMap_filterMap, List.filterMap_eq_map_iff_forall_eq_some]
    intro w hw
    obtain ⟨path, hlast, hcounted⟩ := countedResults_of_mem_history reader h hstay hw
    rw [hlast, Option.bind_some, hcounted]
  have hentries : ∀ files : List String, (files.filterMap (countedResults reader
      (withOutput (finalDir runs dir)))).filterMap (·.lookup name) = files.filterMap entry :=
    fun files => List.filterMap_filterMap
  rw [← hresults, countedFiles, hentries, hentries]
  refine (order.lists_readDir _).filterMap_perm hpaths fun path hentry => ?_
  obtain ⟨data, hdata⟩ := Option.isSome_iff_exists.mp hentry
  obtain ⟨results, hcounted, hlookup⟩ := Option.bind_eq_some_iff.mp hdata
  refine iff_of_true (mem_of_countedResults (Option.isSome_of_eq_some hcounted)) ?_
  exact mem_history_of_countedResults reader h hdir (Finmap.mem_of_lookup_eq_some hlookup) hcounted

/-- What is compiled from the directory of the runs sums up their results, if no later
    run visualizes over those of a crate named `functions`. -/
theorem compileResults_sumsUp (order : ReadOrder) (h : DistinctCrates runs)
    (hstay : FunctionsStay runs dir) (hdir : reader.NoResults dir) :
    ∃ results, (compileResults reader order (finalDir runs dir)).lookup compiledPath =
        some (.mutatorResults results) ∧
      SumsUp results ((history runs dir).map World.mutatorResults) ∧
      ∀ order', (compileResults reader order'
          (compileResults reader order (finalDir runs dir))).lookup compiledPath =
        some (.mutatorResults results) := by
  have hlookup : (compileResults reader order (finalDir runs dir)).lookup compiledPath =
      some (.mutatorResults (compiledResults reader order (withOutput (finalDir runs dir)))) :=
    Finmap.lookup_insert _
  refine ⟨_, hlookup, SumsUp.of_lookup fun name => ?_, fun order' => ?_⟩
  · rw [lookup_compiledResults]
    exact HashMap.total_perm (countedFiles_finalDir reader order h hstay hdir name)
  · rw [compileResults_compileResults, hlookup]

end

end

/-! ## A sample directory -/

/-- Names in order, and no subdirectories. -/
def ReadOrder.sorted : ReadOrder where
  readDir dir := dir.keys.sort.map .file
  drain _ results := results.sortedEntries
  lists_readDir dir := by
    rw [List.filterMap_map, show DirEntry.file? ∘ .file = some from rfl, List.filterMap_some]
    exact ⟨Finset.sort_nodup _ _, fun path => by rw [Finset.mem_sort, Finmap.mem_keys]⟩
  drains_drain _ results := results.drains_sortedEntries

/-- Texts do not parse, and of the logs only an empty one. -/
def ResultsReader.sample : ResultsReader where
  fromReader
    | .mutatorResults results => some results
    | .mutantsLog log => if log.len = 0 then some ∅ else none
    | .functions itemNames => if itemNames = ∅ then some ∅ else none
    | .text _ => none
  fromReader_results _ := rfl
  fromReader_functions itemNames results h := by
    have hparse : (if itemNames = ∅ then some ∅ else none) = some results := h
    split at hparse
    · exact (Option.some.inj hparse).symm
    · cases hparse
  fromReader_empty := rfl

namespace SampleRun

/-- The runs have crates of their own. -/
theorem runOn_distinct {crateName crateName' : String} (hne : crateName ≠ crateName')
    (vars vars' : List (String × String)) (c : String) :
    (runOn crateName vars).WritesAs c → ¬ (runOn crateName' vars').WritesAs c := by
  intro hwrites hwrites'
  have hname : crateName = c := Option.some.inj hwrites.crateName_eq
  have hname' : crateName' = c := Option.some.inj hwrites'.crateName_eq
  exact hne (hname.trans hname'.symm)

/-- A run that keeps its log and visualizes into the results directory, one on a crate
    named `functions` after it, and one more. -/
def runs : List (ToolRun MutantStream) :=
  [runOn "a" [("MUTANTS_LOG", "1"), ("PCG_VISUALIZATION_DATA_DIR", "results")],
    runOn "functions" [], runOn "b" []]

/-- A directory with a file that does not parse. -/
def dir : Directory := Finmap.singleton "notes.txt" (.text "no results")

theorem distinctCrates_runs : DistinctCrates runs where
  writes := by
    simp only [runs, List.mem_cons, List.not_mem_nil, or_false, forall_eq_or_imp, forall_eq]
    exact ⟨⟨"a", isCrateName_of_all (by decide), runOn_writesAs (runOn_returns rfl rfl) rfl⟩,
      ⟨"functions", isCrateName_of_all (by decide), runOn_writesAs (runOn_returns rfl rfl) rfl⟩,
      ⟨"b", isCrateName_of_all (by decide), runOn_writesAs (runOn_returns rfl rfl) rfl⟩⟩
  pairwise := by
    simp only [runs, List.pairwise_cons, List.mem_cons, List.not_mem_nil, or_false,
      forall_eq_or_imp, forall_eq, List.Pairwise.nil, and_true, false_implies, implies_true]
    exact ⟨⟨runOn_distinct (by decide) _ _, runOn_distinct (by decide) _ _⟩,
      runOn_distinct (by decide) _ _⟩

theorem functionsStay_runs : FunctionsStay runs dir := by
  right
  simp only [runs, List.pairwise_cons, List.mem_cons, List.not_mem_nil, or_false,
    forall_eq_or_imp, forall_eq, List.Pairwise.nil, and_true, false_implies, implies_true]
  refine ⟨⟨fun _ hvisual => ?_, fun _ hvisual => ?_⟩, fun _ hvisual => ?_⟩ <;>
    cases hvisual.results

theorem noResults_dir : ResultsReader.sample.NoResults dir := by
  intro path contents hlookup
  obtain rfl : path = "notes.txt" := by
    rw [← Finmap.mem_singleton]
    exact Finmap.mem_of_lookup_eq_some hlookup
  rw [dir, Finmap.lookup_singleton_eq] at hlookup
  obtain rfl := Option.some.inj hlookup
  exact .inr (.inr rfl)

end SampleRun

theorem compileResults_sumsUp_sample :
    ∃ results, (compileResults .sample .sorted
        (finalDir SampleRun.runs SampleRun.dir)).lookup compiledPath =
        some (.mutatorResults results) ∧
      SumsUp results ((history SampleRun.runs SampleRun.dir).map World.mutatorResults) ∧
      ∀ order', (compileResults .sample order' (compileResults .sample .sorted
          (finalDir SampleRun.runs SampleRun.dir))).lookup compiledPath =
        some (.mutatorResults results) :=
  compileResults_sumsUp .sample .sorted SampleRun.distinctCrates_runs SampleRun.functionsStay_runs
    SampleRun.noResults_dir

/-! ## Results that are lost -/

namespace SampleRun

/-- A crate whose one function is skipped, visualized into the results directory. -/
def skipVars : List (String × String) :=
  [("PCG_SKIP_FUNCTION", "f0"), ("PCG_VISUALIZATION_DATA_DIR", "results")]

/-- A crate named `functions`, and then one without tested functions whose
    visualization goes to the results directory. -/
def lostRuns : List (ToolRun MutantStream) := [runOn "functions" [], runOn "b" skipVars]

theorem schedule_skip : (runOn "b" skipVars).schedule = .empty := by
  have henv : (runOn "b" skipVars).host.env "PCG_SKIP_FUNCTION" =
      some ((runOn "b" skipVars).host.defPathStr 0) := by decide
  show bodiesSchedule _ _ _ (testedBodies (runOn "b" skipVars).host [⟨0, .fn, .safe⟩] _) = _
  rw [testedBodies, if_pos henv, testedBodies]
  rfl

theorem skip_writesAs : (runOn "b" skipVars).WritesAs "b" := by
  refine runOn_writesAs ?_ rfl
  rw [schedule_skip]
  exact ⟨rfl, .inr rfl⟩

theorem skip_visualizes : (runOn "b" skipVars).Visualizes :=
  ⟨skip_writesAs.completes, by decide⟩

theorem distinctCrates_lostRuns : DistinctCrates lostRuns where
  writes := by
    simp only [lostRuns, List.mem_cons, List.not_mem_nil, or_false, forall_eq_or_imp, forall_eq]
    exact ⟨⟨"functions", isCrateName_of_all (by decide),
        runOn_writesAs (runOn_returns rfl rfl) rfl⟩,
      ⟨"b", isCrateName_of_all (by decide), skip_writesAs⟩⟩
  pairwise := List.pairwise_pair.mpr (runOn_distinct (by decide) [] skipVars)

theorem functions_writesAs : (runOn "functions" []).WritesAs "functions" :=
  runOn_writesAs (runOn_returns rfl rfl) rfl

/-- The results of the first run have the mutation that is tested. -/
theorem mem_results_functions (dir : Directory) :
    mutation.name ∈ ((runOn "functions" []).exec dir).mutatorResults := by
  rw [ToolRun.mutatorResults_exec functions_writesAs.completes, runOn_schedule rfl, steps,
    applySteps_cons]
  exact mem_applySteps (HashMap.mem_orInsert.mpr (.inl rfl))

/-- Those of the second have none. -/
theorem results_skip (dir : Directory) :
    ((runOn "b" skipVars).exec dir).mutatorResults = ∅ := by
  rw [ToolRun.mutatorResults_exec skip_writesAs.completes, schedule_skip]
  rfl

end SampleRun

/-- The visualization of the second run takes the place of the results of the first. -/
theorem not_compileResults_sumsUp : ¬ ∀ (reader : ResultsReader) (order : ReadOrder)
    (runs : List (ToolRun MutantStream)) (dir : Directory), DistinctCrates runs →
    reader.NoResults dir → ∃ results,
      (compileResults reader order (finalDir runs dir)).lookup compiledPath =
        some (.mutatorResults results) ∧
      SumsUp results ((history runs dir).map World.mutatorResults) ∧
      ∀ order', (compileResults reader order'
          (compileResults reader order (finalDir runs dir))).lookup compiledPath =
        some (.mutatorResults results) := by
  intro h
  have hnone : ResultsReader.sample.NoResults ∅ := by
    intro path contents hlookup
    rw [Finmap.lookup_empty] at hlookup
    cases hlookup
  have hdistinct := SampleRun.distinctCrates_lostRuns
  obtain ⟨results, hcompiled, hsums, -⟩ := h .sample .sorted SampleRun.lostRuns ∅ hdistinct hnone
  have hname : SampleRun.mutation.name ∈ results :=
    (hsums.mem_iff _).mpr ⟨_, List.mem_cons_self, SampleRun.mem_results_functions ∅⟩
  rw [compileResults, Finmap.lookup_insert] at hcompiled
  obtain rfl := Contents.mutatorResults.inj (Option.some.inj hcompiled)
  -- a file that is read has the mutation, and it is the last file of one of the runs
  obtain ⟨path, held, hcounted, hheld⟩ := exists_countedResults _ _ hname
  obtain ⟨w, hw, hlast⟩ := mem_history_of_countedResults .sample hdistinct hnone hheld hcounted
  obtain ⟨-, -, hcounted⟩ := countedResults_withOutput hcounted
  have hfinal : finalDir SampleRun.lostRuns ∅ = ((SampleRun.runOn "b" SampleRun.skipVars).exec
    ((SampleRun.runOn "functions" []).exec ∅).resultsDir).resultsDir := rfl
  rw [hfinal] at hcounted
  have hproper := List.forall_mem_cons.mp hdistinct.properName
  have hproper' := (List.forall_mem_cons.mp hproper.2).1
  rcases List.mem_cons.mp hw with rfl | hw
  · -- that of the first run has the names of the visualization
    have hmem := (ToolRun.functionsPath_mem_created_iff hproper.1).mpr
      ⟨SampleRun.functions_writesAs, Finmap.notMem_empty⟩
    rw [ToolRun.getLast?_created_of_functionsPath_mem hproper.1 hmem] at hlast
    obtain rfl := Option.some.inj hlast
    have hother : functionsPath ∉ ((SampleRun.runOn "b" SampleRun.skipVars).exec
        ((SampleRun.runOn "functions" []).exec ∅).resultsDir).created := by
      intro hagain
      obtain ⟨hwrites, -⟩ := (ToolRun.functionsPath_mem_created_iff hproper').mp hagain
      exact absurd (hwrites.unique SampleRun.skip_writesAs) (by decide)
    obtain ⟨itemNames, hnames⟩ :=
      ToolRun.lookup_functionsPath hproper' SampleRun.skip_visualizes hother
    rw [hnames, Option.bind_some] at hcounted
    rw [ResultsReader.sample.fromReader_functions _ _ hcounted] at hheld
    exact absurd hheld Finmap.notMem_empty
  · -- that of the second has its results
    obtain rfl := List.mem_singleton.mp hw
    have hlookup := ToolRun.lookup_last hproper' hlast
    rw [SampleRun.results_skip] at hlookup
    rw [hlookup, Option.bind_some, ResultsReader.sample.fromReader_results] at hcounted
    obtain rfl := Option.some.inj hcounted
    exact absurd hheld Finmap.notMem_empty

end MutationTesting.Driver
