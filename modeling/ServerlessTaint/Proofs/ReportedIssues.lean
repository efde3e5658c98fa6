import ServerlessTaint.Issue
import ServerlessTaint.Proofs.CompletedReports

/-!
# Reports that agree with the results

The issues of an analysis are written to its file of results, counted in the summary, and written again, one
by one, to the report of data flows. So they go through a table three times, and the repository is taken from
the name of a folder that is made from it again. Nothing is lost on the way but the `\r` in the fields
(`reports_agree`).

A natural number is written with ASCII digits, and read back unless it has more digits than an integer may be written
with (`parseInt?_intText`).
-/

namespace ServerlessTaint.Text

open List

/-! ## Runs of ASCII digits -/

variable {c : Char} {cs : List Char}

theorem toNat_of_isDigit (h : c.isDigit) : 48 ≤ c.toNat ∧ c.toNat ≤ 57 :=
  Char.isDigit_iff_toNat.1 h

theorem digitValue?_of_isDigit (h : c.isDigit) : digitValue? c = some (c.toNat - 48) := by
  have hrange := toNat_of_isDigit h
  rw [digitValue?, if_pos (by omega), if_pos h]

theorem ne_of_isDigit {d : Char} (h : c.isDigit) (hd : d.isDigit = false) : c ≠ d := by
  rintro rfl
  simp [h] at hd

theorem not_isBlank_of_isDigit (h : c.isDigit) : isBlank c = false := by
  have hrange := toNat_of_isDigit h
  simp only [isBlank, Bool.or_eq_false_iff, Bool.and_eq_false_iff, decide_eq_false_iff_not, beq_eq_false_iff_ne]
  omega

/-- Each digit of a run stands for its value. -/
theorem digitRun?_of_isDigit (h : ∀ c ∈ cs, c.isDigit) (hne : cs ≠ []) :
    digitRun? cs = some (cs.map fun c => c.toNat - 48) := by
  induction cs with
  | nil => exact absurd rfl hne
  | cons c rest ih =>
    have hc := digitValue?_of_isDigit (h c mem_cons_self)
    cases rest with
    | nil => simp [digitRun?, hc]
    | cons d rest =>
      have hd : d ≠ '_' := ne_of_isDigit (h d (by simp)) (by decide)
      have hrest := ih (fun x hx => h x (mem_cons_of_mem _ hx)) (cons_ne_nil d rest)
      rw [digitRun?.eq_4 c (d :: rest) (by simp) (by rintro _ ⟨⟩; exact hd rfl), hc, hrest]
      rfl

theorem ofDigits_eq (cs : List Char) : ofDigits (cs.map fun c => c.toNat - 48) = Nat.ofDigitChars 10 cs 0 := by
  rw [ofDigits, foldl_map, Nat.ofDigitChars_eq_foldl]
  rfl

theorem trim_of_isDigit (h : ∀ c ∈ cs, c.isDigit) : trim cs = cs := by
  have hkeep : ∀ xs : List Char, (∀ c ∈ xs, c.isDigit) → xs.dropWhile isBlank = xs := by
    intro xs hxs
    cases xs with
    | nil => rfl
    | cons c rest => rw [dropWhile_cons_of_neg (by simp [not_isBlank_of_isDigit (hxs c mem_cons_self)])]
  rw [trim, trimStart, hkeep cs h, trimEnd, hkeep _ fun c hc => h c (mem_reverse.1 hc), reverse_reverse]

/-! ## Natural numbers -/

theorem toList_intText (n : Nat) : (Value.intText n).toList = Nat.toDigits 10 n := by
  rw [Value.intText, if_neg (by omega), String.toList_ofList, Int.natAbs_natCast]

theorem isDigit_of_mem_intText {n : Nat} (h : c ∈ (Value.intText n).toList) : c.isDigit := by
  rw [toList_intText] at h
  exact Nat.isDigit_of_mem_toDigits (by decide) (by decide) h

/-- A number that does not have too many digits is read as it was written. -/
theorem parseInt?_intText {n : Nat} (h : (Nat.toDigits 10 n).length ≤ maxIntegerDigits) :
    parseInt? (Value.intText n).toList = some (n : Int) := by
  have hdigits : ∀ c ∈ (Value.intText n).toList, c.isDigit := fun c hc => isDigit_of_mem_intText hc
  have hne : (Value.intText n).toList ≠ [] := by
    rw [toList_intText]
    exact ne_nil_of_length_pos Nat.length_toDigits_pos
  have hnat : parseNat? (Value.intText n).toList = some n := by
    rw [parseNat?, digitRun?_of_isDigit hdigits hne, Option.bind_eq_bind, Option.bind_some, ofDigits_eq,
      toList_intText, Nat.ofDigitChars_ten_toDigits, length_map]
    exact if_pos h
  rw [parseInt?, trim_of_isDigit hdigits]
  split
  · rename_i heq
    exact absurd rfl (ne_of_isDigit (hdigits '-' (by simp [heq])) (by decide))
  · rename_i heq
    exact absurd rfl (ne_of_isDigit (hdigits '+' (by simp [heq])) (by decide))
  · rw [hnat]
    rfl

end ServerlessTaint.Text

namespace ServerlessTaint

open List

/-! ## Files of results -/

namespace Issues

def row (entry : Nat × Issue) : List String := Value.intText entry.1 :: fields entry.2

theorem csvText_eq (issues : Issues) :
    csvText issues = String.join ((fieldNames :: (sorted issues).map row).map Csv.rowText) := by
  rw [csvText, map_cons, map_map]
  rfl

theorem length_row (entry : Nat × Issue) : (row entry).length = fieldNames.length := rfl

def recordOf (entry : Nat × Issue) : Csv.Record := Csv.Record.ofRow fieldNames ((row entry).map Text.readAsText)

/-- The file of results is read with a record for each issue. -/
theorem sheet_csvText (issues : Issues) :
    Csv.Sheet.ofText (Text.readAsText (csvText issues)) = ⟨some fieldNames, (sorted issues).map recordOf⟩ := by
  have hnames : fieldNames.map Text.readAsText = fieldNames := by decide
  have hne : ∀ fields ∈ (sorted issues).map row, fields ≠ [] := by
    intro fields hfields
    obtain ⟨entry, -, rfl⟩ := mem_map.1 hfields
    exact cons_ne_nil _ _
  rw [csvText_eq, Csv.sheet_written fieldNames hne, hnames, map_map]
  rfl

theorem length_sorted (issues : Issues) : (sorted issues).length = issues.length := length_mergeSort issues

theorem length_fields (entry : Nat × Issue) : fieldNames.length = ((row entry).map Text.readAsText).length := by
  rw [length_map, length_row]

theorem get_recordOf (entry : Nat × Issue) :
    (recordOf entry).get "Issue" = .ok (some (Text.readAsText (Value.intText entry.1))) := by
  refine Csv.Record.get_ofRow (by decide) (length_fields entry) (show fieldNames[0]? = some "Issue" from rfl) ?_
  rw [getElem?_map, row, getElem?_cons_zero, Option.map_some]

/-- With the repository before its fields, the record of an issue is written as one row. -/
theorem rowText_recordOf (repository : String) (entry : Nat × Issue) :
    Csv.Record.rowText ("Repository" :: fieldNames)
        { recordOf entry with values := Keyed.setAll [("Repository", some repository)] (recordOf entry).values } =
      .ok (Csv.rowText (repository :: (row entry).map Text.readAsText)) := by
  have hlength := length_fields entry
  have hrecord : { recordOf entry with
      values := Keyed.setAll [("Repository", some repository)] (recordOf entry).values } =
      Csv.Record.ofRow ("Repository" :: fieldNames) (repository :: (row entry).map Text.readAsText) := by
    rw [recordOf, Csv.Record.ofRow_eq (by decide) hlength, Csv.Record.ofRow_eq (by decide) (by simp [hlength]),
      Keyed.setAll_eq_append]
    · rfl
    · exact (show ("Repository" :: fieldNames).Nodup by decide)
  rw [hrecord]
  exact Csv.Record.rowText_ofRow (by decide) (by simp [hlength])

end Issues

namespace Report

open FileTree (SameBesides)

def analysisOf (repository : String) : String := analysisStart ++ "-" ++ repository

theorem repositoryOf_analysisOf (repository : String) : repositoryOf (analysisOf repository) = repository := by
  have htext : (analysisOf repository).toList = (analysisStart ++ "-").toList ++ repository.toList := by
    rw [analysisOf, String.toList_append]
  have hstart : (analysisStart ++ "-").toList.isPrefixOf (analysisOf repository).toList := by
    rw [htext, isPrefixOf_iff_prefix]
    exact prefix_append _ _
  rw [repositoryOf, if_pos hstart, htext, drop_left, String.ofList_toList]

/-- The files of results are those of issues that were found. For some repositories there may be none, but
not for all. No repository has a `\r` in its name, and no number of issues is too long to be read. -/
structure Recorded (tree : FileTree) (base : String) (repositories : List String)
    (results : String → Option Issues) : Prop where
  distinct : repositories.Nodup
  plain : ∀ repository ∈ repositories, '\r' ∉ repository.toList
  written : ∀ repository ∈ repositories, ∀ issues, results repository = some issues →
    tree.stored (resultsPath base (analysisOf repository)) = .ok (Issues.csvText issues)
  absent : ∀ repository ∈ repositories, results repository = none →
    tree.pathExists (resultsPath base (analysisOf repository)) = false
  present : ∃ repository ∈ repositories, (results repository).isSome
  countable : ∀ repository ∈ repositories, ∀ issues, results repository = some issues →
    (Nat.toDigits 10 issues.length).length ≤ Text.maxIntegerDigits

def completed? (tree : FileTree) (base : String) (results : String → Option Issues) (repository : String) :
    Option Issues :=
  if completionFiles.all (resultFiles tree base (analysisOf repository)).contains then results repository else none

section

variable {tree : FileTree} {base folder : String} {repositories : List String} {results : String → Option Issues}
  {repository : String} {issues : Issues} {path file : String}

theorem results_of_completed (h : completed? tree base results repository = some issues) :
    results repository = some issues := by
  rw [completed?] at h
  split at h
  · exact h
  · cases h

/-! ## The summary -/

theorem issueCount_of_stored (h : tree.stored (Path.join path resultsFile) = .ok (Issues.csvText issues)) :
    issueCount tree path = .ok issues.length := by
  have hget : ∀ record ∈ (Issues.sorted issues).map Issues.recordOf, ∃ value, record.get "Issue" = .ok value := by
    intro record hrecord
    obtain ⟨entry, -, rfl⟩ := mem_map.1 hrecord
    exact ⟨_, Issues.get_recordOf entry⟩
  obtain ⟨values, hvalues, hlength⟩ := exists_mapM hget
  rw [issueCount, sheet_of_stored h, ok_bind, Issues.sheet_csvText]
  simp only [hvalues, ok_bind, hlength, length_map, Issues.length_sorted]
  rfl

theorem not_stored_of_absent (h : tree.pathExists path = false) : ∃ fault, tree.stored path = .error fault := by
  rw [FileTree.pathExists] at h
  rw [FileTree.stored]
  cases hlookup : tree.lookup path with
  | ok found => rw [hlookup] at h; cases h
  | error fault => exact ⟨fault, rfl⟩

section

variable (h : Recorded tree base repositories results) (hmem : repository ∈ repositories)

include h hmem

theorem rowOf_analysisOf : rowOf tree base (analysisOf repository) =
    repository :: (completed? tree base results repository).elim ["Error", "N/A"] fun issues =>
      ["Completed", Value.intText issues.length] := by
  rw [rowOf, summaryRow, repositoryOf_analysisOf, completed?]
  by_cases hfiles : completionFiles.all (resultFiles tree base (analysisOf repository)).contains
  · rw [if_pos hfiles, if_pos hfiles]
    cases hresults : results repository with
    | none =>
      obtain ⟨fault, hfault⟩ := not_stored_of_absent (h.absent repository hmem hresults)
      rw [resultsPath] at hfault
      rw [issueCount, sheet, FileTree.read, hfault]
      rfl
    | some issues =>
      rw [issueCount_of_stored (h.written repository hmem issues hresults)]
      rfl
  · rw [if_neg hfiles, if_neg hfiles]
    rfl

/-! ## The names of the fields -/

theorem resultsText?_analysisOf : resultsText? tree base (analysisOf repository) =
    (results repository).map fun issues => Text.readAsText (Issues.csvText issues) := by
  rw [resultsText?_eq]
  cases hresults : results repository with
  | none =>
    obtain ⟨fault, hfault⟩ := not_stored_of_absent (h.absent repository hmem hresults)
    rw [hfault]
    rfl
  | some issues =>
    rw [h.written repository hmem issues hresults]
    rfl

end

theorem resultsAreFiles (h : Recorded tree base repositories results) :
    ResultsAreFiles tree base (repositories.map analysisOf) := by
  intro analysis hanalysis
  obtain ⟨repository, hmem, rfl⟩ := mem_map.1 hanalysis
  intro hfolder
  obtain ⟨place, hplace⟩ := FileTree.isFolder_iff.1 hfolder
  cases hresults : results repository with
  | none =>
    have habsent := h.absent repository hmem hresults
    rw [FileTree.pathExists, hplace] at habsent
    cases habsent
  | some issues =>
    have hwritten := h.written repository hmem issues hresults
    rw [FileTree.stored, hplace] at hwritten
    cases hwritten

section

variable (h : Ready tree base folder (repositories.map analysisOf)) (hrecorded : Recorded tree base repositories results)

include h hrecorded

/-- The names of the fields are those of an issue. -/
theorem resultNames_of_recorded : resultNames tree base (repositories.map analysisOf) = .ok Issues.fieldNames := by
  have hnames : ∀ issues : Issues, (Csv.Sheet.ofText (Text.readAsText (Issues.csvText issues))).names =
      some Issues.fieldNames := fun issues => by rw [Issues.sheet_csvText]
  rw [resultNames_eq h.results (resultsAreFiles hrecorded)]
  cases hnaming : namingText? tree base (repositories.map analysisOf) with
  | none =>
    obtain ⟨repository, hmem, hsome⟩ := hrecorded.present
    obtain ⟨issues, hissues⟩ := Option.isSome_iff_exists.1 hsome
    have htext := resultsText?_analysisOf hrecorded hmem
    rw [hissues, Option.map_some] at htext
    have hhead := find?_eq_none.1 hnaming _
      (mem_filterMap.2 ⟨_, mem_map_of_mem hmem, htext⟩)
    -- A text that begins with an empty line would have no names.
    rcases Csv.names_cases (Text.readAsText (Issues.csvText issues)) with ⟨-, hno⟩ | ⟨-, hno⟩ | ⟨-, hne, -⟩
    · rw [hnames] at hno
      cases hno
    · rw [hnames] at hno
      cases hno
    · simp [hne] at hhead
  | some text =>
    obtain ⟨analysis, hanalysis, htext⟩ := mem_filterMap.1 (mem_of_find?_eq_some hnaming)
    obtain ⟨repository, hmem, rfl⟩ := mem_map.1 hanalysis
    rw [resultsText?_analysisOf hrecorded hmem] at htext
    obtain ⟨issues, -, rfl⟩ := Option.map_eq_some_iff.1 htext
    rw [Option.bind_some, hnames]
    rfl

end

/-! ## The report of data flows -/

def flowRow (repository : String) (entry : Nat × Issue) : List String :=
  repository :: (Issues.row entry).map Text.readAsText

def flowRows (tree : FileTree) (base : String) (results : String → Option Issues) (repository : String) :
    List (List String) :=
  ((completed? tree base results repository).elim [] Issues.sorted).map (flowRow repository)

theorem readAsText_intText (n : Nat) : Text.readAsText (Value.intText n) = Value.intText n := by
  refine Text.readAsText_of_not_mem fun hreturn => ?_
  exact absurd (Text.isDigit_of_mem_intText hreturn) (by decide)

/-- A repository without a number of issues is a fault. -/
theorem repositoryWithIssues?_recordOf (h : Recorded tree base repositories results) (hmem : repository ∈ repositories) :
    repositoryWithIssues? (recordOf tree base (analysisOf repository)) =
      (completed? tree base results repository).elim (.error (.badValue none)) fun issues =>
        .ok (if 0 < issues.length then some repository else none) := by
  have hrow := rowOf_analysisOf h hmem
  have hname := get_repository_recordOf tree base (analysisOf repository)
  rw [repositoryOf_analysisOf, Text.readAsText_of_not_mem (h.plain repository hmem)] at hname
  have hcount : ∀ {count}, (rowOf tree base (analysisOf repository))[2]? = some count → _ := fun hcount =>
    get_recordOf tree base (analysisOf repository) (show summaryNames[2]? = some "Individual Data Flows" from rfl) hcount
  cases hcompleted : completed? tree base results repository with
  | none =>
    rw [hcompleted] at hrow
    have hplain : Text.readAsText "N/A" = "N/A" := by decide
    have hparse : Text.parseInt? "N/A".toList = none := by decide
    simp only [repositoryWithIssues?, hcount (by rw [hrow]; rfl), ok_bind, hplain, hparse]
    rfl
  | some issues =>
    rw [hcompleted] at hrow
    have hparse := Text.parseInt?_intText (h.countable repository hmem issues (results_of_completed hcompleted))
    simp only [repositoryWithIssues?, hcount (by rw [hrow]; rfl), ok_bind, readAsText_intText, hparse, Option.elim_some]
    by_cases hpositive : 0 < issues.length
    · rw [if_pos (by omega), if_pos hpositive, hname]
      rfl
    · rw [if_neg (by omega), if_neg hpositive]
      rfl

section

variable (h : Ready tree base folder (repositories.map analysisOf)) (hrecorded : Recorded tree base repositories results)
  (hmem : repository ∈ repositories) (hfile : Edit.KeptByWrites (SameBesides reportFiles tree) file)

include h hrecorded hmem hfile

/-- The issues of a repository are added in the order of their numbers. -/
theorem appends_appendIssues (hissues : results repository = some issues) :
    Edit.Appends (SameBesides reportFiles tree) file
      (appendIssues base file ("Repository" :: Issues.fieldNames) repository)
      (String.join (((Issues.sorted issues).map (flowRow repository)).map Csv.rowText)) := by
  have hsheet : ∀ t, SameBesides reportFiles tree t → sheet t (resultsPath base (analysisOf repository)) =
      .ok ⟨some Issues.fieldNames, (Issues.sorted issues).map Issues.recordOf⟩ := by
    intro t ht
    have hstored := (h.stored_eq ht (mem_map_of_mem hmem)).trans
      (hrecorded.written repository hmem issues hissues)
    rw [sheet_of_stored hstored, Issues.sheet_csvText]
  rw [map_map]
  refine Edit.Appends.after_ask hsheet ?_
  refine Edit.appends_forM_map fun entry _ => ?_
  exact Edit.Appends.after_ask (fun _ _ => Issues.rowText_recordOf repository entry) (Edit.appends_append hfile _)

/-- A repository adds its rows to the report of data flows. -/
theorem appends_appendRow : Edit.Appends (SameBesides reportFiles tree) file
      (appendRow base file ("Repository" :: Issues.fieldNames) (recordOf tree base (analysisOf repository)))
      (String.join ((flowRows tree base results repository).map Csv.rowText)) := by
  have hask := repositoryWithIssues?_recordOf hrecorded hmem
  cases hcompleted : completed? tree base results repository with
  | none =>
    -- The row is passed over, after the fault that there is no number.
    rw [hcompleted, Option.elim_none] at hask
    intro t old ht hold
    refine ⟨t, ?_, ht, ?_⟩
    · refine (Edit.run_tryCatch_error (Edit.run_bind_error (by rw [Edit.run_ask, hask]))).trans ?_
      exact Edit.run_bind_ok (by rw [Edit.run_ask, get_repository_recordOf])
    · rw [hold, flowRows, hcompleted]
      simp
  | some issues =>
    rw [hcompleted, Option.elim_some] at hask
    rw [flowRows, hcompleted]
    refine Edit.Appends.tryCatch (Edit.Appends.after_ask (fun _ _ => hask) ?_) _
    by_cases hpositive : 0 < issues.length
    · rw [if_pos hpositive]
      exact appends_appendIssues h hrecorded hmem hfile (results_of_completed hcompleted)
    · have hnone : issues = [] := eq_nil_of_length_eq_zero (by omega)
      have hsorted : Issues.sorted [] = [] := mergeSort_nil
      rw [hnone, Option.elim_some, hsorted]
      exact Edit.appends_nothing

end

theorem join_flatMap {α : Type} (xs : List α) (table : α → List (List String)) :
    String.join (xs.map fun x => String.join ((table x).map Csv.rowText)) =
      String.join ((xs.flatMap table).map Csv.rowText) := by
  induction xs with
  | nil => rfl
  | cons x xs ih => rw [map_cons, String.join_cons, ih, flatMap_cons, map_append, String.join_append]

/-- The table of data flows: the rows of the repositories one after the other. -/
def flowsTable (tree : FileTree) (base : String) (results : String → Option Issues) (repositories : List String) :
    List (List String) :=
  ("Repository" :: Issues.fieldNames) :: repositories.flatMap (flowRows tree base results)

/-- Both reports are written, each with its table. -/
theorem exists_writeAll (h : Ready tree base folder (repositories.map analysisOf))
    (hrecorded : Recorded tree base repositories results) :
    ∃ tree', (writeAll base folder).run.run tree = (.ok (), tree') ∧
      tree'.stored (Path.join folder summaryFile) =
        .ok (String.join ((summaryTable tree base (repositories.map analysisOf)).map Csv.rowText)) ∧
      tree'.stored (Path.join folder dataFlowsFile) =
        .ok (String.join ((flowsTable tree base results repositories).map Csv.rowText)) := by
  obtain ⟨mid, hmid, hsame, hsummary⟩ := exists_writeSummary h
  have hready := h.kept hsame
  obtain ⟨place, hplace⟩ := FileTree.isFolder_iff.1 h.reports
  have hnames := (resultNames_kept h (resultsAreFiles hrecorded) hsame).trans (resultNames_of_recorded h hrecorded)
  have hfile : Edit.KeptByWrites (SameBesides reportFiles tree) (Path.join folder dataFlowsFile) :=
    SameBesides.keptByWrites (FileTree.leadsTo_of_lookup hplace) (by decide) (by decide)
  obtain ⟨started, hstarted⟩ := exists_write_dataFlows hready (Csv.rowText ("Repository" :: Issues.fieldNames))
  obtain ⟨tree', hrun, -, hflows⟩ := Edit.appends_forM_map
    (fun repository hmem => appends_appendRow h hrecorded hmem hfile) started _
    (hfile mid started _ hsame hstarted) (FileTree.stored_write hstarted)
  have hrunFlows : (writeDataFlows base folder).run.run mid = (.ok (), tree') := by
    rw [run_writeDataFlows hready hnames hsummary hstarted, map_map]
    exact hrun
  refine ⟨tree', (Edit.run_bind_ok hmid).trans hrunFlows, ?_, ?_⟩
  · rw [stored_summary_of_writeDataFlows hready hrunFlows, hsummary]
  · rw [hflows, join_flatMap, flowsTable, map_cons, String.join_cons]

/-! ## Agreement -/

/-- Reading leaves a row of data flows as it is. -/
theorem map_readAsText_flowRow (hplain : '\r' ∉ repository.toList) (entry : Nat × Issue) :
    (flowRow repository entry).map Text.readAsText = flowRow repository entry := by
  have hfields : ((Issues.row entry).map Text.readAsText).map Text.readAsText =
      (Issues.row entry).map Text.readAsText := by
    rw [map_map]
    exact map_congr_left fun field _ => Text.readAsText_readAsText field
  rw [flowRow, map_cons, Text.readAsText_of_not_mem hplain, hfields]

theorem map_readAsText_flowRows (hplain : '\r' ∉ repository.toList) :
    (flowRows tree base results repository).map (·.map Text.readAsText) = flowRows tree base results repository := by
  rw [flowRows, map_map]
  exact map_congr_left fun entry _ => map_readAsText_flowRow hplain entry

/-- Among the rows of distinct repositories, those of one repository are found by its name. -/
theorem filter_flowRows (hdistinct : repositories.Nodup) (hmem : repository ∈ repositories) :
    (repositories.flatMap (flowRows tree base results)).filter (fun row => row.head? = some repository) =
      flowRows tree base results repository := by
  have hown : (flowRows tree base results repository).filter (fun row => row.head? = some repository) =
      flowRows tree base results repository := by
    refine filter_eq_self.2 fun row hrow => ?_
    obtain ⟨entry, -, rfl⟩ := mem_map.1 hrow
    simp [flowRow]
  have hother : ∀ other, other ≠ repository →
      (flowRows tree base results other).filter (fun row => row.head? = some repository) = [] := by
    intro other hne
    refine filter_eq_nil_iff.2 fun row hrow => ?_
    obtain ⟨entry, -, rfl⟩ := mem_map.1 hrow
    simpa [flowRow] using hne
  induction repositories with
  | nil => cases hmem
  | cons first rest ih =>
    rw [nodup_cons] at hdistinct
    rw [flatMap_cons, filter_append]
    rcases mem_cons.1 hmem with rfl | hrest
    · have hnone :
          (rest.flatMap (flowRows tree base results)).filter (fun row => row.head? = some repository) = [] := by
        rw [filter_flatMap, flatMap_eq_nil_iff]
        intro other hin
        exact hother other fun heq => hdistinct.1 (heq ▸ hin)
      rw [hown, hnone, append_nil]
    · rw [hother first fun heq => hdistinct.1 (heq ▸ hrest), nil_append, ih hdistinct.2 hrest]

/-- The rows of the summary that count issues are those of the analyses that came to an end. -/
theorem mem_summary_iff (h : Recorded tree base repositories results) {count : String} :
    [repository, "Completed", count] ∈
        (summaryTable tree base (repositories.map analysisOf)).map (·.map Text.readAsText) ↔
      repository ∈ repositories ∧
        ∃ issues, completed? tree base results repository = some issues ∧ count = Value.intText issues.length := by
  have hrow : ∀ other ∈ repositories,
      ((rowOf tree base (analysisOf other)).map Text.readAsText = [repository, "Completed", count] ↔
        other = repository ∧
          ∃ issues, completed? tree base results other = some issues ∧ count = Value.intText issues.length) := by
    intro other hmem
    have hother := Text.readAsText_of_not_mem (h.plain other hmem)
    cases hcompleted : completed? tree base results other with
    | none =>
      have herror : Text.readAsText "Error" ≠ "Completed" := by decide
      simp [rowOf_analysisOf h hmem, hcompleted, herror]
    | some issues =>
      have hword : Text.readAsText "Completed" = "Completed" := by decide
      simp [rowOf_analysisOf h hmem, hcompleted, hother, hword, readAsText_intText, eq_comm]
  have hheader : summaryNames.map Text.readAsText ≠ [repository, "Completed", count] := by
    rw [map_readAsText_summaryNames]
    simp [summaryNames]
  rw [summaryTable, map_cons, mem_cons, map_map, map_map, mem_map]
  simp only [Function.comp_apply]
  constructor
  · rintro (hfirst | ⟨other, hmem, heq⟩)
    · exact absurd hfirst.symm hheader
    · obtain ⟨rfl, hissues⟩ := (hrow other hmem).1 heq
      exact ⟨hmem, hissues⟩
  · rintro ⟨hmem, hissues⟩
    exact .inr ⟨repository, hmem, (hrow repository hmem).2 ⟨rfl, hissues⟩⟩

/-- Both reports are written. A repository is marked as completed if its analysis came to an end and its
issues were written. The summary counts these issues, and the report of data flows has them as its rows for
the repository, in the order of their numbers and with their fields. -/
theorem reports_agree (h : Ready tree base folder (repositories.map analysisOf))
    (hrecorded : Recorded tree base repositories results) :
    ∃ tree' summary flows,
      (writeAll base folder).run.run tree = (.ok (), tree') ∧
      tree'.read (Path.join folder summaryFile) = .ok summary ∧
      tree'.read (Path.join folder dataFlowsFile) = .ok flows ∧
      (Csv.rows flows).head? = some ("Repository" :: Issues.fieldNames) ∧
      (∀ repository ∈ repositories, ∀ issues, results repository = some issues →
        completionFiles.all (resultFiles tree base (analysisOf repository)).contains →
        [repository, "Completed", Value.intText issues.length] ∈ Csv.rows summary) ∧
      ∀ repository count, [repository, "Completed", count] ∈ Csv.rows summary →
        ∃ issues, results repository = some issues ∧ count = Value.intText issues.length ∧
          (Csv.rows flows).tail.filter (fun row => row.head? = some repository) =
            (Issues.sorted issues).map fun entry =>
              repository :: Value.intText entry.1 :: (Issues.fields entry.2).map Text.readAsText := by
  obtain ⟨tree', hrun, hsummary, hflows⟩ := exists_writeAll h hrecorded
  have hnames : ("Repository" :: Issues.fieldNames).map Text.readAsText = "Repository" :: Issues.fieldNames := by
    decide
  have hrows : ((flowsTable tree base results repositories).map (·.map Text.readAsText)) =
      flowsTable tree base results repositories := by
    have hrest : repositories.flatMap (fun r => (flowRows tree base results r).map (·.map Text.readAsText)) =
        repositories.flatMap (flowRows tree base results) :=
      List.flatMap_congr fun repository hmem => map_readAsText_flowRows (hrecorded.plain repository hmem)
    rw [flowsTable, List.map_cons, hnames, List.map_flatMap, hrest]
  refine ⟨tree', _, _, hrun, by rw [FileTree.read, hsummary]; rfl, by rw [FileTree.read, hflows]; rfl, ?_, ?_, ?_⟩
  · rw [Csv.rows_written, hrows]
    rfl
  · intro repository hmem issues hissues hfiles
    rw [Csv.rows_written, mem_summary_iff hrecorded]
    exact ⟨hmem, issues, by rw [completed?, if_pos hfiles, hissues], rfl⟩
  · intro repository count hmarked
    rw [Csv.rows_written, mem_summary_iff hrecorded] at hmarked
    obtain ⟨hmem, issues, hcompleted, hcount⟩ := hmarked
    refine ⟨issues, results_of_completed hcompleted, hcount, ?_⟩
    rw [Csv.rows_written, hrows, flowsTable, List.tail_cons, filter_flowRows hrecorded.distinct hmem, flowRows,
      hcompleted]
    refine List.map_congr_left fun entry _ => ?_
    rw [flowRow, Issues.row, List.map_cons, readAsText_intText]

end

/-! ## An example of agreement -/

def quotedIssues : Issues := [(1, { code := some "5001", message := some "a \"b\",\nc" }), (2, {})]

/-- The analysis of a repository with a comma in its name came to an end with these issues, and that of
another one left nothing. -/
def quotedResults (repository : String) : Option Issues := if repository = "b,c" then some quotedIssues else none

def quotedTree : FileTree :=
  let results := ["t", "cloudflow-analysis-b,c", "pysa-runs"]
  FileTree.putFile (results ++ ["taint-output.json"]) ""
    (FileTree.putFile (results ++ ["taint-metadata.json"]) ""
      (FileTree.putFile (results ++ [resultsFile]) (Issues.csvText quotedIssues)
        ((FileTree.empty.putFolders ["t", "cloudflow-analysis-a", "pysa-runs"]).putFolders ["t", "reports"])))

theorem ready_quotedTree : Ready quotedTree "/t" "/t/reports" (["a", "b,c"].map analysisOf) where
  listed := by
    refine analysisFolders_eq_ok_iff.2 ⟨["t"], eq_ok_of_toOption (by decide +kernel), ?_⟩
    rw [FileTree.names_eq, filter_sortTexts, sortTexts_of_pairwise] <;> decide +kernel
  results := by decide +kernel
  reports := by decide +kernel
  writable := by decide +kernel

theorem quotedResults_eq_some {repository : String} {issues : Issues} (h : quotedResults repository = some issues) :
    repository = "b,c" ∧ issues = quotedIssues := by
  unfold quotedResults at h
  split at h
  · rename_i hrepository
    exact ⟨hrepository, by simpa using h.symm⟩
  · cases h

theorem recorded_quotedTree : Recorded quotedTree "/t" ["a", "b,c"] quotedResults where
  distinct := by decide
  plain := by decide
  written := by
    intro repository hmem issues hissues
    obtain ⟨rfl, rfl⟩ := quotedResults_eq_some hissues
    exact FileTree.stored_eq_ok_iff.2
      ⟨["t", "cloudflow-analysis-b,c", "pysa-runs", resultsFile], eq_ok_of_toOption (by decide +kernel), rfl⟩
  absent := by decide +kernel
  present := by decide
  countable := by
    intro repository hmem issues hissues
    obtain ⟨rfl, rfl⟩ := quotedResults_eq_some hissues
    decide +kernel

theorem completionFiles_quotedTree :
    completionFiles.all (resultFiles quotedTree "/t" (analysisOf "b,c")).contains := by
  have hlookup : quotedTree.lookup (resultsOf "/t" (analysisOf "b,c")) =
      .ok (["t", "cloudflow-analysis-b,c", "pysa-runs"], .folder) := eq_ok_of_toOption (by decide +kernel)
  have hfiles : ∀ name ∈ completionFiles,
      (quotedTree.at? (["t", "cloudflow-analysis-b,c", "pysa-runs"] ++ [name])).isSome := by decide +kernel
  rw [resultFiles, FileTree.list_eq_ok_iff.2 ⟨_, hlookup, rfl⟩, all_eq_true]
  intro name hname
  exact contains_iff_mem.2 (FileTree.mem_names_iff.2 (hfiles name hname))

/-- The commas, the quotes and the line end come through both reports. -/
theorem quoted_reports_agree :
    ∃ tree' summary flows,
      (writeAll "/t" "/t/reports").run.run quotedTree = (.ok (), tree') ∧
      tree'.read "/t/reports/cloudflow_summary_report.csv" = .ok summary ∧
      tree'.read "/t/reports/cloudflow_data_flows_report.csv" = .ok flows ∧
      ["b,c", "Completed", "2"] ∈ Csv.rows summary ∧
      (Csv.rows flows).tail.filter (fun row => row.head? = some "b,c") =
        [["b,c", "1"] ++ List.replicate 4 Issues.missing ++ ["5001", "a \"b\",\nc"],
          ["b,c", "2"] ++ List.replicate 6 Issues.missing] := by
  obtain ⟨tree', summary, flows, hrun, hsummary, hflows, -, hmarked, hrows⟩ :=
    reports_agree ready_quotedTree recorded_quotedTree
  have hcompleted := hmarked "b,c" (by decide) quotedIssues rfl completionFiles_quotedTree
  refine ⟨tree', summary, flows, hrun, hsummary, hflows, hcompleted, ?_⟩
  obtain ⟨issues, hissues, -, hfilter⟩ := hrows "b,c" _ hcompleted
  obtain ⟨-, rfl⟩ := quotedResults_eq_some hissues
  have hsorted : Issues.sorted quotedIssues = quotedIssues := List.mergeSort_of_pairwise (by decide)
  rw [hfilter, hsorted]
  decide +kernel

end Report

end ServerlessTaint
