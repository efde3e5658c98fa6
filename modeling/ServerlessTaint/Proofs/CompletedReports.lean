import Mathlib.Data.List.Basic
import ServerlessTaint.Proofs.FolderContents
import ServerlessTaint.Proofs.WrittenTables
import ServerlessTaint.Report

/-!
# The files of reports

Writing reports changes the two reports and nothing else. The summary gets one row for each folder of an
analysis, made from what stands in its folder of results (`exists_writeSummary`). Whether the report of data
flows can be written depends on the names of the fields alone, which are taken from the first file of
results that does not begin with an empty line.
-/

namespace ServerlessTaint.Report

open List Edit
open FileTree (SameBesides)

def reportFiles : List String := [summaryFile, dataFlowsFile]

/-- The files are ready for the reports: the folders of analyses are the given ones, each has its folder of
results, and the reports can be written to their folder. -/
structure Ready (tree : FileTree) (base folder : String) (analyses : List String) : Prop where
  listed : analysisFolders tree base = .ok analyses
  results : ∀ analysis ∈ analyses, tree.isFolder (resultsOf base analysis)
  reports : tree.isFolder folder
  writable : ∀ name ∈ reportFiles, ¬ tree.isFolder (Path.join folder name)

def resultFiles (tree : FileTree) (base analysis : String) : List String :=
  (tree.list (resultsOf base analysis)).toOption.getD []

def rowOf (tree : FileTree) (base analysis : String) : List String :=
  summaryRow tree base analysis (resultFiles tree base analysis)

def resultsPath (base analysis : String) : String := Path.join (resultsOf base analysis) resultsFile

section

variable {tree tree' : FileTree} {base folder : String} {analyses : List String}

/-! ## What reports leave as it is -/

theorem analysisFolders_eq_ok_iff :
    analysisFolders tree base = .ok analyses ↔
      ∃ place, tree.lookup base = .ok (place, .folder) ∧
        (tree.names place).filter (fun name => analysisStart.toList.isPrefixOf name.toList) = analyses := by
  rw [analysisFolders, bind_eq_ok_iff]
  constructor
  · rintro ⟨found, hfound, h⟩
    obtain ⟨place, hplace, rfl⟩ := FileTree.list_eq_ok_iff.1 hfound
    cases h
    exact ⟨place, hplace, rfl⟩
  · rintro ⟨place, hplace, rfl⟩
    exact ⟨_, FileTree.list_eq_ok_iff.2 ⟨place, hplace, rfl⟩, rfl⟩

theorem not_analysis_of_mem : ∀ name ∈ reportFiles, analysisStart.toList.isPrefixOf name.toList = false := by
  decide +kernel

/-- The files stay ready when reports are written. -/
theorem Ready.kept (h : Ready tree base folder analyses) (hsame : SameBesides reportFiles tree tree') :
    Ready tree' base folder analyses where
  listed := by
    obtain ⟨place, hplace, rfl⟩ := analysisFolders_eq_ok_iff.1 h.listed
    exact analysisFolders_eq_ok_iff.2
      ⟨place, hsame.lookup_folder hplace, hsame.listed place _ not_analysis_of_mem⟩
  results := fun analysis hmem => by
    rw [hsame.isFolder_eq]
    exact h.results analysis hmem
  reports := by
    rw [hsame.isFolder_eq]
    exact h.reports
  writable := fun name hname => by
    rw [hsame.isFolder_eq]
    exact h.writable name hname

variable {place : Place} {analysis file text : String}

section

variable (h : Ready tree base folder analyses) (hsame : SameBesides reportFiles tree tree') (hmem : analysis ∈ analyses)

include h hmem

theorem Ready.exists_place : ∃ place, tree.lookup (resultsOf base analysis) = .ok (place, .folder) :=
  FileTree.isFolder_iff.1 (h.results analysis hmem)

include hsame

/-- A file of results stays as it is. -/
theorem Ready.stored_eq : tree'.stored (resultsPath base analysis) = tree.stored (resultsPath base analysis) := by
  obtain ⟨place, hplace⟩ := h.exists_place hmem
  exact hsame.stored_eq (FileTree.leadsTo_of_lookup hplace) (by decide) (by decide)

theorem contains_resultFiles {name : String} (hname : name ∉ reportFiles) :
    (resultFiles tree' base analysis).contains name = (resultFiles tree base analysis).contains name := by
  obtain ⟨place, hplace⟩ := h.exists_place hmem
  rw [resultFiles, resultFiles, FileTree.list_eq_ok_iff.2 ⟨place, hplace, rfl⟩,
    FileTree.list_eq_ok_iff.2 ⟨place, hsame.lookup_folder hplace, rfl⟩]
  exact hsame.contains_names place hname

/-- The row of an analysis does not depend on the reports. -/
theorem rowOf_eq : rowOf tree' base analysis = rowOf tree base analysis := by
  have hcompletion : completionFiles.all (resultFiles tree' base analysis).contains =
      completionFiles.all (resultFiles tree base analysis).contains := by
    have hname : ∀ name ∈ completionFiles, name ∉ reportFiles := by decide
    rw [Bool.eq_iff_iff, all_eq_true, all_eq_true]
    refine forall_congr' fun name => forall_congr' fun hfile => ?_
    rw [contains_resultFiles h hsame hmem (hname name hfile)]
  have hcount : issueCount tree' (resultsOf base analysis) = issueCount tree (resultsOf base analysis) := by
    have hstored := h.stored_eq hsame hmem
    rw [resultsPath] at hstored
    simp [issueCount, sheet, FileTree.read, hstored]
  rw [rowOf, rowOf, summaryRow, summaryRow, hcompletion, hcount]

end

/-! ## The summary -/

def summaryTable (tree : FileTree) (base : String) (analyses : List String) : List (List String) :=
  summaryNames :: analyses.map (rowOf tree base)

/-- The row of an analysis is added to the summary. -/
theorem appends_row (h : Ready tree base folder analyses) (hmem : analysis ∈ analyses)
    (hfile : KeptByWrites (SameBesides reportFiles tree) file) :
    Appends (SameBesides reportFiles tree) file
      (do
        let names ← ask fun tree => tree.list (resultsOf base analysis)
        let tree ← get
        append file (Csv.rowText (summaryRow tree base analysis names)))
      (Csv.rowText (rowOf tree base analysis)) := by
  intro t old ht hold
  obtain ⟨place, hplace⟩ := h.exists_place hmem
  have hlist : t.list (resultsOf base analysis) = .ok (resultFiles t base analysis) := by
    have hnames := FileTree.list_eq_ok_iff.2 ⟨place, ht.lookup_folder hplace, rfl⟩
    rw [resultFiles, hnames]
    rfl
  obtain ⟨t', hrun, ht', hadded⟩ := appends_append hfile (Csv.rowText (rowOf tree base analysis)) t old ht hold
  have hget : (get : Edit FileTree).run.run t = (.ok t, t) := rfl
  rw [← rowOf_eq h ht hmem] at hrun
  exact ⟨t', (run_bind_ok (ask_eq_ok_iff.2 ⟨hlist, rfl⟩)).trans ((run_bind_ok hget).trans hrun), ht',
    hadded⟩

/-- The summary can be written whatever stands in the files of results. It has a row for each analysis. -/
theorem exists_writeSummary (h : Ready tree base folder analyses) :
    ∃ tree', (writeSummary base folder).run.run tree = (.ok (), tree') ∧
      SameBesides reportFiles tree tree' ∧
      tree'.stored (Path.join folder summaryFile) =
        .ok (String.join ((summaryTable tree base analyses).map Csv.rowText)) := by
  obtain ⟨place, hplace⟩ := FileTree.isFolder_iff.1 h.reports
  have hleads := FileTree.leadsTo_of_lookup hplace
  have hfile : KeptByWrites (SameBesides reportFiles tree) (Path.join folder summaryFile) :=
    SameBesides.keptByWrites hleads (by decide) (by decide)
  obtain ⟨started, hstarted⟩ := hleads.exists_write (show IsEntryName summaryFile by decide)
    (h.writable _ (by decide)) (Csv.rowText summaryNames)
  have hfirst := hfile tree started _ (.refl _ tree) hstarted
  obtain ⟨tree', hrun, hkept, hall⟩ := appends_forM (fun analysis hmem => appends_row h hmem hfile) started _
    hfirst (FileTree.stored_write hstarted)
  refine ⟨tree', ?_, hkept, ?_⟩
  · rw [writeSummary, run_bind_ok (write_eq_ok_iff.2 hstarted),
      run_bind_ok (ask_eq_ok_iff.2 ⟨(h.kept hfirst).listed, rfl⟩)]
    exact hrun
  · rw [hall, summaryTable, map_cons, String.join_cons, map_map]
    rfl

theorem sheet_of_stored {path : String} (h : tree.stored path = .ok text) :
    sheet tree path = .ok (Csv.Sheet.ofText (Text.readAsText text)) := by
  rw [sheet, FileTree.read, h]
  rfl

/-! ## The names of the fields -/

def resultsText? (tree : FileTree) (base analysis : String) : Option String :=
  (tree.read (resultsPath base analysis)).toOption

/-- The text that gives the names of the fields: that of the first file of results that does not begin with
an empty line. -/
def namingText? (tree : FileTree) (base : String) (analyses : List String) : Option String :=
  (analyses.filterMap (resultsText? tree base)).find? fun text => text.toList.head? != some '\n'

def ResultsAreFiles (tree : FileTree) (base : String) (analyses : List String) : Prop :=
  ∀ analysis ∈ analyses, ¬ tree.isFolder (resultsPath base analysis)

/-- A file of results is listed if it can be read. -/
theorem contains_resultsFile (hplace : tree.lookup (resultsOf base analysis) = .ok (place, .folder))
    (hfile : ¬ tree.isFolder (resultsPath base analysis)) :
    (tree.names place).contains resultsFile ↔ ∃ text, tree.stored (resultsPath base analysis) = .ok text := by
  have hlocate := (FileTree.leadsTo_of_lookup hplace).2 resultsFile (by decide)
  have hno : tree.at? (place ++ [resultsFile]) ≠ some .folder := by
    intro hfolder
    exact hfile (FileTree.isFolder_iff.2 ⟨_, FileTree.lookup_eq_ok_iff.2 ⟨hlocate, hfolder⟩⟩)
  rw [contains_iff_mem, FileTree.mem_names_iff]
  constructor
  · intro hsome
    obtain ⟨entry, hentry⟩ := Option.isSome_iff_exists.1 hsome
    cases entry with
    | file text => exact ⟨text, FileTree.stored_eq_ok_iff.2 ⟨_, hlocate, hentry⟩⟩
    | folder => exact absurd hentry hno
  · rintro ⟨text, htext⟩
    obtain ⟨there, hthere, hentry⟩ := FileTree.stored_eq_ok_iff.1 htext
    cases hlocate.symm.trans hthere
    simp [hentry]

theorem resultsText?_eq : resultsText? tree base analysis =
    (tree.stored (resultsPath base analysis)).toOption.map Text.readAsText := by
  rw [resultsText?, FileTree.read]
  cases tree.stored (resultsPath base analysis) <;> rfl

/-- The names of the fields are those of the text that gives them. -/
theorem resultNames_eq (hresults : ∀ analysis ∈ analyses, tree.isFolder (resultsOf base analysis))
    (hfiles : ResultsAreFiles tree base analyses) :
    resultNames tree base analyses =
      ((namingText? tree base analyses).bind fun text => (Csv.Sheet.ofText text).names).elim
        (.error .wrongType) .ok := by
  induction analyses with
  | nil => rfl
  | cons analysis analyses ih =>
    have hlater := ih (fun a ha => hresults a (mem_cons_of_mem _ ha)) fun a ha =>
      hfiles a (mem_cons_of_mem _ ha)
    obtain ⟨place, hplace⟩ := FileTree.isFolder_iff.1 (hresults analysis mem_cons_self)
    have hlisted := contains_resultsFile hplace (hfiles analysis mem_cons_self)
    have htext : resultsText? tree base analysis = _ := resultsText?_eq
    rw [resultNames, FileTree.list_eq_ok_iff.2 ⟨place, hplace, rfl⟩, ok_bind]
    cases hstored : tree.stored (resultsPath base analysis) with
    | ok text =>
      rw [hstored] at htext
      rw [if_pos (hlisted.2 ⟨text, hstored⟩),
        show sheet tree (Path.join (resultsOf base analysis) resultsFile) = _ from sheet_of_stored hstored, ok_bind,
        namingText?, filterMap_cons_some htext]
      rcases Csv.names_cases (Text.readAsText text) with
        ⟨hempty, -⟩ | ⟨hhead, hnames⟩ | ⟨-, hhead, names, hnames, hne⟩
      · rw [hempty]
        rfl
      · rw [hnames, find?_cons_of_neg (by simp [hhead])]
        exact hlater
      · obtain ⟨first, rest, rfl⟩ := exists_cons_of_ne_nil hne
        rw [find?_cons_of_pos (by simpa using hhead), Option.bind_some, hnames]
        rfl
    | error fault =>
      rw [hstored] at htext
      rw [if_neg fun hin => absurd (hstored.symm.trans (hlisted.1 hin).choose_spec) nofun, hlater, namingText?, namingText?,
        filterMap_cons_none htext]

/-! ## The report of data flows -/

/-- Rows that name a repository are gone through without a fault, whatever stands in the files. -/
theorem exists_run_appendRows {rows : List Csv.Record}
    (hget : ∀ row ∈ rows, ∃ value, row.get "Repository" = .ok value) (file : String) (names : List String)
    (t : FileTree) : ∃ t', (rows.forM (appendRow base file names)).run.run t = (.ok (), t') := by
  induction rows generalizing t with
  | nil => exact ⟨t, rfl⟩
  | cons row rows ih =>
    obtain ⟨value, hvalue⟩ := hget row mem_cons_self
    obtain ⟨mid, hmid⟩ : ∃ mid, (appendRow base file names row).run.run t = (.ok (), mid) := by
      refine exists_run_tryCatch (fun fault t => ⟨t, ?_⟩) t
      exact run_bind_ok (by rw [run_ask, hvalue])
    obtain ⟨t', ht'⟩ := ih (fun r hr => hget r (mem_cons_of_mem _ hr)) mid
    exact ⟨t', (run_bind_ok hmid).trans ht'⟩

theorem keeps_appendRow {P : FileTree → Prop} (hP : KeptByWrites P file) (names : List String) (row : Csv.Record) :
    Keeps P (appendRow base file names row) := by
  have happend : ∀ text, Keeps P (append file text) := by
    intro text
    refine keeps_change fun t t' ht h => ?_
    obtain ⟨whole, hwhole⟩ := FileTree.exists_write_of_append h
    exact hP t t' whole ht hwhole
  have hissues : ∀ repository, Keeps P (appendIssues base file names repository) := by
    intro repository
    refine (keeps_ask _).bind fun found => keeps_forM fun record _ => ?_
    exact (keeps_ask _).bind fun text => happend text
  refine Keeps.tryCatch ((keeps_ask _).bind fun found => ?_) fun fault =>
    (keeps_ask _).bind fun _ => keeps_pure ()
  cases found with
  | some repository => exact hissues repository
  | none => exact keeps_pure ()

/-- The report of data flows changes its own file only. -/
theorem keeps_writeDataFlows (hplace : tree.LeadsTo folder place) :
    Keeps (SameBesides [dataFlowsFile] tree) (writeDataFlows base folder) := by
  have hfile : KeptByWrites (SameBesides [dataFlowsFile] tree) (Path.join folder dataFlowsFile) :=
    SameBesides.keptByWrites hplace (by decide) (by decide)
  refine (keeps_ask _).bind fun analyses => (keeps_ask _).bind fun names => ?_
  refine (keeps_ask _).bind fun summary => ?_
  refine (keeps_change fun t t' ht h => hfile t t' _ ht h).bind fun _ => ?_
  exact keeps_forM fun row _ => keeps_appendRow hfile _ row

/-- So the summary stays, whatever becomes of the report of data flows. -/
theorem stored_summary_of_writeDataFlows (h : Ready tree base folder analyses) {result : Except Fault Unit}
    (hrun : (writeDataFlows base folder).run.run tree = (result, tree')) :
    tree'.stored (Path.join folder summaryFile) = tree.stored (Path.join folder summaryFile) := by
  obtain ⟨place, hplace⟩ := FileTree.isFolder_iff.1 h.reports
  have hleads := FileTree.leadsTo_of_lookup hplace
  have hkeeps : Keeps (SameBesides [dataFlowsFile] tree) (writeDataFlows base folder) :=
    keeps_writeDataFlows hleads
  have hkept := hkeeps tree (.refl _ tree)
  rw [hrun] at hkept
  exact hkept.stored_eq hleads (by decide) (by decide)

end

/-! ## Reports that are completed

The summary is written whatever an analysis has left behind. The report of data flows needs the names of the
fields, and it takes them from the files of results: it is given up if there is no such file, and also if the
file that would give the names is empty, even though a later one has them (`reports_completed_iff`).
-/

variable {tree tree' : FileTree} {base folder : String} {analyses : List String}

/-! ## The summary as it is read -/

theorem head?_rowOf (tree : FileTree) (base analysis : String) :
    (rowOf tree base analysis).head? = some (repositoryOf analysis) := by
  unfold rowOf summaryRow
  split
  · split <;> rfl
  · rfl

theorem length_rowOf (tree : FileTree) (base analysis : String) : (rowOf tree base analysis).length = 3 := by
  unfold rowOf summaryRow
  split
  · split <;> rfl
  · rfl

def recordOf (tree : FileTree) (base analysis : String) : Csv.Record :=
  Csv.Record.ofRow summaryNames ((rowOf tree base analysis).map Text.readAsText)

theorem map_readAsText_summaryNames : summaryNames.map Text.readAsText = summaryNames := by decide

variable {t : FileTree} {names : List String}

/-- The summary is read with one record for each analysis. -/
theorem sheet_summary {path : String}
    (h : t.stored path = .ok (String.join ((summaryTable tree base analyses).map Csv.rowText))) :
    sheet t path = .ok ⟨some summaryNames, analyses.map (recordOf tree base)⟩ := by
  have hne : ∀ row ∈ analyses.map (rowOf tree base), row ≠ [] := by
    intro row hrow
    obtain ⟨analysis, -, rfl⟩ := mem_map.1 hrow
    exact ne_nil_of_length_pos (by rw [length_rowOf]; decide)
  rw [sheet_of_stored h, summaryTable, Csv.sheet_written summaryNames hne, map_readAsText_summaryNames, map_map]
  rfl

theorem get_recordOf (tree : FileTree) (base analysis : String) {i : Nat} {name field : String}
    (hname : summaryNames[i]? = some name) (hfield : (rowOf tree base analysis)[i]? = some field) :
    (recordOf tree base analysis).get name = .ok (some (Text.readAsText field)) := by
  refine Csv.Record.get_ofRow (by decide) ?_ hname ?_
  · rw [length_map, length_rowOf]
    rfl
  · rw [getElem?_map, hfield]
    rfl

theorem get_repository_recordOf (tree : FileTree) (base analysis : String) :
    (recordOf tree base analysis).get "Repository" = .ok (some (Text.readAsText (repositoryOf analysis))) := by
  refine get_recordOf tree base analysis (show summaryNames[0]? = some "Repository" from rfl) ?_
  rw [← head?_eq_getElem?, head?_rowOf]

/-! ## Whether the report of data flows is completed -/

theorem ResultsAreFiles.kept (h : ResultsAreFiles tree base analyses) (hsame : SameBesides names tree tree') :
    ResultsAreFiles tree' base analyses := by
  intro analysis hmem
  rw [hsame.isFolder_eq]
  exact h analysis hmem

section

variable (h : Ready tree base folder analyses) (hfiles : ResultsAreFiles tree base analyses)

include h hfiles

theorem resultNames_kept (hsame : SameBesides reportFiles tree tree') :
    resultNames tree' base analyses = resultNames tree base analyses := by
  have htexts : analyses.filterMap (resultsText? tree' base) = analyses.filterMap (resultsText? tree base) := by
    refine filterMap_congr fun analysis hmem => ?_
    rw [resultsText?_eq, resultsText?_eq, h.stored_eq hsame hmem]
  rw [resultNames_eq h.results hfiles, resultNames_eq (h.kept hsame).results (hfiles.kept hsame), namingText?,
    namingText?, htexts]

/-- There are names of fields if the text that gives them is not empty. -/
theorem exists_resultNames
    (hnaming : ∃ text, namingText? tree base analyses = some text ∧ text ≠ "") :
    ∃ names, resultNames tree base analyses = .ok names := by
  obtain ⟨text, htext, hne⟩ := hnaming
  rw [resultNames_eq h.results hfiles, htext, Option.bind_some]
  rcases Csv.names_cases text with ⟨hempty, -⟩ | ⟨-, hnames⟩ | ⟨-, -, names, hnames, -⟩
  · exact absurd hempty hne
  · exact ⟨[], by rw [hnames]; rfl⟩
  · exact ⟨names, by rw [hnames]; rfl⟩

theorem resultNames_of_not_named
    (hnaming : ¬ ∃ text, namingText? tree base analyses = some text ∧ text ≠ "") :
    resultNames tree base analyses = .error .wrongType := by
  rw [resultNames_eq h.results hfiles]
  cases htext : namingText? tree base analyses with
  | none => rfl
  | some text =>
    have hempty : text = "" := Classical.not_not.1 fun hne => hnaming ⟨text, htext, hne⟩
    rw [hempty]
    rfl

end

section

variable (h : Ready t base folder analyses)

include h

/-- With names of fields, the report of data flows is made by going through the records of the summary. -/
theorem run_writeDataFlows {started : FileTree} (hnames : resultNames t base analyses = .ok names)
    (hsummary : t.stored (Path.join folder summaryFile) = .ok (String.join ((summaryTable tree base analyses).map Csv.rowText)))
    (hstarted : t.write (Path.join folder dataFlowsFile) (Csv.rowText ("Repository" :: names)) = .ok started) :
    (writeDataFlows base folder).run.run t =
      ((analyses.map (recordOf tree base)).forM
        (appendRow base (Path.join folder dataFlowsFile) ("Repository" :: names))).run.run started := by
  rw [writeDataFlows, Edit.run_bind_ok (Edit.ask_eq_ok_iff.2 ⟨h.listed, rfl⟩),
    Edit.run_bind_ok (Edit.ask_eq_ok_iff.2 ⟨hnames, rfl⟩),
    Edit.run_bind_ok (Edit.ask_eq_ok_iff.2 ⟨sheet_summary hsummary, rfl⟩)]
  exact Edit.run_bind_ok (Edit.write_eq_ok_iff.2 hstarted)

theorem exists_write_dataFlows (text : String) :
    ∃ started, t.write (Path.join folder dataFlowsFile) text = .ok started := by
  obtain ⟨place, hplace⟩ := FileTree.isFolder_iff.1 h.reports
  exact (FileTree.leadsTo_of_lookup hplace).exists_write (show IsEntryName dataFlowsFile by decide)
    (h.writable _ (by decide)) text

/-- The report is completed then, since rows that cannot be used are passed over. -/
theorem exists_run_writeDataFlows (hnames : resultNames t base analyses = .ok names)
    (hsummary : t.stored (Path.join folder summaryFile) = .ok (String.join ((summaryTable tree base analyses).map Csv.rowText))) :
    ∃ t', (writeDataFlows base folder).run.run t = (.ok (), t') := by
  obtain ⟨started, hstarted⟩ := exists_write_dataFlows h (Csv.rowText ("Repository" :: names))
  have hget : ∀ row ∈ analyses.map (recordOf tree base), ∃ value, row.get "Repository" = .ok value := by
    intro row hrow
    obtain ⟨analysis, -, rfl⟩ := mem_map.1 hrow
    exact ⟨_, get_repository_recordOf tree base analysis⟩
  rw [run_writeDataFlows h hnames hsummary hstarted]
  exact exists_run_appendRows hget (Path.join folder dataFlowsFile) ("Repository" :: names) started

theorem run_writeDataFlows_of_error {fault : Fault} (hnames : resultNames t base analyses = .error fault) :
    (writeDataFlows base folder).run.run t = (.error fault, t) := by
  rw [writeDataFlows, Edit.run_bind_ok (Edit.ask_eq_ok_iff.2 ⟨h.listed, rfl⟩)]
  exact Edit.run_bind_error (by rw [Edit.run_ask, hnames])

end

/-- The summary has one row for each analysis, in their order, whatever stands in the folders of results.
The reports are completed exactly if the file that gives the names of the fields is there and not empty. -/
theorem reports_completed_iff (h : Ready tree base folder analyses) (hfiles : ResultsAreFiles tree base analyses) :
    ∃ result tree' summary,
      (writeAll base folder).run.run tree = (result, tree') ∧
      tree'.read (Path.join folder summaryFile) = .ok summary ∧
      (Csv.rows summary).tail.map List.head? =
        analyses.map (fun analysis => some (Text.readAsText (repositoryOf analysis))) ∧
      ((∃ text, namingText? tree base analyses = some text ∧ text ≠ "") → result = .ok ()) ∧
      ((¬ ∃ text, namingText? tree base analyses = some text ∧ text ≠ "") → result = .error .wrongType) := by
  obtain ⟨mid, hmid, hsame, hsummary⟩ := exists_writeSummary h
  have hready := h.kept hsame
  have hnames := resultNames_kept h hfiles hsame
  cases hflows : (writeDataFlows base folder).run.run mid with
  | mk result tree' =>
    refine ⟨result, tree', Text.readAsText (String.join ((summaryTable tree base analyses).map Csv.rowText)),
      (Edit.run_bind_ok hmid).trans hflows, ?_, ?_, ?_, ?_⟩
    · rw [FileTree.read, stored_summary_of_writeDataFlows hready hflows, hsummary]
      rfl
    · rw [Csv.rows_written, summaryTable, List.map_cons, List.tail_cons, List.map_map, List.map_map]
      refine List.map_congr_left fun analysis _ => ?_
      simp [head?_rowOf]
    · intro hnaming
      obtain ⟨names, hok⟩ := exists_resultNames h hfiles hnaming
      obtain ⟨t', ht'⟩ := exists_run_writeDataFlows hready (hnames.trans hok) hsummary
      rw [ht'] at hflows
      cases hflows
      rfl
    · intro hnaming
      have herror := hnames.trans (resultNames_of_not_named h hfiles hnaming)
      rw [run_writeDataFlows_of_error hready herror] at hflows
      cases hflows
      rfl

/-- The files after the analyses of two repositories, one of which has left an empty file of results. -/
def twoAnalyses (emptyFirst : Bool) : FileTree :=
  let first := if emptyFirst then "" else "Issue\r\n1\r\n"
  let second := if emptyFirst then "Issue\r\n1\r\n" else ""
  FileTree.putFile ["t", "cloudflow-analysis-b", "pysa-runs", resultsFile] second
    (FileTree.putFile ["t", "cloudflow-analysis-a", "pysa-runs", resultsFile] first
      (FileTree.empty.putFolders ["t", "reports"]))

theorem ready_twoAnalyses (emptyFirst : Bool) :
    Ready (twoAnalyses emptyFirst) "/t" "/t/reports" ["cloudflow-analysis-a", "cloudflow-analysis-b"] where
  listed := by
    refine analysisFolders_eq_ok_iff.2 ⟨["t"], eq_ok_of_toOption (by revert emptyFirst; decide +kernel), ?_⟩
    rw [FileTree.names_eq, filter_sortTexts, sortTexts_of_pairwise]
    all_goals
      revert emptyFirst
      decide +kernel
  results := by revert emptyFirst; decide +kernel
  reports := by revert emptyFirst; decide +kernel
  writable := by revert emptyFirst; decide +kernel

theorem resultsAreFiles_twoAnalyses (emptyFirst : Bool) :
    ResultsAreFiles (twoAnalyses emptyFirst) "/t" ["cloudflow-analysis-a", "cloudflow-analysis-b"] := by
  unfold ResultsAreFiles
  revert emptyFirst
  decide +kernel

/-- An empty file of results stops the report of data flows if it comes before the one with the names of the
fields, and not if it comes after it. -/
theorem empty_results_stop_reports_if_first :
    (∃ tree', (writeAll "/t" "/t/reports").run.run (twoAnalyses true) = (.error .wrongType, tree')) ∧
      ∃ tree', (writeAll "/t" "/t/reports").run.run (twoAnalyses false) = (.ok (), tree') := by
  constructor
  · obtain ⟨result, tree', -, hrun, -, -, -, herror⟩ :=
      reports_completed_iff (ready_twoAnalyses true) (resultsAreFiles_twoAnalyses true)
    have hempty : namingText? (twoAnalyses true) "/t" ["cloudflow-analysis-a", "cloudflow-analysis-b"] = some "" := by
      decide +kernel
    rw [herror (by simp [hempty])] at hrun
    exact ⟨tree', hrun⟩
  · obtain ⟨result, tree', -, hrun, -, -, hok, -⟩ :=
      reports_completed_iff (ready_twoAnalyses false) (resultsAreFiles_twoAnalyses false)
    rw [hok ⟨"Issue\n1\n", by decide +kernel, by decide⟩] at hrun
    exact ⟨tree', hrun⟩

end ServerlessTaint.Report
