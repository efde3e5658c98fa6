import ServerlessTaint.Proofs.HintRounds

/-!
# Files with hints and imports

A pass goes through the files of a repository that import what makes client objects. Its effect on one of
them is the rounds of its own program, whatever is done to the others in between (`program_after_addAll`).
So the types of its hints are imported unless a hint stands at a target that cannot be annotated
(`hints_imported_iff`): a list on the line of a client object gets the hint too, and the file with it cannot
be read, so the pass that adds the imports leaves it out.
-/

namespace ServerlessTaint.SourcePass

open Syntax (Ast)

def ofImporters (mode : ImportMode) (repository : String) (found : FileClients) (f : List Client → Ast → Ast)
    (tree : FileTree) : List Rewrite :=
  (TypeHints.importers mode tree repository).filterMap fun importer =>
    (Keyed.find? importer.1 found).map fun clients => ⟨importer.1, f clients⟩

theorem run_editImporters (mode : ImportMode) (repository : String) (found : FileClients)
    (f : List Client → Ast → Ast) (tree : FileTree) :
    (TypeHints.editImporters mode repository found f).run.run tree =
      ((ofImporters mode repository found f tree).forM Rewrite.edit).run.run tree := by
  refine Edit.run_forM_filterMap ?_ ?_ _ tree
  · rintro ⟨path, program⟩ r hr
    obtain ⟨clients, hclients, rfl⟩ := Option.map_eq_some_iff.1 hr
    simp only [hclients]
    rfl
  · rintro ⟨path, program⟩ hnone
    simp only [Option.map_eq_none_iff.1 hnone]

end ServerlessTaint.SourcePass

namespace ServerlessTaint.TypeHints

open List Keyed FileTree
open Syntax (Ast parseModule runParse_eq)
open Injection (reread reread_of_source)

/-- A file of a repository that a pass goes to: a program file, listed once, and no other file that is listed
stands at its place. -/
structure Listed (tree : FileTree) (repository path : String) : Prop where
  extension : Path.extension path = ".py"
  once : (tree.walkFiles repository).count path = 1
  apart : ∀ other ∈ tree.walkFiles repository, other = path ∨ tree.locate other ≠ tree.locate path

section

variable {tree tree' : FileTree} {repository path : String} {program : Ast} {old : String} {mode : ImportMode}
  {found : FileClients} {change : List Client → Change}

theorem Listed.of_outline (h : Listed tree repository path) (hsame : tree'.outline = tree.outline)
    (hold : tree.stored path = .ok old) : Listed tree' repository path := by
  obtain ⟨place, hplace, -⟩ := stored_eq_ok_iff.1 hold
  have hfiles := walkFiles_of_outline hsame repository
  refine ⟨h.extension, by rw [hfiles, h.once], ?_⟩
  intro other hother
  rw [hfiles] at hother
  exact (h.apart other hother).imp_right ((sameFolders_of_outline hsame).locate_ne hplace)

/-! ## Importers -/

theorem mem_programs {e : String × Ast} (h : e ∈ programs tree repository) :
    e.1 ∈ tree.walkFiles repository ∧ Path.extension e.1 = ".py" ∧ tree.program e.1 = .ok e.2 := by
  obtain ⟨file, hfile, h⟩ := mem_filterMap.1 h
  split at h
  · rename_i hextension
    split at h
    · rename_i hprogram
      cases h
      exact ⟨hfile, beq_iff_eq.1 hextension, hprogram⟩
    · cases h
  · cases h

theorem mem_importers {e : String × Ast} (h : e ∈ importers mode tree repository) :
    e.1 ∈ tree.walkFiles repository ∧ tree.program e.1 = .ok e.2 := by
  obtain ⟨listed, hlisted, h⟩ := mem_flatMap.1 h
  obtain ⟨statement, -, rfl⟩ := mem_map.1 h
  exact (mem_programs hlisted).imp_right And.right

/-- The number of times that a pass goes to a file: once for each statement that imports what makes client
objects, if it can be read as a program. -/
def visits (tree : FileTree) (mode : ImportMode) (path : String) : Nat :=
  if Path.extension path == ".py" then ((tree.program path).toOption.map (importCount mode)).getD 0 else 0

theorem map_fst_importers (mode : ImportMode) (tree : FileTree) (repository : String) :
    (importers mode tree repository).map (·.1) =
      (tree.walkFiles repository).flatMap fun path => replicate (visits tree mode path) path := by
  unfold importers programs
  induction tree.walkFiles repository with
  | nil => rfl
  | cons file files ih =>
    rw [filterMap_cons, flatMap_cons, ← ih]
    cases hext : Path.extension file == ".py" with
    | false => simp [visits, hext]
    | true =>
      cases hprogram : tree.program file with
      | error fault => simp [visits, hext, hprogram, Except.toOption]
      | ok program =>
        simp only [visits, hext, hprogram, if_true, flatMap_cons, map_append, map_map]
        simp [Except.toOption, importCount, Function.comp_def]

theorem count_flatMap_replicate {α : Type} [DecidableEq α] (n : α → Nat) (x : α) (xs : List α) :
    (xs.flatMap fun y => replicate (n y) y).count x = xs.count x * n x := by
  induction xs with
  | nil => simp
  | cons y xs ih =>
    rw [flatMap_cons, count_append, ih, count_replicate, count_cons, Nat.add_mul]
    by_cases h : y = x
    · simp [h, Nat.add_comm]
    · simp [h]

/-- A file is an importer as often as its program imports. -/
theorem count_importers (hlisted : Listed tree repository path) (mode : ImportMode) :
    ((importers mode tree repository).map (·.1)).count path = visits tree mode path := by
  rw [map_fst_importers, count_flatMap_replicate, hlisted.once, Nat.one_mul]

theorem Listed.visits_ok (hlisted : Listed tree repository path) (mode : ImportMode)
    (h : tree.program path = .ok program) : visits tree mode path = importCount mode program := by
  simp [visits, hlisted.extension, h, Except.toOption]

/-! ## Client objects of a file -/

/-- Going through importers collects the client objects of a file once for each time it is gone to. -/
theorem find?_foldlM_madeBy (program : Ast) (files : List (String × Ast))
    (hfiles : ∀ e ∈ files, e.1 = path → e.2 = program) {start : FileClients} (h : files.foldlM (fun found e => do
      let made ← Client.madeBy mode e.2
      return if made.isEmpty then found else modify e.1 [] (· ++ made) found) start = .ok found) :
    let own := (replicate ((files.map (·.1)).count path)
      ((Client.madeBy mode program).toOption.getD [])).flatten
    find? path found =
      if own.isEmpty then find? path start else some ((find? path start).getD [] ++ own) := by
  induction files generalizing start with
  | nil =>
    cases h
    simp
  | cons e files ih =>
    rw [foldlM_cons, bind_eq_ok_iff] at h
    obtain ⟨next, hnext, h⟩ := h
    obtain ⟨made, hmade, hnext⟩ := bind_eq_ok_iff.1 hnext
    have hrest := ih (fun e he => hfiles e (mem_cons_of_mem _ he)) h
    cases hnext
    by_cases hpath : e.1 = path
    · have hown : made = (Client.madeBy mode program).toOption.getD [] := by
        rw [← hfiles e mem_cons_self hpath, hmade]
        rfl
      rw [map_cons, hpath, count_cons_self, replicate_succ, flatten_cons, ← hown]
      rw [← hown] at hrest
      cases made with
      | nil => simpa using hrest
      | cons client more =>
        have hnext : find? path (modify e.1 [] (· ++ client :: more) start) =
            some ((find? path start).getD [] ++ client :: more) := by
          rw [find?_modify, if_pos hpath, hpath]
        simp only [isEmpty_cons, Bool.false_eq_true, if_false] at hrest
        rw [hrest, hnext]
        split
        · rename_i hempty
          rw [isEmpty_iff.1 hempty]
          simp
        · simp
    · rw [map_cons, count_cons_of_ne hpath]
      have hkept : find? path (if made.isEmpty then start else modify e.1 [] (· ++ made) start) =
          find? path start := by
        split
        · rfl
        · rw [find?_modify, if_neg hpath]
      rw [hrest, hkept]

/-- The client objects that are found for a file are those of its program. -/
theorem find?_clients (hlisted : Listed tree repository path) (h : clients mode tree repository = .ok found)
    (hprogram : tree.program path = .ok program) :
    find? path found = if (clientsOf mode program).isEmpty then none else some (clientsOf mode program) := by
  have hfiles : ∀ e ∈ importers mode tree repository, e.1 = path → e.2 = program := by
    rintro e he rfl
    exact Except.ok.inj ((mem_importers he).2.symm.trans hprogram)
  have hfind := find?_foldlM_madeBy program _ hfiles h
  simp only [count_importers hlisted, hlisted.visits_ok mode hprogram] at hfind
  exact hfind

/-! ## Rewrites of a file -/

open SourcePass (ofImporters run_editImporters)

/-- **A pass makes the changes of a file again and again**, once for each time that it goes to it. -/
theorem result_ofImporters (change : List Client → Change) (program : Ast) :
    Rewrite.result path (ofImporters mode repository found (fun clients => (change clients).apply) tree) program =
      (find? path found).elim (.ok program) fun clients =>
        (repeated (change clients) (((importers mode tree repository).map (·.1)).count path) program).last := by
  simp only [Rewrite.result, ofImporters]
  induction importers mode tree repository generalizing program with
  | nil => cases find? path found <;> rfl
  | cons e files ih =>
    rw [filterMap_cons]
    by_cases hpath : e.1 = path
    · rw [map_cons, hpath, count_cons_self]
      cases hfound : find? path found with
      | none => simpa [hfound] using ih program
      | some clients =>
        simp only [hfound, Option.elim_some] at ih
        simp only [Option.map_some, filter_cons_of_pos, decide_true, foldlM_cons, ih, Option.elim_some, repeated,
          History.last_andThen]
    · rw [map_cons, count_cons_of_ne hpath, ← ih]
      cases find? e.1 found <;> simp [hpath]

/-! ## The passes -/

theorem editImporters_effect (hlisted : Listed tree repository path) (change : List Client → Change)
    (hold : tree.stored path = .ok old)
    (h : (editImporters mode repository found fun clients => (change clients).apply).run.run tree =
      (.ok (), tree')) :
    tree'.outline = tree.outline ∧ (∃ text, tree'.stored path = .ok text) ∧
      tree'.program path = tree.program path >>= fun program =>
        (find? path found).elim (.ok program) fun clients =>
          (repeated (change clients) (importCount mode program) program).last := by
  rw [run_editImporters] at h
  have hplaces : ∀ r ∈ ofImporters mode repository found (fun clients => (change clients).apply) tree,
      r.path = path ∨ tree.locate r.path ≠ tree.locate path := by
    intro r hr
    obtain ⟨e, he, hr⟩ := mem_filterMap.1 hr
    obtain ⟨clients, -, rfl⟩ := Option.map_eq_some_iff.1 hr
    exact hlisted.apart e.1 (mem_importers he).1
  obtain ⟨hsame, hstored, hprogram⟩ := Rewrite.program_after h hplaces hold
  refine ⟨hsame, hstored, ?_⟩
  rw [hprogram]
  cases hread : tree.program path with
  | error fault => rfl
  | ok program => rw [ok_bind, ok_bind, result_ofImporters, count_importers hlisted, hlisted.visits_ok mode hread]

theorem addFor_effect (hlisted : Listed tree repository path) (hold : tree.stored path = .ok old)
    (h : (addFor mode repository).run.run tree = (.ok found, tree')) :
    tree'.outline = tree.outline ∧ (∃ text, tree'.stored path = .ok text) ∧
      tree'.program path = tree.program path >>= fun program => (historyFor mode program).last := by
  simp only [addFor, Edit.bind_eq_ok_iff] at h
  obtain ⟨found', start, hask, _, mid, hhints, _, last, himports, hreturn⟩ := h
  cases hreturn
  obtain ⟨hclients, hstart⟩ := Edit.ask_eq_ok_iff.1 hask
  rw [hstart] at hhints
  obtain ⟨hsame, ⟨text, hstored⟩, hhinted⟩ := editImporters_effect hlisted .hints hold hhints
  obtain ⟨hsame', hstored', hprogram⟩ :=
    editImporters_effect (hlisted.of_outline hsame hold) .imports hstored himports
  refine ⟨hsame'.trans hsame, hstored', ?_⟩
  rw [hprogram, hhinted]
  cases hread : tree.program path with
  | error fault => rfl
  | ok program =>
    rw [ok_bind, ok_bind, find?_clients hlisted hclients hread, historyFor, History.last_andThen]
    cases hempty : (clientsOf mode program).isEmpty with
    | true => simp [times, hempty, repeated, ok_bind]
    | false => simp [times, hempty]

/-- **The passes leave in a file what its own rounds give**, whatever is done to other files. -/
theorem program_after_addAll (hlisted : Listed tree repository path) (hold : tree.stored path = .ok old)
    (modes : List ImportMode) {found : RepositoryClients}
    (h : (modes.mapM fun mode => do return (mode, ← addFor mode repository) : Edit RepositoryClients).run.run tree =
      (.ok found, tree')) : tree'.program path = tree.program path >>= fun program => (history modes program).last := by
  induction modes generalizing tree old found with
  | nil =>
    cases h
    cases tree'.program path <;> rfl
  | cons mode modes ih =>
    simp only [mapM_cons, Edit.bind_eq_ok_iff] at h
    obtain ⟨_, mid, ⟨found', _, hfirst, hpair⟩, _, _, hrest, hreturn⟩ := h
    cases hpair
    cases hreturn
    obtain ⟨hsame, ⟨text, hstored⟩, hprogram⟩ := addFor_effect hlisted hold hfirst
    rw [ih (hlisted.of_outline hsame hold) hstored hrest, hprogram]
    cases tree.program path with
    | error fault => rfl
    | ok program => simp only [ok_bind, history, History.last_andThen]

/-! ## Hints and imports in a file -/

/-- **When the types of hints are imported.** If programs are read back as they were written, the type of each
hint that a file gets is imported at the start of its program from the module of its service, if and only
if each assignment that gets one has a first target that can be annotated. This holds over all rounds of
both ways of importing. -/
theorem hints_imported_iff {found : RepositoryClients} {program : Ast} (hlisted : Listed tree repository path)
    (hread : tree.program path = .ok program)
    (hback : ∀ round ∈ (history ImportMode.all program).rounds, ReadsBack (round.1.apply round.2))
    (hrun : (addAll repository).run.run tree = (.ok found, tree')) :
    tree'.program path = (history ImportMode.all program).last ∧
    ((∀ x ∈ (history ImportMode.all program).given,
        ∃ last, tree'.program path = .ok last ∧ ImportsType last x.2) ↔
      ∀ x ∈ (history ImportMode.all program).given, AnnotatesOne x.1) := by
  obtain ⟨old, hold⟩ := FileTree.stored_of_program hread
  have hlast : tree'.program path = (history ImportMode.all program).last := by
    rw [program_after_addAll hlisted hold ImportMode.all hrun, hread, ok_bind]
  have hprogram : program.conforms (.one .module) := by
    rw [FileTree.program_of_stored hold] at hread
    exact conforms_of_programOf hread
  have hreliable : Reliable program (history ImportMode.all program) :=
    ⟨follows_history ImportMode.all program, hprogram, hback⟩
  have hreadable := hreliable.follows.readable_iff hprogram hback
  rw [hlast]
  refine ⟨rfl, ?_, ?_⟩
  · intro himports x hx
    obtain ⟨last, hlast, -⟩ := himports x hx
    exact hreadable.1 ⟨last, hlast⟩ x hx
  · intro hone x hx
    obtain ⟨last, hlast⟩ := hreadable.2 hone
    exact ⟨last, hlast, imports_of_history hreliable hlast hx⟩

end

/-! ## A list on the line of a client object -/

open Injection (onLine)

/-- The call that makes a client object, from a column of the second line on. -/
def clientCall (column : Nat) : Ast :=
  .node .call (onLine 2 column (column + 18))
    [.node .attributeRef (onLine 2 column (column + 12))
      [.node .name (onLine 2 column (column + 5)) [.name "boto3"], .name "client"],
     .list [.node .constant (onLine 2 (column + 13) (column + 17)) [.literal (.str "s3")]], .list []]

def clientMade : Client := ⟨2, "s3", .client, .literal (.str "s3")⟩

/-- A program that imports what makes client objects on its first line. -/
def importing (statements : List Ast) : Ast :=
  .node .module none [.list (
    .node .importStmt (onLine 1 0 12) [.list [.node .importName (onLine 1 7 12) [.name "boto3", .absent]]] ::
    statements)]

def clientAssigned : Ast :=
  .node .assign (onLine 2 0 23) [.list [.node .name (onLine 2 0 2) [.name "s3"]], clientCall 5]

/-- An assignment to a list, on the same line. -/
def listAssigned : Ast :=
  .node .assign (onLine 2 25 34)
    [.list [.node .list (onLine 2 25 28) [.list [.node .name (onLine 2 26 27) [.name "a"]]]],
     .node .list (onLine 2 31 34) [.list [.node .constant (onLine 2 32 33) [.literal (.int 2)]]]]

/-- The assignment of a client object with its hint, as it is read. -/
def clientHinted : Ast :=
  .node .annAssign (onLine 2 0 33)
    [.node .name (onLine 2 0 2) [.name "s3"], .node .name (onLine 2 4 12) [.name "S3Client"], clientCall 15, .number 1]

/-- A repository with one file, which makes a client object and perhaps has more on the line of it. -/
def makers (more : String) : FileTree :=
  FileTree.empty.putFile ["app", "m.py"] ("import boto3\ns3 = boto3.client('s3')" ++ more ++ "\n")

/-- The rounds of a program that imports once and makes one client object. -/
theorem history_importing {statements : List Ast} (hbyName : clientsOf .byName (importing statements) = [])
    (hwhole : clientsOf .whole (importing statements) = [clientMade])
    (honce : importCount .whole (importing statements) = 1) :
    history ImportMode.all (importing statements) =
      (History.mk [(.hints [clientMade], importing statements)]
        (reread (addHints [clientMade] (importing statements)))).andThen fun hinted =>
          repeated (.imports [clientMade]) (importCount .whole hinted) hinted := by
  have hfirst : historyFor .byName (importing statements) = ⟨[], .ok (importing statements)⟩ := by
    simp [historyFor, hbyName, times, repeated, History.done_andThen]
  have honly : (history [.whole]) (importing statements) = historyFor .whole (importing statements) :=
    History.andThen_of_done fun _ => rfl
  have hround : repeated (.hints [clientMade]) 1 (importing statements) =
      ⟨[(.hints [clientMade], importing statements)], reread (addHints [clientMade] (importing statements))⟩ :=
    History.andThen_of_done fun _ => rfl
  rw [ImportMode.all, history, hfirst, History.done_andThen, honly]
  simp [historyFor, hwhole, times, honce, hround]

theorem walkFiles_makers (more : String) : (makers more).walkFiles "app" = ["app/m.py"] := by
  have hsame (text text' : String) : (empty.putFile ["app", "m.py"] text).outline =
      (empty.putFile ["app", "m.py"] text').outline := rfl
  rw [makers, walkFiles_of_outline (hsame _ "")]
  decide +kernel

theorem listed_makers (more : String) : Listed (makers more) "app" "app/m.py" := by
  refine ⟨by decide +kernel, by rw [walkFiles_makers]; rfl, ?_⟩
  intro other hother
  rw [walkFiles_makers] at hother
  exact .inl (mem_singleton.1 hother)

theorem exists_run (tree : FileTree) (repository : String)
    (h : ((addAll repository).run.run tree).1.toOption.isSome) :
    ∃ found tree', (addAll repository).run.run tree = (.ok found, tree') := by
  cases hrun : (addAll repository).run.run tree with
  | mk result tree' =>
    cases result with
    | ok found => exact ⟨found, tree', rfl⟩
    | error fault =>
      rw [hrun] at h
      cases h

/-- What happens to a client object alone on its line. -/
theorem history_clientAssigned : history ImportMode.all (importing [clientAssigned]) =
    ⟨[(.hints [clientMade], importing [clientAssigned]), (.imports [clientMade], importing [clientHinted])],
      reread (addImports [clientMade] (importing [clientHinted]))⟩ := by
  have hhinted : reread (addHints [clientMade] (importing [clientAssigned])) = .ok (importing [clientHinted]) := by
    have hsource : (addHints [clientMade] (importing [clientAssigned])).source? =
        some "import boto3\ns3: S3Client = boto3.client('s3')\n" := by decide +kernel
    refine eq_ok_of_toOption ?_
    rw [reread_of_source hsource, toOption_programOf, parseModule, runParse_eq, Text.toList_readAsText,
      String.toList_ofList]
    decide +kernel
  have honce : importCount .whole (importing [clientHinted]) = 1 := by decide +kernel
  have himports : repeated (.imports [clientMade]) 1 (importing [clientHinted]) =
      ⟨[(.imports [clientMade], importing [clientHinted])],
        reread (addImports [clientMade] (importing [clientHinted]))⟩ :=
    History.andThen_of_done fun _ => rfl
  rw [history_importing (by decide +kernel) (by decide +kernel) (by decide +kernel), hhinted]
  simp [History.andThen, honce, himports]

/-- With a list on the line of the client object, the file cannot be read after the first round. -/
theorem history_listAssigned : ∃ fault, history ImportMode.all (importing [clientAssigned, listAssigned]) =
    ⟨[(.hints [clientMade], importing [clientAssigned, listAssigned])], .error fault⟩ := by
  have hfault : (reread (addHints [clientMade] (importing [clientAssigned, listAssigned]))).toOption = none := by
    have hsource : (addHints [clientMade] (importing [clientAssigned, listAssigned])).source? =
        some "import boto3\ns3: S3Client = boto3.client('s3')\n[a]: S3Client = [2]\n" := by decide +kernel
    rw [reread_of_source hsource, toOption_programOf, parseModule, runParse_eq, Text.toList_readAsText,
      String.toList_ofList]
    decide +kernel
  cases hread : reread (addHints [clientMade] (importing [clientAssigned, listAssigned])) with
  | ok back =>
    rw [hread] at hfault
    cases hfault
  | error fault =>
    refine ⟨fault, ?_⟩
    rw [history_importing (by decide +kernel) (by decide +kernel) (by decide +kernel), hread]
    rfl

/-- The hint of a client object is imported, but not if a list on its line gets the hint as well. -/
theorem client_imported_unless_list_hinted :
    (∃ found tree last, (addAll "app").run.run (makers "") = (.ok found, tree) ∧
      tree.program "app/m.py" = .ok last ∧ ImportsType last "S3Client") ∧
    ∃ found tree, (addAll "app").run.run (makers "; [a] = [2]") = (.ok found, tree) ∧
      ¬ ∃ last, tree.program "app/m.py" = .ok last ∧ ImportsType last "S3Client" := by
  constructor
  · obtain ⟨found, tree, hrun⟩ := exists_run (makers "") "app" (by decide +kernel)
    have hread : (makers "").program "app/m.py" = .ok (importing [clientAssigned]) :=
      eq_ok_of_toOption (by decide +kernel)
    have hback : ∀ round ∈ (history ImportMode.all (importing [clientAssigned])).rounds,
        ReadsBack (round.1.apply round.2) := by
      rw [history_clientAssigned]
      decide +kernel
    have hgiven : (history ImportMode.all (importing [clientAssigned])).given = [(clientAssigned, "S3Client")] := by
      rw [history_clientAssigned]
      decide +kernel
    obtain ⟨-, hiff⟩ := hints_imported_iff (listed_makers "") hread hback hrun
    rw [hgiven] at hiff
    obtain ⟨last, hlast, himports⟩ := hiff.2 (by decide) _ List.mem_cons_self
    exact ⟨found, tree, last, hrun, hlast, himports⟩
  · obtain ⟨found, tree, hrun⟩ := exists_run (makers "; [a] = [2]") "app" (by decide +kernel)
    have hread : (makers "; [a] = [2]").program "app/m.py" = .ok (importing [clientAssigned, listAssigned]) :=
      eq_ok_of_toOption (by decide +kernel)
    obtain ⟨fault, hhistory⟩ := history_listAssigned
    have hback : ∀ round ∈ (history ImportMode.all (importing [clientAssigned, listAssigned])).rounds,
        ReadsBack (round.1.apply round.2) := by
      rw [hhistory]
      simp only [List.mem_singleton, forall_eq]
      decide +kernel
    have hgiven : (history ImportMode.all (importing [clientAssigned, listAssigned])).given =
        [(clientAssigned, "S3Client"), (listAssigned, "S3Client")] := by
      rw [hhistory, History.given]
      dsimp only
      decide +kernel
    obtain ⟨-, hiff⟩ := hints_imported_iff (listed_makers "; [a] = [2]") hread hback hrun
    rw [hgiven] at hiff
    refine ⟨found, tree, hrun, ?_⟩
    rintro ⟨last, hlast, himports⟩
    have hall := hiff.1 (by simpa using ⟨last, hlast, himports⟩)
    exact absurd (hall _ (List.mem_cons_of_mem _ List.mem_cons_self)) (by decide)

end ServerlessTaint.TypeHints
