import Mathlib.Data.List.Sort
import ServerlessTaint.Proofs.HintedFiles
import ServerlessTaint.Proofs.KeptAssignments

/-!
# The client objects of a repository

A file is gone to once for each statement in it that imports what makes client objects, and each time all its
client objects are listed. So they are listed once each, in the order of a walk, if and only if each file with
client objects has one such statement and each assignment that makes a client object is a plain one: it has one
target, and its call names the service by a text (`one_record_each_iff`).

An assignment may make a client object without naming its service by a text. It is passed over if a variable stands for
the service. Otherwise it may be listed like any other, or end the listing of the whole repository. So the client objects
are listed as if there were no such assignments if and only if each is passed over (`unknown_services_skipped_iff`).
-/

namespace ServerlessTaint

open List
open Syntax (Ast)
open Syntax.Ast (Earlier)

namespace Client

/-! ## Plain assignments of client objects -/

/-- The text by which a call names the service: that of the keyword or, if there is none, of the first argument. -/
def serviceText? (call : Ast) : Option String :=
  match (call.itemsOf .keywords).find? (Ast.hasKeyword (.str "service_name")) with
  | some keyword => keyword.keywordValue? >>= Ast.text?
  | none => (call.itemsOf .args).head? >>= Ast.text?

/-- The client object of an assignment `name = call` whose call names the service by a text. -/
def plain? (mode : ImportMode) : Ast → Option Client
  | .node .assign _ [.list [.node .name _ [.name name]], call] => do
    let kind ← kindMade? mode call
    let service ← serviceText? call
    return ⟨call.line?.getD 0, name, kind, .literal (.str service)⟩
  | _ => none

/-- An assignment makes no client object but as a plain one: if its call makes client objects and its first target
is a variable, then there is no more than this target and the service is a text, or else the call has nothing that
could stand for a service. -/
def Regular (mode : ImportMode) (statement : Ast) : Prop :=
  ∀ span place name more call kind,
    statement = .node .assign span [.list (.node .name place [.name name] :: more), call] →
    kindMade? mode call = some kind →
      more = [] ∧ (serviceText? call).isSome ∨ serviceOf call = .error .missingAttribute

variable {text : String}

theorem field?_value_of_text? {t : Ast} (h : t.text? = some text) : t.field? .value = some (.literal (.str text)) := by
  unfold Ast.text? at h
  split at h
  · rename_i hconstant
    cases h
    unfold Ast.constant? at hconstant
    split at hconstant
    · cases hconstant
      rfl
    · cases hconstant
  · cases h

theorem serviceOf_of_serviceText? {call : Ast} (h : serviceText? call = some text) :
    serviceOf call = .ok (.literal (.str text)) := by
  unfold serviceText? at h
  unfold serviceOf
  split at h
  · rename_i keyword hkeyword
    obtain ⟨value, hvalue, htext⟩ := Option.bind_eq_some_iff.1 h
    simp [hkeyword, hvalue, field?_value_of_text? htext]
  · rename_i hkeyword
    obtain ⟨first, hfirst, htext⟩ := Option.bind_eq_some_iff.1 h
    obtain ⟨rest, hargs⟩ := head?_eq_some_iff.1 hfirst
    simp [hkeyword, hargs, field?_value_of_text? htext]

section

variable {mode : ImportMode} {statement : Ast}

/-- A plain client object is made. -/
theorem ofAssignment?_of_plain? {client : Client} (h : plain? mode statement = some client) :
    ofAssignment? mode statement = .ok (some client) := by
  unfold plain? at h
  split at h
  · obtain ⟨kind, hkind, h⟩ := Option.bind_eq_some_iff.1 h
    obtain ⟨service, hservice, h⟩ := Option.bind_eq_some_iff.1 h
    cases h
    simp only [ofAssignment?, hkind, serviceOf_of_serviceText? hservice]
  · cases h

/-- A regular assignment makes its plain client object or none, and no other does. -/
theorem regular_iff : Regular mode statement ↔ ofAssignment? mode statement = .ok (plain? mode statement) := by
  constructor
  · intro hregular
    cases hplain : plain? mode statement with
    | some client => exact ofAssignment?_of_plain? hplain
    | none =>
      unfold ofAssignment?
      split
      · split
        · rename_i span targets call kind place name more hkind
          rcases hregular _ _ _ _ _ _ rfl hkind with ⟨rfl, htext⟩ | hnone
          · obtain ⟨text, htext⟩ := Option.isSome_iff_exists.1 htext
            simp [plain?, hkind, htext] at hplain
          · simp [hnone]
        · rfl
      · rfl
  · rintro hmade span place name more call kind rfl hkind
    cases hplain : plain? mode (.node .assign span [.list (.node .name place [.name name] :: more), call]) with
    | some client =>
      unfold plain? at hplain
      split at hplain
      · rename_i heq
        cases heq
        obtain ⟨kind', -, hrest⟩ := Option.bind_eq_some_iff.1 hplain
        obtain ⟨text, htext, -⟩ := Option.bind_eq_some_iff.1 hrest
        exact .inl ⟨rfl, by rw [htext]; rfl⟩
      · cases hplain
    | none =>
      rw [hplain] at hmade
      simp only [ofAssignment?, hkind] at hmade
      split at hmade
      · cases hmade
      · exact .inr ‹_›
      · cases hmade

end

theorem regular_of_isKind {mode : ImportMode} {x : Ast} (h : x.isKind .assign = false) : Regular mode x := by
  rintro span place name more call kind rfl -
  cases h

theorem plain?_of_isKind {mode : ImportMode} {x : Ast} (h : x.isKind .assign = false) : plain? mode x = none := by
  unfold plain?
  split
  · cases h
  · rfl

/-! ## The client objects of a program -/

section

variable {α β : Type} {xs : List α} {f g : α → Option β}

theorem length_filterMap_mono (h : ∀ x ∈ xs, (g x).isSome → (f x).isSome) :
    (xs.filterMap g).length ≤ (xs.filterMap f).length := by
  rw [length_filterMap_eq_countP, length_filterMap_eq_countP]
  exact countP_mono_left h

/-- If one of two choices keeps all members that the other keeps and no more members in number, the two keep the
same members. -/
theorem isSome_of_length_filterMap (h : ∀ x ∈ xs, (g x).isSome → (f x).isSome)
    (hlength : (xs.filterMap f).length ≤ (xs.filterMap g).length) : ∀ x ∈ xs, (f x).isSome → (g x).isSome := by
  have hkept : (xs.filter fun x => (f x).isSome).filter (fun x => (g x).isSome) = xs.filter fun x => (g x).isSome := by
    rw [filter_filter]
    refine filter_congr fun x hx => ?_
    cases hg : (g x).isSome <;> simp_all
  simp only [length_filterMap_eq_countP, countP_eq_length_filter] at hlength
  rw [← hkept] at hlength
  have hall := filter_eq_self.1 (filter_sublist.eq_of_length_le hlength)
  exact fun x hx hf => hall x (mem_filter.2 ⟨hx, hf⟩)

end

variable {mode : ImportMode} {program : Ast}

def plainOnes (mode : ImportMode) (program : Ast) : List Client := program.walk.filterMap (plain? mode)

theorem plainOnes_eq : plainOnes mode program = (program.walkKind .assign).filterMap (plain? mode) := by
  rw [plainOnes, Ast.walkKind, filterMap_filter]
  refine congrArg (filterMap · _) (funext fun x => ?_)
  by_cases hx : x.isKind .assign = true
  · rw [if_pos hx]
  · rw [if_neg hx, plain?_of_isKind (Bool.eq_false_iff.2 hx)]

variable {choose : Ast → Option Client}

/-- A program whose assignments make the chosen client objects makes them all. -/
theorem madeBy_of_chosen (h : ∀ x ∈ program.walkKind .assign, ofAssignment? mode x = .ok (choose x)) :
    madeBy mode program = .ok ((program.walkKind .assign).filterMap choose) := by
  rw [madeBy, mapM_eq_ok_map h, ok_bind, filterMap_map]
  rfl

/-- What an assignment makes, if it gives no fault. -/
def made? (mode : ImportMode) (x : Ast) : Option Client := (ofAssignment? mode x).toOption.join

/-- A program makes what its assignments make, if none of them gives a fault. -/
theorem madeBy_eq_ok_iff {made : List Client} : madeBy mode program = .ok made ↔
    (∀ x ∈ program.walkKind .assign, ∃ result, ofAssignment? mode x = .ok result) ∧
      made = (program.walkKind .assign).filterMap (made? mode) := by
  have hmade : ∀ {results : List (Option Client)}, (program.walkKind .assign).mapM (ofAssignment? mode) = .ok results →
      results.filterMap id = (program.walkKind .assign).filterMap (made? mode) := by
    intro results hresults
    calc results.filterMap id
      _ = (results.map some).filterMap Option.join := by rw [filterMap_map]; rfl
      _ = _ := by rw [map_some_of_mapM hresults, filterMap_map]; rfl
  rw [madeBy, bind_eq_ok_iff]
  constructor
  · rintro ⟨results, hresults, h⟩
    cases h
    refine ⟨fun x hx => ?_, hmade hresults⟩
    have hx : (ofAssignment? mode x).toOption ∈ results.map some := by
      rw [map_some_of_mapM hresults]
      exact mem_map_of_mem hx
    obtain ⟨result, -, hresult⟩ := mem_map.1 hx
    exact ⟨result, eq_ok_of_toOption hresult.symm⟩
  · rintro ⟨hall, rfl⟩
    obtain ⟨results, hresults, -⟩ := exists_mapM hall
    exact ⟨results, hresults, by rw [← hmade hresults]; rfl⟩

/-- A program makes at least the client objects that are chosen from it, and no more only if each assignment makes its
chosen one or none. -/
theorem length_chosen (hchoose : ∀ x client, choose x = some client → ofAssignment? mode x = .ok (some client))
    {made : List Client} (h : madeBy mode program = .ok made) :
    ((program.walkKind .assign).filterMap choose).length ≤ made.length ∧
      (made.length ≤ ((program.walkKind .assign).filterMap choose).length →
        ∀ x ∈ program.walkKind .assign, ofAssignment? mode x = .ok (choose x)) := by
  obtain ⟨hall, rfl⟩ := madeBy_eq_ok_iff.1 h
  have hmade : ∀ x ∈ program.walkKind .assign, (choose x).isSome → (made? mode x).isSome := by
    intro x _ hx
    obtain ⟨client, hclient⟩ := Option.isSome_iff_exists.1 hx
    rw [made?, hchoose x client hclient]
    rfl
  refine ⟨length_filterMap_mono hmade, fun hlength x hx => ?_⟩
  -- What the assignment makes is known, and it is chosen if it is anything.
  obtain ⟨result, hresult⟩ := hall x hx
  have hback := isSome_of_length_filterMap hmade hlength x hx
  cases hx : choose x with
  | some client => exact hchoose x client hx
  | none =>
    cases result with
    | none => exact hresult
    | some client => simp [made?, hresult, hx, Except.toOption] at hback

theorem madeBy_of_regular (h : ∀ x ∈ program.walk, Regular mode x) :
    madeBy mode program = .ok (plainOnes mode program) := by
  rw [plainOnes_eq]
  exact madeBy_of_chosen fun x hx => regular_iff.1 (h x (mem_filter.1 hx).1)

theorem length_plainOnes {made : List Client} (h : madeBy mode program = .ok made) :
    (plainOnes mode program).length ≤ made.length ∧
      (made.length ≤ (plainOnes mode program).length → ∀ x ∈ program.walk, Regular mode x) := by
  rw [plainOnes_eq]
  obtain ⟨hle, hsame⟩ := length_chosen (fun _ _ => ofAssignment?_of_plain?) h
  refine ⟨hle, fun hlength x hx => ?_⟩
  by_cases hkind : x.isKind .assign = true
  · exact regular_iff.2 (hsame hlength x (mem_filter.2 ⟨hx, hkind⟩))
  · exact regular_of_isKind (Bool.eq_false_iff.2 hkind)

end Client

namespace TypeHints

open Client (Regular plainOnes)

variable {mode : ImportMode} {tree : FileTree} {repository : String}

/-! ## Lists of client objects -/

/-- The plain client objects of a program, once each and in the order of their places. -/
def ListsOnce (mode : ImportMode) (program : Ast) (records : List Client) : Prop :=
  ∃ places : List (List Nat), places.Pairwise Earlier ∧
    (∀ place, place ∈ places ↔ ∃ x, program.nodeAt? place = some x ∧ (Client.plain? mode x).isSome) ∧
    records = places.filterMap fun place => program.nodeAt? place >>= Client.plain? mode

variable {program : Ast} {e : String × Ast}

theorem listsOnce_iff {records : List Client} : ListsOnce mode program records ↔ records = plainOnes mode program := by
  have hmem : ∀ place, place ∈ program.places.filter
      (fun place => (program.nodeAt? place >>= Client.plain? mode).isSome) ↔
        ∃ x, program.nodeAt? place = some x ∧ (Client.plain? mode x).isSome := by
    intro place
    rw [mem_filter, Ast.mem_places]
    cases program.nodeAt? place <;> simp
  have hpairwise := (Ast.pairwise_places program).filter
    fun place => (program.nodeAt? place >>= Client.plain? mode).isSome
  have hrecords : (program.places.filter fun place => (program.nodeAt? place >>= Client.plain? mode).isSome).filterMap
      (fun place => program.nodeAt? place >>= Client.plain? mode) = plainOnes mode program := by
    rw [plainOnes, Ast.walk_eq_filterMap, filterMap_filterMap, filterMap_filter]
    refine congrArg (filterMap · _) (funext fun place => ?_)
    cases program.nodeAt? place with
    | none => rfl
    | some x => cases hx : Client.plain? mode x <;> simp [hx]
  constructor
  · rintro ⟨places, hsorted, hplaces, rfl⟩
    rw [hsorted.eq_of_mem_iff hpairwise fun place => (hplaces place).trans (hmem place).symm, hrecords]
  · rintro rfl
    exact ⟨_, hpairwise, hmem, hrecords.symm⟩

/-! ## Files that are gone to -/

theorem mem_importers_iff :
    e ∈ importers mode tree repository ↔ e ∈ programs tree repository ∧ 0 < importCount mode e.2 := by
  rw [importers, mem_flatMap, importCount, length_pos_iff_exists_mem]
  constructor
  · rintro ⟨e', he', h⟩
    obtain ⟨statement, hstatement, rfl⟩ := mem_map.1 h
    exact ⟨he', statement, hstatement⟩
  · rintro ⟨he, statement, hstatement⟩
    exact ⟨e, he, mem_map.2 ⟨statement, hstatement, rfl⟩⟩

/-- The client objects can be listed if those of each file that is gone to can be. -/
theorem exists_clients_iff : (∃ found, clients mode tree repository = .ok found) ↔
    ∀ e ∈ importers mode tree repository, ∃ made, Client.madeBy mode e.2 = .ok made := by
  have hall : ∀ (files : List (String × Ast)) (start : FileClients), (∃ found,
      files.foldlM (fun found e => do
        let made ← Client.madeBy mode e.2
        return if made.isEmpty then found else Keyed.modify e.1 [] (· ++ made) found) start = .ok found) ↔
      ∀ e ∈ files, ∃ made, Client.madeBy mode e.2 = .ok made := by
    intro files
    induction files with
    | nil => exact fun start => ⟨fun _ => forall_mem_nil _, fun _ => ⟨start, rfl⟩⟩
    | cons e files ih =>
      intro start
      rw [forall_mem_cons, foldlM_cons]
      cases hmade : Client.madeBy mode e.2 with
      | error fault => simp [bind, Except.bind]
      | ok made =>
        simp only [ok_bind, pure_bind, Except.ok.injEq, exists_eq', true_and]
        exact ih _
  exact hall _ []

/-- The list of a file has the client objects of its program once for each time that the file is gone to. -/
theorem records_of_visits {found : FileClients} (h : clients mode tree repository = .ok found)
    (hprogram : tree.program e.1 = .ok e.2) {made : List Client} (hmade : Client.madeBy mode e.2 = .ok made) :
    (Keyed.find? e.1 found).getD [] =
      (replicate (((importers mode tree repository).map (·.1)).count e.1) made).flatten := by
  have hfiles : ∀ e' ∈ importers mode tree repository, e'.1 = e.1 → e'.2 = e.2 := by
    intro e' he' hpath
    have hprogram' := (mem_importers he').2
    rw [hpath] at hprogram'
    exact Except.ok.inj (hprogram'.symm.trans hprogram)
  have hfind := find?_foldlM_madeBy e.2 _ hfiles h
  simp only [hmade, Except.toOption, Option.getD_some] at hfind
  rw [hfind]
  split
  · rename_i hempty
    rw [isEmpty_iff.1 hempty]
    rfl
  · rfl

theorem records_of_clients (hlisted : (tree.walkFiles repository).Nodup) {found : FileClients}
    (h : clients mode tree repository = .ok found) (he : e ∈ programs tree repository) {made : List Client}
    (hmade : Client.madeBy mode e.2 = .ok made) :
    (Keyed.find? e.1 found).getD [] = (replicate (importCount mode e.2) made).flatten := by
  obtain ⟨hfile, hextension, hprogram⟩ := mem_programs he
  have hvisits : visits tree mode e.1 = importCount mode e.2 := by
    simp [visits, hextension, hprogram, Except.toOption]
  rw [records_of_visits h hprogram hmade, map_fst_importers, count_flatMap_replicate,
    count_eq_one_of_mem hlisted hfile, Nat.one_mul, hvisits]

/-- **When each client object is listed once.** In a repository where no file is listed twice, the client objects
are found and the list of each file that imports what makes them has its plain ones once each, in the order of a
walk, if and only if each such file imports by one statement, if it has client objects, and makes only plain ones. -/
theorem one_record_each_iff (mode : ImportMode) (tree : FileTree) (repository : String)
    (hlisted : (tree.walkFiles repository).Nodup) :
    (∃ found, clients mode tree repository = .ok found ∧
      ∀ e ∈ programs tree repository, 0 < importCount mode e.2 →
        ListsOnce mode e.2 ((Keyed.find? e.1 found).getD [])) ↔
    ∀ e ∈ programs tree repository, 0 < importCount mode e.2 →
      (∀ x ∈ e.2.walk, Regular mode x) ∧
        ((∃ x ∈ e.2.walk, (Client.plain? mode x).isSome) → importCount mode e.2 = 1) := by
  constructor
  · rintro ⟨found, hfound, hlists⟩ e he hpos
    obtain ⟨made, hmade⟩ := exists_clients_iff.1 ⟨found, hfound⟩ e (mem_importers_iff.2 ⟨he, hpos⟩)
    have hrecords : (List.replicate (importCount mode e.2) made).flatten = plainOnes mode e.2 := by
      rw [← records_of_clients hlisted hfound he hmade, listsOnce_iff.1 (hlists e he hpos)]
    have hlength : importCount mode e.2 * made.length = (plainOnes mode e.2).length := by
      rw [← hrecords, List.length_flatten, List.map_replicate, List.sum_replicate_nat]
    obtain ⟨hle, hregular⟩ := Client.length_plainOnes hmade
    -- All client objects are listed at least once, so there are no more of them than plain ones.
    have hge : made.length ≤ (plainOnes mode e.2).length := by
      rw [← hlength]
      exact Nat.le_mul_of_pos_left _ hpos
    refine ⟨hregular hge, ?_⟩
    rintro ⟨x, hx, hplain⟩
    obtain ⟨client, hclient⟩ := Option.isSome_iff_exists.1 hplain
    have hmem : client ∈ plainOnes mode e.2 := List.mem_filterMap.2 ⟨x, hx, hclient⟩
    have hsome : 0 < made.length := Nat.lt_of_lt_of_le (List.length_pos_of_mem hmem) hle
    have hsame : importCount mode e.2 * made.length = 1 * made.length := by omega
    exact Nat.eq_of_mul_eq_mul_right hsome hsame
  · intro hfiles
    have hmade : ∀ e ∈ importers mode tree repository, Client.madeBy mode e.2 = .ok (plainOnes mode e.2) := by
      intro e he
      obtain ⟨he, hpos⟩ := mem_importers_iff.1 he
      exact Client.madeBy_of_regular (hfiles e he hpos).1
    obtain ⟨found, hfound⟩ := exists_clients_iff.2 fun e he => ⟨_, hmade e he⟩
    refine ⟨found, hfound, fun e he hpos => listsOnce_iff.2 ?_⟩
    rw [records_of_clients hlisted hfound he (hmade e (mem_importers_iff.2 ⟨he, hpos⟩))]
    cases hplain : plainOnes mode e.2 with
    | nil => simp
    | cons client more =>
      have hmem : client ∈ plainOnes mode e.2 := by rw [hplain]; exact List.mem_cons_self
      obtain ⟨x, hx, hclient⟩ := List.mem_filterMap.1 hmem
      rw [(hfiles e he hpos).2 ⟨x, hx, by rw [hclient]; rfl⟩]
      simp

/-! ## A second import -/

open Injection (onLine)
open Syntax (parseModule runParse_eq)

/-- The statement that imports the whole module, on a third line. -/
def secondImport : Ast :=
  .node .importStmt (onLine 3 0 12) [.list [.node .importName (onLine 3 7 12) [.name "boto3", .absent]]]

theorem programs_makers {more : String} (h : (makers more).program "app/m.py" = .ok program) :
    programs (makers more) "app" = [("app/m.py", program)] := by
  have hextension : (Path.extension "app/m.py" == ".py") := by decide +kernel
  rw [programs, walkFiles_makers]
  simp only [filterMap_cons, hextension, if_true, h, filterMap_nil]

/-- The client object of a file is listed once if the file imports once, and not if it imports twice. -/
theorem listed_twice_by_second_import :
    (∃ found, clients .whole (makers "") "app" = .ok found ∧
      ∀ e ∈ programs (makers "") "app", 0 < importCount .whole e.2 →
        ListsOnce .whole e.2 ((Keyed.find? e.1 found).getD [])) ∧
    ¬∃ found, clients .whole (makers "\nimport boto3") "app" = .ok found ∧
      ∀ e ∈ programs (makers "\nimport boto3") "app", 0 < importCount .whole e.2 →
        ListsOnce .whole e.2 ((Keyed.find? e.1 found).getD []) := by
  have hlisted : ∀ more, ((makers more).walkFiles "app").Nodup := by
    intro more
    rw [walkFiles_makers]
    decide
  have htext : ∀ more, (makers more).program "app/m.py" =
      programOf (Text.readAsText ("import boto3\ns3 = boto3.client('s3')" ++ more ++ "\n")) :=
    fun more => FileTree.program_of_stored rfl
  constructor
  · have hread : (makers "").program "app/m.py" = .ok (importing [clientAssigned]) := by
      refine eq_ok_of_toOption ?_
      rw [htext, toOption_programOf, parseModule, runParse_eq, Text.toList_readAsText]
      decide +kernel
    have hassign : ∀ x ∈ (importing [clientAssigned]).walk, x.isKind .assign = false ∨ x = clientAssigned := by
      decide +kernel
    have honce : importCount .whole (importing [clientAssigned]) = 1 := by decide +kernel
    rw [one_record_each_iff .whole (makers "") "app" (hlisted ""), programs_makers hread]
    simp only [List.mem_singleton, forall_eq]
    intro _
    refine ⟨fun x hx => ?_, fun _ => honce⟩
    rcases hassign x hx with hkind | rfl
    · exact Client.regular_of_isKind hkind
    · exact Client.regular_iff.2 rfl
  · have hread : (makers "\nimport boto3").program "app/m.py" =
        .ok (importing [clientAssigned, secondImport]) := by
      refine eq_ok_of_toOption ?_
      rw [htext, toOption_programOf, parseModule, runParse_eq, Text.toList_readAsText]
      decide +kernel
    have htwice : importCount .whole (importing [clientAssigned, secondImport]) = 2 := by decide +kernel
    have hplain : ∃ x ∈ (importing [clientAssigned, secondImport]).walk, (Client.plain? .whole x).isSome :=
      ⟨clientAssigned, by decide +kernel, rfl⟩
    rw [one_record_each_iff .whole (makers "\nimport boto3") "app" (hlisted _), programs_makers hread]
    simp only [List.mem_singleton, forall_eq, htwice]
    intro hall
    cases (hall Nat.zero_lt_two).2 hplain

end TypeHints

/-! ## Services that are not known -/

namespace Client

/-- The call of an assignment that makes a client object, if the call does not name the service by a text. -/
def unknownCall? (mode : ImportMode) (statement : Ast) : Option Ast := do
  let (_, call) ← statement.assignment?
  if (kindMade? mode call).isSome && (serviceText? call).isNone then some call else none

/-- The client object of an assignment whose call names the service by a text. -/
def known? (mode : ImportMode) (statement : Ast) : Option Client := do
  let (name, call) ← statement.assignment?
  let kind ← kindMade? mode call
  let service ← serviceText? call
  return ⟨call.line?.getD 0, name, kind, .literal (.str service)⟩

def givenByKeyword? (call : Ast) : Option Ast :=
  (call.itemsOf .keywords).find? (Ast.hasKeyword (.str "service_name")) >>= Ast.keywordValue?

/-- The call has a first argument, and neither this nor the argument with the keyword has a value of its own. Variables
have none; literals, attributes, items of containers and arguments with a star have one. -/
def LacksValue (call : Ast) : Prop :=
  (∀ given ∈ givenByKeyword? call, given.field? .value = none) ∧
    ∃ first ∈ (call.itemsOf .args).head?, first.field? .value = none

variable {mode : ImportMode} {call x program : Ast}

theorem serviceOf_eq_missing_iff : serviceOf call = .error .missingAttribute ↔ LacksValue call := by
  have hkeyword : givenByKeyword? call >>= Ast.field? .value = none ↔
      ∀ given ∈ givenByKeyword? call, given.field? .value = none := by
    cases givenByKeyword? call <;> simp
  rw [LacksValue, ← hkeyword]
  have hgiven : (call.itemsOf .keywords).find? (Ast.hasKeyword (.str "service_name")) >>= Ast.keywordValue? =
      givenByKeyword? call := rfl
  simp only [serviceOf, hgiven]
  cases givenByKeyword? call >>= Ast.field? .value with
  | some service => simp
  | none =>
    cases call.itemsOf .args with
    | nil => simp
    | cons first more => cases hfirst : first.field? .value <;> simp [hfirst]

/-- An assignment makes what is known of it, unless its service is unknown and it is not passed over. -/
theorem ofAssignment?_eq_known?_iff :
    ofAssignment? mode x = .ok (known? mode x) ↔ ∀ call ∈ unknownCall? mode x, LacksValue call := by
  cases hx : x.assignment? with
  | none =>
    have hnone : ofAssignment? mode x = .ok none := by
      unfold ofAssignment?
      split
      · split <;> [cases hx; rfl]
      · rfl
    simp [hnone, known?, unknownCall?, hx]
  | some pair =>
    obtain ⟨name, call⟩ := pair
    obtain ⟨span, place, more, rfl⟩ :
        ∃ span place more, x = .node .assign span [.list (.node .name place [.name name] :: more), call] := by
      unfold Ast.assignment? at hx
      split at hx
      · cases hx
        exact ⟨_, _, _, rfl⟩
      · cases hx
    cases hkind : kindMade? mode call with
    | none => simp [ofAssignment?, known?, unknownCall?, hx, hkind]
    | some kind =>
      cases htext : serviceText? call with
      | some text =>
        simp [ofAssignment?, known?, unknownCall?, hx, hkind, htext, serviceOf_of_serviceText? htext]
      | none =>
        simp only [ofAssignment?, known?, unknownCall?, hx, hkind, htext, Option.bind_eq_bind, Option.bind_some,
          Option.bind_none, Option.isSome_some, Option.isNone_none, Bool.and_self, if_true, Option.mem_some_iff, forall_eq',
          ← serviceOf_eq_missing_iff]
        split <;> simp_all

theorem known?_of_unknownCall? (h : (unknownCall? mode x).isSome) : known? mode x = none := by
  unfold unknownCall? at h
  cases hx : x.assignment? with
  | none => simp [known?, hx]
  | some pair =>
    have hnone : serviceText? pair.2 = none := by
      rw [hx] at h
      simpa using (Bool.and_eq_true_iff.1 (Option.isSome_ite.1 h)).2
    simp [known?, hx, hnone]

theorem ofAssignment?_of_known? {client : Client} (h : known? mode x = some client) :
    ofAssignment? mode x = .ok (some client) := by
  rw [← h, ofAssignment?_eq_known?_iff]
  intro call hcall
  rw [known?_of_unknownCall? (Option.isSome_of_mem hcall)] at h
  cases h

/-- The program with empty statements in the place of the assignments whose services are unknown. -/
def withoutUnknown (mode : ImportMode) (program : Ast) : Ast := program.keeping fun x => (unknownCall? mode x).isNone

/-- Without the assignments whose services are unknown a program gives no fault. -/
theorem madeBy_withoutUnknown (h : program.conforms (.one .module)) :
    madeBy mode (withoutUnknown mode program) = .ok ((program.walkKind .assign).filterMap (known? mode)) := by
  have hkept : (withoutUnknown mode program).walkKind .assign =
      (program.walkKind .assign).filter fun x => (unknownCall? mode x).isNone :=
    Ast.walkKind_keeping h (Ast.isNode_of_conforms_one h)
  have hmade : ∀ x ∈ (withoutUnknown mode program).walkKind .assign, ofAssignment? mode x = .ok (known? mode x) := by
    intro x hx
    rw [hkept] at hx
    rw [ofAssignment?_eq_known?_iff, Option.isNone_iff_eq_none.1 (mem_filter.1 hx).2]
    exact fun _ hcall => nomatch hcall
  rw [madeBy_of_chosen hmade, hkept, filterMap_filter]
  refine congrArg (fun choose => Except.ok (filterMap choose _)) (funext fun x => ?_)
  cases hunknown : unknownCall? mode x with
  | none => rfl
  | some call => exact (known?_of_unknownCall? (by rw [hunknown]; rfl)).symm

end Client

namespace TypeHints

open Client (LacksValue unknownCall? withoutUnknown)

/-- **When client objects of unknown services are skipped.** The client objects of a repository are found, and the list
of each file that is gone to has, each time, those of its program without the assignments whose services are unknown, if
and only if in these files each such assignment is passed over: its call has a first argument, and neither this nor the
one with the keyword has a value of its own. -/
theorem unknown_services_skipped_iff (mode : ImportMode) (tree : FileTree) (repository : String) :
    (∃ found, clients mode tree repository = .ok found ∧
      ∀ e ∈ importers mode tree repository, ∃ made, Client.madeBy mode (withoutUnknown mode e.2) = .ok made ∧
        (Keyed.find? e.1 found).getD [] =
          (List.replicate (((importers mode tree repository).map (·.1)).count e.1) made).flatten) ↔
    ∀ e ∈ importers mode tree repository, ∀ x ∈ e.2.walkKind .assign, ∀ call ∈ unknownCall? mode x,
      LacksValue call := by
  have hwithout : ∀ e ∈ importers mode tree repository, Client.madeBy mode (withoutUnknown mode e.2) =
      .ok ((e.2.walkKind .assign).filterMap (Client.known? mode)) := by
    intro e he
    obtain ⟨text, -, htext⟩ := bind_eq_ok_iff.1 (mem_importers he).2
    exact Client.madeBy_withoutUnknown (conforms_of_programOf htext)
  constructor
  · rintro ⟨found, hfound, hlists⟩ e he x hx call hcall
    obtain ⟨made, hmade⟩ := exists_clients_iff.1 ⟨found, hfound⟩ e he
    obtain ⟨known, hknown, hrecords⟩ := hlists e he
    cases (hwithout e he).symm.trans hknown
    have hcount : 0 < ((importers mode tree repository).map (·.1)).count e.1 :=
      List.count_pos_iff.2 (List.mem_map_of_mem he)
    -- The list has as many client objects each time as without the unknown ones.
    have hlength := congrArg List.length ((records_of_visits hfound (mem_importers he).2 hmade).symm.trans hrecords)
    simp only [List.length_flatten, List.map_replicate, List.sum_replicate_nat] at hlength
    have hsame := (Client.length_chosen (fun _ _ => Client.ofAssignment?_of_known?) hmade).2
      (Nat.le_of_eq (Nat.eq_of_mul_eq_mul_left hcount hlength))
    exact Client.ofAssignment?_eq_known?_iff.1 (hsame x hx) call hcall
  · intro hpassed
    have hmade : ∀ e ∈ importers mode tree repository, Client.madeBy mode e.2 =
        .ok ((e.2.walkKind .assign).filterMap (Client.known? mode)) := fun e he =>
      Client.madeBy_of_chosen fun x hx => Client.ofAssignment?_eq_known?_iff.2 (hpassed e he x hx)
    obtain ⟨found, hfound⟩ := exists_clients_iff.2 fun e he => ⟨_, hmade e he⟩
    exact ⟨found, hfound, fun e he => ⟨_, hwithout e he, records_of_visits hfound (mem_importers he).2 (hmade e he)⟩⟩

end TypeHints

end ServerlessTaint
