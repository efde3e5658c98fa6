import ServerlessTaint.Proofs.HintedTrees
import ServerlessTaint.Proofs.Passes

/-!
# Rounds of hints and imports

A file with client objects is changed in rounds. Each reads the program that the round before left in the
file, and writes it with hints or with imports. The client objects are looked for once for each way of
importing, and a round takes place for each statement that imports in this way. A program of the grammar is
written as a text that can be read, and no other is (`ReadsBack.readable_iff`), so the rounds go on as long
as no hint stands at a target that cannot be annotated (`Follows.readable_iff`). If they go on to the end,
the types of all hints are imported (`imports_of_history`).
-/

namespace ServerlessTaint.TypeHints

open List
open Syntax (Ast)
open Syntax.Ast (Within)
open Injection (reread)

/-! ## Rounds -/

/-- A change of a program: hints for client objects, or imports of their types. -/
inductive Change where
  | hints (clients : List Client)
  | imports (clients : List Client)
  deriving DecidableEq, Repr

def Change.apply : Change → Ast → Ast
  | .hints clients => addHints clients
  | .imports clients => addImports clients

def Change.given : Change → Ast → List (Ast × String)
  | .hints clients, program =>
    program.assignments.filterMap fun x => (hint? clients x).map fun type => (x, type)
  | .imports _, _ => []

/-- What happens to a file: the changes, each with the program to which it is made, and what can be read from
the file at the end. -/
structure History where
  rounds : List (Change × Ast)
  last : Except Fault Ast

namespace History

/-- What happens first, and then to what it leaves. A file that cannot be read is left alone. -/
def andThen (history : History) (next : Ast → History) : History :=
  match history.last with
  | .ok program => ⟨history.rounds ++ (next program).rounds, (next program).last⟩
  | .error _ => history

/-- The assignments that get hints, with the types. -/
def given (history : History) : List (Ast × String) :=
  history.rounds.flatMap fun round => round.1.given round.2

section

variable {history : History} {next : Ast → History}

/-- Nothing happens after a history. -/
theorem andThen_of_done (h : ∀ program, next program = ⟨[], .ok program⟩) : history.andThen next = history := by
  obtain ⟨rounds, last⟩ := history
  cases last <;> simp [andThen, h]

/-- Nothing happens before a history. -/
theorem done_andThen (program : Ast) : (History.mk [] (.ok program)).andThen next = next program := rfl

theorem last_andThen : (history.andThen next).last = history.last >>= fun mid => (next mid).last := by
  unfold andThen
  cases hlast : history.last with
  | ok mid => rfl
  | error fault => exact hlast

theorem last_andThen_iff {last : Ast} :
    (history.andThen next).last = .ok last ↔ ∃ mid, history.last = .ok mid ∧ (next mid).last = .ok last := by
  rw [last_andThen, bind_eq_ok_iff]

theorem mem_rounds_andThen {round : Change × Ast} :
    round ∈ (history.andThen next).rounds ↔
      round ∈ history.rounds ∨ ∃ mid, history.last = .ok mid ∧ round ∈ (next mid).rounds := by
  unfold andThen
  cases hlast : history.last with
  | ok mid => simp
  | error fault => simp

variable {x : Ast × String}

theorem mem_given : x ∈ history.given ↔ ∃ round ∈ history.rounds, x ∈ round.1.given round.2 :=
  mem_flatMap

theorem mem_given_andThen :
    x ∈ (history.andThen next).given ↔ x ∈ history.given ∨ ∃ mid, history.last = .ok mid ∧ x ∈ (next mid).given := by
  simp only [mem_given, mem_rounds_andThen]
  grind

end

end History

/-- A change made again and again. -/
def repeated (change : Change) : Nat → Ast → History
  | 0, program => ⟨[], .ok program⟩
  | n + 1, program => History.andThen ⟨[(change, program)], reread (change.apply program)⟩ (repeated change n)

/-- The number of statements that import what makes client objects. -/
def importCount (mode : ImportMode) (program : Ast) : Nat := (program.walk.filter (Client.isImport mode)).length

/-- The client objects that are found in a file: those of its program, as often as it imports. -/
def clientsOf (mode : ImportMode) (program : Ast) : List Client :=
  (List.replicate (importCount mode program) ((Client.madeBy mode program).toOption.getD [])).flatten

def times (mode : ImportMode) (clients : List Client) (program : Ast) : Nat :=
  if clients.isEmpty then 0 else importCount mode program

def historyFor (mode : ImportMode) (program : Ast) : History :=
  let clients := clientsOf mode program
  (repeated (.hints clients) (times mode clients program) program).andThen fun hinted =>
    repeated (.imports clients) (times mode clients hinted) hinted

def history : List ImportMode → Ast → History
  | [], program => ⟨[], .ok program⟩
  | mode :: modes, program => (historyFor mode program).andThen (history modes)

/-! ## Programs that are written and read -/

/-- A program of the grammar is written as a text that can be read, and what is read is the same up to
positions and marks. -/
def ReadsBack (program : Ast) : Prop :=
  (program.conforms (.one .module) = true → ∃ back, reread program = .ok back) ∧
    ∀ back, reread program = .ok back → back.plain = program.plain

instance (program : Ast) : Decidable (ReadsBack program) :=
  match h : reread program with
  | .ok back => decidable_of_iff (back.plain = program.plain)
      ⟨fun hsame => ⟨fun _ => ⟨back, h⟩, fun _ hback => Except.ok.inj (h.symm.trans hback) ▸ hsame⟩,
        fun hback => hback.2 back h⟩
  | .error fault => decidable_of_iff (program.conforms (.one .module) = false)
      ⟨fun hno => ⟨fun hyes => by simp [hno] at hyes, fun _ hback => by simp [h] at hback⟩, fun hback => by
        refine Bool.eq_false_iff.2 fun hyes => ?_
        obtain ⟨back, hback⟩ := hback.1 hyes
        simp [h] at hback⟩

variable {program : Ast} {change : Change} {type : String} {client : Client} {h : History} {mode : ImportMode}
  {x : Ast × String} {types : ServiceTypes} {next : Ast → History}

theorem conforms_of_programOf {text : String} (h : programOf text = .ok program) : program.conforms (.one .module) := by
  unfold programOf at h
  split at h
  · rename_i hparse
    cases h
    exact Syntax.conforms_of_parseModule hparse
  · cases h

theorem conforms_of_reread {back : Ast} (h : reread program = .ok back) : back.conforms (.one .module) := by
  unfold reread at h
  split at h
  · exact conforms_of_programOf h
  · cases h

/-- Only programs of the grammar can be read after they were written. -/
theorem ReadsBack.readable_iff (h : ReadsBack program) :
    (∃ back, reread program = .ok back) ↔ program.conforms (.one .module) := by
  refine ⟨?_, h.1⟩
  rintro ⟨back, hback⟩
  rw [← Ast.conforms_plain, ← h.2 back hback, Ast.conforms_plain]
  exact conforms_of_reread hback

/-! ## Histories of a program -/

/-- A history starts from a program, and its rounds follow each other. -/
inductive Follows : Ast → History → Prop
  | done {program : Ast} : Follows program ⟨[], .ok program⟩
  | stop {change : Change} {program : Ast} {fault : Fault} : reread (change.apply program) = .error fault →
      Follows program ⟨[(change, program)], .error fault⟩
  | round {change : Change} {program next : Ast} {later : History} : reread (change.apply program) = .ok next →
      Follows next later → Follows program ⟨(change, program) :: later.rounds, later.last⟩

theorem Follows.andThen {first : History} (h : Follows program first)
    (hnext : ∀ program, Follows program (next program)) : Follows program (first.andThen next) := by
  induction h with
  | @done program => exact hnext program
  | stop hfault => exact .stop hfault
  | @round change program read later hread hlater ih =>
    have hsame : (History.mk ((change, program) :: later.rounds) later.last).andThen next =
        ⟨(change, program) :: (later.andThen next).rounds, (later.andThen next).last⟩ := by
      obtain ⟨rounds, last⟩ := later
      cases last <;> rfl
    rw [hsame]
    exact .round hread ih

theorem follows_repeated (change : Change) (n : Nat) (program : Ast) : Follows program (repeated change n program) := by
  induction n generalizing program with
  | zero => exact .done
  | succ n ih =>
    refine Follows.andThen ?_ ih
    cases hread : reread (change.apply program) with
    | error fault => exact .stop hread
    | ok next => exact .round hread .done

theorem follows_historyFor (mode : ImportMode) (program : Ast) : Follows program (historyFor mode program) :=
  (follows_repeated _ _ program).andThen fun hinted => follows_repeated _ _ hinted

theorem follows_history (modes : List ImportMode) (program : Ast) : Follows program (history modes program) := by
  induction modes generalizing program with
  | nil => exact .done
  | cons mode modes ih => exact (follows_historyFor mode program).andThen ih

/-! ## When the file can be read at the end -/

theorem conforms_apply_iff (h : program.conforms (.one .module)) :
    (change.apply program).conforms (.one .module) ↔ ∀ x ∈ change.given program, AnnotatesOne x.1 := by
  cases change with
  | hints clients =>
    rw [Change.apply, conforms_addHints_iff clients h]
    simp only [Change.given, mem_filterMap, Option.map_eq_some_iff, Option.isSome_iff_exists]
    constructor
    · rintro hone _ ⟨x, hx, type, htype, rfl⟩
      exact hone x hx ⟨type, htype⟩
    · rintro hone x hx ⟨type, htype⟩
      exact hone (x, type) ⟨x, hx, type, htype, rfl⟩
  | imports clients => simp [Change.apply, Change.given, conforms_addImports clients h]

/-- The file can be read at the end if and only if each hint stands at a target that can be annotated. -/
theorem Follows.readable_iff (hfollows : Follows program h) (hprogram : program.conforms (.one .module))
    (hback : ∀ round ∈ h.rounds, ReadsBack (round.1.apply round.2)) :
    (∃ last, h.last = .ok last) ↔ ∀ x ∈ h.given, AnnotatesOne x.1 := by
  induction hfollows with
  | done => simp [History.given]
  | @stop change program fault hfault =>
    have hread := (hback _ mem_cons_self).readable_iff.trans (conforms_apply_iff hprogram)
    simpa [History.given, hfault] using hread
  | @round change program next later hread _ ih =>
    have hfirst := ((hback _ mem_cons_self).readable_iff.trans (conforms_apply_iff hprogram)).1 ⟨next, hread⟩
    have hlater := ih (conforms_of_reread hread) fun round hround => hback round (mem_cons_of_mem _ hround)
    rw [hlater]
    simp only [History.given, flatMap_cons, mem_append, or_imp, forall_and]
    exact ⟨fun hrest => ⟨hfirst, hrest⟩, And.right⟩

/-! ## What the rounds keep -/

/-- The history of a program whose rounds are read back. -/
structure Reliable (program : Ast) (history : History) : Prop where
  follows : Follows program history
  conforms : program.conforms (.one .module) = true
  back : ∀ round ∈ history.rounds, ReadsBack (round.1.apply round.2)

theorem Reliable.first {first : History} (h : Reliable program (first.andThen next))
    (hfollows : Follows program first) : Reliable program first :=
  ⟨hfollows, h.conforms, fun round hround => h.back round (History.mem_rounds_andThen.2 (.inl hround))⟩

/-- What each change keeps in programs of the grammar, up to positions and marks, is kept to the end. -/
theorem Reliable.keeps {P : Ast → Prop}
    (hchange : ∀ (change : Change) {program : Ast}, program.conforms (.one .module) → P program →
      P (change.apply program))
    (hplain : ∀ {program program' : Ast}, program'.plain = program.plain → P program → P program') {last : Ast}
    (hreliable : Reliable program h) (hlast : h.last = .ok last) (hP : P program) : P last := by
  obtain ⟨hfollows, hprogram, hback⟩ := hreliable
  induction hfollows with
  | done =>
    cases hlast
    exact hP
  | stop => cases hlast
  | @round change program next later hread _ ih =>
    have hsame := (hback _ mem_cons_self).2 next hread
    exact ih hlast (hplain hsame (hchange change hprogram hP)) (conforms_of_reread hread) fun round hround =>
      hback round (mem_cons_of_mem _ hround)

/-- The program after a reliable history is one of the grammar. -/
theorem Reliable.conforms_last {last : Ast} (hreliable : Reliable program h) (hlast : h.last = .ok last) :
    last.conforms (.one .module) := by
  obtain ⟨hfollows, hprogram, -⟩ := hreliable
  induction hfollows with
  | done =>
    cases hlast
    exact hprogram
  | stop => cases hlast
  | round hread _ ih => exact ih hlast (conforms_of_reread hread)

theorem Reliable.later {mid : Ast} {first : History} (h : Reliable program (first.andThen next))
    (hfollows : Follows program first) (hmid : first.last = .ok mid) (hnext : Follows mid (next mid)) :
    Reliable mid (next mid) :=
  ⟨hnext, (h.first hfollows).conforms_last hmid, fun round hround =>
    h.back round (History.mem_rounds_andThen.2 (.inr ⟨mid, hmid, hround⟩))⟩

theorem Reliable.exists_import {last : Ast} (hreliable : Reliable program h) (hlast : h.last = .ok last)
    (himport : ∃ x, Within x program ∧ Client.isImport mode x) : ∃ x, Within x last ∧ Client.isImport mode x := by
  refine hreliable.keeps (P := fun t => ∃ x, Within x t ∧ Client.isImport mode x = true) ?_ ?_ hlast himport
  · rintro change program hprogram ⟨x, hx, himport⟩
    cases change with
    | hints clients => exact ⟨x, within_addHints clients himport hx hprogram, himport⟩
    | imports clients => exact ⟨x, within_addImports clients himport hx hprogram, himport⟩
  · exact Ast.exists_import_within

theorem Reliable.imports {module : String} {last : Ast} (hreliable : Reliable program h) (hlast : h.last = .ok last)
    (himports : Imports program module type) : Imports last module type := by
  refine hreliable.keeps (P := fun t => Imports t module type) ?_ ?_ hlast himports
  · intro change program hprogram himports
    cases change with
    | hints clients => exact himports.addHints clients hprogram
    | imports clients => exact himports.addImports clients hprogram
  · exact fun hsame himports => himports.of_plain hsame

/-! ## Hints and imports -/

theorem importCount_pos_iff (h : program.conforms (.one .module)) :
    0 < importCount mode program ↔ ∃ x, Within x program ∧ Client.isImport mode x := by
  obtain ⟨span, body, rfl, -⟩ := exists_body h
  rw [importCount, length_pos_iff_exists_mem]
  simp only [mem_filter, Ast.mem_walk_iff h rfl]
  constructor
  · rintro ⟨x, ⟨-, hx⟩, himport⟩
    exact ⟨x, hx, himport⟩
  · rintro ⟨x, hx, himport⟩
    exact ⟨x, ⟨Ast.isNode_of_isImport himport, hx⟩, himport⟩

theorem change_of_mem_repeated {n : Nat} {round : Change × Ast} (h : round ∈ (repeated change n program).rounds) :
    n ≠ 0 ∧ round.1 = change := by
  induction n generalizing program with
  | zero => cases h
  | succ n ih =>
    refine ⟨Nat.succ_ne_zero n, ?_⟩
    rcases History.mem_rounds_andThen.1 h with h | ⟨mid, -, h⟩
    · rw [mem_singleton.1 h]
    · exact (ih h).2

/-- A hint is the type of a client object. -/
theorem exists_client_of_given {clients : List Client} (h : x ∈ (Change.hints clients).given program) :
    ∃ client ∈ clients, client.typeName? = some x.2 := by
  obtain ⟨assignment, -, hx⟩ := mem_filterMap.1 h
  obtain ⟨type, htype, rfl⟩ := Option.map_eq_some_iff.1 hx
  unfold hint? at htype
  split at htype
  · obtain ⟨client, hfind, htype⟩ := Option.bind_eq_some_iff.1 htype
    exact ⟨client, mem_of_find?_eq_some hfind, htype⟩
  · cases htype

/-- A program imports a type from the module of a service that has objects of this type. -/
def ImportsType (program : Ast) (type : String) : Prop :=
  ∃ service types, ∃ kind : ClientKind, ServiceTypes.of? service = some types ∧ kind.typeName? types = some type ∧
    Imports program types.module type

theorem importsType_of_client (htypes : client.types? = some types) (htype : client.typeName? = some type)
    (himports : Imports program types.module type) : ImportsType program type := by
  obtain ⟨service, -, hservice⟩ := Option.bind_eq_some_iff.1 htypes
  rw [Client.typeName?, htypes] at htype
  exact ⟨service, types, client.kind, hservice, htype, himports⟩

theorem ImportsType.last {last : Ast} (himports : ImportsType program type) (hreliable : Reliable program h)
    (hlast : h.last = .ok last) : ImportsType last type := by
  obtain ⟨service, types, kind, hservice, htype, himports⟩ := himports
  exact ⟨service, types, kind, hservice, htype, hreliable.imports hlast himports⟩

/-- Rounds of imports import the types of the client objects. -/
theorem imports_of_repeated {clients : List Client} {n : Nat} (hn : 0 < n) {last : Ast}
    (hreliable : Reliable program (repeated (.imports clients) n program))
    (hlast : (repeated (.imports clients) n program).last = .ok last) (hclient : client ∈ clients)
    (htypes : client.types? = some types) (htype : client.typeName? = some type) : Imports last types.module type := by
  obtain ⟨n, rfl⟩ := Nat.exists_eq_succ_of_ne_zero (Nat.pos_iff_ne_zero.1 hn)
  obtain ⟨next, hread, hlast⟩ := History.last_andThen_iff.1 hlast
  have hback : next.plain = (addImports clients program).plain :=
    (hreliable.back (.imports clients, program) (History.mem_rounds_andThen.2 (.inl mem_cons_self))).2 next hread
  have hnext : Imports next types.module type :=
    (imports_of_client hclient htypes htype hreliable.conforms).of_plain hback
  have hlater : Reliable next (repeated (.imports clients) n next) :=
    ⟨follows_repeated _ _ _, conforms_of_reread hread, fun round hround =>
      hreliable.back round (History.mem_rounds_andThen.2 (.inr ⟨next, hread, hround⟩))⟩
  exact hlater.imports hlast hnext

/-- The types of the hints for one way of importing are imported. -/
theorem imports_of_historyFor {last : Ast} (hreliable : Reliable program (historyFor mode program))
    (hlast : (historyFor mode program).last = .ok last) (hx : x ∈ (historyFor mode program).given) :
    ImportsType last x.2 := by
  have hfollows := follows_repeated (.hints (clientsOf mode program))
    (times mode (clientsOf mode program) program) program
  obtain ⟨hinted, hhinted, hlast⟩ := History.last_andThen_iff.1 hlast
  rcases History.mem_given_andThen.1 hx with hx | ⟨_, -, hx⟩
  · obtain ⟨round, hround, hx⟩ := History.mem_given.1 hx
    obtain ⟨htimes, hchange⟩ := change_of_mem_repeated hround
    rw [hchange] at hx
    obtain ⟨client, hclient, htype⟩ := exists_client_of_given hx
    obtain ⟨types, htypes, -⟩ := Option.bind_eq_some_iff.1 htype
    have hsome : (clientsOf mode program).isEmpty = false := by
      simpa using ne_nil_of_mem hclient
    -- The file still imports when the hints are in it, so there are rounds of imports.
    have himports : 0 < importCount mode program := by
      rw [times, hsome] at htimes
      exact Nat.pos_of_ne_zero htimes
    have hstill := (hreliable.first hfollows).exists_import hhinted
      ((importCount_pos_iff hreliable.conforms).1 himports)
    have hlater := hreliable.later hfollows hhinted (follows_repeated _ _ _)
    have hpos : 0 < times mode (clientsOf mode program) hinted := by
      rw [times, hsome]
      exact (importCount_pos_iff hlater.conforms).2 hstill
    exact importsType_of_client htypes htype (imports_of_repeated hpos hlater hlast hclient htypes htype)
  · obtain ⟨round, hround, hx⟩ := History.mem_given.1 hx
    rw [(change_of_mem_repeated hround).2] at hx
    cases hx

/-- If the file can be read at the end, the types of all hints are imported. -/
theorem imports_of_history {modes : List ImportMode} {last : Ast} (hreliable : Reliable program (history modes program))
    (hlast : (history modes program).last = .ok last) (hx : x ∈ (history modes program).given) :
    ImportsType last x.2 := by
  induction modes generalizing program with
  | nil => cases hx
  | cons mode modes ih =>
    have hfollows := follows_historyFor mode program
    obtain ⟨mid, hmid, hlast⟩ := History.last_andThen_iff.1 hlast
    have hlater := hreliable.later hfollows hmid (follows_history modes mid)
    rcases History.mem_given_andThen.1 hx with hx | ⟨mid', hmid', hx⟩
    · exact (imports_of_historyFor (hreliable.first hfollows) hmid hx).last hlater hlast
    · cases hmid.symm.trans hmid'
      exact ih hlater hlast hx

end ServerlessTaint.TypeHints
