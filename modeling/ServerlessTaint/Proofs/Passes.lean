import ServerlessTaint.Proofs.FileEdits
import ServerlessTaint.Proofs.Reasons

/-!
# All passes over a file

Each client object of a file is worked on in a pass of its own, on the program that the pass before
left in the file. A statement of the program at the beginning is followed through the passes, each of
which may put in reactions after it. No handler is put in twice there for an event of a call exactly if
no two passes answer the same (`answered_once_iff`). Client objects are told apart by their names
alone, so two of one name in two functions both answer the calls of either.

The call of a handler that was put in is a call and nothing else, and a pass does not look into calls. So a further pass
leaves such calls in place, and only adds those that it puts in (`standBetween_run`).
-/

namespace ServerlessTaint

open List Marked
open Syntax (Ast Kind Span)

def Reaction.callStatement (r : Reaction) : Ast := Injection.handlerCall r.calledName

namespace Injection

theorem handlerCall_eq (name : String) :
    ∃ children, handlerCall name = .node .exprStmt none [.node .call none children] := ⟨_, rfl⟩

theorem unplaced_handlerCall (name : String) : (handlerCall name).unplaced = handlerCall name := by
  unfold handlerCall
  split <;> rfl

theorem callStatements_sublist (rs : List Reaction) :
    (rs.map Reaction.callStatement).Sublist ((rs.flatMap Reaction.code).map Ast.unplaced) := by
  induction rs with
  | nil => exact List.Sublist.slnil
  | cons r rs ih =>
    simp only [map_cons, flatMap_cons, Reaction.code, unplaced_handlerCall, cons_append,
      nil_append]
    exact (ih.cons_cons _).cons _

variable {name : String} {m : Marked} {work : Injection}

/-- A tree that is the call of a handler up to positions is a statement with only a call in it. -/
theorem eq_call_of_unplaced {t : Ast} (h : t.unplaced = handlerCall name) :
    ∃ span span' children, t = .node .exprStmt span [.node .call span' children] := by
  obtain ⟨inside, hinside⟩ := handlerCall_eq name
  rw [hinside] at h
  cases t with
  | node kind span children =>
    simp only [Ast.unplaced, Ast.node.injEq, true_and] at h
    obtain ⟨rfl, hchildren⟩ := h
    rw [Ast.unplacedAll_eq_map] at hchildren
    obtain ⟨call, rfl, hcall⟩ : ∃ call, children = [call] ∧ call.unplaced = .node .call none inside := by
      simpa [map_eq_cons_iff] using hchildren
    cases call with
    | node kind span' parts =>
      simp only [Ast.unplaced, Ast.node.injEq] at hcall
      obtain ⟨rfl, _⟩ := hcall
      exact ⟨span, span', parts, rfl⟩
    | _ => cases hcall
  | _ => cases h

/-! ## Parts of records -/

/-- A part of a record: the record of a tree, or a tree that was kept. -/
def IsRecord (work : Injection) (m : Marked) : Prop :=
  (∃ isBody t, m = work.mark isBody t) ∨ ∃ t, m = .kept t

theorem IsRecord.part {part : Marked} (h : work.IsRecord m) (hpart : part ∈ m.parts) : work.IsRecord part := by
  have hkept : ∀ t : Ast, part ∈ (kept t).parts → work.IsRecord part := by
    intro t hmem
    obtain ⟨u, _, rfl⟩ := mem_map.1 hmem
    exact .inr ⟨u, rfl⟩
  rcases h with ⟨isBody, t, rfl⟩ | ⟨t, rfl⟩
  · rcases mark_cases work isBody t with hmark | ⟨kind, span, children, _, rfl, rfl, hmark⟩ |
      ⟨items, rfl, rfl, hmark⟩ | ⟨items, rfl, rfl, hmark⟩ <;> rw [hmark] at hpart
    · exact hkept t hpart
    · obtain ⟨i, hi⟩ := mem_iff_getElem?.1 hpart
      simp only [parts, getElem?_markFields, Option.map_eq_some_iff] at hi
      obtain ⟨u, _, rfl⟩ := hi
      exact .inl ⟨_, u, rfl⟩
    · obtain ⟨u, _, rfl⟩ := mem_map.1 hpart
      exact .inl ⟨false, u, rfl⟩
    · obtain ⟨i, hi⟩ := mem_iff_getElem?.1 hpart
      simp only [parts, getElem?_map, getElem?_markBody, Option.map_map,
        Option.map_eq_some_iff] at hi
      obtain ⟨u, _, rfl⟩ := hi
      simp only [Function.comp_apply]
      split
      · exact .inl ⟨false, u, rfl⟩
      · exact .inr ⟨u, rfl⟩
  · exact hkept t hpart

theorem IsRecord.at? {route : List Nat} {part : Marked} (h : work.IsRecord m) (hat : m.at? route = some part) :
    work.IsRecord part := by
  induction route generalizing m with
  | nil => cases hat; exact h
  | cons i route ih =>
    simp only [at?] at hat
    split at hat
    · rename_i p hp
      exact ih (h.part (mem_of_getElem? hp)) hat
    · cases hat

/-- A pass leaves the calls of handlers as they are. -/
theorem IsRecord.after_eq (h : work.IsRecord m) (hcall : m.before.unplaced = handlerCall name) :
    m.after = m.before := by
  rcases h with ⟨isBody, t, rfl⟩ | ⟨t, rfl⟩
  · rw [(sound_mark _ _ _).1] at hcall ⊢
    obtain ⟨span, span', children, rfl⟩ := eq_call_of_unplaced hcall
    rw [mark_node work isBody (by decide)]
    cases isBody with
    | true => rfl
    | false =>
      have hfields : work.markFields (Kind.fields .exprStmt) [.node .call span' children] =
          [.kept (.node .call span' children)] := by
        simp [markFields, mark, show Kind.fields .exprStmt = [.value] from rfl]
      rw [if_neg Bool.false_ne_true, hfields]
      rfl
  · rfl

/-! ## One more pass -/

/-- Items that are picked from a list are also picked from one that agrees with it on them. -/
theorem sublist_map_of_agree {α β : Type} {xs : List α} {picked : List β} {f g : α → β}
    (h : picked.Sublist (xs.map f)) (hagree : ∀ x ∈ xs, f x ∈ picked → g x = f x) : picked.Sublist (xs.map g) := by
  induction xs generalizing picked with
  | nil => exact h
  | cons x xs ih =>
    have hrest : ∀ {rest : List β}, (∀ y ∈ rest, y ∈ picked) → ∀ y ∈ xs, f y ∈ rest → g y = f y :=
      fun hmem y hy hf => hagree y (mem_cons_of_mem _ hy) (hmem _ hf)
    rw [map_cons] at h ⊢
    cases h with
    | cons _ h => exact (ih h (hrest fun _ hy => hy)).cons _
    | cons_cons _ h =>
      rw [hagree x mem_cons_self mem_cons_self]
      exact (ih h (hrest fun _ hy => mem_cons_of_mem _ hy)).cons_cons _

/-- **A further pass only adds.** Calls of handlers that stand between two statements still do after a
pass, and before them stand those that it puts in after the first statement. -/
theorem standBetween_run (work : Injection) {first last : List Nat} {calls : List Ast}
    (hcalls : ∀ call ∈ calls, ∃ name, call = handlerCall name)
    (h : work.program.StandBetween first last calls) :
    work.run.StandBetween (work.marked.moved first) (work.marked.moved last)
      ((work.marked.putsAt first).map Reaction.callStatement ++ calls) := by
  obtain ⟨above, a, b, whole, rfl, rfl, hab, hat, ha, hsub⟩ := h
  rw [← marked_before, at?_before, Option.map_eq_some_iff] at hat
  obtain ⟨m, hm, rfl⟩ := hat
  have hrecord : work.IsRecord m := IsRecord.at? (.inl ⟨false, work.program, rfl⟩) hm
  have hmoved : ∀ i, work.marked.moved (above ++ [i]) = work.marked.moved above ++ [m.newIndex i] := by
    intro i
    rw [moved_append hm]
    cases hi : m.parts[i]? <;> simp [moved, hi]
  rw [parts_before, length_map] at ha
  have hpart : m.parts[a]? = some m.parts[a] := getElem?_eq_getElem ha
  refine ⟨work.marked.moved above, m.newIndex a, m.newIndex b, m.after, hmoved a, hmoved b,
    m.newIndex_lt hab, ?_, ?_, ?_⟩
  · rw [← marked_after]
    exact at?_after hm
  · obtain ⟨rest, hrest⟩ := drop_parts_after hpart
    have hlength := congrArg length hrest
    simp only [length_drop, length_cons] at hlength
    omega
  · rw [putsAt_append hm]
    -- The calls that were there before are picked from parts that the pass leaves as they are.
    have hold : calls.Sublist (((between a b m.parts).map Marked.after).map Ast.unplaced) := by
      rw [parts_before, ← map_between, map_map] at hsub
      rw [map_map]
      refine sublist_map_of_agree hsub ?_
      intro part hmem hcall
      obtain ⟨name, hname⟩ := hcalls _ hcall
      have hparts : part ∈ m.parts := mem_of_mem_take (mem_of_mem_drop hmem)
      simp [(hrecord.part hparts).after_eq hname]
    have hboth := (callStatements_sublist (m.puts a)).append hold
    rw [← map_append] at hboth
    exact hboth.trans ((sublist_between_after hab hpart).map _)

end Injection

end ServerlessTaint

namespace ServerlessTaint.Injection

open List
open Syntax (Ast Span parseModule runParse_eq)

/-! ## The passes -/

theorem reread_of_source {program : Ast} {text : String} (h : program.source? = some text) :
    reread program = programOf (Text.readAsText text) := by
  rw [reread, h]

/-- A program that was written is read as the same up to positions, if it can be read. -/
def ReadsBack (program : Ast) : Prop :=
  ∀ back, reread program = .ok back → back.unplaced = program.unplaced

/-- The works on client objects of a file one after the other, and the program at the end. -/
def passes (apis : Value) (application : Application) (file : String) :
    List Client → Ast → Except Fault (List Injection × Ast)
  | [], program => .ok ([], program)
  | client :: rest, program => do
    let work := ofProgram apis application file client program
    let (works, last) ← passes apis application file rest (← reread work.run)
    return (work :: works, last)

/-- The works with the routes to one statement of the first program. -/
def followed : List Injection → List Nat → List (Injection × List Nat)
  | [], _ => []
  | work :: rest, route => (work, route) :: followed rest (work.marked.moved route)

/-- The route in the last program to a statement of the first one. -/
def finalRoute (works : List Injection) (route : List Nat) : List Nat :=
  works.foldl (fun route work => work.marked.moved route) route

/-- The reactions to a statement of the first program in all passes. -/
def answers (works : List Injection) (route : List Nat) : List Reaction :=
  (followed works route).flatMap fun step => step.1.marked.putsAt step.2

/-- The calls of handlers after a statement of the first program. Those of a later pass come first. -/
def callsPut (works : List Injection) (route : List Nat) : List Ast :=
  (followed works route).reverse.flatMap fun step => (step.1.marked.putsAt step.2).map Reaction.callStatement

section

variable {apis : Value} {application : Application} {file : String} {last : Ast} {tree tree' : FileTree}
  {clients : List Client} {works : List Injection} {program : Ast} {client : Client}

theorem passes_cons_eq_ok_iff {rest : List Client} :
    passes apis application file (client :: rest) program = .ok (works, last) ↔
      ∃ next later, reread (ofProgram apis application file client program).run = .ok next ∧
        passes apis application file rest next = .ok (later, last) ∧
        works = ofProgram apis application file client program :: later := by
  simp only [passes, bind_eq_ok_iff]
  constructor
  · rintro ⟨next, hnext, ⟨later, _⟩, hlater, hpair⟩
    cases hpair
    exact ⟨next, later, hnext, hlater, rfl⟩
  · rintro ⟨next, later, hnext, hlater, rfl⟩
    exact ⟨next, hnext, (later, last), hlater, rfl⟩

section

variable (h : passes apis application file clients program = .ok (works, last))

include h

theorem apis_of_mem_passes : ∀ work ∈ works, work.apis = apis := by
  induction clients generalizing program works with
  | nil => cases h; simp
  | cons client rest ih =>
    obtain ⟨next, later, _, hlater, rfl⟩ := passes_cons_eq_ok_iff.1 h
    exact forall_mem_cons.2 ⟨rfl, ih hlater⟩

/-- **All passes only add.** Calls of handlers that stand between two statements of the first program
do so in the last one, after those that the passes put in after the first statement. -/
theorem standBetween_passes (hback : ∀ work ∈ works, ReadsBack work.run) {first next : List Nat} {calls : List Ast}
    (hcalls : ∀ call ∈ calls, ∃ name, call = handlerCall name) (hstand : program.StandBetween first next calls) :
    last.StandBetween (finalRoute works first) (finalRoute works next) (callsPut works first ++ calls) := by
  induction clients generalizing program works first next calls with
  | nil => cases h; exact hstand
  | cons client rest ih =>
    obtain ⟨read, later, hread, hlater, rfl⟩ := passes_cons_eq_ok_iff.1 h
    let work := ofProgram apis application file client program
    have hrun : work.run.StandBetween (work.marked.moved first) (work.marked.moved next)
        ((work.marked.putsAt first).map Reaction.callStatement ++ calls) :=
      standBetween_run work hcalls hstand
    have hput : ∀ call ∈ (work.marked.putsAt first).map Reaction.callStatement ++ calls,
        ∃ name, call = handlerCall name := by
      intro call hcall
      rcases mem_append.1 hcall with hnew | hold
      · obtain ⟨r, _, rfl⟩ := mem_map.1 hnew
        exact ⟨r.calledName, rfl⟩
      · exact hcalls call hold
    -- The positions are new when the file is read, but the calls stand where the pass left them.
    have hsame := hback work mem_cons_self read hread
    have hrest := ih hlater (fun work hwork => hback work (mem_cons_of_mem _ hwork)) hput
      (hrun.of_unplaced hsame)
    simpa [callsPut, followed, finalRoute] using hrest

end

/-! ## The passes and the files -/

/-- The client objects of a repository with their files, in the order in which they are worked on. -/
def steps (clients : RepositoryClients) : List (String × Client) :=
  clients.flatMap fun entry => entry.2.flatMap fun found => found.2.map fun client => (found.1, client)

def ownClients (file : String) (steps : List (String × Client)) : List Client :=
  (steps.filter (·.1 = file)).map (·.2)

theorem injectAll_eq (apis : Value) (application : Application) (clients : RepositoryClients) :
    injectAll apis application clients =
      (steps clients).forM fun step => injectClient apis application step.1 step.2 := by
  have hflat : ∀ {α β : Type} (xs : List α) (f : α → List β) (g : β → Edit Unit),
      (xs.flatMap f).forM g = xs.forM fun x => (f x).forM g := by
    intro α β xs f g
    induction xs with
    | nil => rfl
    | cons x xs ih =>
      simp only [forM_eq_forM] at ih ⊢
      rw [flatMap_cons, forM_append, forM_cons, ih]
  simp [injectAll, steps, hflat]

/-- The work on a client object, as the rewriting of its file. -/
def rewriteFor (apis : Value) (application : Application) (step : String × Client) : Rewrite :=
  ⟨step.1, fun program => (ofProgram apis application step.1 step.2 program).run⟩

theorem result_rewriteFor (steps : List (String × Client)) (program : Ast) :
    Rewrite.result file (steps.map (rewriteFor apis application)) program =
      Prod.snd <$> passes apis application file (ownClients file steps) program := by
  induction steps generalizing program with
  | nil => rfl
  | cons step steps ih =>
    simp only [Rewrite.result, ownClients] at ih ⊢
    by_cases hown : step.1 = file
    · subst hown
      simp only [map_cons, filter_cons_of_pos, rewriteFor, decide_true, foldlM_cons, passes, map_bind,
        bind_pure_comp, Functor.map_map]
      simp [← ih]
    · simpa [rewriteFor, hown] using ih program

/-- **The passes leave their last program in the file**, whatever is done to other files. -/
theorem program_after_steps (steps : List (String × Client)) {old : String}
    (hrun : (steps.forM fun step => injectClient apis application step.1 step.2).run.run tree =
      (.ok (), tree')) (hplaces : ∀ step ∈ steps, step.1 = file ∨ tree.locate step.1 ≠ tree.locate file)
    (hold : tree.stored file = .ok old) :
    tree'.program file =
      tree.program file >>= fun program =>
        Prod.snd <$> passes apis application file (ownClients file steps) program := by
  have hrewrites : ((steps.map (rewriteFor apis application)).forM Rewrite.edit).run.run tree = (.ok (), tree') := by
    rwa [forM_eq_forM, forM_map]
  obtain ⟨-, -, hprogram⟩ := Rewrite.program_after hrewrites (forall_mem_map.2 hplaces) hold
  rw [hprogram]
  simp [← result_rewriteFor]

/-- The passes over one file go through if each program that they write can be read. -/
theorem exists_run_of_passes (steps : List (String × Client)) (hown : ∀ step ∈ steps, step.1 = file) {program : Ast}
    (hprogram : tree.program file = .ok program)
    (hpasses : passes apis application file (steps.map (·.2)) program = .ok (works, last)) :
    ∃ tree', (steps.forM fun step => injectClient apis application step.1 step.2).run.run tree = (.ok (), tree') := by
  induction steps generalizing tree program works with
  | nil => exact ⟨tree, rfl⟩
  | cons step steps ih =>
    obtain rfl := hown step mem_cons_self
    obtain ⟨next, later, hnext, hlater, rfl⟩ := passes_cons_eq_ok_iff.1 hpasses
    have htext : (ofProgram apis application step.1 step.2 program).run.source?.isSome := by
      unfold reread at hnext
      split at hnext
      · simp [*]
      · cases hnext
    obtain ⟨mid, hfirst⟩ := (rewriteFor apis application step).exists_run hprogram htext
    obtain ⟨_, hprogram', hread, -⟩ := Rewrite.effect hfirst
    cases hprogram.symm.trans hprogram'
    obtain ⟨tree', hrest⟩ := ih (fun step hstep => hown step (mem_cons_of_mem _ hstep)) (hread.trans hnext) hlater
    exact ⟨tree', Edit.bind_eq_ok_iff.2 ⟨(), mid, hfirst, hrest⟩⟩

end

/-! ## Each call is answered once -/

/-- In a pass, a handler reacts to an event of a call after the statement at a route. -/
def Answers (work : Injection) (route : List Nat) (subject : Ast × String × String) : Prop :=
  ∃ statement reactions, work.Reaches false work.program route statement ∧
    work.reactionsTo statement = .ok reactions ∧ subject ∈ reactions.map Reaction.subject

variable {route : List Nat} {works : List Injection}

theorem mem_subjects (work : Injection) {subject : Ast × String × String} :
    subject ∈ (work.marked.putsAt route).map Reaction.subject ↔ work.Answers route subject := by
  simp only [mem_map, marked, mem_putsAt_mark, Answers]
  constructor
  · rintro ⟨r, ⟨s, reactions, hs, hreactions, hr⟩, rfl⟩
    exact ⟨s, reactions, hs, hreactions, r, hr, rfl⟩
  · rintro ⟨s, reactions, hs, hreactions, r, hr, rfl⟩
    exact ⟨r, ⟨s, reactions, hs, hreactions, hr⟩, rfl⟩

theorem mem_of_mem_followed {step : Injection × List Nat} (h : step ∈ followed works route) : step.1 ∈ works := by
  induction works generalizing route with
  | nil => cases h
  | cons work works ih =>
    rcases mem_cons.1 h with rfl | h
    · exact mem_cons_self
    · exact mem_cons_of_mem _ (ih h)

/-- Over all passes no handler reacts twice exactly if no two passes answer the same. -/
theorem nodup_answers_iff (hapis : ∀ work ∈ works, work.apis = Apis.catalogue) (route : List Nat) :
    ((answers works route).map Reaction.subject).Nodup ↔
      (followed works route).Pairwise fun earlier later =>
        ∀ subject, earlier.1.Answers earlier.2 subject → ¬ later.1.Answers later.2 subject := by
  rw [answers, map_flatMap, List.Nodup, pairwise_flatMap]
  have hone : ∀ step ∈ followed works route, ((step.1.marked.putsAt step.2).map Reaction.subject).Pairwise (· ≠ ·) :=
    fun step hstep => nodup_putsAt step.1 (hapis step.1 (mem_of_mem_followed hstep)) step.2
  rw [and_iff_right hone]
  refine List.Pairwise.iff fun earlier later => ?_
  simp only [mem_subjects]
  constructor
  · intro h subject hearlier hlater
    exact h subject hearlier subject hlater rfl
  · rintro h subject hearlier _ hlater rfl
    exact h subject hearlier hlater

/-- **When each call is answered once.** After all passes the file holds the program of the last one. If
programs are read back as they were written, the calls of handlers that were put in after a statement
stand there between it and the next. No handler is among them twice for an event of a call exactly if no
two passes answer the same. Other files may be worked on in between. -/
theorem answered_once_iff {application : Application} {clients : RepositoryClients} {file : String}
    {tree tree' : FileTree} {program last statement : Ast} {works : List Injection} (above : List Nat)
    (i : Nat) (hread : tree.program file = .ok program)
    (hplaces : ∀ step ∈ steps clients, step.1 = file ∨ tree.locate step.1 ≠ tree.locate file)
    (hrun : (injectAll Apis.catalogue application clients).run.run tree = (.ok (), tree'))
    (hpasses : passes Apis.catalogue application file (ownClients file (steps clients)) program =
      .ok (works, last))
    (hat : program.at? (above ++ [i]) = some statement) :
    tree'.program file = .ok last ∧
    ((∀ work ∈ works, ReadsBack work.run) →
      last.StandBetween (finalRoute works (above ++ [i])) (finalRoute works (above ++ [i + 1]))
        (callsPut works (above ++ [i]))) ∧
    (((answers works (above ++ [i])).map Reaction.subject).Nodup ↔
      (followed works (above ++ [i])).Pairwise fun earlier later =>
        ∀ subject, earlier.1.Answers earlier.2 subject → ¬ later.1.Answers later.2 subject) := by
  refine ⟨?_, ?_, nodup_answers_iff (apis_of_mem_passes hpasses) _⟩
  · obtain ⟨old, hold⟩ := FileTree.stored_of_program hread
    rw [injectAll_eq] at hrun
    rw [program_after_steps (steps clients) hrun hplaces hold, hread, ok_bind, hpasses]
    rfl
  · intro hback
    have hstand : program.StandBetween (above ++ [i]) (above ++ [i + 1]) [] := by
      rw [Ast.at?_append, Option.bind_eq_some_iff] at hat
      obtain ⟨whole, hwhole, hi⟩ := hat
      refine ⟨above, i, i + 1, whole, rfl, rfl, Nat.lt_succ_self i, hwhole, ?_, List.nil_sublist _⟩
      cases hpart : whole.parts[i]? with
      | none => simp [Ast.at?, hpart] at hi
      | some part => exact (List.getElem?_eq_some_iff.1 hpart).1
    simpa using standBetween_passes hpasses hback (by simp) hstand

/-! ## Two client objects of one name -/

def messages : Application where
  config := .map [("functions", .map [("g", .map [("handler", .str "m.g")])])]
  grants := ⟨[("sqs", ["SendMessage"])], [("*", [.permission "sqs" "SendMessage"])]⟩
  handlers := [("g", [⟨"sqs", "MessageSent"⟩])]
  facts := {}

def onLine (line start stop : Nat) : Option Span := some ⟨⟨line, start⟩, ⟨line, stop⟩⟩

/-- A call that sends a message, as it is read from the first line. -/
def sent : Ast :=
  .node .exprStmt (onLine 1 0 16) [.node .call (onLine 1 0 16)
    [.node .attributeRef (onLine 1 0 14) [.node .name (onLine 1 0 1) [.name "q"], .name "send_message"],
     .list [], .list []]]

/-- The two statements of the reaction to `sent`, with the given positions. -/
def sentReaction (place : Nat → Nat → Nat → Option Span) (line : Nat) : List Ast :=
  let text (a b : Nat) (s : String) : Ast := .node .constant (place line a b) [.literal (.str s)]
  let nothing (a b : Nat) : Ast := .node .constant (place line a b) [.literal .none]
  let record : Ast := .node .dict (place line 21 59)
    [.list [text 22 28 "body", text 36 52 "eventSourceARN"], .list [nothing 30 34, nothing 54 58]]
  [.node .assign (place line 0 61)
     [.list [.node .name (place line 0 5) [.name "event"]],
      .node .dict (place line 8 61)
        [.list [text 9 18 "Records"], .list [.node .list (place line 20 60) [.list [record]]]]],
   .node .exprStmt (place (line + 1) 0 17)
     [.node .call (place (line + 1) 0 17)
       [.node .name (place (line + 1) 0 1) [.name "g"],
        .list [.node .name (place (line + 1) 2 7) [.name "event"],
          .node .name (place (line + 1) 9 16) [.name "context"]],
        .list []]]]

/-- The program that sends a message, with what was put in after the call. -/
def sending (reactions : List Ast) : Ast := .node .module none [.list (sent :: reactions)]

def sendingText : Nat → String
  | 0 => "q.send_message()\n"
  | n + 1 => sendingText n ++
    "event = \x7b'Records': [\x7b'body': None, 'eventSourceARN': None\x7d]\x7d\ng(event, context)\n"

/-- The work on a client object `q`. -/
def sendingWork (line : Nat) (reactions : List Ast) : Injection :=
  ofProgram Apis.catalogue messages "m.py" ⟨line, "q", .client, .literal (.str "sqs")⟩ (sending reactions)

def sendingClients : RepositoryClients :=
  [(.whole, [("m.py",
    [⟨4, "q", .client, .literal (.str "sqs")⟩, ⟨8, "q", .client, .literal (.str "sqs")⟩])])]

def sendingFiles : FileTree := FileTree.empty.putFile ["m.py"] (sendingText 0)

def sendingWorks : List Injection := [sendingWork 4 [], sendingWork 8 (sentReaction onLine 2)]

/-- What is put in after `sent` has no positions until it is read. -/
theorem reread_sendingWork :
    reread (sendingWork 4 []).run = .ok (sending (sentReaction onLine 2)) ∧
    reread (sendingWork 8 (sentReaction onLine 2)).run =
      .ok (sending (sentReaction onLine 2 ++ sentReaction onLine 4)) := by
  have hrun : (sendingWork 4 []).run = sending (sentReaction (fun _ _ _ => none) 0) := by decide +kernel
  have hrun' : (sendingWork 8 (sentReaction onLine 2)).run =
      sending (sentReaction (fun _ _ _ => none) 0 ++ sentReaction onLine 2) := by decide +kernel
  have htext : (sending (sentReaction (fun _ _ _ => none) 0)).source? = some (sendingText 1) := by
    decide +kernel
  have htext' : (sending (sentReaction (fun _ _ _ => none) 0 ++ sentReaction onLine 2)).source? =
      some (sendingText 2) := by decide +kernel
  have hsent : (sendingText 0).toList = _ := String.toList_ofList
  have hreaction (n : Nat) : (sendingText (n + 1)).toList = (sendingText n).toList ++ _ :=
    String.toList_append.trans (congrArg (_ ++ ·) String.toList_ofList)
  constructor
  · rw [hrun, reread_of_source htext]
    refine eq_ok_of_toOption ?_
    rw [toOption_programOf, parseModule, runParse_eq, Text.toList_readAsText, hreaction, hsent]
    decide +kernel
  · rw [hrun', reread_of_source htext']
    refine eq_ok_of_toOption ?_
    rw [toOption_programOf, parseModule, runParse_eq, Text.toList_readAsText, hreaction, hreaction, hsent]
    decide +kernel

/-- Both passes answer the one call, and the handler is called twice after it. -/
theorem message_answered_twice :
    ∃ tree, (injectAll Apis.catalogue messages sendingClients).run.run sendingFiles = (.ok (), tree) ∧
      tree.program "m.py" = .ok (sending (sentReaction onLine 2 ++ sentReaction onLine 4)) ∧
      (sending (sentReaction onLine 2 ++ sentReaction onLine 4)).StandBetween (finalRoute sendingWorks [0, 0])
        (finalRoute sendingWorks [0, 1]) [handlerCall "g", handlerCall "g"] ∧
      ¬ (followed sendingWorks [0, 0]).Pairwise fun earlier later =>
        ∀ subject, earlier.1.Answers earlier.2 subject → ¬ later.1.Answers later.2 subject := by
  have hread : sendingFiles.program "m.py" = .ok (sending []) := eq_ok_of_toOption (by decide +kernel)
  have hown : ∀ step ∈ steps sendingClients, step.1 = "m.py" := by decide
  have hpasses : passes Apis.catalogue messages "m.py" (ownClients "m.py" (steps sendingClients))
      (sending []) = .ok (sendingWorks, sending (sentReaction onLine 2 ++ sentReaction onLine 4)) :=
    passes_cons_eq_ok_iff.2 ⟨_, _, reread_sendingWork.1,
      passes_cons_eq_ok_iff.2 ⟨_, _, reread_sendingWork.2, rfl, rfl⟩, rfl⟩
  have hback : ∀ work ∈ sendingWorks, ReadsBack work.run := by
    intro work hwork back hback
    rcases List.mem_cons.1 hwork with rfl | hwork
    · cases hback.symm.trans reread_sendingWork.1
      decide +kernel
    · rw [List.mem_singleton.1 hwork] at hback ⊢
      cases hback.symm.trans reread_sendingWork.2
      decide +kernel
  obtain ⟨tree, hrun⟩ := exists_run_of_passes (steps sendingClients) hown hread hpasses
  rw [← injectAll_eq] at hrun
  obtain ⟨hlast, hstand, hiff⟩ := answered_once_iff [0] 0 hread
    (fun step hstep => .inl (hown step hstep)) hrun hpasses rfl
  have hcalls : callsPut sendingWorks [0, 0] = [handlerCall "g", handlerCall "g"] := by decide +kernel
  have htwice : ¬ ((answers sendingWorks [0, 0]).map Reaction.subject).Nodup := by decide +kernel
  exact ⟨tree, hrun, hlast, hcalls ▸ hstand hback, fun h => htwice (hiff.2 h)⟩

end ServerlessTaint.Injection
