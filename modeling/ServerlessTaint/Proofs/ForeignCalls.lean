import ServerlessTaint.Proofs.FoundCalls
import ServerlessTaint.Proofs.Reasons

/-!
# Calls on other objects

The call that is answered after a statement is the last one looked at in it (`pending_eq_filter`). It is told from
other calls by its line and its name alone: it has to stand on the line of a call on the client object or on an
object that it makes, and the catalogue has to know its name. With a catalogue that knows one name and an application
that answers it, any such call is answered (`reactionsTo_sole`). So only calls on the client object are answered,
whatever the catalogue and the application, exactly if no call on another object is the last one of a statement and
shares a line with one of them (`answers_own_calls_iff`).
-/

namespace ServerlessTaint

open Syntax (Ast Field Kind Span)

namespace Injection

/-! ## The last call of a statement -/

mutual

/-- The call that was looked at last when a tree was gone through, given the one before it. Bodies are gone through
on their own, and after one there is none. -/
def lastCall (isBody : Bool) : Ast → Option Ast → Option Ast
  | .node .call span children, _ => some (.node .call span children)
  | .node kind _ children, before => if isBody then none else lastCallFields kind.fields children before
  | .list items, before => if isBody then none else lastCallItems items before
  | _, before => if isBody then none else before

/-- `lastCall` for the fields of a node. -/
def lastCallFields : List Field → List Ast → Option Ast → Option Ast
  | _, [], before => before
  | [], child :: rest, before => lastCallFields [] rest (lastCall false child before)
  | field :: fields, child :: rest, before => lastCallFields fields rest (lastCall (field = .body) child before)

def lastCallItems : List Ast → Option Ast → Option Ast
  | [], before => before
  | item :: rest, before => lastCallItems rest (lastCall false item before)

end

theorem lastCall_node (isBody : Bool) {kind : Kind} (h : kind ≠ .call) (span : Option Span) (children : List Ast)
    (before : Option Ast) :
    lastCall isBody (.node kind span children) before =
      if isBody then none else lastCallFields kind.fields children before :=
  lastCall.eq_2 isBody before kind span children h

theorem lastCallItems_eq_fields (ts : List Ast) (before : Option Ast) :
    lastCallItems ts before = lastCallFields [] ts before := by
  induction ts generalizing before with
  | nil => simp only [lastCallItems, lastCallFields]
  | cons t ts ih => simp only [lastCallItems, lastCallFields, ih]

mutual

/-- The pending call is the last one that was looked at, if it triggers handlers. -/
theorem pending_eq_filter (work : Injection) (isBody : Bool) : ∀ (t : Ast) (before : Option Ast),
    work.pending isBody t (before.filter work.isTrigger) = (lastCall isBody t before).filter work.isTrigger
  | .node kind span children, before => by
    by_cases hcall : kind = .call
    · subst hcall
      simp only [pending, lastCall, Option.filter_some]
    · rw [pending_node work isBody hcall, lastCall_node isBody hcall]
      cases isBody with
      | true => rfl
      | false => simp only [Bool.false_eq_true, if_false, pendingFields_eq_filter work _ children before]
  | .list items, before => by
    simp only [pending, lastCall]
    cases isBody with
    | true => rfl
    | false =>
      simp only [Bool.false_eq_true, if_false, pendingItems_eq_fields, lastCallItems_eq_fields,
        pendingFields_eq_filter work [] items before]
  | .absent, before | .name _, before | .number _, before | .literal _, before => by
    simp only [pending, lastCall]
    cases isBody <;> rfl

theorem pendingFields_eq_filter (work : Injection) : ∀ (fields : List Field) (ts : List Ast) (before : Option Ast),
    work.pendingFields fields ts (before.filter work.isTrigger) =
      (lastCallFields fields ts before).filter work.isTrigger
  | _, [], before => by simp only [pendingFields, lastCallFields]
  | [], t :: ts, before => by
    simp only [pendingFields, lastCallFields, pending_eq_filter work false t, pendingFields_eq_filter work [] ts]
  | field :: fields, t :: ts, before => by
    simp only [pendingFields, lastCallFields, pending_eq_filter work _ t, pendingFields_eq_filter work fields ts]

end

def callOf? (statement : Ast) : Option Ast := lastCall false statement none

theorem pending_eq_some_iff (work : Injection) {statement call : Ast} :
    work.pending false statement none = some call ↔ callOf? statement = some call ∧ work.isTrigger call := by
  have hfilter := pending_eq_filter work false statement none
  rw [Option.filter_none] at hfilter
  rw [hfilter, callOf?, Option.filter_eq_some_iff]

/-! ## A catalogue with one call -/

def soleInfo : Value := .map [("permissions", .list [.str "p"]), ("events", .list [.str "e"])]

def soleConfig : Value := .map [("functions", .map [("g", .map [("handler", .str "m.g")])])]

/-- The work on a client object with a catalogue that knows one call on it, in an application that may make this
call and has one handler, for its event. -/
def sole (client : Client) (program : Ast) (api : String) : Injection :=
  let service := client.service?.getD ""
  ofProgram (.map [(service, .map [(client.kind.key, .map [(api, soleInfo)])])])
    ⟨soleConfig, ⟨[(service, ["p"])], []⟩, [("g", [⟨service, "e"⟩])], {}⟩ "m.py" client program

section

variable {client : Client} {program call statement : Ast} {api : String}

theorem apiInfo_sole (h : client.service?.isSome) (name : String) : (sole client program api).apiInfo name =
    if api = name then .ok soleInfo else .error (.missingKey (Text.quoted name)) := by
  obtain ⟨service, hservice⟩ := Option.isSome_iff_exists.1 h
  rw [apiInfo, show (sole client program api).client.service? = _ from hservice]
  by_cases hname : api = name <;>
    simp [sole, ofProgram, Value.getAll, Value.get, Keyed.find?, hservice, hname, bind, Except.bind, pure, Except.pure]

theorem isAllowed_sole (function : Option String) :
    (sole client program api).isAllowed call soleInfo function = .ok true := by
  have hgranted : (Keyed.find? (sole client program api).serviceName
      (sole client program api).application.grants.services).getD [] = ["p"] := by
    simp [sole, ofProgram, serviceName, Keyed.find?]
  simp only [isAllowed, hgranted]
  cases function.bind fun f => Application.handlerAt? (sole client program api).application.config
    (sole client program api).file (.str f) <;> rfl

theorem handlersOf_sole : (sole client program api).handlersOf "e" = ["g"] := by
  simp [handlersOf, sole, ofProgram, serviceName, Handlers.byEvent, Handlers.listed,
    Keyed.find?_modify, Keyed.find?, addNew]

/-- The handler is called after the call, on whatever object it is. -/
theorem exists_reactions_sole (h : client.service?.isSome) (hcall : call.attribute? = some api) :
    ∃ r, (sole client program api).reactions call = .ok [r] ∧ r.call = call := by
  have hraised : (sole client program api).raised call = .ok (.null, [.str "e"]) :=
    (raised_eq_ok_iff _ hcall).2 ⟨soleInfo, by rw [apiInfo_sole h, if_pos rfl], rfl, rfl⟩
  have hname : Application.calledName soleConfig "m.py" (.str "g") = .ok "g" := by decide +kernel
  obtain ⟨object, hobject⟩ : ∃ object, EventObject.ofNode (sole client program api).serviceName (.str "e")
      (sole client program api).found.origins call = .ok object := by
    obtain ⟨_, _, _, rfl, -⟩ := Ast.exists_of_attribute? hcall
    exact ⟨_, rfl⟩
  have hreaction : (sole client program api).reaction? call .null "e" "g" =
      .ok (some ⟨call, "e", "g", object, "g"⟩) :=
    (reaction?_eq_some_iff _).2 ⟨rfl, hname, hobject, rfl, rfl, rfl⟩
  refine ⟨⟨call, "e", "g", object, "g"⟩, ?_, rfl⟩
  simp [Injection.reactions, hraised, bind, Except.bind, pure, Except.pure, eventReactions, handlersOf_sole,
    handlersReactions, hreaction]

theorem faultFree_sole (h : client.service?.isSome) (s : Ast) : (sole client program api).faultFree s := by
  unfold faultFree reactionsTo
  split
  · rfl
  · rename_i call hpending
    obtain ⟨_, name, info, -, -, hcall, hinfo, -⟩ := (isTrigger_iff _ call).1 ((pending_eq_some_iff _).1 hpending).2
    rw [apiInfo_sole h] at hinfo
    split at hinfo
    · subst name
      obtain ⟨r, hr, -⟩ := exists_reactions_sole h hcall
      rw [hr]
      rfl
    · cases hinfo

/-- A pass without faults gets to the statements that any pass gets to. -/
theorem Reaches.of_faultFree {work work' : Injection} (hfree : ∀ s, work'.faultFree s) {isBody : Bool}
    {t s : Ast} {route : List Nat} (h : work.Reaches isBody t route s) : work'.Reaches isBody t route s := by
  induction h with
  | statement hi _ => exact .statement hi fun s _ => hfree s
  | inside hi _ _ ih => exact .inside hi (fun s _ => hfree s) ih
  | item hi _ ih => exact .item hi ih
  | field hcall hi _ ih => exact .field hcall hi ih

/-! ## Whose calls are answered -/

def chainStart? : Ast → Option String
  | .node .name _ [.name id] => some id
  | .node .attributeRef _ (value :: _) => chainStart? value
  | .node .call _ (func :: _) => chainStart? func
  | _ => none

/-- A call is made, directly or further on in a chain, on a client object or on an object that it makes. -/
def StartsOn (client : String) (program call : Ast) : Prop :=
  ∃ object, chainStart? call = some object ∧
    (object = client ∨ ∃ statement ∈ program.walk, ClientCalls.Makes client statement object)

/-- A call can be taken for one on a client object whose service is known: it is a call of an attribute and shares
its line with a call on the client object. -/
def TakenFor (client : Client) (program call : Ast) : Prop :=
  client.service?.isSome ∧ ∃ api line, call.attribute? = some api ∧ call.line? = some line ∧
    line ∈ (ClientCalls.ofProgram client.name program).lines

/-- A reaction answers the last call of its statement, and this call can be taken for one on the client object. -/
theorem takenFor_of_mem_reactionsTo {apis : Value} {application : Application} {file : String} {r : Reaction}
    {reactions : List Reaction} (hr : r ∈ reactions)
    (h : (ofProgram apis application file client program).reactionsTo statement = .ok reactions) :
    callOf? statement = some r.call ∧ TakenFor client program r.call := by
  obtain ⟨line, api, info, places, raised, own, hexplained⟩ := explained_of_mem_reactionsTo _ h hr
  constructor
  · unfold reactionsTo at h
    split at h
    · cases h
      cases hr
    · rename_i call hpending
      obtain ⟨places, events, -, -, hr⟩ := (mem_reactions _ h).1 hr
      obtain ⟨-, -, -, -, hreaction⟩ := (mem_handlersReactions _).1 hr
      obtain ⟨-, -, -, rfl, -, -⟩ := (reaction?_eq_some_iff _).1 hreaction
      exact ((pending_eq_some_iff _).1 hpending).1
  · refine ⟨?_, api, line, hexplained.api_eq, hexplained.line_eq, hexplained.line_mem⟩
    have hinfo := hexplained.info_eq
    unfold apiInfo at hinfo
    split at hinfo
    · rename_i service hservice
      exact Option.isSome_iff_exists.2 ⟨service, hservice⟩
    · cases hinfo

/-- The last call of a statement is answered with some catalogue if it can be taken for one on the client object. -/
theorem reactionsTo_sole (hcall : callOf? statement = some call) (h : TakenFor client program call) :
    ∃ api r, (sole client program api).reactionsTo statement = .ok [r] ∧ r.call = call := by
  obtain ⟨hservice, api, line, hapi, hline, hmem⟩ := h
  have htrigger : (sole client program api).isTrigger call = true :=
    (isTrigger_iff _ call).2 ⟨line, api, soleInfo, hline, hmem, hapi, by rw [apiInfo_sole hservice, if_pos rfl],
      isAllowed_sole _⟩
  obtain ⟨r, hr, hrcall⟩ := exists_reactions_sole hservice hapi
  refine ⟨api, r, ?_, hrcall⟩
  rw [reactionsTo, (pending_eq_some_iff _).2 ⟨hcall, htrigger⟩]
  exact hr

end

/-- **When only calls on the client object are answered.** Whatever the catalogue and the application, each answered
call starts on the client object or an object that it makes, exactly if this is so of the last call of each statement
that a pass can get to, provided that the call can be taken for one on the client object. -/
theorem answers_own_calls_iff (client : Client) (program : Ast) :
    (∀ apis application file route, ∀ r ∈ (ofProgram apis application file client program).marked.putsAt route,
      StartsOn client.name program r.call) ↔
    ∀ (work : Injection) route statement call, work.Reaches false program route statement →
      callOf? statement = some call → TakenFor client program call → StartsOn client.name program call := by
  constructor
  · intro hown work route statement call hreaches hcall htaken
    obtain ⟨api, r, hreactions, rfl⟩ := reactionsTo_sole hcall htaken
    have hsole : (sole client program api).Reaches false program route statement :=
      hreaches.of_faultFree (faultFree_sole htaken.1)
    exact hown _ _ _ route r ((mem_putsAt_mark (sole client program api) route false program).2
      ⟨statement, [r], hsole, hreactions, List.mem_singleton.2 rfl⟩)
  · intro hown apis application file route r hr
    obtain ⟨statement, reactions, hreaches, hreactions, hmem⟩ := (mem_putsAt_mark _ route false program).1 hr
    obtain ⟨hcall, htaken⟩ := takenFor_of_mem_reactionsTo hmem hreactions
    exact hown _ route statement r.call hreaches hcall htaken

def callOnLine (line : Nat) (object method : String) : Ast :=
  .node .call (some ⟨⟨line, 0⟩, ⟨line, 1⟩⟩)
    [.node .attributeRef none [.node .name none [.name object], .name method], .list [], .list []]

/-- A program that reads a table and then, on the same line, makes an entry in an archive. -/
def archiveProgram : Ast :=
  .node .module none [.list [.node .exprStmt none [callOnLine 1 "table" "scan"],
    .node .exprStmt none [callOnLine 1 "archive" "put_item"]]]

def tableClient : Client := ⟨0, "table", .client, .literal (.str "dynamodb")⟩

/-- The entry in the archive is answered as if it was one in the table. -/
theorem shared_line_answers_other_object :
    ¬∀ apis application file route,
      ∀ r ∈ (ofProgram apis application file tableClient archiveProgram).marked.putsAt route,
        StartsOn "table" archiveProgram r.call := by
  intro hown
  have hreaches : (sole tableClient archiveProgram "").Reaches false archiveProgram [0, 1]
      (.node .exprStmt none [callOnLine 1 "archive" "put_item"]) :=
    .field (by decide) rfl (.statement rfl fun s _ => faultFree_sole rfl s)
  obtain ⟨object, hstart, hobject⟩ := (answers_own_calls_iff tableClient archiveProgram).1 hown _ _ _ _ hreaches rfl
    ⟨rfl, "put_item", 1, rfl, rfl, by decide +kernel⟩
  cases hstart
  rcases hobject with hname | ⟨s, hs, span, targets, value, rfl, -, -⟩
  · exact absurd hname (by decide)
  · have hnone : ∀ s ∈ archiveProgram.walk, s.isKind .assign = false := by decide +kernel
    cases hnone _ hs

end Injection

end ServerlessTaint
