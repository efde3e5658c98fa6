import ServerlessTaint.Proofs.Reasons
import ServerlessTaint.Proofs.SettledParts

/-!
# Variables of a program with reactions put in

A reaction assigns the event and calls a handler. It binds no name but `event` and those that assignment expressions
bind in the arguments that it copies into the event object (`binds_code`). So whatever statements mean, as long as they
change no names but those they bind, every other variable has the same value after a reaction as before it
(`other_variables_kept`). The excepted names are captured in some functions (`event_and_copied_name_captured`).
-/

namespace ServerlessTaint

open List EventParts
open Syntax (Ast Constant Span)

namespace Syntax.Ast

/-! ## The names that statements bind -/

mutual

/-- The names that stand in a tree. -/
def mentioned : Ast → List String
  | .node .name _ [.name id] => [id]
  | .node _ _ children => mentionedAll children
  | .list items => mentionedAll items
  | _ => []

def mentionedAll : List Ast → List String
  | [] => []
  | t :: ts => mentioned t ++ mentionedAll ts

end

mutual

/-- The names among the targets that a target consists of. -/
def stored : Ast → List String
  | .node .name _ [.name id] => [id]
  | .node .tuple _ [.list items] | .node .list _ [.list items] => storedAll items
  | .node .starred _ [value] => stored value
  | _ => []

def storedAll : List Ast → List String
  | [] => []
  | t :: ts => stored t ++ storedAll ts

end

/-- The name in a field that may have one. -/
def names : Ast → List String
  | .name id => [id]
  | _ => []

mutual

/-- The names that a statement or an expression may bind in the function it stands in. The bodies of functions, lambdas
and classes bind names of their own. -/
def binds : Ast → List String
  | .node .functionDef _ [own, parameters, _, decorators, returns]
  | .node .asyncFunctionDef _ [own, parameters, _, decorators, returns] =>
    names own ++ binds parameters ++ binds decorators ++ binds returns
  | .node .classDef _ [own, bases, keywords, _, decorators] =>
    names own ++ binds bases ++ binds keywords ++ binds decorators
  | .node .lambdaExpr _ [parameters, _] => binds parameters
  | .node .deleteStmt _ [.list targets] => storedAll targets ++ bindsAll targets
  | .node .assign _ [.list targets, value] => storedAll targets ++ bindsAll targets ++ binds value
  | .node .augAssign _ (target :: rest) | .node .annAssign _ (target :: rest) | .node .namedExpr _ (target :: rest)
  | .node .forLoop _ (target :: rest) | .node .asyncFor _ (target :: rest) =>
    stored target ++ binds target ++ bindsAll rest
  | .node .withItem _ [context, target] => binds context ++ stored target ++ binds target
  | .node .exceptHandler _ [type, own, body] => binds type ++ names own ++ binds body
  -- a module that is given no name is bound by the first part of its own
  | .node .importName _ [_, .name id] => [id]
  | .node .importName _ [.name id, _] => (Text.splitString '.' id).take 1
  | .node .matchAs _ [pattern, own] => binds pattern ++ names own
  | .node .matchStar _ [own] => names own
  | .node .matchMapping _ [keys, patterns, rest] => binds keys ++ binds patterns ++ names rest
  | .node _ _ children => bindsAll children
  | .list items => bindsAll items
  | _ => []

def bindsAll : List Ast → List String
  | [] => []
  | t :: ts => binds t ++ bindsAll ts

end

/-- A tree binds only names of some kind. -/
def BindsOnly (N : String → Prop) (t : Ast) : Prop := ∀ x ∈ t.binds, N x

theorem mem_bindsAll {x : String} {ts : List Ast} : x ∈ bindsAll ts ↔ ∃ t ∈ ts, x ∈ t.binds := by
  induction ts with
  | nil => simp [bindsAll]
  | cons t ts ih => simp [bindsAll, ih]

theorem mem_binds_dict {x : String} {span : Option Span} {keys values : List Ast} :
    x ∈ (Ast.node .dict span [.list keys, .list values]).binds ↔
      (∃ key ∈ keys, x ∈ key.binds) ∨ ∃ value ∈ values, x ∈ value.binds := by
  rw [← mem_bindsAll, ← mem_bindsAll, ← mem_append]
  show x ∈ bindsAll keys ++ (bindsAll values ++ []) ↔ _
  rw [append_nil]

end Syntax.Ast

/-! ## The names that event objects bind -/

namespace EventObject

open Syntax.Ast (BindsOnly)

variable {N : String → Prop}

variable {call : Ast} {parts : EventParts}

theorem bindsOnly_typedItem {item : Ast} (h : BindsOnly N item) : BindsOnly N (typedItem item) := by
  unfold typedItem
  split
  · intro x hx
    refine h x (Ast.mem_binds_dict.2 ?_)
    rcases Ast.mem_binds_dict.1 hx with hkey | ⟨_, htyped, hx⟩
    · exact .inl hkey
    · obtain ⟨value, hvalue, rfl⟩ := mem_map.1 htyped
      rcases Ast.mem_binds_dict.1 hx with ⟨_, hkey, hx⟩ | ⟨_, hsame, hx⟩
      · cases mem_singleton.1 hkey
        cases hx
      · cases mem_singleton.1 hsame
        exact .inr ⟨value, hvalue, hx⟩
  · exact h

theorem bindsOnly_record {entries : List (String × Ast)} (h : ∀ e ∈ entries, BindsOnly N e.2) :
    BindsOnly N (record entries) := by
  intro x hx
  rcases Ast.mem_binds_dict.1 hx with ⟨_, hkey, hx⟩ | ⟨_, hvalue, hx⟩
  · obtain ⟨e, -, rfl⟩ := mem_map.1 hkey
    cases hx
  · obtain ⟨e, he, rfl⟩ := mem_map.1 hvalue
    exact h e he x hx

theorem bindsOnly_build (service : EventService) (event : Constant) (hpart : ∀ part, BindsOnly N (partOr parts part)) :
    BindsOnly N (build service event parts) := by
  have hliteral : BindsOnly N (literal event) := forall_mem_nil _
  have hrecords : ∀ entry, BindsOnly N entry →
      BindsOnly N (record [("Records", .node .list none [.list [entry]])]) := by
    intro entry hentry
    refine bindsOnly_record (forall_mem_singleton.2 ?_)
    intro x hx
    exact hentry x (by simpa [Ast.binds, Ast.bindsAll] using hx)
  refine hrecords _ ?_
  cases service with
  | storage =>
    have hbucket : BindsOnly N (record [("name", partOr parts .bucketName), ("arn", partOr parts .bucketArn)]) :=
      bindsOnly_record (by simp [hpart])
    have hobject : BindsOnly N (record [("key", partOr parts .objectKey)]) := bindsOnly_record (by simp [hpart])
    exact bindsOnly_record (by simp [hliteral, bindsOnly_record, hbucket, hobject])
  | table =>
    have hitem : BindsOnly N (record [("Keys", partOr parts .itemKeys), ("NewImage", partOr parts .newImage)]) :=
      bindsOnly_record (by simp [hpart])
    exact bindsOnly_record (by simp [hliteral, hpart, hitem])
  | queue => exact bindsOnly_record (by simp [hpart])

/-- An event object binds only names that arguments bind, of its call or of an origin. -/
theorem bindsOnly_ofCall (service : EventService) (event : Constant) {origins : List Origin}
    (hcall : ∀ value ∈ call.arguments, BindsOnly N value)
    (horigins : ∀ origin ∈ origins, ∀ value ∈ origin.call.arguments, BindsOnly N value) :
    BindsOnly N (ofCall service service.furtherObjects event origins call) := by
  obtain ⟨hparts, hvalues⟩ := partsOf_traced service service.furtherObjects call origins hcall
    (fun _ => bindsOnly_typedItem) horigins
  refine bindsOnly_build service event fun part => ?_
  rw [hparts, partOr, find?_settle]
  cases hfind : Keyed.find? part.target (settingsOf service service.furtherObjects origins call) with
  | none => exact forall_mem_nil _
  | some value => exact hvalues _ (Keyed.mem_of_find? hfind)

end EventObject

/-- What statements do to the variables of the function they stand in: they change no names but those they bind. -/
structure Semantics (V : Type) where
  run : Ast → (String → V) → String → V
  run_of_not_mem : ∀ {statement : Ast} {x : String}, x ∉ statement.binds → ∀ values, run statement values x = values x

namespace Semantics

variable {V : Type} (meaning : Semantics V)

def runAll (statements : List Ast) (values : String → V) : String → V :=
  statements.foldl (fun values statement => meaning.run statement values) values

theorem runAll_of_not_mem {statements : List Ast} {x : String} (h : ∀ statement ∈ statements, x ∉ statement.binds)
    (values : String → V) : meaning.runAll statements values x = values x := by
  induction statements generalizing values with
  | nil => rfl
  | cons statement statements ih =>
    exact (ih (fun s hs => h s (mem_cons_of_mem _ hs)) _).trans
      (meaning.run_of_not_mem (h statement mem_cons_self) values)

end Semantics

namespace Injection

/-! ## The names that reactions bind -/

/-- The names that assignment expressions bind in arguments that a reaction may copy: those of the call that is answered
and those of origins. -/
def copied (work : Injection) (r : Reaction) : List String :=
  (r.call.arguments ++ work.found.origins.flatMap fun origin => origin.call.arguments).flatMap Ast.binds

section

variable {work : Injection} {statement : Ast} {reactions : List Reaction} {r : Reaction}
  (hreactions : work.reactionsTo statement = .ok reactions) (hr : r ∈ reactions)
include hreactions hr

theorem bindsOnly_object {object : Ast} (hobject : r.object = some object) : object.BindsOnly (· ∈ work.copied r) := by
  obtain ⟨_, _, _, _, _, _, hexplained⟩ := explained_of_mem_reactionsTo work hreactions hr
  have hmade := hexplained.object_eq
  rw [hobject, EventObject.ofNode] at hmade
  split at hmade
  · obtain ⟨service, -, rfl⟩ := Option.map_eq_some_iff.1 (Except.ok.inj hmade)
    refine EventObject.bindsOnly_ofCall service _ (fun value hvalue x hx => ?_)
      fun origin horigin value hvalue x hx => ?_
    · exact mem_flatMap.2 ⟨value, mem_append_left _ hvalue, hx⟩
    · exact mem_flatMap.2
        ⟨value, mem_append_right _ (mem_flatMap.2 ⟨origin, horigin, hvalue⟩), hx⟩
  · cases hmade

/-- A reaction binds the event, and names that are bound in arguments that it copies. -/
theorem binds_code {put : Ast} (hput : put ∈ r.code) {x : String} (hx : x ∈ put.binds) :
    x = "event" ∨ x ∈ work.copied r := by
  simp only [Reaction.code, mem_cons, not_mem_nil, or_false] at hput
  rcases hput with rfl | rfl
  · cases hobject : r.object with
    | none =>
      rw [hobject] at hx
      exact .inl (mem_singleton.1 hx)
    | some object =>
      rw [hobject] at hx
      rcases mem_cons.1 (show x ∈ "event" :: object.binds from hx) with rfl | hbound
      · exact .inl rfl
      · exact .inr (bindsOnly_object hreactions hr hobject x hbound)
  · have hnone : (handlerCall r.calledName).binds = [] := by
      unfold handlerCall
      split <;> rfl
    rw [hnone] at hx
    cases hx

end

/-- **Variables keep their values, but for the event and copied names.** The result is the program with reactions put
in. No statement of a reaction binds another name, so that wherever it is run each other variable keeps its value. -/
theorem other_variables_kept (work : Injection) :
    work.marked.before = work.program ∧ work.marked.after = work.run ∧
      ∀ route, ∀ r ∈ work.marked.putsAt route, ∀ x, x ≠ "event" → x ∉ work.copied r →
        (∀ put ∈ r.code, x ∉ put.binds) ∧
          ∀ (V : Type) (meaning : Semantics V) (values : String → V), meaning.runAll r.code values x = values x := by
  refine ⟨marked_before work, marked_after work, fun route r hr x hevent hcopied => ?_⟩
  obtain ⟨statement, reactions, -, hreactions, hmem⟩ := (mem_putsAt_mark work route false work.program).1 hr
  have hbinds : ∀ put ∈ r.code, x ∉ put.binds := by
    intro put hput hx
    rcases binds_code hreactions hmem hput hx with rfl | hx
    · exact hevent rfl
    · exact hcopied hx
  exact ⟨hbinds, fun V meaning values => meaning.runAll_of_not_mem hbinds values⟩

/-! ## Captured names -/

/-- A call that writes an object and names its key on the way. -/
def namingUpload : Ast :=
  .node .call (some ⟨⟨2, 4⟩, ⟨2, 45⟩⟩)
    [.node .attributeRef none [.node .name none [.name "s3"], .name "put_object"], .list [],
     .list [.node .keyword none [.name "Bucket", .node .constant none [.literal (.str "b")]],
       .node .keyword none [.name "Key", .node .namedExpr none
         [.node .name none [.name "k"], .node .constant none [.literal (.str "k")]]]]]

def eventAndKey : Ast := .node .tuple none [.list [.node .name none [.name "event"], .node .name none [.name "k"]]]

/-- A function with given statements between the call and the return of the event and the key. -/
def returning (between : List Ast) : Ast :=
  .node .functionDef none
    [.name "f",
     .node .arguments none
      [.list [], .list [.node .arg none [.name "event", .absent], .node .arg none [.name "context", .absent]], .absent,
       .list [], .list [], .absent, .list []],
     .list (.node .exprStmt none [namingUpload] :: (between ++ [.node .returnStmt none [eventAndKey]])), .list [],
     .absent]

/-- The work on the client object of a program with this function. -/
def returningWork : Injection :=
  ofProgram Apis.catalogue uploads "m.py" ⟨1, "s3", .client, .literal (.str "s3")⟩
    (.node .module none [.list [returning []]])

def namingEvent : Ast :=
  EventObject.build .storage (.str "ObjectCreated:*")
    [(.bucketName, .node .constant none [.literal (.str "b")]),
     (.bucketArn, .node .constant none [.literal (.str "b")]),
     (.objectKey, .node .namedExpr none
       [.node .name none [.name "k"], .node .constant none [.literal (.str "k")]])]

def namingCode : List Ast := [eventAssignment (some namingEvent), handlerCall "g"]

/-- The function returns the event that was put in, and not its own, and a key that was named anew. -/
theorem event_and_copied_name_captured :
    returningWork.program = .node .module none [.list [returning []]] ∧
    returningWork.run = .node .module none [.list [returning namingCode]] ∧
    ∀ x ∈ ["event", "k"], (∃ put ∈ namingCode, x ∈ put.binds) ∧ x ∈ eventAndKey.mentioned :=
  ⟨rfl, by decide +kernel, by decide +kernel⟩

/-- Its other parameter is kept. -/
theorem returning_context_kept :
    ∃ r ∈ returningWork.marked.putsAt [0, 0, 2, 0], r.code = namingCode ∧ "context" ≠ "event" ∧
      "context" ∉ returningWork.copied r ∧ ∀ (V : Type) (meaning : Semantics V) (values : String → V),
        meaning.runAll r.code values "context" = values "context" := by
  have hputs : (returningWork.marked.putsAt [0, 0, 2, 0]).map (fun r => (r.code, returningWork.copied r)) =
      [(namingCode, ["k", "k"])] := by decide +kernel
  obtain ⟨r, hr, heq⟩ := List.mem_map.1 (hputs.symm ▸ List.mem_singleton.2 rfl)
  obtain ⟨hcode, hcopied⟩ := Prod.mk.inj heq
  have hcontext : "context" ∉ returningWork.copied r := by
    rw [hcopied]
    decide
  exact ⟨r, hr, hcode, by decide, hcontext, ((other_variables_kept returningWork).2.2 _ r hr _ (by decide) hcontext).2⟩

end Injection

end ServerlessTaint
