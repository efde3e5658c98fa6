import ServerlessTaint.Proofs.SearchOrder

/-!
# Parts that are set once

The values for the parts of an event object come from the call that made the object of a call, found by its line or
by its name, from the keywords of the call and from its arguments. They are given to the parts one after the other, and
a part takes the first value that it is given (`find?_settle`). The search gives exactly the values that its trace
lists, also where it breaks off (`partsOf_eq_settle`). So a part that has a value keeps it, and the parts of one target
have the same value (`parts_set_once`).
-/

namespace ServerlessTaint

open Syntax (Ast Constant)

def Syntax.Ast.arguments (call : Ast) : List Ast :=
  call.itemsOf .args ++ (call.itemsOf .keywords).filterMap keywordValue?

/-- What a value is given for. The parts of one target are set together. -/
inductive Target where
  | bucket
  | key
  | source
  | item
  | body
  deriving DecidableEq

def EventPart.target : EventPart → Target
  | .bucketName | .bucketArn => .bucket
  | .objectKey => .key
  | .sourceArn => .source
  | .itemKeys | .newImage => .item
  | .messageBody => .body

namespace EventParts

/-- Values in the order in which they are given. -/
abbrev GivenValues := Keyed Target Ast

def give : Target → Ast → EventParts → EventParts
  | .bucket => setBucket
  | .key => setOnce .objectKey
  | .source => setOnce .sourceArn
  | .item => setItem
  | .body => setOnce .messageBody

def settle (parts : EventParts) (settings : GivenValues) : EventParts :=
  settings.foldl (fun parts s => give s.1 s.2 parts) parts

variable (parts : EventParts)

theorem settle_append (settings more : GivenValues) :
    settle parts (settings ++ more) = settle (settle parts settings) more :=
  List.foldl_append

theorem find?_setOnce (part other : EventPart) (value : Ast) : Keyed.find? other (setOnce part value parts) =
    if part = other then (Keyed.find? other parts).or (some value) else Keyed.find? other parts := by
  unfold setOnce Keyed.has
  by_cases hother : part = other
  · subst hother
    cases hpart : Keyed.find? part parts <;> simp [hpart, Keyed.find?_set]
  · cases Keyed.find? part parts <;> simp [hother, Keyed.find?_set]

theorem find?_give (target : Target) (part : EventPart) (value : Ast) : Keyed.find? part (give target value parts) =
    if target = part.target then (Keyed.find? part parts).or (some value) else Keyed.find? part parts := by
  cases target <;> cases part <;> simp [give, setBucket, setItem, EventPart.target, find?_setOnce]

/-- A part takes the first value that is given for its target. -/
theorem find?_settle (part : EventPart) (settings : GivenValues) :
    Keyed.find? part (settle parts settings) = (Keyed.find? part parts).or (Keyed.find? part.target settings) := by
  induction settings generalizing parts with
  | nil => simp [settle, Keyed.find?]
  | cons s settings ih =>
    rw [settle, List.foldl_cons, ← settle, ih, find?_give, Keyed.find?]
    split <;> simp

end EventParts

namespace EventObject

open EventParts

/-! ## What is given -/

/-- The value of a keyword, for the target of its name. -/
def keywordSetting? (parameters : Keyed String Target) : Ast → Option (Target × Ast)
  | .node .keyword _ [.name name, value] => (Keyed.find? name parameters).map (·, value)
  | _ => none

def keywordSettings (parameters : Keyed String Target) (call : Ast) : GivenValues :=
  (call.itemsOf .keywords).filterMap (keywordSetting? parameters)

/-- The values of all arguments: those with keywords, and then those in the places of the parameters. -/
def argumentSettings (parameters : Keyed String Target) (call : Ast) : GivenValues :=
  keywordSettings parameters call ++ (parameters.map (·.2)).zip (call.itemsOf .args)

/-- The parameters of the calls that make further objects. -/
def furtherParameters : EventService → Keyed String (Keyed String Target)
  | .storage => [("bucket", [("name", .bucket)]), ("object", [("bucket_name", .bucket), ("key", .key)])]
  | .table => [("table", [("name", .source)])]
  | .queue => [("queue", [("url", .source)])]

/-- A search that lists what it gives. -/
abbrev Trace := ExceptT Fault (StateM GivenValues)

def list (settings : GivenValues) : Trace Unit := modify (· ++ settings)

def traceOrigin (service : EventService) (objects : Value) (origin : Ast) : Trace Unit :=
  match origin.attribute? with
  | none => throw .missingAttribute
  | some object => do
    if ← objects.holds object then
      match Keyed.find? (String.ofList (object.toList.map Char.toLower)) (furtherParameters service) with
      | some parameters => list (argumentSettings parameters origin)
      | none => return

def traceGiven (service : EventService) (objects : Value) : Option Origin → Trace Unit
  | some origin => traceOrigin service objects origin.call
  | none => pure ()

def traceKeywords (service : EventService) (call : Ast) : Trace Unit :=
  match service with
  | .storage => list (keywordSettings [("Bucket", .bucket), ("Key", .key)] call)
  | .queue => list (keywordSettings [("QueueUrl", .source), ("MessageBody", .body)] call)
  | .table =>
    if (call.itemsOf .keywords).any (Ast.hasKeyword (.str "TableName")) then
      list (keywordSettings [("Item", .item), ("TableName", .source)] call)
    else match (call.itemsOf .keywords).find? (Ast.hasKeyword (.str "Item")) >>= Ast.keywordValue? with
      | some item => list [(.item, typedItem item)]
      | none => throw .indexOutOfRange

/-- The arguments of an upload after the file are for what is not given yet. -/
def traceUpload (call : Ast) : Trace Unit := do
  let settings ← get
  list (([.bucket, .key].filter fun target => !Keyed.has target settings).zip ((call.itemsOf .args).drop 1))

def traceFrom (service : EventService) (objects : Value) (line object : Option Origin) (call : Ast) : Trace Unit :=
  match call.attribute? with
  | none => return
  | some api => do
    if isSupported service api then
      traceGiven service objects line
      traceGiven service objects object
      traceKeywords service call
      if api == "upload_file" then traceUpload call

/-- What is given for the parts of a call until the search ends or breaks off. -/
def settingsOf (service : EventService) (objects : Value) (origins : List Origin) (call : Ast) : GivenValues :=
  ((traceFrom service objects (origins.find? (onLine call)) (origins.find? (ofObject call)) call).run.run []).2

/-! ## The trace of the search -/

section

variable {P : Ast → Prop}

/-- A search and its trace end alike, the parts are those of what was listed, and the values listed are of some kind. -/
def Traces {α : Type} (P : Ast → Prop) (search : Search α) (trace : Trace α) : Prop :=
  ∀ settings, (∀ s ∈ settings, P s.2) →
    search.run.run (settle [] settings) = ((trace.run.run settings).1, settle [] (trace.run.run settings).2) ∧
      ∀ s ∈ (trace.run.run settings).2, P s.2

theorem traces_bind {α β : Type} {search : Search α} {trace : Trace α} {next : α → Search β} {next' : α → Trace β}
    (h : Traces P search trace) (hnext : ∀ a, Traces P (next a) (next' a)) :
    Traces P (search >>= next) (trace >>= next') := by
  intro settings hsettings
  obtain ⟨hrun, hlisted⟩ := h settings hsettings
  cases htrace : trace.run.run settings with
  | mk result listed =>
    rw [htrace] at hrun hlisted
    cases result with
    | ok a =>
      rw [run_bind_of_ok hrun, run_bind_of_ok htrace]
      exact hnext a listed hlisted
    | error fault =>
      rw [run_bind_of_error hrun, run_bind_of_error htrace]
      exact ⟨rfl, hlisted⟩

theorem traces_pure {α : Type} (a : α) : Traces P (pure a) (pure a) := fun _ h => ⟨rfl, h⟩

theorem traces_throw {α : Type} (fault : Fault) : Traces P (throw fault : Search α) (throw fault) := fun _ h => ⟨rfl, h⟩

theorem traces_lift {α : Type} (result : Except Fault α) : Traces P (liftM result) (liftM result) := by
  cases result with
  | ok a => exact traces_pure a
  | error fault => exact traces_throw fault

theorem traces_list {change : EventParts → EventParts} {settings : GivenValues}
    (h : ∀ parts, change parts = settle parts settings) (hvalues : ∀ s ∈ settings, P s.2) :
    Traces P (modify change) (list settings) := fun before hbefore =>
  ⟨Prod.ext rfl ((h _).trans (settle_append [] before settings).symm), List.forall_mem_append.2 ⟨hbefore, hvalues⟩⟩

end

theorem map_find?_cons {α β : Type} (f : α → β) (name key : String) (a : α) (rest : Keyed String α) :
    (Keyed.find? name ((key, a) :: rest)).map f =
      if name == key then some (f a) else (Keyed.find? name rest).map f := by
  by_cases hkey : key = name
  · simp [Keyed.find?, hkey]
  · simp [Keyed.find?, hkey, Ne.symm hkey]

section

variable (service : EventService) (objects : Value) (call : Ast)

theorem takeKeywords_eq {setter : String → Option (Ast → EventParts → EventParts)} (parameters : Keyed String Target)
    (h : ∀ name, setter name = (Keyed.find? name parameters).map give) (parts : EventParts) :
    takeKeywords setter (call.itemsOf .keywords) parts = settle parts (keywordSettings parameters call) := by
  unfold takeKeywords keywordSettings
  induction call.itemsOf .keywords generalizing parts with
  | nil => rfl
  | cons keyword keywords ih =>
    rw [List.foldl_cons, ih]
    split
    · next name value =>
      rw [h]
      cases hname : Keyed.find? name parameters <;> simp [keywordSetting?, hname, settle]
    · next hother =>
      have hnone : keywordSetting? parameters keyword = none := by
        unfold keywordSetting?
        split
        · exact (hother _ _ _ rfl).elim
        · rfl
      simp [hnone]

theorem takeArgument_eq (target : Target) (keyword : String) (parts : EventParts) :
    takeArgument (give target) keyword 0 call parts = settle parts (argumentSettings [(keyword, target)] call) := by
  rw [takeArgument, takeKeywords_eq call [(keyword, target)] (fun _ => by rw [map_find?_cons]; rfl), argumentSettings,
    settle_append]
  cases call.itemsOf .args <;> rfl

theorem fromFurtherObject?_eq (object : String) : fromFurtherObject? service object call =
    (Keyed.find? object (furtherParameters service)).map fun parameters parts =>
      settle parts (argumentSettings parameters call) := by
  cases service with
  | storage =>
    rw [furtherParameters, map_find?_cons, map_find?_cons]
    refine ite_congr rfl (fun _ => congrArg some (funext (takeArgument_eq call .bucket "name"))) fun _ =>
      ite_congr rfl (fun _ => congrArg some (funext fun parts => ?_)) fun _ => rfl
    rw [argumentSettings, settle_append, ← takeKeywords_eq call _ fun _ => by rw [map_find?_cons, map_find?_cons]]
    rcases call.itemsOf .args with _ | ⟨_, _ | _⟩ <;> rfl
  | table | queue =>
    rw [furtherParameters, map_find?_cons]
    exact ite_congr rfl (fun _ => congrArg some (funext (takeArgument_eq call .source _))) fun _ => rfl

section

variable {P : Ast → Prop} (hcall : ∀ value ∈ call.arguments, P value)
include hcall

theorem of_mem_keywordSettings (parameters : Keyed String Target) : ∀ s ∈ keywordSettings parameters call, P s.2 := by
  intro s hs
  obtain ⟨keyword, hkeyword, hsetting⟩ := List.mem_filterMap.1 hs
  refine hcall _ (List.mem_append_right _ (List.mem_filterMap.2 ⟨keyword, hkeyword, ?_⟩))
  unfold keywordSetting? at hsetting
  split at hsetting
  · obtain ⟨_, -, rfl⟩ := Option.map_eq_some_iff.1 hsetting
    rfl
  · cases hsetting

theorem of_mem_argumentSettings (parameters : Keyed String Target) :
    ∀ s ∈ argumentSettings parameters call, P s.2 :=
  List.forall_mem_append.2 ⟨of_mem_keywordSettings call hcall parameters, fun _ hs =>
    hcall _ (List.mem_append_left _ (List.of_mem_zip hs).2)⟩

theorem traces_takeOrigin : Traces P (takeOrigin service objects call) (traceOrigin service objects call) := by
  by_cases hform : ∃ span func inputs, call = .node .call span (func :: inputs)
  · obtain ⟨span, func, inputs, rfl⟩ := hform
    rw [takeOrigin, traceOrigin, Ast.attribute?]
    cases func.nameOf? .attr with
    | none => exact traces_throw _
    | some object =>
      refine traces_bind (traces_lift _) fun held => ?_
      cases held with
      | false => exact traces_pure _
      | true =>
        rw [fromFurtherObject?_eq]
        cases Keyed.find? _ (furtherParameters service) with
        | none => exact traces_pure _
        | some parameters => exact traces_list (fun _ => rfl) (of_mem_argumentSettings _ hcall parameters)
  · have htake : takeOrigin service objects call = throw .missingAttribute := by
      unfold takeOrigin
      split
      · exact absurd ⟨_, _, _, rfl⟩ hform
      · rfl
    rw [htake, traceOrigin, Ast.attribute?_eq_none hform]
    exact traces_throw _

theorem traces_takeCallKeywords (htyped : ∀ item, P item → P (typedItem item)) :
    Traces P (takeCallKeywords service call) (traceKeywords service call) := by
  have hsettings := of_mem_keywordSettings call hcall
  cases service with
  | storage | queue =>
    exact traces_list (takeKeywords_eq call _ fun _ => by simp only [map_find?_cons]; rfl) (hsettings _)
  | table =>
    unfold takeCallKeywords traceKeywords
    dsimp only
    cases (call.itemsOf .keywords).any (Ast.hasKeyword (.str "TableName")) with
    | true => exact traces_list (takeKeywords_eq call _ fun _ => by simp only [map_find?_cons]; rfl) (hsettings _)
    | false =>
      cases hitem : (call.itemsOf .keywords).find? (Ast.hasKeyword (.str "Item")) >>= Ast.keywordValue? with
      | none => exact traces_throw _
      | some item =>
        obtain ⟨keyword, hfind, hvalue⟩ := Option.bind_eq_some_iff.1 hitem
        have hkeyword := List.mem_filterMap.2 ⟨keyword, List.mem_of_find?_eq_some hfind, hvalue⟩
        exact traces_list (fun _ => rfl)
          (List.forall_mem_singleton.2 (htyped item (hcall item (List.mem_append_right _ hkeyword))))

theorem traces_takeUpload : Traces P (modify (takeUpload call)) (traceUpload call) := by
  intro settings hsettings
  refine ⟨Prod.ext rfl ?_, List.forall_mem_append.2 ⟨hsettings, fun s hs => hcall _ (List.mem_append_left _ ?_)⟩⟩
  · have hhas : ∀ part, Keyed.has part (settle [] settings) = Keyed.has (EventPart.target part) settings := by
      intro part
      rw [Keyed.has, find?_settle]
      rfl
    change takeUpload call (settle [] settings) = settle [] (settings ++ _)
    rw [settle_append, takeUpload, hhas, hhas, EventPart.target, EventPart.target]
    cases hbucket : Keyed.has .bucket settings <;> cases hkey : Keyed.has .key settings <;>
      rcases call.itemsOf .args with _ | ⟨_, _ | ⟨_, _ | _⟩⟩ <;> simp [hbucket, hkey, settle, give]
  · exact List.mem_of_mem_drop (List.of_mem_zip hs).2

end

theorem traces_takeGiven {P : Ast → Prop} {given : Option Origin}
    (h : ∀ origin ∈ given, ∀ value ∈ origin.call.arguments, P value) :
    Traces P (takeGiven service objects given) (traceGiven service objects given) := by
  cases given with
  | none => exact traces_pure _
  | some origin => exact traces_takeOrigin service objects origin.call (h origin rfl)

theorem traces_searchFrom {P : Ast → Prop} {line object : Option Origin} (hcall : ∀ value ∈ call.arguments, P value)
    (htyped : ∀ item, P item → P (typedItem item))
    (hline : ∀ origin ∈ line, ∀ value ∈ origin.call.arguments, P value)
    (hobject : ∀ origin ∈ object, ∀ value ∈ origin.call.arguments, P value) :
    Traces P (searchFrom service objects line object call) (traceFrom service objects line object call) := by
  by_cases hform : ∃ span func inputs, call = .node .call span (func :: inputs)
  · obtain ⟨span, func, inputs, rfl⟩ := hform
    rw [searchFrom, traceFrom, Ast.attribute?]
    cases func.nameOf? .attr with
    | none => exact traces_pure _
    | some api =>
      dsimp only
      cases isSupported service api with
      | false => exact traces_pure _
      | true =>
        refine traces_bind (traces_takeGiven service objects hline) fun _ => ?_
        refine traces_bind (traces_takeGiven service objects hobject) fun _ => ?_
        refine traces_bind (traces_takeCallKeywords service _ hcall htyped) fun _ => ?_
        cases api == "upload_file" with
        | true => exact traces_takeUpload _ hcall
        | false => exact traces_pure _
  · have hsearch : searchFrom service objects line object call = pure () := by
      unfold searchFrom
      split
      · exact absurd ⟨_, _, _, rfl⟩ hform
      · rfl
    rw [hsearch, traceFrom, Ast.attribute?_eq_none hform]
    exact traces_pure _

variable (origins : List Origin)

/-- The parts of a call are those of what its trace lists, from the arguments of the call and of its origins. -/
theorem partsOf_traced {P : Ast → Prop} (hcall : ∀ value ∈ call.arguments, P value)
    (htyped : ∀ item, P item → P (typedItem item))
    (horigins : ∀ origin ∈ origins, ∀ value ∈ origin.call.arguments, P value) :
    partsOf service objects origins call = settle [] (settingsOf service objects origins call) ∧
      ∀ s ∈ settingsOf service objects origins call, P s.2 := by
  rw [partsOf, search_eq]
  exact (traces_searchFrom service objects call hcall htyped
    (fun origin h => horigins origin (List.mem_of_find?_eq_some h))
    (fun origin h => horigins origin (List.mem_of_find?_eq_some h)) [] (List.forall_mem_nil _)).imp_left
    (congrArg Prod.snd)

theorem partsOf_eq_settle :
    partsOf service objects origins call = settle [] (settingsOf service objects origins call) :=
  (partsOf_traced service objects call origins (fun _ _ => trivial) (fun _ _ => trivial) fun _ _ _ _ => trivial).1

/-- **Each part is set once, and parts of one target are set together.** While the values of the trace are given one
after the other, a part that has a value keeps it, and in the object the bucket has one expression for its name and
its resource, and the item one for its keys and its image. -/
theorem parts_set_once :
    partsOf service objects origins call = settle [] (settingsOf service objects origins call) ∧
      (∀ earlier later, earlier <+: later → later <+: settingsOf service objects origins call → ∀ part value,
        Keyed.find? part (settle [] earlier) = some value → Keyed.find? part (settle [] later) = some value) ∧
      ∀ event, (∃ bucket key, ofCall .storage objects event origins call =
          build .storage event [(.bucketName, bucket), (.bucketArn, bucket), (.objectKey, key)]) ∧
        ∃ source item, ofCall .table objects event origins call =
          build .table event [(.sourceArn, source), (.itemKeys, item), (.newImage, item)] := by
  let value (service : EventService) (target : Target) : Ast :=
    (Keyed.find? target (settingsOf service objects origins call)).getD (literal .none)
  have hvalue : ∀ service part, partOr (partsOf service objects origins call) part = value service part.target := by
    intro service part
    rw [partsOf_eq_settle, partOr, find?_settle]
    rfl
  refine ⟨partsOf_eq_settle service objects call origins, ?_, fun event => ⟨?_, ?_⟩⟩
  · rintro earlier _ ⟨more, rfl⟩ - part value h
    rw [settle_append, find?_settle, h, Option.some_or]
  · refine ⟨value .storage .bucket, value .storage .key, ?_⟩
    simp only [ofCall, build, hvalue]
    rfl
  · refine ⟨value .table .source, value .table .item, ?_⟩
    simp only [ofCall, build, hvalue]
    rfl

end

end EventObject

end ServerlessTaint
