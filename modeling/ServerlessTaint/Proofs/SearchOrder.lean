import ServerlessTaint.EventObject
import ServerlessTaint.Proofs.FoundCalls

/-!
# The order in which sets are searched

The function around a call and the origins of its object are the first that fit, in the order in which the
functions and the origins are gone through. Which members can come first in some order is said by
`FirstTogether`; the origins on the line of a call and those of its object are searched in the same order, so
two of them that answer both searches cannot each come first in one (`exists_perm_iff`). The results are the
same in every order if and only if no call stands in two functions and all origins that can come first lead
to the same event object (`order_immaterial_iff`).
-/

namespace ServerlessTaint

open List

/-! ## What can come first -/

section

variable {α : Type} {p q : α → Bool} {xs : List α}

/-- The result of a search in some order: a member that fits, or nothing where no member fits. -/
def CanBeFirst (p : α → Bool) (xs : List α) : Option α → Prop
  | some a => a ∈ xs ∧ p a = true
  | none => ∀ a ∈ xs, p a = false

/-- The results of two searches in one order. A member that fits both searches comes before or after another
that does, so the two results are the same if both fit both. -/
structure FirstTogether (p q : α → Bool) (xs : List α) (first second : Option α) : Prop where
  left : CanBeFirst p xs first
  right : CanBeFirst q xs second
  same : ∀ a ∈ first, ∀ b ∈ second, q a = true → p b = true → a = b

variable {a b : α} {xs' : List α}

theorem canBeFirst_find? (p : α → Bool) {xs : List α} (h : xs'.Perm xs) : CanBeFirst p xs (xs'.find? p) := by
  cases hfind : xs'.find? p with
  | none =>
    intro a ha
    simpa using find?_eq_none.1 hfind a (h.mem_iff.2 ha)
  | some a => exact ⟨h.mem_iff.1 (mem_of_find?_eq_some hfind), find?_some hfind⟩

theorem find?_eq_none_of_canBeFirst (h : CanBeFirst p xs none) (hperm : xs'.Perm xs) : xs'.find? p = none := by
  rw [find?_eq_none]
  intro a ha
  simp [h a (hperm.mem_iff.1 ha)]

theorem eq_of_find? (ha : xs.find? p = some a) (hb : xs.find? q = some b) (hqa : q a) (hpb : p b) : a = b := by
  induction xs with
  | nil => cases ha
  | cons x xs ih =>
    rw [find?_cons] at ha hb
    cases hp : p x <;> cases hq : q x <;> simp only [hp, hq, Option.some.injEq] at ha hb
    · exact ih ha hb
    · rw [hb, hpb] at hp
      cases hp
    · rw [ha, hqa] at hq
      cases hq
    · rw [← ha, ← hb]

theorem exists_perm_cons (h : a ∈ xs) : ∃ rest, (a :: rest).Perm xs := by
  obtain ⟨before, after, rfl⟩ := append_of_mem h
  exact ⟨before ++ after, perm_middle.symm⟩

/-- Two different members can be the first two. -/
theorem exists_perm_cons_cons (ha : a ∈ xs) (hb : b ∈ xs) (hne : a ≠ b) : ∃ rest, (a :: b :: rest).Perm xs := by
  obtain ⟨rest, hrest⟩ := exists_perm_cons ha
  have hmem : b ∈ rest := (mem_cons.1 (hrest.mem_iff.2 hb)).resolve_left (Ne.symm hne)
  obtain ⟨rest', hrest'⟩ := exists_perm_cons hmem
  exact ⟨rest', (hrest'.cons a).trans hrest⟩

/-- **What two searches find in some order.** -/
theorem exists_perm_iff {first second : Option α} :
    (∃ xs' : List α, xs'.Perm xs ∧ xs'.find? p = first ∧ xs'.find? q = second) ↔
      FirstTogether p q xs first second := by
  constructor
  · rintro ⟨xs', hperm, rfl, rfl⟩
    exact ⟨canBeFirst_find? p hperm, canBeFirst_find? q hperm,
      fun a ha b hb hqa hpb => eq_of_find? ha hb hqa hpb⟩
  · rintro ⟨hfirst, hsecond, hsame⟩
    cases first with
    | none =>
      cases second with
      | none => exact ⟨xs, .refl xs, find?_eq_none_of_canBeFirst hfirst (.refl xs),
          find?_eq_none_of_canBeFirst hsecond (.refl xs)⟩
      | some b =>
        obtain ⟨rest, hrest⟩ := exists_perm_cons hsecond.1
        exact ⟨_, hrest, find?_eq_none_of_canBeFirst hfirst hrest, by simp [hsecond.2]⟩
    | some a =>
      cases second with
      | none =>
        obtain ⟨rest, hrest⟩ := exists_perm_cons hfirst.1
        exact ⟨_, hrest, by simp [hfirst.2], find?_eq_none_of_canBeFirst hsecond hrest⟩
      | some b =>
        by_cases heq : a = b
        · subst heq
          obtain ⟨rest, hrest⟩ := exists_perm_cons hfirst.1
          exact ⟨_, hrest, by simp [hfirst.2], by simp [hsecond.2]⟩
        · -- The one that does not fit the other search goes in front.
          cases hqa : q a with
          | false =>
            obtain ⟨rest, hrest⟩ := exists_perm_cons_cons hfirst.1 hsecond.1 heq
            exact ⟨_, hrest, by simp [hfirst.2], by simp [hqa, hsecond.2]⟩
          | true =>
            have hpb : p b = false := by
              rw [← Bool.not_eq_true]
              exact fun hpb => heq (hsame a rfl b rfl hqa hpb)
            obtain ⟨rest, hrest⟩ := exists_perm_cons_cons hsecond.1 hfirst.1 (Ne.symm heq)
            exact ⟨_, hrest, by simp [hpb, hfirst.2], by simp [hsecond.2]⟩

/-- A search has the same result in every order if and only if no two members fit. -/
theorem find?_same_iff :
    (∀ xs' : List α, xs'.Perm xs → xs'.find? p = xs.find? p) ↔ ∀ a ∈ xs, ∀ b ∈ xs, p a → p b → a = b := by
  constructor
  · intro hsame a ha b hb hpa hpb
    have hfirst : ∀ c ∈ xs, p c = true → xs.find? p = some c := by
      intro c hc hpc
      obtain ⟨xs', hperm, hfind, -⟩ := exists_perm_iff.2
        (⟨⟨hc, hpc⟩, ⟨hc, hpc⟩, by simp⟩ : FirstTogether p p xs (some c) (some c))
      rw [← hsame xs' hperm, hfind]
    exact Option.some.inj ((hfirst a ha hpa).symm.trans (hfirst b hb hpb))
  · intro hone xs' hperm
    cases hfind : xs.find? p with
    | none => exact find?_eq_none_of_canBeFirst (hfind ▸ canBeFirst_find? p (.refl xs)) hperm
    | some a =>
      have ha : CanBeFirst p xs (some a) := hfind ▸ canBeFirst_find? p (.refl xs)
      cases hfind' : xs'.find? p with
      | none =>
        have hnone := find?_eq_none.1 hfind' a (hperm.mem_iff.2 ha.1)
        exact absurd ha.2 hnone
      | some b =>
        have hb : CanBeFirst p xs (some b) := hfind' ▸ canBeFirst_find? p hperm
        rw [hone b hb.1 a ha.1 hb.2 ha.2]

end

/-! ## Event objects by their origins -/

namespace EventObject

open Syntax (Ast Constant)

def onLine (call : Ast) (origin : Origin) : Bool := some origin.line == call.line?

def ofObject (call : Ast) (origin : Origin) : Bool :=
  match ClientCalls.receiver? call with
  | some object => origin.name == some object
  | none => false

def takeGiven (service : EventService) (objects : Value) : Option Origin → Search Unit
  | some origin => takeOrigin service objects origin.call
  | none => pure ()

def searchFrom (service : EventService) (objects : Value) (line object : Option Origin) (call : Ast) :
    Search Unit :=
  match call with
  | .node .call _ (func :: _) =>
    match func.nameOf? .attr with
    | none => return
    | some api => do
      if isSupported service api then
        takeGiven service objects line
        takeGiven service objects object
        takeCallKeywords service call
        if api == "upload_file" then modify (takeUpload call)
  | _ => return

def objectFrom (service : EventService) (event : Constant) (line object : Option Origin) (call : Ast) : Ast :=
  build service event ((searchFrom service service.furtherObjects line object call).run.run []).2

theorem originOnLine?_eq (origins : List Origin) (call : Ast) :
    originOnLine? origins call = (origins.find? (onLine call)).map (·.call) := rfl

theorem originOfObject?_eq (origins : List Origin) (call : Ast) :
    originOfObject? origins call = (origins.find? (ofObject call)).map (·.call) := by
  unfold originOfObject? ofObject
  cases ClientCalls.receiver? call with
  | none => rw [find?_eq_none.2 (by simp)]; rfl
  | some object => rfl

theorem takeOrigins_eq (service : EventService) (objects : Value) (origins : List Origin) (call : Ast) :
    takeOrigins service objects origins call = (do
      takeGiven service objects (origins.find? (onLine call))
      takeGiven service objects (origins.find? (ofObject call))) := by
  unfold takeOrigins
  rw [originOnLine?_eq, originOfObject?_eq]
  cases origins.find? (onLine call) <;> cases origins.find? (ofObject call) <;> rfl

theorem search_eq (service : EventService) (objects : Value) (origins : List Origin) (call : Ast) :
    search service objects origins call =
      searchFrom service objects (origins.find? (onLine call)) (origins.find? (ofObject call)) call := by
  unfold search
  simp only [takeOrigins_eq, bind_assoc]
  rfl

theorem ofCall_eq (service : EventService) (event : Constant) (origins : List Origin) (call : Ast) :
    ofCall service service.furtherObjects event origins call =
      objectFrom service event (origins.find? (onLine call)) (origins.find? (ofObject call)) call := by
  rw [ofCall, partsOf, search_eq, objectFrom]

/-- Every service with event objects has a name. -/
theorem exists_ofName? (service : EventService) : ∃ name, EventService.ofName? name = some service := by
  cases service with
  | storage => exact ⟨"s3", by decide⟩
  | table => exact ⟨"dynamodb", by decide⟩
  | queue => exact ⟨"sqs", by decide⟩

/-- A call has the same event objects, up to positions, whatever the order of its origins, if and only if the
origins that can come first all lead to the same objects. -/
theorem same_objects_iff {call : Ast} (hcall : call.isKind .call) {origins : List Origin} :
    (∀ origins' : List Origin, origins'.Perm origins → ∀ (service : String) (event : Constant),
        (ofNode service event origins' call).map (Option.map Ast.unplaced) =
          (ofNode service event origins call).map (Option.map Ast.unplaced)) ↔
      ∀ line object line' object' : Option Origin,
        FirstTogether (onLine call) (ofObject call) origins line object →
        FirstTogether (onLine call) (ofObject call) origins line' object' →
        ∀ (service : EventService) (event : Constant),
          (objectFrom service event line object call).unplaced =
            (objectFrom service event line' object' call).unplaced := by
  have hnode : ∀ (origins : List Origin) (service : String) (event : Constant),
      (ofNode service event origins call).map (Option.map Ast.unplaced) =
        .ok ((EventService.ofName? service).map fun s =>
          (objectFrom s event (origins.find? (onLine call)) (origins.find? (ofObject call)) call).unplaced) := by
    intro origins service event
    simp only [ofNode, hcall, if_true, ofCall_eq, Except.map, Option.map_map]
    rfl
  simp only [hnode, Except.ok.injEq]
  constructor
  · intro hsame
    have hfirst : ∀ line object : Option Origin,
        FirstTogether (onLine call) (ofObject call) origins line object →
        ∀ (service : EventService) (event : Constant), (objectFrom service event line object call).unplaced =
          (objectFrom service event (origins.find? (onLine call)) (origins.find? (ofObject call)) call).unplaced := by
      intro line object hfirst service event
      obtain ⟨origins', hperm, rfl, rfl⟩ := exists_perm_iff.2 hfirst
      obtain ⟨name, hname⟩ := exists_ofName? service
      simpa [hname] using hsame origins' hperm name event
    intro line object line' object' h h' service event
    rw [hfirst line object h, hfirst line' object' h']
  · intro hsame origins' hperm service event
    cases EventService.ofName? service with
    | none => rfl
    | some s =>
      exact congrArg some (hsame _ _ _ _ (exists_perm_iff.1 ⟨origins', hperm, rfl, rfl⟩)
        (exists_perm_iff.1 ⟨origins, .refl origins, rfl, rfl⟩) s event)

end EventObject

/-! ## The calls of a program -/

namespace ClientCalls

open Syntax (Ast Constant)

variable {client : String}

theorem isKind_of_mem_calls {program call : Ast} (h : call ∈ (ofProgram client program).calls) :
    call.isKind .call := by
  obtain ⟨-, object, hobject, -⟩ := mem_calls_iff.1 h
  unfold receiver? at hobject
  split at hobject
  · rfl
  · cases hobject

/-- The same sets of calls, functions and origins, gone through in other orders. -/
structure Reordered (found found' : ClientCalls) : Prop where
  calls : found'.calls.Perm found.calls
  functions : found'.functions.Perm found.functions
  origins : found'.origins.Perm found.origins

/-- The calls have the same functions around them and, up to positions, the same event objects. -/
def SameResults (found found' : ClientCalls) : Prop :=
  ∀ call ∈ found'.calls, functionOf? found'.functions call = functionOf? found.functions call ∧
    ∀ (service : String) (event : Constant),
      (EventObject.ofNode service event found'.origins call).map (Option.map Ast.unplaced) =
        (EventObject.ofNode service event found.origins call).map (Option.map Ast.unplaced)

/-- **When the order of iteration is immaterial.** For every program and client, the functions around the
calls and the event objects are the same in all orders of the sets of calls, functions and origins if and
only if no call stands in two functions and the origins that can come first lead to the same objects. -/
theorem order_immaterial_iff (client : String) (program : Ast) :
    (∀ found', Reordered (ofProgram client program) found' → SameResults (ofProgram client program) found') ↔
      ∀ call ∈ (ofProgram client program).calls,
        (∀ f ∈ (ofProgram client program).functions, ∀ g ∈ (ofProgram client program).functions,
          call ∈ f.walk → call ∈ g.walk → f = g) ∧
        ∀ line object line' object' : Option Origin,
          FirstTogether (EventObject.onLine call) (EventObject.ofObject call)
            (ofProgram client program).origins line object →
          FirstTogether (EventObject.onLine call) (EventObject.ofObject call)
            (ofProgram client program).origins line' object' →
          ∀ (service : EventService) (event : Constant),
            (EventObject.objectFrom service event line object call).unplaced =
              (EventObject.objectFrom service event line' object' call).unplaced := by
  have hkind := fun call => @isKind_of_mem_calls client program call
  generalize ofProgram client program = found at hkind ⊢
  have hfunction : ∀ call : Ast, (∀ functions' : List Ast, functions'.Perm found.functions →
      functionOf? functions' call = functionOf? found.functions call) ↔
        ∀ f ∈ found.functions, ∀ g ∈ found.functions, call ∈ f.walk → call ∈ g.walk → f = g := by
    intro call
    unfold functionOf?
    rw [find?_same_iff]
    simp only [List.contains_iff_mem]
  constructor
  · intro hsame call hcall
    constructor
    · rw [← hfunction call]
      intro functions' hperm
      exact (hsame { found with functions := functions' } ⟨.refl _, hperm, .refl _⟩ call hcall).1
    · rw [← EventObject.same_objects_iff (hkind call hcall)]
      intro origins' hperm
      exact (hsame { found with origins := origins' } ⟨.refl _, .refl _, hperm⟩ call hcall).2
  · rintro hone found' ⟨hcalls, hfunctions, horigins⟩ call hcall
    have hcall := hcalls.mem_iff.1 hcall
    obtain ⟨hholder, hobject⟩ := hone call hcall
    exact ⟨(hfunction call).2 hholder _ hfunctions,
      (EventObject.same_objects_iff (hkind call hcall)).2 hobject _ horigins⟩

/-- A call that writes to a bucket, on the third line of a program. -/
def bucketWrite : Ast := .node .call (some ⟨⟨3, 8⟩, ⟨3, 35⟩⟩) [
  .node .attributeRef none [.node .name none [.name "s3"], .name "put_object"], .list [], .list []]

def functionWith (name : String) (statement : Ast) : Ast :=
  .node .functionDef none [.name name, .absent, .list [statement], .list [], .absent]

def flatProgram : Ast := .node .module none [.list [functionWith "inner" (.node .exprStmt none [bucketWrite])]]

/-- The same with another function around the first. -/
def nestedProgram : Ast := .node .module none [.list [functionWith "outer"
  (functionWith "inner" (.node .exprStmt none [bucketWrite]))]]

/-- The order is immaterial for a call in one function, and not for one in a function inside another. -/
theorem nested_function_told_by_order :
    (∀ found', Reordered (ofProgram "s3" flatProgram) found' → SameResults (ofProgram "s3" flatProgram) found') ∧
      ¬∀ found', Reordered (ofProgram "s3" nestedProgram) found' →
        SameResults (ofProgram "s3" nestedProgram) found' := by
  constructor
  · rw [order_immaterial_iff]
    have hcalls : (ofProgram "s3" flatProgram).calls = [bucketWrite] := by decide +kernel
    have hfunctions : (ofProgram "s3" flatProgram).functions =
        [functionWith "inner" (.node .exprStmt none [bucketWrite])] := by decide +kernel
    have horigins : (ofProgram "s3" flatProgram).origins = [⟨3, none, bucketWrite⟩] := by decide +kernel
    -- The only origin stands on the line of the call and has no name.
    have hfirst : ∀ line object, FirstTogether (EventObject.onLine bucketWrite) (EventObject.ofObject bucketWrite)
        [⟨3, none, bucketWrite⟩] line object → line = some ⟨3, none, bucketWrite⟩ ∧ object = none := by
      rintro line object ⟨hline, hobject, -⟩
      constructor
      · cases line with
        | none => exact absurd (hline _ List.mem_cons_self) (by decide)
        | some origin => rw [List.mem_singleton.1 hline.1]
      · cases object with
        | none => rfl
        | some origin =>
          have hnamed := hobject.2
          rw [List.mem_singleton.1 hobject.1] at hnamed
          exact absurd hnamed (by decide)
    simp only [hcalls, hfunctions, horigins, List.mem_singleton, forall_eq]
    refine ⟨fun _ _ => trivial, ?_⟩
    intro line object line' object' h h' service event
    obtain ⟨rfl, rfl⟩ := hfirst line object h
    obtain ⟨rfl, rfl⟩ := hfirst line' object' h'
    rfl
  · rw [order_immaterial_iff]
    intro hone
    have hsame := (hone bucketWrite (by decide +kernel)).1
      (functionWith "outer" (functionWith "inner" (.node .exprStmt none [bucketWrite]))) (by decide +kernel)
      (functionWith "inner" (.node .exprStmt none [bucketWrite])) (by decide +kernel) (by decide +kernel)
      (by decide +kernel)
    exact absurd hsame (by decide +kernel)

end ClientCalls

end ServerlessTaint
