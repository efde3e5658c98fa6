import ServerlessTaint.Grants
import ServerlessTaint.Proofs.Keyed
import ServerlessTaint.Proofs.Pieces

/-!
# Statements read in turn

The statements of the provider are read one after the other, once for the services and once for the
resources. What a statement gives does not depend on what was collected before it (`Adds`), but the first
one that cannot be read ends the reading. So each reading collects what the statements up to that one give
(`Adds.untilFault`), and all statements count if and only if those after it give nothing else
(`statements_count_singly_iff`). Of a well-formed statement (`Statement`) all allowed actions are read
(`Statement.grantsOf_value`).
-/

namespace ServerlessTaint.Grants

open List

/-! ## Reading until a fault -/

section

variable {α γ : Type} {step : Keyed String (List γ) → α → Progress (Keyed String (List γ))}
  {gives : α → String → γ → Prop} {goesOn : α → Bool}

/-- The part of a list that is read: all up to the first member that ends the reading, and this one. -/
def readPart (goesOn : α → Bool) : List α → List α
  | [] => []
  | a :: rest => a :: if goesOn a then readPart goesOn rest else []

theorem readPart_of_all {items : List α} (h : ∀ a ∈ items, goesOn a) : readPart goesOn items = items := by
  induction items with
  | nil => rfl
  | cons a rest ih =>
    rw [readPart, if_pos (h a mem_cons_self), ih fun b hb => h b (mem_cons_of_mem a hb)]

variable {before : List α}

theorem readPart_append_cons {last : α} (h : ∀ a ∈ before, goesOn a) (hlast : goesOn last = false)
    (after : List α) : readPart goesOn (before ++ last :: after) = before ++ [last] := by
  induction before with
  | nil => simp [readPart, hlast]
  | cons a before ih =>
    rw [cons_append, readPart, if_pos (h a mem_cons_self),
      ih fun b hb => h b (mem_cons_of_mem a hb), cons_append]

/-- A list is read to its end, or up to a member that ends the reading. -/
theorem all_or_exists_last (goesOn : α → Bool) (items : List α) :
    (∀ a ∈ items, goesOn a) ∨ ∃ before last after, items = before ++ last :: after ∧
      (∀ a ∈ before, goesOn a) ∧ goesOn last = false := by
  induction items with
  | nil => exact .inl (by simp)
  | cons a rest ih =>
    cases ha : goesOn a with
    | false => exact .inr ⟨[], a, rest, rfl, by simp, ha⟩
    | true =>
      rcases ih with hall | ⟨before, last, after, rfl, hbefore, hlast⟩
      · exact .inl (forall_mem_cons.2 ⟨ha, hall⟩)
      · exact .inr ⟨a :: before, last, after, rfl, forall_mem_cons.2 ⟨ha, hbefore⟩, hlast⟩

/-- What stands up to the first member that ends the reading stands up to every such member. -/
theorem subset_of_goesOn {before' after after' : List α} {last last' : α} (h : ∀ a ∈ before, goesOn a)
    (hsplit : before ++ last :: after = before' ++ last' :: after') (hlast' : goesOn last' = false) :
    before ++ [last] ⊆ before' ++ [last'] := by
  rcases append_eq_append_iff.1 hsplit with ⟨between, rfl, hrest⟩ | ⟨between, rfl, hrest⟩
  · cases between with
    | nil =>
      cases hrest
      simp
    | cons first between =>
      cases hrest
      intro a ha
      simp only [mem_append, mem_cons, not_mem_nil, or_false] at ha ⊢
      exact .inl (ha.imp_right .inl)
  · cases between with
    | nil =>
      cases hrest
      simp
    | cons first between =>
      cases hrest
      rw [h last' (by simp)] at hlast'
      cases hlast'

/-- No member that ends the reading hides what a later one gives: the members up to it give that as well. -/
def NothingHidden (goesOn : α → Bool) (gives : α → String → γ → Prop) (items : List α) : Prop :=
  ∀ before last after, items = before ++ last :: after → goesOn last = false →
    ∀ later ∈ after, ∀ key c, gives later key c → ∃ a ∈ before ++ [last], gives a key c

/-- The part that is read gives as much as the whole list if and only if nothing is hidden. -/
theorem readPart_gives_all_iff (items : List α) :
    (∀ key c, (∃ a ∈ readPart goesOn items, gives a key c) ↔ ∃ a ∈ items, gives a key c) ↔
      NothingHidden goesOn gives items := by
  rcases all_or_exists_last goesOn items with hall | ⟨before, last, after, rfl, hbefore, hlast⟩
  · rw [readPart_of_all hall]
    refine iff_of_true (fun key c => Iff.rfl) ?_
    rintro before last after rfl hlast
    rw [hall last (by simp)] at hlast
    cases hlast
  · rw [readPart_append_cons hbefore hlast]
    constructor
    · intro hsame before' last' after' hsplit hlast' later hlater key c hgives
      have hmem : later ∈ before ++ last :: after := by
        rw [hsplit]
        simp [hlater]
      obtain ⟨a, ha, hgives⟩ := (hsame key c).2 ⟨later, hmem, hgives⟩
      refine ⟨a, ?_, hgives⟩
      exact subset_of_goesOn hbefore hsplit hlast' ha
    · intro hnone key c
      constructor
      · rintro ⟨a, ha, hgives⟩
        refine ⟨a, ?_, hgives⟩
        rcases mem_append.1 ha with ha | ha
        · exact mem_append_left _ ha
        · exact mem_append_right _ (mem_singleton.1 ha ▸ mem_cons_self)
      · rintro ⟨a, ha, hgives⟩
        rw [append_cons, mem_append] at ha
        rcases ha with ha | ha
        · exact ⟨a, ha, hgives⟩
        · exact hnone before last after rfl hlast a ha key c hgives

/-- A step only adds to sets: what its item gives, and whether the reading goes on after it, is a matter of
the item alone. -/
structure Adds (step : Keyed String (List γ) → α → Progress (Keyed String (List γ)))
    (gives : α → String → γ → Prop) (goesOn : α → Bool) : Prop where
  holds_iff : ∀ sets a key c, (step sets a).1.Holds key c ↔ sets.Holds key c ∨ gives a key c
  goesOn_eq : ∀ sets a, (step sets a).2 = goesOn a

theorem Adds.of_step (h : ∀ sets a, (step sets a).2 = goesOn a ∧
    ∀ key c, (step sets a).1.Holds key c ↔ sets.Holds key c ∨ gives a key c) : Adds step gives goesOn :=
  ⟨fun sets a => (h sets a).2, fun sets a => (h sets a).1⟩

theorem untilFault_cons {σ : Type} (step : σ → α → Progress σ) (s : σ) (a : α) (rest : List α) :
    untilFault step s (a :: rest) =
      if (step s a).2 = true then untilFault step (step s a).1 rest else ((step s a).1, false) := by
  rw [untilFault]
  rcases step s a with ⟨next, _ | _⟩ <;> rfl

/-- A list of items is a step of its own: it adds what the items of the part that is read give. -/
theorem Adds.untilFault (h : Adds step gives goesOn) :
    Adds (untilFault step) (fun items key c => ∃ a ∈ readPart goesOn items, gives a key c)
      (fun items => items.all goesOn) := by
  refine .of_step fun sets items => ?_
  induction items generalizing sets with
  | nil => simp [Grants.untilFault, readPart]
  | cons a rest ih =>
    rw [untilFault_cons, h.goesOn_eq, readPart]
    cases ha : goesOn a with
    | true => simp [ih, h.holds_iff, or_assoc, ha]
    | false => simp [h.holds_iff, ha]

end

/-! ## Statements -/

/-- The grant of an action, if it is a text with a colon. -/
def grantOf? : Value → Option Grant
  | .str action => (actionParts action).2.map (.permission (actionParts action).1)
  | _ => none

def grantsOf (statement : Value) : List Grant :=
  match allowedActions statement with
  | .ok actions => (readPart (fun a => (grantOf? a).isSome) actions).filterMap grantOf?
  | .error _ => []

def resourceOf? (statement : Value) : Option String := (statement.get "Resource").toOption.map Value.display

/-- A statement can be read: it has an effect, and if it allows something, then actions with a colon. -/
def isReadable (statement : Value) : Bool :=
  match allowedActions statement with
  | .ok actions => actions.all fun a => (grantOf? a).isSome
  | .error _ => false

/-- The reading for resources goes on after a statement: it is passed over because it names no resource, or
it can be read. -/
def isPassed (statement : Value) : Bool :=
  match statement.holds "Resource" with
  | .ok named => !named || isReadable statement
  | .error _ => false

theorem adds_addAction :
    Adds addAction (fun action service name => grantOf? action = some (.permission service name))
      (fun action => (grantOf? action).isSome) := by
  refine .of_step fun services action => ?_
  cases action with
  | str text =>
    rcases hparts : actionParts text with ⟨_, _ | _⟩
    · simp [addAction, grantOf?, hparts, Keyed.holds_modify_id]
    · simp [addAction, grantOf?, hparts, Keyed.holds_modify_addNew]
  | _ => simp [addAction, grantOf?]

theorem adds_addGrant (resource : String) :
    Adds (addGrant resource) (fun action key grant => resource = key ∧ grantOf? action = some grant)
      (fun action => (grantOf? action).isSome) := by
  refine .of_step fun resources action => ?_
  cases action with
  | str text =>
    rcases hparts : actionParts text with ⟨_, _ | _⟩
    · simp [addGrant, grantOf?, hparts, Keyed.holds_modify_id]
    · simp [addGrant, grantOf?, hparts, Keyed.holds_modify_addNew]
  | _ => simp [addGrant, grantOf?, Keyed.holds_modify_id]

theorem adds_addStatement :
    Adds addStatement (fun statement service name => .permission service name ∈ grantsOf statement)
      isReadable := by
  refine .of_step fun services statement => ?_
  unfold addStatement grantsOf isReadable
  cases allowedActions statement with
  | error fault => simp
  | ok actions => simp [adds_addAction.untilFault.holds_iff, adds_addAction.untilFault.goesOn_eq]

variable {statement item : Value} {name service resource : String} {items : List Value}

section

variable (h : resourceOf? statement = some name)

include h

/-- A statement with a resource is a map that holds the key. -/
theorem exists_find?_of_resourceOf? :
    ∃ entries resource, statement = .map entries ∧ Keyed.find? "Resource" entries = some resource ∧
      resource.display = name := by
  unfold resourceOf? at h
  cases statement with
  | map entries =>
    cases hfind : Keyed.find? "Resource" entries with
    | none => simp [Value.get, hfind, Except.toOption] at h
    | some resource =>
      rw [Value.get, hfind] at h
      exact ⟨entries, resource, rfl, hfind, Option.some.inj h⟩
  | _ => simp [Value.get, Except.toOption] at h

theorem addResource_of_resource (resources : ResourceGrants) :
    addResource resources statement = match allowedActions statement with
      | .ok actions => untilFault (addGrant name) resources actions
      | .error _ => (resources, false) := by
  obtain ⟨entries, resource, rfl, hfind, rfl⟩ := exists_find?_of_resourceOf? h
  have hholds : (Value.map entries).holds "Resource" = .ok true := by simp [Value.holds, Keyed.has, hfind]
  have hget : (Value.map entries).get "Resource" = .ok resource := by simp [Value.get, hfind]
  unfold addResource
  rw [hholds, hget]
  cases allowedActions (.map entries) with
  | error fault => rfl
  | ok actions => cases actions <;> rfl

theorem isPassed_of_resource : isPassed statement = isReadable statement := by
  obtain ⟨entries, resource, rfl, hfind, -⟩ := exists_find?_of_resourceOf? h
  simp [isPassed, Value.holds, Keyed.has, hfind]

end

theorem addResource_of_none (h : resourceOf? statement = none) (resources : ResourceGrants) :
    addResource resources statement = (resources, isPassed statement) := by
  -- What is no map has no effect, even if it holds the key as a text.
  have hplain : ∀ {other : Value}, allowedActions other = .error .wrongType →
      addResource resources other = (resources, isPassed other) := by
    intro other hactions
    unfold addResource isPassed isReadable
    rw [hactions]
    cases other.holds "Resource" with
    | error fault => rfl
    | ok named => cases named <;> rfl
  cases statement with
  | map entries =>
    cases hfind : Keyed.find? "Resource" entries with
    | none => simp [addResource, isPassed, Value.holds, Keyed.has, hfind]
    | some resource => simp [resourceOf?, Value.get, hfind, Except.toOption] at h
  | _ => exact hplain rfl

theorem adds_addResource :
    Adds addResource (fun statement resource grant => resourceOf? statement = some resource ∧
      grant ∈ grantsOf statement) isPassed := by
  refine .of_step fun resources statement => ?_
  cases hname : resourceOf? statement with
  | none => simp [addResource_of_none hname]
  | some name =>
    rw [addResource_of_resource hname, isPassed_of_resource hname, grantsOf, isReadable]
    cases allowedActions statement with
    | error fault => simp
    | ok actions =>
      have hgrants := (adds_addGrant name).untilFault
      simp [hgrants.holds_iff, hgrants.goesOn_eq, and_left_comm]

/-! ## All statements -/

theorem holds_servicesOf_iff :
    (servicesOf (.list items)).Holds service name ↔
      ∃ item ∈ readPart isReadable items, .permission service name ∈ grantsOf item := by
  rw [servicesOf, adds_addStatement.untilFault.holds_iff]
  simp [Keyed.Holds, Keyed.find?]

theorem holds_writtenResources_iff {grant : Grant} :
    (writtenResources (.list items)).Holds resource grant ↔
      ∃ item ∈ readPart isPassed items, resourceOf? item = some resource ∧ grant ∈ grantsOf item := by
  rw [writtenResources, adds_addResource.untilFault.holds_iff]
  simp [Keyed.Holds, Keyed.find?]

theorem holds_servicesOf_singleton :
    (servicesOf (.list [item])).Holds service name ↔ .permission service name ∈ grantsOf item := by
  rw [holds_servicesOf_iff]
  simp [readPart]

theorem holds_writtenResources_singleton {grant : Grant} :
    (writtenResources (.list [item])).Holds resource grant ↔
      resourceOf? item = some resource ∧ grant ∈ grantsOf item := by
  rw [holds_writtenResources_iff]
  simp [readPart]

/-- **Statements count one by one, if no unreadable one hides another.** The permissions of the services, and
the grants on the resources, are the union over the statements of what is read of each alone, and every
permission on a resource is one of its service, if and only if no statement at which a reading ends has
others after it that grant something new to that reading. -/
theorem statements_count_singly_iff (items : List Value) :
    (∀ service name, (servicesOf (.list items)).Holds service name ↔
        ∃ item ∈ items, (servicesOf (.list [item])).Holds service name) ∧
      (∀ resource grant, (writtenResources (.list items)).Holds resource grant ↔
        ∃ item ∈ items, (writtenResources (.list [item])).Holds resource grant) ∧
      (∀ resource service name, (writtenResources (.list items)).Holds resource (.permission service name) →
        (servicesOf (.list items)).Holds service name) ↔
    NothingHidden isReadable (fun item service name => .permission service name ∈ grantsOf item) items ∧
      NothingHidden isPassed (fun item resource grant => resourceOf? item = some resource ∧
        grant ∈ grantsOf item) items := by
  rw [← readPart_gives_all_iff, ← readPart_gives_all_iff]
  simp only [holds_servicesOf_singleton, holds_writtenResources_singleton]
  simp only [holds_servicesOf_iff, holds_writtenResources_iff]
  constructor
  · rintro ⟨hservices, hresources, -⟩
    exact ⟨hservices, hresources⟩
  · rintro ⟨hservices, hresources⟩
    refine ⟨hservices, hresources, fun resource service name hgrant => ?_⟩
    obtain ⟨item, hitem, -, hmem⟩ := (hresources resource _).1 hgrant
    exact (hservices service name).2 ⟨item, hitem, hmem⟩

/-- A statement without an effect and a resource hides the permission after it, but only from the services. -/
example :
    let effectless : Value := .map [("Action", .list [.str "s3:GetObject"])]
    let upload : Value := .map [("Effect", .str "Allow"), ("Action", .list [.str "s3:PutObject"]),
      ("Resource", .str "arn:aws:s3:::b")]
    ¬(servicesOf (.list [effectless, upload])).Holds "s3" "PutObject" ∧
      (servicesOf (.list [upload])).Holds "s3" "PutObject" ∧
      (writtenResources (.list [effectless, upload])).Holds "arn:aws:s3:::b" (.permission "s3" "PutObject") := by
  decide +kernel

/-! ## Well-formed statements -/

/-- An action of a statement: a permission of a service. -/
structure Action where
  service : String
  name : String
  colon_not_mem_service : ':' ∉ service.toList := by decide
  colon_not_mem_name : ':' ∉ name.toList := by decide

namespace Action

def text (a : Action) : String := a.service ++ ":" ++ a.name

def grant (a : Action) : Grant := .permission (Text.trimmed a.service) (Text.trimmed a.name)

theorem grantOf?_text (a : Action) : grantOf? (.str a.text) = some a.grant := by
  have hpieces : Text.splitString ':' a.text = [a.service, a.name] := by
    have htext : a.text.toList = a.service.toList ++ ':' :: a.name.toList := by simp [text]
    rw [Text.splitString, htext, Text.splitAt_append, Text.splitAt_of_not_mem a.colon_not_mem_service,
      Text.splitAt_of_not_mem a.colon_not_mem_name]
    simp
  simp [grantOf?, actionParts, hpieces, grant]

def getObject : Action := { service := "s3", name := "GetObject" }

def putObject : Action := { service := "s3", name := "PutObject" }

end Action

/-- A well-formed statement: a map with an effect, a list of actions, and maybe a resource. -/
structure Statement where
  value : Value
  effect : String
  actions : List Action
  resource : Option Value
  effect_eq : value.get "Effect" = .ok (.str effect)
  actions_eq : value.get "Action" = .ok (.list (actions.map fun a => .str a.text))
  resource_eq : (value.get "Resource").toOption = resource

namespace Statement

def allowed (s : Statement) : List Action := if s.effect = "Allow" then s.actions else []

def Permits (s : Statement) (text : String) : Prop := ∃ a ∈ s.allowed, a.text = text

instance (s : Statement) (text : String) : Decidable (s.Permits text) :=
  inferInstanceAs (Decidable (∃ a ∈ s.allowed, a.text = text))

def GrantsOn (s : Statement) (resource : String) (grant : Grant) : Prop :=
  s.resource.map Value.display = some resource ∧ ∃ a ∈ s.allowed, a.grant = grant

instance (s : Statement) (resource : String) (grant : Grant) : Decidable (s.GrantsOn resource grant) :=
  inferInstanceAs (Decidable (_ ∧ ∃ a ∈ s.allowed, a.grant = grant))

theorem resourceOf?_value (s : Statement) : resourceOf? s.value = s.resource.map Value.display := by
  rw [resourceOf?, s.resource_eq]

theorem allowedActions_value (s : Statement) : allowedActions s.value = .ok (s.allowed.map fun a => .str a.text) := by
  unfold allowedActions allowed
  rw [s.effect_eq, s.actions_eq]
  by_cases heffect : s.effect = "Allow"
  · simp [heffect, Value.isText, Value.text?, Value.elements, bind, Except.bind]
  · simp [heffect, Value.isText, Value.text?, bind, Except.bind]
    rfl

theorem isReadable_value (s : Statement) : isReadable s.value := by
  rw [isReadable, s.allowedActions_value]
  simp [Action.grantOf?_text]

theorem isPassed_value (s : Statement) : isPassed s.value := by
  have hreadable := s.isReadable_value
  have heffect := s.effect_eq
  cases hvalue : s.value with
  | map entries =>
    rw [hvalue] at hreadable
    simp [isPassed, Value.holds, hreadable]
  | _ =>
    rw [hvalue] at heffect
    cases heffect

theorem grantsOf_value (s : Statement) : grantsOf s.value = s.allowed.map Action.grant := by
  rw [grantsOf, s.allowedActions_value]
  simp only
  rw [readPart_of_all (by simp [Action.grantOf?_text]), filterMap_map]
  have hgrant : (grantOf? ∘ fun a => Value.str a.text) = some ∘ Action.grant :=
    funext fun a => a.grantOf?_text
  rw [hgrant, filterMap_eq_map]

def allowing (action : Action) (resource : String) : Statement where
  value := .map [("Effect", .str "Allow"), ("Action", .list [.str action.text]), ("Resource", .str resource)]
  effect := "Allow"
  actions := [action]
  resource := some (.str resource)
  effect_eq := rfl
  actions_eq := rfl
  resource_eq := rfl

theorem grantsOn_allowing {action : Action} {resource name : String} {grant : Grant} :
    (allowing action resource).GrantsOn name grant ↔ resource = name ∧ action.grant = grant := by
  simp [GrantsOn, allowing, allowed, Value.display]

end Statement

end ServerlessTaint.Grants
