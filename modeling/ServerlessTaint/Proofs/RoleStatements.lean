import ServerlessTaint.Proofs.HandlerPermissions
import ServerlessTaint.Proofs.Statements

/-!
# Statements of single functions

Both what a function may do (`mem_ownPermissions_iff`) and on which resources (`holds_ownResources_iff`) is
taken from the first of its statements. So all its statements count if and only if the later ones allow
nothing else (`all_statements_count_iff`).
-/

namespace ServerlessTaint

open List

/-- Values that names have of their own are found by the names. -/
theorem Keyed.find?_filterMap {κ α : Type} [DecidableEq κ] (own : κ → Option α) (names : List κ) (key : κ) :
    find? key (names.filterMap fun name => (own name).map (name, ·)) = if key ∈ names then own key else none := by
  induction names with
  | nil => rfl
  | cons first names ih =>
    cases hown : own first with
    | none =>
      simp only [filterMap_cons, hown, Option.map_none, ih, mem_cons]
      by_cases hfirst : key = first
      · simp [hfirst, hown]
      · simp [hfirst]
    | some a =>
      simp only [filterMap_cons, hown, Option.map_some, find?, ih, mem_cons]
      by_cases hfirst : first = key
      · simp [hfirst, ← hown]
      · simp [hfirst, Ne.symm hfirst]

namespace Roles

open Grants (Action Statement)

/-- The grants that the first statement of a function gives to it, if it is a statement that gives some. -/
def ownResources? (config : Value) (handler : String) : Option ResourceGrants :=
  (allowed? (config.getAll ["functions", handler])).bind fun allowed =>
    (allowed.1.get "Resource").toOption.bind fun resource =>
      (allowed.2.mapM Grants.grantOf?).map fun grants => [(resource.display, distinct grants)]

theorem resources_eq {config : Value} {declared : Keyed String Value}
    (h : config.get "functions" = .ok (.map declared)) :
    resources config = .ok ((Keyed.keys declared).filterMap fun name =>
      (ownResources? config name).map (name, ·)) := by
  have hmapM : ∀ {read : Value → Option Grant} (actions : List Value), (∀ v, read v = Grants.grantOf? v) →
      actions.mapM read = actions.mapM Grants.grantOf? := by
    intro read actions hread
    rw [funext hread]
  unfold resources
  rw [functions_eq h, ok_bind, filterMap_map]
  congr 2
  funext name
  unfold ownResources?
  rw [Function.comp_apply]
  cases hallowed : allowed? (config.getAll ["functions", name]) with
  | none => simp [hallowed]
  | some allowed =>
    simp only [hallowed, Option.bind_eq_bind, Option.bind_some]
    cases hresource : (allowed.1.get "Resource").toOption with
    | none => rfl
    | some resource =>
      rw [hmapM allowed.2]
      · cases allowed.2.mapM Grants.grantOf? <;> rfl
      · intro action
        cases action with
        | str text => rcases hparts : Grants.actionParts text with ⟨_, _ | _⟩ <;> simp [Grants.grantOf?, hparts]
        | _ => rfl

theorem mapM_map_eq_some {α β γ : Type} {read : β → Option γ} {write : α → β} {meaning : α → γ}
    (h : ∀ a, read (write a) = some (meaning a)) (items : List α) :
    (items.map write).mapM read = some (items.map meaning) := by
  rw [mapM_map, show read ∘ write = fun a => pure (meaning a) from funext h, mapM_pure]
  rfl

/-! ## The first statement -/

section

variable {config : Value} {handler : String} {stated : List Statement}

/-- A configuration with statements of a function declares functions, this one among them. -/
theorem exists_declared {key : String} {v : Value} (h : config.getAll ["functions", handler, key] = .ok v) :
    ∃ declared info, config.get "functions" = .ok (.map declared) ∧ handler ∈ Keyed.keys declared ∧
      config.getAll ["functions", handler] = .ok info ∧ info.get key = .ok v := by
  obtain ⟨functions, hfunctions, h⟩ := bind_eq_ok_iff.1 h
  obtain ⟨info, hinfo, h⟩ := bind_eq_ok_iff.1 h
  obtain ⟨found, hfound, h⟩ := bind_eq_ok_iff.1 h
  cases h
  cases functions with
  | map declared =>
    refine ⟨declared, info, hfunctions, ?_, bind_eq_ok_iff.2 ⟨_, hfunctions, bind_eq_ok_iff.2 ⟨info, hinfo, rfl⟩⟩,
      hfound⟩
    cases hfind : Keyed.find? handler declared with
    | none => simp [Value.get, hfind] at hinfo
    | some found => exact mem_map_of_mem (f := (·.1)) (Keyed.mem_of_find? hfind)
  | _ => cases hinfo

section

variable (h : config.getAll ["functions", handler, "iamRoleStatements"] = .ok (.list (stated.map Statement.value)))

include h

theorem allowed?_of_stated :
    allowed? (config.getAll ["functions", handler]) = stated.head?.bind fun first =>
      if first.effect = "Allow" then some (first.value, first.allowed.map fun a => .str a.text) else none := by
  obtain ⟨-, info, -, -, hinfo, hstated⟩ := exists_declared h
  cases stated with
  | nil =>
    have hnone : firstStatement (config.getAll ["functions", handler]) = .error .indexOutOfRange := by
      rw [firstStatement, hinfo, ok_bind, hstated]
      rfl
    rw [allowed?, hnone]
    rfl
  | cons first rest =>
    have hfirst : firstStatement (config.getAll ["functions", handler]) = .ok first.value := by
      rw [firstStatement, hinfo, ok_bind, hstated]
      rfl
    rw [allowed?, hfirst, head?_cons, Option.bind_some]
    by_cases heffect : first.effect = "Allow"
    · simp [first.effect_eq, first.actions_eq, heffect, Statement.allowed, Value.isText, Value.text?, Except.toOption,
        ok_bind, Value.elements]
    · simp [first.effect_eq, heffect, Value.isText, Value.text?, Except.toOption]

theorem mem_ownPermissions_iff (text : String) :
    text ∈ (ownPermissions? config handler).getD [] ↔ ∃ first ∈ stated.head?, first.Permits text := by
  rw [ownPermissions?, allowed?_of_stated h]
  cases stated.head? with
  | none => simp
  | some first =>
    by_cases heffect : first.effect = "Allow"
    · have htext : ∀ a : Action, Value.text? (.str a.text) = some a.text := fun _ => rfl
      rw [Option.bind_some, if_pos heffect, Option.bind_some, mapM_map_eq_some htext]
      simp [distinct, mem_addAllNew, Statement.Permits]
    · simp [heffect, Statement.Permits, Statement.allowed]

theorem holds_ownResources_iff (resource : String) (grant : Grant) :
    ((ownResources? config handler).getD []).Holds resource grant ↔
      ∃ first ∈ stated.head?, first.GrantsOn resource grant := by
  rw [ownResources?, allowed?_of_stated h]
  cases stated.head? with
  | none => simp [Keyed.Holds, Keyed.find?]
  | some first =>
    by_cases heffect : first.effect = "Allow"
    · rw [Option.bind_some, if_pos heffect, Option.bind_some, first.resource_eq,
        mapM_map_eq_some Action.grantOf?_text]
      cases hresource : first.resource with
      | none => simp [Keyed.Holds, Keyed.find?, Statement.GrantsOn, hresource]
      | some named =>
        by_cases hname : named.display = resource
        · simp [distinct, mem_addAllNew, Keyed.Holds, Keyed.find?, Statement.GrantsOn, hresource, hname]
        · simp [Keyed.Holds, Keyed.find?, Statement.GrantsOn, hresource, hname]
    · simp [heffect, Keyed.Holds, Keyed.find?, Statement.GrantsOn, Statement.allowed]

end

/-- The first member gives as much as the whole list if and only if no later one gives something else. -/
theorem head?_gives_all_iff {α β : Type} (gives : α → β → Prop) (items : List α) :
    (∀ b, (∃ first ∈ items.head?, gives first b) ↔ ∃ a ∈ items, gives a b) ↔
      ∀ first rest, items = first :: rest → ∀ later ∈ rest, ∀ b, gives later b → gives first b := by
  cases items with
  | nil => simp
  | cons first rest =>
    simp only [head?_cons, Option.mem_def, Option.some.injEq, exists_eq_left', mem_cons,
      exists_eq_or_imp]
    constructor
    · rintro hall _ _ hsplit later hlater b hgives
      cases hsplit
      exact (hall b).2 (.inr ⟨later, hlater, hgives⟩)
    · intro hlater b
      constructor
      · exact .inl
      · rintro (hfirst | ⟨later, hmem, hgives⟩)
        · exact hfirst
        · exact hlater first rest rfl later hmem b hgives

/-- A function has exactly the permissions that its statements allow, and on each resource exactly the grants
of the statements that name it. -/
def AllCount (handler : String) (stated : List Statement) (permitted : Keyed String (List String))
    (granted : Keyed String ResourceGrants) : Prop :=
  (∀ text, permitted.Holds handler text ↔ ∃ s ∈ stated, s.Permits text) ∧
    ∀ resource grant, ((Keyed.find? handler granted).getD []).Holds resource grant ↔
      ∃ s ∈ stated, s.GrantsOn resource grant

/-- **All statements of a function count, if the first one says it all.** Let a declared function have a list
of well-formed statements. The permissions and the grants on resources of functions are read without a fault,
and all statements of the function count if and only if none after the first one allows anything that the
first one does not. -/
theorem all_statements_count_iff
    (h : config.getAll ["functions", handler, "iamRoleStatements"] = .ok (.list (stated.map Statement.value))) :
    ∃ permitted granted, permissions config = .ok permitted ∧ resources config = .ok granted ∧
      (AllCount handler stated permitted granted ↔
        ∀ first rest, stated = first :: rest → ∀ later ∈ rest,
          (∀ text, later.Permits text → first.Permits text) ∧
            ∀ resource grant, later.GrantsOn resource grant → first.GrantsOn resource grant) := by
  obtain ⟨declared, info, hdeclared, hhandler, -, -⟩ := exists_declared h
  refine ⟨_, _, permissions_eq hdeclared, resources_eq hdeclared, ?_⟩
  have hpermitted := mem_ownPermissions_iff h
  have hgranted := holds_ownResources_iff h
  have htexts := head?_gives_all_iff Statement.Permits stated
  have hgrants := head?_gives_all_iff (fun s (b : String × Grant) => s.GrantsOn b.1 b.2) stated
  simp only [Prod.forall] at hgrants
  rw [AllCount, Keyed.find?_filterMap, if_pos hhandler]
  simp only [Keyed.Holds, Keyed.find?_filterMap, if_pos hhandler] at hgranted ⊢
  simp only [hpermitted, hgranted]
  rw [htexts, hgrants]
  constructor
  · rintro ⟨hfirst, hfirst'⟩ first rest hsplit later hlater
    exact ⟨hfirst first rest hsplit later hlater, hfirst' first rest hsplit later hlater⟩
  · intro hfirst
    exact ⟨fun first rest hsplit later hlater => (hfirst first rest hsplit later hlater).1,
      fun first rest hsplit later hlater => (hfirst first rest hsplit later hlater).2⟩

end

/-- A configuration with one function that has the given statements. -/
def withStatements (stated : List Statement) : Value :=
  .map [("functions", .map [("f", .map [("handler", .str "m.f"),
    ("iamRoleStatements", .list (stated.map Statement.value))])])]

def reading : Statement := .allowing .getObject "arn:aws:s3:::a"

def writing : Statement := .allowing .putObject "arn:aws:s3:::b"

/-- A second statement does not count, unless it repeats the first one. -/
theorem second_statement_left_out :
    (∃ permitted granted, permissions (withStatements [reading, writing]) = .ok permitted ∧
        resources (withStatements [reading, writing]) = .ok granted ∧
        ¬AllCount "f" [reading, writing] permitted granted) ∧
      ∃ permitted granted, permissions (withStatements [reading, reading]) = .ok permitted ∧
        resources (withStatements [reading, reading]) = .ok granted ∧
        AllCount "f" [reading, reading] permitted granted := by
  obtain ⟨permitted, granted, hpermitted, hgranted, hiff⟩ :=
    all_statements_count_iff (rfl : (withStatements [reading, writing]).getAll ["functions", "f", _] = .ok _)
  obtain ⟨permitted', granted', hpermitted', hgranted', hiff'⟩ :=
    all_statements_count_iff (rfl : (withStatements [reading, reading]).getAll ["functions", "f", _] = .ok _)
  refine ⟨⟨permitted, granted, hpermitted, hgranted, fun hall => ?_⟩,
    permitted', granted', hpermitted', hgranted', hiff'.2 ?_⟩
  · have hsame := (hiff.1 hall reading [writing] rfl writing (by simp)).1 "s3:PutObject"
    exact absurd (hsame (by decide)) (by decide)
  · rintro first rest hsplit later hlater
    cases hsplit
    cases List.mem_singleton.1 hlater
    exact ⟨fun _ h => h, fun _ _ h => h⟩

end Roles

end ServerlessTaint
