import ServerlessTaint.Permission
import ServerlessTaint.Proofs.PluginOrder

/-!
# Permissions of single handlers

With the roles plugin a function has permissions of its own, which replace those of the service or are
added to them. The facts of a configuration hold what its functions say (`PluginFacts.sections_of_enabled`).
The decision about a call depends on the parameters of the roles plugin and on
the entry of the handler that makes it (`run_serviceAllows`), so it follows the statements and the setting of
that function (`decision_follows_override`).

In each case of the decision more permissions allow more (`decision_of_more_granted`, `decision_of_extends`). But the first
entry of any handler leads to a case in which every handler needs one, so a call that was allowed may then end in a fault
(`more_permissions_keep_iff`).
-/

namespace ServerlessTaint

open List

namespace Roles

/-! ## What a function says -/

/-- The permissions that the first statement of a function grants to it, if it is a statement that grants
some. -/
def ownPermissions? (config : Value) (handler : String) : Option (List String) :=
  (allowed? (config.getAll ["functions", handler])).bind fun allowed =>
    (allowed.2.mapM Value.text?).map distinct

/-- A function overrides the provider-level grants. -/
def overrideOf (config : Value) (handler : String) : Bool :=
  (overrides (config.getAll ["functions", handler, "iamRoleStatementsInherit"])).getD (defaultOverride config)

def forService (service : String) (permissions : List String) : List String :=
  (permissions.filter fun p => service.toList.isPrefixOf p.toList).map PluginFacts.withoutService

def permissionsOf (config : Value) (handler service : String) : List String :=
  forService service ((ownPermissions? config handler).getD [])

/-- The permissions that count for a function: its own, with those of the service unless they are
overridden. -/
def effective (config : Value) (handler service : String) (granted : List String) : List String :=
  if overrideOf config handler then permissionsOf config handler service
  else granted ++ permissionsOf config handler service

section

variable {config : Value} {declared : Keyed String Value} (h : config.get "functions" = .ok (.map declared))

include h

theorem getAll_functions (keys : List String) :
    config.getAll ("functions" :: keys) = (Value.map declared).getAll keys := by
  unfold Value.getAll
  rw [foldlM_cons, h, ok_bind]

theorem functions_eq :
    functions config = .ok ((Keyed.keys declared).map fun name =>
      (.str name, config.getAll ["functions", name])) := by
  have hget : ∀ name, config.getAll ["functions", name] = (Value.map declared).get name := by
    intro name
    rw [getAll_functions h, Value.getAll, foldlM_cons]
    exact bind_pure _
  unfold functions
  rw [h, ok_bind, Value.elements, ok_bind]
  simp [Keyed.keys, hget, Function.comp_def, pure, Except.pure]

theorem configuration_eq :
    configuration config = .ok [(overrideName,
      distinct ((Keyed.keys declared).map fun name => (name, overrideOf config name)))] := by
  have hflags : ∀ names : List String,
      ((names.map fun name => (Value.str name, config.getAll ["functions", name])).mapM
        fun f : Value × Except Fault Value => do
          let _ ← f.1.asKey
          return (f.1.display,
            (overrides (f.2 >>= Value.get "iamRoleStatementsInherit")).getD (defaultOverride config))) =
        .ok (names.map fun name => (name, overrideOf config name)) := by
    intro names
    induction names with
    | nil => rfl
    | cons name names ih =>
      rw [map_cons, mapM_cons, ih]
      have hsetting : (config.getAll ["functions", name] >>= Value.get "iamRoleStatementsInherit") =
          config.getAll ["functions", name, "iamRoleStatementsInherit"] := by
        unfold Value.getAll
        simp
      rw [hsetting]
      rfl
  unfold configuration
  rw [functions_eq h, ok_bind, hflags]
  rfl

theorem permissions_eq :
    permissions config = .ok ((Keyed.keys declared).filterMap fun name =>
      (ownPermissions? config name).map (name, ·)) := by
  unfold permissions
  rw [functions_eq h, ok_bind, filterMap_map]
  congr 2
  funext name
  unfold ownPermissions?
  cases hallowed : allowed? (config.getAll ["functions", name]) with
  | none => simp [hallowed]
  | some allowed => cases htexts : allowed.2.mapM Value.text? <;> simp [hallowed, htexts, Value.display]

theorem exists_resources : ∃ grants, resources config = .ok grants := by
  unfold resources
  rw [functions_eq h, ok_bind]
  exact ⟨_, rfl⟩

end

end Roles

/-! ## What the facts hold -/

namespace PluginFacts

theorem find?_mergeEntry {α : Type} (merge : α → α → α) (store : Option (Keyed String α)) (entry : String × α)
    (key : String) :
    Keyed.find? key ((mergeEntry merge store entry).getD []) =
      if entry.1 = key then some ((Keyed.find? key (store.getD [])).elim entry.2 (merge · entry.2))
      else Keyed.find? key (store.getD []) := by
  unfold mergeEntry
  rw [Option.getD_some, Keyed.find?_set]
  split
  · next hkey => rw [hkey]
  · rfl

/-- Merging a set with itself changes nothing, so a name that is met again keeps its permissions. -/
theorem find?_mergeEntry_own {own : String → Option (List String)} {store : Option (Keyed String (List String))}
    (hstore : ∀ name, Keyed.find? name (store.getD []) = none ∨ Keyed.find? name (store.getD []) = own name)
    (first name : String) :
    Keyed.find? name (((own first).elim store fun permissions =>
        mergeEntry addAllNew store (first, permissions)).getD []) =
      if first = name ∧ (own first).isSome then own name else Keyed.find? name (store.getD []) := by
  cases hown : own first with
  | none => simp
  | some permissions =>
    rw [Option.elim_some, find?_mergeEntry]
    by_cases hname : first = name
    · subst hname
      rcases hstore first with hfind | hfind
      · simp [hfind, hown]
      · simp [hfind, hown, addAllNew_of_subset fun _ hy => hy]
    · simp [hname]

/-- Own permissions are stored under the names of their functions, which may be met more than once. -/
theorem find?_mergeInto_own (own : String → Option (List String)) (names : List String)
    (store : Option (Keyed String (List String)))
    (hstore : ∀ name, Keyed.find? name (store.getD []) = none ∨ Keyed.find? name (store.getD []) = own name)
    (name : String) :
    Keyed.find? name ((mergeInto addAllNew store
        (some (names.filterMap fun name => (own name).map (name, ·)))).getD []) =
      if name ∈ names ∧ (own name).isSome then own name else Keyed.find? name (store.getD []) := by
  rw [mergeInto_eq_foldl]
  induction names generalizing store with
  | nil => simp
  | cons first names ih =>
    have hentry := find?_mergeEntry_own hstore first
    have hrest := ih ((own first).elim store fun permissions => mergeEntry addAllNew store (first, permissions))
      fun name => by
        rw [hentry]
        split
        · exact .inr rfl
        · exact hstore name
    by_cases hname : name = first
    · cases hown : own first <;> simp_all
    · cases hown : own first <;> simp_all [Ne.symm hname]

theorem isSome_mergeInto {α : Type} (merge : α → α → α) (store : Option (Keyed String α))
    (entries : Keyed String α) :
    (mergeInto merge store (some entries)).isSome = (store.isSome || !entries.isEmpty) := by
  rw [mergeInto_eq_foldl]
  induction entries generalizing store with
  | nil => simp
  | cons entry entries ih => simp [ih, mergeEntry]

/-- The own permissions of a handler for a service. -/
theorem permissionsFor_eq (facts : PluginFacts) (handler service : String) :
    ((permissionsFor (.str handler) (.str service) false).run facts).1 =
      (Keyed.find? handler (facts.handlers.getD [])).map fun own => distinct (Roles.forService service own) := by
  have hfound : lookUp (.str handler) (facts.handlers.getD []) = Keyed.find? handler (facts.handlers.getD []) := rfl
  change Option.map _ ((lookUp (.str handler) (facts.handlers.getD [])).bind _) = _
  rw [hfound]
  cases Keyed.find? handler (facts.handlers.getD []) <;> rfl

variable {declared : Keyed String Value}

theorem exists_withPlugin_roles {config : Value} (hdeclared : config.get "functions" = .ok (.map declared)) :
    ∃ grants, ∀ facts : PluginFacts, withPlugin config facts .roles =
      ((facts.storeConfig Roles.pluginName (some [(Roles.overrideName,
          distinct ((Keyed.keys declared).map fun name => (name, Roles.overrideOf config name)))])).storeHandlers
        (some ((Keyed.keys declared).filterMap fun name =>
          (Roles.ownPermissions? config name).map (name, ·)))).storeResources (some grants) := by
  obtain ⟨grants, hgrants⟩ := Roles.exists_resources hdeclared
  refine ⟨grants, fun facts => ?_⟩
  unfold withPlugin addPlugin
  simp [Roles.configuration_eq hdeclared, Roles.permissions_eq hdeclared, hgrants]

theorem withPlugin_stateMachines (config : Value) (facts : PluginFacts) :
    (withPlugin config facts .stateMachines).config = facts.config ∧
      (withPlugin config facts .stateMachines).handlers = facts.handlers := by
  unfold withPlugin addPlugin
  cases StateMachines.events config <;> exact ⟨rfl, rfl⟩

/-- The sections that the roles plugin fills, when it is enabled and functions are declared. -/
theorem sections_of_enabled {config : Value} {entries : List Value} {facts : PluginFacts}
    (hdeclared : config.get "functions" = .ok (.map declared))
    (hentries : (config.get "plugins" >>= Value.elements) = .ok entries)
    (henabled : .str "serverless-iam-roles-per-function" ∈ entries) (hfacts : ofConfig config = .ok facts) :
    facts.config = some [(Roles.pluginName, [(Roles.overrideName,
        distinct ((Keyed.keys declared).map fun name => (name, Roles.overrideOf config name)))])] ∧
      facts.handlers = mergeInto addAllNew none (some ((Keyed.keys declared).filterMap fun name =>
        (Roles.ownPermissions? config name).map (name, ·))) := by
  obtain ⟨grants, hroles⟩ := exists_withPlugin_roles hdeclared
  rw [ofConfig_eq hentries, addPlugins_eq_ok_iff] at hfacts
  obtain ⟨-, -, rfl⟩ := hfacts
  have hmem : Plugin.roles ∈ entries.filterMap supported? :=
    mem_filterMap.2 ⟨_, henabled, by decide⟩
  -- The facts are those of the roles plugin alone, or of the roles plugin followed by the other one.
  have hsame : ∀ plugin, plugin ∈ entries.filterMap supported? ↔
      plugin ∈ Plugin.roles :: if .stateMachines ∈ entries.filterMap supported? then [.stateMachines] else [] := by
    intro plugin
    cases plugin <;> split <;> simp [*]
  rw [foldl_eq_of_same_members (withPlugin_comm config) (withPlugin_idem config) hsame, foldl_cons]
  split <;> simp only [foldl_cons, foldl_nil, withPlugin_stateMachines, hroles] <;> exact ⟨rfl, rfl⟩

end PluginFacts

/-! ## Decisions -/

namespace Permission

theorem meets_eq_true_iff {required granted : List String} : meets required granted ↔ ∃ p ∈ required, p ∈ granted := by
  simp [meets]

/-- A flag of a declared function is found by its name. -/
theorem find?_flags {names : List String} {handler : String} (h : handler ∈ names) (flag : String → Bool) :
    (distinct (names.map fun name => (name, flag name))).find? (fun f => f.1 == handler) =
      some (handler, flag handler) := by
  have hmem : ∀ f, f ∈ distinct (names.map fun name => (name, flag name)) ↔ ∃ name ∈ names, (name, flag name) = f := by
    simp [distinct, mem_addAllNew]
  cases hfind : (distinct (names.map fun name => (name, flag name))).find? (fun f => f.1 == handler) with
  | none =>
    have := find?_eq_none.1 hfind (handler, flag handler) ((hmem _).2 ⟨handler, h, rfl⟩)
    simp at this
  | some found =>
    obtain ⟨name, -, rfl⟩ := (hmem found).1 (mem_of_find?_eq_some hfind)
    obtain rfl : name = handler := by simpa using find?_some hfind
    rfl

/-- What the parameters of plugins say about a handler: whether it overrides the permissions of services, and
nothing if the roles plugin is not among them. -/
def roleIn (config : Keyed String PluginParameters) (handler : String) : Except Fault (Option Bool) :=
  match Keyed.find? Roles.pluginName config with
  | none => .ok none
  | some parameters =>
    match Keyed.find? Roles.overrideName parameters with
    | none => .error (.missingKey (Text.quoted Roles.overrideName))
    | some flags =>
      match flags.find? fun flag => flag.1 == handler with
      | some flag => .ok (some flag.2)
      | none => .error .indexOutOfRange

/-- The permissions of a service that count beside the own ones of a handler. -/
def inherited (role : Option Bool) (granted : List String) : List String :=
  if role = some true then [] else granted

/-- The decision by the own permissions of a handler and the others that count. A handler without an entry is
a fault. -/
def ownDecision (required counting : List String) (service : String) : Option (List String) → Except Fault Bool
  | some own => .ok (meets required (counting ++ Roles.forService service own))
  | none => .error .wrongType

def decision (required granted : List String) (service handler : String) (facts : PluginFacts) :
    Except Fault Bool :=
  match facts.handlers with
  | none => .ok (!Keyed.has Roles.pluginName (facts.config.getD []) && meets required granted)
  | some stored => do
    let role ← roleIn (facts.config.getD []) handler
    ownDecision required (inherited role granted) service (Keyed.find? handler stored)

section

variable {required granted : List String} {service handler : String} {facts : PluginFacts}

/-- The facts after a question about the parameters of plugins. -/
def asked (facts : PluginFacts) : PluginFacts := { facts with config := some (facts.config.getD []) }

theorem run_hasRoles_eq (facts : PluginFacts) :
    hasRoles.run.run facts = (.ok (Keyed.has Roles.pluginName (facts.config.getD [])), asked facts) := rfl

/-- The parameters of the roles plugin say whether a handler overrides the permissions of services. -/
theorem run_overrides_eq {parameters : PluginParameters}
    (h : Keyed.find? Roles.pluginName (facts.config.getD []) = some parameters) :
    (overrides handler).run.run facts =
      ((roleIn (facts.config.getD []) handler).map (· == some true), asked facts) := by
  have hask : (ask (PluginFacts.configFor (.str Roles.pluginName))).run.run facts =
      (.ok (some parameters), asked facts) := by
    rw [← h]
    rfl
  rw [overrides, run_bind_of_ok hask, roleIn, h]
  cases hflags : Keyed.find? Roles.overrideName parameters with
  | none => simp only [hflags]; rfl
  | some flags =>
    simp only [hflags]
    cases flags.find? fun flag => flag.1 == handler with
    | none => rfl
    | some flag =>
      obtain ⟨name, flag⟩ := flag
      cases flag <;> rfl

variable {stored : Keyed String (List String)}

/-- The own permissions of a handler for a service. A handler without an entry is a fault. -/
theorem run_handlerPermissions (h : facts.handlers = some stored) (service : String) :
    (handlerPermissions handler service).run.run facts = (match Keyed.find? handler stored with
        | some own => .ok (distinct (Roles.forService service own))
        | none => .error .wrongType, facts) := by
  obtain ⟨config, events, handlers, resources⟩ := facts
  cases h
  have hask : (ask (PluginFacts.permissionsFor (.str handler) (.str service) false)).run.run
      ⟨config, events, some stored, resources⟩ =
        (.ok ((Keyed.find? handler stored).map fun own => distinct (Roles.forService service own)),
          ⟨config, events, some stored, resources⟩) := by
    change (Except.ok ((PluginFacts.permissionsFor (.str handler) (.str service) false).run _).1, _) = _
    rw [PluginFacts.permissionsFor_eq]
    rfl
  rw [handlerPermissions, run_bind_of_ok hask]
  cases Keyed.find? handler stored <;> rfl

theorem meets_append (required first second : List String) :
    meets required (first ++ second) = (meets required first || meets required second) := by
  rw [Bool.eq_iff_iff, Bool.or_eq_true]
  simp [meets_eq_true_iff, mem_append, and_or_left, exists_or]

/-- Two lists with the same members meet the same requirements. -/
theorem meets_congr {first second : List String} (h : ∀ p, p ∈ first ↔ p ∈ second) :
    meets required first = meets required second := by
  rw [Bool.eq_iff_iff, meets_eq_true_iff, meets_eq_true_iff]
  simp [h]

/-- What is decided with the own permissions of a handler at hand. -/
theorem run_ownDecision {verdict : List String → Bool} {counting : List String} (h : facts.handlers = some stored)
    (hverdict : ∀ own, verdict own = meets required (counting ++ own)) :
    ((handlerPermissions handler service >>= fun own => pure (verdict own) : Decide Bool).run.run facts).1 =
      ownDecision required counting service (Keyed.find? handler stored) := by
  have hown : (handlerPermissions handler service).run.run facts = _ := run_handlerPermissions h service
  cases hfind : Keyed.find? handler stored with
  | none =>
    rw [hfind] at hown
    rw [run_bind_of_error hown]
    rfl
  | some own =>
    rw [hfind] at hown
    rw [run_bind_of_ok hown, hverdict]
    exact congrArg Except.ok (meets_congr (by simp [distinct, mem_addAllNew]))

theorem run_serviceAllows_of_stored (h : facts.handlers = some stored) :
    ((serviceAllows required granted service (some handler)).run.run facts).1 =
      decision required granted service handler facts := by
  have hempty : ¬facts.isEmpty := by simp [PluginFacts.isEmpty, PluginFacts.sections, h]
  have hhas : facts.hasHandlers := by simp [PluginFacts.hasHandlers, h]
  have hget : (get : Decide PluginFacts).run.run facts = (.ok facts, facts) := rfl
  have hasked : (asked facts).handlers = some stored := h
  rw [serviceAllows, run_bind_of_ok hget, if_neg hempty, if_pos hhas, run_bind_of_ok (run_hasRoles_eq facts),
    decision, h]
  cases hparameters : Keyed.find? Roles.pluginName (facts.config.getD []) with
  | none =>
    have hrole : roleIn (facts.config.getD []) handler = .ok none := by rw [roleIn, hparameters]
    simp only [hrole, Keyed.has, hparameters, Option.isSome_none, Bool.false_eq_true, if_false]
    exact run_ownDecision hasked fun own => (meets_append required granted own).symm
  | some parameters =>
    have hoverrides : (overrides handler).run.run (asked facts) =
        ((roleIn (facts.config.getD []) handler).map (· == some true), asked facts) := run_overrides_eq hparameters
    simp only [Keyed.has, hparameters, Option.isSome_some, if_true]
    cases hrole : roleIn (facts.config.getD []) handler with
    | error fault =>
      rw [hrole] at hoverrides
      rw [run_bind_of_error hoverrides]
      rfl
    | ok role =>
      rw [hrole] at hoverrides
      rw [run_bind_of_ok hoverrides, ok_bind]
      by_cases hflag : role = some true
      · simp only [hflag, BEq.rfl, if_true]
        exact run_ownDecision hasked fun own => rfl
      · simp only [beq_eq_false_iff_ne.2 hflag, Bool.false_eq_true, if_false, inherited, if_neg hflag]
        exact run_ownDecision hasked fun own => meets_congr (by simp [mem_addAllNew])

theorem run_serviceAllows_of_unstored (h : facts.handlers = none) :
    ((serviceAllows required granted service (some handler)).run.run facts).1 =
      decision required granted service handler facts := by
  have hhas : ¬facts.hasHandlers := by simp [PluginFacts.hasHandlers, h]
  have hget : (get : Decide PluginFacts).run.run facts = (.ok facts, facts) := rfl
  rw [serviceAllows, run_bind_of_ok hget, decision, h]
  by_cases hempty : facts.isEmpty = true
  · rw [if_pos hempty]
    have hconfig : facts.config = none := by
      cases hconfig : facts.config with
      | none => rfl
      | some config => simp [PluginFacts.isEmpty, PluginFacts.sections, hconfig] at hempty
    simp [hconfig, Keyed.has, Keyed.find?]
    rfl
  · rw [if_neg hempty, if_neg hhas, run_bind_of_ok (run_hasRoles_eq facts)]
    cases Keyed.has Roles.pluginName (facts.config.getD []) <;> rfl

theorem run_serviceAllows (required granted : List String) (service handler : String) (facts : PluginFacts) :
    ((serviceAllows required granted service (some handler)).run.run facts).1 =
      decision required granted service handler facts := by
  cases h : facts.handlers with
  | none => exact run_serviceAllows_of_unstored h
  | some stored => exact run_serviceAllows_of_stored h

theorem roleIn_eq_ok_none_iff {config : Keyed String PluginParameters} :
    roleIn config handler = .ok none ↔ Keyed.has Roles.pluginName config = false := by
  unfold roleIn Keyed.has
  cases Keyed.find? Roles.pluginName config with
  | none => simp
  | some parameters =>
    cases hflags : Keyed.find? Roles.overrideName parameters with
    | none => simp [hflags]
    | some flags => cases hflag : flags.find? fun flag => flag.1 == handler <;> simp [hflags, hflag]

/-- A call is allowed without any permissions of handlers and without the roles plugin, by the service alone,
or by what counts for a handler that has an entry. -/
theorem decision_eq_ok_true_iff :
    decision required granted service handler facts = .ok true ↔
      (facts.handlers = none ∧ roleIn (facts.config.getD []) handler = .ok none ∧ ∃ p ∈ required, p ∈ granted) ∨
        ∃ stored own role, facts.handlers = some stored ∧ Keyed.find? handler stored = some own ∧
          roleIn (facts.config.getD []) handler = .ok role ∧
          ∃ p ∈ required, p ∈ inherited role granted ++ Roles.forService service own := by
  unfold decision
  cases facts.handlers with
  | none => simp [roleIn_eq_ok_none_iff, meets_eq_true_iff]
  | some stored =>
    rw [bind_eq_ok_iff]
    cases hown : Keyed.find? handler stored <;> simp [ownDecision, hown, meets_eq_true_iff]

end

/-- A configuration with the roles plugin and a function that inherits the grants and has none of its own. -/
def inheriting : Value := .map [
  ("plugins", .list [.str "serverless-iam-roles-per-function"]),
  ("functions", .map [("f", .map [("handler", .str "m.f"), ("iamRoleStatementsInherit", .str "true")])])]

def inheritingFacts : PluginFacts where
  config := some [(Roles.pluginName, [(Roles.overrideName, [("f", false)])])]

theorem ofConfig_inheriting : PluginFacts.ofConfig inheriting = .ok inheritingFacts := by
  have hflags : Roles.configuration inheriting = .ok [(Roles.overrideName, [("f", false)])] :=
    eq_ok_of_toOption (by decide +kernel)
  have hpermissions : Roles.permissions inheriting = .ok [] := rfl
  have hgrants : Roles.resources inheriting = .ok [] := rfl
  have hadd : PluginFacts.addPlugin inheriting {} .roles = (inheritingFacts, none) := by
    unfold PluginFacts.addPlugin
    simp only [hflags, hpermissions, hgrants]
    rfl
  rw [PluginFacts.ofConfig_eq rfl, PluginFacts.addPlugins_cons_eq_ok_iff rfl rfl, PluginFacts.stop?,
    PluginFacts.withPlugin, hadd]
  exact ⟨rfl, rfl⟩

/-- Facts with more permissions of handlers: those that have some keep them, and the parameters of plugins are
the same. -/
structure Extends (facts more : PluginFacts) : Prop where
  config_eq : more.config = facts.config
  keeps : ∀ handler own, Keyed.find? handler (facts.handlers.getD []) = some own →
    ∃ own', Keyed.find? handler (more.handlers.getD []) = some own' ∧ own ⊆ own'

/-- Merging entries into a section takes nothing away. -/
theorem exists_find?_mergeInto {store : Option (Keyed String (List String))} {handler : String} {own : List String}
    (h : Keyed.find? handler (store.getD []) = some own) (entries : Keyed String (List String)) :
    ∃ own', Keyed.find? handler ((PluginFacts.mergeInto addAllNew store (some entries)).getD []) = some own' ∧
      own ⊆ own' := by
  rw [PluginFacts.mergeInto_eq_foldl]
  induction entries generalizing store own with
  | nil => exact ⟨own, h, fun _ hp => hp⟩
  | cons entry entries ih =>
    have hentry := PluginFacts.find?_mergeEntry addAllNew store entry handler
    rw [h] at hentry
    by_cases hname : entry.1 = handler
    · rw [if_pos hname] at hentry
      obtain ⟨last, hlast, hsub⟩ := ih hentry
      exact ⟨last, hlast, fun p hp => hsub (mem_addAllNew.2 (.inl hp))⟩
    · rw [if_neg hname] at hentry
      exact ih hentry

theorem extends_storeHandlers (facts : PluginFacts) (entries : Keyed String (List String)) :
    Extends facts (facts.storeHandlers (some entries)) :=
  ⟨rfl, fun _ _ hown => exists_find?_mergeInto hown entries⟩

section

variable {required granted : List String} {service : String} {facts more : PluginFacts} {handler : String}
  {granted' : List String}

theorem inherited_subset (h : granted ⊆ granted') (role : Option Bool) :
    inherited role granted ⊆ inherited role granted' := by
  unfold inherited
  split
  · exact fun _ hp => hp
  · exact h

theorem forService_subset {own own' : List String} (h : own ⊆ own') (service : String) :
    Roles.forService service own ⊆ Roles.forService service own' :=
  map_subset _ (filter_subset _ h)

theorem decision_of_more_granted (h : granted ⊆ granted')
    (hallowed : decision required granted service handler facts = .ok true) :
    decision required granted' service handler facts = .ok true := by
  rw [decision_eq_ok_true_iff] at hallowed ⊢
  rcases hallowed with ⟨hnone, hrole, p, hp, hgranted⟩ | ⟨stored, own, role, hstored, hown, hrole, p, hp, hcounts⟩
  · exact .inl ⟨hnone, hrole, p, hp, h hgranted⟩
  · refine .inr ⟨stored, own, role, hstored, hown, hrole, p, hp, ?_⟩
    rw [mem_append] at hcounts ⊢
    exact hcounts.imp_left fun hgranted => inherited_subset h role hgranted

/-- With more permissions of handlers a call stays allowed, if the handler has an entry where there are any. -/
theorem decision_of_extends (h : Extends facts more)
    (hallowed : decision required granted service handler facts = .ok true)
    (hentry : more.hasHandlers → Keyed.has handler (more.handlers.getD [])) :
    decision required granted service handler more = .ok true := by
  rw [decision_eq_ok_true_iff, h.config_eq]
  rw [decision_eq_ok_true_iff] at hallowed
  rcases hallowed with ⟨hnone, hrole, p, hp, hgranted⟩ | ⟨stored, own, role, hstored, hown, hrole, p, hp, hcounts⟩
  · -- Once there are entries, the service alone decides no more, but what it grants is still inherited.
    cases hmore : more.handlers with
    | none => exact .inl ⟨rfl, hrole, p, hp, hgranted⟩
    | some stored =>
      rw [PluginFacts.hasHandlers, hmore] at hentry
      obtain ⟨own, hown⟩ := Option.isSome_iff_exists.1 (hentry rfl)
      exact .inr ⟨stored, own, none, rfl, hown, hrole, p, hp, mem_append_left _ hgranted⟩
  · have hkept := h.keeps handler own
    rw [hstored, Option.getD_some] at hkept
    obtain ⟨own', hown', hsub⟩ := hkept hown
    cases hmore : more.handlers with
    | none => simp [hmore, Keyed.find?] at hown'
    | some stored' =>
      rw [hmore, Option.getD_some] at hown'
      refine .inr ⟨stored', own', role, rfl, hown', hrole, p, hp, ?_⟩
      rw [mem_append] at hcounts ⊢
      exact hcounts.imp_right fun hmem => forService_subset hsub service hmem

/-- Where there are permissions of handlers, a decision is made for handlers with an entry only. -/
theorem has_of_decision_eq_ok {allowed : Bool} (h : decision required granted service handler facts = .ok allowed)
    (hhandlers : facts.hasHandlers) : Keyed.has handler (facts.handlers.getD []) := by
  obtain ⟨stored, hstored⟩ := Option.isSome_iff_exists.1 hhandlers
  rw [decision, hstored] at h
  rw [hstored, Option.getD_some, Keyed.has]
  cases hown : Keyed.find? handler stored with
  | some own => rfl
  | none =>
    obtain ⟨role, -, hdecision⟩ := bind_eq_ok_iff.1 h
    rw [hown] at hdecision
    cases hdecision

/-- **Granting more never refuses a call, and revokes it only by a fault.** Let a call be allowed. It stays
allowed with more permissions of its service. With more permissions of handlers and the same parameters of
plugins it is never refused, and it stays allowed if and only if the handler that makes it has an entry, where
any handler has one. -/
theorem more_permissions_keep_iff {handler : Option String}
    (hallowed : ((serviceAllows required granted service handler).run.run facts).1 = .ok true) :
    (∀ granted', granted ⊆ granted' →
        ((serviceAllows required granted' service handler).run.run facts).1 = .ok true) ∧
      ∀ more, Extends facts more →
        ((serviceAllows required granted service handler).run.run more).1 ≠ .ok false ∧
          (((serviceAllows required granted service handler).run.run more).1 = .ok true ↔
            ∀ name, handler = some name → more.hasHandlers = true → Keyed.has name (more.handlers.getD []) = true) := by
  cases handler with
  | none =>
    have hmeets : meets required granted := Except.ok.inj hallowed
    have hsame : ∀ more : PluginFacts, ((serviceAllows required granted service none).run.run more).1 = .ok true :=
      fun _ => hallowed
    refine ⟨fun granted' hsub => ?_, fun more _ => ?_⟩
    · obtain ⟨p, hp, hgranted⟩ := meets_eq_true_iff.1 hmeets
      exact congrArg Except.ok (meets_eq_true_iff.2 ⟨p, hp, hsub hgranted⟩)
    · rw [hsame]
      simp
  | some handler =>
    simp only [run_serviceAllows, Option.some.injEq, forall_eq'] at hallowed ⊢
    refine ⟨fun granted' hsub => decision_of_more_granted hsub hallowed, fun more hmore => ?_⟩
    have hkept := decision_of_extends hmore hallowed
    refine ⟨fun hrefused => ?_, fun hallowed' => has_of_decision_eq_ok hallowed', hkept⟩
    rw [hkept (has_of_decision_eq_ok hrefused)] at hrefused
    cases hrefused

end

def withEntry (handler : String) : PluginFacts :=
  ({} : PluginFacts).storeHandlers (some [(handler, ["s3:GetObject"])])

/-- A call that the permissions of its service allow stays allowed when its handler gets permissions. When
another one gets some, the decision ends in a fault. -/
theorem entry_of_other_handler_ends_decision :
    ((serviceAllows ["PutObject"] ["PutObject"] "s3" (some "f")).run.run {}).1 = .ok true ∧
      Extends {} (withEntry "f") ∧ Extends {} (withEntry "g") ∧
      ((serviceAllows ["PutObject"] ["PutObject"] "s3" (some "f")).run.run (withEntry "f")).1 = .ok true ∧
      ((serviceAllows ["PutObject"] ["PutObject"] "s3" (some "f")).run.run (withEntry "g")).1 = .error .wrongType := by
  have hallowed : ((serviceAllows ["PutObject"] ["PutObject"] "s3" (some "f")).run.run {}).1 = .ok true := rfl
  have hextends : ∀ handler, Extends {} (withEntry handler) := fun handler => extends_storeHandlers {} _
  obtain ⟨-, hmore⟩ := more_permissions_keep_iff hallowed
  refine ⟨hallowed, hextends "f", hextends "g", (hmore _ (hextends "f")).2.2 ?_, rfl⟩
  intro name hname _
  cases hname
  rfl

end Permission

end ServerlessTaint
