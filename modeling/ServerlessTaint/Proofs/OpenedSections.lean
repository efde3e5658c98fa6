import ServerlessTaint.Plugin.Facts

/-!
# Sections opened by questions

Some questions about facts bring the section that they look into into being. The entries are the same as before, so
only the questions whether there is a section can tell. Every answer stays as it was if and only if no question opens a
section whose absence was to be seen (`answers_kept_iff`).
-/

namespace ServerlessTaint.PluginFacts

inductive Query where
  | isEmpty
  | hasEvents
  | hasHandlers
  | hasResources
  | hasConfigFor (plugin : Value)
  | configFor (plugin : Value)
  | permissionsFor (handler service : Value) (keepService : Bool)
  | resourcesFor (handler service : Value)
  | allPermissions

inductive Answer where
  | flag (answer : Except Fault Bool)
  | parameters (answer : Option PluginParameters)
  | permissions (answer : Option (List String))
  | grants (answer : Option ResourceGrants)
  | byService (answer : ServicePermissions)

namespace Query

def ask : Query → Ask Answer
  | .isEmpty => return .flag (.ok (← get).isEmpty)
  | .hasEvents => return .flag (.ok (← get).hasEvents)
  | .hasHandlers => return .flag (.ok (← get).hasHandlers)
  | .hasResources => return .flag (.ok (← get).hasResources)
  | .hasConfigFor plugin => return .flag (← PluginFacts.hasConfigFor plugin)
  | .configFor plugin => return .parameters (← PluginFacts.configFor plugin)
  | .permissionsFor handler service keepService =>
    return .permissions (← PluginFacts.permissionsFor handler service keepService)
  | .resourcesFor handler service => return .grants (← PluginFacts.resourcesFor handler service)
  | .allPermissions => return .byService (← get).allPermissions

def answer (q : Query) (facts : PluginFacts) : Answer := (q.ask.run facts).1

def leaves (q : Query) (facts : PluginFacts) : PluginFacts := (q.ask.run facts).2

/-- The question opens a section whose absence is to be seen: that of parameters only if there is no other. -/
def isNoticed (facts : PluginFacts) : Query → Bool
  | .hasConfigFor _ | .configFor _ => facts.isEmpty
  | .permissionsFor .. => !facts.hasHandlers
  | .resourcesFor .. => !facts.hasResources
  | _ => false

/-- The question whose answer tells that a section was opened. -/
def telltale : Query → Query
  | .permissionsFor .. => .hasHandlers
  | .resourcesFor .. => .hasResources
  | _ => .isEmpty

end Query

/-- The facts after questions were asked one after the other. -/
def after (facts : PluginFacts) (queries : List Query) : PluginFacts := queries.foldl (fun facts q => q.leaves facts) facts

/-- The sections of the first facts are sections of the second. -/
structure OpenIn (facts facts' : PluginFacts) : Prop where
  config : facts.config.isSome → facts'.config.isSome
  handlers : facts.handlers.isSome → facts'.handlers.isSome
  resources : facts.resources.isSome → facts'.resources.isSome

variable {facts : PluginFacts} {q : Query}

theorem flag_inj {b c : Bool} : Answer.flag (.ok b) = .flag (.ok c) ↔ b = c := by
  simp

theorem openIn_leaves (facts : PluginFacts) (q : Query) : facts.OpenIn (q.leaves facts) := by
  cases q <;> constructor <;> first | exact id | exact fun _ => rfl

theorem openIn_after (facts : PluginFacts) (queries : List Query) : facts.OpenIn (facts.after queries) := by
  induction queries generalizing facts with
  | nil => exact ⟨id, id, id⟩
  | cons q queries ih =>
    have hfirst := openIn_leaves facts q
    have hrest := ih (q.leaves facts)
    exact ⟨hrest.config ∘ hfirst.config, hrest.handlers ∘ hfirst.handlers, hrest.resources ∘ hfirst.resources⟩

theorem isEmpty_eq_false_of_config (h : facts.config.isSome) : facts.isEmpty = false := by
  simp [isEmpty, sections, h]

/-- The step: a question that is not noticed leaves all answers as they were. -/
theorem answer_leaves (h : q.isNoticed facts = false) (other : Query) : other.answer (q.leaves facts) = other.answer facts := by
  obtain ⟨config, events, handlers, resources⟩ := facts
  have hconfig : ∀ plugin, (Query.configFor plugin).isNoticed ⟨config, events, handlers, resources⟩ = false →
      other.answer ⟨some (config.getD []), events, handlers, resources⟩ =
        other.answer ⟨config, events, handlers, resources⟩ := by
    intro plugin h
    cases config with
    | some entries => rfl
    | none =>
      cases other with
      | isEmpty => exact congrArg (fun b => Answer.flag (.ok b)) h.symm
      | _ => rfl
  cases q with
  | hasConfigFor plugin | configFor plugin => exact hconfig plugin h
  | permissionsFor =>
    cases handlers with
    | some entries => rfl
    | none => cases h
  | resourcesFor =>
    cases resources with
    | some entries => rfl
    | none => cases h
  | _ => rfl

/-- Whether a question is noticed is itself told by answers. -/
theorem isNoticed_leaves (h : q.isNoticed facts = false) (other : Query) :
    other.isNoticed (q.leaves facts) = other.isNoticed facts := by
  have hempty : (q.leaves facts).isEmpty = facts.isEmpty := flag_inj.1 (answer_leaves h .isEmpty)
  have hhandlers : (q.leaves facts).hasHandlers = facts.hasHandlers := flag_inj.1 (answer_leaves h .hasHandlers)
  have hresources : (q.leaves facts).hasResources = facts.hasResources := flag_inj.1 (answer_leaves h .hasResources)
  cases other with
  | hasConfigFor | configFor => exact hempty
  | permissionsFor => exact congrArg (!·) hhandlers
  | resourcesFor => exact congrArg (!·) hresources
  | _ => rfl

/-- A question that is noticed changes an answer for good. -/
theorem telltale_answer_ne (h : q.isNoticed facts) (queries : List Query) :
    q.telltale.answer ((q.leaves facts).after queries) ≠ q.telltale.answer facts := by
  have hopen := openIn_after (q.leaves facts) queries
  have hconfig : (q.leaves facts).config.isSome → facts.isEmpty = true →
      Answer.flag (.ok ((q.leaves facts).after queries).isEmpty) ≠ .flag (.ok facts.isEmpty) := by
    intro hsome hempty
    rw [Ne, flag_inj, isEmpty_eq_false_of_config (hopen.config hsome), hempty]
    exact Bool.false_ne_true
  have hopened {before after : Bool} (hbefore : (!before) = true) (hafter : after = true) :
      Answer.flag (.ok after) ≠ .flag (.ok before) := by
    rw [Ne, flag_inj, hafter, Bool.not_eq_eq_eq_not.1 hbefore]
    exact Bool.noConfusion
  cases q with
  | hasConfigFor | configFor => exact hconfig rfl h
  | permissionsFor => exact hopened h (hopen.handlers rfl)
  | resourcesFor => exact hopened h (hopen.resources rfl)
  | _ => cases h

/-- **When asking changes no answer.** Whatever was stored before and whatever questions are asked one after the other,
every question has the answer after them that it had before, if and only if none of them looks for permissions of a
handler while no handler has any, for grants while there are none, or for parameters while there is nothing at all. -/
theorem answers_kept_iff (facts : PluginFacts) (queries : List Query) :
    (∀ q : Query, q.answer (facts.after queries) = q.answer facts) ↔ ∀ q ∈ queries, q.isNoticed facts = false := by
  induction queries generalizing facts with
  | nil => exact iff_of_true (fun _ => rfl) (List.forall_mem_nil _)
  | cons q queries ih =>
    rw [List.forall_mem_cons]
    by_cases h : q.isNoticed facts = true
    · refine iff_of_false (fun hkept => telltale_answer_ne h queries (hkept q.telltale)) ?_
      rintro ⟨hunnoticed, -⟩
      exact Bool.false_ne_true (hunnoticed.symm.trans h)
    · rw [Bool.not_eq_true] at h
      calc (∀ q' : Query, q'.answer ((q.leaves facts).after queries) = q'.answer facts)
          ↔ ∀ q' : Query, q'.answer ((q.leaves facts).after queries) = q'.answer (q.leaves facts) := by
            simp only [answer_leaves h]
        _ ↔ ∀ q' ∈ queries, q'.isNoticed (q.leaves facts) = false := ih (q.leaves facts)
        _ ↔ q.isNoticed facts = false ∧ ∀ q' ∈ queries, q'.isNoticed facts = false := by
            simp only [isNoticed_leaves h, h, true_and]

end ServerlessTaint.PluginFacts
