import ServerlessTaint.Proofs.Recording

/-!
# Why a reaction is put in

The call that is pending after a statement stands in the statement and triggers handlers, and every
reaction to it has its reasons: the catalogue, the permissions, the events of the handler and its
filters.

Within the work on one client object, no handler reacts twice to an event of a call: the handlers of an event are listed
once, and no entry of the catalogue names an event twice (`nodup_putsAt`).

A call that is the value of an expression statement or of an assignment is the one that is pending after it. So its
reactions follow the statement, if the pass gets to it; this is the case for the statements of bodies only. A call in an
`else` branch or a `finally` block is answered after the compound statement, or not at all.
-/

namespace ServerlessTaint

open List Value
open Syntax (Ast Field Kind Span)

namespace Injection

/-! ## The pending call -/

theorem isTrigger_iff (work : Injection) (call : Ast) :
    work.isTrigger call ↔
      ∃ line api info, call.line? = some line ∧ line ∈ work.found.lines ∧
        call.attribute? = some api ∧ work.apiInfo api = .ok info ∧
        work.isAllowed call info (work.found.functionAt? line) = .ok true := by
  unfold isTrigger
  split
  · rename_i span func rest line hline
    cases hattr : func.nameOf? .attr with
    | none => simp [Ast.attribute?, hattr]
    | some api =>
      simp only [Ast.attribute?, hattr, hline, Option.some.injEq]
      by_cases hfound : line ∈ work.found.lines
      · cases hinfo : work.apiInfo api with
        | error fault => simp [hfound, hinfo]
        | ok info =>
          cases hallowed : work.isAllowed (.node .call span (func :: rest)) info
              (work.found.functionAt? line) <;> simp [hfound, hinfo, hallowed]
      · simp [hfound]
  · rename_i hother
    simp only [Bool.false_eq_true, false_iff]
    rintro ⟨line, api, info, hline, _, hattr, _⟩
    obtain ⟨_, _, _, rfl, -⟩ := Ast.exists_of_attribute? hattr
    exact hother _ _ _ _ rfl hline

/-- What was so before a list of trees or holds of one of them, told from its first tree and the rest. -/
theorem or_exists_mem_cons {before mid : Prop} {P : Ast → Prop} {t : Ast} {ts : List Ast}
    (hrest : mid ∨ ∃ u ∈ ts, P u) (hfirst : mid → before ∨ P t) : before ∨ ∃ u ∈ t :: ts, P u := by
  rcases hrest with hmid | ⟨u, hu, hP⟩
  · rcases hfirst hmid with hbefore | hP
    · exact .inl hbefore
    · exact .inr ⟨t, mem_cons_self, hP⟩
  · exact .inr ⟨u, mem_cons_of_mem _ hu, hP⟩

mutual

/-- A pending call was pending before, or it stands in the tree and triggers handlers. -/
theorem pending_cases (work : Injection) {call : Ast} (isBody : Bool) :
    ∀ (t : Ast) (start : Option Ast), work.pending isBody t start = some call →
      start = some call ∨ (call.Within t ∧ work.isTrigger call)
  | .node kind span children, start, h => by
    by_cases hcall : kind = .call
    · subst hcall
      simp only [pending] at h
      split at h
      · rename_i htrigger
        cases h
        exact .inr ⟨.refl, htrigger⟩
      · cases h
    · rw [pending_node work isBody hcall] at h
      cases isBody with
      | true => cases h
      | false =>
        rcases pendingFields_cases work _ children start h with hstart | ⟨t, ht, hwithin, htrigger⟩
        · exact .inl hstart
        · exact .inr ⟨.part ht hwithin, htrigger⟩
  | .list items, start, h => by
    simp only [pending] at h
    cases isBody with
    | true => cases h
    | false =>
      rw [if_neg Bool.false_ne_true, pendingItems_eq_fields] at h
      rcases pendingFields_cases work [] items start h with hstart | ⟨t, ht, hwithin, htrigger⟩
      · exact .inl hstart
      · exact .inr ⟨.part ht hwithin, htrigger⟩
  | .absent, start, h | .name _, start, h | .number _, start, h | .literal _, start, h => by
    simp only [pending] at h
    cases isBody with
    | true => cases h
    | false => exact .inl h

theorem pendingFields_cases (work : Injection) {call : Ast} :
    ∀ (fields : List Field) (ts : List Ast) (start : Option Ast),
      work.pendingFields fields ts start = some call →
      start = some call ∨ ∃ t ∈ ts, call.Within t ∧ work.isTrigger call
  | _, [], start, h => by
    simp only [pendingFields] at h
    exact .inl h
  | [], t :: ts, start, h => by
    simp only [pendingFields] at h
    exact or_exists_mem_cons (pendingFields_cases work [] ts _ h) (pending_cases work _ t start)
  | field :: fields, t :: ts, start, h => by
    simp only [pendingFields] at h
    exact or_exists_mem_cons (pendingFields_cases work fields ts _ h) (pending_cases work _ t start)

end

/-! ## The reactions to a call -/

variable {call : Ast} {places : Value} {event handler : String} {r : Reaction}

theorem raised_eq_ok_iff (work : Injection) {api : String} {events : List Value} (h : call.attribute? = some api) :
    work.raised call = .ok (places, events) ↔
      ∃ info, work.apiInfo api = .ok info ∧ optionalInfo "events_filtering" info = .ok places ∧
        info.get "events" >>= elements = .ok events := by
  obtain ⟨_, _, _, rfl, hattr⟩ := Ast.exists_of_attribute? h
  simp only [raised, hattr, Option.getD_some, bind_eq_ok_iff]
  constructor
  · rintro ⟨info, hinfo, _, hplaces, value, hvalue, _, hevents, hpair⟩
    cases hpair
    exact ⟨info, hinfo, hplaces, value, hvalue, hevents⟩
  · rintro ⟨info, hinfo, hplaces, value, hvalue, hevents⟩
    exact ⟨info, hinfo, places, hplaces, value, hvalue, events, hevents, rfl⟩

theorem reaction?_eq_some_iff (work : Injection) :
    work.reaction? call places event handler = .ok (some r) ↔
      EventFilter.callAdmits (work.site (.str handler)) (.str work.serviceName) places call = .ok true ∧
      Application.calledName work.application.config work.file (.str handler) = .ok r.calledName ∧
      EventObject.ofNode work.serviceName (.str event) work.found.origins call = .ok r.object ∧
      r.call = call ∧ r.event = event ∧ r.handler = handler := by
  unfold reaction?
  cases EventFilter.callAdmits (work.site (.str handler)) (.str work.serviceName) places call with
  | error fault => simp [bind, Except.bind]
  | ok admitted =>
    cases admitted with
    | false => simp [bind, Except.bind, pure, Except.pure]
    | true =>
      cases Application.calledName work.application.config work.file (.str handler) with
      | error fault => simp [bind, Except.bind]
      | ok name =>
        cases EventObject.ofNode work.serviceName (.str event) work.found.origins call with
        | error fault => simp [bind, Except.bind]
        | ok object =>
          simp only [bind, Except.bind, pure, Except.pure, if_true, Except.ok.injEq, Option.some.injEq,
            true_and]
          constructor
          · rintro rfl; exact ⟨rfl, rfl, rfl, rfl, rfl⟩
          · rintro ⟨rfl, rfl, rfl, rfl, rfl⟩; rfl

/-- The handlers of an event react in their order, as long as none before has a fault. -/
theorem mem_handlersReactions (work : Injection) {handlers : List String} :
    r ∈ work.handlersReactions call places event handlers ↔
      ∃ earlier later, handlers = earlier ++ r.handler :: later ∧
        (∀ h ∈ earlier, (work.reaction? call places event h).isOk) ∧
        work.reaction? call places event r.handler = .ok (some r) := by
  induction handlers with
  | nil => simp [handlersReactions]
  | cons handler rest ih =>
    simp only [handlersReactions]
    cases hreaction : work.reaction? call places event handler with
    | error fault =>
      simp only [not_mem_nil, false_iff]
      rintro ⟨earlier, later, hsplit, hok, hr⟩
      cases earlier with
      | nil =>
        cases hsplit
        rw [hreaction] at hr
        cases hr
      | cons first earlier =>
        cases hsplit
        have := hok handler mem_cons_self
        rw [hreaction] at this
        cases this
    | ok reaction =>
      rw [mem_append, ih]
      constructor
      · rintro (hr | ⟨earlier, later, rfl, hok, hr⟩)
        · rw [Option.mem_toList] at hr
          cases hr
          obtain ⟨_, _, _, _, _, rfl⟩ := (reaction?_eq_some_iff work).1 hreaction
          exact ⟨[], rest, rfl, by simp, hreaction⟩
        · exact ⟨handler :: earlier, later, rfl, forall_mem_cons.2 ⟨by rw [hreaction]; rfl, hok⟩, hr⟩
      · rintro ⟨earlier, later, hsplit, hok, hr⟩
        cases earlier with
        | nil =>
          cases hsplit
          rw [hreaction] at hr
          cases hr
          exact .inl (by simp)
        | cons first earlier =>
          cases hsplit
          exact .inr ⟨earlier, later, rfl, fun h hh => hok h (mem_cons_of_mem _ hh), hr⟩

theorem mem_eventReactions (work : Injection) {value : Value} :
    r ∈ work.eventReactions call places value ↔
      value = .str r.event ∧ r ∈ work.handlersReactions call places r.event (work.handlersOf r.event) := by
  cases value with
  | str event =>
    simp only [eventReactions, str.injEq]
    constructor
    · intro hr
      obtain ⟨_, _, _, _, hreaction⟩ := (mem_handlersReactions work).1 hr
      obtain ⟨_, _, _, _, rfl, _⟩ := (reaction?_eq_some_iff work).1 hreaction
      exact ⟨rfl, hr⟩
    · rintro ⟨rfl, hr⟩; exact hr
  | _ => simp [eventReactions]

/-- The reactions to a call: those of the handlers of the events that it raises. -/
theorem mem_reactions (work : Injection) {reactions : List Reaction} (h : work.reactions call = .ok reactions) :
    r ∈ reactions ↔
      ∃ places events, work.raised call = .ok (places, events) ∧ .str r.event ∈ events ∧
        r ∈ work.handlersReactions call places r.event (work.handlersOf r.event) := by
  unfold Injection.reactions at h
  cases hraised : work.raised call with
  | error fault => rw [hraised] at h; cases h
  | ok raised =>
    obtain ⟨places, events⟩ := raised
    rw [hraised] at h
    cases h
    simp only [mem_flatMap, mem_eventReactions, Except.ok.injEq, Prod.mk.injEq]
    constructor
    · rintro ⟨_, hmem, rfl, hr⟩; exact ⟨places, events, ⟨rfl, rfl⟩, hmem, hr⟩
    · rintro ⟨_, _, ⟨rfl, rfl⟩, hmem, hr⟩; exact ⟨_, hmem, rfl, hr⟩

theorem mem_handlersOf (work : Injection) :
    handler ∈ work.handlersOf event ↔
      ∃ events, (handler, events) ∈ work.application.handlers ∧ ⟨work.serviceName, event⟩ ∈ events :=
  Handlers.mem_listed_byEvent

/-! ## The reasons -/

/-- The reasons for a reaction after a statement: its call stands in the statement, on a line of a
call on the client object; the catalogue has it for the service and the kind of the client object,
and the permissions allow it; the event is one of those that it raises and one of those of the
handler, whose filters it passes; the assigned value is the event object, and the handler is called
by its name. -/
structure Explained (work : Injection) (statement : Ast) (r : Reaction) (line : Nat) (api : String)
    (info places : Value) (raised : List Value) (own : List Event) : Prop where
  within : r.call.Within statement
  line_eq : r.call.line? = some line
  line_mem : line ∈ work.found.lines
  api_eq : r.call.attribute? = some api
  info_eq : work.apiInfo api = .ok info
  allowed : work.isAllowed r.call info (work.found.functionAt? line) = .ok true
  raised_eq : info.get "events" >>= Value.elements = .ok raised
  raised_mem : .str r.event ∈ raised
  own_mem : (r.handler, own) ∈ work.application.handlers
  event_mem : ⟨work.serviceName, r.event⟩ ∈ own
  places_eq : optionalInfo "events_filtering" info = .ok places
  admitted : EventFilter.callAdmits (work.site (.str r.handler)) (.str work.serviceName) places r.call =
    .ok true
  object_eq : EventObject.ofNode work.serviceName (.str r.event) work.found.origins r.call = .ok r.object
  name_eq : Application.calledName work.application.config work.file (.str r.handler) = .ok r.calledName

theorem explained_of_mem_reactionsTo (work : Injection) {statement : Ast} {reactions : List Reaction}
    (h : work.reactionsTo statement = .ok reactions) (hr : r ∈ reactions) :
    ∃ line api info places raised own, work.Explained statement r line api info places raised own := by
  unfold reactionsTo at h
  split at h
  · cases h
    simp at hr
  · rename_i call hpending
    rcases pending_cases work false statement none hpending with hnone | ⟨hwithin, htrigger⟩
    · cases hnone
    · obtain ⟨line, api, info, hline, hlines, hapi, hinfo, hallowed⟩ :=
        (isTrigger_iff work call).1 htrigger
      obtain ⟨places, events, hraised, hevent, hr⟩ := (mem_reactions work h).1 hr
      obtain ⟨earlier, later, hhandlers, _, hreaction⟩ := (mem_handlersReactions work).1 hr
      obtain ⟨hadmits, hname, hobject, rfl, _, _⟩ := (reaction?_eq_some_iff work).1 hreaction
      have hhandler : r.handler ∈ work.handlersOf r.event := by simp [hhandlers]
      obtain ⟨own, hown, hmem⟩ := (mem_handlersOf work).1 hhandler
      obtain ⟨_, hinfo', hplaces, hevents⟩ := (raised_eq_ok_iff work hapi).1 hraised
      cases hinfo.symm.trans hinfo'
      exact ⟨line, api, info, places, events, own,
        { within := hwithin, line_eq := hline, line_mem := hlines, api_eq := hapi, info_eq := hinfo,
          allowed := hallowed, raised_eq := hevents, raised_mem := hevent, own_mem := hown,
          event_mem := hmem, places_eq := hplaces, admitted := hadmits, object_eq := hobject,
          name_eq := hname }⟩

/-- **Every reaction has its reasons.** The result is the program with the recorded reactions written
out, and each of them is explained by a call in the statement after which it stands. -/
theorem reactions_explained (work : Injection) :
    work.marked.before = work.program ∧ work.marked.after = work.run ∧
    ∀ route, ∀ r ∈ work.marked.putsAt route,
      ∃ statement, work.program.at? route = some statement ∧
        ∃ line api info places raised own, work.Explained statement r line api info places raised own := by
  refine ⟨marked_before work, marked_after work, ?_⟩
  intro route r hr
  obtain ⟨statement, reactions, hreaches, hreactions, hmem⟩ :=
    (mem_putsAt_mark work route false work.program).1 hr
  exact ⟨statement, hreaches.at?, explained_of_mem_reactionsTo work hreactions hmem⟩

end Injection

/-- What a reaction answers: the call, up to positions, and the event, with the handler that does. -/
def Reaction.subject (r : Reaction) : Ast × String × String := (r.call.unplaced, r.event, r.handler)

namespace Value

/-- The values of a map. -/
def inner : Value → List Value
  | .map entries => entries.map (·.2)
  | _ => []

theorem mem_inner_of_get {key : String} {v w : Value} (h : v.get key = .ok w) : w ∈ v.inner := by
  cases v with
  | map entries =>
    simp only [get] at h
    split at h
    · rename_i a ha
      cases h
      exact mem_map.2 ⟨_, Keyed.mem_of_find? ha, rfl⟩
    · cases h
  | _ => cases h

end Value

/-- No entry of the catalogue names an event twice. -/
theorem Apis.nodup_events {service kind api : String} {info : Value} {events : List Value}
    (hinfo : catalogue.getAll [service, kind, api] = .ok info)
    (hevents : info.get "events" >>= elements = .ok events) : events.Nodup := by
  have hall : ∀ info ∈ (catalogue.inner.flatMap inner).flatMap inner,
      ∀ events ∈ (info.get "events" >>= elements).toOption, events.Nodup := by decide +kernel
  have hmem : info ∈ (catalogue.inner.flatMap inner).flatMap inner := by
    simp only [getAll, foldlM_cons, foldlM_nil, bind_eq_ok_iff] at hinfo
    obtain ⟨inService, hservice, inKind, hkind, _, hapi, hlast⟩ := hinfo
    cases hlast
    exact mem_flatMap.2 ⟨inKind, mem_flatMap.2 ⟨inService, mem_inner_of_get hservice,
      mem_inner_of_get hkind⟩, mem_inner_of_get hapi⟩
  exact hall info hmem events (by rw [hevents]; rfl)

namespace Injection

/-- The handlers that react are some of those that are asked, in their order. -/
theorem handlers_handlersReactions (work : Injection) (call : Ast) (places : Value) (event : String)
    (handlers : List String) :
    ((work.handlersReactions call places event handlers).map Reaction.handler).Sublist handlers := by
  induction handlers with
  | nil => exact List.Sublist.slnil
  | cons handler rest ih =>
    simp only [handlersReactions]
    cases hreaction : work.reaction? call places event handler with
    | error fault => exact nil_sublist _
    | ok reaction =>
      cases reaction with
      | none => exact ih.cons _
      | some r =>
        obtain ⟨_, _, _, _, _, rfl⟩ := (reaction?_eq_some_iff work).1 hreaction
        exact ih.cons_cons _

theorem nodup_eventReactions (work : Injection) (call : Ast) (places event : Value) :
    ((work.eventReactions call places event).map Reaction.subject).Nodup := by
  cases event with
  | str event =>
    have hhandlers : ((work.handlersReactions call places event (work.handlersOf event)).map
        Reaction.handler).Nodup :=
      (handlers_handlersReactions work call places event _).nodup
        (Handlers.nodup_listed_byEvent work.application.handlers _)
    rw [List.Nodup, pairwise_map] at hhandlers ⊢
    exact hhandlers.imp fun hne heq => hne (congrArg (·.2.2) heq)
  | _ => exact nodup_nil

/-- If the events of a call differ, so do the answers to it. -/
theorem nodup_reactions (work : Injection) {call : Ast} {places : Value} {events : List Value}
    {reactions : List Reaction} (hraised : work.raised call = .ok (places, events))
    (hevents : events.Nodup) (h : work.reactions call = .ok reactions) : (reactions.map Reaction.subject).Nodup := by
  rw [Injection.reactions, hraised] at h
  cases h
  rw [map_flatMap, List.Nodup, pairwise_flatMap]
  refine ⟨fun event _ => nodup_eventReactions work call places event, ?_⟩
  refine hevents.imp fun {e e'} hne => ?_
  rintro _ hx _ hy heq
  obtain ⟨r, hr, rfl⟩ := mem_map.1 hx
  obtain ⟨r', hr', rfl⟩ := mem_map.1 hy
  obtain ⟨rfl, _⟩ := (mem_eventReactions work).1 hr
  obtain ⟨rfl, _⟩ := (mem_eventReactions work).1 hr'
  exact hne (congrArg (str ·.2.1) heq)

theorem nodup_reactionsTo (work : Injection) (hapis : work.apis = Apis.catalogue) {statement : Ast}
    {reactions : List Reaction} (h : work.reactionsTo statement = .ok reactions) :
    (reactions.map Reaction.subject).Nodup := by
  unfold reactionsTo at h
  split at h
  · cases h
    exact nodup_nil
  · rename_i call hpending
    rcases pending_cases work false statement none hpending with hnone | ⟨_, htrigger⟩
    · cases hnone
    · obtain ⟨_, api, _, _, _, hapi, _, _⟩ := (isTrigger_iff work call).1 htrigger
      cases hraised : work.raised call with
      | error fault => rw [Injection.reactions, hraised] at h; cases h
      | ok raised =>
        obtain ⟨places, events⟩ := raised
        obtain ⟨info, hinfo, _, hevents⟩ := (raised_eq_ok_iff work hapi).1 hraised
        refine nodup_reactions work hraised ?_ h
        unfold apiInfo at hinfo
        split at hinfo
        · rw [hapis] at hinfo
          exact Apis.nodup_events hinfo hevents
        · cases hinfo

/-- After no statement, the work on one client object puts in a handler twice for an event of a call. -/
theorem nodup_putsAt (work : Injection) (hapis : work.apis = Apis.catalogue) (route : List Nat) :
    ((work.marked.putsAt route).map Reaction.subject).Nodup := by
  cases hputs : work.marked.putsAt route with
  | nil => exact nodup_nil
  | cons r rest =>
    have hr : r ∈ work.marked.putsAt route := by rw [hputs]; exact mem_cons_self
    obtain ⟨s, hs⟩ := reaches_of_mem_putsAt work route false work.program hr
    rw [← hputs, marked, hs.putsAt_mark]
    cases hreactions : work.reactionsTo s with
    | error fault => exact nodup_nil
    | ok reactions => exact nodup_reactionsTo work hapis hreactions

end Injection

/-! ## Calls that are statements of their own -/

/-- The value of an expression statement or of an assignment is a call. -/
inductive Syntax.Ast.HasValue (call : Ast) : Ast → Prop
  | expression {span : Option Span} : HasValue call (.node .exprStmt span [call])
  | assignment {span : Option Span} {targets : Ast} : HasValue call (.node .assign span [targets, call])
  | update {span : Option Span} {target op : Ast} :
    HasValue call (.node .augAssign span [target, op, call])
  | hinted {span : Option Span} {target hint : Ast} {simple : Int} :
    HasValue call (.node .annAssign span [target, hint, call, .number simple])

namespace Injection

variable {call statement : Ast} {line : Nat} {info places : Value} {api : String} {r : Reaction} {own : List Event}
  {raised : List Value}

theorem pending_of_trigger (work : Injection) (isBody : Bool) (h : work.isTrigger call) (start : Option Ast) :
    work.pending isBody call start = some call := by
  obtain ⟨_, _, _, _, _, hapi, _⟩ := (isTrigger_iff work call).1 h
  obtain ⟨_, _, _, rfl, -⟩ := Ast.exists_of_attribute? hapi
  simp [pending, h]

theorem pending_of_hasValue (work : Injection) (h : call.HasValue statement) (htrigger : work.isTrigger call) :
    work.pending false statement none = some call := by
  cases h with
  | expression | assignment | update | hinted =>
    -- The call is the last part to be looked at, but for a number, which changes nothing.
    rw [pending_node work false (by decide), if_neg Bool.false_ne_true]
    exact pending_of_trigger work false htrigger _

theorem Explained.trigger {work : Injection}
    (h : work.Explained statement r line api info places raised own) : work.isTrigger r.call :=
  (isTrigger_iff work r.call).2
    ⟨line, api, info, h.line_eq, h.line_mem, h.api_eq, h.info_eq, h.allowed⟩

/-- The reactions to a statement whose value is a call are those of the handlers of the event that
come before any with a fault. -/
theorem mem_reactionsTo_iff (work : Injection)
    (h : work.Explained statement r line api info places raised own) (hvalue : r.call.HasValue statement) :
    (∃ reactions, work.reactionsTo statement = .ok reactions ∧ r ∈ reactions) ↔
      ∃ earlier later, work.handlersOf r.event = earlier ++ r.handler :: later ∧
        ∀ handler ∈ earlier, (work.reaction? r.call places r.event handler).isOk := by
  have hraised : work.raised r.call = .ok (places, raised) :=
    (raised_eq_ok_iff work h.api_eq).2 ⟨info, h.info_eq, h.places_eq, h.raised_eq⟩
  have hreactions : work.reactionsTo statement = .ok (raised.flatMap (work.eventReactions r.call places)) := by
    simp only [reactionsTo, pending_of_hasValue work hvalue h.trigger, reactions, hraised]
    rfl
  have hreaction : work.reaction? r.call places r.event r.handler = .ok (some r) :=
    (reaction?_eq_some_iff work).2 ⟨h.admitted, h.name_eq, h.object_eq, rfl, rfl, rfl⟩
  simp only [hreactions, Except.ok.injEq, exists_eq_left', mem_flatMap, mem_eventReactions,
    mem_handlersReactions]
  constructor
  · rintro ⟨_, _, _, earlier, later, hsplit, hok, _⟩
    exact ⟨earlier, later, hsplit, hok⟩
  · rintro ⟨earlier, later, hsplit, hok⟩
    exact ⟨.str r.event, h.raised_mem, rfl, earlier, later, hsplit, hok, hreaction⟩

/-- Nothing gets into a list that is the value of a field other than a body. -/
theorem not_reaches_of_field (work : Injection) {t s : Ast} {above : List Nat} {j i : Nat} {kind : Kind}
    {span : Option Span} {children : List Ast} (hat : t.at? above = some (.node kind span children))
    (hfield : kind.fields[j]? ≠ some .body) : ¬ work.Reaches false t (above ++ [j, i]) s := by
  intro h
  rcases h.in_body with ⟨hfalse, _⟩ | ⟨above', j', i', kind', span', children', hroute, hat', hbody⟩
  · cases hfalse
  · obtain ⟨rfl, hlast⟩ := append_inj' hroute rfl
    cases hlast
    cases hat.symm.trans hat'
    exact hfield hbody

/-- **When the reaction to a call follows its statement.** For a call that is the value of a
statement and a handler that it triggers, the call of the handler is put in right after the
statement exactly if the pass gets to the statement, in a body, and no earlier handler of the event
has a fault. -/
theorem reaction_follows_iff (work : Injection) (above : List Nat) (i : Nat) {statement : Ast}
    {r : Reaction} {line : Nat} {api : String} {info places : Value}
    {own : List Event} (hat : work.program.at? (above ++ [i]) = some statement)
    (hvalue : r.call.HasValue statement)
    (h : work.Explained statement r line api info places raised own) :
    work.run.Follows (work.marked.moved (above ++ [i]))
      ((work.marked.putsAt (above ++ [i])).flatMap Reaction.code) ∧
    (r ∈ work.marked.putsAt (above ++ [i]) ↔
      work.Reaches false work.program (above ++ [i]) statement ∧
      ∃ earlier later, work.handlersOf r.event = earlier ++ r.handler :: later ∧
        ∀ handler ∈ earlier, (work.reaction? r.call places r.event handler).isOk) := by
  refine ⟨run_follows work (by rw [hat]; rfl), ?_⟩
  rw [← mem_reactionsTo_iff work h hvalue, marked, mem_putsAt_mark]
  constructor
  · rintro ⟨s, reactions, hs, hreactions⟩
    cases hat.symm.trans hs.at?
    exact ⟨hs, reactions, hreactions⟩
  · rintro ⟨hs, reactions, hreactions⟩
    exact ⟨statement, reactions, hs, hreactions⟩

/-! ## A call in both branches -/

/-- An application that may write objects, with a handler for new objects. -/
def uploads : Application where
  config := .map [("functions", .map [("g", .map [("handler", .str "m.g")])])]
  grants := ⟨[("s3", ["PutObject"])], [("*", [.permission "s3" "PutObject"])]⟩
  handlers := [("g", [⟨"s3", "ObjectCreated:*"⟩])]
  facts := {}

def upload (line : Nat) : Ast :=
  .node .call (some ⟨⟨line, 4⟩, ⟨line, 38⟩⟩)
    [.node .attributeRef none [.node .name none [.name "s3"], .name "put_object"], .list [],
     .list [.node .keyword none [.name "Bucket", .node .constant none [.literal (.str "b")]],
       .node .keyword none [.name "Key", .node .constant none [.literal (.str "k")]]]]

/-- A program that makes the call in a body and in an `else` branch. -/
def branches : Ast :=
  .node .module none [.list [.node .ifStmt none [.node .name none [.name "event"],
    .list [.node .exprStmt none [upload 2]], .list [.node .exprStmt none [upload 4]]]]]

def branchWork : Injection :=
  ofProgram Apis.catalogue uploads "m.py" ⟨1, "s3", .client, .literal (.str "s3")⟩ branches

def uploadReaction (line : Nat) : Reaction :=
  ⟨upload line, "ObjectCreated:*", "g",
    ((EventObject.ofNode "s3" (.str "ObjectCreated:*") branchWork.found.origins
      (upload line)).toOption).getD none, "g"⟩

theorem uploadReaction_explained (h : line = 2 ∨ line = 4) :
    branchWork.Explained (.node .exprStmt none [upload line]) (uploadReaction line) line "put_object"
      (.map (Apis.call ["ObjectCreated:*"] ["PutObject", "*"] ++ Apis.resources [("Bucket", "None")] ++
        Apis.filtered [("Key", "None")]))
      (Apis.arguments [("Key", "None")]) [.str "ObjectCreated:*"] [⟨"s3", "ObjectCreated:*"⟩] := by
  rcases h with rfl | rfl <;>
    exact
      { within := .part mem_cons_self .refl, line_eq := rfl, line_mem := by decide, api_eq := rfl,
        info_eq := rfl, allowed := rfl, raised_eq := rfl, raised_mem := mem_cons_self,
        own_mem := mem_cons_self, event_mem := mem_cons_self, places_eq := rfl,
        admitted := rfl, object_eq := rfl, name_eq := rfl }

/-- The handler is called after the call in the body, and not after the one in the other branch. -/
theorem upload_follows_in_body_only :
    (branchWork.program.at? [0, 0, 1, 0] = some (.node .exprStmt none [upload 2]) ∧
      uploadReaction 2 ∈ branchWork.marked.putsAt [0, 0, 1, 0]) ∧
    (branchWork.program.at? [0, 0, 2, 0] = some (.node .exprStmt none [upload 4]) ∧
      uploadReaction 4 ∉ branchWork.marked.putsAt [0, 0, 2, 0]) := by
  refine ⟨⟨rfl, ?_⟩, rfl, ?_⟩
  · have hiff := (reaction_follows_iff branchWork [0, 0, 1] 0 rfl .expression
      (uploadReaction_explained (.inl rfl))).2
    have hreaches : branchWork.Reaches false branchWork.program [0, 0, 1, 0]
        (.node .exprStmt none [upload 2]) :=
      .field (by decide) rfl (.inside rfl (by simp) (.field (by decide) rfl (.statement rfl (by simp))))
    exact hiff.2 ⟨hreaches, [], [], rfl, by simp⟩
  · have hiff := (reaction_follows_iff branchWork [0, 0, 2] 0 rfl .expression
      (uploadReaction_explained (.inr rfl))).2
    intro h
    have hat : branchWork.program.at? [0, 0] = some _ := rfl
    exact not_reaches_of_field branchWork (j:=2) hat (by decide) (hiff.1 h).1

end Injection

end ServerlessTaint
