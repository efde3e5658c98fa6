import ServerlessTaint.Handlers
import ServerlessTaint.Proofs.Fault
import ServerlessTaint.Proofs.Keyed

/-!
# Handlers and their events

The functions of a configuration are gone through up to one whose information cannot be looked into. Texts, lists and
maps always can be, and whatever is wrong inside of one is a matter of its own events. So among such functions each
handler is what its own function says (`handlersUntilFault_eq`), and functions that are put together have the handlers
of both (`handlers_of_merged`).

The entries under the events of a handler are read one after the other, up to one that cannot be read: an entry that is
no mapping, such as the bare name of an event, or one with something else than a text where the name of an event is
looked for (`isReadable_iff`). So the events are those of the single entries if and only if the entries from the first
unreadable one on have no new events (`each_entry_counts_iff`). The handlers of each event are those that have it, and
turned round again they are the handlers with their events (`byEvent_inverts`).
-/

namespace ServerlessTaint

open List

/-- The value has parts that can be asked for: it is a text, a list or a map. -/
def Value.hasParts : Value → Bool
  | .str _ | .list _ | .map _ => true
  | _ => false

theorem Value.exists_holds {v : Value} (h : v.hasParts) (text : String) : ∃ found, v.holds text = .ok found := by
  cases v with
  | str | list | map => exact ⟨_, rfl⟩
  | _ => cases h

namespace Handlers

def ownEvents? (info : Value) : Option (List Event) :=
  match info.holds "handler" with
  | .ok true => some (functionEvents info)
  | _ => none

def ownHandler? (function : String × Value) : Option (String × List Event) :=
  (ownEvents? function.2).map (function.1, ·)

/-- A function whose information can be looked into adds its own handler and does not end the reading. -/
theorem handlersUntilFault_cons {name : String} {info : Value} (h : info.hasParts)
    (rest : List (String × Value)) :
    handlersUntilFault ((name, info) :: rest) = (ownHandler? (name, info)).toList ++ handlersUntilFault rest := by
  obtain ⟨found, hfound⟩ := Value.exists_holds h "handler"
  simp only [handlersUntilFault, ownHandler?, ownEvents?, hfound]
  cases found <;> rfl

variable {functions : List (String × Value)}

/-- Among functions that can all be looked into, each has the handler that it has by itself. -/
theorem handlersUntilFault_eq (h : ∀ f ∈ functions, f.2.hasParts) :
    handlersUntilFault functions = functions.filterMap ownHandler? := by
  induction functions with
  | nil => rfl
  | cons f rest ih =>
    obtain ⟨name, info⟩ := f
    rw [handlersUntilFault_cons (h (name, info) mem_cons_self),
      ih fun f hf => h f (mem_cons_of_mem _ hf), filterMap_cons]
    cases ownHandler? (name, info) <;> rfl

theorem ofConfig_of_functions {config : Value} (hconfig : config.get "functions" = .ok (.map functions))
    (h : ∀ f ∈ functions, f.2.hasParts) : ofConfig config = .ok (functions.filterMap ownHandler?) := by
  unfold ofConfig
  rw [hconfig, ← handlersUntilFault_eq h]

theorem keys_ownHandlers_sublist (functions : List (String × Value)) :
    (Keyed.keys (functions.filterMap ownHandler?)).Sublist (Keyed.keys functions) := by
  induction functions with
  | nil => exact List.Sublist.slnil
  | cons f rest ih =>
    rw [filterMap_cons]
    cases hf : ownHandler? f with
    | none => exact ih.cons _
    | some handler =>
      obtain ⟨events, -, rfl⟩ := Option.map_eq_some_iff.1 hf
      exact ih.cons_cons _

/-- The events of a handler are those of its own function. -/
theorem find?_ownHandlers (name : String) (functions : List (String × Value))
    (hkeys : (Keyed.keys functions).Nodup) :
    Keyed.find? name (functions.filterMap ownHandler?) = Keyed.find? name functions >>= ownEvents? := by
  induction functions with
  | nil => rfl
  | cons f rest ih =>
    obtain ⟨key, info⟩ := f
    obtain ⟨hkey, hrest⟩ := nodup_cons.1 hkeys
    rw [filterMap_cons, Keyed.find?]
    by_cases hname : key = name
    · subst hname
      have hnone : Keyed.find? key (rest.filterMap ownHandler?) = none := by
        cases hfound : Keyed.find? key (rest.filterMap ownHandler?) with
        | none => rfl
        | some events =>
          have hmem := mem_map_of_mem (f := (·.1)) (Keyed.mem_of_find? hfound)
          exact absurd ((keys_ownHandlers_sublist rest).subset hmem) hkey
      cases hown : ownEvents? info with
      | none => simp [ownHandler?, hown, hnone]
      | some events => simp [ownHandler?, hown, Keyed.find?]
    · rw [if_neg hname, ← ih hrest]
      cases hown : ownEvents? info with
      | none => simp [ownHandler?, hown]
      | some events => simp [ownHandler?, hown, Keyed.find?, hname]

/-- **Handlers are read independently of each other.** Let the functions of a configuration be those of two
others put together in any order, under names of their own, each a text, a list or a map. Then all three
have handlers; those of the whole are those of the two parts, under names of their own; and the events of
each are what its own function gives by itself. -/
theorem handlers_of_merged {config₁ config₂ config : Value} {first second merged : List (String × Value)}
    (h₁ : config₁.get "functions" = .ok (.map first)) (h₂ : config₂.get "functions" = .ok (.map second))
    (hmerged : config.get "functions" = .ok (.map merged)) (hperm : merged.Perm (first ++ second))
    (hkeys : (Keyed.keys (first ++ second)).Nodup) (hparts : ∀ f ∈ first ++ second, f.2.hasParts = true) :
    ∃ handlers₁ handlers₂ handlers : Handlers,
      ofConfig config₁ = .ok handlers₁ ∧ ofConfig config₂ = .ok handlers₂ ∧ ofConfig config = .ok handlers ∧
      handlers.Perm (handlers₁ ++ handlers₂) ∧ (Keyed.keys (handlers₁ ++ handlers₂)).Nodup ∧
      (∀ name, Keyed.find? name handlers =
        (Keyed.find? name handlers₁).or (Keyed.find? name handlers₂)) ∧
      ∀ name info, (name, info) ∈ merged → Keyed.find? name handlers = ownEvents? info := by
  have hmergedKeys : (Keyed.keys merged).Nodup := (hperm.map _).nodup_iff.2 hkeys
  have hunion : (merged.filterMap ownHandler?).Perm
      (first.filterMap ownHandler? ++ second.filterMap ownHandler?) := by
    rw [← List.filterMap_append]
    exact hperm.filterMap _
  have hnodup : (Keyed.keys (first.filterMap ownHandler? ++ second.filterMap ownHandler?)).Nodup := by
    rw [← List.filterMap_append]
    exact hkeys.sublist (keys_ownHandlers_sublist _)
  refine ⟨_, _, _, ofConfig_of_functions h₁ fun f hf => hparts f (List.mem_append_left _ hf),
    ofConfig_of_functions h₂ fun f hf => hparts f (List.mem_append_right _ hf),
    ofConfig_of_functions hmerged fun f hf => hparts f (hperm.subset hf), hunion, hnodup, ?_, ?_⟩
  · intro name
    rw [Keyed.find?_perm hunion ((hunion.map _).nodup_iff.2 hnodup), Keyed.find?_append]
  · intro name info hmem
    rw [find?_ownHandlers name merged hmergedKeys, Keyed.find?_of_mem hmergedKeys hmem]
    rfl

/-- A configuration that has functions and nothing else. -/
def withFunctions (functions : List (String × Value)) : Value := .map [("functions", .map functions)]

theorem get_withFunctions (functions : List (String × Value)) :
    (withFunctions functions).get "functions" = .ok (.map functions) := rfl

def uploadFunction : String × Value :=
  ("upload", .map [("handler", .str "m.upload"),
    ("events", .list [.map [("s3", .map [("event", .str "s3:ObjectCreated:*")])]])])

def bareFunction : String × Value := ("bare", .str "handler")

/-- A function with an event of an unsupported form. -/
def lateFunction : String × Value :=
  ("late", .map [("handler", .str "m.late"), ("events", .list [.str "alexaSkill", .map [("http", .str "GET /")]])])

/-- A function between two that are malformed has the events that it has alone. -/
theorem upload_between_malformed_functions :
    ∃ alone malformed handlers : Handlers,
      ofConfig (withFunctions [uploadFunction]) = .ok alone ∧
      ofConfig (withFunctions [bareFunction, lateFunction]) = .ok malformed ∧
      ofConfig (withFunctions [bareFunction, uploadFunction, lateFunction]) = .ok handlers ∧
      handlers.Perm (alone ++ malformed) ∧
      Keyed.find? "upload" handlers = some [⟨"s3", "ObjectCreated:*"⟩] ∧ Keyed.find? "late" handlers = some [] := by
  have hperm : [bareFunction, uploadFunction, lateFunction].Perm
      ([uploadFunction] ++ [bareFunction, lateFunction]) := List.Perm.swap _ _ _
  obtain ⟨alone, malformed, handlers, halone, hmalformed, hhandlers, hunion, -, -, hown⟩ :=
    handlers_of_merged (get_withFunctions _) (get_withFunctions _) (get_withFunctions _) hperm
      (by decide) (by decide)
  refine ⟨alone, malformed, handlers, halone, hmalformed, hhandlers, hunion, ?_, ?_⟩
  · rw [hown "upload" uploadFunction.2 (by simp [uploadFunction])]
    decide
  · rw [hown "late" lateFunction.2 (by simp [lateFunction])]
    decide

/-! ## The entries of a handler -/

/-- The names of events that are looked for are texts. -/
def hasNames : Value → Bool
  | .map entries => entries.all fun e => !eventKeys.contains e.1 || e.2.text?.isSome
  | _ => true

def isReadable : Value → Bool
  | .map services => services.all fun s => s.1 == "sqs" || hasNames s.2
  | _ => false

theorem isReadable_serviceEvents (service : String) (info : Value) :
    (service == "sqs" || hasNames info) ↔ ∃ events, serviceEvents service info = .ok events := by
  unfold serviceEvents
  by_cases hservice : (service == "sqs") = true
  · rw [if_pos hservice, hservice, Bool.true_or]
    cases info <;> exact iff_of_true rfl ⟨_, rfl⟩
  · rw [if_neg hservice, Bool.eq_false_iff.2 hservice, Bool.false_or]
    cases info with
    | map entries =>
      rw [hasNames, all_eq_true]
      constructor
      · intro h
        refine (exists_mapM ?_).imp fun _ hevents => hevents.1
        rintro ⟨key, v⟩ he
        obtain ⟨he, hkey⟩ := mem_filter.1 he
        have hname := h _ he
        cases v <;> simp_all [Value.text?]
      · rintro ⟨events, hevents⟩ ⟨key, v⟩ he
        by_cases hkey : eventKeys.contains key = true
        · obtain ⟨event, hevent⟩ := exists_ok_of_mapM hevents (mem_filter.2 ⟨he, hkey⟩)
          cases v <;> simp_all [Value.text?]
        · rw [Bool.eq_false_iff.2 hkey]
          rfl
    | _ => exact iff_of_true rfl ⟨_, rfl⟩

theorem isReadable_iff (item : Value) : isReadable item ↔ ∃ events, entryEvents item = .ok events := by
  cases item with
  | map services =>
    simp only [isReadable, all_eq_true, isReadable_serviceEvents]
    constructor
    · intro h
      obtain ⟨events, hevents, -⟩ := exists_mapM h
      exact ⟨_, bind_eq_ok_iff.2 ⟨services, rfl, bind_eq_ok_iff.2 ⟨events, hevents, rfl⟩⟩⟩
    · rintro ⟨events, hevents⟩ s hs
      obtain ⟨_, hservices, hevents⟩ := bind_eq_ok_iff.1 hevents
      cases hservices
      obtain ⟨found, hfound, -⟩ := bind_eq_ok_iff.1 hevents
      exact exists_ok_of_mapM hfound hs
  | _ => exact iff_of_false Bool.false_ne_true (by rintro ⟨_, h⟩; cases h)

/-- Entries give what each of them gives alone, up to the first that cannot be read. -/
theorem mem_eventsUntilFault {items : List Value} {e : Event} :
    e ∈ eventsUntilFault items ↔ ∃ item ∈ items.takeWhile isReadable, e ∈ eventsUntilFault [item] := by
  induction items with
  | nil => exact iff_of_false not_mem_nil (by rintro ⟨_, h, -⟩; cases h)
  | cons item items ih =>
    cases hitem : entryEvents item with
    | error fault =>
      have hunreadable : ¬ isReadable item := by
        rw [isReadable_iff, hitem]
        rintro ⟨_, h⟩
        cases h
      rw [takeWhile_cons_of_neg hunreadable, eventsUntilFault, hitem]
      exact iff_of_false not_mem_nil (by rintro ⟨_, h, -⟩; cases h)
    | ok events =>
      have hone : eventsUntilFault [item] = events := by
        rw [eventsUntilFault, hitem]
        exact append_nil events
      rw [takeWhile_cons_of_pos ((isReadable_iff item).2 ⟨events, hitem⟩), eventsUntilFault, hitem]
      simp only [mem_cons, exists_eq_or_imp, hone, ← ih]
      exact mem_append

/-- The entry of a handler with other event entries. -/
def withEvents (fields : Keyed String Value) (items : List Value) : Value :=
  .map (Keyed.set "events" (.list items) fields)

theorem mem_functionEvents {fields : Keyed String Value} {items : List Value} {e : Event} :
    e ∈ functionEvents (withEvents fields items) ↔ e ∈ eventsUntilFault items := by
  have hitems : ((withEvents fields items).get "events" >>= Value.elements) = .ok items := by
    rw [withEvents, Value.get, Keyed.find?_set, if_pos rfl]
    rfl
  rw [functionEvents, hitems]
  exact mem_addAllNew.trans (or_iff_right not_mem_nil)

/-- **When every event entry counts on its own.** The events of a handler are those that the single entries give alone, if
and only if each event of an entry from the first unreadable one on is also one of an entry before. -/
theorem each_entry_counts_iff (fields : Keyed String Value) (items : List Value) :
    (∀ e, e ∈ functionEvents (withEvents fields items) ↔
        ∃ item ∈ items, e ∈ functionEvents (withEvents fields [item])) ↔
      ∀ item ∈ items.dropWhile isReadable, ∀ e ∈ functionEvents (withEvents fields [item]),
        ∃ earlier ∈ items.takeWhile isReadable, e ∈ functionEvents (withEvents fields [earlier]) := by
  have hmem : ∀ item, item ∈ items ↔ item ∈ items.takeWhile isReadable ∨ item ∈ items.dropWhile isReadable := by
    intro item
    rw [← List.mem_append, List.takeWhile_append_dropWhile]
  simp only [mem_functionEvents]
  constructor
  · intro h item hitem e he
    exact mem_eventsUntilFault.1 ((h e).2 ⟨item, (hmem item).2 (.inr hitem), he⟩)
  · intro h e
    rw [mem_eventsUntilFault]
    constructor
    · rintro ⟨item, hitem, he⟩
      exact ⟨item, (hmem item).2 (.inl hitem), he⟩
    · rintro ⟨item, hitem, he⟩
      rcases (hmem item).1 hitem with hitem | hitem
      · exact ⟨item, hitem, he⟩
      · exact h item hitem e he

/-! ## The handlers of an event -/

def listed (e : Event) (table : Keyed Event (List String)) : List String :=
  (Keyed.find? e table).getD []

theorem byEvent_eq_inverted (handlers : Handlers) : byEvent handlers = Keyed.inverted handlers := rfl

/-- A handler is listed for an event exactly if the event is one of its own. -/
theorem mem_listed_byEvent {handlers : Handlers} {e : Event} {h : String} :
    h ∈ listed e (byEvent handlers) ↔ ∃ events, (h, events) ∈ handlers ∧ e ∈ events :=
  Keyed.holds_inverted

/-- No handler is listed twice for an event. -/
theorem nodup_listed_byEvent (handlers : Handlers) (e : Event) : (listed e (byEvent handlers)).Nodup := by
  unfold listed
  cases hfind : Keyed.find? e (byEvent handlers) with
  | none => exact nodup_nil
  | some names => exact (Keyed.areSets_inverted handlers).1.elements _ (Keyed.mem_of_find? hfind)

/-- **The handlers of events are the events of handlers, turned round.** A handler is one of an event if and only if
the event is one of the handler, each event has a handler, and turned round again they are the handlers that have
events. -/
theorem byEvent_inverts {handlers : Handlers} (h : Keyed.AreSets handlers) :
    byEvent handlers = Keyed.inverted handlers ∧
      (∀ e name, Keyed.Holds (byEvent handlers) e name ↔ Keyed.Holds handlers name e) ∧
      Keyed.AreSets (byEvent handlers) ∧ (∀ entry ∈ byEvent handlers, entry.2 ≠ []) ∧
      ∀ name, Option.Rel Perm (Keyed.find? name (Keyed.inverted (byEvent handlers)))
        (Keyed.find? name (handlers.filter fun entry => entry.2 ≠ [])) := by
  obtain ⟨hsets, hne⟩ := Keyed.areSets_inverted handlers
  obtain ⟨hsets', hne'⟩ := Keyed.areSets_inverted (byEvent handlers)
  have hholds : ∀ e name, Keyed.Holds (byEvent handlers) e name ↔ Keyed.Holds handlers name e :=
    fun e name => Keyed.holds_inverted.trans (Keyed.holds_iff h.keys).symm
  refine ⟨byEvent_eq_inverted handlers, hholds, hsets, hne, fun name => ?_⟩
  have hkept : Keyed.AreSets (handlers.filter fun entry => entry.2 ≠ []) :=
    ⟨h.keys.sublist (filter_sublist.map _), fun entry hentry => h.elements entry (mem_filter.1 hentry).1⟩
  refine Keyed.rel_of_holds_iff hsets' hkept hne' (by simp) fun e => ?_
  calc Keyed.Holds (Keyed.inverted (byEvent handlers)) name e
      ↔ Keyed.Holds (byEvent handlers) e name := Keyed.holds_inverted.trans (Keyed.holds_iff hsets.keys).symm
    _ ↔ ∃ events, (name, events) ∈ handlers ∧ e ∈ events := Keyed.holds_inverted
    _ ↔ ∃ events, (name, events) ∈ handlers.filter (fun entry => entry.2 ≠ []) ∧ e ∈ events := by
      refine exists_congr fun events => and_congr_left fun he => ?_
      simp [ne_nil_of_mem he]
    _ ↔ _ := (Keyed.holds_iff hkept.keys).symm

/-- Two handlers share an event, and one has none. -/
def sharing : Handlers := [("f", [⟨"s3", "put"⟩, ⟨"http", "GET /"⟩]), ("g", []), ("h", [⟨"s3", "put"⟩])]

theorem sharing_inverts : Keyed.AreSets sharing ∧ Keyed.Holds (byEvent sharing) ⟨"s3", "put"⟩ "h" ∧
    Option.Rel Perm (Keyed.find? "g" (Keyed.inverted (byEvent sharing))) none := by
  have h : Keyed.AreSets sharing := ⟨by decide, by decide⟩
  exact ⟨h, ((byEvent_inverts h).2.1 _ _).2 (by decide), (byEvent_inverts h).2.2.2.2 "g"⟩

end Handlers

end ServerlessTaint
