import ServerlessTaint.Proofs.HandlerEvents
import ServerlessTaint.Proofs.Marked

/-!
# What an injection puts in where

The work on a client object is recorded as a marked tree (`mark`). Nothing in it depends on the call
that is pending when the work on a tree begins: bodies begin each statement with no pending call. So
the record is a function of the tree alone, and so is the call that is pending at its end, unless
the tree leaves the pending call as it was (`pending`). The record agrees with the pass
(`visit_eq`): it is the program before and after (`marked_before`, `marked_after`).
-/

namespace ServerlessTaint.Injection

open Marked
open Syntax (Ast Field Kind Span)

/-! ## Reactions to a call -/

/-- The reaction of a handler to an event of a call, if the event passes its filters. -/
def reaction? (work : Injection) (call : Ast) (places : Value) (event handler : String) :
    Except Fault (Option Reaction) := do
  if ← EventFilter.callAdmits (work.site (.str handler)) (.str work.serviceName) places call then
    let name ← Application.calledName work.application.config work.file (.str handler)
    let object ← EventObject.ofNode work.serviceName (.str event) work.found.origins call
    return some ⟨call, event, handler, object, name⟩
  else return none

def handlersReactions (work : Injection) (call : Ast) (places : Value) (event : String) :
    List String → List Reaction
  | [] => []
  | handler :: rest =>
    match work.reaction? call places event handler with
    | .ok reaction => reaction.toList ++ handlersReactions work call places event rest
    | .error _ => []

def handlersOf (work : Injection) (event : String) : List String :=
  Handlers.listed ⟨work.serviceName, event⟩ (Handlers.byEvent work.application.handlers)

def eventReactions (work : Injection) (call : Ast) (places : Value) (event : Value) : List Reaction :=
  match event with
  | .str event => work.handlersReactions call places event (work.handlersOf event)
  | _ => []

/-- The events that a call raises, with the places where their filters look. -/
def raised (work : Injection) (call : Ast) : Except Fault (Value × List Value) :=
  match call with
  | .node .call _ (func :: _) => do
    let info ← work.apiInfo ((func.nameOf? .attr).getD "")
    let places ← optionalInfo "events_filtering" info
    let events ← (← info.get "events").elements
    return (places, events)
  | _ => .ok (.null, [])

def reactions (work : Injection) (call : Ast) : Except Fault (List Reaction) := do
  let (places, events) ← work.raised call
  return events.flatMap (work.eventReactions call places)

theorem handlerCode_eq (work : Injection) (call : Ast) (places : Value) (event handler : String) :
    work.handlerCode call places event handler =
      (·.toList.flatMap Reaction.code) <$> work.reaction? call places event handler := by
  unfold handlerCode reaction?
  cases EventFilter.callAdmits (work.site (.str handler)) (.str work.serviceName) places call with
  | error fault => rfl
  | ok admitted =>
    cases admitted with
    | false => rfl
    | true =>
      cases Application.calledName work.application.config work.file (.str handler) with
      | error fault => rfl
      | ok name =>
        cases EventObject.ofNode work.serviceName (.str event) work.found.origins call <;> rfl

theorem handlersCode_eq (work : Injection) (call : Ast) (places : Value) (event : String)
    (handlers : List String) :
    work.handlersCode call places event handlers =
      (work.handlersReactions call places event handlers).flatMap Reaction.code := by
  induction handlers with
  | nil => rfl
  | cons handler rest ih =>
    simp only [handlersCode, handlersReactions, handlerCode_eq]
    cases work.reaction? call places event handler with
    | error fault => rfl
    | ok reaction => simp [Functor.map, Except.map, ih]

theorem eventCode_eq (work : Injection) (call : Ast) (places event : Value) :
    work.eventCode call places event = (work.eventReactions call places event).flatMap Reaction.code := by
  cases event with
  | str event => exact handlersCode_eq work call places event _
  | _ => rfl

theorem callCode_eq (work : Injection) (call : Ast) :
    work.callCode call = (·.flatMap Reaction.code) <$> work.reactions call := by
  have hcode : work.callCode call = do
      let (places, events) ← work.raised call
      return events.flatMap (work.eventCode call places) := by
    by_cases h : ∃ span func rest, call = .node .call span (func :: rest)
    · obtain ⟨span, func, rest, rfl⟩ := h
      simp [callCode, raised]
    · have hcode : work.callCode call = .ok [] := by
        unfold callCode
        split
        · exact absurd ⟨_, _, _, rfl⟩ h
        · rfl
      have hraised : work.raised call = .ok (.null, []) := by
        unfold raised
        split
        · exact absurd ⟨_, _, _, rfl⟩ h
        · rfl
      rw [hcode, hraised]
      rfl
  rw [hcode, reactions]
  simp [List.flatMap_assoc, ← eventCode_eq]

/-! ## The pending call -/

mutual

/-- The call that is pending after a tree was looked at, given the one that was pending before. -/
def pending (work : Injection) (isBody : Bool) : Ast → Option Ast → Option Ast
  | .node .call span children, _ =>
    if work.isTrigger (.node .call span children) then some (.node .call span children) else none
  | .node kind _ children, start =>
    if isBody then none else pendingFields work kind.fields children start
  | .list items, start => if isBody then none else pendingItems work items start
  | _, start => if isBody then none else start

def pendingFields (work : Injection) : List Field → List Ast → Option Ast → Option Ast
  | _, [], start => start
  | [], child :: rest, start => pendingFields work [] rest (pending work false child start)
  | field :: fields, child :: rest, start =>
    pendingFields work fields rest (pending work (field = .body) child start)

def pendingItems (work : Injection) : List Ast → Option Ast → Option Ast
  | [], start => start
  | item :: rest, start => pendingItems work rest (pending work false item start)

end

/-- The reactions that belong after a statement of a body: those to the call that is pending at its
end. -/
def reactionsTo (work : Injection) (statement : Ast) : Except Fault (List Reaction) :=
  match work.pending false statement none with
  | none => .ok []
  | some call => work.reactions call

/-! ## The record -/

mutual

def mark (work : Injection) (isBody : Bool) : Ast → Marked
  | .node .call span children => .kept (.node .call span children)
  | .node kind span children =>
    if isBody then .kept (.node kind span children)
    else .node kind span (markFields work kind.fields children)
  | .list items => if isBody then .body (markBody work items) else .list (markItems work items)
  | leaf => .kept leaf

def markFields (work : Injection) : List Field → List Ast → List Marked
  | _, [] => []
  | [], child :: rest => mark work false child :: markFields work [] rest
  | field :: fields, child :: rest => mark work (field = .body) child :: markFields work fields rest

def markItems (work : Injection) : List Ast → List Marked
  | [] => []
  | item :: rest => mark work false item :: markItems work rest

/-- The record of the work on the statements of a body. A fault ends the work. -/
def markBody (work : Injection) : List Ast → List (Marked × List Reaction)
  | [] => []
  | statement :: rest =>
    match work.reactionsTo statement with
    | .ok reactions => (mark work false statement, reactions) :: markBody work rest
    | .error _ => (mark work false statement, []) :: Marked.untouched rest

end

def marked (work : Injection) : Marked := work.mark false work.program

/-! ## The record agrees with the pass -/

theorem pass_bind {α β : Type} (x : Pass α) (f : α → Pass β) (state : Option Ast) :
    (x >>= f) state = f (x state).1 (x state).2 := rfl

theorem pass_pure {α : Type} (a : α) (state : Option Ast) : (pure a : Pass α) state = (a, state) := rfl

theorem pass_set (new state : Option Ast) : (set new : Pass PUnit) state = (⟨⟩, new) := rfl

theorem pass_get (state : Option Ast) : (get : Pass (Option Ast)) state = (state, state) := rfl

variable {kind : Kind}

theorem visit_node (work : Injection) (isBody : Bool) (h : kind ≠ .call) (span : Option Span) (children : List Ast)
    (start : Option Ast) :
    visit work isBody (.node kind span children) start =
      if isBody then (.node kind span children, none)
      else (.node kind span (visitFields work kind.fields children start).1,
        (visitFields work kind.fields children start).2) := by
  rw [visit.eq_2 work isBody kind span children h]
  cases isBody <;> rfl

theorem pending_node (work : Injection) (isBody : Bool) (h : kind ≠ .call) (span : Option Span) (children : List Ast)
    (start : Option Ast) :
    work.pending isBody (.node kind span children) start =
      if isBody then none else work.pendingFields kind.fields children start :=
  pending.eq_2 work isBody start kind span children h

theorem mark_node (work : Injection) (isBody : Bool) (h : kind ≠ .call) (span : Option Span) (children : List Ast) :
    work.mark isBody (.node kind span children) =
      if isBody then .kept (.node kind span children) else .node kind span (work.markFields kind.fields children) :=
  mark.eq_2 work isBody kind span children h

/-! Items are gone through like the fields of a node that has no names for them. -/

theorem visitItems_eq_fields (work : Injection) (ts : List Ast) : visitItems work ts = visitFields work [] ts := by
  induction ts with
  | nil => simp only [visitItems, visitFields]
  | cons t ts ih => simp only [visitItems, visitFields, ih]

theorem pendingItems_eq_fields (work : Injection) (ts : List Ast) (start : Option Ast) :
    work.pendingItems ts start = work.pendingFields [] ts start := by
  induction ts generalizing start with
  | nil => simp only [pendingItems, pendingFields]
  | cons t ts ih => simp only [pendingItems, pendingFields, ih]

theorem markItems_eq_fields (work : Injection) (ts : List Ast) : work.markItems ts = work.markFields [] ts := by
  induction ts with
  | nil => simp only [markItems, markFields]
  | cons t ts ih => simp only [markItems, markFields, ih]

theorem itemsInPlace_iff (ms : List Marked) : ItemsInPlace ms ↔ FieldsInPlace [] ms := by
  induction ms with
  | nil => simp only [ItemsInPlace, FieldsInPlace]
  | cons m ms ih => simp only [ItemsInPlace, FieldsInPlace, ih]

mutual

theorem visit_eq (work : Injection) (isBody : Bool) : ∀ (t : Ast) (start : Option Ast),
    visit work isBody t start = ((work.mark isBody t).after, work.pending isBody t start)
  | .node kind span children, start => by
    by_cases hcall : kind = .call
    · subst hcall; simp only [visit, mark, pending]; rfl
    · have hfields := visitFields_eq work kind.fields children start
      rw [visit_node work isBody hcall, mark_node work isBody hcall, pending_node work isBody hcall]
      cases isBody with
      | true => rfl
      | false => simp [hfields, after]
  | .list items, start => by
    simp only [visit, mark, pending]
    cases isBody with
    | true =>
      have hbody := visitBody_eq work items start
      simp only [if_true, pass_bind, pass_set, pass_pure, hbody, after]
    | false =>
      have hitems := visitFields_eq work [] items start
      simp [pass_bind, pass_pure, visitItems_eq_fields, pendingItems_eq_fields, markItems_eq_fields, hitems, after]
  | .absent, start | .name _, start | .number _, start | .literal _, start => by
    simp only [visit, mark, pending]
    cases isBody <;> rfl

theorem visitFields_eq (work : Injection) :
    ∀ (fields : List Field) (ts : List Ast) (start : Option Ast),
    visitFields work fields ts start =
      (afterAll (work.markFields fields ts), work.pendingFields fields ts start)
  | _, [], start => by simp only [visitFields, markFields, pendingFields, afterAll, pass_pure]
  | [], t :: ts, start => by
    simp only [visitFields, markFields, pendingFields, afterAll, pass_bind, pass_pure,
      visit_eq work false t, visitFields_eq work [] ts]
  | field :: fields, t :: ts, start => by
    simp only [visitFields, markFields, pendingFields, afterAll, pass_bind, pass_pure,
      visit_eq work (field = .body) t, visitFields_eq work fields ts]

theorem visitBody_eq (work : Injection) : ∀ (ts : List Ast) (start : Option Ast),
    (visitBody work ts start).1 = afterBody (work.markBody ts)
  | [], start => by simp only [visitBody, markBody, afterBody, pass_pure]
  | t :: ts, start => by
    -- Each statement begins with no pending call, so the one at the start of the body does not matter.
    simp only [visitBody, markBody, reactionsTo, pass_bind, pass_set, pass_get, visit_eq work false t]
    cases work.pending false t none with
    | none =>
      simp [pass_bind, pass_pure, afterBody, visitBody_eq work ts]
    | some call =>
      simp only [callCode_eq]
      cases work.reactions call with
      | error fault => simp [Functor.map, Except.map, pass_pure, afterBody, afterBody_untouched]
      | ok reactions =>
        simp [Functor.map, Except.map, pass_bind, pass_pure, afterBody, visitBody_eq work ts]

end

mutual

/-- The record of a tree is that tree before, with reactions in bodies only. -/
theorem sound_mark (work : Injection) (isBody : Bool) : ∀ t : Ast,
    (work.mark isBody t).before = t ∧ (work.mark isBody t).InPlace isBody
  | .node kind span children => by
    by_cases hcall : kind = .call
    · subst hcall
      simp only [mark, before, InPlace, and_self]
    · obtain ⟨hbefore, hplaced⟩ := sound_markFields work kind.fields children
      rw [mark_node work isBody hcall]
      cases isBody with
      | true => exact ⟨rfl, trivial⟩
      | false => exact ⟨by simp [before, hbefore], hplaced⟩
  | .list items => by
    simp only [mark, markItems_eq_fields]
    cases isBody with
    | true =>
      obtain ⟨hbefore, hplaced⟩ := sound_markBody work items
      exact ⟨by simp [before, hbefore], rfl, hplaced⟩
    | false =>
      obtain ⟨hbefore, hplaced⟩ := sound_markFields work [] items
      exact ⟨by simp [before, hbefore], (itemsInPlace_iff _).2 hplaced⟩
  | .absent | .name _ | .number _ | .literal _ => by simp only [mark, before, InPlace, and_self]

theorem sound_markFields (work : Injection) : ∀ (fields : List Field) (ts : List Ast),
    beforeAll (work.markFields fields ts) = ts ∧ FieldsInPlace fields (work.markFields fields ts)
  | _, [] => by simp only [markFields, beforeAll, FieldsInPlace, and_self]
  | [], t :: ts => by
    simp only [markFields, beforeAll, FieldsInPlace, sound_mark work false t, sound_markFields work [] ts, and_self]
  | field :: fields, t :: ts => by
    simp only [markFields, beforeAll, FieldsInPlace, sound_mark work _ t, sound_markFields work fields ts, and_self]

theorem sound_markBody (work : Injection) : ∀ ts : List Ast,
    beforeBody (work.markBody ts) = ts ∧ BodyInPlace (work.markBody ts)
  | [] => by simp only [markBody, beforeBody, BodyInPlace, and_self]
  | t :: ts => by
    simp only [markBody]
    cases work.reactionsTo t with
    | ok reactions => simp only [beforeBody, BodyInPlace, sound_mark work false t, sound_markBody work ts, and_self]
    | error fault =>
      simp only [beforeBody, BodyInPlace, sound_mark work false t, beforeBody_untouched, bodyInPlace_untouched, and_self]

end

/-! ## Only pairs of statements are added -/

theorem marked_before (work : Injection) : work.marked.before = work.program :=
  (sound_mark work false work.program).1

theorem marked_after (work : Injection) : work.marked.after = work.run := by
  rw [run, visit_eq]; rfl

theorem run_follows (work : Injection) {above : List Nat} {i : Nat}
    (h : (work.program.at? (above ++ [i])).isSome) :
    work.run.Follows (work.marked.moved (above ++ [i]))
      ((work.marked.putsAt (above ++ [i])).flatMap Reaction.code) := by
  rw [← marked_before, at?_before, Option.isSome_map] at h
  obtain ⟨statement, hstatement⟩ := Option.isSome_iff_exists.1 h
  rw [← marked_after]
  exact follows_putsAt hstatement

/-- **Injection only adds.** The record of the work gives back the program when the reactions are
forgotten and the result when they are written out. Reactions stand only in the bodies of nodes,
and the statements of those that belong to a statement stand right after it. -/
theorem run_only_adds (work : Injection) :
    work.marked.before = work.program ∧ work.marked.after = work.run ∧
    work.marked.InPlace false ∧
    ∀ above i, (work.program.at? (above ++ [i])).isSome →
      work.run.Follows (work.marked.moved (above ++ [i]))
        ((work.marked.putsAt (above ++ [i])).flatMap Reaction.code) := by
  exact ⟨marked_before work, marked_after work, (sound_mark work false work.program).2,
    fun _ _ h => run_follows work h⟩

/-! ## Where an injection gets to

The pass goes through the fields of nodes and the items of lists. It does not look into calls, nor
into the value of a field named `body` that is no list, and in a body it gets no further than to the
first statement with a fault. `Reaches` says which statements of bodies it gets to; a reaction is put
in exactly after such a statement, if it is one of the reactions to it (`mem_putsAt_mark`).
-/

open List Marked

def faultFree (work : Injection) (statement : Ast) : Bool := (work.reactionsTo statement).isOk

/-- The pass gets from a tree by a route to a statement of a body. -/
inductive Reaches (work : Injection) : Bool → Ast → List Nat → Ast → Prop
  | statement {items : List Ast} {i : Nat} {s : Ast} :
    items[i]? = some s → (∀ t ∈ items.take i, work.faultFree t) →
      Reaches work true (.list items) [i] s
  | inside {items : List Ast} {i : Nat} {route : List Nat} {t s : Ast} :
    items[i]? = some t → (∀ t ∈ items.take i, work.faultFree t) → Reaches work false t route s →
      Reaches work true (.list items) (i :: route) s
  | item {items : List Ast} {i : Nat} {route : List Nat} {t s : Ast} :
    items[i]? = some t → Reaches work false t route s →
      Reaches work false (.list items) (i :: route) s
  | field {kind : Kind} {span : Option Span} {children : List Ast} {i : Nat} {route : List Nat}
      {t s : Ast} :
    kind ≠ .call → children[i]? = some t →
      Reaches work (decide (kind.fields[i]? = some .body)) t route s →
      Reaches work false (.node kind span children) (i :: route) s

variable {t s : Ast} {isBody : Bool} {route : List Nat} {r : Reaction} {work : Injection}

theorem Reaches.at? (h : work.Reaches isBody t route s) : t.at? route = some s := by
  induction h with
  | statement hi _ => simp [Ast.at?, Ast.parts, hi]
  | inside hi _ _ ih | item hi _ ih | field _ hi _ ih => simp [Ast.at?, Ast.parts, hi, ih]

/-- A statement that the pass gets to stands in a list that is the body of a node. -/
theorem Reaches.in_body (h : work.Reaches isBody t route s) :
    (isBody ∧ ∃ i, route = [i]) ∨
    ∃ above j i kind span children, route = above ++ [j, i] ∧
      t.at? above = some (.node kind span children) ∧ kind.fields[j]? = some .body := by
  induction h with
  | statement => exact .inl ⟨rfl, _, rfl⟩
  | inside hi _ _ ih | item hi _ ih =>
    rcases ih with ⟨hfalse, _⟩ | ⟨above, j, i, kind, span, children, rfl, hat, hbody⟩
    · cases hfalse
    · exact .inr ⟨_ :: above, j, i, kind, span, children, rfl,
        by simp [Ast.at?, Ast.parts, hi, hat], hbody⟩
  | field _ hi _ ih =>
    rcases ih with ⟨hbody, i, rfl⟩ | ⟨above, j, i, kind, span, children, rfl, hat, hbody⟩
    · exact .inr ⟨[], _, i, _, _, _, rfl, rfl, of_decide_eq_true hbody⟩
    · exact .inr ⟨_ :: above, j, i, kind, span, children, rfl,
        by simp [Ast.at?, Ast.parts, hi, hat], hbody⟩

/-! ## The record of lists -/

theorem getElem?_markFields (work : Injection) : ∀ (fields : List Field) (ts : List Ast) (i : Nat),
    (work.markFields fields ts)[i]? = ts[i]?.map (work.mark (decide (fields[i]? = some .body)))
  | _, [], i => by simp [markFields]
  | [], t :: ts, 0 => by simp [markFields]
  | [], t :: ts, i + 1 => by simpa [markFields] using getElem?_markFields work [] ts i
  | field :: fields, t :: ts, 0 => by simp [markFields]
  | field :: fields, t :: ts, i + 1 => by simpa [markFields] using getElem?_markFields work fields ts i

theorem markItems_eq_map (work : Injection) (ts : List Ast) :
    work.markItems ts = ts.map (work.mark false) := by
  induction ts with
  | nil => simp [markItems]
  | cons t ts ih => simp [markItems, ih]

/-- Up to the first fault each statement of a body is recorded with the reactions to it; after it the
statements are kept. -/
theorem getElem?_markBody (work : Injection) (ts : List Ast) (i : Nat) :
    (work.markBody ts)[i]? = ts[i]?.map fun s =>
      if (ts.take i).all work.faultFree then (work.mark false s, (work.reactionsTo s).toOption.getD [])
      else (.kept s, []) := by
  induction ts generalizing i with
  | nil => simp [markBody]
  | cons t ts ih =>
    simp only [markBody]
    cases i with
    | zero => cases ht : work.reactionsTo t <;> simp [ht, Except.toOption]
    | succ i =>
      cases ht : work.reactionsTo t with
      | ok reactions => simp [ih, faultFree, ht, Except.isOk, Except.toBool]
      | error fault => simp [untouched, faultFree, ht, Except.isOk, Except.toBool]

/-! ## Where reactions are put in -/

theorem Reaches.ne_nil (h : work.Reaches isBody t route s) : route ≠ [] := by
  cases h <;> exact cons_ne_nil _ _

/-- The record of a tree keeps it, or it is that of the parts of a node, a list or a body. -/
theorem mark_cases (work : Injection) (isBody : Bool) (t : Ast) :
    work.mark isBody t = .kept t ∨
    (∃ kind span children, kind ≠ .call ∧ isBody = false ∧ t = .node kind span children ∧
      work.mark isBody t = .node kind span (work.markFields kind.fields children)) ∨
    (∃ items, isBody = false ∧ t = .list items ∧
      work.mark isBody t = .list (items.map (work.mark false))) ∨
    (∃ items, isBody ∧ t = .list items ∧ work.mark isBody t = .body (work.markBody items)) := by
  cases t with
  | node kind span children =>
    by_cases hcall : kind = .call
    · subst hcall; exact .inl (by simp only [mark])
    · cases isBody with
      | true => exact .inl (by rw [mark_node work true hcall, if_pos rfl])
      | false =>
        exact .inr (.inl ⟨kind, span, children, hcall, rfl, rfl, by
          rw [mark_node work false hcall, if_neg Bool.false_ne_true]⟩)
  | list items =>
    cases isBody with
    | true => exact .inr (.inr (.inr ⟨items, rfl, rfl, by simp only [mark, if_true]⟩))
    | false =>
      exact .inr (.inr (.inl ⟨items, rfl, rfl, by
        simp only [mark, Bool.false_eq_true, if_false, markItems_eq_map]⟩))
  | absent | name _ | number _ | literal _ => exact .inl (by simp only [mark])

/-- After a statement that the pass gets to stand the reactions to it, or none if there is a fault. -/
theorem Reaches.putsAt_mark (h : work.Reaches isBody t route s) :
    (work.mark isBody t).putsAt route = (work.reactionsTo s).toOption.getD [] := by
  induction h with
  | statement hi hfree =>
    simp only [mark, if_true, putsAt, puts, getElem?_markBody, hi, Option.map_some]
    rw [if_pos (all_eq_true.2 hfree)]
  | inside hi hfree hbelow ih =>
    rw [putsAt_cons, if_neg hbelow.ne_nil, nil_append, ← ih]
    simp only [mark, if_true, parts, getElem?_map, getElem?_markBody, hi, Option.map_some]
    rw [if_pos (all_eq_true.2 hfree), Option.getD_some]
  | item hi hbelow ih =>
    rw [putsAt_cons, if_neg hbelow.ne_nil, nil_append, ← ih]
    simp [mark, parts, markItems_eq_map, hi]
  | field hcall hi hbelow ih =>
    rw [putsAt_cons, if_neg hbelow.ne_nil, nil_append, ← ih, mark_node work false hcall]
    simp [parts, getElem?_markFields, hi]

/-- Reactions stand only after statements that the pass gets to. -/
theorem reaches_of_mem_putsAt (work : Injection) (route : List Nat) (isBody : Bool) (t : Ast)
    (h : r ∈ (work.mark isBody t).putsAt route) : ∃ s, work.Reaches isBody t route s := by
  induction route generalizing isBody t with
  | nil => simp [putsAt] at h
  | cons i route ih =>
    rcases mark_cases work isBody t with hmark | ⟨kind, span, children, hcall, rfl, rfl, hmark⟩ |
      ⟨items, rfl, rfl, hmark⟩ | ⟨items, rfl, rfl, hmark⟩ <;> rw [hmark] at h
    · simp [putsAt_kept] at h
    · rw [putsAt_cons] at h
      simp only [puts, ite_self, nil_append, parts, getElem?_markFields] at h
      cases ht : children[i]? with
      | none => simp [ht] at h
      | some t =>
        obtain ⟨s, hs⟩ := ih _ t (by simpa [ht] using h)
        exact ⟨s, .field hcall ht hs⟩
    · rw [putsAt_cons] at h
      simp only [puts, ite_self, nil_append, parts, getElem?_map] at h
      cases ht : items[i]? with
      | none => simp [ht] at h
      | some t =>
        obtain ⟨s, hs⟩ := ih _ t (by simpa [ht] using h)
        exact ⟨s, .item ht hs⟩
    · rw [putsAt_cons] at h
      simp only [puts, parts, getElem?_map, getElem?_markBody] at h
      cases ht : items[i]? with
      | none => simp [ht] at h
      | some t =>
        -- After a fault the statements are kept, and there is nothing below them.
        by_cases hfree : (items.take i).all work.faultFree
        · have hpath := all_eq_true.1 hfree
          by_cases hroute : route = []
          · subst hroute; exact ⟨t, .statement ht hpath⟩
          · obtain ⟨s, hs⟩ := ih false t (by simpa [ht, hfree, hroute] using h)
            exact ⟨s, .inside ht hpath hs⟩
        · simp [ht, hfree, putsAt_kept] at h

/-- **Where reactions are put in.** A reaction stands after the statement at a route exactly if the
pass gets there and it is one of the reactions to the statement. -/
theorem mem_putsAt_mark (work : Injection) (route : List Nat) (isBody : Bool) (t : Ast) :
    r ∈ (work.mark isBody t).putsAt route ↔
      ∃ s reactions, work.Reaches isBody t route s ∧ work.reactionsTo s = .ok reactions ∧
        r ∈ reactions := by
  constructor
  · intro h
    obtain ⟨s, hs⟩ := reaches_of_mem_putsAt work route isBody t h
    rw [hs.putsAt_mark] at h
    cases hreactions : work.reactionsTo s with
    | error fault => simp [hreactions, Except.toOption] at h
    | ok reactions => exact ⟨s, reactions, hs, hreactions, by simpa [hreactions, Except.toOption] using h⟩
  · rintro ⟨s, reactions, hs, hreactions, hr⟩
    rwa [hs.putsAt_mark, hreactions]

end ServerlessTaint.Injection
