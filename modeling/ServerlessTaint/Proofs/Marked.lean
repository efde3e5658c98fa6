import ServerlessTaint.Injection
import ServerlessTaint.Proofs.Routes

/-!
# Trees with marks

A marked tree shows a program before and after an injection at once: each statement of a body is
followed by the reactions that were put in after it. Forgetting the reactions gives the program
before (`before`), writing them out gives the program after (`after`). Routes are those of the
program before; `moved` says where a route of it leads in the program after.
-/

namespace ServerlessTaint

open List
open Syntax (Ast Field Kind Span)

/-- The reaction of a handler to a call: the call, the event, the handler, the event object, and the
name by which the handler is called. -/
structure Reaction where
  call : Ast
  event : String
  handler : String
  object : Option Ast
  calledName : String

def Reaction.code (r : Reaction) : List Ast :=
  [Injection.eventAssignment r.object, Injection.handlerCall r.calledName]

/-- A tree with marks. Nothing was put in below a tree that was `kept`. -/
inductive Marked where
  | kept (tree : Ast)
  | node (kind : Kind) (span : Option Span) (children : List Marked)
  | list (items : List Marked)
  | body (statements : List (Marked × List Reaction))

namespace Marked

mutual

/-- The tree without the reactions. -/
def before : Marked → Ast
  | .kept tree => tree
  | .node kind span children => .node kind span (beforeAll children)
  | .list items => .list (beforeAll items)
  | .body statements => .list (beforeBody statements)

/-- Trees without the reactions. -/
def beforeAll : List Marked → List Ast
  | [] => []
  | m :: ms => before m :: beforeAll ms

def beforeBody : List (Marked × List Reaction) → List Ast
  | [] => []
  | (m, _) :: rest => before m :: beforeBody rest

end

mutual

/-- The tree with the reactions. -/
def after : Marked → Ast
  | .kept tree => tree
  | .node kind span children => .node kind span (afterAll children)
  | .list items => .list (afterAll items)
  | .body statements => .list (afterBody statements)

/-- Trees with the reactions. -/
def afterAll : List Marked → List Ast
  | [] => []
  | m :: ms => after m :: afterAll ms

def afterBody : List (Marked × List Reaction) → List Ast
  | [] => []
  | (m, reactions) :: rest => after m :: (reactions.flatMap Reaction.code ++ afterBody rest)

end

mutual

/-- Reactions stand only in lists that are the value of a field named `body`. -/
def InPlace (isBody : Bool) : Marked → Prop
  | .kept _ => True
  | .node kind _ children => FieldsInPlace kind.fields children
  | .list items => ItemsInPlace items
  | .body statements => isBody = true ∧ BodyInPlace statements

def FieldsInPlace : List Field → List Marked → Prop
  | _, [] => True
  | [], m :: ms => InPlace false m ∧ FieldsInPlace [] ms
  | field :: fields, m :: ms => InPlace (field = .body) m ∧ FieldsInPlace fields ms

def ItemsInPlace : List Marked → Prop
  | [] => True
  | m :: ms => InPlace false m ∧ ItemsInPlace ms

def BodyInPlace : List (Marked × List Reaction) → Prop
  | [] => True
  | (m, _) :: rest => InPlace false m ∧ BodyInPlace rest

end

theorem beforeAll_eq_map (ms : List Marked) : beforeAll ms = ms.map before := by
  induction ms with
  | nil => rfl
  | cons m ms ih => simp [beforeAll, ih]

theorem beforeBody_eq_map (ss : List (Marked × List Reaction)) : beforeBody ss = ss.map fun s => s.1.before := by
  induction ss with
  | nil => rfl
  | cons s ss ih => simp [beforeBody, ih]

theorem afterAll_eq_map (ms : List Marked) : afterAll ms = ms.map after := by
  induction ms with
  | nil => rfl
  | cons m ms ih => simp [afterAll, ih]

/-- Statements that were kept with nothing after them. -/
def untouched (ts : List Ast) : List (Marked × List Reaction) := ts.map fun t => (.kept t, [])

theorem beforeBody_untouched (ts : List Ast) : beforeBody (untouched ts) = ts := by
  induction ts with
  | nil => rfl
  | cons t ts ih =>
    rw [untouched] at ih
    simp [untouched, beforeBody, before, ih]

theorem afterBody_untouched (ts : List Ast) : afterBody (untouched ts) = ts := by
  induction ts with
  | nil => rfl
  | cons t ts ih =>
    rw [untouched] at ih
    simp [untouched, afterBody, after, ih]

theorem bodyInPlace_untouched (ts : List Ast) : BodyInPlace (untouched ts) := by
  induction ts with
  | nil => trivial
  | cons t ts ih => exact ⟨trivial, ih⟩

/-! ## Routes -/

def parts : Marked → List Marked
  | .kept tree => tree.parts.map .kept
  | .node _ _ children => children
  | .list items => items
  | .body statements => statements.map (·.1)

/-- The marked tree to which a route of the tree before leads. -/
def at? : List Nat → Marked → Option Marked
  | [], m => some m
  | i :: route, m =>
    match m.parts[i]? with
    | some part => part.at? route
    | none => none

def puts : Marked → Nat → List Reaction
  | .body statements, i =>
    match statements[i]? with
    | some s => s.2
    | none => []
  | _, _ => []

/-- The reactions right after the statement to which a route leads. -/
def putsAt : List Nat → Marked → List Reaction
  | [], _ => []
  | [i], m => m.puts i
  | i :: route, m =>
    match m.parts[i]? with
    | some part => part.putsAt route
    | none => []

/-- The number that a part has in the tree after. -/
def newIndex : Marked → Nat → Nat
  | .body statements, i => i + ((statements.take i).flatMap fun s => s.2.flatMap Reaction.code).length
  | _, i => i

/-- The route in the tree after to what a route leads to in the tree before. -/
def moved : List Nat → Marked → List Nat
  | [], _ => []
  | i :: route, m =>
    m.newIndex i ::
      match m.parts[i]? with
      | some part => part.moved route
      | none => route

theorem parts_before (m : Marked) : m.before.parts = m.parts.map before := by
  cases m with
  | kept tree => simp [before, parts, Function.comp_def]
  | node | list => simp [before, parts, Ast.parts, beforeAll_eq_map]
  | body statements => simp [before, parts, Ast.parts, beforeBody_eq_map]

theorem at?_before (route : List Nat) (m : Marked) : m.before.at? route = (m.at? route).map before := by
  induction route generalizing m with
  | nil => rfl
  | cons i route ih =>
    simp only [Ast.at?, at?, parts_before, getElem?_map]
    cases m.parts[i]? with
    | none => rfl
    | some part => exact ih part

/-- The tree after has the statements before a statement of a body with their reactions, and goes on with it. -/
theorem split_afterBody (ss : List (Marked × List Reaction)) (i : Nat) :
    (afterBody ss).take (i + ((ss.take i).flatMap fun s => s.2.flatMap Reaction.code).length) = afterBody (ss.take i) ∧
      (afterBody ss).drop (i + ((ss.take i).flatMap fun s => s.2.flatMap Reaction.code).length) =
        afterBody (ss.drop i) := by
  induction i generalizing ss with
  | zero => simp [afterBody]
  | succ i ih =>
    cases ss with
    | nil => simp [afterBody]
    | cons s ss =>
      have hlen : i + 1 + (((s :: ss).take (i + 1)).flatMap fun s => s.2.flatMap Reaction.code).length =
          (s.1.after :: s.2.flatMap Reaction.code).length +
            (i + ((ss.take i).flatMap fun s => s.2.flatMap Reaction.code).length) := by
        simp only [take_succ_cons, flatMap_cons, length_append, length_cons]
        omega
      have hbody (ss : List (Marked × List Reaction)) :
          afterBody (s :: ss) = s.1.after :: s.2.flatMap Reaction.code ++ afterBody ss := rfl
      rw [hlen, take_succ_cons, drop_succ_cons, hbody, hbody, take_length_add_append, drop_length_add_append, (ih ss).1,
        (ih ss).2]
      exact ⟨rfl, rfl⟩

variable {i a b : Nat} {m part : Marked} {above : List Nat}

/-- The parts from a part of the tree before on: it, its reactions and whatever comes then. -/
theorem drop_parts_after (h : m.parts[i]? = some part) :
    ∃ rest, m.after.parts.drop (m.newIndex i) = part.after :: ((m.puts i).flatMap Reaction.code ++ rest) := by
  have unchanged {ts : List Marked} (h : ts[i]? = some part) :
      (ts.map after).drop i = part.after :: (ts.drop (i + 1)).map after := by
    obtain ⟨hi, rfl⟩ := List.getElem?_eq_some_iff.1 h
    rw [← List.map_drop, List.drop_eq_getElem_cons hi, List.map_cons]
  cases m with
  | kept tree =>
    have hkept := unchanged h
    simp only [parts, List.map_map, Function.comp_def, after, List.map_id'] at hkept
    exact ⟨_, by simpa [newIndex, puts, after] using hkept⟩
  | node | list =>
    exact ⟨_, by simpa [newIndex, puts, after, parts, Ast.parts, afterAll_eq_map] using unchanged h⟩
  | body statements =>
    simp only [parts, List.getElem?_map, Option.map_eq_some_iff] at h
    obtain ⟨s, hs, rfl⟩ := h
    obtain ⟨hi, rfl⟩ := List.getElem?_eq_some_iff.1 hs
    refine ⟨afterBody (statements.drop (i + 1)), ?_⟩
    simp only [after, Ast.parts, newIndex, puts, hs]
    rw [(split_afterBody statements i).2, List.drop_eq_getElem_cons hi]
    rfl

theorem at?_append (route more : List Nat) (m : Marked) : m.at? (route ++ more) = (m.at? route).bind (at? more) := by
  induction route generalizing m with
  | nil => rfl
  | cons i route ih =>
    simp only [cons_append, at?]
    split
    · exact ih _
    · rfl

theorem at?_after {route : List Nat} (h : m.at? route = some part) : m.after.at? (m.moved route) = some part.after := by
  induction route generalizing m with
  | nil => cases h; rfl
  | cons i route ih =>
    simp only [at?] at h
    split at h
    · rename_i p hp
      obtain ⟨rest, hrest⟩ := drop_parts_after hp
      have hget : m.after.parts[m.newIndex i]? = some p.after := by
        rw [← head?_drop, hrest]; rfl
      simp only [moved, hp, Ast.at?, hget]
      exact ih h
    · cases h

theorem moved_append {more : List Nat} (h : m.at? above = some part) :
    m.moved (above ++ more) = m.moved above ++ part.moved more := by
  induction above generalizing m with
  | nil => cases h; rfl
  | cons i above ih =>
    simp only [at?] at h
    split at h
    · rename_i p hp
      simp [cons_append, moved, hp, ih h]
    · cases h

theorem putsAt_append (h : m.at? above = some part) : m.putsAt (above ++ [i]) = part.puts i := by
  induction above generalizing m with
  | nil => cases h; rfl
  | cons j above ih =>
    simp only [at?] at h
    split at h
    · rename_i p hp
      cases above with
      | nil => cases h; simp [putsAt, hp]
      | cons k above => simpa [putsAt, hp] using ih h
    · cases h

theorem putsAt_kept (t : Ast) (route : List Nat) : (kept t).putsAt route = [] := by
  induction route generalizing t with
  | nil => rfl
  | cons i route ih =>
    cases route with
    | nil => rfl
    | cons j route =>
      simp only [putsAt, parts, getElem?_map]
      cases t.parts[i]? with
      | none => rfl
      | some part => exact ih part

/-- A route with one number leads to a statement; a longer one goes on below its first part. -/
theorem putsAt_cons (m : Marked) (i : Nat) (route : List Nat) :
    m.putsAt (i :: route) = (if route = [] then m.puts i else []) ++ (m.parts[i]?.map (putsAt route)).getD [] := by
  cases route with
  | nil => cases m.parts[i]? <;> simp [putsAt]
  | cons j route => cases h : m.parts[i]? <;> simp [putsAt, h]

/-- **Where reactions stand.** In the tree after, the statements of the reactions that belong to a
statement stand right after it. -/
theorem follows_putsAt {statement : Marked} (h : m.at? (above ++ [i]) = some statement) :
    m.after.Follows (m.moved (above ++ [i])) ((m.putsAt (above ++ [i])).flatMap Reaction.code) := by
  rw [at?_append, Option.bind_eq_some_iff] at h
  obtain ⟨whole, hwhole, hi⟩ := h
  have hpart : whole.parts[i]? = some statement := by
    cases hp : whole.parts[i]? with
    | none => simp [at?, hp] at hi
    | some part => simpa [at?, hp] using hi
  obtain ⟨rest, hrest⟩ := drop_parts_after hpart
  refine ⟨m.moved above, whole.newIndex i, whole.after, ?_, at?_after hwhole, rest, ?_⟩
  · simp [moved_append hwhole, moved, hpart]
  · rw [putsAt_append hwhole, ← tail_drop, hrest, tail_cons]

/-! ## What comes between two statements -/

/-- Between two statements of a body come the reactions to the first, then the statements between
them with their reactions. -/
theorem between_afterBody {ss : List (Marked × List Reaction)} {s : Marked × List Reaction} (hab : a < b)
    (hs : ss[a]? = some s) :
    between ((body ss).newIndex a) ((body ss).newIndex b) (afterBody ss) =
      s.2.flatMap Reaction.code ++ afterBody (between a b ss) := by
  have hget : (ss.take b)[a]? = some s := by rw [List.getElem?_take_of_lt hab, hs]
  obtain ⟨ha, hsa⟩ := List.getElem?_eq_some_iff.1 hget
  have hdrop : (ss.take b).drop a = s :: between a b ss := by
    rw [List.drop_eq_getElem_cons ha, hsa, between]
  have htake : (ss.take b).take a = ss.take a := by
    rw [List.take_take, Nat.min_eq_left (Nat.le_of_lt hab)]
  rw [between, newIndex, newIndex, (split_afterBody ss b).1, ← List.tail_drop, ← htake, (split_afterBody _ a).2, hdrop]
  rfl

theorem newIndex_lt (m : Marked) (hab : a < b) : m.newIndex a < m.newIndex b := by
  cases m with
  | body ss =>
    obtain ⟨more, hmore⟩ : ss.take a <+: ss.take b := take_prefix_take_left (Nat.le_of_lt hab)
    simp only [newIndex, ← hmore, flatMap_append, length_append]
    omega
  | _ => exact hab

theorem map_after_sublist_afterBody (ss : List (Marked × List Reaction)) :
    (ss.map fun s => s.1.after).Sublist (afterBody ss) := by
  induction ss with
  | nil => exact List.Sublist.slnil
  | cons s ss ih =>
    obtain ⟨m, reactions⟩ := s
    exact (ih.trans (sublist_append_right _ _)).cons_cons m.after

/-- Between two parts of the tree after stand the reactions to the first and the parts between them. -/
theorem sublist_between_after (hab : a < b) (ha : m.parts[a]? = some part) :
    ((m.puts a).flatMap Reaction.code ++ (between a b m.parts).map after).Sublist
      (between (m.newIndex a) (m.newIndex b) m.after.parts) := by
  cases m with
  | kept tree =>
    simp only [puts, newIndex, parts, after, flatMap_nil, nil_append, map_between, map_map,
      Function.comp_def, map_id']
    exact List.Sublist.refl _
  | node | list =>
    simp only [puts, newIndex, parts, after, Ast.parts, flatMap_nil, nil_append, map_between,
      afterAll_eq_map]
    exact List.Sublist.refl _
  | body ss =>
    simp only [parts, getElem?_map, Option.map_eq_some_iff] at ha
    obtain ⟨s, hs, rfl⟩ := ha
    simp only [puts, hs, parts, after, Ast.parts]
    rw [between_afterBody hab hs, ← map_between, map_map]
    exact (map_after_sublist_afterBody _).append_left _

end Marked

end ServerlessTaint
