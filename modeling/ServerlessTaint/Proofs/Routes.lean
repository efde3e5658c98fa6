import ServerlessTaint.Syntax.Ast

/-!
# Routes in syntax trees

A route leads from a tree down to one of its parts, by the numbers of the children and items on the
way. Trees that differ only in the positions of their nodes have the same routes.
-/

namespace ServerlessTaint

/-- The items strictly between two numbers. -/
def between {α : Type} (a b : Nat) (xs : List α) : List α := (xs.take b).drop (a + 1)

theorem map_between {α β : Type} (a b : Nat) (xs : List α) (f : α → β) :
    (between a b xs).map f = between a b (xs.map f) := by
  simp [between]

namespace Syntax.Ast

/-- The children of a node or the items of a list. -/
def parts : Ast → List Ast
  | .node _ _ children => children
  | .list items => items
  | _ => []

/-- The tree to which a route leads. -/
def at? : List Nat → Ast → Option Ast
  | [], t => some t
  | i :: route, t =>
    match t.parts[i]? with
    | some part => part.at? route
    | none => none

/-- Statements stand right after the one to which a route leads, in the same list. -/
def Follows (t : Ast) (route : List Nat) (statements : List Ast) : Prop :=
  ∃ above i whole, route = above ++ [i] ∧ t.at? above = some whole ∧
    statements <+: whole.parts.drop (i + 1)

/-- One tree is a part of another, at any depth. -/
inductive Within (s : Ast) : Ast → Prop
  | refl : Within s s
  | part {t part : Ast} : part ∈ t.parts → Within s part → Within s t

theorem at?_append (route more : List Nat) (t : Ast) :
    t.at? (route ++ more) = (t.at? route).bind (at? more) := by
  induction route generalizing t with
  | nil => rfl
  | cons i route ih =>
    simp only [List.cons_append, at?]
    split
    · exact ih _
    · rfl

/-! ## Trees up to positions -/

mutual

/-- The tree without the positions of its nodes. -/
def unplaced : Ast → Ast
  | .node kind _ children => .node kind none (unplacedAll children)
  | .list items => .list (unplacedAll items)
  | t => t

/-- Trees without the positions of their nodes. -/
def unplacedAll : List Ast → List Ast
  | [] => []
  | t :: ts => unplaced t :: unplacedAll ts

end

theorem unplacedAll_eq_map (ts : List Ast) : unplacedAll ts = ts.map unplaced := by
  induction ts with
  | nil => rfl
  | cons t ts ih => simp [unplacedAll, ih]

theorem parts_unplaced (t : Ast) : t.unplaced.parts = t.parts.map unplaced := by
  cases t <;> simp [unplaced, parts, unplacedAll_eq_map]

theorem at?_unplaced (route : List Nat) (t : Ast) :
    t.unplaced.at? route = (t.at? route).map unplaced := by
  induction route generalizing t with
  | nil => rfl
  | cons i route ih =>
    simp only [at?, parts_unplaced, List.getElem?_map]
    cases t.parts[i]? with
    | none => rfl
    | some part => exact ih part

/-- Statements stand between those to which two routes lead, in this order and up to positions,
perhaps with others among them. The second route may lead to the end of the list. -/
def StandBetween (t : Ast) (first last : List Nat) (statements : List Ast) : Prop :=
  ∃ above a b whole, first = above ++ [a] ∧ last = above ++ [b] ∧ a < b ∧
    t.at? above = some whole ∧ a < whole.parts.length ∧
    statements.Sublist ((between a b whole.parts).map unplaced)

theorem StandBetween.of_unplaced {t t' : Ast} {first last : List Nat} {statements : List Ast}
    (h : t.StandBetween first last statements) (heq : t'.unplaced = t.unplaced) :
    t'.StandBetween first last statements := by
  obtain ⟨above, a, b, whole, hfirst, hlast, hab, hat, ha, hsub⟩ := h
  have hat' : t'.unplaced.at? above = some whole.unplaced := by rw [heq, at?_unplaced, hat]; rfl
  rw [at?_unplaced, Option.map_eq_some_iff] at hat'
  obtain ⟨whole', hat', hwhole⟩ := hat'
  have hparts : whole'.parts.map unplaced = whole.parts.map unplaced := by
    rw [← parts_unplaced, ← parts_unplaced, hwhole]
  have hlength : whole'.parts.length = whole.parts.length := by simpa using congrArg List.length hparts
  refine ⟨above, a, b, whole', hfirst, hlast, hab, hat', by omega, ?_⟩
  rwa [map_between, hparts, ← map_between]

/-- The name of the attribute that a call calls. -/
def attribute? : Ast → Option String
  | .node .call _ (func :: _) => func.nameOf? .attr
  | _ => none

theorem exists_of_attribute? {call : Ast} {api : String} (h : call.attribute? = some api) :
    ∃ span func inputs, call = .node .call span (func :: inputs) ∧ func.nameOf? .attr = some api := by
  unfold attribute? at h
  split at h
  · exact ⟨_, _, _, rfl, h⟩
  · cases h

theorem attribute?_eq_none {call : Ast} (h : ¬∃ span func inputs, call = .node .call span (func :: inputs)) :
    call.attribute? = none := by
  unfold attribute?
  split
  · exact absurd ⟨_, _, _, rfl⟩ h
  · rfl

end Syntax.Ast

end ServerlessTaint
