import ServerlessTaint.Proofs.Fault
import ServerlessTaint.Proofs.Routes
import ServerlessTaint.TypeHints

/-!
# Hints and the programs that get them

Hints change a program at its assignments only, so taking them away gives the program back if and only if
it does so at each assignment (`withoutHints_addHints`). An assignment gets a hint from the line of its
value alone: also one with several targets, of which only the first is kept, and also one that makes no
client object but stands on the line of one that does. Without these two cases hints do no harm
(`hints_removable_iff`).
-/

namespace ServerlessTaint

open List
open Syntax (Ast)

namespace Syntax.Ast

mutual

/-- The assignments of a tree, in the order of the text. -/
def assignments : Ast → List Ast
  | .node kind span children =>
    if kind = .assign then [.node kind span children] else assignmentsOf children
  | .list items => assignmentsOf items
  | _ => []

def assignmentsOf : List Ast → List Ast
  | [] => []
  | t :: ts => assignments t ++ assignmentsOf ts

end

def isList : Ast → Bool
  | .list _ => true
  | _ => false

mutual

/-- Lists stand in the fields of nodes only, as they do in every tree that is read from a text. -/
def isFormed : Ast → Bool
  | .node _ _ children => areFormed children
  | .list items => items.all (!·.isList) && areFormed items
  | _ => true

/-- Lists in trees stand in the fields of nodes only. -/
def areFormed : List Ast → Bool
  | [] => true
  | t :: ts => t.isFormed && areFormed ts

end

/-! ## Assignments are among the nodes of a program -/

def topNodes : Ast → List Ast
  | .node kind span children => [.node kind span children]
  | .list items => items.filter isNode
  | _ => []

theorem subnodes_node (kind : Kind) (span : Option Span) (children : List Ast) :
    (Ast.node kind span children).subnodes = children.flatMap topNodes := rfl

theorem height_le_heightList {t : Ast} {ts : List Ast} (h : t ∈ ts) : t.height ≤ heightList ts := by
  induction ts with
  | nil => cases h
  | cons u us ih =>
    rcases mem_cons.1 h with rfl | h
    · exact Nat.le_max_left ..
    · exact Nat.le_trans (ih h) (Nat.le_max_right ..)

theorem areFormed_iff {ts : List Ast} : areFormed ts ↔ ∀ t ∈ ts, t.isFormed := by
  induction ts with
  | nil => simp [areFormed]
  | cons t ts ih => simp [areFormed, ih]

variable {x t : Ast}

/-- A node within a tree stands at some depth below it, or below one of its items. -/
theorem Within.exists_depth (hx : Within x t) (h : t.isFormed) (hnode : x.isNode) :
    ∃ u ∈ t.topNodes, u.height ≤ t.height ∧ ∃ d < u.height, x ∈ nodesAt d u := by
  induction hx with
  | refl =>
    cases x with
    | node kind span children =>
      exact ⟨_, mem_singleton_self _, Nat.le_refl _, 0, by simp [height], by simp [nodesAt, isNode]⟩
    | _ => cases hnode
  | @part t part hpart _ ih =>
    cases t with
    | node kind span children =>
      obtain ⟨u, hu, hle, d, hd, hmem⟩ := ih (areFormed_iff.1 h part hpart)
      have hheight : part.height ≤ heightList children := height_le_heightList hpart
      refine ⟨_, mem_singleton_self _, Nat.le_refl _, d + 1, by rw [height]; omega, ?_⟩
      rw [nodesAt, subnodes_node, mem_flatMap]
      exact ⟨u, mem_flatMap.2 ⟨part, hpart, hu⟩, hmem⟩
    | list items =>
      obtain ⟨hflat, hitems⟩ := Bool.and_eq_true_iff.1 h
      obtain ⟨u, hu, -, d, hd, hmem⟩ := ih (areFormed_iff.1 hitems part hpart)
      have hflat : part.isList = false := by simpa using all_eq_true.1 hflat part hpart
      have htop : u = part ∧ part.isNode := by
        cases part with
        | node => exact ⟨mem_singleton.1 hu, rfl⟩
        | list => cases hflat
        | _ => cases hu
      obtain ⟨rfl, hpartNode⟩ := htop
      exact ⟨u, mem_filter.2 ⟨hpart, hpartNode⟩, height_le_heightList hpart, d, hd, hmem⟩
    | _ => cases hpart

/-- A walk meets the nodes within a tree. -/
theorem Within.mem_walk (hx : Within x t) (h : t.isFormed) (hnode : t.isNode) (hxnode : x.isNode) :
    x ∈ t.walk := by
  obtain ⟨u, hu, -, d, hd, hmem⟩ := hx.exists_depth h hxnode
  obtain rfl : u = t := by
    cases t with
    | node => exact mem_singleton.1 hu
    | _ => cases hnode
  exact mem_flatMap.2 ⟨d, mem_range.2 hd, hmem⟩

mutual

theorem within_of_mem_assignments : ∀ {t x : Ast}, x ∈ t.assignments → x.isKind .assign ∧ Within x t
  | .node kind _ children, x, hx => by
    rw [assignments] at hx
    split at hx
    · rename_i hkind
      obtain rfl := mem_singleton.1 hx
      exact ⟨by simp [isKind, kind?, hkind], .refl⟩
    · obtain ⟨child, hchild, hkind, hwithin⟩ := within_of_mem_assignmentsOf hx
      exact ⟨hkind, .part hchild hwithin⟩
  | .list _, _, hx => by
    obtain ⟨item, hitem, hkind, hwithin⟩ := within_of_mem_assignmentsOf hx
    exact ⟨hkind, .part hitem hwithin⟩
  | .absent, _, hx | .name _, _, hx | .number _, _, hx | .literal _, _, hx => by cases hx

theorem within_of_mem_assignmentsOf : ∀ {ts : List Ast} {x : Ast}, x ∈ assignmentsOf ts →
    ∃ t ∈ ts, x.isKind .assign ∧ Within x t
  | [], _, hx => by cases hx
  | t :: ts, x, hx => by
    rcases mem_append.1 hx with hx | hx
    · exact ⟨t, mem_cons_self, within_of_mem_assignments hx⟩
    · obtain ⟨u, hu, hwithin⟩ := within_of_mem_assignmentsOf hx
      exact ⟨u, mem_cons_of_mem _ hu, hwithin⟩

end

/-- The assignments of a program are among those that are looked through for client objects. -/
theorem mem_walkKind_of_mem_assignments (hnode : t.isNode) (hformed : t.isFormed) (hx : x ∈ t.assignments) :
    x ∈ t.walkKind .assign := by
  obtain ⟨hkind, hwithin⟩ := within_of_mem_assignments hx
  have hxnode : x.isNode := by
    cases x with
    | node => rfl
    | _ => cases hkind
  exact mem_filter.2 ⟨hwithin.mem_walk hformed hnode hxnode, hkind⟩

end Syntax.Ast

namespace TypeHints

def unhinted : Ast → Ast
  | .node .annAssign span [target, _, value, _] => .node .assign span [.list [target], value]
  | t => t

mutual

/-- A program with hints, where its assignments are those of another one, without them. -/
def withoutHints : Ast → Ast → Ast
  | .node kind _ children, .node kind' span children' =>
    if kind = .assign then unhinted (.node kind' span children')
    else .node kind' span (withoutHintsAll children children')
  | .list items, .list items' => .list (withoutHintsAll items items')
  | _, t => t

def withoutHintsAll : List Ast → List Ast → List Ast
  | t :: ts, t' :: ts' => withoutHints t t' :: withoutHintsAll ts ts'
  | _, ts' => ts'

end

/-- The type that an assignment gets as a hint: that of the first client object on the line of its
value. -/
def hint? (clients : List Client) : Ast → Option String
  | .node .assign _ [.list (_ :: _), value] =>
    (clients.find? fun client => value.line? == some client.line) >>= Client.typeName?
  | _ => none

theorem addHints_node (clients : List Client) (kind : Syntax.Kind) (span : Option Syntax.Span)
    (children : List Ast) : addHints clients (.node kind span children) =
      if kind = .assign then hinted clients (.node kind span children)
      else .node kind span (addHintsAll clients children) := by
  split
  · rename_i hkind
    subst hkind
    rfl
  · rename_i hkind
    exact addHints.eq_2 clients kind span children hkind

/-- An assignment stays as it is or gets a hint. -/
theorem hinted_cases (clients : List Client) (x : Ast) :
    (hint? clients x = none ∧ hinted clients x = x) ∨
      ∃ span target more value type, x = .node .assign span [.list (target :: more), value] ∧
        hint? clients x = some type ∧
        hinted clients x = .node .annAssign span [target, .node .name none [.name type], value, .number 1] := by
  unfold hinted
  split
  · rename_i span target more value
    rw [hint?]
    cases clients.find? fun client => value.line? == some client.line with
    | none => exact .inl ⟨rfl, rfl⟩
    | some client =>
      cases htype : client.typeName? with
      | none => exact .inl ⟨by simpa using htype, by simp [htype]⟩
      | some type =>
        exact .inr ⟨span, target, more, value, type, rfl, by simpa using htype, by simp [htype]⟩
  · rename_i hother
    refine .inl ⟨?_, rfl⟩
    unfold hint?
    split
    · exact absurd rfl (hother _ _ _ _)
    · rfl

variable {x : Ast} {clients : List Client}

/-- Taking the hint of an assignment away gives it back if it has one target. -/
theorem unhinted_hinted_iff (hx : x.isKind .assign) :
    unhinted (hinted clients x) = x ↔ ((hint? clients x).isSome → (x.itemsOf .targets).length = 1) := by
  rcases hinted_cases clients x with ⟨hnone, hsame⟩ | ⟨span, target, more, value, type, rfl, hsome, hhint⟩
  · have hkept : unhinted x = x := by
      unfold unhinted
      split
      · cases hx
      · rfl
    simp [hnone, hsame, hkept]
  · have htargets : (Ast.node .assign span [.list (target :: more), value]).itemsOf .targets =
        target :: more := rfl
    rw [hhint, hsome, htargets]
    simp [unhinted, eq_comm]

/-- The assignment gets a hint. -/
theorem hinted_ne_iff : hinted clients x ≠ x ↔ (hint? clients x).isSome := by
  rcases hinted_cases clients x with ⟨hnone, hsame⟩ | ⟨span, target, more, value, type, rfl, hsome, hhint⟩
  · simp [hnone, hsame]
  · simp [hsome, hhint]

theorem withoutHints_hinted (clients : List Client) (hx : x.isKind .assign) :
    withoutHints x (hinted clients x) = unhinted (hinted clients x) := by
  rcases hinted_cases clients x with ⟨-, hsame⟩ | ⟨span, target, more, value, type, rfl, -, hhint⟩
  · rw [hsame]
    cases x with
    | node kind span children =>
      have hkind : kind = .assign := by simpa [Ast.isKind, Ast.kind?] using hx
      simp [withoutHints, hkind]
    | _ => cases hx
  · rw [hhint]
    simp [withoutHints]

mutual

/-- Taking the hints of a program away gives it back if it does so at each assignment. -/
theorem withoutHints_addHints (clients : List Client) : ∀ t : Ast,
    withoutHints t (addHints clients t) = t ↔ ∀ x ∈ t.assignments, unhinted (hinted clients x) = x
  | .node kind span children => by
    rw [addHints_node, Ast.assignments]
    split
    · rename_i hkind
      rw [withoutHints_hinted clients (by simp [Ast.isKind, Ast.kind?, hkind])]
      simp
    · rename_i hkind
      simp [withoutHints, hkind, withoutHintsAll_addHintsAll clients children]
  | .list items => by
    simp [addHints, withoutHints, Ast.assignments, withoutHintsAll_addHintsAll clients items]
  | .absent | .name _ | .number _ | .literal _ => by simp [addHints, withoutHints, Ast.assignments]

theorem withoutHintsAll_addHintsAll (clients : List Client) : ∀ ts : List Ast,
    withoutHintsAll ts (addHintsAll clients ts) = ts ↔
      ∀ x ∈ Ast.assignmentsOf ts, unhinted (hinted clients x) = x
  | [] => by simp [addHintsAll, withoutHintsAll, Ast.assignmentsOf]
  | t :: ts => by
    simp [addHintsAll, withoutHintsAll, Ast.assignmentsOf, withoutHints_addHints clients t,
      withoutHintsAll_addHintsAll clients ts, or_imp, forall_and]

end

/-! ## Records -/

/-- The client object that an assignment makes is recorded. -/
theorem mem_of_madeBy {mode : ImportMode} {program : Ast} {client : Client}
    (hmade : Client.madeBy mode program = .ok clients) (hx : x ∈ program.walkKind .assign)
    (hclient : Client.ofAssignment? mode x = .ok (some client)) : client ∈ clients := by
  obtain ⟨found, hfound, h⟩ := bind_eq_ok_iff.1 hmade
  cases h
  exact mem_filterMap.2 ⟨some client, mem_of_mapM hfound hx hclient, rfl⟩

/-- Hints can be taken away again, and stand only at assignments that are recorded, if and only if every
assignment on the line of a client object with a type has one target and makes a client object
itself. -/
theorem hints_removable_iff {mode : ImportMode} {program : Ast}
    (hnode : program.isNode = true) (hformed : program.isFormed = true)
    (hmade : Client.madeBy mode program = .ok clients) :
    (withoutHints program (addHints clients program) = program ∧
      ∀ x ∈ program.assignments, hinted clients x ≠ x →
        ∃ client ∈ clients, Client.ofAssignment? mode x = .ok (some client)) ↔
    ∀ x ∈ program.assignments, (hint? clients x).isSome →
      (x.itemsOf .targets).length = 1 ∧ ∃ client, Client.ofAssignment? mode x = .ok (some client) := by
  rw [withoutHints_addHints]
  constructor
  · rintro ⟨hback, hrecorded⟩ x hx hhint
    obtain ⟨client, -, hclient⟩ := hrecorded x hx (hinted_ne_iff.2 hhint)
    exact ⟨(unhinted_hinted_iff (Ast.within_of_mem_assignments hx).1).1 (hback x hx) hhint, client, hclient⟩
  · intro h
    constructor
    · intro x hx
      exact (unhinted_hinted_iff (Ast.within_of_mem_assignments hx).1).2 fun hhint => (h x hx hhint).1
    · intro x hx hchanged
      obtain ⟨-, client, hclient⟩ := h x hx (hinted_ne_iff.1 hchanged)
      have hwalk := Ast.mem_walkKind_of_mem_assignments hnode hformed hx
      exact ⟨client, mem_of_madeBy hmade hwalk hclient, hclient⟩

/-- A program that assigns a client object to variables. -/
def storing (names : List String) : Ast :=
  .node .module none [.list [.node .assign none
    [.list (names.map fun name => .node .name none [.name name]),
      .node .call (some ⟨⟨1, 0⟩, ⟨1, 9⟩⟩)
        [.node .attributeRef none [.node .name none [.name Client.moduleName], .name "client"],
          .list [.node .constant none [.literal (.str "s3")]], .list []]]]]

def stored (name : String) : Client := ⟨1, name, .client, .literal (.str "s3")⟩

theorem hint_removable_from_one_target_only :
    (withoutHints (storing ["a"]) (addHints [stored "a"] (storing ["a"])) = storing ["a"] ∧
      ∀ x ∈ (storing ["a"]).assignments, hinted [stored "a"] x ≠ x →
        ∃ client ∈ [stored "a"], Client.ofAssignment? .whole x = .ok (some client)) ∧
    ¬ (withoutHints (storing ["a", "b"]) (addHints [stored "a"] (storing ["a", "b"])) = storing ["a", "b"] ∧
      ∀ x ∈ (storing ["a", "b"]).assignments, hinted [stored "a"] x ≠ x →
        ∃ client ∈ [stored "a"], Client.ofAssignment? .whole x = .ok (some client)) := by
  have hone : Client.madeBy .whole (storing ["a"]) = .ok [stored "a"] := rfl
  have htwo : Client.madeBy .whole (storing ["a", "b"]) = .ok [stored "a"] := rfl
  constructor
  · refine (hints_removable_iff rfl rfl hone).2 fun x hx _ => ?_
    obtain rfl := List.mem_singleton.1 hx
    exact ⟨rfl, stored "a", rfl⟩
  · intro h
    have htargets := (hints_removable_iff rfl rfl htwo).1 h _ (List.mem_singleton.2 rfl) rfl
    exact absurd htargets.1 (by decide)

end TypeHints

end ServerlessTaint
