import ServerlessTaint.Syntax.Query

/-!
# Functions of a module

A function belongs to the module if no definition of a function or class stands around it. The search for such functions
does not go into plain functions and classes, but it goes into asynchronous functions. So it finds the functions that have
no plain function and no class around them (`outerFunctions_eq`), and these are the functions of the module if and only if
no function has only asynchronous ones around it (`module_functions_exact_iff`).
-/

namespace ServerlessTaint.Syntax.Ast

open List

mutual

/-- The nodes of a tree in the order of the text, each with those that stand around it. -/
def placed (around : List Ast) : Ast → List (List Ast × Ast)
  | .node kind span children =>
    (around, .node kind span children) :: placedAll (.node kind span children :: around) children
  | .list items => placedAll around items
  | _ => []

def placedAll (around : List Ast) : List Ast → List (List Ast × Ast)
  | [] => []
  | t :: ts => placed around t ++ placedAll around ts

end

def hasKind (kinds : List Kind) (nodes : List Ast) : Bool := nodes.any fun x => kinds.any fun kind => x.isKind kind

/-- The node is a plain function, and no node of the kinds stands around it. -/
def isOutside (kinds : List Kind) (p : List Ast × Ast) : Bool := p.2.isKind .functionDef && !hasKind kinds p.1

/-- The functions of a tree that no node of the kinds stands around. -/
def functionsOutside (kinds : List Kind) (t : Ast) : List Ast := ((t.placed []).filter (isOutside kinds)).map (·.2)

variable {around : List Ast} {kinds : List Kind} {p : List Ast × Ast}

mutual

theorem subset_of_mem_placed : ∀ {t : Ast} {around : List Ast}, p ∈ t.placed around → around ⊆ p.1
  | .node kind span children, around, h => by
    rcases mem_cons.1 h with rfl | h
    · exact List.Subset.refl _
    · exact fun x hx => subset_of_mem_placedAll h (mem_cons_of_mem _ hx)
  | .list items, around, h => subset_of_mem_placedAll h
  | .absent, _, h | .name _, _, h | .number _, _, h | .literal _, _, h => by cases h

theorem subset_of_mem_placedAll : ∀ {ts : List Ast} {around : List Ast}, p ∈ placedAll around ts → around ⊆ p.1
  | _ :: _, _, h => (mem_append.1 h).elim subset_of_mem_placed subset_of_mem_placedAll

end

/-- Nothing below a node of the kinds is outside. -/
theorem filter_placedAll_of_hasKind (h : hasKind kinds around) (ts : List Ast) :
    (placedAll around ts).filter (isOutside kinds) = [] := by
  rw [filter_eq_nil_iff]
  intro p hp
  obtain ⟨x, hx, hkind⟩ := any_eq_true.1 h
  have hbelow : hasKind kinds p.1 := any_eq_true.2 ⟨x, subset_of_mem_placedAll hp hx, hkind⟩
  simp [isOutside, hbelow]

mutual

/-- The search goes on where no plain function and no class stands around. -/
theorem map_filter_placed : ∀ (t : Ast) {around : List Ast}, hasKind [.functionDef, .classDef] around = false →
    ((t.placed around).filter (isOutside [.functionDef, .classDef])).map (·.2) = t.outerFunctions
  | .node kind span children, around, h => by
    have haround : hasKind [.functionDef, .classDef] (.node kind span children :: around) =
        (kind == .functionDef || kind == .classDef) := by
      change ([Kind.functionDef, Kind.classDef].any _ || hasKind _ around) = _
      simp [h, isKind, kind?]
    rw [placed]
    by_cases hfunction : kind = .functionDef
    · subst hfunction
      rw [filter_cons_of_pos (by simp [isOutside, h, isKind, kind?]), filter_placedAll_of_hasKind haround]
      rfl
    · rw [filter_cons_of_neg (by simp [isOutside, isKind, kind?, hfunction])]
      by_cases hclass : kind = .classDef
      · subst hclass
        rw [filter_placedAll_of_hasKind haround]
        rfl
      · rw [map_filter_placedAll children (haround.trans (by simp [hfunction, hclass])), outerFunctions]
        · exact hfunction
        · exact hclass
  | .list items, around, h => map_filter_placedAll items h
  | .absent, _, _ | .name _, _, _ | .number _, _, _ | .literal _, _, _ => rfl

theorem map_filter_placedAll : ∀ (ts : List Ast) {around : List Ast}, hasKind [.functionDef, .classDef] around = false →
    ((placedAll around ts).filter (isOutside [.functionDef, .classDef])).map (·.2) = outerFunctionsOf ts
  | [], _, _ => rfl
  | t :: ts, around, h => by
    rw [placedAll, filter_append, map_append, map_filter_placed t h, map_filter_placedAll ts h]
    rfl

end

/-- **What the search finds:** the functions that have no plain function and no class around them. -/
theorem outerFunctions_eq (t : Ast) : t.outerFunctions = functionsOutside [.functionDef, .classDef] t :=
  (map_filter_placed t rfl).symm

/-- **When the functions of a module are found.** The search finds the functions of a module, once each and in their order,
and no others if and only if each function that stands inside an asynchronous one stands inside a plain function or a class
as well. -/
theorem module_functions_exact_iff (program : Ast) :
    program.outerFunctions = functionsOutside [.functionDef, .asyncFunctionDef, .classDef] program ↔
      ∀ p ∈ program.placed [], p.2.isKind .functionDef = true → hasKind [.asyncFunctionDef] p.1 = true →
        hasKind [.functionDef, .classDef] p.1 = true := by
  have hkinds (nodes : List Ast) : hasKind [.functionDef, .asyncFunctionDef, .classDef] nodes =
      (hasKind [.asyncFunctionDef] nodes || hasKind [.functionDef, .classDef] nodes) := by
    rw [Bool.eq_iff_iff, Bool.or_eq_true]
    simp only [hasKind, List.any_eq_true]
    grind
  have hfilter : (program.placed []).filter (isOutside [.functionDef, .asyncFunctionDef, .classDef]) =
      ((program.placed []).filter (isOutside [.functionDef, .classDef])).filter
        fun p => !hasKind [.asyncFunctionDef] p.1 := by
    rw [List.filter_filter]
    refine List.filter_congr fun p _ => ?_
    rw [isOutside, isOutside, hkinds, Bool.not_or, Bool.and_left_comm]
  rw [outerFunctions_eq, functionsOutside, functionsOutside, hfilter]
  constructor
  · intro h p hp hfunction hasync
    have hlength := congrArg List.length h
    rw [List.length_map, List.length_map, eq_comm, List.length_filter_eq_length_iff] at hlength
    cases hno : hasKind [.functionDef, .classDef] p.1 with
    | true => rfl
    | false =>
      have hsync := hlength p (List.mem_filter.2 ⟨hp, by rw [isOutside, hfunction, hno]; rfl⟩)
      rw [hasync] at hsync
      cases hsync
  · intro h
    refine congrArg (List.map _) (List.filter_eq_self.2 fun p hp => ?_).symm
    obtain ⟨hp, houtside⟩ := List.mem_filter.1 hp
    obtain ⟨hfunction, hno⟩ := Bool.and_eq_true_iff.1 houtside
    cases hasync : hasKind [.asyncFunctionDef] p.1 with
    | false => rfl
    | true =>
      rw [h p hp hfunction hasync] at hno
      cases hno

end ServerlessTaint.Syntax.Ast
