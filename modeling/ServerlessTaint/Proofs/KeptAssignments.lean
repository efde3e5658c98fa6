import Mathlib.Data.List.Shortlex
import ServerlessTaint.Proofs.ConformingTrees

/-!
# Programs with some assignments kept

`keeping` keeps some assignments of a program and puts an empty statement in the place of every other one. There are no
statements below an assignment, so a walk over what remains meets the kept assignments in the same order
(`walkKind_keeping`). A look-up of a variable goes through the assignments level by level. If those are kept whose
first target is the variable (`onlyAssigning`), the values are those that were assigned before, without the faults of
first targets that are not variables (`assignedTo_onlyAssigning`).
-/

namespace ServerlessTaint.Syntax.Ast

open List

/-- The first target and the value of an assignment, if this target is a variable. -/
def assignment? : Ast → Option (String × Ast)
  | .node .assign _ [.list (.node .name _ [.name id] :: _), value] => some (id, value)
  | _ => none

def firstTarget? (tree : Ast) : Option String := tree.assignment?.map (·.1)

/-- What an assignment gives a variable: its value, nothing if another variable is the first target, and a fault if no
variable is. -/
def valueFor (name : String) : Option (String × Ast) → Option (Except Fault Ast)
  | some (id, value) => if id = name then some (.ok value) else none
  | none => some (.error .missingAttribute)

theorem valueFor_self (name : String) (value : Ast) : valueFor name (some (name, value)) = some (.ok value) :=
  if_pos rfl

theorem valueFor_of_ne {name id : String} (h : id ≠ name) (value : Ast) : valueFor name (some (id, value)) = none :=
  if_neg h

variable {x t u : Ast} {s : FieldSort} {name : String}

theorem assignment?_of_valueFor {value : Ast} (h : valueFor name x.assignment? = some (.ok value)) :
    x.assignment? = some (name, value) := by
  cases hx : x.assignment? with
  | none => rw [hx] at h; cases h
  | some pair =>
    obtain ⟨id, value'⟩ := pair
    rw [hx] at h
    by_cases hid : id = name
    · subst hid
      rw [valueFor_self] at h
      cases h
      rfl
    · rw [valueFor_of_ne hid] at h
      cases h

theorem assignment?_eq_none (h : ∀ span place id more value,
    x ≠ .node .assign span [.list (.node .name place [.name id] :: more), value]) : x.assignment? = none := by
  unfold assignment?
  split
  · exact absurd rfl (h _ _ _ _ _)
  · rfl

theorem assignedTo_eq (name : String) (t : Ast) :
    t.assignedTo (.str name) = (t.walkKind .assign).filterMap fun x => valueFor name x.assignment? := by
  refine congrArg (filterMap · _) (funext fun x => ?_)
  split
  · rename_i span place id more value
    have hname : (Value.str name).isText id = true ↔ id = name := by
      rw [Value.isText, beq_iff_eq, Value.text?, Option.some.injEq, eq_comm]
    simp [assignment?, valueFor, hname]
  · rename_i hother
    rw [assignment?_eq_none hother]
    rfl

/-- Without its fault, an assignment gives its value if the variable is its first target. -/
theorem filter_valueFor (name : String) (x : Ast) :
    (valueFor name x.assignment?).filter Except.isOk =
      if x.firstTarget? = some name then valueFor name x.assignment? else none := by
  rw [firstTarget?]
  cases x.assignment? with
  | none => rfl
  | some pair =>
    obtain ⟨id, value⟩ := pair
    by_cases h : id = name
    · subst h
      rw [Option.map_some, if_pos rfl, valueFor_self]
      rfl
    · rw [valueFor_of_ne h, ite_self]
      rfl

mutual

/-- The tree with an empty statement in the place of every assignment whose first target is not the variable. -/
def onlyAssigning (name : String) : Ast → Ast
  | .node kind span children =>
    if kind = .assign then
      if firstTarget? (.node kind span children) = some name then .node kind span children
      else .node .passStmt span []
    else .node kind span (onlyAssigningAll name children)
  | .list items => .list (onlyAssigningAll name items)
  | t => t

/-- Trees with empty statements in the place of other assignments. -/
def onlyAssigningAll (name : String) : List Ast → List Ast
  | [] => []
  | t :: ts => onlyAssigning name t :: onlyAssigningAll name ts

end

/-- The tree with an empty statement in the place of every assignment that is not to be kept. -/
def keeping (keep : Ast → Bool) : Ast → Ast := changing fun x => if keep x then x else .node .passStmt x.span? []

mutual

theorem onlyAssigning_eq_keeping (name : String) :
    ∀ t : Ast, t.onlyAssigning name = t.keeping fun x => decide (x.firstTarget? = some name)
  | .node kind span children => by
    rw [onlyAssigning, keeping, changing, onlyAssigningAll_eq_map, changingAll_eq_map]
    simp [keeping, span?]
  | .list items => by
    rw [onlyAssigning, keeping, changing, onlyAssigningAll_eq_map, changingAll_eq_map]
    rfl
  | .absent | .name _ | .number _ | .literal _ => rfl

theorem onlyAssigningAll_eq_map (name : String) : ∀ ts : List Ast,
    onlyAssigningAll name ts = ts.map (keeping fun x => decide (x.firstTarget? = some name))
  | [] => rfl
  | t :: ts => by rw [onlyAssigningAll, map_cons, onlyAssigning_eq_keeping, onlyAssigningAll_eq_map]

end

section

variable {keep : Ast → Bool} {kind : Kind} {span : Option Span} {children : List Ast}

theorem keeping_of_keep (h : keep (.node .assign span children)) :
    (Ast.node .assign span children).keeping keep = .node .assign span children := by
  rw [keeping, changing, if_pos rfl, if_pos h]

theorem keeping_of_not_keep (h : ¬ keep (.node .assign span children)) :
    (Ast.node .assign span children).keeping keep = .node .passStmt span [] := by
  rw [keeping, changing, if_pos rfl, if_neg h]
  rfl

theorem keeping_of_kind (h : kind ≠ .assign) :
    (Ast.node kind span children).keeping keep = .node kind span (children.map (keeping keep)) := by
  rw [keeping, changing, if_neg h, changingAll_eq_map]

theorem keeping_list (items : List Ast) : (Ast.list items).keeping keep = .list (items.map (keeping keep)) := by
  rw [keeping, changing, changingAll_eq_map]

theorem isNode_keeping (t : Ast) : (t.keeping keep).isNode = t.isNode := by
  cases t with
  | node kind span children =>
    rw [keeping, changing]
    split
    · split <;> rfl
    · rfl
  | _ => rfl

theorem topNodes_of_isNode {t : Ast} (h : t.isNode) : t.topNodes = [t] := by
  cases t with
  | node => rfl
  | _ => cases h

theorem topNodes_keeping (t : Ast) : (t.keeping keep).topNodes = t.topNodes.map (keeping keep) := by
  cases t with
  | node kind span children => exact topNodes_of_isNode (isNode_keeping _)
  | list items =>
    rw [keeping_list, topNodes, topNodes, filter_map]
    exact congrArg _ (filter_congr fun t _ => isNode_keeping t)
  | _ => rfl

theorem subnodes_keeping (h : kind ≠ .assign) :
    ((Ast.node kind span children).keeping keep).subnodes =
      (Ast.node kind span children).subnodes.map (keeping keep) := by
  rw [keeping_of_kind h, subnodes_node, subnodes_node, flatMap_map, map_flatMap]
  exact congrArg (children.flatMap ·) (funext topNodes_keeping)

end

/-! ## The grammar -/

theorem isNode_of_conforms_one {cls : NodeClass} (h : t.conforms (.one cls)) : t.isNode := by
  cases t with
  | node => rfl
  | _ => cases h

theorem takes_passStmt (h : s.takes .assign) : s.takes .passStmt := by
  cases s with
  | one cls | optional cls => exact h
  | _ => cases h

/-- What remains of a tree is of the same sort. -/
theorem conforms_keeping (keep : Ast → Bool) (h : t.conforms s) : (t.keeping keep).conforms s := by
  refine (conforms_changing_iff (P := fun _ => True) (fun x s hx hconforms => iff_of_true ?_ trivial) h).2 fun _ _ => trivial
  split
  · exact hconforms
  · cases x with
    | node kind span children =>
      obtain rfl : kind = .assign := by simpa [isKind, kind?] using hx
      exact Bool.and_eq_true_iff.2 ⟨takes_passStmt (Bool.and_eq_true_iff.1 hconforms).1, rfl⟩
    | _ => cases hx

theorem conforms_onlyAssigning (name : String) (t : Ast) {s : FieldSort} (h : t.conforms s) :
    (t.onlyAssigning name).conforms s := by
  rw [onlyAssigning_eq_keeping]
  exact conforms_keeping _ h

/-! ## Walks -/

theorem height_le_of_mem_topNodes (h : u ∈ t.topNodes) : u.height ≤ t.height := by
  cases t with
  | node => exact Nat.le_of_eq (congrArg height (mem_singleton.1 h))
  | list items => exact height_le_heightList (mem_filter.1 h).1
  | _ => cases h

theorem height_lt_of_mem_subnodes (h : u ∈ t.subnodes) : u.height < t.height := by
  cases t with
  | node kind span children =>
    rw [subnodes_node, mem_flatMap] at h
    obtain ⟨child, hchild, hu⟩ := h
    have hlow : u.height ≤ child.height := height_le_of_mem_topNodes hu
    have hchildren : child.height ≤ heightList children := height_le_heightList hchild
    rw [height]
    omega
  | _ => cases h

theorem nodesAt_of_height_le {d : Nat} (h : t.height ≤ d) : nodesAt d t = [] := by
  induction d generalizing t with
  | zero =>
    cases t with
    | node => simp [height] at h
    | _ => rfl
  | succ d ih =>
    rw [nodesAt, flatMap_eq_nil_iff]
    intro u hu
    have hlow := height_lt_of_mem_subnodes hu
    exact ih (by omega)

/-- A walk may go on below the lowest node. -/
theorem walk_eq_flatMap {n : Nat} (h : t.height ≤ n) : t.walk = (range n).flatMap fun d => nodesAt d t := by
  obtain ⟨more, rfl⟩ := Nat.exists_eq_add_of_le h
  rw [walk, range_add, flatMap_append, flatMap_map]
  have hmore : ((range more).flatMap fun d => nodesAt (t.height + d) t) = [] :=
    flatMap_eq_nil_iff.2 fun d _ => nodesAt_of_height_le (Nat.le_add_right ..)
  rw [hmore, append_nil]

theorem exists_sort_of_mem_subnodes (h : t.conforms s) (hu : u ∈ t.subnodes) : u.isNode ∧ ∃ s', u.conforms s' := by
  cases t with
  | node kind span children =>
    obtain ⟨child, hchild, hu⟩ := mem_flatMap.1 hu
    obtain ⟨s', hu', -⟩ := (Within.part hchild (within_of_mem_topNodes hu)).exists_sort h
    refine ⟨?_, s', hu'⟩
    cases child with
    | node => rw [mem_singleton.1 hu]; rfl
    | list items => exact (mem_filter.1 hu).2
    | _ => cases hu
  | _ => cases hu

/-- The tree is a statement. -/
def isStatement : Ast → Bool
  | .node kind _ _ => kind.cls = .statement
  | _ => false

theorem isStatement_of_isKind {kind : Kind} (hkind : kind.cls = .statement) (h : x.isKind kind) : x.isStatement := by
  cases x with
  | node kind' span children =>
    obtain rfl : kind' = kind := by simpa [isKind, kind?] using h
    exact decide_eq_true hkind
  | _ => cases h

theorem isKind_of_firstTarget? (h : x.firstTarget? = some name) : x.isKind .assign := by
  unfold firstTarget? assignment? at h
  split at h
  · rfl
  · cases h

/-- There are no statements below an assignment. -/
theorem filterMap_nodesAt_succ_assign {β : Type} {f : Ast → Option β} {span : Option Span} {children : List Ast}
    (hf : ∀ x, (f x).isSome → x.isStatement) (h : (Ast.node .assign span children).conforms s) (d : Nat) :
    (nodesAt (d + 1) (.node .assign span children)).filterMap f = [] := by
  refine filterMap_eq_nil_iff.2 fun x hx => Option.not_isSome_iff_eq_none.1 fun hsome => ?_
  rw [nodesAt, subnodes_node, mem_flatMap] at hx
  obtain ⟨u, hu, hx⟩ := hx
  obtain ⟨child, hchild, hu⟩ := mem_flatMap.1 hu
  obtain ⟨sort, hsort, hconforms⟩ := exists_sort_of_fits (Bool.and_eq_true_iff.1 h).2 hchild
  have hinner : ∀ s ∈ Kind.sorts .assign, s.isInner := by decide
  obtain ⟨hnode, hwithin⟩ := within_of_mem_nodesAt hx
  cases x with
  | node kind span' children' =>
    have hcls : kind.cls.isInner = true :=
      (hwithin.trans (within_of_mem_topNodes hu)).isInner hconforms (hinner sort hsort)
    have hstatement : kind.cls = .statement := of_decide_eq_true (hf _ hsome)
    rw [hstatement] at hcls
    cases hcls
  | _ => cases hnode

section

variable {β : Type} {keep : Ast → Bool} {f g : Ast → Option β} (hf : ∀ x, (f x).isSome → x.isStatement = true)
  (hg : ∀ x, (g x).isSome → x.isStatement = true)
  (hfg : ∀ x s, x.conforms s = true → x.isNode = true → f (x.keeping keep) = g x)

include hf hg hfg

/-- What is taken from the statements at a depth of what remains can be taken from those at this depth of the tree, if
this holds of each statement alone. -/
theorem filterMap_nodesAt_keeping (h : t.conforms s) (hnode : t.isNode) (d : Nat) :
    (nodesAt d (t.keeping keep)).filterMap f = (nodesAt d t).filterMap g := by
  induction d generalizing t s with
  | zero =>
    rw [nodesAt, nodesAt, isNode_keeping, if_pos hnode, if_pos hnode, filterMap_cons, filterMap_cons,
      hfg t s h hnode, filterMap_nil, filterMap_nil]
  | succ d ih =>
    cases t with
    | node kind span children =>
      by_cases hkind : kind = .assign
      · subst hkind
        rw [filterMap_nodesAt_succ_assign hg h]
        by_cases hkeep : keep (.node .assign span children) = true
        · rw [keeping_of_keep hkeep, filterMap_nodesAt_succ_assign hf h]
        · rw [keeping_of_not_keep hkeep]
          rfl
      · rw [nodesAt, nodesAt, subnodes_keeping hkind, flatMap_map, filterMap_flatMap, filterMap_flatMap,
          flatMap_def, flatMap_def]
        refine congrArg flatten (map_congr_left fun u hu => ?_)
        obtain ⟨hunode, s', hu'⟩ := exists_sort_of_mem_subnodes h hu
        exact ih hu' hunode
    | _ => cases hnode

theorem filterMap_walk_keeping (h : t.conforms s) (hnode : t.isNode) :
    (t.keeping keep).walk.filterMap f = t.walk.filterMap g := by
  rw [walk_eq_flatMap (Nat.le_max_left _ t.height), walk_eq_flatMap (Nat.le_max_right _ t.height),
    filterMap_flatMap, filterMap_flatMap]
  exact congrArg (flatMap · _) (funext (filterMap_nodesAt_keeping hf hg hfg h hnode))

end

/-- A walk over what remains meets the assignments that are kept, in their order. -/
theorem walkKind_keeping {keep : Ast → Bool} (h : t.conforms s) (hnode : t.isNode) :
    (t.keeping keep).walkKind .assign = (t.walkKind .assign).filter keep := by
  have hassign : ∀ {p : Ast → Bool}, (∀ x, p x = true → x.isKind .assign = true) →
      ∀ x, (Option.guard p x).isSome → x.isStatement = true :=
    fun hp x hx => isStatement_of_isKind rfl (hp x (Option.isSome_guard.symm.trans hx))
  rw [walkKind, walkKind, filter_filter, ← filterMap_eq_filter, ← filterMap_eq_filter]
  refine filterMap_walk_keeping (hassign fun _ => id) (hassign fun x hx => (Bool.and_eq_true_iff.1 hx).2) ?_ h hnode
  intro x s _ hx
  cases x with
  | node kind span children =>
    by_cases hkind : kind = .assign
    · subst hkind
      by_cases hkeep : keep (.node .assign span children) = true
      · simp [keeping_of_keep hkeep, Option.guard, hkeep]
      · simp [keeping_of_not_keep hkeep, Option.guard, hkeep, isKind, kind?]
    · simp [keeping_of_kind hkind, Option.guard, isKind, kind?, hkind]
  | _ => cases hx

/-- A walk over what remains meets the assignments to the variable, in their order. -/
theorem walkKind_onlyAssigning (h : t.conforms s) (hnode : t.isNode) :
    (t.onlyAssigning name).walkKind .assign = t.walk.filter fun x => x.firstTarget? = some name := by
  rw [onlyAssigning_eq_keeping, walkKind_keeping h hnode, walkKind, filter_filter]
  refine filter_congr fun x _ => ?_
  by_cases htarget : x.firstTarget? = some name
  · simp [htarget, isKind_of_firstTarget? htarget]
  · simp [htarget]

/-- The values are those that were assigned to the variable, without the faults. -/
theorem assignedTo_onlyAssigning (h : t.conforms s) (hnode : t.isNode) :
    (t.onlyAssigning name).assignedTo (.str name) = (t.assignedTo (.str name)).filter Except.isOk := by
  rw [assignedTo_eq, assignedTo_eq, walkKind_onlyAssigning h hnode, walkKind, filter_filterMap,
    filterMap_filter, filterMap_filter]
  refine congrArg (filterMap · _) (funext fun x => ?_)
  rw [filter_valueFor]
  by_cases htarget : x.firstTarget? = some name
  · rw [if_pos (decide_eq_true htarget), if_pos (isKind_of_firstTarget? htarget), if_pos htarget]
  · rw [if_neg (by simpa using htarget), if_neg htarget, ite_self]

/-! ## The order of a walk

A node stands at a place: the numbers of the subnodes on the way to it from the top. A walk goes level by level
and through each level from left to right, so it lists the nodes in the order of their places: shorter places
first, and those of one length by their numbers (`walk_eq_filterMap`, `pairwise_places`). One node comes before
another in a walk if and only if it stands at an earlier place (`sublist_walk_iff`).
-/

def nodeAt? : List Nat → Ast → Option Ast
  | [], t => if t.isNode then some t else none
  | i :: place, t => t.subnodes[i]? >>= nodeAt? place

/-- One place comes before another: it is less deep, or further left at the same depth. -/
abbrev Earlier (place place' : List Nat) : Prop := List.Shortlex (· < ·) place place'

/-- The places at a depth, from left to right. -/
def placesAt : Nat → Ast → List (List Nat)
  | 0, t => if t.isNode then [[]] else []
  | depth + 1, t => t.subnodes.zipIdx.flatMap fun e => (placesAt depth e.1).map (e.2 :: ·)

def places (t : Ast) : List (List Nat) := (List.range t.height).flatMap fun d => placesAt d t

variable {t : Ast} {α β : Type} {place : List Nat}

theorem mem_placesAt {d : Nat} : place ∈ placesAt d t ↔ place.length = d ∧ (t.nodeAt? place).isSome := by
  induction d generalizing t place with
  | zero =>
    rw [length_eq_zero_iff, placesAt]
    constructor
    · intro h
      split at h
      · rename_i hnode
        rw [mem_singleton.1 h]
        simp [nodeAt?, hnode]
      · cases h
    · rintro ⟨rfl, h⟩
      cases hnode : t.isNode with
      | true => simp
      | false => simp [nodeAt?, hnode] at h
  | succ d ih =>
    rw [placesAt, mem_flatMap]
    constructor
    · rintro ⟨⟨u, i⟩, hu, h⟩
      obtain ⟨below, hbelow, rfl⟩ := mem_map.1 h
      rw [mk_mem_zipIdx_iff_getElem?] at hu
      obtain ⟨hlength, hsome⟩ := ih.1 hbelow
      exact ⟨by rw [length_cons, hlength], by simpa [nodeAt?, hu] using hsome⟩
    · rintro ⟨hlength, hsome⟩
      cases place with
      | nil => cases hlength
      | cons i below =>
        rw [nodeAt?] at hsome
        obtain ⟨x, hx⟩ := Option.isSome_iff_exists.1 hsome
        obtain ⟨u, hu, hx⟩ := Option.bind_eq_some_iff.1 hx
        refine ⟨(u, i), mk_mem_zipIdx_iff_getElem?.2 hu, mem_map_of_mem (ih.2 ⟨?_, ?_⟩)⟩
        · exact Nat.succ.inj hlength
        · rw [hx]
          rfl

theorem flatMap_eq_flatMap_zipIdx (xs : List α) (f : α → List β) : xs.flatMap f = xs.zipIdx.flatMap fun e => f e.1 := by
  have hmap : (xs.zipIdx.map Prod.fst).flatMap f = xs.zipIdx.flatMap fun e => f e.1 := flatMap_map ..
  rw [← hmap, zipIdx_map_fst]

theorem nodesAt_eq_filterMap (d : Nat) (t : Ast) : nodesAt d t = (placesAt d t).filterMap (nodeAt? · t) := by
  induction d generalizing t with
  | zero =>
    rw [nodesAt, placesAt]
    cases hnode : t.isNode <;> simp [nodeAt?, hnode]
  | succ d ih =>
    rw [nodesAt, placesAt, flatMap_eq_flatMap_zipIdx, filterMap_flatMap, flatMap_def, flatMap_def]
    refine congrArg flatten (map_congr_left fun e he => ?_)
    have hu : t.subnodes[e.2]? = some e.1 := mk_mem_zipIdx_iff_getElem?.1 he
    rw [ih, filterMap_map]
    refine congrArg (filterMap · _) (funext fun place => ?_)
    rw [Function.comp_apply, nodeAt?, hu]
    rfl

/-- **A walk lists the nodes in the order of their places.** -/
theorem walk_eq_filterMap (t : Ast) : t.walk = t.places.filterMap (nodeAt? · t) := by
  rw [walk, places, filterMap_flatMap]
  exact congrArg (flatMap · _) (funext fun d => nodesAt_eq_filterMap d t)

theorem mem_places : place ∈ t.places ↔ (t.nodeAt? place).isSome := by
  rw [places, mem_flatMap]
  constructor
  · rintro ⟨d, -, h⟩
    exact (mem_placesAt.1 h).2
  · intro h
    refine ⟨place.length, ?_, mem_placesAt.2 ⟨rfl, h⟩⟩
    -- There is a node at this depth, so the depth is less than the height.
    rw [mem_range, ← Nat.not_le]
    intro hlow
    obtain ⟨x, hx⟩ := Option.isSome_iff_exists.1 h
    have hmem : x ∈ nodesAt place.length t := by
      rw [nodesAt_eq_filterMap, mem_filterMap]
      exact ⟨place, mem_placesAt.2 ⟨rfl, h⟩, hx⟩
    rw [nodesAt_of_height_le hlow] at hmem
    cases hmem

/-- Places below numbered nodes are in order if those below each node are. -/
theorem pairwise_flatMap_zipIdx {below : α → List (List Nat)} (h : ∀ x, (below x).Pairwise (List.Lex (· < ·)))
    (xs : List α) : (xs.zipIdx.flatMap fun e => (below e.1).map (e.2 :: ·)).Pairwise (List.Lex (· < ·)) := by
  rw [pairwise_flatMap]
  constructor
  · intro e _
    exact pairwise_map.2 ((h e.1).imp .cons)
  · have hnumbers : (xs.zipIdx.map Prod.snd).Pairwise (· < ·) := by
      rw [zipIdx_map_snd]
      exact pairwise_lt_range'
    refine (pairwise_map.1 hnumbers).imp fun {e e'} hlt place hplace place' hplace' => ?_
    obtain ⟨_, -, rfl⟩ := mem_map.1 hplace
    obtain ⟨_, -, rfl⟩ := mem_map.1 hplace'
    exact .rel hlt

theorem pairwise_placesAt (d : Nat) (t : Ast) : (placesAt d t).Pairwise (List.Lex (· < ·)) := by
  induction d generalizing t with
  | zero =>
    rw [placesAt]
    split
    · exact pairwise_singleton _ _
    · exact List.Pairwise.nil
  | succ d ih => exact pairwise_flatMap_zipIdx ih t.subnodes

theorem pairwise_places (t : Ast) : t.places.Pairwise Earlier := by
  rw [places, pairwise_flatMap]
  constructor
  · intro d _
    refine (pairwise_placesAt d t).imp_of_mem fun hplace hplace' hlex => ?_
    exact .of_lex ((mem_placesAt.1 hplace).1.trans (mem_placesAt.1 hplace').1.symm) hlex
  · refine pairwise_lt_range.imp fun {d d'} hlt place hplace place' hplace' => ?_
    refine .of_length_lt ?_
    rwa [(mem_placesAt.1 hplace).1, (mem_placesAt.1 hplace').1]

theorem mem_walk_iff_nodeAt? {x : Ast} : x ∈ t.walk ↔ ∃ place, t.nodeAt? place = some x := by
  rw [walk_eq_filterMap, mem_filterMap]
  constructor
  · rintro ⟨place, -, h⟩
    exact ⟨place, h⟩
  · rintro ⟨place, h⟩
    exact ⟨place, mem_places.2 (Option.isSome_of_eq_some h), h⟩

/-- Two members of an ordered list stand in it in their order. -/
theorem pair_sublist_iff {r : α → α → Prop} [Std.Asymm r] {xs : List α} (h : xs.Pairwise r) {a b : α} :
    [a, b].Sublist xs ↔ a ∈ xs ∧ b ∈ xs ∧ r a b := by
  induction xs with
  | nil => simp
  | cons x xs ih =>
    obtain ⟨hx, hxs⟩ := pairwise_cons.1 h
    constructor
    · intro hsub
      refine ⟨hsub.subset (by simp), hsub.subset (by simp), ?_⟩
      exact pairwise_iff_forall_sublist.1 h hsub
    · rintro ⟨ha, hb, hab⟩
      rcases mem_cons.1 ha with rfl | hlater
      · rcases mem_cons.1 hb with rfl | hlater'
        · exact absurd hab (Std.Asymm.asymm _ _ hab)
        · exact (singleton_sublist.2 hlater').cons_cons a
      · rcases mem_cons.1 hb with rfl | hlater'
        · exact absurd (hx a hlater) (Std.Asymm.asymm _ _ hab)
        · exact ((ih hxs).2 ⟨hlater, hlater', hab⟩).cons x

theorem pair_sublist_filterMap {f : α → Option β} {xs : List α} {s c : β} :
    [s, c].Sublist (xs.filterMap f) ↔ ∃ a b, [a, b].Sublist xs ∧ f a = some s ∧ f b = some c := by
  constructor
  · intro h
    induction xs with
    | nil => cases h
    | cons x xs ih =>
      have hlater : [s, c].Sublist (xs.filterMap f) →
          ∃ a b, [a, b].Sublist (x :: xs) ∧ f a = some s ∧ f b = some c := by
        intro hsub
        obtain ⟨a, b, hab, ha, hb⟩ := ih hsub
        exact ⟨a, b, hab.cons x, ha, hb⟩
      cases hx : f x with
      | none =>
        rw [filterMap_cons_none hx] at h
        exact hlater h
      | some y =>
        rw [filterMap_cons_some hx] at h
        cases h with
        | cons _ h => exact hlater h
        | cons_cons _ h =>
          obtain ⟨b, hb, hc⟩ := mem_filterMap.1 (singleton_sublist.1 h)
          exact ⟨x, b, (singleton_sublist.2 hb).cons_cons x, hx, hc⟩
  · rintro ⟨a, b, hab, ha, hb⟩
    simpa [ha, hb] using hab.filterMap f

/-- **What comes before what in a walk.** -/
theorem sublist_walk_iff {s c : Ast} :
    [s, c].Sublist t.walk ↔ ∃ place place', t.nodeAt? place = some s ∧ t.nodeAt? place' = some c ∧
      Earlier place place' := by
  rw [walk_eq_filterMap, pair_sublist_filterMap]
  simp only [pair_sublist_iff (pairwise_places t), mem_places]
  constructor
  · rintro ⟨place, place', ⟨-, -, hearlier⟩, hs, hc⟩
    exact ⟨place, place', hs, hc, hearlier⟩
  · rintro ⟨place, place', hs, hc, hearlier⟩
    exact ⟨place, place', ⟨Option.isSome_of_eq_some hs, Option.isSome_of_eq_some hc, hearlier⟩, hs, hc⟩

end ServerlessTaint.Syntax.Ast
