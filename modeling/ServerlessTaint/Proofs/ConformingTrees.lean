import ServerlessTaint.Proofs.AbstractGrammar
import ServerlessTaint.Proofs.HintedPrograms

/-!
# Trees that conform to the abstract grammar

What stands within a tree of some sort is of some sort itself, and below an expression there are no
statements. A walk over such a tree meets all nodes within it (`mem_walk_iff`). A tree whose assignments
are changed is of its sort if and only if each assignment still is (`conforms_changing_iff`).
-/

namespace ServerlessTaint.Syntax

open List

/-! ## Sorts without statements -/

/-- There are no statements in the nodes of a class. -/
def NodeClass.isInner : NodeClass → Bool
  | .module | .statement | .handler | .case => false
  | _ => true

def FieldSort.isInner : FieldSort → Bool
  | .one cls | .optional cls | .many cls | .gapped cls => cls.isInner
  | _ => true

variable {kind : Kind} {s : FieldSort}

theorem isInner_of_mem_sorts (h : kind.cls.isInner) (hs : s ∈ kind.sorts) : s.isInner := by
  have hall : kind.cls.isInner = true → ∀ s ∈ kind.sorts, s.isInner := by
    cases kind <;> decide
  exact hall h s hs

theorem isInner_cls (h : s.takes kind) (hs : s.isInner) : kind.cls.isInner := by
  cases s with
  | one cls | optional cls =>
    obtain rfl : kind.cls = cls := by simpa [FieldSort.takes] using h
    exact hs
  | target =>
    simp only [FieldSort.takes, Bool.or_eq_true, decide_eq_true_eq] at h
    rcases h with (rfl | rfl) | rfl <;> rfl
  | _ => cases h

theorem isInner_item {sort : FieldSort} (h : s.item? = some sort) (hs : s.isInner) : sort.isInner := by
  cases s <;> cases h <;> exact hs

namespace Ast

variable {t x u : Ast} {s : FieldSort}

theorem exists_sort_of_fits {sorts : List FieldSort} {ts : List Ast} (h : fits sorts ts) (ht : t ∈ ts) :
    ∃ s ∈ sorts, t.conforms s := by
  induction sorts generalizing ts with
  | nil =>
    cases ts with
    | nil => cases ht
    | cons => cases h
  | cons s sorts ih =>
    cases ts with
    | nil => cases ht
    | cons u us =>
      obtain ⟨hu, hus⟩ := Bool.and_eq_true_iff.1 h
      rcases mem_cons.1 ht with rfl | ht
      · exact ⟨s, mem_cons_self, hu⟩
      · obtain ⟨s', hs', hconforms⟩ := ih hus ht
        exact ⟨s', mem_cons_of_mem _ hs', hconforms⟩

/-- A part of a tree of some sort is of some sort, without statements if the tree has none. -/
theorem exists_sort_of_mem_parts {part : Ast} (h : t.conforms s) (hpart : part ∈ t.parts) :
    ∃ s', part.conforms s' ∧ (s.isInner → s'.isInner) := by
  cases t with
  | node kind span children =>
    obtain ⟨htakes, hfits⟩ := Bool.and_eq_true_iff.1 h
    obtain ⟨s', hs', hconforms⟩ := exists_sort_of_fits hfits hpart
    exact ⟨s', hconforms, fun hs => isInner_of_mem_sorts (isInner_cls htakes hs) hs'⟩
  | list items =>
    cases s with
    | many cls => exact ⟨.one cls, allConform_iff.1 h part hpart, id⟩
    | gapped cls => exact ⟨.optional cls, allConform_iff.1 h part hpart, id⟩
    | names => exact ⟨.name, allConform_iff.1 h part hpart, id⟩
    | _ => cases h
  | _ => cases hpart

/-- What stands within a tree of some sort is of some sort. -/
theorem Within.exists_sort (hx : Within x t) (h : t.conforms s) : ∃ s', x.conforms s' ∧ (s.isInner → s'.isInner) := by
  induction hx generalizing s with
  | refl => exact ⟨s, h, id⟩
  | part hpart _ ih =>
    obtain ⟨s', hpart', hinner⟩ := exists_sort_of_mem_parts h hpart
    obtain ⟨s'', hx', hinner'⟩ := ih hpart'
    exact ⟨s'', hx', hinner' ∘ hinner⟩

/-- A node within a tree without statements is of a class without statements. -/
theorem Within.isInner {kind : Kind} {span : Option Span} {children : List Ast}
    (hx : Within (.node kind span children) t) (h : t.conforms s) (hs : s.isInner) : kind.cls.isInner := by
  obtain ⟨s', hx', hinner⟩ := hx.exists_sort h
  exact isInner_cls (Bool.and_eq_true_iff.1 hx').1 (hinner hs)

/-! ## Walks -/

/-- The items of a list are no lists. -/
theorem isList_of_mem_items {items : List Ast} (h : (Ast.list items).conforms s) (ht : t ∈ items) :
    t.isList = false := by
  cases s with
  | many cls | gapped cls | names =>
    have hitem := allConform_iff.1 h t ht
    cases t with
    | list => cases hitem
    | _ => rfl
  | _ => cases h

/-- Trees of some sort have lists in the fields of nodes only. -/
theorem isFormed_of_conforms : ∀ {t : Ast} {s : FieldSort}, t.conforms s → t.isFormed
  | .node .., _, h => areFormed_iff.2 fun child hchild =>
    have ⟨_, hsort, _⟩ := exists_sort_of_mem_parts h hchild
    isFormed_of_conforms hsort
  | .list items, _, h => Bool.and_eq_true_iff.2 ⟨by simpa using fun t => isList_of_mem_items h,
    areFormed_iff.2 fun item hitem =>
      have ⟨_, hsort, _⟩ := exists_sort_of_mem_parts h hitem
      isFormed_of_conforms hsort⟩
  | .absent, _, _ | .name _, _, _ | .number _, _, _ | .literal _, _, _ => rfl

theorem within_of_mem_topNodes (h : u ∈ t.topNodes) : Within u t := by
  cases t with
  | node => rw [mem_singleton.1 h]; exact .refl
  | list items => exact .part (mem_filter.1 h).1 .refl
  | _ => cases h

theorem Within.trans (hx : Within x u) (hu : Within u t) : Within x t := by
  induction hu with
  | refl => exact hx
  | part hpart _ ih => exact .part hpart ih

theorem within_of_mem_nodesAt {d : Nat} (h : x ∈ nodesAt d t) : x.isNode ∧ Within x t := by
  induction d generalizing t with
  | zero =>
    rw [nodesAt] at h
    split at h
    · rename_i hnode
      rw [mem_singleton.1 h]
      exact ⟨hnode, .refl⟩
    · cases h
  | succ d ih =>
    rw [nodesAt, mem_flatMap] at h
    obtain ⟨u, hu, hx⟩ := h
    cases t with
    | node kind span children =>
      rw [subnodes_node, mem_flatMap] at hu
      obtain ⟨child, hchild, hu⟩ := hu
      exact ⟨(ih hx).1, (ih hx).2.trans (.part hchild (within_of_mem_topNodes hu))⟩
    | _ => cases hu

/-- A walk meets the nodes within a tree and nothing else. -/
theorem mem_walk_iff (h : t.conforms s) (hnode : t.isNode) : x ∈ t.walk ↔ x.isNode ∧ Within x t := by
  constructor
  · intro hx
    obtain ⟨d, -, hmem⟩ := mem_flatMap.1 hx
    exact within_of_mem_nodesAt hmem
  · rintro ⟨hxnode, hx⟩
    exact hx.mem_walk (isFormed_of_conforms h) hnode hxnode

/-! ## Trees with their assignments changed -/

mutual

/-- The tree with every assignment changed. -/
def changing (f : Ast → Ast) : Ast → Ast
  | .node kind span children =>
    if kind = .assign then f (.node kind span children) else .node kind span (changingAll f children)
  | .list items => .list (changingAll f items)
  | t => t

/-- Trees with every assignment changed. -/
def changingAll (f : Ast → Ast) : List Ast → List Ast
  | [] => []
  | t :: ts => changing f t :: changingAll f ts

end

theorem changingAll_eq_map (f : Ast → Ast) (ts : List Ast) : changingAll f ts = ts.map (changing f) := by
  induction ts with
  | nil => rfl
  | cons t ts ih => rw [changingAll, ih, map_cons]

mutual

/-- A tree of some sort stays one if and only if each assignment does. -/
theorem conforms_changing_iff {f : Ast → Ast} {P : Ast → Prop}
    (hf : ∀ x s, x.isKind .assign → x.conforms s → ((f x).conforms s ↔ P x)) :
    ∀ {s : FieldSort} {t : Ast}, t.conforms s → ((t.changing f).conforms s ↔ ∀ x ∈ t.assignments, P x)
  | s, .node kind span children, h => by
    rw [changing, assignments]
    split
    · rename_i hkind
      rw [hf _ s (by simp [isKind, kind?, hkind]) h]
      simp
    · obtain ⟨htakes, hfits⟩ := Bool.and_eq_true_iff.1 h
      simp [conforms, htakes, fits_changingAll_iff hf hfits]
  | s, .list items, h => by
    rw [changing, assignments]
    simp only [conforms] at h ⊢
    cases hitem : s.item? with
    | none => simp [hitem] at h
    | some sort =>
      simp only [hitem] at h
      exact allConform_changingAll_iff hf h
  | _, .absent, h | _, .name _, h | _, .number _, h | _, .literal _, h => by simp [changing, assignments, h]

theorem fits_changingAll_iff {f : Ast → Ast} {P : Ast → Prop}
    (hf : ∀ x s, x.isKind .assign → x.conforms s → ((f x).conforms s ↔ P x)) :
    ∀ {sorts : List FieldSort} {ts : List Ast}, fits sorts ts →
      (fits sorts (changingAll f ts) ↔ ∀ x ∈ assignmentsOf ts, P x)
  | [], [], _ => by simp [changingAll, assignmentsOf]
  | s :: sorts, t :: ts, h => by
    obtain ⟨ht, hts⟩ := Bool.and_eq_true_iff.1 h
    simp [changingAll, assignmentsOf, conforms_changing_iff hf ht, fits_changingAll_iff hf hts, or_imp, forall_and]
  | [], _ :: _, h | _ :: _, [], h => by cases h

theorem allConform_changingAll_iff {f : Ast → Ast} {P : Ast → Prop}
    (hf : ∀ x s, x.isKind .assign → x.conforms s → ((f x).conforms s ↔ P x)) :
    ∀ {s : FieldSort} {ts : List Ast}, allConform s ts → (allConform s (changingAll f ts) ↔ ∀ x ∈ assignmentsOf ts, P x)
  | _, [], _ => by simp [changingAll, assignmentsOf]
  | s, t :: ts, h => by
    obtain ⟨ht, hts⟩ := Bool.and_eq_true_iff.1 h
    rw [changingAll, allConform, Bool.and_eq_true, conforms_changing_iff hf ht, allConform_changingAll_iff hf hts]
    simp [assignmentsOf, or_imp, forall_and]

end

theorem changingAll_eq_self {f : Ast → Ast} {ts : List Ast} (h : ∀ t ∈ ts, t.changing f = t) : changingAll f ts = ts := by
  rw [changingAll_eq_map]
  exact (map_congr_left h).trans (map_id ts)

/-- Where there are no statements, nothing changes. -/
theorem changing_of_isInner (f : Ast → Ast) : ∀ {t : Ast} {s : FieldSort}, t.conforms s → s.isInner → t.changing f = t
  | .node kind span children, s, h, hs => by
    have hcls := isInner_cls (Bool.and_eq_true_iff.1 h).1 hs
    have hkind : kind ≠ .assign := by
      rintro rfl
      cases hcls
    rw [changing, if_neg hkind, changingAll_eq_self fun child hchild => ?_]
    obtain ⟨s', hchild', hinner⟩ := exists_sort_of_mem_parts h hchild
    exact changing_of_isInner f hchild' (hinner hs)
  | .list items, s, h, hs => by
    rw [changing, changingAll_eq_self fun item hitem => ?_]
    obtain ⟨s', hitem', hinner⟩ := exists_sort_of_mem_parts h hitem
    exact changing_of_isInner f hitem' (hinner hs)
  | .absent, _, _, _ | .name _, _, _, _ | .number _, _, _, _ | .literal _, _, _, _ => rfl

/-- A statement without statements below it stays as it is, unless it is an assignment. -/
theorem changing_of_sorts (f : Ast → Ast) {kind : Kind} {span : Option Span} {children : List Ast}
    (h : (Ast.node kind span children).conforms s) (hkind : kind ≠ .assign)
    (hsorts : ∀ s ∈ kind.sorts, s.isInner) : (Ast.node kind span children).changing f = .node kind span children := by
  rw [changing, if_neg hkind, changingAll_eq_self fun child hchild => ?_]
  obtain ⟨s', hs', hchild'⟩ := exists_sort_of_fits (Bool.and_eq_true_iff.1 h).2 hchild
  exact changing_of_isInner f hchild' (hsorts s' hs')

end Ast

end ServerlessTaint.Syntax
