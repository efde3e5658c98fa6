import ServerlessTaint.Proofs.ConformingTrees
import ServerlessTaint.Proofs.ParsedPrograms

/-!
# Programs with hints and imports

A program of the grammar stays one under hints if and only if every assignment that gets a hint has a first
target that can be annotated (`conforms_addHints_iff`); imports never do harm (`conforms_addImports`). Either
change keeps the imports of a program: those of what makes client objects, wherever they stand, and those
of types at its start.

What remains of a tree without positions and marks of bare names tells its sort (`conforms_plain`) and the imports within it
(`exists_import_within`).
-/

namespace ServerlessTaint.Syntax.Ast

open List

/-- A field of a node without the mark of an annotated assignment. -/
def unmark (kind : Kind) : Ast → Ast
  | .number value => .number (if kind = .annAssign then 0 else value)
  | t => t

mutual

/-- The tree without the positions of its nodes and the marks of annotated assignments. -/
def plain : Ast → Ast
  | .node kind _ children => .node kind none ((plainAll children).map (unmark kind))
  | .list items => .list (plainAll items)
  | t => t

/-- Trees without positions and marks. -/
def plainAll : List Ast → List Ast
  | [] => []
  | t :: ts => plain t :: plainAll ts

end

theorem plainAll_eq_map (ts : List Ast) : plainAll ts = ts.map plain := by
  induction ts with
  | nil => rfl
  | cons t ts ih => simp [plainAll, ih]

theorem plain_node (kind : Kind) (span : Option Span) (children : List Ast) :
    (Ast.node kind span children).plain = .node kind none (children.map fun t => unmark kind t.plain) := by
  simp [plain, plainAll_eq_map]

theorem plain_list (items : List Ast) : (Ast.list items).plain = .list (items.map plain) := by
  rw [plain, plainAll_eq_map]

/-! ## Sorts -/

theorem conforms_unmark (kind : Kind) (s : FieldSort) (t : Ast) : (unmark kind t).conforms s = t.conforms s := by
  cases t with
  | number => cases s <;> rfl
  | _ => rfl

mutual

/-- Positions and marks do not matter for the sort of a tree. -/
theorem conforms_plain : ∀ (s : FieldSort) (t : Ast), t.plain.conforms s = t.conforms s
  | s, .node kind span children => by simp only [plain, conforms, fits_plainAll kind kind.sorts children]
  | s, .list items => by
    simp only [plain, conforms]
    cases s.item? with
    | none => rfl
    | some sort => exact allConform_plainAll sort items
  | _, .absent | _, .name _ | _, .number _ | _, .literal _ => rfl

theorem fits_plainAll : ∀ (kind : Kind) (sorts : List FieldSort) (ts : List Ast),
    fits sorts ((plainAll ts).map (unmark kind)) = fits sorts ts
  | _, [], [] | _, [], _ :: _ | _, _ :: _, [] => rfl
  | kind, s :: sorts, t :: ts => by
    simp only [plainAll, map_cons, fits_cons, conforms_unmark, conforms_plain s t,
      fits_plainAll kind sorts ts]

theorem allConform_plainAll : ∀ (s : FieldSort) (ts : List Ast), allConform s (plainAll ts) = allConform s ts
  | _, [] => rfl
  | s, t :: ts => by simp only [plainAll, allConform, conforms_plain s t, allConform_plainAll s ts]

end

/-! ## Nodes within a tree -/

theorem isNode_plain (t : Ast) : t.plain.isNode = t.isNode := by
  cases t <;> rfl

variable {x t : Ast} {kind : Kind} {mode : ImportMode}

/-- A field that holds a node has no mark. -/
theorem unmark_of_within (hx : Within x (unmark kind t)) (hnode : x.isNode) : unmark kind t = t := by
  cases t with
  | number =>
    cases hx with
    | refl => cases hnode
    | part hpart => cases hpart
  | _ => rfl

theorem within_unmark (kind : Kind) (hx : Within x t) (hnode : x.isNode) : Within x (unmark kind t) := by
  cases t with
  | number =>
    cases hx with
    | refl => cases hnode
    | part hpart => cases hpart
  | _ => exact hx

theorem Within.plain (h : Within x t) (hnode : x.isNode) : Within x.plain t.plain := by
  have hplain : x.plain.isNode := by rw [isNode_plain, hnode]
  induction h with
  | refl => exact .refl
  | @part t part hpart _ ih =>
    cases t with
    | node kind span children =>
      rw [plain_node]
      exact .part (mem_map.2 ⟨part, hpart, rfl⟩) (within_unmark kind ih hplain)
    | list items =>
      rw [plain_list]
      exact .part (mem_map.2 ⟨part, hpart, rfl⟩) ih
    | _ => cases hpart

/-- A node within a tree without positions and marks is one within the tree. -/
theorem Within.of_plain {y : Ast} (h : Within y t.plain) (hnode : y.isNode) : ∃ x, Within x t ∧ x.plain = y := by
  generalize ht : t.plain = t' at h
  induction h generalizing t with
  | refl => exact ⟨t, .refl, ht⟩
  | part hpart hwithin ih =>
    subst ht
    cases t with
    | node kind span children =>
      rw [plain_node] at hpart
      obtain ⟨part, hmem, rfl⟩ := mem_map.1 hpart
      obtain ⟨x, hx, heq⟩ := ih (unmark_of_within hwithin hnode).symm
      exact ⟨x, .part hmem hx, heq⟩
    | list items =>
      rw [plain_list] at hpart
      obtain ⟨part, hmem, rfl⟩ := mem_map.1 hpart
      obtain ⟨x, hx, heq⟩ := ih rfl
      exact ⟨x, .part hmem hx, heq⟩
    | _ => cases hpart

/-! ## Imports -/

theorem name?_unmark (kind : Kind) (t : Ast) : (unmark kind t).name? = t.name? := by
  cases t <;> rfl

theorem name?_plain (t : Ast) : t.plain.name? = t.name? := by
  cases t <;> rfl

theorem nameOf?_plain (field : Field) (t : Ast) : t.plain.nameOf? field = t.nameOf? field := by
  cases t with
  | node kind span children =>
    rw [plain_node, nameOf?, nameOf?, field?, field?]
    generalize kind.fields = fields
    induction fields generalizing children with
    | nil => rfl
    | cons f fields ih =>
      cases children with
      | nil => rfl
      | cons child children =>
        simp only [map_cons, zip_cons_cons, lookup_cons]
        split
        · simp [name?_unmark, name?_plain]
        · exact ih children
  | _ => rfl

/-- A node imports what makes client objects only if it is of the kind for the mode. -/
theorem isImport_node_of_ne (span : Option Span) (children : List Ast) (hwhole : kind ≠ .importStmt)
    (hbyName : kind ≠ .importFrom) : Client.isImport mode (.node kind span children) = false := by
  unfold Client.isImport
  split
  · rename_i heq
    cases heq
    exact absurd rfl hwhole
  · rename_i heq
    cases heq
    exact absurd rfl hbyName
  · rfl

theorem isImport_plain (mode : ImportMode) (x : Ast) : Client.isImport mode x.plain = Client.isImport mode x := by
  cases x with
  | node kind span children =>
    by_cases hwhole : kind = .importStmt
    · subst hwhole
      match children with
      | [.list names] =>
        have hplain : (Ast.node .importStmt span [.list names]).plain =
            .node .importStmt none [.list (names.map plain)] := by
          rw [← plain_list]
          rfl
        cases mode <;> simp [hplain, Client.isImport, nameOf?_plain, Function.comp_def]
      | [] | [.absent] | [.name _] | [.number _] | [.literal _] | [.node ..] => cases mode <;> rfl
      | _ :: _ :: _ => cases mode <;> simp [plain_node, Client.isImport]
    by_cases hbyName : kind = .importFrom
    · subst hbyName
      match children with
      | [module, .list names, .number level] =>
        have hplain : (Ast.node .importFrom span [module, .list names, .number level]).plain =
            .node .importFrom none [unmark .importFrom module.plain, .list (names.map plain), .number level] := by
          rw [← plain_list]
          rfl
        cases mode <;>
          simp [hplain, Client.isImport, name?_unmark, name?_plain, nameOf?_plain, Function.comp_def]
      | [] | [_] | [_, _] | _ :: _ :: _ :: _ :: _ => cases mode <;> simp [plain_node, Client.isImport]
      | [_, .absent, _] | [_, .name _, _] | [_, .number _, _] | [_, .literal _, _] | [_, .node .., _]
      | [_, .list _, .absent] | [_, .list _, .name _] | [_, .list _, .list _] | [_, .list _, .literal _]
      | [_, .list _, .node ..] => cases mode <;> rfl
    · rw [plain_node, isImport_node_of_ne _ _ hwhole hbyName, isImport_node_of_ne _ _ hwhole hbyName]
  | list items =>
    cases mode <;> rfl
  | _ => rfl

theorem isNode_of_isImport (h : Client.isImport mode x) : x.isNode := by
  cases x with
  | node => rfl
  | _ => cases mode <;> cases h

/-- Imports are still there in a tree that is the same up to positions and marks. -/
theorem exists_import_within {t' : Ast} (hsame : t'.plain = t.plain)
    (h : ∃ x, Within x t ∧ Client.isImport mode x) : ∃ x, Within x t' ∧ Client.isImport mode x := by
  obtain ⟨x, hx, himport⟩ := h
  have hnode := isNode_of_isImport himport
  have hplain : Within x.plain t'.plain := hsame ▸ hx.plain hnode
  obtain ⟨y, hy, heq⟩ := hplain.of_plain (by rw [isNode_plain, hnode])
  exact ⟨y, hy, by rw [← isImport_plain, heq, isImport_plain, himport]⟩

end ServerlessTaint.Syntax.Ast

namespace ServerlessTaint.TypeHints

open List
open Syntax (Ast FieldSort Kind Span isSingleTarget)
open Syntax.Ast (fits allConform allConform_iff Within IsExpression)

/-! ## The grammar -/

def AnnotatesOne (x : Ast) : Prop := ∀ target ∈ (x.itemsOf .targets).head?, isSingleTarget target = true

instance (x : Ast) : Decidable (AnnotatesOne x) :=
  inferInstanceAs (Decidable (∀ target ∈ (x.itemsOf .targets).head?, isSingleTarget target = true))

variable {t x program : Ast} {kind : Kind} {client : Client} {module type : String} {children : List Ast}
  {s : FieldSort} {mode : ImportMode} {span : Option Span}

theorem conforms_target_iff (h : t.IsExpression) : t.conforms .target ↔ isSingleTarget t := by
  refine ⟨fun htarget => ?_, Syntax.conforms_target h⟩
  cases t with
  | node kind span children =>
    have hkind := (Bool.and_eq_true_iff.1 htarget).1
    simp only [FieldSort.takes, Bool.or_eq_true, decide_eq_true_eq] at hkind
    rcases hkind with (rfl | rfl) | rfl <;> rfl
  | _ => cases htarget

theorem takes_annAssign (s : FieldSort) : s.takes .annAssign = s.takes .assign := by
  cases s <;> rfl

/-- An assignment with a hint belongs to the grammar if and only if its first target can be annotated. -/
theorem conforms_hinted_iff {clients : List Client} (hx : x.isKind .assign) (h : x.conforms s) :
    (hinted clients x).conforms s ↔ ((hint? clients x).isSome → AnnotatesOne x) := by
  rcases hinted_cases clients x with ⟨hnone, hsame⟩ | ⟨span, target, more, value, type, rfl, hsome, hhint⟩
  · simp [hnone, hsame, h]
  · obtain ⟨htakes, hfits⟩ := Bool.and_eq_true_iff.1 h
    have hchildren : (∀ t ∈ target :: more, t.IsExpression) ∧ value.IsExpression := by
      simpa [Kind.sorts] using hfits
    have htarget : target.IsExpression := hchildren.1 target mem_cons_self
    have hvalue : value.conforms (.optional .expression) := Ast.conforms_optional hchildren.2
    have htargets : (Ast.node .assign span [.list (target :: more), value]).itemsOf .targets =
        target :: more := rfl
    have hannotated : fits Kind.annAssign.sorts [target, .node .name none [.name type], value, .number 1] =
        target.conforms .target := by simp [Kind.sorts, Kind.cls, hvalue]
    rw [hhint, hsome, Ast.conforms, takes_annAssign, htakes, hannotated, Bool.true_and,
      conforms_target_iff htarget]
    simp [AnnotatesOne, htargets]

mutual

theorem addHints_eq_changing (clients : List Client) : ∀ t : Ast, addHints clients t = t.changing (hinted clients)
  | .node kind span children => by rw [addHints_node, Ast.changing, addHintsAll_eq_changingAll]
  | .list items => by rw [addHints, Ast.changing, addHintsAll_eq_changingAll]
  | .absent | .name _ | .number _ | .literal _ => rfl

theorem addHintsAll_eq_changingAll (clients : List Client) : ∀ ts : List Ast,
    addHintsAll clients ts = Ast.changingAll (hinted clients) ts
  | [] => rfl
  | t :: ts => by rw [addHintsAll, Ast.changingAll, addHints_eq_changing, addHintsAll_eq_changingAll]

end

/-- A tree of some sort stays one under hints if and only if every assignment that gets a hint has a first
target that can be annotated. -/
theorem conforms_addHints_iff (clients : List Client) (h : t.conforms s) :
    (addHints clients t).conforms s ↔ ∀ x ∈ t.assignments, (hint? clients x).isSome → AnnotatesOne x := by
  rw [addHints_eq_changing]
  exact Ast.conforms_changing_iff (fun _ _ => conforms_hinted_iff) h

/-- A program is a module with statements. -/
theorem exists_body (h : program.conforms (.one .module)) :
    ∃ span body, program = .node .module span [.list body] ∧ ∀ t ∈ body, t.IsStatement := by
  cases program with
  | node kind span children =>
    obtain ⟨htakes, hfits⟩ := Bool.and_eq_true_iff.1 h
    obtain rfl : kind = .module := by
      cases kind with
      | module => rfl
      | _ => cases htakes
    match children with
    | [.list body] => exact ⟨span, body, rfl, by simpa [Kind.sorts] using hfits⟩
    | [] | [.absent] | [.name _] | [.number _] | [.literal _] | [.node ..] => cases hfits
    | _ :: _ :: _ => cases (Bool.and_eq_true_iff.1 hfits).2
  | _ => cases h

def importStatement (module type : String) : Ast :=
  .node .importFrom none [.name module, .list [.node .importName none [.name type, .absent]], .number 0]

theorem importOf?_eq_some_iff {statement : Ast} :
    importOf? client = some statement ↔
      ∃ types type, client.types? = some types ∧ client.typeName? = some type ∧
        statement = importStatement types.module type := by
  simp only [importOf?, importStatement, bind, pure, Option.bind_eq_some_iff, Option.some.injEq]
  grind

/-- Imports of types belong to the grammar. -/
theorem conforms_addImports (clients : List Client) (h : program.conforms (.one .module)) :
    (addImports clients program).conforms (.one .module) := by
  obtain ⟨span, body, rfl, hbody⟩ := exists_body h
  have himports : ∀ t ∈ (clients.filterMap importOf?).reverse ++ body, t.IsStatement := by
    intro t ht
    rcases mem_append.1 ht with ht | ht
    · obtain ⟨client, -, hclient⟩ := mem_filterMap.1 (mem_reverse.1 ht)
      obtain ⟨types, type, -, -, rfl⟩ := importOf?_eq_some_iff.1 hclient
      rfl
    · exact hbody t ht
  simpa [addImports, Kind.sorts, Kind.cls] using himports

/-! ## Imports of what makes client objects -/

/-- An import gets no hints. -/
theorem addHints_import (clients : List Client) (h : (Ast.node kind span children).conforms s)
    (hkind : kind = .importStmt ∨ kind = .importFrom) :
    addHints clients (.node kind span children) = .node kind span children := by
  rw [addHints_eq_changing]
  rcases hkind with rfl | rfl <;> exact Ast.changing_of_sorts _ h (by decide) (by decide)

/-- A node that imports what makes client objects is of one of two kinds. -/
theorem kind_of_isImport (h : Client.isImport mode (.node kind span children)) :
    kind = .importStmt ∨ kind = .importFrom := by
  by_contra hkind
  obtain ⟨hwhole, hbyName⟩ := not_or.1 hkind
  rw [Ast.isImport_node_of_ne span children hwhole hbyName] at h
  cases h

/-- Hints keep the imports of what makes client objects. -/
theorem within_addHints (clients : List Client) (himport : Client.isImport mode x) (hx : Within x t)
    (h : t.conforms s) : Within x (addHints clients t) := by
  obtain ⟨kind, span, children, rfl⟩ : ∃ kind span children, x = .node kind span children := by
    cases x with
    | node kind span children => exact ⟨kind, span, children, rfl⟩
    | _ => cases Ast.isNode_of_isImport himport
  have hkind := kind_of_isImport himport
  have hassigned : ∀ s ∈ Kind.assign.sorts, s.isInner := by decide
  rw [addHints_eq_changing]
  induction hx generalizing s with
  | refl =>
    rw [← addHints_eq_changing, addHints_import clients h hkind]
    exact .refl
  | @part t part hpart hwithin ih =>
    obtain ⟨s', hconforms, -⟩ := Ast.exists_sort_of_mem_parts h hpart
    cases t with
    | node kind' span' children' =>
      rw [Ast.changing]
      split
      · -- The parts of an assignment hold no statements.
        rename_i hassign
        subst hassign
        obtain ⟨s'', hs'', hconforms'⟩ := Ast.exists_sort_of_fits (Bool.and_eq_true_iff.1 h).2 hpart
        have hinner : s''.isInner := hassigned s'' hs''
        have hcls := hwithin.isInner hconforms' hinner
        rcases hkind with rfl | rfl <;> cases hcls
      · rw [Ast.changingAll_eq_map]
        exact .part (mem_map.2 ⟨part, hpart, rfl⟩) (ih hconforms)
    | list items =>
      rw [Ast.changing, Ast.changingAll_eq_map]
      exact .part (mem_map.2 ⟨part, hpart, rfl⟩) (ih hconforms)
    | _ => cases hpart

theorem within_addImports (clients : List Client) (himport : Client.isImport mode x) (hx : Within x program)
    (h : program.conforms (.one .module)) : Within x (addImports clients program) := by
  obtain ⟨span, body, rfl, -⟩ := exists_body h
  cases hx with
  | refl => rcases kind_of_isImport himport with hkind | hkind <;> cases hkind
  | part hlist hx =>
    obtain rfl := mem_singleton.1 hlist
    cases hx with
    | refl => cases Ast.isNode_of_isImport himport
    | part hpart hx =>
      exact .part (mem_singleton_self _) (.part (mem_append_right _ hpart) hx)

/-! ## Imports of types -/

/-- Among the statements of a program, up to positions, is the one that imports a type from a module. -/
def Imports (program : Ast) (module type : String) : Prop :=
  ∃ body, program.plain = .node .module none [.list body] ∧ importStatement module type ∈ body

theorem imports_iff {body : List Ast} :
    Imports (.node .module span [.list body]) module type ↔ importStatement module type ∈ body.map Ast.plain := by
  have hplain : (Ast.node .module span [.list body]).plain = .node .module none [.list (body.map Ast.plain)] := by
    rw [← Ast.plain_list]
    rfl
  simp [Imports, hplain]

theorem Imports.of_plain {program' : Ast} (h : Imports program module type) (hsame : program'.plain = program.plain) :
    Imports program' module type := by
  rw [Imports, hsame]
  exact h

/-- Hints keep the imports of types. -/
theorem Imports.addHints (himports : Imports program module type) (clients : List Client)
    (h : program.conforms (.one .module)) : Imports (addHints clients program) module type := by
  obtain ⟨span, body, rfl, hbody⟩ := exists_body h
  obtain ⟨x, hx, heq⟩ := mem_map.1 (imports_iff.1 himports)
  have hkept : TypeHints.addHints clients x = x := by
    cases x with
    | node kind place children =>
      have hkind : kind = .importFrom := by
        exact (Ast.node.inj heq).1
      exact addHints_import clients (hbody _ hx) (.inr hkind)
    | _ => cases heq
  have hprogram : TypeHints.addHints clients (.node .module span [.list body]) =
      .node .module span [.list (body.map (TypeHints.addHints clients))] := by
    rw [funext (addHints_eq_changing clients), ← Ast.changingAll_eq_map]
    rfl
  rw [hprogram, imports_iff]
  exact mem_map.2 ⟨x, mem_map.2 ⟨x, hx, hkept⟩, heq⟩

theorem Imports.addImports (himports : Imports program module type) (clients : List Client)
    (h : program.conforms (.one .module)) : Imports (addImports clients program) module type := by
  obtain ⟨span, body, rfl, -⟩ := exists_body h
  rw [imports_iff] at himports
  rw [TypeHints.addImports, imports_iff, map_append]
  exact mem_append_right _ himports

/-- The type of each client object is imported from the module of its service. -/
theorem imports_of_client {clients : List Client} {types : ServiceTypes} (hclient : client ∈ clients)
    (htypes : client.types? = some types) (htype : client.typeName? = some type)
    (h : program.conforms (.one .module)) : Imports (addImports clients program) types.module type := by
  obtain ⟨span, body, rfl, -⟩ := exists_body h
  rw [addImports, imports_iff, map_append]
  have hadded : importStatement types.module type ∈ (clients.filterMap importOf?).reverse :=
    mem_reverse.2 (mem_filterMap.2
      ⟨client, hclient, importOf?_eq_some_iff.2 ⟨types, type, htypes, htype, rfl⟩⟩)
  exact mem_append_left _ (mem_map.2 ⟨_, hadded, rfl⟩)

end ServerlessTaint.TypeHints
