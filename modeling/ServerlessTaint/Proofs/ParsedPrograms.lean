import ServerlessTaint.Proofs.ParsedExpressions

/-!
# What the rules for statements yield

The rules for statements read statements, given the recursive parts of the grammar. The grammar is these
rules unfolded, so by induction on the depth every program that is read from a text conforms to the
abstract grammar (`conforms_of_parseModule`).
-/

set_option mvcgen.warning false

namespace ServerlessTaint.Syntax

open Parse
open Std.Do

section

variable {r : Rules}

/-! ## Simple statements -/

abbrev Ast.IsStatement (t : Ast) : Prop := t.conforms (.one .statement) = true

/-- What stands alone on the left of an assignment can be annotated. -/
theorem conforms_target {t : Ast} (h : t.IsExpression) (hsingle : isSingleTarget t) : t.conforms .target := by
  cases t with
  | node kind span children =>
    cases kind <;> simp_all [isSingleTarget, Ast.conforms, FieldSort.takes, Ast.IsExpression]
  | _ => cases hsingle

@[spec]
theorem yields_assignedValue (hr : r.Sound) : Yields (assignedValue r) Ast.IsExpression := by
  mvcgen [assignedValue]
  all_goals grind -linarith

theorem yields_assignmentRest (hr : r.Sound) (n : Nat) {targets : List Ast}
    (htargets : ∀ t ∈ targets, t.IsExpression) :
    Yields (assignmentRest r n targets) fun out => (∀ t ∈ out.1, t.IsExpression) ∧ out.2.IsExpression := by
  induction n generalizing targets with
  | zero => exact yields_fail
  | succ n ih =>
    mvcgen [assignmentRest, ih]
    all_goals grind -linarith

@[spec]
theorem yields_expressionStatement (hr : r.Sound) : Yields (expressionStatement r) Ast.IsStatement := by
  have hmark := @conforms_mark augmentedOps (by decide)
  have htarget := fun t => conforms_target (t := t)
  mvcgen [expressionStatement]
  case vc8 =>
    refine Yields.bind_down
      (Yields.withCursor fun c => yields_assignmentRest hr (c.tokens.length + 1) (by grind -linarith)) ?_ _
    rintro ⟨targets, value⟩ ⟨htargets, hvalue⟩
    mvcgen
    grind -linarith
  all_goals grind -linarith

@[spec]
theorem yields_nameList : Yields nameList fun t => t.conforms .names := by
  have hnames := (yields_true identifier).commaSeparated
  mvcgen [nameList, hnames]
  grind -linarith

@[spec]
theorem yields_dottedName : Yields dottedName fun _ => True := yields_true _

@[spec]
theorem yields_importedAs : Yields importedAs fun t => t.conforms .optionalName := by
  mvcgen [importedAs]

abbrev Ast.IsImported (t : Ast) : Prop := t.conforms (.one .imported) = true

theorem yields_importedModule : Yields importedModule Ast.IsImported := by
  mvcgen [importedModule]
  all_goals grind -linarith

theorem yields_importedName : Yields importedName Ast.IsImported := by
  mvcgen [importedName]
  all_goals grind -linarith

theorem fits_importFrom {module : Ast} {names : List Ast} {level : Int}
    (hmodule : module.conforms .optionalName) (hnames : ∀ t ∈ names, t.IsImported) :
    Ast.fits Kind.importFrom.sorts [module, .list names, .number level] := by
  simp_all [Kind.sorts]

@[spec]
theorem yields_importFromStatement : Yields importFromStatement Ast.IsStatement := by
  have hlevel := yields_true importLevel
  have hmodule := yields_dottedName.optional
  have hnames := yields_importedName.commaSeparated
  have hfail : Yields fail fun ts : List Ast => ∀ t ∈ ts, t.IsImported := yields_fail
  mvcgen [importFromStatement, hlevel, hmodule, hnames, hfail, -yields_fail]
  all_goals grind -linarith [fits_importFrom]

theorem yields_keywordStatement (text : String) (kind : Kind) (hcls : kind.cls = .statement) (hsorts : kind.sorts = []) :
    Yields (keywordStatement text kind) Ast.IsStatement := by
  mvcgen [keywordStatement]
  grind -linarith

@[spec]
theorem yields_simpleStatement (hr : r.Sound) : Yields (simpleStatement r) Ast.IsStatement := by
  have hvalue := (yields_starExpressions hr).optionalTree
  have hmodules := yields_importedModule.commaSeparated
  have hexception := hr.expression.optional
  have htargets := hr.expression.commaSeparated
  have hpass := yields_keywordStatement "pass" .passStmt rfl rfl
  have hbreak := yields_keywordStatement "break" .breakStmt rfl rfl
  have hcontinue := yields_keywordStatement "continue" .continueStmt rfl rfl
  mvcgen [simpleStatement, hvalue, hmodules, hexception, htargets, hpass, hbreak, hcontinue]
  all_goals grind -linarith

abbrev Ast.AreStatements (t : Ast) : Prop := t.conforms (.many .statement) = true

@[spec]
theorem yields_simpleStatements (hr : r.Sound) : Yields (simpleStatements r) Ast.AreStatements := by
  have hrest := (Yields.after (p := op ";") (yields_simpleStatement hr)).many
  mvcgen [simpleStatements, hrest]
  grind -linarith

/-! ## Compound statements -/

/-- The statements of lists one after the other. -/
theorem areStatements_flatMap {ts : List Ast} (h : ∀ t ∈ ts, t.AreStatements) :
    ∀ s ∈ ts.flatMap Ast.items, s.IsStatement := by
  intro s hs
  obtain ⟨t, ht, hst⟩ := List.mem_flatMap.1 hs
  have hlist := h t ht
  cases t with
  | list items => exact Ast.allConform_iff.1 hlist s hst
  | _ => cases hst

section

variable (hr : r.Sound)

include hr

theorem yields_block : Yields (block r) Ast.AreStatements := by
  have hrest := hr.statements.many
  mvcgen [block, hrest]
  all_goals grind -linarith [areStatements_flatMap]

@[spec]
theorem yields_colonBlock : Yields (colonBlock r) Ast.AreStatements := (yields_block hr).after

@[spec]
theorem yields_elseBlock : Yields (elseBlock r) Ast.AreStatements := by
  mvcgen [elseBlock]
  all_goals grind -linarith

theorem yields_conditional (n : Nat) : Yields (conditional r n) Ast.IsStatement := by
  have htest := yields_namedExpression hr
  have hblock := yields_colonBlock hr
  have helse := yields_elseBlock hr
  induction n with
  | zero => exact yields_fail
  | succ n ih =>
    mvcgen [conditional, htest, hblock, helse, ih]
    all_goals grind -linarith

theorem yields_forStatement (kind : Kind) (hcls : kind.cls = .statement) (hsorts : kind.sorts = Kind.forLoop.sorts)
    (start : Position) : Yields (forStatement r start kind) Ast.IsStatement := by
  have htargets := yields_tupleOf (yields_loopTarget hr)
  mvcgen [forStatement, loopTargets, htargets]
  all_goals grind -linarith

theorem yields_withItem : Yields (withItem r) fun t => t.conforms (.one .withItem) := by
  mvcgen [withItem]
  all_goals grind -linarith

theorem yields_withStatement (kind : Kind) (hcls : kind.cls = .statement) (hsorts : kind.sorts = Kind.withBlock.sorts)
    (start : Position) : Yields (withStatement r start kind) Ast.IsStatement := by
  have hitems := (yields_withItem hr).commaSeparated
  have hbrackets : Yields (do
      let _ ← op "("
      let items ← commaSeparated (withItem r)
      let _ ← opIfNext ","
      let _ ← op ")"
      if ← opNext ":" then return items else fail) fun ts => ∀ t ∈ ts, t.conforms (.one .withItem) = true := by
    mvcgen [hitems]
  have hboth := hbrackets.orElse hitems
  mvcgen [withStatement, hboth]
  all_goals grind -linarith

theorem yields_exceptHandler : Yields (exceptHandler r) fun handler => handler.1.conforms (.one .handler) := by
  mvcgen [exceptHandler]
  all_goals grind -linarith

end

theorem fits_try {kind : Kind} (hkind : kind.sorts = Kind.tryStmt.sorts) {body orelse final : Ast}
    {handlers : List (Ast × Bool)} (hbody : body.AreStatements)
    (hhandlers : ∀ handler ∈ handlers, handler.1.conforms (.one .handler)) (horelse : orelse.AreStatements)
    (hfinal : final.AreStatements) : Ast.fits kind.sorts [body, .list (handlers.map (·.1)), orelse, final] := by
  simp_all [Kind.sorts]
  grind -linarith

theorem yields_tryStatement (hr : r.Sound) (start : Position) : Yields (tryStatement r start) Ast.IsStatement := by
  have hhandlers := (yields_exceptHandler hr).many
  mvcgen [tryStatement, hhandlers]
  all_goals grind -linarith [fits_try]

theorem yields_functionDefinition (hr : r.Sound) (kind : Kind) (hcls : kind.cls = .statement)
    (hsorts : kind.sorts = Kind.functionDef.sorts) (start : Position) {decorators : List Ast}
    (hdecorators : ∀ t ∈ decorators, t.IsExpression) :
    Yields (functionDefinition r start kind decorators) Ast.IsStatement := by
  mvcgen [functionDefinition]
  all_goals grind -linarith

theorem fits_class_definition {name : String} {a : Arguments} {body : Ast} {decorators : List Ast} (ha : a.Sound)
    (hbody : body.AreStatements) (hdecorators : ∀ t ∈ decorators, t.IsExpression) :
    Ast.fits Kind.classDef.sorts
      [.name name, .list a.positional, .list a.keywords, body, .list decorators] := by
  simp_all [Kind.sorts]

@[spec]
theorem yields_classDefinition (hr : r.Sound) (start : Position) {decorators : List Ast}
    (hdecorators : ∀ t ∈ decorators, t.IsExpression) : Yields (classDefinition r start decorators) Ast.IsStatement := by
  have hempty : Arguments.Sound {} := ⟨by simp, by simp⟩
  mvcgen [classDefinition]
  · refine Yields.bind_down (yields_argumentsFrom hr hempty) ?_ _
    intro a ha
    mvcgen
    grind -linarith [fits_class_definition]
  · grind -linarith

theorem yields_decorated (hr : r.Sound) : Yields (decorated r) Ast.IsStatement := by
  have hdecorator : Yields (do
      let _ ← op "@"
      let value ← namedExpression r
      let _ ← ofClass .newline
      return value) Ast.IsExpression := by
    mvcgen
  have hdecorators := hdecorator.many
  have hfunction := @yields_functionDefinition r hr .functionDef rfl rfl
  have hasync := @yields_functionDefinition r hr .asyncFunctionDef rfl rfl
  mvcgen [decorated, hdecorators, hfunction, hasync]
  all_goals grind -linarith

theorem yields_matchCase (hr : r.Sound) : Yields (matchCase r) fun t => t.conforms (.one .case) := by
  mvcgen [matchCase]
  all_goals grind -linarith

theorem yields_matchStatement (hr : r.Sound) (start : Position) : Yields (matchStatement r start) Ast.IsStatement := by
  have hsubject := yields_tupleOf (yields_starNamedExpression hr)
  have hcase := yields_matchCase hr
  have hrest := hcase.many
  have hfail : Yields fail fun _ : Unit => True := yields_fail
  mvcgen [matchStatement, hsubject, hcase, hrest, hfail, -yields_fail]
  all_goals grind -linarith

theorem yields_statement (hr : r.Sound) : Yields (statement r) Ast.AreStatements := by
  have hsingle : ∀ p : Parse Ast, Yields p Ast.IsStatement →
      Yields (do return .list [← p]) Ast.AreStatements := by
    intro p hp
    mvcgen [hp]
    grind -linarith
  have hdecorated := yields_decorated hr
  have hfor := yields_forStatement hr .forLoop rfl rfl
  have hasyncFor := fun start => (yields_forStatement hr .asyncFor rfl rfl start).after (p := next)
  have hwith := yields_withStatement hr .withBlock rfl rfl
  have hasyncWith := fun start => (yields_withStatement hr .asyncWith rfl rfl start).after (p := next)
  have htry := yields_tryStatement hr
  have hmatch := fun start => (hsingle _ (yields_matchStatement hr start)).orElse (yields_simpleStatements hr)
  mvcgen [statement, hdecorated, hfor, hasyncFor, hwith, hasyncWith, htry, hmatch]
  case vc8 =>
    refine Yields.bind_down (Yields.withCursor fun c => yields_conditional hr (c.tokens.length + 1)) ?_ _
    intro t ht
    mvcgen
    grind -linarith
  all_goals grind -linarith

end

/-- The grammar is sound, to whatever depth it is unfolded. -/
theorem sound_rules (n : Nat) : (rules n).Sound := by
  induction n with
  | zero => constructor <;> exact yields_fail
  | succ n ih =>
    exact ⟨yields_expression ih, yields_disjunction ih, yields_inversion ih, yields_bitwiseOr ih, yields_factor ih,
      yields_pattern ih, yields_statement ih⟩

/-- **Programs conform to the abstract grammar.** -/
theorem conforms_of_parseModule {text : String} {program : Ast} (h : parseModule text = .ok program) :
    program.conforms (.one .module) := by
  have hmodule : ∀ depth, Yields (do
      let statements ← many (rules depth .statements)
      let _ ← ofClass .endOfText
      return Ast.node .module none [.list (statements.flatMap Ast.items)]) fun t =>
        t.conforms (.one .module) = true := by
    intro depth
    have hlines := (sound_rules depth).statements.many
    mvcgen [hlines]
    simpa [Kind.sorts, Kind.cls] using areStatements_flatMap ‹_›
  unfold parseModule runParse at h
  dsimp only at h
  split at h
  · cases h
  · split at h
    · rename_i hrun
      cases h
      exact yields_iff.1 (hmodule _) _ _ _ hrun
    · cases h

end ServerlessTaint.Syntax
