import Mathlib
import ServerlessTaint.Proofs.AbstractGrammar
import ServerlessTaint.Syntax.Program

/-!
# What the rules for expressions and patterns yield

The rules of the grammar refer to each other through their recursive parts. If these read trees of the
sorts that they are for, then so does every rule for expressions and patterns.

A step yields values with a property if every result that it can have, from whatever cursor it starts, has the property.
For the steps from which the grammar is built this follows from their parts.
-/

set_option mvcgen.warning false

namespace ServerlessTaint.Syntax

open List
open Parse
open Std.Do

/-- The result of a computation, if there is one, has a property. -/
abbrev Yields {m : Type → Type} {shape : PostShape} [WP m shape] {α : Type} (p : m α) (P : α → Prop) : Prop :=
  ⦃⌜True⌝⦄ p ⦃⇓? a => ⌜P a⌝⦄

theorem yields_except_iff {ε α : Type} {x : Except ε α} {P : α → Prop} : Yields x P ↔ ∀ a, x = .ok a → P a := by
  cases x with
  | error fault => exact ⟨nofun, fun _ _ => trivial⟩
  | ok a =>
    constructor
    · rintro h _ ⟨⟩
      exact h trivial
    · intro h _
      exact h a rfl

section

variable {α β : Type} {P : α → Prop} {p q : Parse α}

theorem wp_eq_ok {c c' : Cursor} {a : α} (h : p c = .ok (a, c')) : (wp⟦p⟧ (⇓? a => ⌜P a⌝) c).down ↔ P a := by
  have hwp : wp⟦p⟧ (⇓? a => ⌜P a⌝) c = wp⟦p c⟧ (⇓? a => ⌜P a.1⌝) := rfl
  rw [hwp, h]
  exact Iff.rfl

theorem wp_eq_error {c : Cursor} {stop : Stop} (h : p c = .error stop) : (wp⟦p⟧ (⇓? a => ⌜P a⌝) c).down := by
  have hwp : wp⟦p⟧ (⇓? a => ⌜P a⌝) c = wp⟦p c⟧ (⇓? a => ⌜P a.1⌝) := rfl
  rw [hwp, h]
  trivial

theorem yields_iff : Yields p P ↔ ∀ c a c', p c = .ok (a, c') → P a := by
  constructor
  · intro h c a c' hp
    exact (wp_eq_ok hp).1 (h c trivial)
  · intro h c _
    cases hp : p c with
    | error stop => exact wp_eq_error hp
    | ok result => exact (wp_eq_ok hp).2 (h c _ _ hp)

theorem Yields.mono {Q : α → Prop} (h : Yields p P) (hsub : ∀ a, P a → Q a) : Yields p Q := by
  rw [yields_iff] at h ⊢
  intro c a c' hp
  exact hsub a (h c a c' hp)

/-- The form in which the goal of a step that looks at the cursor is left over. -/
theorem Yields.down (h : Yields p P) (c : Cursor) : (wp⟦p⟧ (⇓? a => ⌜P a⌝) c).down := h c trivial

/-- The same for such a step with more to follow. -/
theorem Yields.bind_down {f : α → Parse β} {Q : β → Prop} (hp : Yields p P) (hf : ∀ a, P a → Yields (f a) Q)
    (c : Cursor) : (wp⟦p⟧ (fun a => wp⟦f a⟧ (⇓? b => ⌜Q b⌝), ExceptConds.true) c).down := by
  have hwp : wp⟦p⟧ (fun a => wp⟦f a⟧ (⇓? b => ⌜Q b⌝), ExceptConds.true) c =
      wp⟦p c⟧ (fun a => wp⟦f a.1⟧ (⇓? b => ⌜Q b⌝) a.2, ExceptConds.true) := rfl
  rw [hwp]
  cases hc : p c with
  | error stop => trivial
  | ok result => exact (hf _ (yields_iff.1 hp c _ _ hc)).down result.2

theorem yields_true (p : Parse α) : Yields p fun _ => True := yields_iff.2 fun _ _ _ _ => trivial

@[spec]
theorem yields_fail : Yields (fail : Parse α) P := by
  rw [yields_iff]
  intro c a c' h
  cases h

@[spec]
theorem yields_halt {fault : SyntaxFault} : Yields (halt fault : Parse α) P := by
  rw [yields_iff]
  intro c a c' h
  cases h

@[spec]
theorem yields_node {kind : Kind} {start : Position} {children : List Ast} :
    Yields (node kind start children) fun t =>
      Ast.fits kind.sorts children → t.conforms (.one kind.cls) := by
  rw [yields_iff]
  intro c a c' h
  cases h
  simp

theorem Yields.orElse (hp : Yields p P) (hq : Yields q P) : Yields (orElse p q) P := by
  rw [yields_iff] at hp hq ⊢
  intro c a c' h
  unfold Parse.orElse at h
  split at h
  · exact hq _ _ _ h
  · exact hp _ _ _ h

theorem Yields.map {f : β → α} {p : Parse β} (hp : Yields p fun b => P (f b)) : Yields (f <$> p) P := by
  mvcgen [hp]

theorem Yields.after {p : Parse β} (hq : Yields q P) : Yields (p *> q) P := by
  have hp := yields_true p
  rw [seqRight_eq_bind]
  mvcgen [hp, hq]

theorem Yields.before {q : Parse β} (hp : Yields p P) : Yields (p <* q) P := by
  have hq := yields_true q
  rw [seqLeft_eq_bind]
  mvcgen [hp, hq]

theorem Yields.optional (hp : Yields p P) : Yields (optional p) fun o => ∀ a, o = some a → P a := by
  refine Yields.orElse (Yields.map ?_) ?_
  · mvcgen [hp]
    grind -linarith
  · mvcgen
    grind -linarith

theorem Yields.upTo (hp : Yields p P) (n : Nat) : Yields (upTo p n) fun as => ∀ a ∈ as, P a := by
  induction n with
  | zero => mvcgen [Parse.upTo]; grind
  | succ n ih =>
    have ho := hp.optional
    mvcgen [Parse.upTo, ho, ih]
    all_goals grind -linarith

/-- A step that looks at the cursor to find out how long it may go on. -/
theorem Yields.withCursor {p : Cursor → Parse α} (hp : ∀ c, Yields (p c) P) :
    Yields (m := Parse) (fun c => p c c) P := by
  rw [yields_iff]
  intro c a c' h
  exact yields_iff.1 (hp c) c a c' h

theorem Yields.many (hp : Yields p P) : Yields (many p) fun as => ∀ a ∈ as, P a :=
  Yields.withCursor (p := fun c => Parse.upTo p c.tokens.length) fun c => hp.upTo c.tokens.length

theorem Yields.commaSeparated (hp : Yields p P) : Yields (commaSeparated p) fun as => ∀ a ∈ as, P a := by
  have hrest := (Yields.after (p := op ",") hp).many
  mvcgen [Parse.commaSeparated, hp, hrest]
  grind -linarith

/-- A tree that may be missing. -/
theorem Yields.optionalTree {cls : NodeClass} {p : Parse Ast} (hp : Yields p fun t => t.conforms (.one cls)) :
    Yields (Parse.optional p) fun o => (o.getD .absent).conforms (.optional cls) := by
  have ho := hp.optional
  rw [yields_iff] at ho ⊢
  intro c o c' h
  cases o with
  | none => rfl
  | some t => exact Ast.conforms_optional (ho c _ c' h t rfl)

end

/-! ## Tokens

Of tokens, positions and answers about them nothing is needed.
-/

@[spec]
theorem yields_token (p : Parse Token) : Yields p fun _ => True := yields_true p

@[spec]
theorem yields_bool (p : Parse Bool) : Yields p fun _ => True := yields_true p

@[spec]
theorem yields_position (p : Parse Position) : Yields p fun _ => True := yields_true p

@[spec]
theorem yields_second (p : Parse (Option Token)) : Yields p fun _ => True := yields_true p

section

variable {r : Rules} {whole : Parse Ast} {ops : List (String × Kind)} {a : Arguments} {operand : Parse Ast}

/-- The recursive parts of the grammar read trees of their sorts. -/
structure Rules.Sound (r : Rules) : Prop where
  expression : Yields (r .expression) Ast.IsExpression
  disjunction : Yields (r .disjunction) Ast.IsExpression
  inversion : Yields (r .inversion) Ast.IsExpression
  bitwiseOr : Yields (r .bitwiseOr) Ast.IsExpression
  factor : Yields (r .factor) Ast.IsExpression
  pattern : Yields (r .pattern) fun t => t.conforms (.one .pattern) = true
  statements : Yields (r .statements) fun t => t.conforms (.many .statement) = true

attribute [spec] Rules.Sound.expression Rules.Sound.disjunction Rules.Sound.inversion Rules.Sound.bitwiseOr
  Rules.Sound.factor Rules.Sound.pattern Rules.Sound.statements

@[spec]
theorem yields_nameNode : Yields nameNode fun t => t.IsExpression ∧ t.isKind .name := by
  mvcgen [nameNode]

@[spec]
theorem yields_starExpression (hr : r.Sound) : Yields (starExpression r) Ast.IsExpression := by
  mvcgen [starExpression]
  all_goals grind -linarith

theorem yields_tupleOf {element : Parse Ast} (h : Yields element Ast.IsExpression) :
    Yields (tupleOf element) Ast.IsExpression := by
  have hrest := (Yields.after (p := op ",") h).many
  mvcgen [tupleOf, h, hrest]
  all_goals grind -linarith

@[spec]
theorem yields_starExpressions (hr : r.Sound) : Yields (starExpressions r) Ast.IsExpression :=
  yields_tupleOf (yields_starExpression hr)

@[spec]
theorem yields_namedExpression (hr : r.Sound) : Yields (namedExpression r) Ast.IsExpression := by
  mvcgen [namedExpression]
  all_goals grind -linarith

@[spec]
theorem yields_starNamedExpression (hr : r.Sound) : Yields (starNamedExpression r) Ast.IsExpression := by
  mvcgen [starNamedExpression]
  all_goals grind -linarith

@[spec]
theorem yields_yieldExpression (hr : r.Sound) : Yields (yieldExpression r) Ast.IsExpression := by
  have hvalue := (yields_starExpressions hr).optionalTree
  mvcgen [yieldExpression, hvalue]
  all_goals grind -linarith

@[spec]
theorem yields_loopTarget (hr : r.Sound) : Yields (loopTarget r) Ast.IsExpression := by
  mvcgen [loopTarget]
  all_goals grind -linarith

@[spec]
theorem yields_forClause (hr : r.Sound) : Yields (forClause r) fun t => t.conforms (.one .comprehension) := by
  have htargets := yields_tupleOf (yields_loopTarget hr)
  have hconditions := (Yields.after (p := word "if") hr.disjunction).many
  mvcgen [forClause, loopTargets, htargets, hconditions]
  all_goals grind -linarith

@[spec]
theorem yields_forClauses (hr : r.Sound) : Yields (forClauses r) fun t => t.conforms (.many .comprehension) := by
  have hrest := (yields_forClause hr).many
  mvcgen [forClauses, hrest]
  all_goals grind -linarith

/-! ## Parameters -/

theorem yields_parameter (hr : r.Sound) (annotated starAllowed : Bool) :
    Yields (parameter r annotated starAllowed) fun t => t.conforms (.one .parameter) := by
  mvcgen [parameter]
  all_goals grind -linarith

/-- The parameters read so far are parameters, and their default values expressions. -/
structure Parameters.Sound (p : Parameters) : Prop where
  positionalOnly : ∀ t ∈ p.positionalOnly, t.conforms (.one .parameter) = true
  positional : ∀ t ∈ p.positional, t.conforms (.one .parameter) = true
  defaults : ∀ t ∈ p.defaults, t.IsExpression
  vararg : p.vararg.conforms (.optional .parameter) = true
  keywordOnly : ∀ t ∈ p.keywordOnly, t.conforms (.one .parameter) = true
  keywordDefaults : ∀ t ∈ p.keywordDefaults, t.conforms (.optional .expression) = true
  kwarg : p.kwarg.conforms (.optional .parameter) = true

theorem Parameters.sound_empty : Parameters.Sound {} := by constructor <;> simp

theorem Parameters.Sound.tree {p : Parameters} (h : p.Sound) : p.tree.conforms (.one .parameters) := by
  obtain ⟨hfirst, hpositional, hdefaults, hvararg, hkeyword, hvalues, hkwarg⟩ := h
  simp_all [Parameters.tree, Kind.sorts, Kind.cls]

theorem yields_parameterStep (hr : r.Sound) (annotated : Bool) {p : Parameters} (hp : p.Sound)
    (stage : ParameterStage) : Yields (parameterStep r annotated p stage) fun next => next.1.Sound := by
  have hparameter := yields_parameter hr annotated
  obtain ⟨hfirst, hpositional, hdefaults, hvararg, hkeyword, hvalues, hkwarg⟩ := hp
  mvcgen [parameterStep, hparameter]
  all_goals (constructor <;> first | assumption | grind -linarith)

theorem yields_parameterLoop (hr : r.Sound) (annotated : Bool) (close : String) (n : Nat) {p : Parameters}
    (hp : p.Sound) (stage : ParameterStage) : Yields (parameterLoop r annotated close n p stage) Parameters.Sound := by
  induction n generalizing p stage with
  | zero => exact yields_fail
  | succ n ih =>
    have hstep := yields_parameterStep hr annotated hp stage
    mvcgen [parameterLoop, hstep, ih]
    all_goals grind -linarith

@[spec]
theorem yields_parameters (hr : r.Sound) (annotated : Bool) (close : String) :
    Yields (parameters r annotated close) fun t => t.conforms (.one .parameters) :=
  Yields.withCursor
    (p := fun c => (·.tree) <$> parameterLoop r annotated close (c.tokens.length + 1) {} (.positional false))
    fun c => ((yields_parameterLoop hr annotated close (c.tokens.length + 1) Parameters.sound_empty _).mono
      fun _ hp => hp.tree).map

@[spec]
theorem yields_lambdaExpression (hr : r.Sound) : Yields (lambdaExpression r) Ast.IsExpression := by
  mvcgen [lambdaExpression]
  all_goals grind -linarith

/-! ## Calls and subscripts -/

/-- The arguments read so far are expressions and keywords. -/
abbrev Arguments.Sound (a : Arguments) : Prop :=
  (∀ t ∈ a.positional, t.IsExpression) ∧ ∀ t ∈ a.keywords, t.conforms (.one .keyword) = true

section

variable (hr : r.Sound)

include hr

theorem yields_argumentStep (ha : a.Sound) (stage : ArgumentStage) :
    Yields (argumentStep r a stage) fun next => next.1.Sound := by
  mvcgen [argumentStep]
  all_goals grind -linarith

theorem yields_argumentLoop (n : Nat) (ha : a.Sound) (stage : ArgumentStage) :
    Yields (argumentLoop r n a stage) Arguments.Sound := by
  induction n generalizing a stage with
  | zero => exact yields_fail
  | succ n ih =>
    have hstep := yields_argumentStep hr ha stage
    mvcgen [argumentLoop, hstep, ih]
    all_goals grind -linarith

theorem yields_argumentsFrom (ha : a.Sound) :
    Yields (m := Parse) (fun c => argumentLoop r (c.tokens.length + 1) a .positional c) Arguments.Sound :=
  Yields.withCursor fun c => yields_argumentLoop hr (c.tokens.length + 1) ha .positional

@[spec]
theorem yields_callArguments : Yields (callArguments r) Arguments.Sound := by
  mvcgen [callArguments]
  · grind -linarith
  · grind -linarith
  · exact (yields_argumentsFrom hr (by grind -linarith)).down
  · exact (yields_argumentsFrom hr (by grind -linarith)).down

@[spec]
theorem yields_sliceFrom (start : Position) {lower : Ast} (hlower : lower.conforms (.optional .expression)) :
    Yields (sliceElement.sliceFrom r start lower) Ast.IsExpression := by
  have hbound := hr.expression.optionalTree
  mvcgen [sliceElement.sliceFrom, hbound]
  all_goals grind -linarith

@[spec]
theorem yields_sliceElement : Yields (sliceElement r) Ast.IsExpression := by
  mvcgen [sliceElement]
  all_goals grind -linarith

@[spec]
theorem yields_slices : Yields (slices r) Ast.IsExpression := by
  have helement : Yields (do
      let start ← here
      if ← opIfNext "*" then
        let value ← r .expression
        node .starred start [value]
      else sliceElement r) Ast.IsExpression := by
    mvcgen
    all_goals grind -linarith
  have hrest := (Yields.after (p := op ",") helement).many
  mvcgen [slices, hrest]
  all_goals grind -linarith

/-! ## Atoms -/

@[spec]
theorem yields_parenthesized : Yields (parenthesized r) Ast.IsExpression := by
  have hrest := (Yields.after (p := op ",") (yields_starNamedExpression hr)).many
  mvcgen [parenthesized, hrest]
  all_goals grind -linarith

@[spec]
theorem yields_bracketed : Yields (bracketed r) Ast.IsExpression := by
  have hrest := (Yields.after (p := op ",") (yields_starNamedExpression hr)).many
  mvcgen [bracketed, hrest]
  all_goals grind -linarith

end

/-- An entry of a dictionary: an optional key and a value. -/
abbrev IsEntry (entry : Ast × Ast) : Prop :=
  entry.1.conforms (.optional .expression) = true ∧ entry.2.IsExpression

@[spec]
theorem yields_dictEntry (hr : r.Sound) : Yields (dictEntry r) IsEntry := by
  mvcgen [dictEntry]
  all_goals grind -linarith

theorem fits_dict {entries : List (Ast × Ast)} (h : ∀ entry ∈ entries, IsEntry entry) :
    Ast.fits Kind.dict.sorts [.list (entries.map (·.1)), .list (entries.map (·.2))] := by
  simp [Kind.sorts]
  grind -linarith

@[spec]
theorem yields_dictRest (hr : r.Sound) (start : Position) {first : Ast × Ast} (hfirst : IsEntry first) :
    Yields (dictRest r start first) Ast.IsExpression := by
  have hrest := (Yields.after (p := op ",") (yields_dictEntry hr)).many
  mvcgen [dictRest, hrest]
  grind -linarith [fits_dict]

@[spec]
theorem yields_braced (hr : r.Sound) : Yields (braced r) Ast.IsExpression := by
  have hrest := (Yields.after (p := op ",") (yields_starNamedExpression hr)).many
  mvcgen [braced, hrest]
  all_goals grind -linarith

@[spec]
theorem yields_literalNode (start : Position) (value : Constant) :
    Yields (literalNode start value) Ast.IsExpression := by
  mvcgen [literalNode]
  all_goals grind -linarith

/-! ## String literals -/

/-- A piece of a string literal is text or an expression. -/
def Piece.Sound : Piece → Prop
  | .text _ => True
  | .value t => t.IsExpression

theorem Piece.Sound.node {piece : Piece} (h : piece.Sound) (span : Span) : (piece.node span).IsExpression := by
  cases piece with
  | text => simp [Piece.node, Ast.IsExpression, Kind.sorts, Kind.cls]
  | value => exact h

theorem sound_joinPieces {pieces : List Piece} (h : ∀ piece ∈ pieces, piece.Sound) :
    ∀ piece ∈ joinPieces pieces, piece.Sound := by
  fun_induction joinPieces pieces with
  | case1 => simp
  | case2 rest ih => grind -linarith
  | case3 | case4 | case5 => grind -linarith [Piece.Sound]

theorem isExpression_joinedNode {pieces : List Piece} (h : ∀ piece ∈ pieces, piece.Sound) (span : Span) :
    (joinedNode span pieces).IsExpression := by
  have hnodes : ∀ piece ∈ joinPieces pieces, (piece.node span).IsExpression :=
    fun piece hpiece => (sound_joinPieces h piece hpiece).node span
  simpa [joinedNode, Ast.IsExpression, Kind.sorts, Kind.cls] using hnodes

section

variable (h : Yields whole Ast.IsExpression)

include h

theorem yields_embedded (place : Position) (text : List Char) :
    Yields (embedded whole place text) Ast.IsExpression := by
  rw [yields_except_iff]
  intro t ht
  unfold embedded at ht
  split at ht
  · cases ht
  · dsimp only at ht
    split at ht
    · rename_i hwhole
      cases ht
      exact yields_iff.1 h _ _ _ hwhole
    · cases ht

theorem yields_formatted (raw : Bool) (span : Span) (fuel : Nat) :
    (∀ level place cs, Yields (formattedPieces whole raw span fuel level place cs) fun out =>
      ∀ piece ∈ out.1, piece.Sound) ∧
    ∀ level place cs, Yields (formattedValue whole raw span fuel level place cs) fun out =>
      ∀ piece ∈ out.1, piece.Sound := by
  have hembedded := yields_embedded h
  induction fuel with
  | zero =>
    constructor
    · intro level place cs
      mvcgen
    · intro level place cs
      mvcgen
  | succ fuel ih =>
    obtain ⟨hpieces, hvalue⟩ := ih
    constructor
    · intro level place cs
      mvcgen [formattedPieces, hpieces, hvalue]
      all_goals grind -linarith [Piece.Sound]
    · intro level place cs
      have hnode := @isExpression_joinedNode
      mvcgen [formattedValue, hembedded, hpieces]
      all_goals grind -linarith [Piece.Sound]

theorem yields_stringPieces (span : Span) (token : Token) :
    Yields (stringPieces whole span token) fun pieces => ∀ piece ∈ pieces, piece.Sound := by
  have hpieces := fun raw fuel => (yields_formatted h raw span fuel).1
  mvcgen [stringPieces, hpieces]
  all_goals grind -linarith [Piece.Sound]

end

theorem yields_mapM {α β : Type} {f : α → Except Stop β} {P : β → Prop} (h : ∀ a, Yields (f a) P) (as : List α) :
    Yields (as.mapM f) fun bs => ∀ b ∈ bs, P b := by
  induction as with
  | nil =>
    mvcgen
    simp
  | cons a as ih =>
    rw [mapM_cons]
    mvcgen [h, ih]
    grind -linarith

theorem yields_stringLiteral (h : Yields whole Ast.IsExpression) (span : Span)
    (tokens : List Token) : Yields (stringLiteral whole span tokens) Ast.IsExpression := by
  have hpieces := yields_mapM (yields_stringPieces h span) tokens
  have hbytes := yields_mapM (fun token => yields_except_iff.2 fun (_ : List UInt8) (_ : stringBytes token = _) => trivial) tokens
  have hnode := @isExpression_joinedNode
  mvcgen [stringLiteral, hbytes, hpieces]
  all_goals grind -linarith [mem_flatten]

theorem yields_stringAtom (h : Yields whole Ast.IsExpression) : Yields (stringAtom whole) Ast.IsExpression := by
  have hstrings := (yields_true (ofClass .string)).many
  mvcgen [stringAtom, hstrings]
  intro c _
  refine Yields.down (yields_iff.2 ?_) c
  intro c t c' ht
  split at ht
  · rename_i hliteral
    cases ht
    exact yields_except_iff.1 (yields_stringLiteral h _ _) _ hliteral
  · cases ht

@[spec]
theorem yields_atom (hr : r.Sound) : Yields (atom r) Ast.IsExpression := by
  have hstring := yields_stringAtom (yields_starExpressions hr)
  have hliteral := fun start value => Yields.after (p := next) (yields_literalNode start value)
  mvcgen [atom, hstring, hliteral]
  all_goals grind -linarith

theorem fits_call {tree : Ast} (htree : tree.IsExpression) (ha : a.Sound) :
    Ast.fits Kind.call.sorts [tree, .list a.positional, .list a.keywords] := by
  simp_all [Kind.sorts]

theorem yields_trailers (hr : r.Sound) (start : Position) (n : Nat) {tree : Ast} (htree : tree.IsExpression) :
    Yields (trailers r start n tree) Ast.IsExpression := by
  induction n generalizing tree with
  | zero =>
    mvcgen [trailers]
  | succ n ih =>
    mvcgen [trailers, ih]
    all_goals grind -linarith [fits_call]

@[spec]
theorem yields_primary (hr : r.Sound) : Yields (primary r) Ast.IsExpression := by
  mvcgen [primary]
  intro c htree
  exact Yields.down (Yields.withCursor fun c => yields_trailers hr _ (c.tokens.length + 1) htree) c

/-! ## Operators -/

/-- The entries of a table stand for operators. -/
abbrev AreOperators (ops : List (String × Kind)) : Prop :=
  ∀ entry ∈ ops, (mark entry.2).conforms (.one .operator) = true

theorem conforms_mark (hops : AreOperators ops) {text : String} {kind : Kind}
    (h : ops.lookup text = some kind) : (mark kind).conforms (.one .operator) := by
  induction ops with
  | nil => cases h
  | cons entry ops ih =>
    rw [lookup_cons] at h
    split at h
    · cases h
      exact hops entry mem_cons_self
    · exact ih (fun e he => hops e (mem_cons_of_mem _ he)) h

theorem yields_binaryRest (hops : AreOperators ops)
    (h : Yields operand Ast.IsExpression) (start : Position) (n : Nat) {left : Ast} (hleft : left.IsExpression) :
    Yields (binaryRest ops operand start n left) Ast.IsExpression := by
  have hmark := @conforms_mark ops hops
  induction n generalizing left with
  | zero => mvcgen [binaryRest]
  | succ n ih =>
    mvcgen [binaryRest, h, ih]
    all_goals grind -linarith

theorem yields_binaryLevel (hops : AreOperators ops)
    (h : Yields operand Ast.IsExpression) : Yields (binaryLevel ops operand) Ast.IsExpression := by
  mvcgen [binaryLevel, h]
  intro c hleft
  exact Yields.down (Yields.withCursor fun c => yields_binaryRest hops h _ (c.tokens.length + 1) hleft) c

@[spec]
theorem yields_power (hr : r.Sound) : Yields (power r) Ast.IsExpression := by
  mvcgen [power]
  all_goals grind -linarith [mark]

theorem yields_factor (hr : r.Sound) : Yields (factor r) Ast.IsExpression := by
  have hmark := @conforms_mark signOps (by decide)
  mvcgen [factor]
  all_goals grind -linarith

theorem yields_sum (hr : r.Sound) : Yields (sum r) Ast.IsExpression :=
  yields_binaryLevel (by decide) (yields_binaryLevel (by decide) (yields_factor hr))

@[spec]
theorem yields_bitwiseOr (hr : r.Sound) : Yields (bitwiseOr r) Ast.IsExpression :=
  yields_binaryLevel (by decide) (yields_binaryLevel (by decide) (yields_binaryLevel (by decide)
    (yields_binaryLevel (by decide) (yields_sum hr))))

@[spec]
theorem yields_comparisonOp : Yields comparisonOp fun t => t.conforms (.one .operator) := by
  have hmark := @conforms_mark comparisonOps (by decide)
  mvcgen [comparisonOp, seqRight_eq_bind]
  all_goals grind -linarith [mark]

theorem fits_compare {left : Ast} {rest : List (Ast × Ast)} (hleft : left.IsExpression)
    (hrest : ∀ link ∈ rest, link.1.conforms (.one .operator) ∧ link.2.IsExpression) :
    Ast.fits Kind.compare.sorts [left, .list (rest.map (·.1)), .list (rest.map (·.2))] := by
  simp_all [Kind.sorts]
  grind -linarith

@[spec]
theorem yields_comparison (hr : r.Sound) : Yields (comparison r) Ast.IsExpression := by
  have hlink : Yields (do
      let kind ← comparisonOp
      let right ← bitwiseOr r
      return (kind, right)) fun link => link.1.conforms (.one .operator) = true ∧ link.2.IsExpression := by
    mvcgen
  have hrest := hlink.many
  mvcgen [comparison, hrest]
  all_goals grind -linarith [fits_compare]

theorem yields_inversion (hr : r.Sound) : Yields (inversion r) Ast.IsExpression := by
  mvcgen [inversion]
  all_goals grind -linarith [mark]

theorem yields_booleanLevel {text : String} {kind : Kind} (hkind : (mark kind).conforms (.one .operator))
    (h : Yields operand Ast.IsExpression) : Yields (booleanLevel text kind operand) Ast.IsExpression := by
  have hrest := (Yields.after (p := word text) h).many
  mvcgen [booleanLevel, h, hrest]
  all_goals grind -linarith

@[spec]
theorem yields_disjunction (hr : r.Sound) : Yields (disjunction r) Ast.IsExpression :=
  yields_booleanLevel (by decide) (yields_booleanLevel (by decide) (yields_inversion hr))

theorem yields_expression (hr : r.Sound) : Yields (expression r) Ast.IsExpression := by
  mvcgen [expression]
  all_goals grind -linarith

/-! ## Patterns -/

abbrev Ast.IsPattern (t : Ast) : Prop := t.conforms (.one .pattern) = true

@[spec]
theorem yields_signedNumber : Yields signedNumber Ast.IsExpression := by
  have hhalt : Yields (halt .invalid) Ast.IsExpression := yields_halt
  mvcgen [signedNumber, hhalt, -yields_halt]
  all_goals grind -linarith [mark]

@[spec]
theorem yields_numberPattern : Yields numberPattern Ast.IsExpression := by
  mvcgen [numberPattern]
  all_goals grind -linarith [mark]

theorem isExpression_build (start : Position) (parts : List Token) {tree : Ast} (h : tree.IsExpression) :
    (dottedRest.build start parts tree).IsExpression := by
  induction parts generalizing tree with
  | nil => exact h
  | cons t ts ih =>
    refine ih ?_
    simp_all [Ast.IsExpression, Kind.sorts, Kind.cls]

@[spec]
theorem yields_dottedRest (start : Position) {first : Ast} (h : first.IsExpression) :
    Yields (dottedRest start first) Ast.IsExpression := by
  have hparts := (yields_true (op "." *> identifier)).many
  have hbuild := fun parts => isExpression_build start parts h
  mvcgen [dottedRest, hparts]
  all_goals grind -linarith

@[spec]
theorem yields_maybeStarPattern (hr : r.Sound) : Yields (maybeStarPattern r) Ast.IsPattern := by
  mvcgen [maybeStarPattern]
  all_goals grind -linarith

@[spec]
theorem yields_sequenceRest (hr : r.Sound) (close : String) :
    Yields (sequenceRest r close) fun ts => ∀ t ∈ ts, t.IsPattern := by
  have hitems := (Yields.before (q := op ",") (yields_maybeStarPattern hr)).many
  mvcgen [sequenceRest, hitems]
  all_goals grind -linarith

@[spec]
theorem yields_mappingKey (hr : r.Sound) : Yields (mappingKey r) Ast.IsExpression := by
  have hstring := yields_stringAtom (yields_starExpressions hr)
  mvcgen [mappingKey, hstring]
  all_goals grind -linarith

abbrev IsPatternEntry : Sum (Ast × Ast) String → Prop
  | .inl entry => entry.1.IsExpression ∧ entry.2.IsPattern
  | .inr _ => True

theorem yields_mappingEntry (hr : r.Sound) : Yields (mappingEntry r) IsPatternEntry := by
  mvcgen [mappingEntry]

theorem fits_mapping {pairs : List (Ast × Ast)} {rest : Ast}
    (h : ∀ pair ∈ pairs, pair.1.IsExpression ∧ pair.2.IsPattern) (hrest : rest.conforms .optionalName) :
    Ast.fits Kind.matchMapping.sorts [.list (pairs.map (·.1)), .list (pairs.map (·.2)), rest] := by
  simp_all [Kind.sorts]
  grind -linarith

@[spec]
theorem yields_mappingPattern (hr : r.Sound) : Yields (mappingPattern r) Ast.IsPattern := by
  have hentries := (yields_mappingEntry hr).commaSeparated
  mvcgen [mappingPattern, hentries]
  all_goals grind -linarith [fits_mapping]

abbrev IsPatternArgument : Sum Ast (String × Ast) → Prop
  | .inl t => t.IsPattern
  | .inr argument => argument.2.IsPattern

theorem yields_classArgument (hr : r.Sound) : Yields (classArgument r) IsPatternArgument := by
  mvcgen [classArgument]

theorem fits_class {cls : Ast} {positional : List Ast} {keyword : List (String × Ast)} (hcls : cls.IsExpression)
    (hpositional : ∀ t ∈ positional, t.IsPattern) (hkeyword : ∀ p ∈ keyword, p.2.IsPattern) :
    Ast.fits Kind.matchClass.sorts
      [cls, .list positional, .list (keyword.map fun p => .name p.1), .list (keyword.map (·.2))] := by
  simp_all [Kind.sorts]
  grind -linarith

@[spec]
theorem yields_classPattern (hr : r.Sound) (start : Position) {cls : Ast} (hcls : cls.IsExpression) :
    Yields (classPattern r start cls) Ast.IsPattern := by
  have harguments := (yields_classArgument hr).commaSeparated
  mvcgen [classPattern, harguments]
  all_goals
    intro c hnode
    refine hnode (fits_class hcls ?_ ?_)
  all_goals grind -linarith

@[spec]
theorem yields_closedPattern (hr : r.Sound) : Yields (closedPattern r) Ast.IsPattern := by
  have hstring := yields_stringAtom (yields_starExpressions hr)
  mvcgen [closedPattern, seqRight_eq_bind, hstring]
  all_goals grind -linarith

theorem yields_pattern (hr : r.Sound) : Yields (pattern r) Ast.IsPattern := by
  have hrest := (Yields.after (p := op "|") (yields_closedPattern hr)).many
  mvcgen [pattern, hrest]
  all_goals grind -linarith

@[spec]
theorem yields_casePattern (hr : r.Sound) : Yields (casePattern r) Ast.IsPattern := by
  have hrest := (Yields.after (p := op ",") (yields_maybeStarPattern hr)).many
  mvcgen [casePattern, hrest]
  all_goals grind -linarith

end

end ServerlessTaint.Syntax
