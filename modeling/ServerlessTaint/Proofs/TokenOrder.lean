import Mathlib
import ServerlessTaint.Yaml.Lexer

/-!
# The order of scalars among tokens

The lexer only reads on. A scalar starts where the lexer stands and stops no later than the place that
is reached, so the scalars of a text stand in their order, apart, and within the text
(`scalars_of_lex`). Marks of keys and blocks are put in between; they are not scalars.
-/

set_option mvcgen.warning false

namespace ServerlessTaint.Yaml

open List
open Std.Do

/-! ## Reading on -/

namespace Cursor

/-- A position is reached from another one by reading on in the same text. -/
structure Ahead (c d : Cursor) : Prop where
  le : c.mark.index ≤ d.mark.index
  total : d.mark.index + d.rest.length = c.mark.index + c.rest.length

attribute [grind →] Ahead.le

@[grind .]
theorem Ahead.refl (c : Cursor) : c.Ahead c := ⟨Nat.le_refl _, rfl⟩

variable {c d : Cursor}

@[grind →]
theorem Ahead.trans {e : Cursor} (h : c.Ahead d) (h' : d.Ahead e) : c.Ahead e :=
  ⟨Nat.le_trans h.le h'.le, h'.total.trans h.total⟩

theorem index_markAfter (m : Mark) (x : Char) (following : Option Char) :
    (markAfter m x following).index = m.index + 1 := by
  unfold markAfter
  split
  · rfl
  · split <;> rfl

theorem ahead_step (c : Cursor) : c.Ahead c.step := by
  obtain ⟨rest, m⟩ := c
  cases rest with
  | nil => exact Ahead.refl _
  | cons x rest =>
    constructor
    · rw [step, index_markAfter]
      exact Nat.le_succ _
    · simp only [step, index_markAfter, length_cons]
      omega

theorem ahead_advance (n : Nat) (c : Cursor) : c.Ahead (c.advance n) := by
  induction n generalizing c with
  | zero => exact Ahead.refl c
  | succ n ih => exact (ahead_step c).trans (ih c.step)

theorem ahead_takeWhile (p : Char → Bool) (c : Cursor) : c.Ahead (c.takeWhile p).2 := ahead_advance _ c

theorem ahead_skipWhile (p : Char → Bool) (c : Cursor) : c.Ahead (c.skipWhile p) := ahead_advance _ c

theorem ahead_skipSpaces (c : Cursor) : c.Ahead c.skipSpaces := ahead_advance _ c

theorem ahead_skipIndent (indent : Nat) (c : Cursor) : c.Ahead (c.skipIndent indent) := ahead_advance _ c

theorem ahead_skipComment (c : Cursor) : c.Ahead c.skipComment := by
  unfold skipComment
  split
  · exact ahead_takeWhile _ c
  · exact Ahead.refl c

@[grind →]
theorem ahead_of_lineBreak? {x : Char} (h : c.lineBreak? = some (x, d)) : c.Ahead d := by
  unfold lineBreak? at h
  split at h
  · cases h
    exact ahead_advance 2 c
  · split at h
    · cases h
      exact ahead_step c
    · split at h
      · cases h
        exact ahead_step c
      · cases h
  · cases h

theorem ahead_skipBreak (c : Cursor) : c.Ahead c.skipBreak := by
  unfold skipBreak
  split
  · rename_i h
    exact ahead_of_lineBreak? h
  · exact Ahead.refl c

-- These facts are taken up wherever a position that is reached is spoken of. Places are compared and not
-- calculated with, so `grind` does without its parts for rings and ordered fields.
grind_pattern ahead_step => c.step
grind_pattern ahead_advance => c.advance n
grind_pattern ahead_takeWhile => c.takeWhile p
grind_pattern ahead_skipWhile => c.skipWhile p
grind_pattern ahead_skipSpaces => c.skipSpaces
grind_pattern ahead_skipIndent => c.skipIndent indent
grind_pattern ahead_skipComment => c.skipComment
grind_pattern ahead_skipBreak => c.skipBreak

end Cursor

open Cursor

/-- The result of a computation, if there is one, has a property. -/
abbrev Gives {α : Type} (x : Except YamlFault α) (P : α → Prop) : Prop := ⦃⌜True⌝⦄ x ⦃⇓? a => ⌜P a⌝⦄

section Results

variable {α : Type} {Q : PostCond α (.except YamlFault .pure)}

@[spec]
theorem ok_spec {a : α} : ⦃Q.1 a⦄ (Except.ok a : Except YamlFault α) ⦃Q⦄ := fun h => h

variable {e : YamlFault}

@[spec]
theorem error_spec : ⦃Q.2.1 e⦄ (Except.error e : Except YamlFault α) ⦃Q⦄ := fun h => h

/-- The general rule leaves the monad open in which a step throws; this one stands in its place. -/
@[spec high]
theorem throw_spec : ⦃Q.2.1 e⦄ (throw e : Except YamlFault α) ⦃Q⦄ := fun h => h

end Results

@[spec]
theorem gives_ignoredLine (c : Cursor) : Gives c.ignoredLine fun d => c.Ahead d := by
  mvcgen [ignoredLine]
  all_goals grind

/-! ## Reading scalars -/

@[spec]
theorem gives_charOfCode (n : Nat) : Gives (charOfCode n) fun _ => True := by
  mvcgen [charOfCode]

@[spec]
theorem gives_quotedBreaks (fuel : Nat) (c : Cursor) : Gives (quotedBreaks fuel c) fun r => c.Ahead r.2 := by
  induction fuel generalizing c with
  | zero =>
    mvcgen [quotedBreaks]
    exact Ahead.refl c
  | succ fuel ih =>
    mvcgen [quotedBreaks, ih]
    all_goals grind

@[spec]
theorem gives_escaped (c : Cursor) : Gives (escaped c) fun r => c.Ahead r.2 := by
  mvcgen [escaped]
  all_goals grind

@[spec]
theorem gives_quotedWord (double : Bool) (fuel : Nat) (c : Cursor) :
    Gives (quotedWord double fuel c) fun r => c.Ahead r.2 := by
  induction fuel generalizing c with
  | zero =>
    mvcgen [quotedWord]
    exact Ahead.refl c
  | succ fuel ih =>
    mvcgen [quotedWord, ih]
    all_goals grind

@[spec]
theorem gives_quotedSpaces (c : Cursor) : Gives (quotedSpaces c) fun r => c.Ahead r.2 := by
  mvcgen [quotedSpaces]
  all_goals grind

@[spec]
theorem gives_quotedParts (double : Bool) (fuel : Nat) (c : Cursor) :
    Gives (quotedParts double fuel c) fun r => c.Ahead r.2 := by
  induction fuel generalizing c with
  | zero => mvcgen [quotedParts]
  | succ fuel ih =>
    mvcgen [quotedParts, ih]
    all_goals grind

/-- A scalar that is read from a position stops between it and the position that is reached. -/
structure ScannedScalar.From (c : Cursor) (scalar : ScannedScalar) : Prop where
  ahead : c.Ahead scalar.after
  le_stop : c.mark.index ≤ scalar.stop.index
  stop_le : scalar.stop.index ≤ scalar.after.mark.index

@[spec]
theorem gives_quotedScalar (double : Bool) (c : Cursor) : Gives (quotedScalar double c) (·.From c) := by
  mvcgen [quotedScalar]
  rename_i r h
  exact ⟨h, h.le, Nat.le_refl _⟩

@[spec]
theorem gives_blockHead (c : Cursor) : Gives (blockHead c) fun r => c.Ahead r.2.2 := by
  mvcgen [blockHead]
  all_goals grind

theorem ahead_blockBreaks (indent fuel : Nat) (c : Cursor) :
    c.Ahead (blockBreaks indent fuel c).2.2 ∧ c.mark.index ≤ (blockBreaks indent fuel c).2.1.index ∧
      (blockBreaks indent fuel c).2.1.index ≤ (blockBreaks indent fuel c).2.2.mark.index := by
  fun_induction blockBreaks indent fuel c
  all_goals grind

variable {n place : Nat} {stop : Mark} {c : Cursor} {text : String} {ts : List Token}

theorem ahead_blockIndentation (fuel : Nat) (width : Nat) (h : stop.index ≤ c.mark.index) :
    c.Ahead (blockIndentation fuel stop width c).2.2.2 ∧
      stop.index ≤ (blockIndentation fuel stop width c).2.2.1.index ∧
      (blockIndentation fuel stop width c).2.2.1.index ≤
        (blockIndentation fuel stop width c).2.2.2.mark.index := by
  fun_induction blockIndentation fuel stop width c
  all_goals grind

theorem ahead_blockLines (indent : Nat) (folded : Bool) (fuel : Nat) (breaks : List Char)
    (h : stop.index ≤ c.mark.index) :
    c.Ahead (blockLines indent folded fuel breaks stop c).2.2.2.2 ∧
      stop.index ≤ (blockLines indent folded fuel breaks stop c).2.2.2.1.index ∧
      (blockLines indent folded fuel breaks stop c).2.2.2.1.index ≤
        (blockLines indent folded fuel breaks stop c).2.2.2.2.mark.index := by
  fun_induction blockLines indent folded fuel breaks stop c
  all_goals grind [ahead_blockBreaks]

theorem from_blockLines {d : Cursor} (hd : c.Ahead d) (hle : c.mark.index ≤ stop.index)
    (hstop : stop.index ≤ d.mark.index) (indent : Nat) (folded : Bool) (fuel : Nat) (breaks text : List Char) :
    ScannedScalar.From c ⟨text, (blockLines indent folded fuel breaks stop d).2.2.2.1,
      (blockLines indent folded fuel breaks stop d).2.2.2.2⟩ := by
  obtain ⟨hahead, hle', hstop'⟩ := ahead_blockLines indent folded fuel breaks hstop
  exact ⟨hd.trans hahead, Nat.le_trans hle hle', hstop'⟩

@[spec]
theorem gives_blockScalar (folded : Bool) (least : Nat) (c : Cursor) :
    Gives (blockScalar folded least c) (·.From c) := by
  mvcgen [blockScalar]
  rename_i head hhead line _ _ _ hline
  have hahead := hhead.trans hline
  obtain ⟨chomping, increment, c'⟩ := head
  cases increment with
  | none =>
    obtain ⟨h, hle, hstop⟩ := ahead_blockIndentation (line.rest.length + 1) 0 (Nat.le_refl line.mark.index)
    exact from_blockLines (hahead.trans h) (Nat.le_trans hahead.le hle) hstop ..
  | some n =>
    obtain ⟨h, hle, hstop⟩ := ahead_blockBreaks (max least 1 + n - 1) (line.rest.length + 1) line
    exact from_blockLines (hahead.trans h) (Nat.le_trans hahead.le hle) hstop ..

theorem ahead_plainBreaks (fuel : Nat) (c : Cursor) : c.Ahead (plainBreaks fuel c).2 := by
  fun_induction plainBreaks fuel c
  all_goals grind

theorem ahead_plainSpaces (c : Cursor) : c.Ahead (plainSpaces c).2.2 := by
  fun_cases plainSpaces c
  all_goals grind [ahead_plainBreaks]

theorem ahead_plainParts (inFlow : Bool) (indent fuel : Nat) (spaces : List Char) (broken : Bool)
    (h : stop.index ≤ c.mark.index) :
    c.Ahead (plainParts inFlow indent fuel spaces broken stop c).2.2.1 ∧
      stop.index ≤ (plainParts inFlow indent fuel spaces broken stop c).2.1.index ∧
      (plainParts inFlow indent fuel spaces broken stop c).2.1.index ≤
        (plainParts inFlow indent fuel spaces broken stop c).2.2.1.mark.index := by
  fun_induction plainParts inFlow indent fuel spaces broken stop c
  all_goals grind [ahead_plainSpaces]

theorem from_plainScalar (inFlow : Bool) (indent : Nat) (c : Cursor) : (plainScalar inFlow indent c).1.From c := by
  obtain ⟨hahead, hle, hstop⟩ :=
    ahead_plainParts inFlow indent (c.rest.length + 1) [] false (Nat.le_refl c.mark.index)
  exact ⟨hahead, hle, hstop⟩

/-! ## Scalars among tokens -/

def TokenKind.isScalar : TokenKind → Bool
  | .scalar .. => true
  | _ => false

def scalars (ts : List Token) : List Token := ts.filter (·.kind.isScalar)

theorem scalars_append (ts us : List Token) : scalars (ts ++ us) = scalars ts ++ scalars us := filter_append ..

theorem scalars_cons_of_not {t : Token} (h : t.kind.isScalar = false) (ts : List Token) :
    scalars (t :: ts) = scalars ts := filter_cons_of_neg (by simp [h])

/-- Tokens, the last first, stand in their order and apart before a place. -/
def Stacked : Nat → List Token → Prop
  | _, [] => True
  | place, t :: ts => t.start.index ≤ t.stop.index ∧ t.stop.index ≤ place ∧ Stacked t.start.index ts

theorem Stacked.mono {m : Nat} (h : Stacked m ts) (hmn : m ≤ n) : Stacked n ts := by
  cases ts with
  | nil => trivial
  | cons t ts => exact ⟨h.1, Nat.le_trans h.2.1 hmn, h.2.2⟩

theorem Stacked.within (h : Stacked place ts) : ∀ t ∈ ts, t.start.index ≤ t.stop.index ∧ t.stop.index ≤ place := by
  induction ts generalizing place with
  | nil => exact nofun
  | cons t ts ih =>
    obtain ⟨hle, hplace, hts⟩ := h
    exact forall_mem_cons.2 ⟨⟨hle, hplace⟩, ih (hts.mono (Nat.le_trans hle hplace))⟩

theorem Stacked.apart (h : Stacked place ts) :
    ts.Pairwise fun later earlier => earlier.stop.index ≤ later.start.index := by
  induction ts generalizing place with
  | nil => exact .nil
  | cons t ts ih => exact .cons (fun u hu => (h.2.2.within u hu).2) (ih h.2.2)

/-- The scalars read so far stand in their order and apart before a position of a text. -/
structure Ordered (length : Nat) (c : Cursor) (ts : List Token) : Prop where
  total : c.mark.index + c.rest.length = length
  stacked : Stacked c.mark.index (scalars ts)

section Order

variable {n : Nat} {c d : Cursor} {ts us : List Token}

section

variable (h : Ordered n c ts)

include h

theorem Ordered.ahead (hd : c.Ahead d) (hts : scalars us = scalars ts) : Ordered n d us :=
  ⟨hd.total.trans h.total, hts ▸ h.stacked.mono hd.le⟩

theorem Ordered.cons {t : Token} (ht : t.kind.isScalar = false) (hd : c.Ahead d) :
    Ordered n d (t :: ts) := h.ahead hd (scalars_cons_of_not ht ts)

theorem Ordered.cons_scalar {scalar : ScannedScalar} (hd : c.Ahead d) (hs : scalar.From d) (text : String)
    (style : Style) : Ordered n scalar.after (⟨.scalar text style, c.mark, scalar.stop⟩ :: ts) :=
  ⟨(hd.trans hs.ahead).total.trans h.total, Nat.le_trans hd.le hs.le_stop, hs.stop_le, h.stacked⟩

theorem Ordered.insert {t : Token} (ht : t.kind.isScalar = false) (k : Nat) :
    Ordered n c (ts.take k ++ t :: ts.drop k) := by
  refine h.ahead (Ahead.refl c) ?_
  rw [scalars_append, scalars_cons_of_not ht, ← scalars_append, take_append_drop]

theorem Ordered.blockEnds {α : Type} (inner : List α) (m : Mark) :
    Ordered n c (inner.map (fun _ => Token.mk .blockEnd m m) ++ ts) := by
  induction inner with
  | nil => exact h
  | cons i inner ih => exact ih.cons rfl (Ahead.refl c)

end

end Order

/-! ## Steps of the lexer -/

namespace Lex

/-- The scalars read so far stay in order. -/
abbrev Keeps {α : Type} (n : Nat) (x : Lex α) : Prop :=
  ⦃fun s => ⌜Ordered n s.cursor s.tokens⌝⦄ x ⦃⇓? _ s => ⌜Ordered n s.cursor s.tokens⌝⦄

variable {n : Nat}

@[spec high]
theorem throw_spec {α : Type} {e : YamlFault} {Q : PostCond α (.arg LexState (.except YamlFault .pure))} :
    ⦃fun _ => Q.2.1 e⦄ (throw e : Lex α) ⦃Q⦄ := fun _ h => h

@[spec]
theorem keeps_dropStaleKeys : Keeps n dropStaleKeys := by
  mvcgen [dropStaleKeys]

@[spec]
theorem keeps_dropKey : Keeps n dropKey := by
  mvcgen [dropKey]

@[spec]
theorem keeps_noteKey : Keeps n noteKey := by
  mvcgen [noteKey]

@[spec]
theorem keeps_unwind (column : Option Nat) : Keeps n (unwind column) := by
  mvcgen [unwind]
  rename_i h _ _ _
  exact h.blockEnds _ _

@[spec]
theorem keeps_openBlock (column : Nat) : Keeps n (openBlock column) := by
  mvcgen [openBlock]
  split
  all_goals mvcgen

@[spec]
theorem keeps_skipToToken (fuel : Nat) : Keeps n (skipToToken fuel) := by
  induction fuel with
  | zero => mvcgen [skipToToken]
  | succ fuel ih =>
    mvcgen [skipToToken, goTo, ih]
    · rename_i h _ _ _ hbreak
      exact h.ahead (by grind) rfl
    · rename_i h _ _ _
      exact h.ahead (by grind) rfl

variable {kind : TokenKind}

@[spec]
theorem keeps_insertBefore (hkind : kind.isScalar = false) (number : Nat) (mark : Mark) :
    Keeps n (insertBefore number kind mark) := by
  mvcgen [insertBefore]
  rename_i h _
  exact h.insert hkind _

@[spec]
theorem keeps_take (hkind : kind.isScalar = false) (length : Nat) : Keeps n (take kind length) := by
  mvcgen [take, goTo, push]
  rename_i s h _ _ _ _
  exact h.cons hkind (ahead_advance length s.cursor)

@[spec]
theorem keeps_streamEnd : Keeps n streamEnd := by
  mvcgen [streamEnd, push]
  rename_i h _ _
  exact h.cons rfl (Ahead.refl _)

@[spec]
theorem keeps_documentMark (hkind : kind.isScalar = false) : Keeps n (documentMark kind) := by
  mvcgen [documentMark, allowKey]

@[spec]
theorem keeps_flowStart (hkind : kind.isScalar = false) : Keeps n (flowStart kind) := by
  mvcgen [flowStart]

@[spec]
theorem keeps_flowEnd (hkind : kind.isScalar = false) : Keeps n (flowEnd kind) := by
  mvcgen [flowEnd]

@[spec]
theorem keeps_flowEntry : Keeps n flowEntry := by
  mvcgen [flowEntry, allowKey]
  exact fun _ _ => rfl

@[spec]
theorem keeps_blockMark (hkind : kind.isScalar = false) : Keeps n (blockMark kind) := by
  mvcgen [blockMark, push]
  rename_i s h _
  exact h.cons hkind (Ahead.refl s.cursor)

@[spec]
theorem keeps_blockEntry : Keeps n blockEntry := by
  mvcgen [blockEntry, allowKey]
  exact fun _ _ => rfl

@[spec]
theorem keeps_complexKey : Keeps n complexKey := by
  mvcgen [complexKey, allowKey]
  exact fun _ _ => rfl

@[spec]
theorem keeps_value : Keeps n value := by
  mvcgen [value, allowKey]
  exact fun _ _ => rfl

@[spec]
theorem keeps_anchorName {kind : String → TokenKind} (hkind : ∀ name, (kind name).isScalar = false) :
    Keeps n (anchorName kind) := by
  mvcgen [anchorName, allowKey, goTo, push]
  rename_i s h _ _ _ _ _ _ _
  exact h.cons (hkind _) ((ahead_step s.cursor).trans (ahead_takeWhile isNameChar _))

@[spec]
theorem gives_percentBytes (fuel : Nat) (c : Cursor) : Gives (percentBytes fuel c) fun r => c.Ahead r.2 := by
  induction fuel generalizing c with
  | zero =>
    mvcgen [percentBytes]
    exact Ahead.refl c
  | succ fuel ih =>
    mvcgen [percentBytes, ih]
    all_goals grind

@[spec]
theorem gives_uriChars (fuel : Nat) (c : Cursor) : Gives (uriChars fuel c) fun r => c.Ahead r.2 := by
  induction fuel generalizing c with
  | zero =>
    mvcgen [uriChars]
    exact Ahead.refl c
  | succ fuel ih =>
    mvcgen [uriChars, ih]
    all_goals grind

@[spec]
theorem gives_uri (c : Cursor) : Gives (uri c) fun r => c.Ahead r.2 := by
  mvcgen [uri]

@[spec]
theorem gives_tagHandle (c : Cursor) : Gives (tagHandle c) fun r => c.Ahead r.2 := by
  mvcgen [tagHandle]
  all_goals grind

@[spec]
theorem gives_tagAt (c : Cursor) : Gives (tagAt c) fun r => c.Ahead r.2.2 := by
  mvcgen [tagAt]
  all_goals grind

@[spec]
theorem keeps_tag : Keeps n tag := by
  mvcgen [tag, allowKey, goTo, push]
  rename_i h _ _ _ _ _ hahead _ _
  exact h.cons rfl hahead

@[spec]
theorem gives_versionNumber (c : Cursor) : Gives (versionNumber c) fun r => c.Ahead r.2 := by
  mvcgen [versionNumber]
  all_goals grind

@[spec]
theorem gives_directiveAt (c : Cursor) : Gives (directiveAt c) fun r => r.1.isScalar = false ∧ c.Ahead r.2 := by
  mvcgen [directiveAt]
  all_goals grind [TokenKind.isScalar]

@[spec]
theorem keeps_directive : Keeps n directive := by
  mvcgen [directive, allowKey, goTo, push]
  rename_i s h _ _ _ hat _ _ hline _
  exact h.cons hat.1 (((ahead_step s.cursor).trans hat.2).trans hline)

@[spec]
theorem keeps_block (folded : Bool) : Keeps n (block folded) := by
  mvcgen [block, innerIndent, allowKey, goTo, push]
  · rename_i s h _ _ _ _ hscalar _ _
    exact h.cons_scalar (ahead_step s.cursor) hscalar _ _
  · rename_i s h _ _ _ hscalar _ _
    exact h.cons_scalar (ahead_step s.cursor) hscalar _ _

@[spec]
theorem keeps_quoted (double : Bool) : Keeps n (quoted double) := by
  mvcgen [quoted, allowKey, goTo, push]
  rename_i s h _ _ _ hscalar _ _
  exact h.cons_scalar (ahead_step s.cursor) hscalar _ _

@[spec]
theorem keeps_plain : Keeps n plain := by
  mvcgen [plain, innerIndent, allowKey, goTo, push]
  · rename_i s h _ _ _ _ _
    exact h.cons_scalar (Ahead.refl s.cursor) (from_plainScalar _ _ s.cursor) _ _
  · rename_i s h _ _ _ _
    exact h.cons_scalar (Ahead.refl s.cursor) (from_plainScalar _ _ s.cursor) _ _

@[spec]
theorem keeps_settle : Keeps n settle := by
  mvcgen [settle, goTo]
  rename_i s h _ _ _ _
  exact h.ahead (ahead_step s.cursor) rfl

@[spec]
theorem keeps_tokenFrom (inFlow : Bool) (c : Cursor) (x : Char) : Keeps n (tokenFrom inFlow c x) := by
  mvcgen [tokenFrom]
  all_goals
    intros
    rfl

@[spec]
theorem keeps_tokenHere : Keeps n tokenHere := by
  mvcgen [tokenHere]

/-- Whatever the next token is, the scalars stay in order. -/
theorem keeps_token : Keeps n token := by
  mvcgen [token]

/-- So they do while all tokens are read. -/
theorem keeps_tokens (fuel : Nat) : Keeps n (tokens fuel) := by
  induction fuel with
  | zero => mvcgen [tokens]
  | succ fuel ih =>
    have htoken : Keeps n token := keeps_token
    mvcgen [tokens, htoken, ih]

end Lex

theorem Lex.Keeps.run {α : Type} {x : Lex α} (h : x.Keeps n) {s s' : LexState} {a : α}
    (hs : Ordered n s.cursor s.tokens) (hx : x.run s = .ok (a, s')) : Ordered n s'.cursor s'.tokens := by
  have hwp : (wp⟦x.run s⟧ (⇓? r => ⌜Ordered n r.2.cursor r.2.tokens⌝)).down := h s hs
  rw [hx] at hwp
  exact hwp

theorem ordered_of_lex (h : lex text = .ok ts) : ∃ c, Ordered text.toList.length c ts.reverse := by
  have hstart : Ordered text.toList.length (.ofText text.toList) [] := ⟨Nat.zero_add _, trivial⟩
  dsimp only [lex] at h
  split at h
  · cases h
  · cases hrun : (Lex.tokens (text.toList.length + 2)).run { cursor := .ofText text.toList } with
    | error e =>
      rw [hrun] at h
      cases h
    | ok result =>
      rw [hrun] at h
      cases h
      rw [reverse_reverse]
      exact ⟨_, (Lex.keeps_tokens _).run hstart hrun⟩

/-- The scalars of a text stand in their order and apart, each within the text. -/
theorem scalars_of_lex (h : lex text = .ok ts) :
    (∀ t ∈ scalars ts, t.start.index ≤ t.stop.index ∧ t.stop.index ≤ text.toList.length) ∧
      (scalars ts).Pairwise fun t u => t.stop.index ≤ u.start.index := by
  obtain ⟨c, hc⟩ := ordered_of_lex h
  have hstacked := hc.stacked.mono (Nat.le_trans (Nat.le_add_right _ _) (Nat.le_of_eq hc.total))
  rw [scalars, filter_reverse] at hstacked
  refine ⟨fun t ht => hstacked.within t (mem_reverse.2 ht), ?_⟩
  exact pairwise_reverse.1 hstacked.apart

end ServerlessTaint.Yaml
