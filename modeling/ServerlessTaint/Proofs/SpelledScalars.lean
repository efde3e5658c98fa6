import ServerlessTaint.Proofs.ReadingPositions
import ServerlessTaint.Yaml.Lexer

/-!
# Scalars as they are spelled

A scalar of one line is a text of words and spaces. On paper a single space between two words may be
a line end and the indentation of the next line, and a quote inside single quotes is doubled. A
spelled scalar is read back as its text (`plainScalar_words`, `quotedScalar_words`,
`quotedScalar_word`).
-/

namespace ServerlessTaint.Yaml

open List
open Cursor

/-! ## Words -/

/-- What stands between two words: spaces, at least one, or a line end and the indentation of the
next line. -/
inductive Separator where
  | spaces (further : Nat)
  | fold (indent : Nat)

namespace Separator

def text : Separator → List Char
  | spaces n => List.replicate (n + 1) ' '
  | fold _ => [' ']

def written : Separator → List Char
  | spaces n => List.replicate (n + 1) ' '
  | fold i => '\n' :: List.replicate i ' '

/-- A line end is read. -/
def isFold : Separator → Bool
  | spaces _ => false
  | fold _ => true

/-- The next line is indented by a number of columns at least. -/
def Within (least : Nat) : Separator → Prop
  | spaces _ => True
  | fold i => least ≤ i

theorem tidy_written (sep : Separator) : Tidy sep.written := by
  cases sep with
  | spaces n => exact tidy_replicate
  | fold i => exact tidy_cons.2 ⟨.inr rfl, tidy_replicate⟩

theorem isEmpty_text (sep : Separator) : sep.text.isEmpty = false := by
  cases sep <;> rfl

/-- The next word stands at a column inside the block. -/
theorem le_column_past {sep : Separator} {least : Nat} (h : sep.Within least) {m : Mark}
    (hm : least ≤ m.column) : least ≤ (m.past sep.written).column := by
  cases sep with
  | spaces n =>
    rw [written, Mark.past_spaces]
    exact Nat.le_trans hm (Nat.le_add_right _ _)
  | fold i =>
    rw [written, Mark.past_newline, Mark.past_spaces]
    exact Nat.le_trans h (Nat.le_add_left _ _)

end Separator

/-- A text as words with what stands between them. -/
structure Words where
  first : List Char
  more : List (Separator × List Char)

namespace Words

def text (w : Words) : List Char := w.first ++ w.more.flatMap fun p => p.1.text ++ p.2

def written (spell : List Char → List Char) (w : Words) : List Char :=
  spell w.first ++ w.more.flatMap fun p => p.1.written ++ spell p.2

@[simp] theorem text_nil (first : List Char) : (mk first []).text = first := by simp [text]

@[simp] theorem text_cons (first : List Char) (sep : Separator) (next : List Char)
    (more : List (Separator × List Char)) :
    (mk first ((sep, next) :: more)).text = first ++ (sep.text ++ (mk next more).text) := by
  simp [text]

@[simp] theorem written_nil (spell : List Char → List Char) (first : List Char) :
    (mk first []).written spell = spell first := by simp [written]

@[simp] theorem written_cons (spell : List Char → List Char) (first : List Char) (sep : Separator)
    (next : List Char) (more : List (Separator × List Char)) :
    (mk first ((sep, next) :: more)).written spell =
      spell first ++ (sep.written ++ (mk next more).written spell) := by
  simp [written]

/-- The lines after the first are indented by a number of columns at least. -/
def Within (least : Nat) (w : Words) : Prop := ∀ p ∈ w.more, p.1.Within least

theorem tidy_written {spell : List Char → List Char} {w : Words} (hfirst : Tidy (spell w.first))
    (hmore : ∀ p ∈ w.more, Tidy (spell p.2)) : Tidy (w.written spell) := by
  refine tidy_append.2 ⟨hfirst, fun c hc => ?_⟩
  obtain ⟨p, hp, hc⟩ := mem_flatMap.1 hc
  exact tidy_append.2 ⟨p.1.tidy_written, hmore p hp⟩ c hc

end Words

def IsWord (w : List Char) : Prop := ∀ c ∈ w, isInk c

variable {fuel least : Nat} {m : Mark} {broken double : Bool} {x : Char} {c after : Cursor}
  {w ws next rest blanks more : List Char} {sep : Separator}

theorem IsWord.inLine (h : IsWord w) : InLine w := fun c hc => isInLine_of_isInk (h c hc)

/-- Something readable follows: a printable character that starts neither a comment nor a mark of a
document; or the text ends. -/
structure AtToken (next : List Char) : Prop where
  ink : ∀ c ∈ next.head?, isInk c
  noComment : next.head? ≠ some '#'
  noMark : ∀ m, atDocumentMark ⟨next, m⟩ = false

/-- The line ends before what follows. -/
def IsGap (ws : List Char) : Prop := ∀ c ∈ ws, isGapChar c

theorem IsGap.tidy (h : IsGap ws) : Tidy ws := by
  intro c hc
  have := h c hc
  simp only [isGapChar, Bool.or_eq_true, beq_iff_eq] at this
  rcases this with rfl | rfl
  · exact .inl rfl
  · exact .inr rfl

/-- A blank line does not start with a mark of a document. -/
theorem atDocumentMark_gap (hws : IsGap ws) (hnext : ∀ m, atDocumentMark ⟨next, m⟩ = false) (m : Mark) :
    atDocumentMark ⟨ws ++ next, m⟩ = false := by
  cases ws with
  | nil => exact hnext m
  | cons c ws =>
    have hc := hws c mem_cons_self
    simp only [isGapChar, Bool.or_eq_true, beq_iff_eq] at hc
    rcases hc with rfl | rfl <;> simp [atDocumentMark]

/-! ## Plain scalars -/

/-- A word of a plain scalar: it does not look like a comment or a key. -/
structure IsPlainWord (w : List Char) : Prop where
  nonempty : w ≠ []
  word : IsWord w
  noComment : w.head? ≠ some '#'
  noKey : w.getLast? ≠ some ':'

theorem endsPlain_of_ne {c : Char} (h : c ≠ ':') (rest : List Char) :
    endsPlain false (c :: rest) = endsWord (some c) := by
  unfold endsPlain
  split <;> simp_all

/-- A word of a plain scalar is read as a whole. -/
theorem plainLength_word (hw : IsWord w) (hkey : w.getLast? ≠ some ':') (hrest : endsPlain false rest) :
    plainLength false (w ++ rest) = w.length := by
  induction w with
  | nil =>
    cases rest with
    | nil => rfl
    | cons c rest => simp [plainLength, hrest]
  | cons c w ih =>
    have hc := hw c mem_cons_self
    have hgoes : endsPlain false (c :: (w ++ rest)) = false := by
      by_cases hcolon : c = ':'
      · subst hcolon
        cases w with
        | nil => exact absurd rfl hkey
        | cons d w => simp [endsPlain, endsWord_of_isInk (hw d (by simp))]
      · rw [endsPlain_of_ne hcolon, endsWord_of_isInk hc]
    have hw' : w.getLast? ≠ some ':' := by
      cases w with
      | nil => simp
      | cons d w => simpa using hkey
    rw [cons_append, plainLength, hgoes, ih (fun d hd => hw d (mem_cons_of_mem _ hd)) hw']
    simp

theorem plainBreaks_gap (hws : IsGap ws) (hink : ∀ c ∈ next.head?, isInk c)
    (hmark : '\n' ∈ ws → ∀ m, atDocumentMark ⟨next, m⟩ = false) (hfuel : ws.length < fuel) :
    plainBreaks fuel ⟨ws ++ next, m⟩ = (some (ws.filter (· == '\n')), ⟨next, m.past ws⟩) := by
  induction ws generalizing m fuel with
  | nil =>
    obtain _ | fuel := fuel
    · cases hfuel
    cases next with
    | nil => simp [plainBreaks, isNext, peek?]
    | cons c next =>
      have hc := hink c rfl
      have hspace := ne_of_isInk (d := ' ') hc rfl
      simp [plainBreaks, isNext, peek?, hspace, lineBreak?_of_isInLine (isInLine_of_isInk hc)]
  | cons c ws ih =>
    obtain _ | fuel := fuel
    · cases hfuel
    have hws' : IsGap ws := fun d hd => hws d (mem_cons_of_mem _ hd)
    have hmark' : '\n' ∈ ws → ∀ m, atDocumentMark ⟨next, m⟩ = false :=
      fun h => hmark (mem_cons_of_mem _ h)
    have hfuel' : ws.length < fuel := by simpa using hfuel
    have hc := hws c mem_cons_self
    simp only [isGapChar, Bool.or_eq_true, beq_iff_eq] at hc
    rcases hc with rfl | rfl
    · have hline : isNext ' ' ⟨' ' :: (ws ++ next), m⟩ = true := rfl
      rw [cons_append, plainBreaks, if_pos hline, step_cons (.inl rfl), ih hws' hmark' hfuel']
      simp
    · have hline : isNext ' ' ⟨'\n' :: (ws ++ next), m⟩ = false := rfl
      rw [cons_append, plainBreaks, hline]
      simp only [Bool.false_eq_true, if_false, lineBreak?_newline,
        atDocumentMark_gap hws' (hmark mem_cons_self), ih hws' hmark' hfuel']
      simp

/-- What stands between two words of a plain scalar is read as spaces. -/
theorem plainSpaces_separator (hsep : sep.Within 1) (hne : rest ≠ []) (hrest : ∀ c ∈ rest.head?, isInk c) :
    plainSpaces ⟨sep.written ++ rest, m⟩ = (sep.text, sep.isFold, ⟨rest, m.past sep.written⟩) := by
  obtain ⟨x, rest, rfl⟩ := exists_cons_of_ne_nil hne
  have hx := hrest x rfl
  cases sep with
  | spaces n =>
    have htake : takeWhile (· == ' ') ⟨replicate (n + 1) ' ' ++ x :: rest, m⟩ =
        (replicate (n + 1) ' ', ⟨x :: rest, m.past (replicate (n + 1) ' ')⟩) :=
      takeWhile_append tidy_replicate (fun c hc => beq_iff_eq.2 (eq_of_mem_replicate hc))
        fun c hc => beq_eq_false_iff_ne.2 (ne_of_isInk (hrest c hc) rfl)
    simp only [plainSpaces, Separator.written, htake, lineBreak?_of_isInLine (isInLine_of_isInk hx)]
    rfl
  | fold i =>
    obtain _ | i := i
    · cases hsep
    have htake : takeWhile (· == ' ') ⟨'\n' :: (replicate (i + 1) ' ' ++ x :: rest), m⟩ =
        ([], ⟨'\n' :: (replicate (i + 1) ' ' ++ x :: rest), m⟩) := rfl
    have hspaces : IsGap (replicate (i + 1) ' ') := by
      intro c hc
      obtain rfl := eq_of_mem_replicate hc
      rfl
    have hfuel : (replicate (i + 1) ' ').length < (replicate (i + 1) ' ' ++ x :: rest).length + 1 := by
      simp only [length_append, length_replicate, length_cons]
      omega
    have hbreaks := plainBreaks_gap (m := m.past ['\n']) hspaces hrest (fun h => by simp at h) hfuel
    have hmark : atDocumentMark ⟨replicate (i + 1) ' ' ++ x :: rest, m.past ['\n']⟩ = false := rfl
    simp only [plainSpaces, Separator.written, cons_append, htake, lineBreak?_newline, hmark, hbreaks]
    simp [Separator.text, Separator.isFold]

/-- The line ends after a plain scalar are read over, and the position after them is that of what
follows. -/
theorem plainSpaces_gap (hws : IsGap ws) (hnext : AtToken next) :
    ∃ blanks, plainSpaces ⟨'\n' :: ws ++ next, m⟩ = (blanks, true, ⟨next, m.past ('\n' :: ws)⟩) := by
  have htake : takeWhile (· == ' ') ⟨'\n' :: (ws ++ next), m⟩ = ([], ⟨'\n' :: (ws ++ next), m⟩) := rfl
  have hfuel : ws.length < (ws ++ next).length + 1 := by
    rw [length_append]
    omega
  have hbreaks := plainBreaks_gap (m := m.past ['\n']) hws hnext.ink (fun _ => hnext.noMark) hfuel
  have hmark := atDocumentMark_gap hws hnext.noMark (m.past ['\n'])
  simp only [plainSpaces, cons_append, htake, lineBreak?_newline, hmark, hbreaks, Mark.past_past]
  exact ⟨_, rfl⟩

/-- The words of a plain scalar: none looks like a comment or a key, and the lines after the first
are indented. -/
structure Words.IsPlain (least : Nat) (w : Words) : Prop where
  first : IsPlainWord w.first
  more : ∀ p ∈ w.more, IsPlainWord p.2
  within : w.Within least

theorem Words.IsPlain.tidy_written {w : Words} (h : w.IsPlain least) : Tidy (w.written id) :=
  Words.tidy_written h.first.word.inLine.tidy fun p hp => (h.more p hp).word.inLine.tidy

theorem Separator.within_of_le {a b : Nat} (h : sep.Within b) (hab : a ≤ b) : sep.Within a := by
  cases sep with
  | spaces n => trivial
  | fold i => exact Nat.le_trans hab h

/-- A word of a plain scalar is read, and the words after it unless it is the last. -/
theorem plainParts_word (hw : IsPlainWord w) (hrest : endsPlain false rest)
    (hspaces : plainSpaces ⟨rest, m.past w⟩ = (blanks, broken, after)) (indent fuel : Nat) (before : List Char)
    (b : Bool) (stop : Mark) :
    plainParts false indent (fuel + 1) before b stop ⟨w ++ rest, m⟩ =
      if blanks.isEmpty || after.isNext '#' || after.column < indent then
        (before ++ w, m.past w, after, broken)
      else
        let more := plainParts false indent fuel blanks broken (m.past w) after
        (before ++ w ++ more.1, more.2) := by
  obtain ⟨hne, hword, hcomment, hkey⟩ := hw
  have hnext : isNext '#' ⟨w ++ rest, m⟩ = false := by
    obtain ⟨x, w, rfl⟩ := exists_cons_of_ne_nil hne
    simpa [isNext, peek?] using hcomment
  have hpos : w.length ≠ 0 := by simpa using hne
  simp [plainParts, hnext, plainLength_word hword hkey hrest, hpos, advance_append hword.inLine.tidy, hspaces]

/-- The words of a plain scalar are read up to the last. -/
theorem plainParts_words {indent : Nat} {w : Words} (hw : w.IsPlain least) (hleast : 1 ≤ least)
    (hindent : indent ≤ least) (hm : indent ≤ m.column + 1) {tail : List Char} (hends : endsPlain false tail)
    (hspaces : plainSpaces ⟨tail, m.past (w.written id)⟩ = (blanks, broken, after))
    (hdone : blanks.isEmpty || after.isNext '#' || after.column < indent) (hfuel : w.more.length < fuel)
    (before : List Char) (b : Bool) (stop : Mark) :
    plainParts false indent fuel before b stop ⟨w.written id ++ tail, m⟩ =
      (before ++ w.text, m.past (w.written id), after, broken) := by
  obtain ⟨first, more⟩ := w
  induction more generalizing first m fuel before b stop with
  | nil =>
    obtain _ | fuel := fuel
    · cases hfuel
    rw [Words.written_nil] at hspaces
    rw [Words.written_nil, Words.text_nil, id, plainParts_word hw.first hends hspaces, if_pos hdone]
  | cons p more ih =>
    obtain ⟨sep, next⟩ := p
    obtain _ | fuel := fuel
    · cases hfuel
    have hsep : sep.Within least := hw.within _ mem_cons_self
    have hrest : (Words.mk next more).IsPlain least :=
      ⟨hw.more _ mem_cons_self, fun p hp => hw.more p (mem_cons_of_mem _ hp),
        fun p hp => hw.within p (mem_cons_of_mem _ hp)⟩
    have hfirst : 0 < first.length := length_pos_iff.2 hw.first.nonempty
    -- the next word is there, and it is not a comment
    obtain ⟨x, next, rfl⟩ := exists_cons_of_ne_nil hrest.first.nonempty
    have hx : isInk x := hrest.first.word x mem_cons_self
    have hhash : x ≠ '#' := fun h => hrest.first.noComment (by rw [h]; rfl)
    have hsepEnds : ∀ rest, endsPlain false (sep.written ++ rest) := by
      intro rest
      cases sep <;> rfl
    obtain ⟨here, hhere⟩ : ∃ c : Cursor, c = ⟨(Words.mk (x :: next) more).written id ++ tail,
      (m.past first).past sep.written⟩ := ⟨_, rfl⟩
    have hgap : plainSpaces ⟨sep.written ++ ((Words.mk (x :: next) more).written id ++ tail), m.past first⟩ =
        (sep.text, sep.isFold, here) := by
      rw [hhere]
      exact plainSpaces_separator (Separator.within_of_le hsep hleast) (by simp [Words.written])
        (by simpa [Words.written] using hx)
    have hcolumn : indent ≤ here.column := by
      rw [hhere]
      refine Separator.le_column_past (Separator.within_of_le hsep hindent) ?_
      rw [Mark.past_inLine _ hw.first.word.inLine]
      show indent ≤ m.column + first.length
      omega
    have hgo : ¬(sep.text.isEmpty || here.isNext '#' || decide (here.column < indent)) := by
      simp only [sep.isEmpty_text, Bool.false_or, Bool.or_eq_true, decide_eq_true_eq, not_or, Nat.not_lt]
      exact ⟨by simp [hhere, isNext, peek?, Words.written, hhash], hcolumn⟩
    simp only [Words.written_cons, Words.text_cons, id_eq, append_assoc] at hspaces ⊢
    rw [plainParts_word hw.first (hsepEnds _) hgap, if_neg hgo]
    subst hhere
    have hmore := ih (m := (m.past first).past sep.written) (Nat.le_succ_of_le hcolumn) sep.text sep.isFold
      (m.past first) (x :: next) hrest (by simpa using hspaces) (Nat.lt_of_succ_lt_succ hfuel)
    simp only [hmore]
    simp

theorem Words.length_more_le (spell : List Char → List Char) (w : Words) :
    w.more.length ≤ (w.written spell).length := by
  obtain ⟨first, more⟩ := w
  induction more generalizing first with
  | nil => exact Nat.zero_le _
  | cons p more ih =>
    obtain ⟨sep, next⟩ := p
    have hmore := ih next
    have hsep : 0 < sep.written.length := by cases sep <;> simp [Separator.written]
    simp only [Words.written_cons, length_append, length_cons] at hmore ⊢
    omega

section

variable {least indent : Nat} {w : Words} {m : Mark} (hw : w.IsPlain least) (hleast : 1 ≤ least)
  (hindent : indent ≤ least) (hm : indent ≤ m.column + 1)

include hw hleast hindent hm

/-- A plain scalar is read up to the end of its block. -/
theorem plainScalar_words {ws next : List Char} (hws : IsGap ws) (hnext : AtToken next)
    (hcolumn : (m.past (w.written id ++ '\n' :: ws)).column < indent) :
    plainScalar false indent ⟨w.written id ++ ('\n' :: ws ++ next), m⟩ =
      (⟨w.text, m.past (w.written id), ⟨next, m.past (w.written id ++ '\n' :: ws)⟩⟩, true) := by
  obtain ⟨blanks, hspaces⟩ := plainSpaces_gap (m := m.past (w.written id)) hws hnext
  rw [Mark.past_past] at hspaces
  have hfuel : w.more.length < (w.written id ++ ('\n' :: ws ++ next)).length + 1 :=
    Nat.lt_succ_of_le (Nat.le_trans (w.length_more_le id) (by simp))
  have hparts := plainParts_words hw hleast hindent hm rfl hspaces (by simp [Cursor.column, hcolumn]) hfuel []
    false m
  simp only [plainScalar, hparts, nil_append]

/-- A plain key is read up to its colon. -/
theorem plainScalar_key {rest : List Char} (hrest : endsWord rest.head?) :
    plainScalar false indent ⟨w.written id ++ ':' :: rest, m⟩ =
      (⟨w.text, m.past (w.written id), ⟨':' :: rest, m.past (w.written id)⟩⟩, false) := by
  have hspaces : plainSpaces ⟨':' :: rest, m.past (w.written id)⟩ =
      ([], false, ⟨':' :: rest, m.past (w.written id)⟩) := rfl
  have hfuel : w.more.length < (w.written id ++ ':' :: rest).length + 1 :=
    Nat.lt_succ_of_le (Nat.le_trans (w.length_more_le id) (by simp))
  have hparts := plainParts_words hw hleast hindent hm (by simp [endsPlain, hrest]) hspaces rfl hfuel [] false m
  simp only [plainScalar, hparts, nil_append]

end

/-! ## Quoted scalars -/

/-- A word between single quotes: its quotes are doubled. -/
def quoteDoubled (w : List Char) : List Char := w.flatMap fun c => if c == '\'' then ['\'', '\''] else [c]

theorem quoteDoubled_append (v w : List Char) : quoteDoubled (v ++ w) = quoteDoubled v ++ quoteDoubled w :=
  flatMap_append

theorem quoteDoubled_eq_self (h : '\'' ∉ w) : quoteDoubled w = w := by
  induction w with
  | nil => rfl
  | cons c w ih =>
    obtain ⟨hc, hw⟩ := by simpa using h
    rw [quoteDoubled, flatMap_cons, if_neg (by simpa using Ne.symm hc)]
    exact congrArg (c :: ·) (ih hw)

theorem inLine_quoteDoubled (h : InLine w) : InLine (quoteDoubled w) := by
  intro c hc
  obtain ⟨d, hd, hc⟩ := mem_flatMap.1 hc
  split at hc
  · obtain rfl : c = '\'' := by simpa using hc
    rfl
  · obtain rfl : c = d := by simpa using hc
    exact h c hd

/-- A character at which the reading of a quoted word stops to look. -/
def isQuoteMark (x : Char) : Bool := x == '\'' || x == '"' || x == '\\' || isSpaceOrTab x || isBreak x

theorem eq_of_isQuoteMark (hink : isInk x) (h : isQuoteMark x) : x = '\'' ∨ x = '"' ∨ x = '\\' := by
  simpa [isQuoteMark, isSpaceOrTab_of_isInk hink, isBreak_of_isInk hink, or_assoc] using h

theorem takeWhile_quoteMark {v : List Char} (hv : IsWord v) (hmark : ∀ c ∈ v, isQuoteMark c = false)
    (hrest : ∀ c ∈ rest.head?, isQuoteMark c) :
    takeWhile (fun x => !(x == '\'' || x == '"' || x == '\\' || isSpaceOrTab x || isBreak x)) ⟨v ++ rest, m⟩ =
      (v, ⟨rest, m.past v⟩) := by
  refine takeWhile_append hv.inLine.tidy (fun c hc => ?_) fun c hc => ?_
  · show (!isQuoteMark c) = true
    rw [hmark c hc]
    rfl
  · show (!isQuoteMark c) = false
    rw [hrest c hc]
    rfl

/-- A word between quotes ends before a space, a line end or the closing quote. -/
inductive EndsQuoted : Bool → List Char → Prop
  | single {rest : List Char} (h : rest.head? ≠ some '\'') : EndsQuoted false ('\'' :: rest)
  | double {rest : List Char} : EndsQuoted true ('"' :: rest)
  | space {double : Bool} {rest : List Char} : EndsQuoted double (' ' :: rest)
  | newline {double : Bool} {rest : List Char} : EndsQuoted double ('\n' :: rest)

section

variable {double : Bool} {fuel : Nat} {v rest more : List Char} {m : Mark} {c : Cursor} (hv : IsWord v)
  (hmark : ∀ c ∈ v, isQuoteMark c = false)

include hv hmark

theorem quotedWord_end (hrest : EndsQuoted double rest) :
    quotedWord double (fuel + 1) ⟨v ++ rest, m⟩ = .ok (v, ⟨rest, m.past v⟩) := by
  have hhead : ∀ c ∈ rest.head?, isQuoteMark c := by
    cases hrest <;> simp [isQuoteMark, isSpaceOrTab, isBreak]
  simp only [quotedWord, takeWhile_quoteMark hv hmark hhead]
  cases hrest with
  | @single rest h =>
    cases rest with
    | nil => rfl
    | cons d rest =>
      have hd : d ≠ '\'' := by simpa using h
      simp [hd]
      rfl
  | double => rfl
  | space | newline => cases double <;> rfl

theorem quotedWord_doubled (h : quotedWord false fuel ⟨rest, m.past (v ++ ['\'', '\''])⟩ = .ok (more, c)) :
    quotedWord false (fuel + 1) ⟨v ++ '\'' :: '\'' :: rest, m⟩ = .ok (v ++ '\'' :: more, c) := by
  have hadvance : advance 2 ⟨'\'' :: '\'' :: rest, m.past v⟩ = ⟨rest, m.past (v ++ ['\'', '\''])⟩ := by
    have hquotes : Tidy ['\'', '\''] := by simp [isInLine, isInk]
    rw [← Mark.past_past]
    exact advance_append hquotes
  have hhead : ∀ c ∈ ('\'' :: '\'' :: rest).head?, isQuoteMark c := by simp [isQuoteMark]
  simp only [quotedWord, takeWhile_quoteMark hv hmark hhead, hadvance, h]
  rfl

/-- The mark of the other kind of quotes stands for itself, as does a backslash between single quotes. -/
theorem quotedWord_other {x : Char} (hx : if double then x = '\'' else x = '"' ∨ x = '\\')
    (h : quotedWord double fuel ⟨rest, m.past (v ++ [x])⟩ = .ok (more, c)) :
    quotedWord double (fuel + 1) ⟨v ++ x :: rest, m⟩ = .ok (v ++ x :: more, c) := by
  have hstep : step ⟨x :: rest, m.past v⟩ = ⟨rest, m.past (v ++ [x])⟩ := by
    rw [← Mark.past_past]
    cases double
    · rcases hx with rfl | rfl <;> rfl
    · obtain rfl := hx
      rfl
  have hhead : ∀ c ∈ (x :: rest).head?, isQuoteMark c := by
    cases double
    · rcases hx with rfl | rfl <;> simp [isQuoteMark]
    · obtain rfl := hx
      simp [isQuoteMark]
  have hread : (fun a => (v ++ x :: a.fst, a.snd)) <$> quotedWord double fuel (step ⟨x :: rest, m.past v⟩) =
      .ok (v ++ x :: more, c) := by
    rw [hstep, h]
    rfl
  simp only [quotedWord, takeWhile_quoteMark hv hmark hhead]
  cases double
  · rcases hx with rfl | rfl <;> simp [hread]
  · obtain rfl := hx
    cases rest with
    | nil => simp [hread]
    | cons d rest =>
      by_cases hd : d = '\''
      · subst hd
        simp [hread]
      · simp [hd, hread]

end

theorem isQuoteMark_cases (w : List Char) :
    (∀ c ∈ w, isQuoteMark c = false) ∨
      ∃ v x r, w = v ++ x :: r ∧ (∀ c ∈ v, isQuoteMark c = false) ∧ isQuoteMark x := by
  cases h : w.find? isQuoteMark with
  | none => exact .inl (by simpa using h)
  | some x =>
    obtain ⟨hx, v, r, rfl, hv⟩ := find?_eq_some_iff_append.1 h
    exact .inr ⟨v, x, r, rfl, by simpa using hv, hx⟩

theorem IsWord.split {v r : List Char} (h : IsWord (v ++ x :: r)) : IsWord v ∧ isInk x ∧ IsWord r :=
  ⟨fun c hc => h c (mem_append_left _ hc), h x (by simp), fun c hc => h c (by simp [hc])⟩

/-- A word between single quotes is read with its doubled quotes undone. -/
theorem quotedWord_single (hw : IsWord w) (hrest : EndsQuoted false rest) (hfuel : w.length < fuel) :
    quotedWord false fuel ⟨quoteDoubled w ++ rest, m⟩ = .ok (w, ⟨rest, m.past (quoteDoubled w)⟩) := by
  induction fuel generalizing w m with
  | zero => omega
  | succ fuel ih =>
    have hself : ∀ {v : List Char}, (∀ c ∈ v, isQuoteMark c = false) → quoteDoubled v = v :=
      fun hv => quoteDoubled_eq_self fun h => by simpa [isQuoteMark] using hv _ h
    rcases isQuoteMark_cases w with hmark | ⟨v, x, r, rfl, hmark, hx⟩
    · rw [hself hmark]
      exact quotedWord_end hw hmark hrest
    · obtain ⟨hv, hink, hr⟩ := hw.split
      have hlength : r.length < fuel := by
        simp only [length_append, length_cons] at hfuel
        omega
      have hdoubled : quoteDoubled (v ++ x :: r) = v ++ (quoteDoubled [x] ++ quoteDoubled r) := by
        rw [← singleton_append, quoteDoubled_append, quoteDoubled_append, hself hmark]
      rw [hdoubled, append_assoc, append_assoc]
      rcases eq_of_isQuoteMark hink hx with rfl | hother
      · have hread := quotedWord_doubled hv hmark (ih (m := m.past (v ++ ['\'', '\''])) hr hlength)
        simpa [quoteDoubled] using hread
      · have hx' : quoteDoubled [x] = [x] := by rcases hother with rfl | rfl <;> rfl
        have hread := quotedWord_other hv hmark (by simpa using hother) (ih (m := m.past (v ++ [x])) hr hlength)
        simpa [hx'] using hread

/-- A word between double quotes that needs no escapes is read as it is. -/
theorem quotedWord_double (hw : IsWord w) (hquote : '"' ∉ w) (hescape : '\\' ∉ w) (hrest : EndsQuoted true rest)
    (hfuel : w.length < fuel) : quotedWord true fuel ⟨w ++ rest, m⟩ = .ok (w, ⟨rest, m.past w⟩) := by
  induction fuel generalizing w m with
  | zero => omega
  | succ fuel ih =>
    rcases isQuoteMark_cases w with hmark | ⟨v, x, r, rfl, hmark, hx⟩
    · exact quotedWord_end hw hmark hrest
    · obtain ⟨hv, hink, hr⟩ := hw.split
      have hlength : r.length < fuel := by
        simp only [length_append, length_cons] at hfuel
        omega
      simp only [mem_append, mem_cons, not_or] at hquote hescape
      rcases eq_of_isQuoteMark hink hx with rfl | rfl | rfl
      · have hself : if true then '\'' = '\'' else '\'' = '"' ∨ '\'' = '\\' := rfl
        have hread := quotedWord_other hv hmark hself
          (ih (m := m.past (v ++ ['\''])) hr hquote.2.2 hescape.2.2 hlength)
        simpa using hread
      · exact absurd rfl hquote.2.1
      · exact absurd rfl hescape.2.1

/-- What stands between two words of a quoted scalar is read as spaces. -/
theorem quotedSpaces_separator (hsep : sep.Within 1) (hx : isInk x) :
    quotedSpaces ⟨sep.written ++ x :: rest, m⟩ = .ok (sep.text, ⟨x :: rest, m.past sep.written⟩) := by
  have hhead : ∀ c ∈ (x :: rest).head?, isSpaceOrTab c = false := by simpa using isSpaceOrTab_of_isInk hx
  have hspaces : ∀ n, ∀ c ∈ replicate n ' ', isSpaceOrTab c := by
    intro n c hc
    obtain rfl := eq_of_mem_replicate hc
    rfl
  have hbreak : ∀ m, lineBreak? ⟨x :: rest, m⟩ = none := fun m => lineBreak?_of_isInLine (isInLine_of_isInk hx)
  cases sep with
  | spaces n =>
    simp only [quotedSpaces, Separator.written, takeWhile_append tidy_replicate (hspaces (n + 1)) hhead, hbreak]
    rfl
  | fold i =>
    obtain _ | i := i
    · cases hsep
    have htake : takeWhile isSpaceOrTab ⟨'\n' :: (replicate (i + 1) ' ' ++ x :: rest), m⟩ =
        ([], ⟨'\n' :: (replicate (i + 1) ' ' ++ x :: rest), m⟩) := rfl
    have hmark : atDocumentMark ⟨replicate (i + 1) ' ' ++ x :: rest, m.past ['\n']⟩ = false := rfl
    simp only [quotedSpaces, Separator.written, cons_append, htake, lineBreak?_newline, quotedBreaks, hmark,
      skipWhile, takeWhile_append tidy_replicate (hspaces (i + 1)) hhead, hbreak]
    rfl

/-- The words of a quoted scalar: none but the first is empty. -/
structure Words.IsQuoted (w : Words) : Prop where
  first : IsWord w.first
  more : ∀ p ∈ w.more, p.2 ≠ [] ∧ IsWord p.2
  within : w.Within 1

theorem Words.IsQuoted.tidy_written {w : Words} (h : w.IsQuoted) : Tidy (w.written quoteDoubled) :=
  Words.tidy_written (inLine_quoteDoubled h.first.inLine).tidy fun p hp =>
    (inLine_quoteDoubled (h.more p hp).2.inLine).tidy

theorem isInk_head_quoteDoubled (hx : isInk x) (w : List Char) : ∃ y r, quoteDoubled (x :: w) = y :: r ∧ isInk y := by
  by_cases h : x = '\''
  · subst h
    exact ⟨'\'', '\'' :: quoteDoubled w, rfl, rfl⟩
  · exact ⟨x, quoteDoubled w, by simp [quoteDoubled, h], hx⟩

theorem quotedParts_close {c' : Cursor} (hword : quotedWord double (c.rest.length + 1) c = .ok (w, c'))
    (hclose : c'.isNext (if double then '"' else '\'')) : quotedParts double (fuel + 1) c = .ok (w, c'.step) := by
  rw [quotedParts, hword]
  show (if c'.isNext (if double then '"' else '\'') = true then _ else _) = _
  rw [if_pos hclose]
  rfl

theorem quotedParts_word {c₁ c₂ c₃ : Cursor} {spaces : List Char}
    (hword : quotedWord double (c.rest.length + 1) c = .ok (w, c₁))
    (hopen : c₁.isNext (if double then '"' else '\'') = false) (hspaces : quotedSpaces c₁ = .ok (spaces, c₂))
    (hmore : quotedParts double fuel c₂ = .ok (more, c₃)) :
    quotedParts double (fuel + 1) c = .ok (w ++ spaces ++ more, c₃) := by
  rw [quotedParts, hword]
  show (if c₁.isNext (if double then '"' else '\'') = true then _ else _) = _
  rw [hopen, if_neg Bool.false_ne_true, hspaces]
  show (quotedParts double fuel c₂ >>= _) = _
  rw [hmore]
  rfl

theorem length_le_quoteDoubled (w : List Char) : w.length ≤ (quoteDoubled w).length := by
  induction w with
  | nil => exact Nat.le_refl _
  | cons c w ih =>
    rw [← singleton_append, quoteDoubled_append, length_append, length_append]
    refine Nat.add_le_add ?_ ih
    by_cases h : c = '\'' <;> simp [quoteDoubled, h]

/-- A word before a separator is read, and what follows. -/
theorem quotedParts_separator (hw : IsWord w) (hsep : sep.Within 1) (hx : isInk x)
    (hmore : quotedParts false fuel ⟨x :: rest, m.past (quoteDoubled w ++ sep.written)⟩ = .ok (more, c)) :
    quotedParts false (fuel + 1) ⟨quoteDoubled w ++ (sep.written ++ x :: rest), m⟩ =
      .ok (w ++ sep.text ++ more, c) := by
  have hword : quotedWord false ((quoteDoubled w ++ (sep.written ++ x :: rest)).length + 1)
      ⟨quoteDoubled w ++ (sep.written ++ x :: rest), m⟩ =
        .ok (w, ⟨sep.written ++ x :: rest, m.past (quoteDoubled w)⟩) := by
    refine quotedWord_single hw ?_ ?_
    · cases sep
      · exact .space
      · exact .newline
    · have := length_le_quoteDoubled w
      simp only [length_append]
      omega
  have hopen : isNext '\'' ⟨sep.written ++ x :: rest, m.past (quoteDoubled w)⟩ = false := by
    cases sep <;> rfl
  rw [← Mark.past_past] at hmore
  exact quotedParts_word hword hopen (quotedSpaces_separator hsep hx) hmore

/-- The words between single quotes are read up to the closing quote. -/
theorem quotedParts_words {w : Words} (hw : w.IsQuoted) (t : Nat) (hrest : rest.head? ≠ some '\'')
    (hfuel : w.more.length + 1 < fuel) :
    quotedParts false fuel ⟨w.written quoteDoubled ++ (replicate t ' ' ++ '\'' :: rest), m⟩ =
      .ok (w.text ++ replicate t ' ',
        ⟨rest, m.past (w.written quoteDoubled ++ (replicate t ' ' ++ ['\'']))⟩) := by
  obtain ⟨first, more⟩ := w
  obtain _ | fuel := fuel
  · cases hfuel
  have hclosing : ∀ (fuel : Nat) {v : List Char} {m : Mark}, IsWord v →
      quotedParts false (fuel + 1) ⟨quoteDoubled v ++ '\'' :: rest, m⟩ =
        .ok (v, ⟨rest, m.past (quoteDoubled v ++ ['\''])⟩) := by
    intro fuel v m hv
    have hfuel : v.length < (quoteDoubled v ++ '\'' :: rest).length + 1 := by
      have := length_le_quoteDoubled v
      rw [length_append]
      omega
    have hword := quotedWord_single (m := m) hv (.single hrest) hfuel
    rw [quotedParts_close hword rfl, step_cons (.inl rfl), Mark.past_past]
  induction more generalizing first m fuel with
  | nil =>
    cases t with
    | zero => simpa using hclosing fuel hw.first
    | succ t =>
      obtain _ | fuel := fuel
      · simp at hfuel
      have hspaces : (Separator.spaces t).Within 1 := trivial
      have hread := quotedParts_separator (m := m) (x := '\'') hw.first hspaces rfl (hclosing fuel (v := []) nofun)
      simpa [Separator.written, Separator.text, quoteDoubled] using hread
  | cons p more ih =>
    obtain ⟨sep, next⟩ := p
    obtain _ | fuel := fuel
    · simp at hfuel
    obtain ⟨hne, hnext⟩ := hw.more _ mem_cons_self
    have hmore : (Words.mk next more).IsQuoted :=
      ⟨hnext, fun p hp => hw.more p (mem_cons_of_mem _ hp), fun p hp => hw.within p (mem_cons_of_mem _ hp)⟩
    have hread := ih (m := m.past (quoteDoubled first ++ sep.written)) next hmore fuel (by simpa using hfuel)
    obtain ⟨x, next, rfl⟩ := exists_cons_of_ne_nil hne
    obtain ⟨y, r, hhead, hy⟩ := isInk_head_quoteDoubled (hnext x mem_cons_self) next
    have hsplit : (Words.mk (x :: next) more).written quoteDoubled = y :: (r ++ more.flatMap fun p =>
        p.1.written ++ quoteDoubled p.2) := by
      rw [Words.written, hhead]
      rfl
    rw [Words.written_cons, Words.text_cons]
    rw [hsplit] at hread ⊢
    have hparts := quotedParts_separator hw.first (hw.within _ mem_cons_self) hy hread
    simpa using hparts

/-- A single-quoted scalar is read as its text. -/
theorem quotedScalar_words {w : Words} (hw : w.IsQuoted) (t : Nat) (hrest : rest.head? ≠ some '\'') (m : Mark) :
    quotedScalar false ⟨w.written quoteDoubled ++ (replicate t ' ' ++ '\'' :: rest), m⟩ =
      let after := m.past (w.written quoteDoubled ++ (replicate t ' ' ++ ['\'']))
      .ok ⟨w.text ++ replicate t ' ', after, ⟨rest, after⟩⟩ := by
  have hfuel : w.more.length + 1 <
      (w.written quoteDoubled ++ (replicate t ' ' ++ '\'' :: rest)).length + 1 := by
    have := w.length_more_le quoteDoubled
    simp only [length_append, length_cons]
    omega
  rw [quotedScalar, quotedParts_words hw t hrest hfuel]
  rfl

/-- A word between double quotes is read as it is. -/
theorem quotedScalar_word (hw : IsWord w) (hquote : '"' ∉ w) (hescape : '\\' ∉ w) (rest : List Char) (m : Mark) :
    quotedScalar true ⟨w ++ '"' :: rest, m⟩ =
      let after := m.past (w ++ ['"'])
      .ok ⟨w, after, ⟨rest, after⟩⟩ := by
  have hends : EndsQuoted true ('"' :: rest) := .double
  have hfuel : w.length < (w ++ '"' :: rest).length + 1 := by
    rw [length_append]
    omega
  have hword := quotedWord_double (m := m) hw hquote hescape hends hfuel
  rw [quotedScalar, quotedParts_close hword rfl, step_cons (.inl rfl), Mark.past_past]
  rfl

/-! ## Spelling -/

/-- A plain scalar may start with a word: its first characters mean nothing else. -/
structure OpensPlain (w : List Char) : Prop where
  start : ∀ x ∈ w.head?, Lex.startsPlain false x w.tail.head?
  noMark : w.take 3 ≠ ['-', '-', '-'] ∧ w.take 3 ≠ ['.', '.', '.']

/-- How a text is spelled in a style: in words, and between quotes of its kind. The lines after the
first are indented by a number of columns at least. -/
inductive Spells (least : Nat) : Style → List Char → List Char → Prop
  | plain {w : Words} (h : w.IsPlain least) (hopens : OpensPlain w.first) :
    Spells least .plain w.text (w.written id)
  | single {w : Words} (h : w.IsQuoted) (t : Nat) :
    Spells least .single (w.text ++ List.replicate t ' ')
      ('\'' :: (w.written quoteDoubled ++ (List.replicate t ' ' ++ ['\''])))
  | double {w : List Char} (h : IsWord w) (hquote : '"' ∉ w) (hescape : '\\' ∉ w) :
    Spells least .double w ('"' :: (w ++ ['"']))

/-- What may follow a scalar on its line: a colon or the line end. -/
def EndsScalar (tail : List Char) : Prop := tail.head? = some ':' ∨ tail.head? = some '\n'

namespace Spells

variable {least : Nat} {style : Style} {text written tail : List Char}

theorem tidy (h : Spells least style text written) : Tidy written := by
  cases h with
  | plain h => exact h.tidy_written
  | single h t => simp [h.tidy_written, isInLine, isInk]
  | double h => simp [h.inLine.tidy, isInLine, isInk]

theorem ne_nil (h : Spells least style text written) : written ≠ [] := by
  cases h with
  | @plain w h =>
    intro hnil
    exact h.first.nonempty (append_eq_nil_iff.1 hnil).1
  | single => simp
  | double => simp

/-- Three equal characters at the start of a text stand in its first word, unless another follows. -/
theorem take_three {w rest : List Char} {d : Char} (hrest : rest.head? ≠ some d)
    (h : (w ++ rest).take 3 = [d, d, d]) : w.take 3 = [d, d, d] := by
  match w with
  | a :: b :: c :: w => simpa using h
  | [] | [_] | [_, _] => cases rest <;> simp_all

theorem atToken (h : Spells least style text written) (htail : EndsScalar tail) : AtToken (written ++ tail) := by
  cases h with
  | @plain w h hopens =>
    obtain ⟨first, more⟩ := w
    obtain ⟨x, first, rfl⟩ := exists_cons_of_ne_nil h.first.nonempty
    refine ⟨?_, ?_, fun m => ?_⟩
    · simpa [Words.written] using h.first.word x mem_cons_self
    · simpa [Words.written] using h.first.noComment
    · -- what follows the first word is neither a hyphen nor a point
      obtain ⟨rest, hrest, hhead⟩ : ∃ rest, (Words.mk (x :: first) more).written id ++ tail = (x :: first) ++ rest ∧
          (rest.head? = some ' ' ∨ EndsScalar rest) := by
        cases more with
        | nil => exact ⟨tail, by simp, .inr htail⟩
        | cons p more =>
          obtain ⟨sep, next⟩ := p
          refine ⟨sep.written ++ ((Words.mk next more).written id ++ tail), by simp, ?_⟩
          cases sep
          · exact .inl rfl
          · exact .inr (.inr rfl)
      have hne : rest.head? ≠ some '-' ∧ rest.head? ≠ some '.' := by
        rcases hhead with h | h | h <;> rw [h] <;> decide
      rw [hrest]
      have hhyphens := fun h => hopens.noMark.1 (take_three hne.1 h)
      have hpoints := fun h => hopens.noMark.2 (take_three hne.2 h)
      simp only [atDocumentMark, Bool.and_eq_false_iff, Bool.or_eq_false_iff, beq_eq_false_iff_ne]
      exact .inl ⟨hhyphens, hpoints⟩
  | single | double => exact ⟨by simp [isInk], by simp, fun m => by simp [atDocumentMark]⟩

end Spells

end ServerlessTaint.Yaml
