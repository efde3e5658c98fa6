import ServerlessTaint.Proofs.SpelledScalars
import ServerlessTaint.Yaml.Writer

/-!
# Scalars as they are written

A text of one line is written as its words, on further lines once a line is longer than the width
(`putPlain_words`, `putSingle_words`), or as it is between double quotes.
-/

namespace ServerlessTaint.Yaml

open List Sheet

/-! ## Sheets -/

namespace Sheet

def chars (s : Sheet) : List Char := s.out.toList

@[simp] theorem chars_put (cs : List Char) (s : Sheet) : (s.put cs).chars = s.chars ++ cs := by
  simp [put, chars]

@[simp] theorem chars_newline (c : Char) (s : Sheet) : (s.newline c).chars = s.chars ++ [c] := by
  simp [newline, chars]

@[simp] theorem chars_inText (s : Sheet) : s.inText.chars = s.chars := rfl

def NeedsLine (indent : Nat) (s : Sheet) : Prop := s.indentation = false ∨ indent < s.column

/-- A new line with its indentation. -/
structure OnLine (s : Sheet) (indent : Nat) (s' : Sheet) : Prop where
  chars : s'.chars = s.chars ++ '\n' :: List.replicate indent ' '
  column : s'.column = indent
  blank : s'.blank = true
  indentation : s'.indentation = true
  openEnded : s'.openEnded = s.openEnded

variable {indent : Nat}

theorem onLine_indentTo {s : Sheet} (h : s.NeedsLine indent) : OnLine s indent (s.indentTo indent) := by
  have hline : (!s.indentation || decide (indent < s.column) || (decide (s.column = indent) && !s.blank)) := by
    rcases h with h | h <;> simp [h]
  have hto : s.indentTo indent =
      if 0 < indent then { (s.newline '\n').put (replicate indent ' ') with blank := true }
      else s.newline '\n' := by
    simp only [indentTo, hline, if_true]
    rfl
  rw [hto]
  split
  · exact ⟨by simp [chars, put, newline], by simp [put, newline], rfl, rfl, rfl⟩
  · obtain rfl : indent = 0 := by omega
    exact ⟨by simp, rfl, rfl, rfl, rfl⟩

@[simp] theorem put_nil (s : Sheet) : s.put [] = s := by simp [put]

theorem NeedsLine.put {s : Sheet} (h : s.NeedsLine indent) (cs : List Char) :
    (s.put cs).NeedsLine indent := h.imp id fun h => Nat.lt_of_lt_of_le h (Nat.le_add_right _ _)

/-- What stands before a scalar on a line. -/
def lead (s : Sheet) : List Char := if s.blank then [] else [' ']

/-- Text was added to a sheet and is not the indentation of a line. It may leave the document open. -/
structure Adds (s : Sheet) (cs : List Char) (isOpen : Bool) (s' : Sheet) : Prop where
  chars : s'.chars = s.chars ++ cs
  blank : s'.blank = false
  indentation : s'.indentation = false
  openEnded : s'.openEnded = isOpen

end Sheet

/-! ## Runs of a line -/

def wordRun (w : List Char) : List (Run × List Char) := if w.isEmpty then [] else [(.word, w)]

def spaceRun (t : Nat) : List (Run × List Char) := if t = 0 then [] else [(.spaces, List.replicate t ' ')]

/-- The runs of words with what stands between them, and of spaces at the end. -/
def Words.runs (w : Words) (t : Nat) : List (Run × List Char) :=
  wordRun w.first ++ (w.more.flatMap (fun p => (.spaces, p.1.text) :: wordRun p.2) ++ spaceRun t)

@[simp] theorem wordRun_nil : wordRun [] = [] := rfl

@[simp] theorem wordRun_cons (c : Char) (w : List Char) : wordRun (c :: w) = [(.word, c :: w)] := rfl

@[simp] theorem Words.runs_nil (first : List Char) (t : Nat) :
    (Words.mk first []).runs t = wordRun first ++ spaceRun t := rfl

@[simp] theorem Words.runs_cons (first : List Char) (sep : Separator) (next : List Char)
    (more : List (Separator × List Char)) (t : Nat) :
    (Words.mk first ((sep, next) :: more)).runs t =
      wordRun first ++ (.spaces, sep.text) :: (Words.mk next more).runs t := by
  simp [Words.runs]

/-- Words with spaces between them, none of them empty but the first. -/
structure Words.IsLine (w : Words) : Prop where
  first : IsWord w.first
  more : ∀ p ∈ w.more, p.2 ≠ [] ∧ IsWord p.2
  spaces : ∀ p ∈ w.more, p.1.isFold = false

variable {t indent : Nat} {c : Char} {split : Bool} {w : Words} {s : Sheet} {style : Style} {place : Place}
  {text : String} {cs first as : List Char} {sep : Separator} {more' : List (Separator × List Char)}

theorem runOf_of_isInk (h : isInk c) : runOf c = .word := by
  simp (disch := decide) [runOf, isLineEnd, ne_of_isInk h]

theorem runs_cons_same {r : List Char} {more : List (Run × List Char)} (h : runs cs = (runOf c, r) :: more) :
    runs (c :: cs) = (runOf c, c :: r) :: more := by
  simp [runs, h]

theorem runs_cons_other (h : ∀ p ∈ (runs cs).head?, p.1 ≠ runOf c) : runs (c :: cs) = (runOf c, [c]) :: runs cs := by
  cases hruns : runs cs with
  | nil => simp [runs, hruns]
  | cons p more =>
    rw [hruns] at h
    simp [runs, hruns, h p rfl]

/-- A line is words with spaces between them and after the last, and its runs are theirs. -/
structure Words.IsLineOf (w : Words) (t : Nat) (cs : List Char) : Prop where
  isLine : w.IsLine
  text : w.text ++ List.replicate t ' ' = cs
  runs : Yaml.runs cs = w.runs t

theorem Words.isLine_empty : (⟨[], []⟩ : Words).IsLine :=
  ⟨forall_mem_nil _, forall_mem_nil _, forall_mem_nil _⟩

theorem Words.IsLineOf.exists_cons_space (h : w.IsLineOf t cs) :
    ∃ (w' : Words) (t' : Nat), w'.IsLineOf t' (' ' :: cs) := by
  obtain ⟨first, more⟩ := w
  obtain ⟨⟨hfirst, hmore, hspaces⟩, htext, hruns⟩ := h
  cases first with
  | cons x first =>
    -- a single space before a word
    refine ⟨⟨[], (.spaces 0, x :: first) :: more⟩, t, ⟨isLine_empty.first, ?_, ?_⟩, ?_, ?_⟩
    · exact forall_mem_cons.2 ⟨⟨cons_ne_nil _ _, hfirst⟩, hmore⟩
    · exact forall_mem_cons.2 ⟨rfl, hspaces⟩
    · rw [← htext]
      simp [Separator.text]
    · rw [runs_cons_other (by simp [hruns, runOf, Words.runs]), hruns]
      rfl
  | nil =>
    cases more with
    | nil =>
      -- nothing but spaces
      refine ⟨⟨[], []⟩, t + 1, isLine_empty, by simp [← htext, replicate_succ], ?_⟩
      cases t with
      | zero => simp [Yaml.runs, hruns, spaceRun, runOf]
      | succ t => exact runs_cons_same hruns
    | cons p more =>
      -- one more space before the second word
      obtain ⟨sep, next⟩ := p
      cases sep with
      | fold i => simp [Separator.isFold] at hspaces
      | spaces n =>
        refine ⟨⟨[], (.spaces (n + 1), next) :: more⟩, t, ⟨isLine_empty.first, ?_, ?_⟩, ?_, ?_⟩
        · exact forall_mem_cons.2 (forall_mem_cons.1 hmore)
        · exact forall_mem_cons.2 ⟨rfl, (forall_mem_cons.1 hspaces).2⟩
        · simp [← htext, Separator.text, replicate_succ]
        · exact runs_cons_same hruns

theorem Words.IsLineOf.cons_ink (h : w.IsLineOf t cs) (hc : isInk c) :
    (Words.mk (c :: w.first) w.more).IsLineOf t (c :: cs) := by
  obtain ⟨first, more⟩ := w
  obtain ⟨⟨hfirst, hmore, hspaces⟩, htext, hruns⟩ := h
  have hword := runOf_of_isInk hc
  refine ⟨⟨forall_mem_cons.2 ⟨hc, hfirst⟩, hmore, hspaces⟩, ?_, ?_⟩
  · rw [← htext]
    simp [Words.text]
  · cases first with
    | cons x first =>
      rw [runs_cons_same (r := x :: first) (by rw [hruns, hword]; rfl), hword]
      rfl
    | nil =>
      rw [runs_cons_other, hruns, hword]
      · rfl
      · rw [hruns, hword]
        cases more with
        | nil => cases t <;> simp [spaceRun]
        | cons p more => simp [Words.runs]

/-- Every line has its words. -/
theorem exists_words (h : InLine cs) : ∃ (w : Words) (t : Nat), w.IsLineOf t cs := by
  induction cs with
  | nil => exact ⟨⟨[], []⟩, 0, Words.isLine_empty, rfl, rfl⟩
  | cons c cs ih =>
    obtain ⟨w, t, hw⟩ := ih fun d hd => h d (mem_cons_of_mem _ hd)
    rcases Bool.or_eq_true_iff.1 (h c mem_cons_self) with hc | hc
    · obtain rfl := eq_of_beq hc
      exact hw.exists_cons_space
    · exact ⟨_, _, hw.cons_ink hc⟩

/-! ## Words on lines -/

/-- Words of a line with some of the spaces between them at the ends of lines. -/
structure Words.Laid (w : Words) (indent : Nat) (split : Bool) (more' : List (Separator × List Char)) : Prop where
  words : more'.map Prod.snd = w.more.map Prod.snd
  text : (Words.mk w.first more').text = w.text
  within : (Words.mk w.first more').Within indent
  oneLine : split = false → ∀ p ∈ more', p.1.isFold = false

namespace Words.Laid

variable {first next : List Char} {more more' : List (Separator × List Char)} {indent : Nat} {split : Bool}

theorem nil : (Words.mk first []).Laid indent split [] := ⟨rfl, rfl, nofun, fun _ => nofun⟩

theorem cons (h : (Words.mk next more).Laid indent split more') {sep sep' : Separator}
    (htext : sep'.text = sep.text) (hwithin : sep'.Within indent) (hfold : split = false → sep'.isFold = false) :
    (Words.mk first ((sep, next) :: more)).Laid indent split ((sep', next) :: more') where
  words := by simpa using h.words
  text := by rw [Words.text_cons, Words.text_cons, htext, h.text]
  within := forall_mem_cons.2 ⟨hwithin, h.within⟩
  oneLine hsplit := forall_mem_cons.2 ⟨hfold hsplit, h.oneLine hsplit⟩

/-- Spaces between words that are not at the end of a line stay. -/
theorem spaces (h : (Words.mk next more).Laid indent split more') {sep : Separator} (hsep : sep.isFold = false) :
    (Words.mk first ((sep, next) :: more)).Laid indent split ((sep, next) :: more') := by
  refine h.cons rfl ?_ fun _ => hsep
  cases sep with
  | spaces => trivial
  | fold => cases hsep

/-- A single space between words may be a line end. -/
theorem fold (h : (Words.mk next more).Laid indent true more') :
    (Words.mk first ((.spaces 0, next) :: more)).Laid indent true ((.fold indent, next) :: more') :=
  h.cons rfl (Nat.le_refl indent) nofun

end Words.Laid

theorem eq_spaces (h : sep.isFold = false) (hone : sep.text.length = 1) : sep = .spaces 0 := by
  cases sep with
  | spaces n =>
    obtain rfl : n = 0 := by simpa [Separator.text] using hone
    rfl
  | fold => cases h

theorem written_of_isFold (h : sep.isFold = false) : sep.written = sep.text := by
  cases sep with
  | spaces => rfl
  | fold => cases h

theorem Words.IsLine.tail {next : List Char} {more : List (Separator × List Char)}
    (h : (Words.mk first ((sep, next) :: more)).IsLine) : (Words.mk next more).IsLine where
  first := (h.more _ mem_cons_self).2
  more p hp := h.more p (mem_cons_of_mem _ hp)
  spaces p hp := h.spaces p (mem_cons_of_mem _ hp)

/-! ## Plain scalars -/

theorem putPlainRuns_wordRun (indent : Nat) (split : Bool) (w : List Char) (rest : List (Run × List Char)) (s : Sheet) :
    putPlainRuns indent split (wordRun w ++ rest) s = putPlainRuns indent split rest (s.put w) := by
  cases w with
  | nil => rw [wordRun_nil, nil_append, put_nil]
  | cons c w => rfl

/-- The words of a plain scalar are written as they are laid on lines. -/
theorem putPlainRuns_words (indent : Nat) (split : Bool) (h : w.IsLine) (hblank : s.blank = false)
    (hindentation : s.indentation = false) :
    ∃ more', w.Laid indent split more' ∧ s.Adds ((Words.mk w.first more').written id) s.openEnded
      (putPlainRuns indent split (w.runs 0) s) := by
  obtain ⟨first, more⟩ := w
  induction more generalizing first s with
  | nil =>
    refine ⟨_, .nil, ?_⟩
    rw [Words.runs_nil, putPlainRuns_wordRun]
    exact ⟨by simp [spaceRun, putPlainRuns], hblank, hindentation, rfl⟩
  | cons p more ih =>
    obtain ⟨sep, next⟩ := p
    have hsep : sep.isFold = false := h.spaces _ mem_cons_self
    rw [Words.runs_cons, putPlainRuns_wordRun, putPlainRuns]
    generalize hrest : (Words.mk next more).runs 0 = rest
    split
    · -- the line is too long, and ends here
      rename_i hfold
      simp only [Bool.and_eq_true, decide_eq_true_eq] at hfold
      obtain ⟨⟨hone, -⟩, rfl⟩ := hfold
      obtain rfl := eq_spaces hsep hone
      have hnew : (s.put first).OnLine indent ((s.put first).indentTo indent) :=
        onLine_indentTo (.inl hindentation)
      subst hrest
      obtain ⟨more', hlaid, hadds⟩ := ih (s := ((s.put first).indentTo indent).inText) rfl rfl next h.tail
      refine ⟨_, hlaid.fold, ?_, hadds.blank, hadds.indentation, hadds.openEnded.trans hnew.openEnded⟩
      rw [hadds.chars, chars_inText, hnew.chars]
      simp [Separator.written]
    · subst hrest
      obtain ⟨more', hlaid, hadds⟩ := ih (s := (s.put first).put sep.text) hblank hindentation next h.tail
      refine ⟨_, hlaid.spaces hsep, ?_, hadds.blank, hadds.indentation, hadds.openEnded⟩
      rw [hadds.chars]
      simp [written_of_isFold hsep]

/-- A plain scalar of one line is written in its words. -/
theorem putPlain_words (indent : Nat) (split isRoot : Bool) (h : w.IsLine) (hne : cs ≠ []) (hruns : runs cs = w.runs 0)
    (hopen : s.openEnded = false) :
    ∃ more', w.Laid indent split more' ∧
      s.Adds (s.lead ++ (Words.mk w.first more').written id) isRoot (putPlain indent split isRoot cs s) := by
  obtain ⟨s₀, hs₀⟩ : ∃ s₀ : Sheet, s₀ = if isRoot then { s with openEnded := true } else s := ⟨_, rfl⟩
  have hchars : s₀.chars = s.chars := by rw [hs₀]; split <;> rfl
  have hblank : s₀.blank = s.blank := by rw [hs₀]; split <;> rfl
  have hisOpen : s₀.openEnded = isRoot := by rw [hs₀]; cases isRoot <;> simp [hopen]
  obtain ⟨more', hlaid, hadds⟩ := putPlainRuns_words indent split h
    (s := (if s₀.blank then s₀ else s₀.put [' ']).inText) rfl rfl
  have hput : putPlain indent split isRoot cs s =
      putPlainRuns indent split (w.runs 0) (if s₀.blank then s₀ else s₀.put [' ']).inText := by
    have hempty : cs.isEmpty = false := by simpa using hne
    rw [putPlain, ← hs₀, ← hruns]
    simp [hempty]
  rw [hput]
  refine ⟨more', hlaid, ?_, hadds.blank, hadds.indentation, hadds.openEnded.trans ?_⟩
  · rw [hadds.chars, chars_inText, lead, ← hblank, ← hchars]
    split <;> simp
  · rw [← hisOpen]
    split <;> rfl

/-! ## Quoted scalars -/

theorem length_quoteDoubled_pos {w : List Char} (h : w ≠ []) : 0 < (quoteDoubled w).length :=
  Nat.lt_of_lt_of_le (length_pos_iff.2 h) (length_le_quoteDoubled w)

theorem putSingleRuns_wordRun (indent : Nat) (split first : Bool) (w : List Char) (rest : List (Run × List Char))
    (s : Sheet) :
    putSingleRuns indent split first (wordRun w ++ rest) s =
      putSingleRuns indent split (first && w.isEmpty) rest (s.put (quoteDoubled w)) := by
  cases w with
  | nil => simp [quoteDoubled]
  | cons c w => simp [putSingleRuns, quoteDoubled]

/-- The words of a single-quoted scalar are written as they are laid on lines, with quotes doubled. -/
theorem putSingleRuns_words (split start : Bool) (h : w.IsLine) (t : Nat)
    (hline : (s.put (quoteDoubled w.first)).NeedsLine indent) :
    ∃ more', w.Laid indent split more' ∧
      (putSingleRuns indent split start (w.runs t) s).chars =
        s.chars ++ ((Words.mk w.first more').written quoteDoubled ++ replicate t ' ') := by
  obtain ⟨first, more⟩ := w
  induction more generalizing first s start with
  | nil =>
    refine ⟨_, .nil, ?_⟩
    rw [Words.runs_nil, putSingleRuns_wordRun]
    cases t <;> simp [spaceRun, putSingleRuns]
  | cons p more ih =>
    obtain ⟨sep, next⟩ := p
    have hsep : sep.isFold = false := h.spaces _ mem_cons_self
    have hnext : next ≠ [] := (h.more _ mem_cons_self).1
    rw [Words.runs_cons, putSingleRuns_wordRun, putSingleRuns]
    generalize hs₁ : s.put (quoteDoubled first) = s₁ at hline ⊢
    have hchars : s₁.chars = s.chars ++ quoteDoubled first := by rw [← hs₁, chars_put]
    generalize hrest : (Words.mk next more).runs t = rest
    split
    · -- the line is too long, and ends here
      rename_i hfold
      simp only [Bool.and_eq_true, decide_eq_true_eq] at hfold
      obtain ⟨⟨⟨⟨hone, -⟩, rfl⟩, -⟩, -⟩ := hfold
      obtain rfl := eq_spaces hsep hone
      have hnew := onLine_indentTo hline
      have hwide : ((s₁.indentTo indent).put (quoteDoubled next)).NeedsLine indent := by
        refine .inr ?_
        have := length_quoteDoubled_pos hnext
        simp only [put, hnew.column]
        omega
      obtain ⟨more', hlaid, hwritten⟩ := ih false next h.tail hwide
      refine ⟨_, hlaid.fold, ?_⟩
      rw [← hrest, hwritten, hnew.chars, hchars]
      simp [Separator.written]
    · obtain ⟨more', hlaid, hwritten⟩ := ih false (s := s₁.put sep.text) next h.tail
        ((hline.put _).put _)
      refine ⟨_, hlaid.spaces hsep, ?_⟩
      rw [← hrest, hwritten, chars_put, hchars]
      simp [written_of_isFold hsep]

/-- A mark between quotes and their text. -/
theorem Sheet.chars_mark (text : String) (needsBlank blank indentation : Bool) (s : Sheet) :
    (s.mark text needsBlank blank indentation).chars =
      s.chars ++ (if needsBlank then s.lead else []) ++ text.toList := by
  cases needsBlank <;> cases hblank : s.blank <;> simp [mark, chars, put, lead, hblank]

/-- A single-quoted scalar of one line is written in its words. -/
theorem putSingle_words (indent : Nat) (split : Bool) (h : w.IsLine) (hruns : runs cs = w.runs t) (s : Sheet) :
    ∃ more', w.Laid indent split more' ∧
      s.Adds (s.lead ++ '\'' :: ((Words.mk w.first more').written quoteDoubled ++ (replicate t ' ' ++ ['\''])))
        false (putSingle indent split cs s) := by
  have hline : ((s.mark "'" true false false).put (quoteDoubled w.first)).NeedsLine indent :=
    .inl (by simp [put, mark])
  obtain ⟨more', hlaid, hwritten⟩ := putSingleRuns_words split true h t hline
  refine ⟨more', hlaid, ?_, rfl, Bool.and_false _, rfl⟩
  rw [putSingle, chars_mark, hruns, hwritten, chars_mark]
  simp

theorem standsForItself_of_isInk (h : isInk c) (hquote : c ≠ '"') (hescape : c ≠ '\\') : standsForItself c := by
  simp only [isInk, Bool.and_eq_true, decide_eq_true_eq] at h
  have hspace : ' ' ≤ c := Char.le_trans (by decide) h.1
  simp [standsForItself, hspace, h.2, hquote, hescape]

/-- The characters of a word that need no escapes are written as they are: a line is not folded
inside a word. -/
theorem putDoubleChars_word {first : Bool} {held w : List Char} (hw : IsWord w) (hquote : '"' ∉ w) (hescape : '\\' ∉ w)
    (hstart : first ∨ held ≠ []) (s : Sheet) : putDoubleChars indent split first held w s = s.put (held ++ w) := by
  induction w generalizing first held with
  | nil => rw [putDoubleChars, append_nil]
  | cons c w ih =>
    obtain ⟨hc, hw⟩ := forall_mem_cons.1 hw
    simp only [mem_cons, not_or] at hquote hescape
    have hitself : standsForItself c = true :=
      standsForItself_of_isInk hc (Ne.symm hquote.1) (Ne.symm hescape.1)
    have hspace : (c == ' ') = false := beq_eq_false_iff_ne.2 (ne_of_isInk hc rfl)
    have hfold : (!first && !w.isEmpty && held.isEmpty) = false := by
      rcases hstart with rfl | hheld
      · rfl
      · simp [hheld]
    have hheld : held ++ [c] ≠ [] := by simp
    have hmore := ih hw hquote.2 hescape.2 (.inr hheld : false = true ∨ held ++ [c] ≠ [])
    simp only [putDoubleChars, hitself, hspace, hfold, if_true, Bool.not_true, Bool.false_or, Bool.false_and,
      Bool.false_eq_true, if_false]
    rw [hmore, append_assoc]
    rfl

/-- A word is written between double quotes as it is. -/
theorem putDouble_word {w : List Char} (hw : IsWord w) (hquote : '"' ∉ w) (hescape : '\\' ∉ w) (s : Sheet) :
    s.Adds (s.lead ++ '"' :: (w ++ ['"'])) false (putDouble indent split w s) := by
  refine ⟨?_, rfl, Bool.and_false _, rfl⟩
  rw [putDouble, putDoubleChars_word hw hquote hescape (.inl rfl), chars_mark, chars_put,
    chars_mark]
  simp

/-! ## What a line allows -/

theorem isLineEnd_of_isInLine (h : isInLine c) : isLineEnd c = false := by
  simp (disch := decide) [isLineEnd, ne_of_isInLine h]

theorem isSpecial_of_isInLine (h : isInLine c) : isSpecial c = false := by
  rcases Bool.or_eq_true_iff.1 h with h | h
  · obtain rfl := eq_of_beq h
    rfl
  · simp only [isInk, Bool.and_eq_true, decide_eq_true_eq] at h
    have hspace : ' ' ≤ c := Char.le_trans (by decide) h.1
    simp [isSpecial, hspace, h.2]

theorem hasPair_eq_false {p q : Char → Bool} (h : (∀ c ∈ cs, p c = false) ∨ ∀ c ∈ cs, q c = false) :
    hasPair p q cs = false := by
  simp only [hasPair, any_eq_false, Bool.and_eq_true, not_and, Bool.not_eq_true]
  rintro ⟨a, b⟩ hab ha
  obtain ⟨hamem, hbmem⟩ := of_mem_zip hab
  rcases h with hp | hq
  · rw [hp a hamem] at ha
    cases ha
  · exact hq b (mem_of_mem_drop hbmem)

theorem analyse_cons (c : Char) (cs : List Char) (h : InLine (c :: cs)) :
    (analyse (c :: cs)).isEmpty = false ∧ (analyse (c :: cs)).multiline = false ∧ (analyse (c :: cs)).single := by
  have hends : ∀ d ∈ c :: cs, isLineEnd d = false := fun d hd => isLineEnd_of_isInLine (h d hd)
  have hmultiline : (c :: cs).any isLineEnd = false := any_eq_false.2 fun d hd => by simp [hends d hd]
  have hspecial : (c :: cs).any isSpecial = false :=
    any_eq_false.2 fun d hd => by simp [isSpecial_of_isInLine (h d hd)]
  refine ⟨rfl, hmultiline, ?_⟩
  show (!hasPair isLineEnd _ (c :: cs) && !(hasPair _ isLineEnd (c :: cs) || (c :: cs).any isSpecial)) = true
  rw [hasPair_eq_false (.inl hends), hasPair_eq_false (.inr hends), hspecial]
  rfl

theorem mem_withNeighbours (before : Option Char) (as : List Char) (c : Char) (bs : List Char) :
    (as.getLast?.or before, c, bs.head?) ∈ withNeighbours before (as ++ c :: bs) := by
  induction as generalizing before with
  | nil => exact mem_cons_self
  | cons a as ih =>
    have hlast : (a :: as).getLast?.or before = as.getLast?.or (some a) := by
      rw [getLast?_cons]
      cases as.getLast? <;> rfl
    rw [hlast]
    exact mem_cons_of_mem _ (ih (some a))

/-- What a text without the marks of other tokens looks like. -/
structure LooksPlain (cs : List Char) : Prop where
  head : cs.head? ≠ some ' '
  last : cs.getLast? ≠ some ' '
  noMark : cs.take 3 ≠ ['-', '-', '-'] ∧ cs.take 3 ≠ ['.', '.', '.']
  unmarked : ∀ p ∈ withNeighbours none cs, blockMark p = false

theorem looksPlain (hne : cs ≠ []) (h : (analyse cs).blockPlain) : LooksPlain cs := by
  have hempty : cs.isEmpty = false := by simpa using hne
  simp only [analyse, hempty, Bool.false_eq_true, if_false, Bool.and_eq_true, Bool.not_eq_true',
    Bool.or_eq_false_iff, any_eq_false, beq_eq_false_iff_ne] at h
  obtain ⟨⟨⟨⟨⟨⟨hhead, hlast⟩, -⟩, -⟩, -⟩, hmark⟩, hunmarked⟩ := h
  refine ⟨?_, ?_, hmark, fun p hp => by simpa using hunmarked p hp⟩
  · intro hspace
    rw [hspace] at hhead
    cases hhead
  · intro hspace
    rw [hspace] at hlast
    cases hlast

/-- A word between spaces in a text without marks is one of a plain scalar. -/
theorem isPlainWord_of_unmarked {word bs : List Char}
    (h : ∀ p ∈ withNeighbours none (as ++ (word ++ bs)), blockMark p = false) (has : ∀ a ∈ as.getLast?, a = ' ')
    (hbs : endsWord bs.head?) (hne : word ≠ []) (hword : IsWord word) : IsPlainWord word where
  nonempty := hne
  word := hword
  noComment := by
    intro hhead
    obtain ⟨word, rfl⟩ : ∃ rest, word = '#' :: rest := by cases word <;> simp_all
    have hmark := h _ (mem_withNeighbours none as '#' (word ++ bs))
    cases hlast : as.getLast? with
    | none =>
      rw [hlast] at hmark
      simp [blockMark] at hmark
    | some a =>
      obtain rfl := has a hlast
      rw [hlast] at hmark
      simp [blockMark, endsWord, endsField] at hmark
  noKey := by
    intro hlast
    obtain ⟨word, rfl⟩ := getLast?_eq_some_iff.1 hlast
    have hsplit : as ++ (word ++ [':'] ++ bs) = (as ++ word) ++ ':' :: bs := by simp
    rw [hsplit] at h
    have hmark := h _ (mem_withNeighbours none (as ++ word) ':' bs)
    cases hbefore : (as ++ word).getLast? with
    | none | some b =>
      rw [hbefore] at hmark
      simp [blockMark, hbs] at hmark

theorem Separator.endsWord_text (sep : Separator) (rest : List Char) : endsWord (sep.text ++ rest).head? := by
  cases sep <;> rfl

theorem Separator.getLast?_text (sep : Separator) (rest : List Char) : (rest ++ sep.text).getLast? = some ' ' := by
  cases sep with
  | spaces n => simp [text, getLast?_append, getLast?_replicate]
  | fold => simp [text]

/-- The words of a text without marks are those of a plain scalar. -/
theorem isPlainWord_of_words (h : ∀ p ∈ withNeighbours none (as ++ w.text), blockMark p = false)
    (has : ∀ a ∈ as.getLast?, a = ' ') (hline : w.IsLine) (hne : w.first ≠ []) :
    IsPlainWord w.first ∧ ∀ p ∈ w.more, IsPlainWord p.2 := by
  obtain ⟨first, more⟩ := w
  induction more generalizing as first with
  | nil =>
    have hfirst : ∀ p ∈ withNeighbours none (as ++ (first ++ [])), blockMark p = false := by simpa using h
    exact ⟨isPlainWord_of_unmarked hfirst has rfl hne hline.first, nofun⟩
  | cons p more ih =>
    obtain ⟨sep, next⟩ := p
    rw [Words.text_cons] at h
    have hfirst := isPlainWord_of_unmarked h has (sep.endsWord_text _) hne hline.first
    have hbefore : ∀ a ∈ (as ++ first ++ sep.text).getLast?, a = ' ' := by simp [sep.getLast?_text]
    have hrest := ih hbefore next (by simpa using h) hline.tail (hline.more _ mem_cons_self).1
    exact ⟨hfirst, forall_mem_cons.2 ⟨hrest.1, hrest.2⟩⟩

/-- A text without marks opens a plain scalar. -/
theorem LooksPlain.opensPlain {rest : List Char} (h : LooksPlain (first ++ rest)) (hne : first ≠ [])
    (hword : IsWord first) (hrest : endsWord rest.head?) : OpensPlain first := by
  obtain ⟨x, first, rfl⟩ := exists_cons_of_ne_nil hne
  have htake : ∀ d : Char, (x :: first).take 3 = [d, d, d] → (x :: first ++ rest).take 3 = [d, d, d] := by
    intro d hd
    match first, hd with
    | y :: z :: more, hd => simpa using hd
  refine ⟨?_, fun hd => h.noMark.1 (htake _ hd), fun hd => h.noMark.2 (htake _ hd)⟩
  rintro y ⟨⟩
  have hmark : blockMark (none, x, (first ++ rest).head?) = false := h.unmarked _ mem_cons_self
  have hx := endsWord_of_isInk (hword x mem_cons_self)
  simp only [blockMark, Bool.or_eq_false_iff, Bool.and_eq_false_iff] at hmark
  obtain ⟨hplain, hmark⟩ := hmark
  rcases hmark with hmark | hmark
  · refine Bool.or_eq_true_iff.2 (.inl ?_)
    simp at hplain hmark
    simp [hx, hplain, hmark]
  · -- a mark that is not followed by a space is a character like others
    cases first with
    | nil =>
      rw [nil_append, hrest] at hmark
      cases hmark
    | cons z first =>
      have hz : endsWord (some z) = false := hmark
      simp at hplain
      by_cases hhyphen : x = '-' <;> by_cases hquestion : x = '?' <;> by_cases hcolon : x = ':' <;>
        simp [Lex.startsPlain, hx, hz, hplain, hhyphen, hquestion, hcolon]

/-! ## Scalars -/

/-- A text of one line in a style that keeps it so. Between double quotes it has no spaces and needs
no escapes. -/
def isLineScalar (style : Style) (text : String) : Bool :=
  match style with
  | .plain | .single => text.toList.all isInLine
  | .double => text.toList.all fun c => isInk c && c != '"' && c != '\\'
  | .literal | .folded => false

/-- The style in which a text of one line is written: a plain scalar that would be read as something
else gets quotes. -/
def writtenStyle (style : Style) (text : String) : Style :=
  match style with
  | .plain => if textTag == implicitTag text && (analyse text.toList).blockPlain then .plain else .single
  | style => style

theorem inLine_of_isLineScalar (h : isLineScalar style text) : InLine text.toList := by
  intro c hc
  cases style with
  | plain | single => exact all_eq_true.1 h c hc
  | double =>
    have := all_eq_true.1 h c hc
    simp only [Bool.and_eq_true] at this
    exact isInLine_of_isInk this.1.1
  | literal | folded => cases h

theorem chooseStyle_of_isLineScalar (h : isLineScalar style text) (hkey : place = .simpleKey → text.toList ≠ []) :
    chooseStyle false place textTag style text = writtenStyle style text := by
  have hline := inLine_of_isLineScalar h
  have hanalysis : (analyse text.toList).multiline = false ∧ (analyse text.toList).single = true ∧
      (place == .simpleKey && (analyse text.toList).isEmpty) = false := by
    cases hcs : text.toList with
    | nil =>
      have hplace : (place == .simpleKey) = false := beq_eq_false_iff_ne.2 fun hplace => hkey hplace hcs
      exact ⟨rfl, rfl, by rw [hplace]; rfl⟩
    | cons c cs =>
      rw [hcs] at hline
      obtain ⟨hempty, hmultiline, hsingle⟩ := analyse_cons c cs hline
      exact ⟨hmultiline, hsingle, by rw [hempty, Bool.and_false]⟩
  obtain ⟨hmultiline, hsingle, hempty⟩ := hanalysis
  cases style with
  | double => rfl
  | literal | folded => cases h
  | single => simp [chooseStyle, writtenStyle, hmultiline, hsingle]
  | plain => simp [chooseStyle, writtenStyle, hmultiline, hsingle, hempty]

/-- Words on one line are spelled as their text. -/
theorem Words.written_oneLine {spell : List Char → List Char}
    (happend : ∀ as bs, spell (as ++ bs) = spell as ++ spell bs)
    (hspaces : ∀ sep : Separator, spell sep.text = sep.text) (h : ∀ p ∈ w.more, p.1.isFold = false) :
    w.written spell = spell w.text := by
  obtain ⟨first, more⟩ := w
  induction more generalizing first with
  | nil => simp
  | cons p more ih =>
    obtain ⟨hsep, hmore⟩ := forall_mem_cons.1 h
    rw [Words.written_cons, Words.text_cons, written_of_isFold hsep, ih _ hmore, happend, happend, hspaces]

theorem quoteDoubled_text (sep : Separator) : quoteDoubled sep.text = sep.text := by
  refine quoteDoubled_eq_self ?_
  cases sep <;> simp [Separator.text]

theorem length_quoteDoubled_le (w : List Char) : (quoteDoubled w).length ≤ 2 * w.length := by
  induction w with
  | nil => exact Nat.le_refl 0
  | cons c w ih =>
    have hc : (quoteDoubled [c]).length ≤ 2 := by
      simp only [quoteDoubled, flatMap_cons, flatMap_nil, append_nil]
      split <;> simp
    rw [← singleton_append, quoteDoubled_append, length_append, length_append]
    simp only [length_cons, length_nil]
    omega

theorem Words.Laid.within_of_le {least : Nat} (h : w.Laid indent split more')
    (hleast : least ≤ indent ∨ split = false) : (Words.mk w.first more').Within least := by
  intro p hp
  rcases hleast with hleast | hsplit
  · exact Separator.within_of_le (h.within p hp) hleast
  · have hfold := h.oneLine hsplit p hp
    cases hsep : p.1 with
    | spaces => trivial
    | fold => rw [hsep] at hfold; cases hfold

/-- How a text is written: in a style, on lines that are indented; or on one line of bounded length. -/
structure WrittenAs (indent : Nat) (split : Bool) (style : Style) (text written : List Char) : Prop where
  spells : ∀ least, least ≤ indent ∨ split = false → Spells least style text written
  inLine : split = false → InLine written
  length_le : split = false → written.length ≤ 2 * text.length + 2

theorem Words.Laid.exists_of_mem (h : w.Laid indent split more') {p : Separator × List Char} (hp : p ∈ more') :
    ∃ q ∈ w.more, q.2 = p.2 := by
  have hmem : p.2 ∈ w.more.map Prod.snd := h.words ▸ mem_map_of_mem hp
  exact mem_map.1 hmem

section Laid

variable {w : Words} {indent : Nat} {split : Bool} {more' : List (Separator × List Char)}

/-- A plain scalar starts with a word. -/
theorem LooksPlain.first_ne_nil (h : LooksPlain w.text) (hne : w.text ≠ []) : w.first ≠ [] := by
  intro hnil
  obtain ⟨first, more⟩ := w
  obtain rfl : first = [] := hnil
  cases more with
  | nil => exact hne rfl
  | cons p more =>
    obtain ⟨sep, next⟩ := p
    refine h.head ?_
    cases sep <;> rfl

theorem Words.Laid.writtenAs_plain (h : w.Laid indent split more') (hline : w.IsLine) (htext : InLine w.text)
    (hne : w.text ≠ []) (hplain : LooksPlain w.text) :
    WrittenAs indent split .plain w.text ((Words.mk w.first more').written id) := by
  have hfirst := hplain.first_ne_nil hne
  have hunmarked : ∀ p ∈ withNeighbours none ([] ++ w.text), blockMark p = false := hplain.unmarked
  obtain ⟨hword, hwords⟩ := isPlainWord_of_words hunmarked (by simp) hline hfirst
  have hopens : OpensPlain w.first := by
    have hsplit : LooksPlain (w.first ++ w.more.flatMap fun p => p.1.text ++ p.2) := hplain
    refine hsplit.opensPlain hfirst hline.first ?_
    cases w.more with
    | nil => rfl
    | cons p more =>
      rw [flatMap_cons, append_assoc]
      exact p.1.endsWord_text _
  have hwritten : split = false → (Words.mk w.first more').written id = w.text := by
    intro hsplit
    rw [Words.written_oneLine (fun _ _ => rfl) (fun _ => rfl) (h.oneLine hsplit), h.text]
    rfl
  refine ⟨fun least hleast => ?_, fun hsplit => ?_, fun hsplit => ?_⟩
  · have hlaid : ∀ p ∈ more', IsPlainWord p.2 := by
      intro p hp
      obtain ⟨q, hq, hpq⟩ := h.exists_of_mem hp
      exact hpq ▸ hwords q hq
    have hw : (Words.mk w.first more').IsPlain least := ⟨hword, hlaid, h.within_of_le hleast⟩
    have hspells := Spells.plain hw hopens
    rwa [h.text] at hspells
  · rw [hwritten hsplit]
    exact htext
  · rw [hwritten hsplit]
    omega

theorem Words.Laid.writtenAs_single (h : w.Laid indent split more') (hindent : 1 ≤ indent) (hline : w.IsLine) {t : Nat}
    (htext : InLine (w.text ++ replicate t ' ')) :
    WrittenAs indent split .single (w.text ++ replicate t ' ')
      ('\'' :: ((Words.mk w.first more').written quoteDoubled ++ (replicate t ' ' ++ ['\'']))) := by
  have hwritten : split = false → (Words.mk w.first more').written quoteDoubled = quoteDoubled w.text := by
    intro hsplit
    rw [Words.written_oneLine quoteDoubled_append quoteDoubled_text (h.oneLine hsplit), h.text]
  have hwords : ∀ p ∈ more', p.2 ≠ [] ∧ IsWord p.2 := by
    intro p hp
    obtain ⟨q, hq, hpq⟩ := h.exists_of_mem hp
    exact hpq ▸ hline.more q hq
  refine ⟨fun least _ => ?_, fun hsplit => ?_, fun hsplit => ?_⟩
  · have hw : (Words.mk w.first more').IsQuoted :=
      ⟨hline.first, hwords, h.within_of_le (.inl hindent)⟩
    have hspells : Spells least .single _ _ := .single hw t
    rwa [h.text] at hspells
  · rw [hwritten hsplit]
    obtain ⟨hwords, hspaces⟩ := inLine_append.1 htext
    have hquote : InLine ['\''] := by simp [InLine, isInLine, isInk]
    exact inLine_append.2 ⟨hquote, inLine_append.2 ⟨inLine_quoteDoubled hwords,
      inLine_append.2 ⟨hspaces, hquote⟩⟩⟩
  · have := length_quoteDoubled_le w.text
    rw [hwritten hsplit]
    simp only [length_cons, length_append, length_replicate, length_nil]
    omega

end Laid

theorem writtenAs_double {w : List Char} (hw : IsWord w) (hquote : '"' ∉ w) (hescape : '\\' ∉ w) :
    WrittenAs indent split .double w ('"' :: (w ++ ['"'])) := by
  have hmark : InLine ['"'] := by simp [InLine, isInLine, isInk]
  refine ⟨fun _ _ => .double hw hquote hescape, fun _ => ?_, fun _ => ?_⟩
  · exact inLine_append.2 ⟨hmark, inLine_append.2 ⟨hw.inLine, hmark⟩⟩
  · simp only [length_cons, length_append, length_nil]
    omega

theorem writtenStyle_cases (h : isLineScalar style text) :
    (writtenStyle style text = .plain ∧ textTag = implicitTag text ∧ (analyse text.toList).blockPlain) ∨
      writtenStyle style text = .single ∨ (writtenStyle style text = .double ∧ style = .double) := by
  cases style with
  | literal | folded => cases h
  | single => exact .inr (.inl rfl)
  | double => exact .inr (.inr ⟨rfl, rfl⟩)
  | plain =>
    by_cases hplain : (textTag == implicitTag text && (analyse text.toList).blockPlain) = true
    · obtain ⟨htag, hblock⟩ := Bool.and_eq_true_iff.1 hplain
      exact .inl ⟨if_pos hplain, eq_of_beq htag, hblock⟩
    · exact .inr (.inl (if_neg hplain))

/-- An empty text is no plain scalar. -/
theorem ne_nil_of_implicitTag (h : textTag = implicitTag text) : text.toList ≠ [] := by
  intro hnil
  rw [implicitTag, hnil] at h
  exact absurd h (by decide)

section Put

variable (indent : Nat) (split : Bool) {cs : List Char}

theorem putPlain_writtenAs (isRoot : Bool) (hcs : InLine cs) (hne : cs ≠ []) (hplain : LooksPlain cs) {s : Sheet}
    (hopen : s.openEnded = false) :
    ∃ written, WrittenAs indent split .plain cs written ∧
      s.Adds (s.lead ++ written) isRoot (putPlain indent split isRoot cs s) := by
  obtain ⟨w, t, hline, rfl, hruns⟩ := exists_words hcs
  cases t with
  | zero =>
    rw [replicate_zero, append_nil] at hcs hne hplain hruns ⊢
    obtain ⟨more', hlaid, hadds⟩ := putPlain_words indent split isRoot hline hne hruns hopen
    exact ⟨_, hlaid.writtenAs_plain hline hcs hne hplain, hadds⟩
  | succ t => exact absurd ((Separator.spaces t).getLast?_text _) hplain.last

theorem putSingle_writtenAs (hindent : 1 ≤ indent) (hcs : InLine cs) (s : Sheet) :
    ∃ written, WrittenAs indent split .single cs written ∧
      s.Adds (s.lead ++ written) false (putSingle indent split cs s) := by
  obtain ⟨w, t, hline, rfl, hruns⟩ := exists_words hcs
  obtain ⟨more', hlaid, hadds⟩ := putSingle_words indent split hline hruns s
  exact ⟨_, hlaid.writtenAs_single hindent hline hcs, hadds⟩

theorem putDouble_writtenAs (hcs : IsWord cs) (hquote : '"' ∉ cs) (hescape : '\\' ∉ cs) (s : Sheet) :
    ∃ written, WrittenAs indent split .double cs written ∧
      s.Adds (s.lead ++ written) false (putDouble indent split cs s) :=
  ⟨_, writtenAs_double hcs hquote hescape, putDouble_word hcs hquote hescape s⟩

end Put

/-- A text of one line is written in its style, after a space where one is needed. -/
theorem putScalar_writtenAs (h : isLineScalar style text) (indent : Option Nat)
    (hkey : place = .simpleKey → text.toList ≠ []) (hopen : s.openEnded = false) :
    ∃ written, WrittenAs (deeper true indent) (place != .simpleKey) (writtenStyle style text) text.toList written ∧
      s.Adds (s.lead ++ written) (place == .root && writtenStyle style text == .plain)
        (putScalar indent false place textTag style text s) := by
  have hline := inLine_of_isLineScalar h
  have hchoose := chooseStyle_of_isLineScalar h hkey
  rcases writtenStyle_cases h with ⟨hstyle, htag, hblock⟩ | hstyle | ⟨hstyle, rfl⟩
  · have hne := ne_nil_of_implicitTag htag
    have hput : putScalar indent false place textTag style text s =
        putPlain (deeper true indent) (place != .simpleKey) (place == .root) text.toList s := by
      simp [putScalar, hchoose, hstyle, ← htag, putTag]
    rw [hput, hstyle, beq_self_eq_true, Bool.and_true]
    exact putPlain_writtenAs _ _ _ hline hne (looksPlain hne hblock) hopen
  · have hput : putScalar indent false place textTag style text s =
        putSingle (deeper true indent) (place != .simpleKey) text.toList s := by
      simp [putScalar, hchoose, hstyle, putTag]
    have hindent : 1 ≤ deeper true indent := by cases indent <;> simp [deeper]
    have hnot : (Style.single == .plain) = false := rfl
    rw [hput, hstyle, hnot, Bool.and_false]
    exact putSingle_writtenAs _ _ hindent hline s
  · have hput : putScalar indent false place textTag .double text s =
        putDouble (deeper true indent) (place != .simpleKey) text.toList s := by
      simp [putScalar, hchoose, hstyle, putTag]
    have hnot : (Style.double == .plain) = false := rfl
    have hchars : ∀ c ∈ text.toList, isInk c ∧ c ≠ '"' ∧ c ≠ '\\' := by
      intro c hc
      have := all_eq_true.1 h c hc
      simpa [and_assoc] using this
    rw [hput, hstyle, hnot, Bool.and_false]
    exact putDouble_writtenAs _ _ (fun c hc => (hchars c hc).1) (fun hc => (hchars _ hc).2.1 rfl)
      (fun hc => (hchars _ hc).2.2 rfl) s

end ServerlessTaint.Yaml
