import ServerlessTaint.Proofs.WrittenLayouts

/-!
# Layouts that are moved

All lines of a layout but the first can be moved to the right, and more blank lines may follow it: the
layout then fits at a column further right, and its document is the same (`Layout.Fits.exists_moved`).
-/

namespace ServerlessTaint.Yaml

open List
open Reference

variable {c : Nat}

/-! ## Texts -/

@[simp] theorem shiftRight_nil : shiftRight c [] = [] := rfl

@[simp] theorem shiftRight_append (as bs : List Char) :
    shiftRight c (as ++ bs) = shiftRight c as ++ shiftRight c bs := flatMap_append

theorem shiftRight_newline (cs : List Char) :
    shiftRight c ('\n' :: cs) = '\n' :: replicate c ' ' ++ shiftRight c cs := rfl

variable {j i least : Nat} {w : Words} {cs gap : List Char}

theorem shiftRight_eq_self (h : InLine cs) : shiftRight c cs = cs := by
  induction cs with
  | nil => rfl
  | cons d cs ih =>
    have hd : (d == '\n') = false := beq_eq_false_iff_ne.2 (ne_of_isInLine (h d mem_cons_self) rfl)
    rw [shiftRight, flatMap_cons, hd]
    exact congrArg (d :: ·) (ih fun e he => h e (mem_cons_of_mem _ he))

theorem isGap_shiftRight (h : IsGap gap) : IsGap (shiftRight c gap) := by
  intro d hd
  obtain ⟨e, he, hd⟩ := mem_flatMap.1 hd
  split at hd
  · rcases mem_cons.1 hd with rfl | hd
    · exact h d he
    · obtain rfl := eq_of_mem_replicate hd
      rfl
  · obtain rfl := mem_singleton.1 hd
    exact h d he

/-- The end of a text of several lines moves with its last line. -/
theorem column_past_shiftRight (h : Tidy cs) (hline : '\n' ∈ cs) (m m' : Mark) :
    (m.past (shiftRight c cs)).column = c + (m'.past cs).column := by
  induction cs generalizing m m' with
  | nil => cases hline
  | cons d cs ih =>
    obtain ⟨hd, hcs⟩ := tidy_cons.1 h
    by_cases hlater : '\n' ∈ cs
    · have hsplit : shiftRight c (d :: cs) = shiftRight c [d] ++ shiftRight c cs := shiftRight_append [d] cs
      rw [hsplit, ← Mark.past_past]
      exact ih hcs hlater _ (m'.past [d])
    · obtain rfl : d = '\n' := ((mem_cons.1 hline).resolve_right hlater).symm
      have hlast : InLine cs := fun e he => (hcs e he).resolve_right fun hne => hlater (hne ▸ he)
      rw [shiftRight_newline, shiftRight_eq_self hlast, cons_append, Mark.past_newline, Mark.past_newline,
        ← Mark.past_past, Mark.past_spaces, Mark.past_inLine _ hlast, Mark.past_inLine _ hlast]
      simp

theorem EndsLine.shift (h : EndsLine j gap) : EndsLine (c + j) (shiftRight c gap) where
  newline := by
    obtain ⟨ws, rfl, -⟩ := h.exists_eq
    rfl
  isGap := isGap_shiftRight h.isGap
  column_past m := by rw [column_past_shiftRight h.isGap.tidy h.mem m m, h.column_past]

/-- More blank lines may follow the end of a line. -/
theorem EndsLine.append {gap' : List Char} (h : EndsLine i gap) (h' : EndsLine j gap') :
    EndsLine j (gap ++ gap') where
  newline := by
    obtain ⟨ws, rfl, -⟩ := h.exists_eq
    rfl
  isGap d hd := (mem_append.1 hd).elim (h.isGap d) (h'.isGap d)
  column_past m := by rw [← Mark.past_past, h'.column_past]

/-! ## Scalars -/

def Separator.shift (c : Nat) : Separator → Separator
  | .spaces n => .spaces n
  | .fold i => .fold (c + i)

theorem Separator.written_shift (sep : Separator) : (sep.shift c).written = shiftRight c sep.written := by
  cases sep with
  | spaces n => exact (shiftRight_eq_self Mark.inLine_replicate).symm
  | fold i =>
    rw [written, shiftRight_newline, shiftRight_eq_self Mark.inLine_replicate, shift, written, cons_append,
      replicate_append_replicate]

theorem Separator.text_shift (sep : Separator) : (sep.shift c).text = sep.text := by cases sep <;> rfl

theorem Separator.Within.shift {sep : Separator} (h : sep.Within least) : (sep.shift c).Within (c + least) := by
  cases sep with
  | spaces => trivial
  | fold i => exact Nat.add_le_add_left h c

def Words.shift (c : Nat) (w : Words) : Words := ⟨w.first, w.more.map fun p => (p.1.shift c, p.2)⟩

theorem Words.text_shift (w : Words) : (w.shift c).text = w.text := by
  simp [text, shift, flatMap_map, Separator.text_shift]

theorem Words.written_shift {spell : List Char → List Char} (hfirst : InLine (spell w.first))
    (hmore : ∀ p ∈ w.more, InLine (spell p.2)) : (w.shift c).written spell = shiftRight c (w.written spell) := by
  obtain ⟨first, more⟩ := w
  induction more generalizing first with
  | nil =>
    rw [written_nil, shiftRight_eq_self hfirst]
    exact written_nil spell first
  | cons p more ih =>
    obtain ⟨sep, next⟩ := p
    obtain ⟨hnext, hmore⟩ := forall_mem_cons.1 hmore
    have hrest := ih next hnext hmore
    rw [written_cons, shiftRight_append, shiftRight_append, shiftRight_eq_self hfirst, ← hrest,
      ← Separator.written_shift]
    exact written_cons spell first _ next _

theorem Words.exists_of_mem_shift {q : Separator × List Char} (h : q ∈ (w.shift c).more) :
    ∃ sep, (sep, q.2) ∈ w.more ∧ q.1 = sep.shift c := by
  obtain ⟨p, hp, rfl⟩ := mem_map.1 h
  exact ⟨p.1, hp, rfl⟩

theorem Words.Within.shift (h : w.Within least) : (w.shift c).Within (c + least) := by
  intro q hq
  obtain ⟨sep, hmem, hsep⟩ := exists_of_mem_shift hq
  rw [hsep]
  exact Separator.Within.shift (h _ hmem)

theorem Words.IsPlain.shift (h : w.IsPlain least) : (w.shift c).IsPlain (c + least) where
  first := h.first
  more q hq := by
    obtain ⟨sep, hmem, -⟩ := exists_of_mem_shift hq
    exact h.more (sep, q.2) hmem
  within := h.within.shift

theorem Words.IsQuoted.shift (h : w.IsQuoted) : (w.shift c).IsQuoted where
  first := h.first
  more q hq := by
    obtain ⟨sep, hmem, -⟩ := exists_of_mem_shift hq
    exact h.more (sep, q.2) hmem
  within q hq := Separator.within_of_le (h.within.shift q hq) (Nat.le_add_left 1 c)

namespace Spells

variable {least : Nat} {style : Style} {text written : List Char}

theorem mono (h : Spells least style text written) {a : Nat} (ha : a ≤ least) : Spells a style text written := by
  cases h with
  | plain h hopens =>
    exact .plain ⟨h.first, h.more, fun p hp => Separator.within_of_le (h.within p hp) ha⟩ hopens
  | single h t => exact .single h t
  | double h hquote hescape => exact .double h hquote hescape

/-- A scalar that is moved is spelled as before. -/
theorem shift (h : Spells least style text written) : Spells (c + least) style text (shiftRight c written) := by
  cases h with
  | @plain w h hopens =>
    rw [← Words.written_shift h.first.word.inLine fun p hp => (h.more p hp).word.inLine, ← w.text_shift]
    exact .plain h.shift hopens
  | @single w h t =>
    have hquote : InLine ['\''] := by simp [InLine, isInLine, isInk]
    have hspaces : shiftRight c (replicate t ' ' ++ ['\'']) = replicate t ' ' ++ ['\''] :=
      shiftRight_eq_self (inLine_append.2 ⟨Mark.inLine_replicate, hquote⟩)
    have hwritten := Words.written_shift (c := c) (inLine_quoteDoubled h.first.inLine) fun p hp =>
      inLine_quoteDoubled (h.more p hp).2.inLine
    rw [← singleton_append, shiftRight_append, shiftRight_append, shiftRight_eq_self hquote, ← hwritten, hspaces,
      ← w.text_shift]
    exact .single h.shift t
  | double h hquote hescape =>
    have hmark : InLine ['"'] := by simp [InLine, isInLine, isInk]
    have hline : InLine ('"' :: (text ++ ['"'])) := inLine_append.2 ⟨hmark, inLine_append.2 ⟨h.inLine, hmark⟩⟩
    rw [shiftRight_eq_self hline]
    exact .double h hquote hescape

/-- The mark of the end of a document is a word of a plain scalar once it is indented. -/
theorem withEndMark (h : Spells least .plain text written) {i : Nat} (hi : least ≤ i) :
    Spells least .plain (text ++ " ...".toList) (written ++ ('\n' :: replicate i ' ' ++ "...".toList)) := by
  cases h with
  | @plain w h hopens =>
    have hword : IsPlainWord "...".toList := ⟨by decide, by simp [IsWord, isInk], by decide, by decide⟩
    have hparts : (Words.mk w.first (w.more ++ [(.fold i, "...".toList)])).IsPlain least :=
      ⟨h.first, forall_mem_append.2 ⟨h.more, forall_mem_singleton.2 hword⟩,
        forall_mem_append.2 ⟨h.within, forall_mem_singleton.2 hi⟩⟩
    have hspells := Spells.plain hparts hopens
    simpa [Words.text, Words.written, Separator.text, Separator.written] using hspells

end Spells

/-! ## Layouts -/

theorem ne_nil_of_isEmpty_eq {α : Type} {as bs : List α} (h : as.isEmpty = bs.isEmpty) (hbs : bs ≠ []) : as ≠ [] := by
  rintro rfl
  exact hbs (isEmpty_iff.1 h.symm)

/-- A key stands on one line, and is not changed. -/
theorem Lex.IsKey.shift {key : Spelled} (h : Lex.IsKey key.style key.text key.written) :
    shiftRight c (key.written ++ [':']) = key.written ++ [':'] := by
  rw [shiftRight_append, shiftRight_eq_self h.inLine]
  rfl

/-- The ends of lines before a column end lines before another one, once they are moved and more follows. -/
def EndsMoved (c j k : Nat) (gap : List Char) : Prop := ∀ ws, EndsLine j ws → EndsLine k (shiftRight c ws ++ gap)

theorem endsMoved_nil : EndsMoved c j (c + j) [] := by
  intro ws h
  rw [append_nil]
  exact h.shift

theorem EndsLine.endsMoved (h : EndsLine i gap) : EndsMoved c j i gap := fun _ hws => hws.shift.append h

/-- A layout with all lines but the first moved to the right and with more blank lines after it. -/
structure Layout.Moves (c : Nat) (gap : List Char) (l l' : Layout) : Prop where
  render : l'.render = shiftRight c l.render ++ gap
  node : l'.node = l.node
  after : ∀ {i ws}, l.After i ws → l'.After (c + i) (shiftRight c ws)
  valueColumn : ∀ i, l'.valueColumn (c + i) = c + l.valueColumn i

mutual

/-- A layout that is moved fits further right, before what follows it. -/
theorem Layout.Fits.exists_moved : ∀ {l : Layout} {least i j k : Nat} {gap : List Char}, l.Fits least i j →
    EndsMoved c j k gap → ∃ l' : Layout, l.Moves c gap l' ∧ l'.Fits (c + least) (c + i) k
  | .scalar s ws, _, _, _, _, gap, ⟨hspells, hws⟩, hgap => by
    refine ⟨.scalar ⟨s.style, s.text, shiftRight c s.written⟩ (shiftRight c ws ++ gap),
      ⟨by simp [Layout.render], rfl, ?_, fun _ => rfl⟩, hspells.shift, hgap ws hws⟩
    rintro _ _ rfl
    rfl
  | .sequence items, _, _, _, _, _, ⟨hne, h⟩, hgap => by
    obtain ⟨items', hrender, hnodes, hempty, hfits⟩ := ItemsFit.exists_moved h hgap
    exact ⟨.sequence items', ⟨hrender hne, congrArg (Node.sequence none sequenceTag false) hnodes, EndsLine.shift,
      fun _ => rfl⟩, ne_nil_of_isEmpty_eq hempty hne, hfits⟩
  | .mapping entries, _, _, _, _, _, ⟨hne, h⟩, hgap => by
    obtain ⟨entries', hrender, hnodes, hempty, hfits⟩ := EntriesFit.exists_moved h hgap
    exact ⟨.mapping entries', ⟨hrender hne, congrArg (Node.mapping none mappingTag false) hnodes, EndsLine.shift,
      fun _ => rfl⟩, ne_nil_of_isEmpty_eq hempty hne, hfits⟩
  | .stray _, _, _, _, _, _, h, _ => h.elim

theorem ItemsFit.exists_moved : ∀ {items : List Layout} {i j k : Nat} {gap : List Char}, ItemsFit i j items →
    EndsMoved c j k gap → ∃ items', (items ≠ [] → renderItems items' = shiftRight c (renderItems items) ++ gap) ∧
      itemNodes items' = itemNodes items ∧ items'.isEmpty = items.isEmpty ∧ ItemsFit (c + i) k items'
  | [], _, _, _, _, _, _ => ⟨[], absurd rfl, rfl, rfl, trivial⟩
  | [item], _, _, _, _, ⟨hitem, _⟩, hgap => by
    obtain ⟨item', hmoves, hfits⟩ := hitem.exists_moved hgap
    refine ⟨[item'], fun _ => ?_, congrArg (· :: []) hmoves.node, rfl, hfits, trivial⟩
    simp only [renderItems, hmoves.render, append_nil, shiftRight_append, append_assoc]
    rfl
  | item :: next :: items, _, _, _, _, ⟨hitem, hitems⟩, hgap => by
    obtain ⟨item', hmoves, hfits⟩ := hitem.exists_moved endsMoved_nil
    obtain ⟨items', hrender, hnodes, hempty, hfit⟩ := ItemsFit.exists_moved hitems hgap
    refine ⟨item' :: items', fun _ => ?_, ?_, rfl, by rw [hempty]; exact hfits, hfit⟩
    · rw [renderItems, renderItems.eq_2 item, hmoves.render, hrender (cons_ne_nil _ _), append_nil,
        shiftRight_append, shiftRight_append, append_assoc, append_assoc]
      rfl
    · rw [itemNodes, hmoves.node, hnodes, itemNodes.eq_2 item]

theorem EntriesFit.exists_moved : ∀ {entries : LayoutEntries} {i j k : Nat} {gap : List Char}, EntriesFit i j entries →
    EndsMoved c j k gap →
      ∃ entries', (entries ≠ [] → renderEntries entries' = shiftRight c (renderEntries entries) ++ gap) ∧
        entryNodes entries' = entryNodes entries ∧ entries'.isEmpty = entries.isEmpty ∧ EntriesFit (c + i) k entries'
  | [], _, _, _, _, _, _ => ⟨[], absurd rfl, rfl, rfl, trivial⟩
  | [(key, ws, value)], _, _, _, _, ⟨hkey, hws, hvalue, _⟩, hgap => by
    obtain ⟨value', hmoves, hfits⟩ := hvalue.exists_moved hgap
    refine ⟨[(key, shiftRight c ws, value')], fun _ => ?_, congrArg (fun node => [(key.node, node)]) hmoves.node, rfl,
      hkey, hmoves.after hws, by rw [hmoves.valueColumn]; exact hfits, trivial⟩
    rw [renderEntries, renderEntries, renderEntries, renderEntries, hmoves.render, append_nil, append_nil,
      shiftRight_append, hkey.shift, shiftRight_append]
    simp only [append_assoc]
  | (key, ws, value) :: next :: entries, _, _, _, _, ⟨hkey, hws, hvalue, hentries⟩, hgap => by
    obtain ⟨value', hmoves, hfits⟩ := hvalue.exists_moved endsMoved_nil
    obtain ⟨entries', hrender, hnodes, hempty, hfit⟩ := EntriesFit.exists_moved hentries hgap
    refine ⟨(key, shiftRight c ws, value') :: entries', fun _ => ?_, ?_, rfl, hkey, hmoves.after hws, ?_, hfit⟩
    · rw [renderEntries, renderEntries.eq_2 key, hmoves.render, hrender (cons_ne_nil _ _), append_nil,
        shiftRight_append, hkey.shift, shiftRight_append, shiftRight_append]
      simp only [append_assoc]
    · rw [entryNodes, hmoves.node, hnodes, entryNodes.eq_2 key]
    · rw [hempty, hmoves.valueColumn]
      exact hfits

end

theorem Layout.Fits.mono {l : Layout} {a b : Nat} (h : l.Fits b i j) (hab : a ≤ b) : l.Fits a i j := by
  cases l with
  | scalar s gap => exact ⟨h.1.mono hab, h.2⟩
  | sequence | mapping | stray => exact h

end ServerlessTaint.Yaml
