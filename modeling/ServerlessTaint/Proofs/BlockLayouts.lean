import ServerlessTaint.Proofs.LexedBlocks

/-!
# Layouts of block collections

A layout is a document in block style as it stands on paper: the spelling of its scalars, the line
ends after them, and the indentation of what follows. A layout that fits is read as its tokens
(`lex_render`); one that breaks, because a collection starts on the line of its key, is not read at
all (`lex_of_breaks`).
-/

namespace ServerlessTaint.Yaml

open List
open Cursor

/-- A scalar on paper. -/
structure Spelled where
  style : Style
  text : List Char
  written : List Char

/-- A document on paper. A scalar is followed by line ends and the indentation of the next token, the
colon of a key by a space or a line end; a stray text stands where a value should. -/
inductive Layout where
  | scalar (s : Spelled) (gap : List Char)
  | sequence (items : List Layout)
  | mapping (entries : List (Spelled × List Char × Layout))
  | stray (cs : List Char)

/-- Keys with what stands after their colons, and their values. -/
abbrev LayoutEntries := List (Spelled × List Char × Layout)

/-! ## Texts and tokens -/

mutual

def Layout.render : Layout → List Char
  | .scalar s gap => s.written ++ gap
  | .sequence items => renderItems items
  | .mapping entries => renderEntries entries
  | .stray cs => cs

def renderItems : List Layout → List Char
  | [] => []
  | item :: items => ['-', ' '] ++ (item.render ++ renderItems items)

def renderEntries : LayoutEntries → List Char
  | [] => []
  | (key, gap, value) :: entries =>
    (key.written ++ [':']) ++ ((gap ++ value.render) ++ renderEntries entries)

end

def Spelled.token (s : Spelled) (m : Mark) : Token :=
  ⟨.scalar (String.ofList s.text) s.style, m, m.past s.written⟩

mutual

/-- The tokens of a layout that starts at a place. A sequence that is the value of an entry is not
indented, and has no marks of its start and end. -/
def Layout.tokens (inEntry : Bool) (m : Mark) : Layout → List Token
  | .scalar s _ => [s.token m]
  | .sequence items =>
    if inEntry then itemTokens m items
    else
      let stop := m.past (renderItems items)
      ⟨.blockSequenceStart, m, m⟩ :: (itemTokens m items ++ [⟨.blockEnd, stop, stop⟩])
  | .mapping entries =>
    let stop := m.past (renderEntries entries)
    ⟨.blockMappingStart, m, m⟩ :: (entryTokens m entries ++ [⟨.blockEnd, stop, stop⟩])
  | .stray _ => []

def itemTokens (m : Mark) : List Layout → List Token
  | [] => []
  | item :: items =>
    [⟨.blockEntry, m, m.past ['-']⟩] ++ (item.tokens false (m.past ['-', ' ']) ++
      itemTokens (m.past (['-', ' '] ++ item.render)) items)

def entryTokens (m : Mark) : LayoutEntries → List Token
  | [] => []
  | (key, gap, value) :: entries =>
    Lex.keyTokens key.style key.text key.written m ++
      (value.tokens true (m.past ((key.written ++ [':']) ++ gap)) ++
        entryTokens (m.past ((key.written ++ [':']) ++ (gap ++ value.render))) entries)

end

/-! ## Layouts that fit -/

/-- A line ends, and what follows stands at a column. -/
structure EndsLine (column : Nat) (gap : List Char) : Prop where
  newline : gap.head? = some '\n'
  isGap : IsGap gap
  column_past : ∀ m : Mark, (m.past gap).column = column

/-- What stands between the colon of a key and its value: a space before a scalar, and a line end
before a collection. A sequence is indented as its key, a mapping deeper. -/
def Layout.After (i : Nat) (gap : List Char) : Layout → Prop
  | .scalar .. | .stray _ => gap = [' ']
  | .sequence _ => EndsLine i gap
  | .mapping _ => EndsLine (i + 2) gap

def Layout.valueColumn (i : Nat) : Layout → Nat
  | .sequence _ => i
  | _ => i + 2

mutual

/-- A layout at a column that fits: its scalars are spelled properly, with lines indented by a number
of columns at least, and what follows it stands at another column. -/
def Layout.Fits (least i j : Nat) : Layout → Prop
  | .scalar s gap => Spells least s.style s.text s.written ∧ EndsLine j gap
  | .sequence items => items ≠ [] ∧ ItemsFit i j items
  | .mapping entries => entries ≠ [] ∧ EntriesFit i j entries
  | .stray _ => False

def ItemsFit (i j : Nat) : List Layout → Prop
  | [] => True
  | item :: items => item.Fits (i + 1) (i + 2) (if items.isEmpty then j else i) ∧ ItemsFit i j items

def EntriesFit (i j : Nat) : LayoutEntries → Prop
  | [] => True
  | (key, gap, value) :: entries =>
    Lex.IsKey key.style key.text key.written ∧ value.After i gap ∧
      value.Fits (i + 1) (value.valueColumn i) (if entries.isEmpty then j else i) ∧ EntriesFit i j entries

end

variable {column i least j : Nat} {m : Mark} {value l : Layout} {ind : List Nat} {gap next cs : List Char}

theorem EndsLine.exists_eq (h : EndsLine column gap) : ∃ ws, gap = '\n' :: ws ∧ IsGap ws := by
  cases gap with
  | nil => cases h.newline
  | cons c ws =>
    obtain rfl : c = '\n' := by simpa using h.newline
    exact ⟨ws, rfl, fun d hd => h.isGap d (mem_cons_of_mem _ hd)⟩

theorem EndsLine.mem (h : EndsLine column gap) : '\n' ∈ gap := by
  obtain ⟨ws, rfl, -⟩ := h.exists_eq
  exact mem_cons_self

theorem Layout.After.endsWord (h : value.After i gap) (rest : List Char) : endsWord (gap ++ rest).head? := by
  cases value with
  | scalar | stray =>
    obtain rfl : gap = [' '] := h
    rfl
  | sequence | mapping =>
    obtain ⟨ws, rfl, -⟩ := EndsLine.exists_eq h
    rfl

theorem Layout.After.tidy (h : value.After i gap) : Tidy gap := by
  cases value with
  | scalar | stray =>
    obtain rfl : gap = [' '] := h
    simp [isInLine]
  | sequence | mapping => exact (EndsLine.isGap h).tidy

theorem atToken_entry {key : Spelled} (hkey : Lex.IsKey key.style key.text key.written) (entries : LayoutEntries)
    (rest : List Char) : AtToken (renderEntries ((key, gap, value) :: entries) ++ rest) := by
  rw [renderEntries, append_assoc, append_assoc]
  exact (hkey.spells 1).atToken (.inl rfl)

/-- A layout starts with a token. -/
theorem Layout.Fits.atToken (h : l.Fits least i j) (rest : List Char) : AtToken (l.render ++ rest) := by
  cases l with
  | scalar s gap =>
    obtain ⟨hspells, hgap⟩ := h
    obtain ⟨ws, rfl, -⟩ := hgap.exists_eq
    rw [render, append_assoc]
    exact hspells.atToken (.inr rfl)
  | sequence items =>
    obtain ⟨item, items, rfl⟩ := exists_cons_of_ne_nil h.1
    exact Lex.atToken_hyphen _
  | mapping entries =>
    obtain ⟨⟨key, gap, value⟩, entries, rfl⟩ := exists_cons_of_ne_nil h.1
    exact atToken_entry h.2.1 entries rest
  | stray => exact h.elim

mutual

theorem Layout.Fits.tidy : ∀ {l : Layout} {least i j : Nat}, l.Fits least i j → Tidy l.render
  | .scalar .., _, _, _, h => tidy_append.2 ⟨h.1.tidy, h.2.isGap.tidy⟩
  | .sequence _, _, _, _, h => ItemsFit.tidy h.2
  | .mapping _, _, _, _, h => EntriesFit.tidy h.2
  | .stray _, _, _, _, h => h.elim

theorem ItemsFit.tidy : ∀ {items : List Layout} {i j : Nat}, ItemsFit i j items → Tidy (renderItems items)
  | [], _, _, _ => tidy_nil
  | item :: items, _, _, h => by
    have hmark : Tidy ['-', ' '] := by simp [isInLine, isInk]
    exact tidy_append.2 ⟨hmark, tidy_append.2 ⟨h.1.tidy, ItemsFit.tidy h.2⟩⟩

theorem EntriesFit.tidy : ∀ {entries : LayoutEntries} {i j : Nat},
    EntriesFit i j entries → Tidy (renderEntries entries)
  | [], _, _, _ => tidy_nil
  | (key, gap, value) :: entries, _, _, ⟨hkey, hgap, hvalue, hentries⟩ => by
    have hcolon : Tidy [':'] := by simp [isInLine, isInk]
    exact tidy_append.2 ⟨tidy_append.2 ⟨hkey.inLine.tidy, hcolon⟩,
      tidy_append.2 ⟨tidy_append.2 ⟨hgap.tidy, hvalue.tidy⟩, EntriesFit.tidy hentries⟩⟩

end

mutual

/-- What follows a layout stands at its column. -/
theorem Layout.Fits.column_past : ∀ {l : Layout} {least i j : Nat}, l.Fits least i j →
    ∀ m : Mark, (m.past l.render).column = j
  | .scalar .., _, _, _, h, m => by
    rw [Layout.render, ← Mark.past_past]
    exact h.2.column_past _
  | .sequence _, _, _, _, h, m => ItemsFit.column_past h.1 h.2 m
  | .mapping _, _, _, _, h, m => EntriesFit.column_past h.1 h.2 m
  | .stray _, _, _, _, h, _ => h.elim

theorem ItemsFit.column_past : ∀ {items : List Layout} {i j : Nat}, items ≠ [] → ItemsFit i j items →
    ∀ m : Mark, (m.past (renderItems items)).column = j
  | [], _, _, hne, _, _ => absurd rfl hne
  | [item], _, _, _, h, m => by
    rw [renderItems, renderItems, append_nil, ← Mark.past_past]
    exact h.1.column_past _
  | item :: next :: items, _, _, _, h, m => by
    rw [renderItems, ← Mark.past_past, ← Mark.past_past]
    exact ItemsFit.column_past (by simp) h.2 _

theorem EntriesFit.column_past : ∀ {entries : LayoutEntries} {i j : Nat}, entries ≠ [] →
    EntriesFit i j entries → ∀ m : Mark, (m.past (renderEntries entries)).column = j
  | [], _, _, hne, _, _ => absurd rfl hne
  | [(key, gap, value)], _, _, _, h, m => by
    rw [renderEntries, renderEntries, append_nil, ← Mark.past_past, ← Mark.past_past]
    exact h.2.2.1.column_past _
  | (key, gap, value) :: next :: entries, _, _, _, h, m => by
    rw [renderEntries, ← Mark.past_past, ← Mark.past_past]
    exact EntriesFit.column_past (by simp) h.2.2.2 _

end

/-! ## Reading -/

namespace Lex

/-- A text that stands at a place in open blocks is read as tokens, and leaves the blocks open. -/
def Takes (allowed after : Bool) (cs : List Char) (m : Mark) (ind : List Nat) (ts : List Token)
    (next : List Char) : Prop :=
  ∀ T n, Reads (.inBlock allowed ⟨cs ++ next, m⟩ ind T n)
    (.inBlock after ⟨next, m.past cs⟩ ind (ts.reverse ++ T) (n + ts.length))

section Takes

variable {a b c : Bool} {cs cs' next : List Char} {m : Mark} {ind : List Nat} {ts ts' : List Token}

theorem Takes.nil : Takes a a [] m ind [] next := fun _ _ => .refl _

theorem Takes.append (h : Takes a b cs m ind ts (cs' ++ next)) (h' : Takes b c cs' (m.past cs) ind ts' next) :
    Takes a c (cs ++ cs') m ind (ts ++ ts') next := by
  intro T n
  have hread := (h T n).trans (h' _ _)
  simpa [Nat.add_assoc] using hread

theorem Takes.fails (h : Takes a b cs m ind ts next) (h' : ∀ T n, Fails (.inBlock b ⟨next, m.past cs⟩ ind T n))
    (T : List Token) (n : Nat) : Fails (.inBlock a ⟨cs ++ next, m⟩ ind T n) :=
  (h T n).fails (h' _ _)

/-- A block that opens with its first token ends before one that is not indented as deep. -/
theorem Takes.block {start : TokenKind} {i : Nat}
    (hopen : ∀ T n, Reads (.inBlock true ⟨cs ++ next, m⟩ ind T n)
      (.inBlock true ⟨cs ++ next, m⟩ (i :: ind) (⟨start, m, m⟩ :: T) (n + 1)))
    (h : Takes true true cs m (i :: ind) ts next) (hnext : AtToken next) (hi : (m.past cs).column < i) :
    Takes true true cs m ind (⟨start, m, m⟩ :: (ts ++ [⟨.blockEnd, m.past cs, m.past cs⟩])) next := by
  intro T n
  have hread := ((hopen T n).trans (h _ _)).trans (reads_blockEnd hnext hi)
  simpa [Nat.add_assoc, Nat.add_comm 1] using hread

end Takes

end Lex

open Yaml.Lex

theorem AtToken.items (hnext : AtToken next) (items : List Layout) : AtToken (renderItems items ++ next) := by
  cases items with
  | nil => exact hnext
  | cons item items => exact atToken_hyphen _

theorem AtToken.entries (hnext : AtToken next) {entries : LayoutEntries}
    (h : EntriesFit i j entries) : AtToken (renderEntries entries ++ next) := by
  cases entries with
  | nil => exact hnext
  | cons entry entries => exact atToken_entry h.1 entries next

/-- A scalar is read up to what follows it. -/
theorem takes_scalar {a : Bool} {s : Spelled} (h : (Layout.scalar s gap).Fits least i j) {o : Nat}
    (hind : ind.head? = some o) (hm : o ≤ m.column) (hkey : a → o ≠ m.column) (hj : j ≤ o) (hleast : o < least)
    (hnext : AtToken next) : Takes a true (s.written ++ gap) m ind [s.token m] next := by
  intro T n
  obtain ⟨hspells, hgap⟩ := h
  have hinside : insideOf ind = o + 1 := by rw [insideOf, hind]; rfl
  have hcolumn : (m.past (s.written ++ gap)).column < insideOf ind := by
    rw [← Mark.past_past, hgap.column_past, hinside]
    omega
  obtain ⟨ws, rfl, hws⟩ := hgap.exists_eq
  have hread := reads_scalar (T := T) (n := n) hspells (by omega) (by omega) (by simpa [hind] using hm)
    (by simpa [hind] using hkey) hws hnext hcolumn
  simpa [Spelled.token] using hread

section Blocks

variable {m : Mark} {ind : List Nat} {next : List Char}

theorem opens_sequence {items : List Layout} (hne : items ≠ []) (hind : ∀ o ∈ ind.head?, o < m.column)
    (T : List Token) (n : Nat) :
    Reads (.inBlock true ⟨renderItems items ++ next, m⟩ ind T n)
      (.inBlock true ⟨renderItems items ++ next, m⟩ (m.column :: ind) (⟨.blockSequenceStart, m, m⟩ :: T) (n + 1)) := by
  obtain ⟨item, items, rfl⟩ := exists_cons_of_ne_nil hne
  exact reads_sequenceStart hind

variable {i : Nat} {value : Layout} {key : Spelled} {gap : List Char} {entries : LayoutEntries}

theorem opens_mapping (hkey : IsKey key.style key.text key.written)
    (hgap : value.After i gap) (hind : ∀ o ∈ ind.head?, o < m.column) (T : List Token) (n : Nat) :
    Reads (.inBlock true ⟨renderEntries ((key, gap, value) :: entries) ++ next, m⟩ ind T n)
      (.inBlock true ⟨renderEntries ((key, gap, value) :: entries) ++ next, m⟩ (m.column :: ind)
        (⟨.blockMappingStart, m, m⟩ :: T) (n + 1)) := by
  simp only [renderEntries, append_assoc, cons_append, nil_append]
  exact reads_mappingStart hkey hind (hgap.endsWord _)

theorem takes_hyphen (hind : ind.head? = some m.column) (hnext : AtToken next) :
    Takes true true ['-', ' '] m ind [⟨.blockEntry, m, m.past ['-']⟩] next :=
  fun _ _ => reads_hyphen hind hnext

theorem column_past_hyphen (m : Mark) : (m.past ['-', ' ']).column = m.column + 2 := by
  rfl

theorem takes_key (hkey : IsKey key.style key.text key.written) (hind : ind.head? = some m.column)
    (hnext : endsWord next.head?) :
    Takes true false (key.written ++ [':']) m ind (keyTokens key.style key.text key.written m) next := by
  intro T n
  rw [append_assoc]
  exact reads_key hkey hind hnext

theorem le_column_past_key (hkey : IsKey key.style key.text key.written) (m : Mark) :
    m.column ≤ (m.past (key.written ++ [':'])).column := by
  rw [Mark.past_inLine m (inLine_append.2 ⟨hkey.inLine, by simp [InLine, isInLine, isInk]⟩)]
  exact Nat.le_add_right _ _

/-- The line ends before a collection that is a value. -/
theorem takes_endsLine {column : Nat} (hgap : EndsLine column gap) (hnext : AtToken next) :
    Takes false true gap m ind [] next :=
  fun _ _ => reads_blanks hgap.isGap hnext (.inr hgap.mem)

/-- A mapping is read as a block if its entries are read inside it. -/
theorem takes_mapping (hne : entries ≠ []) {j o : Nat}
    (h : EntriesFit i j entries) (hm : m.column = i) (hind : ind.head? = some o) (hi : o < i) (hj : j ≤ o)
    (hnext : AtToken next)
    (hentries : Takes true true (renderEntries entries) m (i :: ind) (entryTokens m entries) next) :
    Takes true true (renderEntries entries) m ind ((Layout.mapping entries).tokens false m) next := by
  have hclose : (m.past (renderEntries entries)).column < i := by
    rw [EntriesFit.column_past hne h]
    omega
  obtain ⟨⟨key, gap, value⟩, entries, rfl⟩ := exists_cons_of_ne_nil hne
  subst hm
  exact Takes.block (opens_mapping h.1 h.2.1 (by simpa [hind] using hi)) hentries hnext hclose

/-- An entry is read if its value and the entries after it are. -/
theorem takes_entry (hkey : IsKey key.style key.text key.written)
    (hgap : value.After i gap) (hind : ind.head? = some m.column)
    (hvalue : Takes false true (gap ++ value.render) (m.past (key.written ++ [':'])) ind
      (value.tokens true (m.past ((key.written ++ [':']) ++ gap))) (renderEntries entries ++ next))
    (hentries : Takes true true (renderEntries entries)
      (m.past ((key.written ++ [':']) ++ (gap ++ value.render))) ind
        (entryTokens (m.past ((key.written ++ [':']) ++ (gap ++ value.render))) entries) next) :
    Takes true true (renderEntries ((key, gap, value) :: entries)) m ind
      (entryTokens m ((key, gap, value) :: entries)) next := by
  have hends : endsWord ((gap ++ value.render ++ renderEntries entries) ++ next).head? := by
    rw [append_assoc, append_assoc]
    exact hgap.endsWord _
  exact (takes_key hkey hind hends).append (hvalue.append (by rw [Mark.past_past]; exact hentries))

end Blocks

mutual

/-- A layout that fits is read as its tokens. -/
theorem takes_layout : ∀ (l : Layout) {least i j : Nat} {m : Mark} {ind : List Nat} {o : Nat} {next : List Char},
    l.Fits least i j → m.column = i → ind.head? = some o → o < i → j ≤ o → o < least → AtToken next →
      Takes true true l.render m ind (l.tokens false m) next
  | .scalar s gap, _, _, _, m, _, _, _, h, hm, hind, hi, hj, hleast, hnext =>
    takes_scalar h hind (by omega) (fun _ => by omega) hj hleast hnext
  | .sequence items, _, i, j, m, ind, o, next, h, hm, hind, hi, hj, _, hnext => by
    subst hm
    refine Takes.block (opens_sequence h.1 (by simpa [hind] using hi))
      (takes_items items h.2 rfl rfl (by omega) hnext) hnext ?_
    rw [Layout.Fits.column_past h]
    omega
  | .mapping entries, _, i, j, m, ind, o, next, h, hm, hind, hi, hj, _, hnext =>
    takes_mapping h.1 h.2 hm hind hi hj hnext (takes_entries entries h.2 hm rfl (by omega) hnext)
  | .stray _, _, _, _, _, _, _, _, h, _, _, _, _, _, _ => h.elim

theorem takes_items : ∀ (items : List Layout) {i j : Nat} {m : Mark} {ind : List Nat} {next : List Char},
    ItemsFit i j items → m.column = i → ind.head? = some i → j ≤ i → AtToken next →
      Takes true true (renderItems items) m ind (itemTokens m items) next
  | [], _, _, _, _, _, _, _, _, _, _ => .nil
  | item :: items, i, j, m, ind, next, h, hm, hind, hj, hnext => by
    have hcolumn : (m.past ['-', ' ']).column = i + 2 := by rw [column_past_hyphen, hm]
    have hmark : Takes true true ['-', ' '] m ind [⟨.blockEntry, m, m.past ['-']⟩]
        (item.render ++ renderItems items ++ next) := by
      rw [append_assoc]
      exact takes_hyphen (by rw [hind, hm]) (h.1.atToken _)
    have hitem : Takes true true item.render (m.past ['-', ' ']) ind (item.tokens false (m.past ['-', ' ']))
        (renderItems items ++ next) :=
      takes_layout item h.1 hcolumn hind (by omega) (by split <;> omega) (by omega) (hnext.items items)
    have hitems : Takes true true (renderItems items) ((m.past ['-', ' ']).past item.render) ind
        (itemTokens ((m.past ['-', ' ']).past item.render) items) next := by
      cases items with
      | nil => exact .nil
      | cons next items => exact takes_items (next :: items) h.2 (h.1.column_past _) hind hj hnext
    exact hmark.append (hitem.append (by exact hitems))

theorem takes_entries : ∀ (entries : LayoutEntries) {i j : Nat} {m : Mark} {ind : List Nat}
    {next : List Char}, EntriesFit i j entries → m.column = i → ind.head? = some i → j ≤ i → AtToken next →
      Takes true true (renderEntries entries) m ind (entryTokens m entries) next
  | [], _, _, _, _, _, _, _, _, _, _ => .nil
  | (key, gap, value) :: entries, i, j, m, ind, next, ⟨hkey, hgap, hvalue, hmore⟩, hm, hind, hj, hnext => by
    refine takes_entry hkey hgap (by rw [hind, hm]) ?_ ?_
    · rw [← Mark.past_past m (key.written ++ [':']) gap]
      exact takes_value value hgap hvalue hind (hm ▸ le_column_past_key hkey m) (by split <;> omega)
        (hnext.entries hmore)
    · cases entries with
      | nil => exact .nil
      | cons entry entries =>
        refine takes_entries (entry :: entries) hmore ?_ hind hj hnext
        rw [← Mark.past_past, ← Mark.past_past]
        exact hvalue.column_past _

/-- A value is read after the colon of its key. -/
theorem takes_value : ∀ (value : Layout) {i j : Nat} {m : Mark} {ind : List Nat} {gap next : List Char},
    value.After i gap → value.Fits (i + 1) (value.valueColumn i) j → ind.head? = some i → i ≤ m.column → j ≤ i →
      AtToken next → Takes false true (gap ++ value.render) m ind (value.tokens true (m.past gap)) next
  | .scalar s g, i, j, m, ind, gap, next, hgap, h, hind, hm, hj, hnext => by
    obtain rfl : gap = [' '] := hgap
    have hspace : Takes false false [' '] m ind [] (s.written ++ g ++ next) := fun T n => reads_space (h.atToken next)
    have hcolumn : i ≤ (m.past [' ']).column := Nat.le_trans hm (Nat.le_succ _)
    exact hspace.append (takes_scalar h hind hcolumn nofun hj (Nat.lt_succ_self i) hnext)
  | .sequence items, i, j, m, ind, gap, next, hgap, h, hind, hm, hj, hnext => by
    have hline : Takes false true gap m ind [] (renderItems items ++ next) := takes_endsLine hgap (h.atToken next)
    exact hline.append (takes_items items h.2 (EndsLine.column_past hgap m) hind hj hnext)
  | .mapping entries, i, j, m, ind, gap, next, hgap, h, hind, hm, hj, hnext => by
    have hline : Takes false true gap m ind [] (renderEntries entries ++ next) := takes_endsLine hgap (h.atToken next)
    have hcolumn : (m.past gap).column = i + 2 := EndsLine.column_past hgap m
    have hfit : EntriesFit (i + 2) j entries := h.2
    exact hline.append (takes_mapping h.1 hfit hcolumn hind (by omega) hj hnext
      (takes_entries entries hfit hcolumn rfl (by omega) hnext))
  | .stray _, _, _, _, _, _, _, _, h, _, _, _, _ => h.elim

end

/-- A text is read as one block if its first token opens the block and the text is read inside it. -/
theorem lex_block (hcs : Tidy cs) (hm : m = ⟨0, 0, 0⟩) {start : TokenKind} {ts : List Token}
    (hopen : Reads (.inBlock true ⟨cs ++ [], m⟩ [] [] 0)
      (.inBlock true ⟨cs ++ [], m⟩ [m.column] [⟨start, m, m⟩] 1)) (h : Takes true true cs m [m.column] ts []) :
    lex (String.ofList cs) = .ok ((⟨start, m, m⟩ :: (ts ++ [⟨.blockEnd, m.past cs, m.past cs⟩])) ++
      [⟨.streamEnd, m.past cs, m.past cs⟩]) := by
  subst hm
  have hread := hopen.trans (h _ _)
  rw [append_nil] at hread
  rw [lex_of_reads hcs (Nat.zero_le _) hread]
  simp

/-- A collection that fits at the start of a text is read as its tokens. -/
theorem lex_render (h : l.Fits least 0 0) (hcollection : ∀ s gap, l ≠ .scalar s gap) (hm : m = ⟨0, 0, 0⟩) :
    lex (String.ofList l.render) = .ok (l.tokens false m ++ [⟨.streamEnd, m.past l.render, m.past l.render⟩]) := by
  have hend : AtToken [] := ⟨by simp, by simp, fun _ => rfl⟩
  have hcolumn : m.column = 0 := by rw [hm]
  have hnone : ∀ o ∈ ([] : List Nat).head?, o < m.column := by simp
  cases l with
  | scalar s gap => exact absurd rfl (hcollection s gap)
  | sequence items =>
    exact lex_block h.tidy hm (opens_sequence h.1 hnone [] 0)
      (takes_items items h.2 hcolumn (by rw [hcolumn]; rfl) (Nat.le_refl 0) hend)
  | mapping entries =>
    have hentries : Takes true true (renderEntries entries) m [m.column] (entryTokens m entries) [] :=
      takes_entries entries h.2 hcolumn (by rw [hcolumn]; rfl) (Nat.le_refl 0) hend
    obtain ⟨hne, hfit⟩ := h
    obtain ⟨⟨key, gap, value⟩, entries, rfl⟩ := exists_cons_of_ne_nil hne
    exact lex_block (EntriesFit.tidy hfit) hm (opens_mapping hfit.1 hfit.2.1 hnone [] 0) hentries
  | stray => exact h.elim

/-! ## Layouts that break -/

/-- A text that starts with an item or an entry. -/
inductive OpensBlock : List Char → Prop
  | hyphen (rest : List Char) : OpensBlock ('-' :: ' ' :: rest)
  | key {s : Spelled} (h : IsKey s.style s.text s.written) {rest : List Char}
    (hrest : ∀ more, endsWord (rest ++ more).head?) : OpensBlock (s.written ++ ':' :: rest)

theorem OpensBlock.atToken (h : OpensBlock cs) (rest : List Char) : AtToken (cs ++ rest) := by
  cases h with
  | hyphen => exact atToken_hyphen _
  | key h =>
    rw [append_assoc]
    exact (h.spells 1).atToken (.inl rfl)

/-- A value that is a collection on the line of its key. -/
def Layout.Strays : Layout → Prop
  | .stray cs => OpensBlock cs
  | _ => False

mutual

/-- A layout at a column that breaks: some value is a collection on the line of its key, and what
stands before it fits. -/
def Layout.Breaks (i : Nat) : Layout → Prop
  | .sequence items => ItemsBreak i items
  | .mapping entries => EntriesBreak i entries
  | _ => False

def ItemsBreak (i : Nat) : List Layout → Prop
  | [] => False
  | item :: items => item.Breaks (i + 2) ∨ item.Fits (i + 1) (i + 2) i ∧ ItemsBreak i items

def EntriesBreak (i : Nat) : LayoutEntries → Prop
  | [] => False
  | (key, gap, value) :: entries =>
    IsKey key.style key.text key.written ∧ value.After i gap ∧
      (value.Strays ∨ value.Breaks (value.valueColumn i) ∨
        value.Fits (i + 1) (value.valueColumn i) i ∧ EntriesBreak i entries)

end

theorem ItemsBreak.ne_nil {items : List Layout} (h : ItemsBreak i items) : items ≠ [] := by
  rintro rfl
  exact h

theorem EntriesBreak.ne_nil {entries : LayoutEntries} (h : EntriesBreak i entries) : entries ≠ [] := by
  rintro rfl
  exact h

theorem EntriesBreak.atToken {entries : LayoutEntries} (h : EntriesBreak i entries)
    (rest : List Char) : AtToken (renderEntries entries ++ rest) := by
  match entries, h with
  | _ :: entries, h => exact atToken_entry h.1 entries rest

theorem ItemsBreak.atToken {items : List Layout} (h : ItemsBreak i items) (rest : List Char) :
    AtToken (renderItems items ++ rest) := by
  obtain ⟨item, items, rfl⟩ := exists_cons_of_ne_nil h.ne_nil
  exact atToken_hyphen _

theorem Layout.Breaks.atToken (h : l.Breaks i) (rest : List Char) : AtToken (l.render ++ rest) := by
  cases l with
  | scalar | stray => exact h.elim
  | sequence items => exact ItemsBreak.atToken h rest
  | mapping entries => exact EntriesBreak.atToken h rest

theorem EntriesBreak.opens {entries : LayoutEntries} (h : EntriesBreak i entries)
    (hind : ∀ o ∈ ind.head?, o < m.column) (T : List Token) (n : Nat) :
    Reads (.inBlock true ⟨renderEntries entries ++ next, m⟩ ind T n)
      (.inBlock true ⟨renderEntries entries ++ next, m⟩ (m.column :: ind) (⟨.blockMappingStart, m, m⟩ :: T)
        (n + 1)) := by
  match entries, h with
  | (key, gap, value) :: entries, h => exact opens_mapping h.1 h.2.1 hind T n

mutual

/-- The lexer fails on a layout that breaks. -/
theorem fails_layout : ∀ (l : Layout) {i : Nat} {m : Mark} {ind : List Nat} {next : List Char}, l.Breaks i →
    m.column = i → (∀ o ∈ ind.head?, o < i) → ∀ T n, Fails (.inBlock true ⟨l.render ++ next, m⟩ ind T n)
  | .scalar .., _, _, _, _, h, _, _, _, _ => h.elim
  | .stray _, _, _, _, _, h, _, _, _, _ => h.elim
  | .sequence items, i, m, ind, next, h, hm, hind, T, n => by
    subst hm
    exact (opens_sequence (ItemsBreak.ne_nil h) hind T n).fails (fails_items items h rfl rfl _ _)
  | .mapping entries, i, m, ind, next, h, hm, hind, T, n => by
    subst hm
    exact (EntriesBreak.opens h hind T n).fails (fails_entries entries h rfl rfl _ _)

theorem fails_items : ∀ (items : List Layout) {i : Nat} {m : Mark} {ind : List Nat} {next : List Char},
    ItemsBreak i items → m.column = i → ind.head? = some i →
      ∀ T n, Fails (.inBlock true ⟨renderItems items ++ next, m⟩ ind T n)
  | [], _, _, _, _, h, _, _, _, _ => h.elim
  | item :: items, i, m, ind, next, h, hm, hind, T, n => by
    have hcolumn : (m.past ['-', ' ']).column = i + 2 := by rw [column_past_hyphen, hm]
    rw [renderItems, append_assoc, append_assoc]
    rcases h with hbreaks | ⟨hfits, hbreak⟩
    · refine (takes_hyphen (by rw [hind, hm]) (hbreaks.atToken _)).fails ?_ T n
      exact fails_layout item hbreaks hcolumn (by simp [hind])
    · have hitem := takes_layout item hfits hcolumn hind (by omega) (Nat.le_refl i) (by omega) (hbreak.atToken next)
      refine (takes_hyphen (by rw [hind, hm]) (hfits.atToken _)).fails (hitem.fails ?_) T n
      exact fails_items items hbreak (hfits.column_past _) hind

theorem fails_entries : ∀ (entries : LayoutEntries) {i : Nat} {m : Mark} {ind : List Nat}
    {next : List Char}, EntriesBreak i entries → m.column = i → ind.head? = some i →
      ∀ T n, Fails (.inBlock true ⟨renderEntries entries ++ next, m⟩ ind T n)
  | [], _, _, _, _, h, _, _, _, _ => h.elim
  | (key, gap, value) :: entries, i, m, ind, next, ⟨hkey, hgap, h⟩, hm, hind, T, n => by
    have hcolumn : i ≤ (m.past (key.written ++ [':'])).column := hm ▸ le_column_past_key hkey m
    have hends : endsWord ((gap ++ value.render) ++ (renderEntries entries ++ next)).head? := by
      rw [append_assoc]
      exact hgap.endsWord _
    have hsplit : renderEntries ((key, gap, value) :: entries) ++ next =
        (key.written ++ [':']) ++ ((gap ++ value.render) ++ (renderEntries entries ++ next)) := by
      simp [renderEntries]
    rw [hsplit]
    refine (takes_key hkey (by rw [hind, hm]) hends).fails ?_ T n
    rcases or_assoc.2 h with h | ⟨hfits, hbreak⟩
    · rw [append_assoc]
      exact fails_value value hgap h hind hcolumn
    · refine (takes_value value hgap hfits hind hcolumn (Nat.le_refl i) (hbreak.atToken next)).fails ?_
      refine fails_entries entries hbreak ?_ hind
      rw [← Mark.past_past]
      exact hfits.column_past _

theorem fails_value : ∀ (value : Layout) {i : Nat} {m : Mark} {ind : List Nat} {gap next : List Char},
    value.After i gap → value.Strays ∨ value.Breaks (value.valueColumn i) → ind.head? = some i → i ≤ m.column →
      ∀ T n, Fails (.inBlock false ⟨gap ++ (value.render ++ next), m⟩ ind T n)
  | .scalar .., _, _, _, _, _, _, h, _, _, _, _ => h.elim False.elim False.elim
  | .stray cs, i, m, ind, gap, next, hgap, h, hind, hm, T, n => by
    obtain rfl : gap = [' '] := hgap
    have hopens : OpensBlock cs := h.elim id False.elim
    have hcolumn : ∀ o ∈ ind.head?, o ≤ (m.past [' ']).column := by
      rw [hind]
      rintro o ⟨⟩
      exact Nat.le_trans hm (Nat.le_succ _)
    refine (reads_space (hopens.atToken next)).fails ?_
    show Fails (.inBlock false ⟨cs ++ next, m.past [' ']⟩ ind T n)
    cases hopens with
    | hyphen => exact fails_hyphen hcolumn
    | key hkey hrest =>
      rw [append_assoc]
      exact fails_key hkey hcolumn (hrest next)
  | .sequence items, i, m, ind, gap, next, hgap, h, hind, hm, T, n => by
    have hbreak : ItemsBreak i items := h.elim False.elim id
    refine (takes_endsLine hgap (hbreak.atToken next)).fails ?_ T n
    exact fails_items items hbreak (EndsLine.column_past hgap m) hind
  | .mapping entries, i, m, ind, gap, next, hgap, h, hind, hm, T, n => by
    have hbreak : EntriesBreak (i + 2) entries := h.elim False.elim id
    have hcolumn : (m.past gap).column = i + 2 := EndsLine.column_past hgap m
    refine (takes_endsLine hgap (hbreak.atToken next)).fails (fun T n => ?_) T n
    refine (hbreak.opens ?_ T n).fails (fails_entries entries hbreak hcolumn (by rw [hcolumn]; rfl) _ _)
    rw [hcolumn, hind]
    simp

end

/-- A collection that breaks is not read. -/
theorem lex_of_breaks (h : l.Breaks 0) : lex (String.ofList l.render) = .error .malformed := by
  have hfails : Fails (.inBlock true ⟨l.render ++ [], ⟨0, 0, 0⟩⟩ [] [] 0) := fails_layout l h rfl (by simp) [] 0
  rw [append_nil] at hfails
  exact lex_of_fails hfails

end ServerlessTaint.Yaml
