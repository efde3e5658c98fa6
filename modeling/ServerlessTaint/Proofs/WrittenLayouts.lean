import ServerlessTaint.Proofs.ComposedLayouts
import ServerlessTaint.Proofs.WrittenScalars

/-!
# Layouts that are written

A document in block style whose scalars are texts of one line is written as a layout that fits and
has its value (`exists_layout_write`).
-/

namespace ServerlessTaint.Yaml

open List

/-! ## Documents in block style -/

def isLineNode (anchor : Option String) (tag : String) (style : Style) (text : String) : Bool :=
  anchor.isNone && tag == textTag && isLineScalar style text

def Node.isLineKey : Node → Bool
  | .scalar anchor tag style text =>
    isLineNode anchor tag style text && isSimpleKey [] (.scalar anchor tag style text)
  | _ => false

mutual

/-- A document whose collections are in block style and not empty, whose scalars are texts of one
line, and whose keys are short and distinct. -/
def Node.inBlocks : Node → Bool
  | .scalar anchor tag style text => isLineNode anchor tag style text
  | .sequence anchor tag flow items =>
    anchor.isNone && tag == sequenceTag && !flow && !items.isEmpty && itemsInBlocks items
  | .mapping anchor tag flow entries =>
    anchor.isNone && tag == mappingTag && !flow && !entries.isEmpty && entriesInBlocks entries
  | .aliasOf _ => false

def itemsInBlocks : List Node → Bool
  | [] => true
  | item :: items => item.inBlocks && itemsInBlocks items

def entriesInBlocks : List (Node × Node) → Bool
  | [] => true
  | (key, value) :: entries =>
    key.isLineKey && value.inBlocks && !(Keyed.keys (entryValues entries)).contains key.keyText &&
      entriesInBlocks entries

end

variable {flow : Bool} {key node : Node} {style : Style} {tag text : String} {items : List Node}
  {anchor : Option String} {entries : List (Node × Node)}

theorem isLineNode_iff :
    isLineNode anchor tag style text ↔ anchor = none ∧ tag = textTag ∧ isLineScalar style text := by
  simp [isLineNode, and_assoc]

theorem inBlocks_sequence_iff :
    (Node.sequence anchor tag flow items).inBlocks ↔
      anchor = none ∧ tag = sequenceTag ∧ flow = false ∧ items ≠ [] ∧ itemsInBlocks items := by
  simp [Node.inBlocks, and_assoc]

theorem inBlocks_mapping_iff :
    (Node.mapping anchor tag flow entries).inBlocks ↔
      anchor = none ∧ tag = mappingTag ∧ flow = false ∧ entries ≠ [] ∧ entriesInBlocks entries := by
  simp [Node.inBlocks, and_assoc]

theorem itemsInBlocks_cons_iff {item : Node} : itemsInBlocks (item :: items) ↔ item.inBlocks ∧ itemsInBlocks items := by
  simp [itemsInBlocks]

theorem entriesInBlocks_cons_iff {value : Node} :
    entriesInBlocks ((key, value) :: entries) ↔
      key.isLineKey ∧ value.inBlocks ∧ key.keyText ∉ Keyed.keys (entryValues entries) ∧ entriesInBlocks entries := by
  simp [entriesInBlocks, and_assoc]

/-! ## Sheets between tokens -/

namespace Sheet

/-- The sheet after the hyphen of an item. -/
structure AfterHyphen (i : Nat) (s : Sheet) : Prop where
  column : s.column = i + 1
  blank : s.blank = false
  indentation : s.indentation = true
  openEnded : s.openEnded = false

/-- The sheet after the colon of a key. -/
structure AfterColon (s : Sheet) : Prop where
  blank : s.blank = false
  indentation : s.indentation = false
  openEnded : s.openEnded = false

/-- An item or an entry starts at a column, after what moves to it. -/
structure Starts (s : Sheet) (lead : List Char) (i : Nat) : Prop where
  chars : (s.indentTo i).chars = s.chars ++ lead
  column : (s.indentTo i).column = i
  blank : (s.indentTo i).blank = true
  indentation : (s.indentTo i).indentation = true
  openEnded : (s.indentTo i).openEnded = false

theorem starts_root : ({} : Sheet).Starts [] 0 := ⟨rfl, rfl, rfl, rfl, rfl⟩

variable {i j : Nat} {s s₁ s₂ s₃ : Sheet} {as bs : List Char}

theorem starts_line (hindentation : s.indentation = false) (hopen : s.openEnded = false) (i : Nat) :
    s.Starts ('\n' :: replicate i ' ') i := by
  have h : s.OnLine i (s.indentTo i) := onLine_indentTo (.inl hindentation)
  exact ⟨h.chars, h.column, h.blank, h.indentation, h.openEnded.trans hopen⟩

/-- A collection that is an item starts on the line of the hyphen. -/
theorem AfterHyphen.starts (h : s.AfterHyphen i) : s.Starts [' '] (i + 2) := by
  have hline : (!s.indentation || decide (i + 2 < s.column) || (decide (s.column = i + 2) && !s.blank)) = false := by
    rw [h.indentation, h.column, h.blank]
    simp
  have hto : s.indentTo (i + 2) = { s.put [' '] with blank := true } := by
    have hspace : i + 2 - s.column = 1 := by rw [h.column]; omega
    have hlt : s.column < i + 2 := by omega
    simp only [indentTo, hline, Bool.false_eq_true, if_false, if_pos hlt, hspace]
    rfl
  constructor <;> rw [hto]
  · exact chars_put [' '] s
  · exact congrArg (· + 1) h.column
  · exact h.indentation
  · exact h.openEnded

/-- The sheet after the hyphen of an item that starts at a column. -/
theorem Starts.afterHyphen {lead : List Char} (h : s.Starts lead i) :
    ((s.indentTo i).mark "-" true false true).AfterHyphen i ∧
      ((s.indentTo i).mark "-" true false true).chars = s.chars ++ (lead ++ ['-']) := by
  refine ⟨⟨?_, rfl, ?_, rfl⟩, ?_⟩
  · simp [mark, put, h.blank, h.column]
  · simp [mark, h.indentation]
  · rw [chars_mark, h.chars, Sheet.lead, h.blank]
    simp

/-- A text was written, but for the line end and the indentation of what follows it. -/
structure Writes (s : Sheet) (cs : List Char) (j : Nat) (s' : Sheet) : Prop where
  chars : s'.chars ++ '\n' :: List.replicate j ' ' = s.chars ++ cs
  indentation : s'.indentation = false
  openEnded : s'.openEnded = false

/-- A text that was written is followed by another at a column. -/
theorem Writes.append (h : s₁.Writes as i s₂) (h' : s₂.Writes ('\n' :: replicate i ' ' ++ bs) j s₃) :
    s₁.Writes (as ++ bs) j s₃ where
  chars := by rw [h'.chars, ← append_assoc, h.chars, append_assoc]
  indentation := h'.indentation
  openEnded := h'.openEnded

/-- Text before what was written belongs to it. -/
theorem Writes.after (h : s₂.chars = s₁.chars ++ as) (h' : s₂.Writes bs j s₃) : s₁.Writes (as ++ bs) j s₃ where
  chars := by rw [h'.chars, h, append_assoc]
  indentation := h'.indentation
  openEnded := h'.openEnded

end Sheet

theorem endsLine_newline (j : Nat) : EndsLine j ('\n' :: replicate j ' ') where
  newline := rfl
  isGap := forall_mem_cons.2 ⟨rfl, fun _ hc => eq_of_mem_replicate hc ▸ rfl⟩
  column_past m := by rw [Mark.past_newline, Mark.past_spaces, Nat.zero_add]

/-! ## Scalars and keys -/

/-- A scalar that is an item or a value is written after a space. -/
theorem exists_layout_putScalar (h : isLineScalar style text) (i j : Nat) (place : Place) (hkey : place ≠ .simpleKey)
    (hroot : place ≠ .root) {s : Sheet} (hblank : s.blank = false) (hopen : s.openEnded = false) :
    ∃ sp gap, (∀ k, (Layout.scalar sp gap).Fits (i + 1) k j) ∧ sp.node.value = .str text ∧
      s.Writes ([' '] ++ (Layout.scalar sp gap).render) j (putScalar (some i) false place textTag style text s) := by
  obtain ⟨written, hwritten, hadds⟩ := putScalar_writtenAs h (some i) (fun hplace => absurd hplace hkey) hopen
  have hlead : s.lead = [' '] := by rw [Sheet.lead, hblank]; rfl
  refine ⟨⟨writtenStyle style text, text.toList, written⟩, '\n' :: replicate j ' ',
    fun k => ⟨?_, endsLine_newline j⟩, ?_, ?_, hadds.indentation, ?_⟩
  · exact hwritten.spells (i + 1) (.inl (Nat.le_succ _))
  · simp [Spelled.node, Node.value]
  · rw [hadds.chars, hlead, Layout.render]
    simp
  · rw [hadds.openEnded, beq_eq_false_iff_ne.2 hroot, Bool.false_and]

theorem short_of_isSimpleKey {names : List (String × String)} (h : isSimpleKey names (.scalar anchor tag style text)) :
    text.toList.length < maxSimpleKey ∧ text.toList ≠ [] := by
  simp only [isSimpleKey, Bool.and_eq_true, decide_eq_true_eq, Bool.not_eq_true'] at h
  obtain ⟨⟨hlength, hempty⟩, -⟩ := h
  refine ⟨?_, fun hnil => ?_⟩
  · rw [String.length_toList]
    omega
  · rw [hnil] at hempty
    cases hempty

/-- A key is written on one line, and a colon follows it. -/
theorem exists_spelled_putKey (h : key.isLineKey) (i : Nat) {s : Sheet} (hblank : s.blank)
    (hopen : s.openEnded = false) :
    isSimpleKey [] key ∧ ∃ sp : Spelled, Lex.IsKey sp.style sp.text sp.written ∧ sp.node.keyText = key.keyText ∧
      ((putNode [] (some i) false .simpleKey key s).mark ":" false false false).AfterColon ∧
        ((putNode [] (some i) false .simpleKey key s).mark ":" false false false).chars =
          s.chars ++ (sp.written ++ [':']) := by
  cases key with
  | sequence | mapping | aliasOf => cases h
  | scalar anchor tag style text =>
    obtain ⟨hnode, hsimple⟩ := Bool.and_eq_true_iff.1 h
    obtain ⟨rfl, rfl, hline⟩ := isLineNode_iff.1 hnode
    refine ⟨hsimple, ?_⟩
    have hshort := short_of_isSimpleKey hsimple
    obtain ⟨written, hwritten, hadds⟩ :=
      putScalar_writtenAs hline (some i) (fun _ : Place.simpleKey = .simpleKey => hshort.2) hopen
    have hlead : s.lead = [] := by rw [Sheet.lead, hblank]; rfl
    refine ⟨⟨writtenStyle style text, text.toList, written⟩, ⟨fun least => ?_, ?_, ?_⟩, ?_, ?_, ?_⟩
    · exact hwritten.spells least (.inr rfl)
    · exact hwritten.inLine rfl
    · have := hwritten.length_le rfl
      have := hshort.1
      simp only [maxSimpleKey] at this
      show written.length ≤ 1024
      omega
    · simp [Spelled.node, Node.keyText, Node.text?]
    · exact ⟨rfl, Bool.and_false _, rfl⟩
    · rw [Sheet.chars_mark]
      show (putScalar (some i) false .simpleKey textTag style text s).chars ++ [] ++ [':'] = _
      rw [hadds.chars, hlead]
      simp

/-! ## Collections -/

section Put

variable {items : List Node} {entries : List (Node × Node)} {s : Sheet}

theorem putNode_sequence (indent : Option Nat) {place : Place} (hplace : place = .root ∨ place = .item)
    (hne : items ≠ []) :
    putNode [] indent false place (.sequence none sequenceTag false items) s =
      putBlockItems [] (deeper false indent) items s := by
  rcases hplace with rfl | rfl <;> simp [putNode, putTag, putAnchor, hne, deeper]

/-- A sequence that is a value is not indented. -/
theorem putNode_sequence_entry (i : Nat) (hne : items ≠ []) (hs : s.indentation = false) :
    putNode [] (some i) false .entry (.sequence none sequenceTag false items) s = putBlockItems [] i items s := by
  simp [putNode, putTag, putAnchor, hne, hs]

theorem putNode_mapping (indent : Option Nat) (place : Place) (hne : entries ≠ []) :
    putNode [] indent false place (.mapping none mappingTag false entries) s =
      putBlockEntries [] (deeper false indent) entries s := by
  simp [putNode, putTag, putAnchor, hne]

end Put

mutual

/-- An item is written after its hyphen. -/
theorem exists_layout_putItem : ∀ (node : Node) {i : Nat} {s : Sheet}, node.inBlocks → s.AfterHyphen i → ∀ j,
    ∃ l : Layout, l.Fits (i + 1) (i + 2) j ∧ l.node.value = node.value ∧
      s.Writes ([' '] ++ l.render) j (putNode [] (some i) false .item node s)
  | .scalar anchor tag style text, i, s, h, hs, j => by
    obtain ⟨rfl, rfl, hline⟩ := isLineNode_iff.1 h
    obtain ⟨sp, gap, hfits, hvalue, hwrites⟩ :=
      exists_layout_putScalar hline i j .item nofun nofun hs.blank hs.openEnded
    exact ⟨_, hfits _, hvalue, hwrites⟩
  | .sequence anchor tag flow items, i, s, h, hs, j => by
    obtain ⟨rfl, rfl, rfl, hne, hitems⟩ := inBlocks_sequence_iff.1 h
    obtain ⟨ls, hls, hfits, hvalues, hwrites⟩ := exists_layouts_putItems items hitems hne hs.starts j
    refine ⟨.sequence ls, ⟨hls, hfits⟩, congrArg Value.list hvalues, ?_⟩
    rw [putNode_sequence _ (.inr rfl) hne]
    exact hwrites
  | .mapping anchor tag flow entries, i, s, h, hs, j => by
    obtain ⟨rfl, rfl, rfl, hne, hentries⟩ := inBlocks_mapping_iff.1 h
    obtain ⟨ls, hls, hfits, hvalues, hwrites⟩ := exists_layouts_putEntries entries hentries hne hs.starts j
    refine ⟨.mapping ls, ⟨hls, hfits⟩, congrArg Value.map hvalues, ?_⟩
    rw [putNode_mapping _ _ hne]
    exact hwrites
  | .aliasOf _, _, _, h, _, _ => by cases h

/-- A value is written after the colon of its key. -/
theorem exists_layout_putValue : ∀ (node : Node) (i : Nat) {s : Sheet}, node.inBlocks → s.AfterColon → ∀ j,
    ∃ (gap : List Char) (l : Layout), l.After i gap ∧ l.Fits (i + 1) (l.valueColumn i) j ∧ l.node.value = node.value ∧
      s.Writes (gap ++ l.render) j (putNode [] (some i) false .entry node s)
  | .scalar anchor tag style text, i, s, h, hs, j => by
    obtain ⟨rfl, rfl, hline⟩ := isLineNode_iff.1 h
    obtain ⟨sp, gap, hfits, hvalue, hwrites⟩ :=
      exists_layout_putScalar hline i j .entry nofun nofun hs.blank hs.openEnded
    exact ⟨[' '], .scalar sp gap, rfl, hfits _, hvalue, hwrites⟩
  | .sequence anchor tag flow items, i, s, h, hs, j => by
    obtain ⟨rfl, rfl, rfl, hne, hitems⟩ := inBlocks_sequence_iff.1 h
    obtain ⟨ls, hls, hfits, hvalues, hwrites⟩ :=
      exists_layouts_putItems items hitems hne (Sheet.starts_line hs.indentation hs.openEnded i) j
    refine ⟨_, .sequence ls, endsLine_newline i, ⟨hls, hfits⟩, congrArg Value.list hvalues, ?_⟩
    rw [putNode_sequence_entry i hne hs.indentation]
    exact hwrites
  | .mapping anchor tag flow entries, i, s, h, hs, j => by
    obtain ⟨rfl, rfl, rfl, hne, hentries⟩ := inBlocks_mapping_iff.1 h
    obtain ⟨ls, hls, hfits, hvalues, hwrites⟩ :=
      exists_layouts_putEntries entries hentries hne (Sheet.starts_line hs.indentation hs.openEnded (i + 2)) j
    refine ⟨_, .mapping ls, endsLine_newline (i + 2), ⟨hls, hfits⟩, congrArg Value.map hvalues, ?_⟩
    rw [putNode_mapping _ _ hne]
    exact hwrites
  | .aliasOf _, _, _, h, _, _ => by cases h

theorem exists_layouts_putItems : ∀ (items : List Node) {i : Nat} {s : Sheet} {lead : List Char}, itemsInBlocks items →
    items ≠ [] → s.Starts lead i → ∀ j,
      ∃ ls : List Layout, ls ≠ [] ∧ ItemsFit i j ls ∧ itemValues (itemNodes ls) = itemValues items ∧
        s.Writes (lead ++ renderItems ls) j (putBlockItems [] i items s)
  | [], _, _, _, _, hne, _, _ => absurd rfl hne
  | item :: items, i, s, lead, h, _, hs, j => by
    obtain ⟨hitem, hitems⟩ := itemsInBlocks_cons_iff.1 h
    obtain ⟨hhyphen, hchars⟩ := hs.afterHyphen
    obtain ⟨l, hfits, hvalue, hwrites⟩ := exists_layout_putItem item hitem hhyphen (if items.isEmpty then j else i)
    rw [putBlockItems]
    cases items with
    | nil =>
      refine ⟨[l], by simp, ⟨hfits, trivial⟩, by simp [itemNodes, itemValues, hvalue], ?_⟩
      have hfirst := hwrites.after hchars
      simpa [renderItems, putBlockItems] using hfirst
    | cons next items =>
      obtain ⟨ls, hls, hfit, hvalues, hmore⟩ := exists_layouts_putItems (next :: items) hitems (by simp)
        (Sheet.starts_line hwrites.indentation hwrites.openEnded i) j
      have hcons : ls.isEmpty = false := by simpa using hls
      refine ⟨l :: ls, by simp, ⟨by rw [hcons]; exact hfits, hfit⟩, ?_, ?_⟩
      · simp [itemNodes, itemValues, hvalue, hvalues]
      · have hall := (hwrites.append hmore).after hchars
        simpa [renderItems] using hall

theorem exists_layouts_putEntries : ∀ (entries : List (Node × Node)) {i : Nat} {s : Sheet} {lead : List Char},
    entriesInBlocks entries → entries ≠ [] → s.Starts lead i → ∀ j,
      ∃ ls : LayoutEntries, ls ≠ [] ∧ EntriesFit i j ls ∧
        entryValues (entryNodes ls) = entryValues entries ∧
          s.Writes (lead ++ renderEntries ls) j (putBlockEntries [] i entries s)
  | [], _, _, _, _, hne, _, _ => absurd rfl hne
  | (key, value) :: entries, i, s, lead, h, _, hs, j => by
    obtain ⟨hkey, hvalue, -, hentries⟩ := entriesInBlocks_cons_iff.1 h
    obtain ⟨hsimple, sp, hspelled, htext, hcolon, hchars⟩ := exists_spelled_putKey hkey i hs.blank hs.openEnded
    obtain ⟨gap, l, hgap, hfits, hval, hwrites⟩ :=
      exists_layout_putValue value i hvalue hcolon (if entries.isEmpty then j else i)
    rw [hs.chars, append_assoc] at hchars
    rw [putBlockEntries]
    simp only [hsimple, if_true]
    cases entries with
    | nil =>
      refine ⟨[(sp, gap, l)], by simp, ⟨hspelled, hgap, hfits, trivial⟩, ?_, ?_⟩
      · simp [entryNodes, entryValues, hval, htext]
      · have hfirst := hwrites.after hchars
        simpa [renderEntries, putBlockEntries] using hfirst
    | cons next entries =>
      obtain ⟨ls, hls, hfit, hvalues, hmore⟩ := exists_layouts_putEntries (next :: entries) hentries (by simp)
        (Sheet.starts_line hwrites.indentation hwrites.openEnded i) j
      have hcons : ls.isEmpty = false := by simpa using hls
      refine ⟨(sp, gap, l) :: ls, by simp, ⟨hspelled, hgap, by rw [hcons]; exact hfits, hfit⟩, ?_, ?_⟩
      · simp [entryNodes, entryValues, hval, htext, hvalues]
      · have hall := (hwrites.append hmore).after hchars
        simpa [renderEntries] using hall

end

/-! ## Documents -/

mutual

theorem aliases_of_inBlocks : ∀ (node : Node), node.inBlocks → node.aliases = []
  | .scalar .., _ => rfl
  | .sequence _ _ _ items, h => aliases_of_itemsInBlocks items (inBlocks_sequence_iff.1 h).2.2.2.2
  | .mapping _ _ _ entries, h => aliases_of_entriesInBlocks entries (inBlocks_mapping_iff.1 h).2.2.2.2
  | .aliasOf _, h => by cases h

theorem aliases_of_itemsInBlocks : ∀ (items : List Node), itemsInBlocks items → aliasesOfItems items = []
  | [], _ => rfl
  | item :: items, h => by
    obtain ⟨hitem, hitems⟩ := itemsInBlocks_cons_iff.1 h
    rw [aliasesOfItems, aliases_of_inBlocks item hitem, aliases_of_itemsInBlocks items hitems]
    rfl

theorem aliases_of_entriesInBlocks : ∀ (entries : List (Node × Node)), entriesInBlocks entries →
    aliasesOfEntries entries = []
  | [], _ => rfl
  | (key, value) :: entries, h => by
    obtain ⟨hkey, hvalue, -, hentries⟩ := entriesInBlocks_cons_iff.1 h
    have hnone : key.aliases = [] := by
      cases key with
      | scalar => rfl
      | sequence | mapping | aliasOf => cases hkey
    rw [aliasesOfEntries, hnone, aliases_of_inBlocks value hvalue, aliases_of_entriesInBlocks entries hentries]
    rfl

end

theorem anchorNames_of_inBlocks (h : node.inBlocks) : anchorNames node = [] := by
  rw [anchorNames, aliases_of_inBlocks node h]
  rfl

/-- What was written at the root is the text of the document, with the end of its last line. -/
theorem write_of_writes (h : node.inBlocks) {cs : List Char}
    (hwrites : ({} : Sheet).Writes cs 0 (putNode [] none false .root node {})) : node.write.toList = cs := by
  have hline : Sheet.OnLine _ 0 ((putNode [] none false .root node {}).indentTo 0) :=
    Sheet.onLine_indentTo (.inl hwrites.indentation)
  have hopen := hline.openEnded.trans hwrites.openEnded
  simp only [Node.write, anchorNames_of_inBlocks h, hopen, Bool.false_eq_true, if_false]
  exact hline.chars.trans hwrites.chars

/-- The document is a sequence or a mapping. -/
def Node.isCollection : Node → Bool
  | .sequence .. | .mapping .. => true
  | .scalar .. | .aliasOf _ => false

/-- A collection in block style is written as a layout that fits and has its value. -/
theorem exists_layout_write (h : node.inBlocks) (hcollection : node.isCollection) :
    ∃ l : Layout, (∀ least, l.Fits least 0 0) ∧ (∀ s gap, l ≠ .scalar s gap) ∧ l.node.value = node.value ∧
      node.write.toList = l.render := by
  cases node with
  | scalar | aliasOf => cases hcollection
  | sequence anchor tag flow items =>
    obtain ⟨rfl, rfl, rfl, hne, hitems⟩ := inBlocks_sequence_iff.1 h
    obtain ⟨ls, hls, hfits, hvalues, hwrites⟩ := exists_layouts_putItems items hitems hne Sheet.starts_root 0
    refine ⟨.sequence ls, fun _ => ⟨hls, hfits⟩, nofun, congrArg Value.list hvalues, write_of_writes h ?_⟩
    rw [putNode_sequence _ (.inl rfl) hne]
    exact hwrites
  | mapping anchor tag flow entries =>
    obtain ⟨rfl, rfl, rfl, hne, hentries⟩ := inBlocks_mapping_iff.1 h
    obtain ⟨ls, hls, hfits, hvalues, hwrites⟩ := exists_layouts_putEntries entries hentries hne Sheet.starts_root 0
    refine ⟨.mapping ls, fun _ => ⟨hls, hfits⟩, nofun, congrArg Value.map hvalues, write_of_writes h ?_⟩
    rw [putNode_mapping none .root hne]
    exact hwrites

/-- A scalar is written on lines of its own. A plain one is followed by a mark of the end of the
document. -/
theorem exists_written_write (h : isLineScalar style text) :
    ∃ written, WrittenAs 2 true (writtenStyle style text) text.toList written ∧
      (Node.scalar none textTag style text).write.toList =
        written ++ if writtenStyle style text == .plain then "\n...\n".toList else ['\n'] := by
  have hnode : (Node.scalar none textTag style text).inBlocks := isLineNode_iff.2 ⟨rfl, rfl, h⟩
  obtain ⟨written, hwritten, hadds⟩ :=
    putScalar_writtenAs h none (fun hplace : Place.root = .simpleKey => by cases hplace) (s := {}) rfl
  refine ⟨written, hwritten, ?_⟩
  have hlead : ({} : Sheet).chars ++ (({} : Sheet).lead ++ written) = written := rfl
  obtain ⟨hchars, -, hindentation, hopen⟩ := hadds
  rw [hlead] at hchars
  obtain ⟨s, hs⟩ : ∃ s, s = putNode [] none false .root (.scalar none textTag style text) {} := ⟨_, rfl⟩
  have hput : s = putScalar none false .root textTag style text {} := hs
  rw [← hput] at hchars hindentation hopen
  cases hplain : writtenStyle style text == .plain with
  | false =>
    rw [hplain] at hopen
    refine write_of_writes hnode ?_
    rw [← hs]
    exact ⟨by rw [hchars]; rfl, hindentation, hopen⟩
  | true =>
    have hline : s.OnLine 0 (s.indentTo 0) := Sheet.onLine_indentTo (.inl hindentation)
    have hstillOpen : (s.indentTo 0).openEnded := by
      rw [hline.openEnded, hopen, hplain]
      rfl
    have hend : Sheet.OnLine _ 0 (((s.indentTo 0).mark "..." true false false).indentTo 0) :=
      Sheet.onLine_indentTo (.inl (Bool.and_false _))
    have hblank : (s.indentTo 0).lead = [] := by
      rw [Sheet.lead, hline.blank]
      rfl
    simp only [Node.write, anchorNames_of_inBlocks hnode, ← hs, hstillOpen, if_true]
    refine hend.chars.trans ?_
    rw [Sheet.chars_mark, hline.chars, hchars, hblank]
    simp

end ServerlessTaint.Yaml
