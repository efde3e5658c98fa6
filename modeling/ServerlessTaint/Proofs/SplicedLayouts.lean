import ServerlessTaint.Proofs.ShiftedLayouts

/-!
# Files spliced into layouts

The content of a file takes the place of a scalar that refers to it, written anew and moved to the
column of the scalar. A collection fits in the place of an item. It breaks the layout in the place of
a value, since it would start on the line of its key. The end mark after a plain scalar becomes a
part of its text (`exists_spliced`).

Two replacements of texts in a value give the same value just when they agree on every text in it
(`replacing_eq_replacing_iff`).
-/

namespace ServerlessTaint.Value

open List

mutual

def replacing (f : String → Option Value) : Value → Value
  | .str text => (f text).getD (.str text)
  | .list items => .list (replacingItems f items)
  | .map entries => .map (replacingEntries f entries)
  | .null => .null
  | .bool b => .bool b
  | .int n => .int n
  | .real x => .real x

def replacingItems (f : String → Option Value) : List Value → List Value
  | [] => []
  | item :: items => item.replacing f :: replacingItems f items

def replacingEntries (f : String → Option Value) : List (String × Value) → List (String × Value)
  | [] => []
  | (key, value) :: entries => (key, value.replacing f) :: replacingEntries f entries

end

mutual

def leaves (inEntry : Bool) : Value → List (Bool × String)
  | .str text => [(inEntry, text)]
  | .list items => itemLeaves items
  | .map entries => entryLeaves entries
  | .null | .bool _ | .int _ | .real _ => []

def itemLeaves : List Value → List (Bool × String)
  | [] => []
  | item :: items => item.leaves false ++ itemLeaves items

def entryLeaves : List (String × Value) → List (Bool × String)
  | [] => []
  | (_, value) :: entries => value.leaves true ++ entryLeaves entries

end

mutual

def keyTexts : Value → List String
  | .list items => itemKeyTexts items
  | .map entries => entryKeyTexts entries
  | .null | .bool _ | .int _ | .real _ | .str _ => []

def itemKeyTexts : List Value → List String
  | [] => []
  | item :: items => item.keyTexts ++ itemKeyTexts items

def entryKeyTexts : List (String × Value) → List String
  | [] => []
  | (key, value) :: entries => key :: (value.keyTexts ++ entryKeyTexts entries)

end

/-! ## Agreement -/

section Agreement

variable {f g : String → Option Value}

mutual

/-- Replacements give the same value just when they agree on every text in it. -/
theorem replacing_eq_replacing_iff : ∀ (v : Value) (inEntry : Bool), v.replacing f = v.replacing g ↔
    ∀ p ∈ v.leaves inEntry, (f p.2).getD (.str p.2) = (g p.2).getD (.str p.2)
  | .str text, inEntry => by simp [replacing, leaves]
  | .list items, _ => by
    rw [replacing, replacing, Value.list.injEq]
    exact replacingItems_eq_iff items
  | .map entries, _ => by
    rw [replacing, replacing, Value.map.injEq]
    exact replacingEntries_eq_iff entries
  | .null, _ | .bool _, _ | .int _, _ | .real _, _ => by simp [replacing, leaves]

theorem replacingItems_eq_iff : ∀ items : List Value, replacingItems f items = replacingItems g items ↔
    ∀ p ∈ itemLeaves items, (f p.2).getD (.str p.2) = (g p.2).getD (.str p.2)
  | [] => by simp [replacingItems, itemLeaves]
  | item :: items => by
    rw [replacingItems, replacingItems, cons.injEq, replacing_eq_replacing_iff item false,
      replacingItems_eq_iff items, itemLeaves, forall_mem_append]

theorem replacingEntries_eq_iff : ∀ entries : List (String × Value),
    replacingEntries f entries = replacingEntries g entries ↔
      ∀ p ∈ entryLeaves entries, (f p.2).getD (.str p.2) = (g p.2).getD (.str p.2)
  | [] => by simp [replacingEntries, entryLeaves]
  | (key, value) :: entries => by
    rw [replacingEntries, replacingEntries, cons.injEq, Prod.mk.injEq, replacing_eq_replacing_iff value true,
      replacingEntries_eq_iff entries, entryLeaves, forall_mem_append]
    simp

end

end Agreement

/-! ## Distinct keys -/

mutual

def DistinctKeys : Value → Prop
  | .list items => DistinctKeysItems items
  | .map entries => DistinctKeysEntries entries
  | .null | .bool _ | .int _ | .real _ | .str _ => True

def DistinctKeysItems : List Value → Prop
  | [] => True
  | item :: items => item.DistinctKeys ∧ DistinctKeysItems items

/-- The keys of a map are distinct, and those of every map in its values. -/
def DistinctKeysEntries : List (String × Value) → Prop
  | [] => True
  | (key, value) :: entries => value.DistinctKeys ∧ key ∉ Keyed.keys entries ∧ DistinctKeysEntries entries

end

theorem keys_replacingEntries (f : String → Option Value) (entries : List (String × Value)) :
    Keyed.keys (replacingEntries f entries) = Keyed.keys entries := by
  induction entries with
  | nil => rfl
  | cons entry entries ih => exact congrArg (entry.1 :: ·) ih

section DistinctKeys

variable {f : String → Option Value}

mutual

/-- Keys stay distinct if they are in what is put in. -/
theorem DistinctKeys.replacing : ∀ {v : Value} {inEntry : Bool}, v.DistinctKeys →
    (∀ p ∈ v.leaves inEntry, ∀ w, f p.2 = some w → w.DistinctKeys) → (v.replacing f).DistinctKeys
  | .str text, inEntry, _, h => by
    rw [Value.replacing]
    cases hf : f text with
    | none => trivial
    | some w => exact h (inEntry, text) mem_cons_self w hf
  | .list _, _, hv, h => DistinctKeysItems.replacing hv h
  | .map _, _, hv, h => DistinctKeysEntries.replacing hv h
  | .null, _, _, _ | .bool _, _, _, _ | .int _, _, _, _ | .real _, _, _, _ => trivial

theorem DistinctKeysItems.replacing : ∀ {items : List Value}, DistinctKeysItems items →
    (∀ p ∈ itemLeaves items, ∀ w, f p.2 = some w → w.DistinctKeys) → DistinctKeysItems (replacingItems f items)
  | [], _, _ => trivial
  | _ :: _, hv, h => by
    obtain ⟨hitem, hitems⟩ := forall_mem_append.1 h
    exact ⟨hv.1.replacing hitem, DistinctKeysItems.replacing hv.2 hitems⟩

theorem DistinctKeysEntries.replacing : ∀ {entries : List (String × Value)}, DistinctKeysEntries entries →
    (∀ p ∈ entryLeaves entries, ∀ w, f p.2 = some w → w.DistinctKeys) → DistinctKeysEntries (replacingEntries f entries)
  | [], _, _ => trivial
  | (key, _) :: entries, hv, h => by
    obtain ⟨hvalue, hentries⟩ := forall_mem_append.1 h
    refine ⟨hv.1.replacing hvalue, ?_, DistinctKeysEntries.replacing hv.2.2 hentries⟩
    rw [keys_replacingEntries]
    exact hv.2.1

end

end DistinctKeys

end ServerlessTaint.Value

namespace ServerlessTaint.Reference

open List Yaml

/-! ## Stretches -/

/-- The document of a file that is referred to, if it can be read and has content. -/
def Sources.document? (s : Sources) (path : String) : Option Node :=
  (composeFile s.tree (s.fullPath (resolve s.config path))).toOption.join

def Sources.contentOf? (s : Sources) (text : String) : Option Node := (filePath? text).bind s.document?

def inclusionOf? (t : Token) : Option Inclusion :=
  match t.kind with
  | .scalar value _ => (filePath? value).map fun path => ⟨t.start, t.stop, path⟩
  | _ => none

/-- The stretches of a text to be replaced, and what takes their places. -/
def Sources.stretches (s : Sources) (ts : List Token) : List (Nat × Nat × Option (List Char)) :=
  (ts.filterMap inclusionOf?).map fun i => (i.start.index, i.stop.index, s.included? i)

/-- What takes the place of a scalar at a column. -/
def Sources.put (s : Sources) (column : Nat) (sp : Spelled) : List Char :=
  match s.contentOf? (String.ofList sp.text) with
  | some document => shiftRight column document.write.toList
  | none => sp.written

theorem includeFiles_eq {s : Sources} {root : Node} (hroot : composeFile s.tree s.file = .ok (some root))
    {ts : List Token} (hlex : lex root.write = .ok ts) :
    s.includeFiles = .ok (String.ofList (spliceAll root.write.toList (s.stretches ts))) := by
  have hnormal : normalized s.tree s.file = .ok root.write := by
    rw [normalized, hroot]
    rfl
  have hfound : inclusions root.write = .ok (ts.filterMap inclusionOf?) := by
    rw [inclusions, hlex]
    rfl
  rw [Sources.includeFiles, hnormal, ok_bind, hfound]
  rfl

theorem spliceAll_append (text : List Char) (xs ys : List (Nat × Nat × Option (List Char))) :
    spliceAll text (xs ++ ys) = spliceAll (spliceAll text ys) xs := foldr_append

section Splices

variable {s : Sources}

theorem stretches_append (ts ts' : List Token) : s.stretches (ts ++ ts') = s.stretches ts ++ s.stretches ts' := by
  simp [Sources.stretches]

/-- A text at a place becomes another one, whatever stands around it. -/
def Sources.Splices (s : Sources) (ts : List Token) (m : Mark) (cs cs' : List Char) : Prop :=
  ∀ before after : List Char, before.length = m.index →
    spliceAll (before ++ (cs ++ after)) (s.stretches ts) = before ++ (cs' ++ after)

variable {sp : Spelled} {ts : List Token}

theorem splices_nil (m : Mark) (cs : List Char) : s.Splices [] m cs cs := fun _ _ _ => rfl

theorem Sources.Splices.append {ts' : List Token} {m : Mark} {as as' bs bs' : List Char} (htidy : Tidy as)
    (h : s.Splices ts m as as') (h' : s.Splices ts' (m.past as) bs bs') :
    s.Splices (ts ++ ts') m (as ++ bs) (as' ++ bs') := by
  intro before after hbefore
  have hlater : (before ++ as).length = (m.past as).index := by
    rw [length_append, Mark.index_past m htidy, hbefore]
  have hsecond := h' (before ++ as) after hlater
  rw [stretches_append, spliceAll_append]
  simp only [append_assoc] at hsecond ⊢
  rw [hsecond, h before (bs' ++ after) hbefore]

theorem included?_eq (i : Inclusion) :
    s.included? i = (s.document? i.path).map fun document => shiftRight i.start.column document.write.toList := by
  unfold Sources.included? Sources.document? shifted normalized
  dsimp only
  rcases composeFile s.tree (s.fullPath (resolve s.config i.path)) with fault | _ | document
  · rfl
  · rfl
  · exact congrArg some String.toList_ofList

/-- A scalar has a stretch to be replaced if it leads to a file. -/
theorem spliceAll_token (sp : Spelled) (m : Mark) (text : List Char) :
    spliceAll text (s.stretches [sp.token m]) =
      (s.contentOf? (String.ofList sp.text)).elim text fun document =>
        splice text m.index (m.past sp.written).index (shiftRight m.column document.write.toList) := by
  have hfound : inclusionOf? (sp.token m) = (filePath? (String.ofList sp.text)).map (⟨m, m.past sp.written, ·⟩) := rfl
  rw [Sources.contentOf?]
  cases hpath : filePath? (String.ofList sp.text) with
  | none => simp [Sources.stretches, hfound, hpath, spliceAll]
  | some path =>
    cases hdocument : s.document? path <;>
      simp [Sources.stretches, hfound, hpath, included?_eq, hdocument, spliceAll]

/-- The stretch of a scalar between what stands before and after it. -/
theorem splice_between (before cs after r : List Char) :
    splice (before ++ (cs ++ after)) before.length (before.length + cs.length) r = before ++ (r ++ after) := by
  have hdrop : (before ++ (cs ++ after)).drop (before.length + cs.length) = after := by
    rw [← drop_drop, drop_left, drop_left]
  rw [splice, take_left, hdrop, append_assoc]

/-- A scalar becomes the content of the file that it refers to. -/
theorem splices_scalar (sp : Spelled) (hsp : Tidy sp.written) (m : Mark) :
    s.Splices [sp.token m] m sp.written (s.put m.column sp) := by
  intro before after hbefore
  rw [spliceAll_token, Sources.put]
  cases s.contentOf? (String.ofList sp.text) with
  | none => rfl
  | some document =>
    rw [Option.elim_some, Mark.index_past m hsp, ← hbefore]
    exact splice_between before sp.written after _

/-- A key that does not lead to a file stays. -/
theorem splices_key (h : s.contentOf? (String.ofList sp.text) = none) (m : Mark) (cs : List Char) :
    s.Splices (Lex.keyTokens sp.style sp.text sp.written m) m cs cs := by
  intro before after _
  refine (spliceAll_token sp m _).trans ?_
  rw [h, Option.elim_none]

theorem splices_scalar_gap (sp : Spelled) (hsp : Tidy sp.written) (m : Mark) (gap : List Char) :
    s.Splices [sp.token m] m (sp.written ++ gap) (s.put m.column sp ++ gap) :=
  (splices_scalar sp hsp m).append hsp (splices_nil _ gap)

end Splices

/-! ## Content in the place of a scalar -/

/-- The value that a document has once it is spliced. The end mark after a plain scalar is read as a
part of its text. -/
def splicedValue : Node → Value
  | .scalar _ _ style text => .str (if writtenStyle style text == .plain then text ++ " ..." else text)
  | document => document.value

/-- The values that are put in the places of texts. -/
def Sources.spliced (s : Sources) (text : String) : Option Value := (s.contentOf? text).map splicedValue

section Scalars

variable {s : Sources} {sp : Spelled} {gap : List Char} {least k j : Nat} {m : Mark}

theorem splicedValue_of_isCollection {document : Node} (h : document.isCollection) :
    splicedValue document = document.value := by
  cases document with
  | scalar => cases h
  | sequence | mapping | aliasOf => rfl

/-- The spelling of a scalar that is written as a document, moved to a column. -/
theorem exists_spelled_write {style : Style} {text : String} (h : isLineScalar style text) {c : Nat}
    (hleast : least ≤ c) :
    ∃ sp : Spelled, Spells least sp.style sp.text sp.written ∧
      Value.str (String.ofList sp.text) = splicedValue (.scalar none textTag style text) ∧
        shiftRight c (Node.scalar none textTag style text).write.toList =
          sp.written ++ '\n' :: replicate c ' ' := by
  obtain ⟨written, hwritten, hwrite⟩ := exists_written_write h
  have hspells : Spells least (writtenStyle style text) text.toList (shiftRight c written) :=
    ((hwritten.spells 0 (.inl (Nat.zero_le 2))).shift).mono hleast
  have hline : shiftRight c ['\n'] = '\n' :: replicate c ' ' := by simp [shiftRight]
  rw [hwrite, shiftRight_append]
  cases hplain : writtenStyle style text == .plain with
  | false =>
    refine ⟨⟨writtenStyle style text, text.toList, shiftRight c written⟩, hspells, ?_, ?_⟩
    · simp [splicedValue, hplain]
    · simp [hline]
  | true =>
    rw [eq_of_beq hplain] at hspells
    have hmark : shiftRight c "\n...\n".toList =
        ('\n' :: replicate c ' ' ++ "...".toList) ++ '\n' :: replicate c ' ' := by
      have hsplit : "\n...\n".toList = ['\n'] ++ "...".toList ++ ['\n'] := rfl
      rw [hsplit, shiftRight_append, shiftRight_append, hline, shiftRight_eq_self (by simp [InLine, isInLine, isInk])]
    refine ⟨⟨.plain, text.toList ++ " ...".toList,
      shiftRight c written ++ ('\n' :: replicate c ' ' ++ "...".toList)⟩, hspells.withEndMark hleast, ?_, ?_⟩
    · simp only [splicedValue, hplain, if_true]
      rw [← String.toList_append, String.ofList_toList]
    · rw [if_pos rfl, hmark, ← append_assoc]

/-- A scalar in whose place no collection is put stays a scalar. -/
theorem exists_spliced_scalar (h : (Layout.scalar sp gap).Fits least k j) (hleast : least ≤ m.column)
    (hblocks : ∀ d, s.contentOf? (String.ofList sp.text) = some d → d.inBlocks)
    (hscalar : (s.contentOf? (String.ofList sp.text)).any Node.isCollection = false) :
    ∃ sp' gap', s.Splices [sp.token m] m (sp.written ++ gap) (Layout.scalar sp' gap').render ∧
      (∀ i, (Layout.scalar sp' gap').Fits least i j) ∧
        sp'.node.value = (Value.str (String.ofList sp.text)).replacing s.spliced := by
  obtain ⟨hspells, hgap⟩ := h
  have hsplices := splices_scalar_gap (s := s) sp hspells.tidy m gap
  cases hcontent : s.contentOf? (String.ofList sp.text) with
  | none =>
    rw [Sources.put, hcontent] at hsplices
    refine ⟨sp, gap, hsplices, fun _ => ⟨hspells, hgap⟩, ?_⟩
    simp [Value.replacing, Sources.spliced, hcontent, Spelled.node, Node.value]
  | some d =>
    rw [Sources.put, hcontent] at hsplices
    rw [hcontent] at hscalar
    cases d with
    | sequence | mapping => cases hscalar
    | aliasOf => cases hblocks _ hcontent
    | scalar anchor tag style text =>
      obtain ⟨rfl, rfl, hline⟩ := isLineNode_iff.1 (hblocks _ hcontent)
      obtain ⟨sp', hspells', hvalue, hwrite⟩ := exists_spelled_write hline hleast
      refine ⟨sp', '\n' :: replicate m.column ' ' ++ gap, ?_,
        fun _ => ⟨hspells', (endsLine_newline _).append hgap⟩, ?_⟩
      · simp only [hwrite, append_assoc] at hsplices
        exact hsplices
      · rw [Value.replacing, Sources.spliced, hcontent]
        exact hvalue

/-- A collection is put in the place of a scalar. -/
theorem exists_spliced_collection (h : (Layout.scalar sp gap).Fits least k j) (hleast : least ≤ m.column) {d : Node}
    (hd : s.contentOf? (String.ofList sp.text) = some d) (hblocks : d.inBlocks) (hcollection : d.isCollection) :
    ∃ l : Layout, s.Splices [sp.token m] m (sp.written ++ gap) l.render ∧ l.Fits least m.column j ∧
      (∀ sp gap, l ≠ .scalar sp gap) ∧ l.node.value = d.value := by
  obtain ⟨hspells, hgap⟩ := h
  obtain ⟨l, hfits, hnot, hvalue, hwrite⟩ := exists_layout_write hblocks hcollection
  have hsplices := splices_scalar_gap (s := s) sp hspells.tidy m gap
  obtain ⟨l', hmoves, hmoved⟩ := (hfits 0).exists_moved (c := m.column) hgap.endsMoved
  rw [Sources.put, hd] at hsplices
  refine ⟨l', ?_, hmoved.mono hleast, ?_, ?_⟩
  · rw [hmoves.render, ← hwrite]
    exact hsplices
  · rintro sp gap rfl
    have hnode := hmoves.node
    cases l with
    | scalar sp gap => exact hnot sp gap rfl
    | sequence | mapping => cases hnode
    | stray => exact hfits 0
  · rw [hmoves.node, hvalue]

end Scalars

/-! ## Files in the places of references -/

/-- A text that is the value of a key refers to a file that holds a collection. -/
def Sources.strays (s : Sources) (leaf : Bool × String) : Bool := leaf.1 && (s.contentOf? leaf.2).any Node.isCollection

/-- The files that texts refer to are in block style, and keys do not refer to files. -/
structure Sources.Admits (s : Sources) (leaves : List (Bool × String)) (keys : List String) : Prop where
  files : ∀ leaf ∈ leaves, ∀ d, s.contentOf? leaf.2 = some d → d.inBlocks
  keys : ∀ key ∈ keys, s.contentOf? key = none

/-- What a layout becomes: one that breaks if some text strays, and otherwise one that fits. -/
structure Sources.Becomes (s : Sources) (leaves : List (Bool × String)) (breaks fits : Prop) : Prop where
  breaks : leaves.any s.strays = true → breaks
  fits : leaves.any s.strays = false → fits

section Layouts

variable {s : Sources} {as bs : List (Bool × String)}

theorem Sources.Admits.of_append {ks ls : List String} (h : s.Admits (as ++ bs) (ks ++ ls)) :
    s.Admits as ks ∧ s.Admits bs ls := by
  obtain ⟨has, hbs⟩ := forall_mem_append.1 h.files
  obtain ⟨hks, hls⟩ := forall_mem_append.1 h.keys
  exact ⟨⟨has, hks⟩, ⟨hbs, hls⟩⟩

/-- The marks of the start and the end of a block stay. -/
theorem Sources.Splices.block {t t' : Token} {ts : List Token} {m : Mark} {cs cs' : List Char}
    (ht : inclusionOf? t = none) (ht' : inclusionOf? t' = none) (h : s.Splices ts m cs cs') :
    s.Splices (t :: (ts ++ [t'])) m cs cs' := by
  have hsame : s.stretches (t :: (ts ++ [t'])) = s.stretches ts := by
    rw [Sources.stretches, filterMap_cons_none ht, filterMap_append, filterMap_cons_none ht',
      filterMap_nil, append_nil, Sources.stretches]
  intro before after hbefore
  rw [hsame]
  exact h before after hbefore

theorem Sources.Becomes.imp {p p' q q' : Prop} (h : s.Becomes as p q) (hp : p → p') (hq : q → q') : s.Becomes as p' q' :=
  ⟨fun hstray => hp (h.breaks hstray), fun hstay => hq (h.fits hstay)⟩

/-- What becomes of two parts: one that breaks is the first, or comes after a first that fits. -/
theorem Sources.Becomes.append {p p' q q' : Prop} (h : s.Becomes as p p') (h' : s.Becomes bs q q') :
    s.Becomes (as ++ bs) (p ∨ p' ∧ q) (p' ∧ q') := by
  refine ⟨fun hstray => ?_, fun hstay => ?_⟩
  · rw [any_append, Bool.or_eq_true] at hstray
    cases has : as.any s.strays with
    | true => exact .inl (h.breaks has)
    | false => exact .inr ⟨h.fits has, h'.breaks (hstray.resolve_left (by simp [has]))⟩
  · rw [any_append, Bool.or_eq_false_iff] at hstay
    exact ⟨h.fits hstay.1, h'.fits hstay.2⟩

/-- The parts of an entry are spliced one after the other. -/
theorem splices_entry {key : Spelled} (h : s.contentOf? (String.ofList key.text) = none) (hkey : Tidy key.written)
    {gap : List Char} (hgap : Tidy gap) {value value' : Layout} (hvalue : Tidy value.render)
    {entries entries' : LayoutEntries} {m : Mark}
    (hsplices : s.Splices (value.tokens true ((m.past (key.written ++ [':'])).past gap))
      ((m.past (key.written ++ [':'])).past gap) value.render value'.render)
    (hsplices' : s.Splices (entryTokens (((m.past (key.written ++ [':'])).past gap).past value.render) entries)
      (((m.past (key.written ++ [':'])).past gap).past value.render) (renderEntries entries) (renderEntries entries')) :
    s.Splices (entryTokens m ((key, gap, value) :: entries)) m (renderEntries ((key, gap, value) :: entries))
      (renderEntries ((key, gap, value') :: entries')) := by
  have hcolon : Tidy (key.written ++ [':']) := tidy_append.2 ⟨hkey, by simp [isInLine, isInk]⟩
  have hparts := (splices_nil (m.past (key.written ++ [':'])) gap).append hgap hsplices
  rw [Mark.past_past _ gap] at hsplices'
  have hboth := hparts.append (tidy_append.2 ⟨hgap, hvalue⟩) hsplices'
  have hall := (splices_key h m (key.written ++ [':'])).append hcolon hboth
  simp only [Mark.past_past, nil_append] at hall
  exact hall

/-- A collection starts with an item or an entry. -/
theorem opensBlock {l : Layout} {least i j : Nat} (h : l.Fits least i j) (hnot : ∀ sp gap, l ≠ .scalar sp gap) :
    OpensBlock l.render := by
  cases l with
  | scalar sp gap => exact absurd rfl (hnot sp gap)
  | stray => exact h.elim
  | sequence items =>
    obtain ⟨item, items, rfl⟩ := exists_cons_of_ne_nil h.1
    exact .hyphen _
  | mapping entries =>
    obtain ⟨⟨key, gap, value⟩, entries, rfl⟩ := exists_cons_of_ne_nil h.1
    obtain ⟨hkey, hgap, -⟩ := h.2
    have hsplit : (Layout.mapping ((key, gap, value) :: entries)).render =
        key.written ++ ':' :: (gap ++ (value.render ++ renderEntries entries)) := by
      simp [Layout.render, renderEntries]
    rw [hsplit]
    refine .key hkey fun more => ?_
    rw [append_assoc]
    exact hgap.endsWord _

mutual

/-- A layout with the files that it refers to spliced in. -/
theorem exists_spliced : ∀ (l : Layout) {least i j : Nat} {m : Mark}, l.Fits least i j → m.column = i → least ≤ i →
    s.Admits (l.node.value.leaves false) l.node.value.keyTexts →
      ∃ l' : Layout, s.Splices (l.tokens false m) m l.render l'.render ∧
        s.Becomes (l.node.value.leaves false) (l'.Breaks i)
          (l'.Fits least i j ∧ l'.node.value = l.node.value.replacing s.spliced)
  | .scalar sp gap, least, i, j, m, h, hm, hleast, hadmits => by
    subst hm
    have hblocks := hadmits.files _ mem_cons_self
    -- an item may be anything, so nothing strays
    cases hcollection : (s.contentOf? (String.ofList sp.text)).any Node.isCollection with
    | true =>
      obtain ⟨d, hd, hcollection⟩ := (Option.any_eq_true ..).1 hcollection
      obtain ⟨l, hsplices, hfits, -, hvalue⟩ := exists_spliced_collection h hleast hd (hblocks d hd) hcollection
      refine ⟨l, hsplices, nofun, fun _ => ⟨hfits, ?_⟩⟩
      show _ = (s.spliced (String.ofList sp.text)).getD _
      rw [hvalue, Sources.spliced, hd, Option.map_some, splicedValue_of_isCollection hcollection]
      rfl
    | false =>
      obtain ⟨sp', gap', hsplices, hfits, hvalue⟩ := exists_spliced_scalar h hleast hblocks hcollection
      exact ⟨.scalar sp' gap', hsplices, nofun, fun _ => ⟨hfits _, hvalue⟩⟩
  | .sequence items, least, i, j, m, h, hm, hleast, hadmits => by
    obtain ⟨items', hsplices, hempty, hbecomes⟩ := exists_spliced_items items h.2 (fun _ => hm) hadmits
    exact ⟨.sequence items', hsplices.block rfl rfl, hbecomes.imp id fun hfits =>
      ⟨⟨ne_nil_of_isEmpty_eq hempty h.1, hfits.1⟩, congrArg Value.list hfits.2⟩⟩
  | .mapping entries, least, i, j, m, h, hm, hleast, hadmits => by
    obtain ⟨entries', hsplices, hempty, hbecomes⟩ := exists_spliced_entries entries h.2 (fun _ => hm) hadmits
    exact ⟨.mapping entries', hsplices.block rfl rfl, hbecomes.imp id fun hfits =>
      ⟨⟨ne_nil_of_isEmpty_eq hempty h.1, hfits.1⟩, congrArg Value.map hfits.2⟩⟩
  | .stray _, _, _, _, _, h, _, _, _ => h.elim

theorem exists_spliced_items : ∀ (items : List Layout) {i j : Nat} {m : Mark}, ItemsFit i j items →
    (items ≠ [] → m.column = i) →
    s.Admits (Value.itemLeaves (itemValues (itemNodes items))) (Value.itemKeyTexts (itemValues (itemNodes items))) →
      ∃ items' : List Layout, s.Splices (itemTokens m items) m (renderItems items) (renderItems items') ∧
        items'.isEmpty = items.isEmpty ∧
          s.Becomes (Value.itemLeaves (itemValues (itemNodes items))) (ItemsBreak i items')
            (ItemsFit i j items' ∧
              itemValues (itemNodes items') = Value.replacingItems s.spliced (itemValues (itemNodes items)))
  | [], _, _, _, _, _, _ => ⟨[], fun _ _ _ => rfl, rfl, nofun, fun _ => ⟨trivial, rfl⟩⟩
  | item :: items, i, j, m, ⟨hitem, hitems⟩, hm, hadmits => by
    obtain ⟨hadmitsItem, hadmitsItems⟩ := hadmits.of_append
    have hcolumn : (m.past ['-', ' ']).column = i + 2 := by rw [column_past_hyphen, hm (cons_ne_nil _ _)]
    obtain ⟨item', hsplicesItem, hbecomesItem⟩ := exists_spliced item hitem hcolumn (Nat.le_succ _) hadmitsItem
    obtain ⟨items', hsplicesItems, hempty, hbecomesItems⟩ := exists_spliced_items items
      hitems (m := (m.past ['-', ' ']).past item.render) (fun hne => by
        rw [hitem.column_past, isEmpty_eq_false_iff.2 hne]
        rfl) hadmitsItems
    have hmark : s.Splices [⟨.blockEntry, m, m.past ['-']⟩] m ['-', ' '] ['-', ' '] := fun _ _ _ => rfl
    have htidy : Tidy ['-', ' '] := by simp [isInLine, isInk]
    have hsplices := hmark.append htidy (hsplicesItem.append hitem.tidy hsplicesItems)
    rw [← hempty] at hbecomesItem
    refine ⟨item' :: items', hsplices, rfl, (hbecomesItem.append hbecomesItems).imp ?_ ?_⟩
    · rintro (hbreaks | ⟨⟨hfits, -⟩, hbreaks⟩)
      · exact .inl hbreaks
      · rw [isEmpty_eq_false_iff.2 hbreaks.ne_nil] at hfits
        exact .inr ⟨hfits, hbreaks⟩
    · rintro ⟨⟨hfits, hvalue⟩, hfit, hvalues⟩
      exact ⟨⟨hfits, hfit⟩, congr (congrArg cons hvalue) hvalues⟩

theorem exists_spliced_entries : ∀ (entries : LayoutEntries) {i j : Nat} {m : Mark},
    EntriesFit i j entries → (entries ≠ [] → m.column = i) →
      s.Admits (Value.entryLeaves (entryValues (entryNodes entries)))
        (Value.entryKeyTexts (entryValues (entryNodes entries))) →
        ∃ entries' : LayoutEntries,
          s.Splices (entryTokens m entries) m (renderEntries entries) (renderEntries entries') ∧
            entries'.isEmpty = entries.isEmpty ∧
              s.Becomes (Value.entryLeaves (entryValues (entryNodes entries))) (EntriesBreak i entries')
                (EntriesFit i j entries' ∧
                  entryValues (entryNodes entries') =
                    Value.replacingEntries s.spliced (entryValues (entryNodes entries)))
  | [], _, _, _, _, _, _ => ⟨[], fun _ _ _ => rfl, rfl, nofun, fun _ => ⟨trivial, rfl⟩⟩
  | (key, gap, value) :: entries, i, j, m, ⟨hkey, hgap, hvalue, hentries⟩, hm, hadmits => by
    have hkeyText : s.contentOf? (String.ofList key.text) = none := hadmits.keys _ mem_cons_self
    obtain ⟨hadmitsValue, hadmitsEntries⟩ := Sources.Admits.of_append
      ⟨hadmits.files, fun k hk => hadmits.keys k (mem_cons_of_mem _ hk)⟩
    have hcolumn : i ≤ (m.past (key.written ++ [':'])).column :=
      hm (cons_ne_nil _ _) ▸ le_column_past_key hkey m
    obtain ⟨value', hgap', hsplicesValue, hbecomesValue⟩ := exists_spliced_value value hgap hvalue hcolumn hadmitsValue
    obtain ⟨entries', hsplicesEntries, hempty, hbecomesEntries⟩ := exists_spliced_entries entries
      hentries (m := ((m.past (key.written ++ [':'])).past gap).past value.render) (fun hne => by
        rw [hvalue.column_past, isEmpty_eq_false_iff.2 hne]
        rfl) hadmitsEntries
    have hsplices := splices_entry hkeyText hkey.inLine.tidy hgap.tidy hvalue.tidy hsplicesValue hsplicesEntries
    rw [← hempty] at hbecomesValue
    refine ⟨(key, gap, value') :: entries', hsplices, rfl, (hbecomesValue.append hbecomesEntries).imp ?_ ?_⟩
    · rintro ((hstrays | hbreaks) | ⟨⟨hfits, -⟩, hbreaks⟩)
      · exact ⟨hkey, hgap', .inl hstrays⟩
      · exact ⟨hkey, hgap', .inr (.inl hbreaks)⟩
      · rw [isEmpty_eq_false_iff.2 hbreaks.ne_nil] at hfits
        exact ⟨hkey, hgap', .inr (.inr ⟨hfits, hbreaks⟩)⟩
    · rintro ⟨⟨hfits, hval⟩, hfit, hvalues⟩
      refine ⟨⟨hkey, hgap', hfits, hfit⟩, ?_⟩
      rw [entryNodes, entryNodes, entryValues, entryValues, Value.replacingEntries, hval, hvalues]

/-- A value with the files that it refers to spliced in. -/
theorem exists_spliced_value : ∀ (value : Layout) {i j : Nat} {m : Mark} {gap : List Char}, value.After i gap →
    value.Fits (i + 1) (value.valueColumn i) j → i ≤ m.column →
      s.Admits (value.node.value.leaves true) value.node.value.keyTexts →
        ∃ value' : Layout, value'.After i gap ∧
          s.Splices (value.tokens true (m.past gap)) (m.past gap) value.render value'.render ∧
            s.Becomes (value.node.value.leaves true) (value'.Strays ∨ value'.Breaks (value'.valueColumn i))
              (value'.Fits (i + 1) (value'.valueColumn i) j ∧ value'.node.value = value.node.value.replacing s.spliced)
  | .scalar sp ws, i, j, m, gap, hgap, h, hm, hadmits => by
    obtain rfl : gap = [' '] := hgap
    have hblocks := hadmits.files _ mem_cons_self
    have hleast : i + 1 ≤ (m.past [' ']).column := Nat.succ_le_succ hm
    have hstrays : ((Value.str (String.ofList sp.text)).leaves true).any s.strays =
        (s.contentOf? (String.ofList sp.text)).any Node.isCollection := Bool.or_false _
    cases hcollection : (s.contentOf? (String.ofList sp.text)).any Node.isCollection with
    | true =>
      -- the collection starts on the line of the key
      obtain ⟨d, hd, hcontent⟩ := (Option.any_eq_true ..).1 hcollection
      obtain ⟨l, hsplices, hfits, hnot, -⟩ := exists_spliced_collection h hleast hd (hblocks d hd) hcontent
      refine ⟨.stray l.render, rfl, hsplices, fun _ => .inl (opensBlock hfits hnot), fun hstay => ?_⟩
      cases (hstrays.trans hcollection).symm.trans hstay
    | false =>
      obtain ⟨sp', gap', hsplices, hfits, hvalue⟩ := exists_spliced_scalar h hleast hblocks hcollection
      refine ⟨.scalar sp' gap', rfl, hsplices, fun hstray => ?_, fun _ => ⟨hfits _, hvalue⟩⟩
      cases (hstrays.trans hcollection).symm.trans hstray
  | .sequence items, i, j, m, gap, hgap, h, hm, hadmits => by
    obtain ⟨items', hsplices, hempty, hbecomes⟩ :=
      exists_spliced_items items h.2 (fun _ => EndsLine.column_past hgap m) hadmits
    exact ⟨.sequence items', hgap, hsplices, hbecomes.imp .inr fun hfits =>
      ⟨⟨ne_nil_of_isEmpty_eq hempty h.1, hfits.1⟩, congrArg Value.list hfits.2⟩⟩
  | .mapping entries, i, j, m, gap, hgap, h, hm, hadmits => by
    obtain ⟨entries', hsplices, hempty, hbecomes⟩ :=
      exists_spliced_entries entries h.2 (fun _ => EndsLine.column_past hgap m) hadmits
    exact ⟨.mapping entries', hgap, hsplices.block rfl rfl, hbecomes.imp .inr fun hfits =>
      ⟨⟨ne_nil_of_isEmpty_eq hempty h.1, hfits.1⟩, congrArg Value.map hfits.2⟩⟩
  | .stray _, _, _, _, _, _, h, _, _ => h.elim

end

end Layouts

end ServerlessTaint.Reference
