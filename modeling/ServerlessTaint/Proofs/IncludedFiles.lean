import ServerlessTaint.Proofs.SplicedLayouts
import ServerlessTaint.Proofs.TokenOrder

/-!
# Files included by their meaning

A configuration file with the files it refers to included ought to have its own value, with every
reference replaced by the value of the file. In block style it does just when the file of every
reference holds a scalar that is written in quotes, or a collection in the place of an item
(`includedValue_eq_replacing_iff`). What it has otherwise is said by `includedValue_eq`.
-/

namespace ServerlessTaint.Yaml

/-! ## Keys of documents -/

mutual

theorem simple_of_inBlocks : ∀ {node : Node}, node.inBlocks → node.Simple
  | .scalar .., h => (isLineNode_iff.1 h).1
  | .sequence _ _ _ items, h => by
    obtain ⟨hanchor, -, -, -, hitems⟩ := inBlocks_sequence_iff.1 h
    exact ⟨hanchor, simple_of_itemsInBlocks hitems⟩
  | .mapping _ _ _ entries, h => by
    obtain ⟨hanchor, -, -, -, hentries⟩ := inBlocks_mapping_iff.1 h
    exact ⟨hanchor, simple_of_entriesInBlocks hentries⟩
  | .aliasOf _, h => by cases h

theorem simple_of_itemsInBlocks : ∀ {items : List Node}, itemsInBlocks items → SimpleItems items
  | [], _ => trivial
  | _ :: _, h => by
    obtain ⟨hitem, hitems⟩ := itemsInBlocks_cons_iff.1 h
    exact ⟨simple_of_inBlocks hitem, simple_of_itemsInBlocks hitems⟩

theorem simple_of_entriesInBlocks : ∀ {entries : List (Node × Node)}, entriesInBlocks entries → SimpleEntries entries
  | [], _ => trivial
  | (key, value) :: entries, h => by
    obtain ⟨hkey, hvalue, hnew, hentries⟩ := entriesInBlocks_cons_iff.1 h
    have htext : key.text?.isSome ∧ key.Simple := by
      cases key with
      | scalar => exact ⟨rfl, (isLineNode_iff.1 (Bool.and_eq_true_iff.1 hkey).1).1⟩
      | sequence | mapping | aliasOf => cases hkey
    exact ⟨htext.1, htext.2, simple_of_inBlocks hvalue, hnew, simple_of_entriesInBlocks hentries⟩

end

mutual

theorem Node.Simple.distinctKeys : ∀ {node : Node}, node.Simple → node.value.DistinctKeys
  | .scalar .., _ => trivial
  | .sequence .., h => SimpleItems.distinctKeys h.2
  | .mapping .., h => SimpleEntries.distinctKeys h.2
  | .aliasOf _, h => h.elim

theorem SimpleItems.distinctKeys : ∀ {items : List Node}, SimpleItems items → Value.DistinctKeysItems (itemValues items)
  | [], _ => trivial
  | _ :: _, h => ⟨h.1.distinctKeys, SimpleItems.distinctKeys h.2⟩

theorem SimpleEntries.distinctKeys : ∀ {entries : List (Node × Node)}, SimpleEntries entries →
    Value.DistinctKeysEntries (entryValues entries)
  | [], _ => trivial
  | (_, _) :: _, ⟨_, _, hvalue, hnew, hentries⟩ => ⟨hvalue.distinctKeys, hnew, SimpleEntries.distinctKeys hentries⟩

end

mutual

/-- The document of a layout is simple if the keys in its value are distinct. -/
theorem Layout.simple_node : ∀ {l : Layout}, l.node.value.DistinctKeys → l.node.Simple
  | .scalar .., _ => rfl
  | .sequence _, h => ⟨rfl, simpleItems_itemNodes h⟩
  | .mapping _, h => ⟨rfl, simpleEntries_entryNodes h⟩
  | .stray _, _ => rfl

theorem simpleItems_itemNodes : ∀ {items : List Layout}, Value.DistinctKeysItems (itemValues (itemNodes items)) →
    SimpleItems (itemNodes items)
  | [], _ => trivial
  | _ :: _, h => ⟨Layout.simple_node h.1, simpleItems_itemNodes h.2⟩

theorem simpleEntries_entryNodes : ∀ {entries : LayoutEntries},
    Value.DistinctKeysEntries (entryValues (entryNodes entries)) → SimpleEntries (entryNodes entries)
  | [], _ => trivial
  | (_, _, _) :: _, h => ⟨rfl, rfl, Layout.simple_node h.1, h.2.1, simpleEntries_entryNodes h.2.2⟩

end

end ServerlessTaint.Yaml

namespace ServerlessTaint.Reference

open Yaml

/-! ## The value with files included -/

variable {d root : Node} {s : Sources} {leaf : Bool × String}

theorem distinctKeys_splicedValue (h : d.inBlocks) : (splicedValue d).DistinctKeys := by
  cases d with
  | scalar => trivial
  | sequence | mapping | aliasOf => exact (simple_of_inBlocks h).distinctKeys

/-- A layout that fits is loaded as its value. -/
theorem load_render {l : Layout} {least : Nat} (h : l.Fits least 0 0) (hcollection : ∀ s gap, l ≠ .scalar s gap)
    (hkeys : l.node.value.DistinctKeys) : load (String.ofList l.render) = .ok l.node.value := by
  rw [load, compose_render h hcollection]
  exact load_eq (Layout.simple_node hkeys)

/-- A collection with texts in it replaced is not a scalar. -/
theorem ne_scalar_of_replacing (hcollection : root.isCollection) {l : Layout} {f : String → Option Value}
    (h : l.node.value = root.value.replacing f) (sp : Spelled) (gap : List Char) : l ≠ .scalar sp gap := by
  rintro rfl
  cases root with
  | scalar | aliasOf => cases hcollection
  | sequence | mapping => cases h

/-- The text of a file in block style with the files it refers to spliced in. -/
theorem exists_layout_includeFiles (hroot : composeFile s.tree s.file = .ok (some root)) (hblocks : root.inBlocks)
    (hcollection : root.isCollection) (hadmits : s.Admits (root.value.leaves false) root.value.keyTexts) :
    ∃ l : Layout, s.includeFiles = .ok (String.ofList l.render) ∧
      s.Becomes (root.value.leaves false) (l.Breaks 0)
        (l.Fits 0 0 0 ∧ l.node.value = root.value.replacing s.spliced) := by
  obtain ⟨l, hfits, hnot, hvalue, hwrite⟩ := exists_layout_write hblocks hcollection
  obtain ⟨m, hm⟩ : ∃ m : Mark, m = ⟨0, 0, 0⟩ := ⟨_, rfl⟩
  have hlex : lex root.write = .ok (l.tokens false m ++ [⟨.streamEnd, m.past l.render, m.past l.render⟩]) := by
    rw [← lex_render (hfits 0) hnot hm, ← hwrite, String.ofList_toList]
  rw [← hvalue] at hadmits ⊢
  have hcolumn : m.column = 0 := by rw [hm]
  have hindex : ([] : List Char).length = m.index := by rw [hm]; rfl
  obtain ⟨l', hsplices, hbecomes⟩ := exists_spliced l (hfits 0) hcolumn (Nat.le_refl 0) hadmits
  refine ⟨l', ?_, hbecomes⟩
  have hend : s.stretches [⟨.streamEnd, m.past l.render, m.past l.render⟩] = [] := rfl
  have htext := hsplices [] [] hindex
  simp only [List.nil_append, List.append_nil] at htext
  rw [includeFiles_eq hroot hlex, stretches_append, hend, List.append_nil, hwrite, htext]

/-- The value of a file in block style with the files it refers to included. -/
theorem includedValue_eq (hroot : composeFile s.tree s.file = .ok (some root)) (hblocks : root.inBlocks)
    (hcollection : root.isCollection) (hadmits : s.Admits (root.value.leaves false) root.value.keyTexts) :
    s.includedValue =
      if (root.value.leaves false).any s.strays then .error (.malformedDocument .malformed)
      else .ok (root.value.replacing s.spliced) := by
  obtain ⟨l, htext, hbecomes⟩ := exists_layout_includeFiles hroot hblocks hcollection hadmits
  rw [Sources.includedValue, htext, ok_bind]
  cases hstrays : (root.value.leaves false).any s.strays with
  | true =>
    rw [load, compose_of_breaks (hbecomes.breaks hstrays)]
    rfl
  | false =>
    obtain ⟨hfits, hvalue⟩ := hbecomes.fits hstrays
    have hkeys : (root.value.replacing s.spliced).DistinctKeys := by
      have hspliced : ∀ leaf ∈ root.value.leaves false, ∀ w, s.spliced leaf.2 = some w → w.DistinctKeys := by
        intro leaf hleaf w hw
        obtain ⟨d, hd, rfl⟩ := Option.map_eq_some_iff.1 hw
        exact distinctKeys_splicedValue (hadmits.files leaf hleaf d hd)
      exact (simple_of_inBlocks hblocks).distinctKeys.replacing hspliced
    rw [load_render hfits (ne_scalar_of_replacing hcollection hvalue) (by rw [hvalue]; exact hkeys), hvalue]
    rfl

/-! ## Inclusion by meaning -/

/-- The value of the file that the first reference in a text leads to. -/
def Sources.loaded (s : Sources) (text : String) : Option Value := (s.contentOf? text).bind fun d => d.load.toOption

/-- A document keeps its value in the place of a text: it is a scalar that is written in quotes, or a
collection in the place of an item. -/
def keepsValue (inEntry : Bool) : Node → Bool
  | .scalar _ _ style text => writtenStyle style text != .plain
  | _ => !inEntry

theorem splicedValue_eq_iff (h : d.inBlocks) {inEntry : Bool} (hstrays : (inEntry && d.isCollection) = false) :
    splicedValue d = d.value ↔ keepsValue inEntry d := by
  cases d with
  | aliasOf => cases h
  | sequence | mapping =>
    have hitem : inEntry = false := by simpa [Node.isCollection] using hstrays
    simp [splicedValue, keepsValue, hitem]
  | scalar anchor tag style text =>
    cases hplain : writtenStyle style text == .plain with
    | false => simp [splicedValue, keepsValue, Node.value, hplain, bne]
    | true =>
      have hlonger : text ++ " ..." ≠ text := by
        intro heq
        have := congrArg String.length heq
        exact absurd this (by simp)
      simp [splicedValue, keepsValue, Node.value, hplain, bne, hlonger]

/-- What is put in the place of a text is the value of the file just when the file keeps it there. -/
theorem spliced_eq_loaded_iff (hfile : ∀ d, s.contentOf? leaf.2 = some d → d.inBlocks)
    (hstrays : s.strays leaf = false) :
    (s.spliced leaf.2).getD (.str leaf.2) = (s.loaded leaf.2).getD (.str leaf.2) ↔
      ∀ d, s.contentOf? leaf.2 = some d → keepsValue leaf.1 d := by
  cases hcontent : s.contentOf? leaf.2 with
  | none => simp [Sources.spliced, Sources.loaded, hcontent]
  | some d =>
    have hblocks := hfile d hcontent
    have hload : d.load.toOption = some d.value := by
      rw [load_eq (simple_of_inBlocks hblocks)]
      rfl
    have hstays : (leaf.1 && d.isCollection) = false := by simpa [Sources.strays, hcontent] using hstrays
    have hkeeps := splicedValue_eq_iff hblocks hstays
    simpa [Sources.spliced, Sources.loaded, hcontent, hload] using hkeeps

/-- A collection does not keep its value in the place of a value. -/
theorem exists_not_keepsValue (h : s.strays leaf) :
    ∃ d, s.contentOf? leaf.2 = some d ∧ keepsValue leaf.1 d = false := by
  obtain ⟨hentry, hany⟩ := Bool.and_eq_true_iff.1 h
  obtain ⟨d, hd, hcollection⟩ := (Option.any_eq_true _ _).1 hany
  refine ⟨d, hd, ?_⟩
  rw [hentry]
  cases d with
  | scalar => cases hcollection
  | sequence | mapping | aliasOf => rfl

/-- Files are included by their meaning just when each keeps its value in its place. -/
theorem includedValue_eq_replacing_iff {s : Sources} {root : Node}
    (hroot : composeFile s.tree s.file = .ok (some root)) (hblocks : root.inBlocks) (hcollection : root.isCollection)
    {v : Value} (hload : root.load = .ok v) (hadmits : s.Admits (v.leaves false) v.keyTexts) :
    s.includedValue = .ok (v.replacing s.loaded) ↔
      ∀ leaf ∈ v.leaves false, ∀ d, s.contentOf? leaf.2 = some d → keepsValue leaf.1 d := by
  obtain rfl : root.value = v := Except.ok.inj ((load_eq (simple_of_inBlocks hblocks)).symm.trans hload)
  rw [includedValue_eq hroot hblocks hcollection hadmits]
  cases hstrays : (root.value.leaves false).any s.strays with
  | true =>
    obtain ⟨leaf, hleaf, hstray⟩ := List.any_eq_true.1 hstrays
    obtain ⟨d, hd, hlost⟩ := exists_not_keepsValue hstray
    refine ⟨nofun, fun hkeeps => ?_⟩
    cases hlost.symm.trans (hkeeps leaf hleaf d hd)
  | false =>
    rw [if_neg Bool.false_ne_true, Except.ok.injEq, Value.replacing_eq_replacing_iff _ false]
    refine forall_congr' fun leaf => forall_congr' fun hleaf => ?_
    refine spliced_eq_loaded_iff (hadmits.files leaf hleaf) ?_
    simpa using List.any_eq_false.1 hstrays leaf hleaf

/-- A configuration file beside a file with a mapping and one with a quoted text. -/
def includingSources (text : String) : Sources :=
  .ofFile (((FileTree.empty.putFile ["s.yml"] text).putFile ["p.yml"] "x: y\n").putFile ["q.yml"] "'z'\n") "s.yml"

def itemsText : String := "- $\x7bfile(p.yml)\x7d\n- a: $\x7bfile(q.yml)\x7d\n"

/-- A mapping that is a value. -/
def entryText : String := "a: $\x7bfile(p.yml)\x7d\n"

def itemsRoot : Node :=
  .sequence none sequenceTag false
    [.scalar none textTag .plain "$\x7bfile(p.yml)\x7d",
      .mapping none mappingTag false
        [(.scalar none textTag .plain "a", .scalar none textTag .plain "$\x7bfile(q.yml)\x7d")]]

def entryRoot : Node :=
  .mapping none mappingTag false
    [(.scalar none textTag .plain "a", .scalar none textTag .plain "$\x7bfile(p.yml)\x7d")]

theorem admits_of_all {leaves : List (Bool × String)} {keys : List String}
    (h : ∀ leaf ∈ leaves, (s.contentOf? leaf.2).all Node.inBlocks) (hkeys : ∀ key ∈ keys, (s.contentOf? key).isNone) :
    s.Admits leaves keys where
  files leaf hleaf d hd := by simpa [hd] using h leaf hleaf
  keys key hkey := Option.isNone_iff_eq_none.1 (hkeys key hkey)

theorem mapping_included_as_item_only :
    (includingSources itemsText).includedValue =
      .ok (.list [.map [("x", .str "y")], .map [("a", .str "z")]]) ∧
    (includingSources entryText).includedValue ≠ .ok (.map [("a", .map [("x", .str "y")])]) := by
  constructor
  · have hroot : composeFile (includingSources itemsText).tree (includingSources itemsText).file =
        .ok (some itemsRoot) := eq_ok_of_toOption (by decide +kernel)
    have hvalue : itemsRoot.value.replacing (includingSources itemsText).loaded =
        .list [.map [("x", .str "y")], .map [("a", .str "z")]] := by decide +kernel
    have hkeeps : ∀ leaf ∈ itemsRoot.value.leaves false,
        ((includingSources itemsText).contentOf? leaf.2).all (keepsValue leaf.1) := by decide +kernel
    rw [← hvalue]
    refine (includedValue_eq_replacing_iff hroot (by decide +kernel) rfl (eq_ok_of_toOption (by decide +kernel))
      (admits_of_all (by decide +kernel) (by decide +kernel))).2 fun leaf hleaf d hd => ?_
    simpa [hd] using hkeeps leaf hleaf
  · have hroot : composeFile (includingSources entryText).tree (includingSources entryText).file =
        .ok (some entryRoot) := eq_ok_of_toOption (by decide +kernel)
    have hvalue : entryRoot.value.replacing (includingSources entryText).loaded =
        .map [("a", .map [("x", .str "y")])] := by decide +kernel
    have hlost : ((includingSources entryText).contentOf? "$\x7bfile(p.yml)\x7d").any fun d => !keepsValue true d := by
      decide +kernel
    obtain ⟨d, hd, hlost⟩ := (Option.any_eq_true _ _).1 hlost
    rw [← hvalue]
    intro hincluded
    have hkeeps := (includedValue_eq_replacing_iff hroot (by decide +kernel) rfl (eq_ok_of_toOption (by decide +kernel))
      (admits_of_all (by decide +kernel) (by decide +kernel))).1 hincluded
    have hkept := hkeeps (true, "$\x7bfile(p.yml)\x7d") List.mem_cons_self d hd
    rw [hkept] at hlost
    cases hlost

/-! ## Splices at once

Stretches of a text are replaced one after the other, the last first, while all places are those of the
text before. What comes out can be said place by place: a replacement stands where its stretch starts,
and a character stays unless it is inside a stretch that has a replacement (`replacedAtOnce`). Of
stretches in order and apart both are the same, and the references to files in a text are such
stretches (`included_at_once`).
-/

open List
open Yaml

/-! ## Replacing at once -/

def putAt (stretches : List (Nat × Nat × Option (List Char))) (i : Nat) : List Char :=
  stretches.flatMap fun x => if x.1 = i then x.2.2.getD [] else []

/-- The place is inside a stretch that has a replacement. -/
def isReplaced (stretches : List (Nat × Nat × Option (List Char))) (i : Nat) : Bool :=
  stretches.any fun x => x.2.2.isSome && decide (x.1 ≤ i) && decide (i < x.2.1)

def becomes (text : List Char) (stretches : List (Nat × Nat × Option (List Char))) (i : Nat) : List Char :=
  putAt stretches i ++ if isReplaced stretches i then [] else text[i]?.toList

/-- A text with stretches replaced all at once. The last place is the end of the text. -/
def replacedAtOnce (text : List Char) (stretches : List (Nat × Nat × Option (List Char))) : List Char :=
  (List.range (text.length + 1)).flatMap (becomes text stretches)

/-- Stretches stand in order and apart within a length. -/
structure InOrder (length : Nat) (stretches : List (Nat × Nat × Option (List Char))) : Prop where
  within : ∀ x ∈ stretches, x.1 ≤ x.2.1 ∧ x.2.1 ≤ length
  apart : stretches.Pairwise fun x y => x.2.1 ≤ y.1

section Places

variable {text : List Char} {stretches : List (Nat × Nat × Option (List Char))} {start stop : Nat}

theorem putAt_cons (x : Nat × Nat × Option (List Char)) (i : Nat) :
    putAt (x :: stretches) i = (if x.1 = i then x.2.2.getD [] else []) ++ putAt stretches i := flatMap_cons

theorem isReplaced_cons (x : Nat × Nat × Option (List Char)) (i : Nat) :
    isReplaced (x :: stretches) i =
      (x.2.2.isSome && decide (x.1 ≤ i) && decide (i < x.2.1) || isReplaced stretches i) := any_cons

variable {i n : Nat} {r : List Char}

theorem putAt_of_lt (h : ∀ x ∈ stretches, i < x.1) : putAt stretches i = [] :=
  flatMap_eq_nil_iff.2 fun x hx => if_neg (Nat.ne_of_gt (h x hx))

theorem becomes_of_lt (h : ∀ x ∈ stretches, i < x.1) : becomes text stretches i = text[i]?.toList := by
  have hstays : isReplaced stretches i = false :=
    any_eq_false.2 fun x hx => by simp [Nat.not_le.2 (h x hx)]
  simp [becomes, putAt_of_lt h, hstays]

theorem becomes_cons_none (i : Nat) :
    becomes text ((start, stop, none) :: stretches) i = becomes text stretches i := by
  simp [becomes, putAt_cons, isReplaced_cons]

/-- From its start on, the first stretch puts its replacement and takes away what it covers. -/
theorem becomes_cons_some (hi : start ≤ i) (h : ∀ x ∈ stretches, stop ≤ x.1) :
    becomes text ((start, stop, some r) :: stretches) i =
      (if start = i then r else []) ++ if i < stop then [] else becomes text stretches i := by
  by_cases hstop : i < stop
  · have hput := putAt_of_lt fun x hx => Nat.lt_of_lt_of_le hstop (h x hx)
    simp [becomes, putAt_cons, isReplaced_cons, hput, hi, hstop]
  · simp [becomes, putAt_cons, isReplaced_cons, hstop]

theorem range'_eq_append {a b c : Nat} (hab : a ≤ b) (hbc : b ≤ c) :
    range' a (c - a) = range' a (b - a) ++ range' b (c - b) := by
  have happend := range'_append_1 (s := a) (m := b - a) (n := c - b)
  rw [Nat.add_sub_of_le hab] at happend
  rw [happend]
  congr 1
  omega

theorem flatMap_range_getElem? (text : List Char) (n : Nat) :
    (range n).flatMap (fun i => text[i]?.toList) = text.take n := by
  induction n with
  | zero => rfl
  | succ n ih => rw [range_succ, flatMap_append, ih, flatMap_singleton, take_add_one]

/-- A text stays as it is before the first stretch. -/
theorem replacedAtOnce_eq_append (hn : n ≤ text.length) (h : ∀ x ∈ stretches, n ≤ x.1) :
    replacedAtOnce text stretches =
      text.take n ++ (range' n (text.length + 1 - n)).flatMap (becomes text stretches) := by
  have hsplit : range (text.length + 1) = range n ++ range' n (text.length + 1 - n) := by
    rw [range_eq_range', range_eq_range']
    exact range'_eq_append (Nat.zero_le n) (Nat.le_succ_of_le hn)
  rw [replacedAtOnce, hsplit, flatMap_append, ← flatMap_range_getElem?]
  congr 1
  refine flatMap_congr fun i hi => becomes_of_lt fun x hx => ?_
  exact Nat.lt_of_lt_of_le (mem_range.1 hi) (h x hx)

/-- The places from the start of a first stretch on become its replacement and the places after it. -/
theorem flatMap_becomes_cons (hle : start ≤ stop) (hstop : stop ≤ n) (h : ∀ x ∈ stretches, stop ≤ x.1) :
    (range' start (n + 1 - start)).flatMap (becomes text ((start, stop, some r) :: stretches)) =
      r ++ (range' stop (n + 1 - stop)).flatMap (becomes text stretches) := by
  -- Past the replacement, a place becomes nothing up to the end of the stretch, and what it did after.
  let rest (i : Nat) : List Char := if i < stop then [] else becomes text stretches i
  have hinside : (range' start (stop - start)).flatMap rest = [] := by
    refine flatMap_eq_nil_iff.2 fun i hi => if_pos ?_
    have := (mem_range'_1.1 hi).2
    omega
  have hafter : (range' stop (n + 1 - stop)).flatMap rest =
      (range' stop (n + 1 - stop)).flatMap (becomes text stretches) :=
    flatMap_congr fun i hi => if_neg (Nat.not_lt.2 (mem_range'_1.1 hi).1)
  have hrest : (range' start (n + 1 - start)).flatMap rest =
      (range' stop (n + 1 - stop)).flatMap (becomes text stretches) := by
    rw [range'_eq_append hle (Nat.le_succ_of_le hstop), flatMap_append, hinside, hafter, nil_append]
  have hsucc : n + 1 - start = n - start + 1 := by omega
  rw [← hrest, hsucc, range'_succ, flatMap_cons, flatMap_cons,
    becomes_cons_some (Nat.le_refl _) h, if_pos rfl, append_assoc]
  congr 2
  refine flatMap_congr fun i hi => ?_
  have hi := (mem_range'_1.1 hi).1
  rw [becomes_cons_some (Nat.le_of_succ_le hi) h, if_neg (Nat.ne_of_lt hi), nil_append]

end Places

/-- Replacing from the last to the first is replacing at once. -/
theorem spliceAll_eq_replacedAtOnce {text : List Char} {stretches : List (Nat × Nat × Option (List Char))}
    (h : InOrder text.length stretches) : spliceAll text stretches = replacedAtOnce text stretches := by
  induction stretches with
  | nil =>
    have hnone : ∀ x ∈ ([] : List (Nat × Nat × Option (List Char))), text.length ≤ x.1 := by simp
    rw [replacedAtOnce_eq_append (Nat.le_refl _) hnone, take_length, Nat.add_sub_cancel_left]
    simp [spliceAll, becomes, putAt, isReplaced]
  | cons x stretches ih =>
    obtain ⟨start, stop, replacement⟩ := x
    obtain ⟨⟨(hle : start ≤ stop), (hstop : stop ≤ text.length)⟩, hwithin⟩ := forall_mem_cons.1 h.within
    obtain ⟨hlater, hapart⟩ := pairwise_cons.1 h.apart
    have hrest := ih ⟨hwithin, hapart⟩
    cases replacement with
    | none =>
      calc spliceAll text ((start, stop, none) :: stretches)
        _ = replacedAtOnce text stretches := hrest
        _ = replacedAtOnce text ((start, stop, none) :: stretches) :=
          (flatMap_congr fun i _ => becomes_cons_none i).symm
    | some r =>
      have hbefore : (text.take stop).length = stop := length_take_of_le hstop
      calc spliceAll text ((start, stop, some r) :: stretches)
        _ = splice (replacedAtOnce text stretches) start stop r := by rw [← hrest]; rfl
        _ = text.take start ++ (r ++ (range' stop (text.length + 1 - stop)).flatMap (becomes text stretches)) := by
          rw [splice, replacedAtOnce_eq_append hstop hlater, take_append_of_le_length (by omega),
            take_take, Nat.min_eq_left hle, append_assoc]
          congr 2
          exact drop_left' hbefore
        _ = replacedAtOnce text ((start, stop, some r) :: stretches) := by
          rw [replacedAtOnce_eq_append (Nat.le_trans hle hstop), flatMap_becomes_cons hle hstop hlater]
          exact forall_mem_cons.2 ⟨Nat.le_refl _, fun x hx => Nat.le_trans hle (hlater x hx)⟩

/-! ## References to files -/

theorem isScalar_of_inclusionOf? {t : Token} {i : Inclusion} (h : inclusionOf? t = some i) :
    t.kind.isScalar ∧ i.start = t.start ∧ i.stop = t.stop := by
  unfold inclusionOf? at h
  split at h
  · rename_i hkind
    obtain ⟨path, -, rfl⟩ := Option.map_eq_some_iff.1 h
    exact ⟨by rw [hkind]; rfl, rfl, rfl⟩
  · cases h

theorem inOrder_stretches (s : Sources) {text : String} {ts : List Token} (h : lex text = .ok ts) :
    InOrder text.toList.length (s.stretches ts) := by
  obtain ⟨hwithin, hapart⟩ := scalars_of_lex h
  constructor
  · intro x hx
    obtain ⟨i, hi, rfl⟩ := mem_map.1 hx
    obtain ⟨t, ht, hti⟩ := mem_filterMap.1 hi
    obtain ⟨hscalar, hstart, hstop⟩ := isScalar_of_inclusionOf? hti
    rw [hstart, hstop]
    exact hwithin t (mem_filter.2 ⟨ht, hscalar⟩)
  · rw [Sources.stretches, pairwise_map, pairwise_filterMap]
    refine (pairwise_filter.1 hapart).imp fun htu i hi j hj => ?_
    obtain ⟨hscalar, -, hstop⟩ := isScalar_of_inclusionOf? hi
    obtain ⟨hscalar', hstart, -⟩ := isScalar_of_inclusionOf? hj
    rw [hstop, hstart]
    exact htu hscalar hscalar'

theorem includeFiles_eq_replacedAtOnce (s : Sources) :
    s.includeFiles = (do
      let text ← normalized s.tree s.file
      let ts ← ofYaml (lex text)
      return String.ofList (replacedAtOnce text.toList (s.stretches ts))) := by
  rw [Sources.includeFiles]
  cases normalized s.tree s.file with
  | error fault => rfl
  | ok text =>
    rw [ok_bind, ok_bind, inclusions]
    cases hlex : lex text with
    | error fault => rfl
    | ok ts =>
      show Except.ok (String.ofList (spliceAll text.toList (s.stretches ts))) =
        .ok (String.ofList (replacedAtOnce text.toList (s.stretches ts)))
      rw [spliceAll_eq_replacedAtOnce (inOrder_stretches s hlex)]

/-- Stretches in order and apart are replaced as if at once, and so are the references to files in a
configuration file: its value is that of its text with what each file that can be read holds in the
place of the reference to it, and with all else as it was. -/
theorem included_at_once :
    (∀ (text : List Char) (stretches : List (Nat × Nat × Option (List Char))), InOrder text.length stretches →
      spliceAll text stretches = replacedAtOnce text stretches) ∧
    ∀ s : Sources, s.includedValue = (do
      let text ← normalized s.tree s.file
      let ts ← ofYaml (lex text)
      ofYaml (load (String.ofList (replacedAtOnce text.toList (s.stretches ts))))) := by
  refine ⟨fun _ _ h => spliceAll_eq_replacedAtOnce h, fun s => ?_⟩
  rw [Sources.includedValue, includeFiles_eq_replacedAtOnce]
  simp only [bind_assoc, pure_bind]

/-- References to a file that can be read, to one that cannot, and to another that can. -/
def interruptedText : String := "- $\x7bfile(p.yml)\x7d\n- $\x7bfile(r.yml)\x7d\n- $\x7bfile(q.yml)\x7d\n"

/-- A stretch with a longer text, one without a replacement, and one that goes. -/
def threeStretches : List (Nat × Nat × Option (List Char)) :=
  [(3, 5, some ['x', 'y', 'z']), (6, 8, none), (9, 11, some [])]

theorem unread_file_between_included :
    (InOrder "k: AA BB CC\n".toList.length threeStretches ∧
      spliceAll "k: AA BB CC\n".toList threeStretches = replacedAtOnce "k: AA BB CC\n".toList threeStretches ∧
      replacedAtOnce "k: AA BB CC\n".toList threeStretches = "k: xyz BB \n".toList) ∧
    (includingSources interruptedText).includedValue =
      .ok (.list [.map [("x", .str "y")], .str "$\x7bfile(r.yml)\x7d", .str "z"]) := by
  have hinOrder : InOrder "k: AA BB CC\n".toList.length threeStretches := ⟨by decide, by decide⟩
  refine ⟨⟨hinOrder, included_at_once.1 _ _ hinOrder, by decide⟩, ?_⟩
  rw [included_at_once.2]
  exact eq_ok_of_toOption (by decide +kernel)

end ServerlessTaint.Reference
