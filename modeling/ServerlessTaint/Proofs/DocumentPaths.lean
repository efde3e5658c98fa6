import ServerlessTaint.Proofs.DocumentOrder
import ServerlessTaint.Proofs.Keyed

/-!
# Paths in documents

A path of keys leads to an address of a document; where a key is repeated, its last entry counts. What
the value of the document holds at a path is the text at that address (`text?_getAll`). A change of a
scalar that is no key moves no address (`addressOf?_setText`). All texts of the value, keys included, are
texts of the document (`exists_textOf?_of_mem_textsIn`).
-/

namespace ServerlessTaint.Reference

open List Yaml
open Yaml (Node part?)

def keyTexts (entries : List (Node × Node)) : List (Option String) := entries.map (·.1.text?)

def lastKey? (key : String) : List (Option String) → Option Nat
  | [] => none
  | k :: ks =>
    match lastKey? key ks with
    | some n => some (n + 1)
    | none => if k = some key then some 0 else none

def addressOf? : List String → Node → Option Address
  | [], _ => some []
  | key :: keys, .mapping _ _ _ entries =>
    match lastKey? key (keyTexts entries) with
    | some n =>
      match part? (2 * n + 1) entries with
      | some value => (addressOf? keys value).map ((2 * n + 1) :: ·)
      | none => none
    | none => none
  | _ :: _, _ => none

def isMapping : Node → Bool
  | .mapping .. => true
  | _ => false

def isKey : Address → Node → Bool
  | [], _ => false
  | i :: rest, node => (rest.isEmpty && isMapping node && i % 2 == 0) || (node.child? i).any (isKey rest)

theorem textOf?_nil (node : Node) : textOf? [] node = node.text? := by
  cases node <;> simp [textOf?, Node.text?]

/-! ## Looking up -/

variable {node : Node} {text key : String} {a : Address} {known known' : List (String × Value)}

/-- What the entries of a mapping give a key: the value of its last entry, or else what it had before. -/
theorem find?_buildEntries {entries : List (Node × Node)} {before values : List (String × Value)}
    (hplain : PlainEntries entries) (hbuild : buildEntries before known entries = .ok (values, known'))
    (key : String) : match lastKey? key (keyTexts entries) with
    | some n => ∃ value v start last, part? (2 * n + 1) entries = some value ∧
        value.build start = .ok (v, last) ∧ Keyed.find? key values = some v
    | none => Keyed.find? key values = Keyed.find? key before := by
  induction entries generalizing before known with
  | nil => cases hbuild; rfl
  | cons e entries ih =>
    obtain ⟨k, mid, v, last, hkey, hvalue, hrest⟩ := buildEntries_cons.1 hbuild
    obtain ⟨hkeyText, -, hentries⟩ := hplain
    have htext : e.1.text? = some k := by
      obtain ⟨anchor, tag, style, text, heq⟩ := eq_scalar_of_text? hkeyText
      rw [heq] at hkey ⊢
      cases hkey
      rfl
    have hnext := ih hentries hrest
    rw [keyTexts, map_cons, lastKey?]
    rw [keyTexts] at hnext
    cases hlast : lastKey? key (entries.map (·.1.text?)) with
    | some n =>
      rw [hlast] at hnext
      obtain ⟨value, w, start, stop, hpart, hbuilt, hfind⟩ := hnext
      exact ⟨value, w, start, stop, by rw [show 2 * (n + 1) + 1 = 2 * n + 1 + 2 by omega]; simpa using hpart,
        hbuilt, hfind⟩
    | none =>
      rw [hlast] at hnext
      simp only [Keyed.find?_set] at hnext
      simp only [htext, Option.some.injEq]
      by_cases hk : k = key
      · simp only [hk, if_true] at hnext ⊢
        exact ⟨e.2, v, mid, last, rfl, hvalue, hnext⟩
      · simpa [hk] using hnext

/-- The text that the value of a plain document holds at a path stands at the address to which the path
leads. -/
theorem text?_getAll {v : Value} (hplain : node.Plain) (hbuild : node.build known = .ok (v, known'))
    (keys : List String) :
    (v.getAll keys).toOption.bind Value.text? = (addressOf? keys node).bind (textOf? · node) := by
  induction keys generalizing node known known' v with
  | nil =>
    have htext : v.text? = node.text? := by
      cases node with
      | scalar => cases hbuild; rfl
      | aliasOf => exact hplain.elim
      | sequence | mapping =>
        obtain ⟨_, -, h⟩ := bind_eq_ok_iff.1 hbuild
        cases h
        rfl
    exact htext.trans (textOf?_nil node).symm
  | cons key keys ih =>
    have hstep : v.getAll (key :: keys) = v.get key >>= Value.getAll keys := rfl
    rw [hstep]
    cases node with
    | scalar => cases hbuild; rfl
    | aliasOf => exact hplain.elim
    | sequence =>
      obtain ⟨_, -, h⟩ := bind_eq_ok_iff.1 hbuild
      cases h
      rfl
    | mapping _ _ _ entries =>
      obtain ⟨⟨values, last⟩, hentries, h⟩ := bind_eq_ok_iff.1 hbuild
      cases h
      have hfind := find?_buildEntries hplain hentries key
      rw [addressOf?, Value.get]
      cases hlast : lastKey? key (keyTexts entries) with
      | none =>
        rw [hlast] at hfind
        rw [hfind]
        rfl
      | some n =>
        rw [hlast] at hfind
        obtain ⟨value, w, start, stop, hpart, hbuilt, hfind⟩ := hfind
        rw [hfind, ok_bind, ih (PlainEntries.part hplain hpart) hbuilt]
        simp only [hpart]
        cases addressOf? keys value with
        | none => rfl
        | some rest => simp [textOf?_cons, Node.child?, hpart]

/-! ## Changes -/

theorem text?_setText_cons (text : String) (i : Nat) (rest : Address) (node : Node) :
    (setText text (i :: rest) node).text? = node.text? := by
  cases node <;> rfl

theorem keyTexts_setEntry (text : String) {rest : Address} {i : Nat} (h : rest = [] → i % 2 ≠ 0)
    (entries : List (Node × Node)) : keyTexts (setEntry text rest i entries) = keyTexts entries := by
  induction entries generalizing i with
  | nil => rfl
  | cons e entries ih =>
    match i with
    | 0 =>
      cases rest with
      | nil => exact absurd rfl (h rfl)
      | cons j rest => simp [setEntry, keyTexts, text?_setText_cons]
    | 1 => rfl
    | i + 2 =>
      have hrest := ih (i := i) fun hnil => by have := h hnil; omega
      simp only [keyTexts] at hrest ⊢
      simp [setEntry, hrest]

theorem addressOf?_setText (h : isKey a node = false) (keys : List String) :
    addressOf? keys (setText text a node) = addressOf? keys node := by
  induction keys generalizing a node with
  | nil => rfl
  | cons key keys ih =>
    cases a with
    | nil => cases node <;> rfl
    | cons i rest =>
      cases node with
      | mapping anchor tag flow entries =>
        simp only [isKey, isMapping, Bool.or_eq_false_iff] at h
        obtain ⟨hlast, hinner⟩ := h
        have hkeys : keyTexts (setEntry text rest i entries) = keyTexts entries :=
          keyTexts_setEntry text (by rintro rfl; simpa using hlast) entries
        rw [setText, addressOf?, addressOf?, hkeys]
        cases lastKey? key (keyTexts entries) with
        | none => rfl
        | some n =>
          simp only [part?_setEntry]
          by_cases hi : i = 2 * n + 1
          · subst hi
            cases hpart : part? (2 * n + 1) entries with
            | none => simp
            | some value =>
              have hvalue : isKey rest value = false := by simpa [Node.child?, hpart] using hinner
              simp [ih hvalue]
          · simp [hi]
      | _ => rfl

/-! ## The keys on a path -/

theorem getElem?_outlineItems (i : Nat) (items : List Node) :
    (outlineItems items)[i]? = (items[i]?).map Node.outline := by
  induction items generalizing i with
  | nil => rfl
  | cons item items ih => cases i <;> simp [outlineItems, ih]

theorem part?_outlineEntries (i : Nat) (entries : List (Node × Node)) :
    part? i (outlineEntries entries) = (part? i entries).map Node.outline := by
  induction entries generalizing i with
  | nil => rfl
  | cons e entries ih =>
    match i with
    | 0 | 1 => rfl
    | i + 2 => simp [outlineEntries, ih]

/-- Whether an address is that of a key can be told from the outline. -/
theorem isKey_outline (a : Address) (node : Node) : isKey a node.outline = isKey a node := by
  induction a generalizing node with
  | nil => rfl
  | cons i rest ih =>
    have hchild : node.outline.child? i = (node.child? i).map Node.outline := by
      cases node with
      | sequence => exact getElem?_outlineItems i _
      | mapping => exact part?_outlineEntries i _
      | _ => rfl
    have hmapping : isMapping node.outline = isMapping node := by cases node <;> rfl
    rw [isKey, isKey, hchild, hmapping]
    cases node.child? i <;> simp [ih]

theorem getElem?_of_lastKey? {texts : List (Option String)} {n : Nat} (h : lastKey? key texts = some n) :
    texts[n]? = some (some key) := by
  induction texts generalizing n with
  | nil => cases h
  | cons k texts ih =>
    rw [lastKey?] at h
    split at h
    · rename_i m hm
      cases h
      exact ih hm
    · split at h
      · rename_i hk
        cases h
        simp [hk]
      · cases h

/-- Every key on a path is the text of a key of the document. -/
theorem exists_key_of_addressOf? {keys : List String} (h : addressOf? keys node = some a) (hkey : key ∈ keys) :
    ∃ b, isKey b node ∧ textOf? b node = some key := by
  induction keys generalizing node a with
  | nil => cases hkey
  | cons first keys ih =>
    cases node with
    | mapping anchor tag flow entries =>
      rw [addressOf?] at h
      split at h
      · rename_i n hlast
        split at h
        · rename_i value hpart
          rcases mem_cons.1 hkey with rfl | hrest
          · have htext := getElem?_of_lastKey? hlast
            rw [keyTexts, getElem?_map, Option.map_eq_some_iff] at htext
            obtain ⟨e, he, htext⟩ := htext
            refine ⟨[2 * n], by simp [isKey, isMapping], ?_⟩
            simp [textOf?_cons, Node.child?, part?, he, textOf?_nil, htext]
          · obtain ⟨rest, hrestAddress, -⟩ := Option.map_eq_some_iff.1 h
            obtain ⟨b, hb, htext⟩ := ih hrestAddress hrest
            exact ⟨(2 * n + 1) :: b, by simp [isKey, Node.child?, hpart, hb],
              by simp [textOf?_cons, Node.child?, hpart, htext]⟩
        · cases h
      · cases h
    | _ => cases h

/-! ## The texts of a value -/

mutual

def textsIn : Value → List String
  | .str text => [text]
  | .list items => textsInItems items
  | .map entries => textsInEntries entries
  | _ => []

def textsInItems : List Value → List String
  | [] => []
  | item :: items => textsIn item ++ textsInItems items

def textsInEntries : List (String × Value) → List String
  | [] => []
  | (key, value) :: entries => key :: (textsIn value ++ textsInEntries entries)

end

theorem mem_textsInEntries_set {v : Value} {entries : List (String × Value)}
    (h : text ∈ textsInEntries (Keyed.set key v entries)) :
    text = key ∨ text ∈ textsIn v ∨ text ∈ textsInEntries entries := by
  induction entries with
  | nil => simpa [Keyed.set, textsInEntries] using h
  | cons e entries ih =>
    rw [Keyed.set] at h
    split at h
    · simp only [textsInEntries, mem_cons, mem_append] at h ⊢
      grind
    · simp only [textsInEntries, mem_cons, mem_append] at h ⊢
      rcases h with rfl | h | h
      · simp
      · simp [h]
      · grind

mutual

theorem exists_textOf?_of_mem_textsIn : ∀ (node : Node) {known known' : List (String × Value)} {v : Value},
    node.Plain → node.build known = .ok (v, known') → ∀ {text : String}, text ∈ textsIn v →
      ∃ a, textOf? a node = some text
  | .scalar _ _ _ written, _, _, _, _, hbuild, text, htext => by
    cases hbuild
    obtain rfl : text = written := by simpa [textsIn] using htext
    exact ⟨[], rfl⟩
  | .aliasOf _, _, _, _, hplain, _, _, _ => hplain.elim
  | .sequence _ _ _ items, _, _, _, hplain, hbuild, text, htext => by
    obtain ⟨_, hitems, h⟩ := bind_eq_ok_iff.1 hbuild
    cases h
    obtain ⟨i, item, a, hitem, ha⟩ := exists_item_of_mem_textsIn items hplain hitems htext
    exact ⟨i :: a, by simp [textOf?_cons, Node.child?, hitem, ha]⟩
  | .mapping _ _ _ entries, _, _, _, hplain, hbuild, text, htext => by
    obtain ⟨_, hentries, h⟩ := bind_eq_ok_iff.1 hbuild
    cases h
    rcases exists_part_of_mem_textsIn entries hplain hentries htext with h | ⟨i, part, a, hpart, ha⟩
    · cases h
    · exact ⟨i :: a, by simp [textOf?_cons, Node.child?, hpart, ha]⟩

theorem exists_item_of_mem_textsIn : ∀ (items : List Node) {known known' : List (String × Value)}
    {vs : List Value}, PlainItems items → buildItems known items = .ok (vs, known') →
      ∀ {text : String}, text ∈ textsInItems vs →
        ∃ (i : Nat) (item : Node) (a : Address), items[i]? = some item ∧ textOf? a item = some text
  | [], _, _, _, _, hbuild, _, htext => by cases hbuild; cases htext
  | item :: items, _, _, _, hplain, hbuild, text, htext => by
    obtain ⟨_, hfirst, hnext⟩ := bind_eq_ok_iff.1 hbuild
    obtain ⟨_, hrest, h⟩ := bind_eq_ok_iff.1 hnext
    cases h
    rcases mem_append.1 htext with htext | htext
    · obtain ⟨a, ha⟩ := exists_textOf?_of_mem_textsIn item hplain.1 hfirst htext
      exact ⟨0, item, a, rfl, ha⟩
    · obtain ⟨i, item', a, hitem, ha⟩ := exists_item_of_mem_textsIn items hplain.2 hrest htext
      exact ⟨i + 1, item', a, hitem, ha⟩

theorem exists_part_of_mem_textsIn : ∀ (entries : List (Node × Node))
    {before known known' values : List (String × Value)}, PlainEntries entries →
      buildEntries before known entries = .ok (values, known') →
        ∀ {text : String}, text ∈ textsInEntries values →
          text ∈ textsInEntries before ∨ ∃ i part a, part? i entries = some part ∧ textOf? a part = some text
  | [], _, _, _, _, _, hbuild, _, htext => by cases hbuild; exact .inl htext
  | (key, value) :: entries, _, _, _, _, hplain, hbuild, text, htext => by
    obtain ⟨hkeyText, hvalue, hentries⟩ := hplain
    obtain ⟨k, _, v, _, hkeyBuild, hvalueBuild, hrest⟩ := buildEntries_cons.1 hbuild
    rcases exists_part_of_mem_textsIn entries hentries hrest htext with hset | ⟨i, part, a, hpart, ha⟩
    · rcases mem_textsInEntries_set hset with rfl | hnew | hbefore
      · have hmem : text ∈ textsIn (.str text) := by simp [textsIn]
        obtain ⟨a, ha⟩ := exists_textOf?_of_mem_textsIn key (plain_of_text? hkeyText) hkeyBuild hmem
        exact .inr ⟨0, key, a, rfl, ha⟩
      · obtain ⟨a, ha⟩ := exists_textOf?_of_mem_textsIn value hvalue hvalueBuild hnew
        exact .inr ⟨1, value, a, rfl, ha⟩
      · exact .inl hbefore
    · exact .inr ⟨i + 2, part, a, by simpa using hpart, ha⟩

end

end ServerlessTaint.Reference
