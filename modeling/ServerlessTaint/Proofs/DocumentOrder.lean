import ServerlessTaint.Proofs.Fault
import ServerlessTaint.Proofs.Scalars

/-!
# The order of a document

The scalars of a document are visited in the order of their addresses (`pairwise_scalars`). A plain
document has no aliases, and its keys are texts: its visits are those of its scalars, each once
(`visits_eq`), and it has a value (`exists_build`).
-/

namespace ServerlessTaint

open List

namespace Yaml

def Node.text? : Node → Option String
  | .scalar _ _ _ text => some text
  | _ => none

mutual

def Node.scalars : Node → List Reference.Address
  | .scalar .. => [[]]
  | .sequence _ _ _ items => scalarsOfItems 0 items
  | .mapping _ _ _ entries => scalarsOfEntries 0 entries
  | .aliasOf _ => []

def scalarsOfItems (i : Nat) : List Node → List Reference.Address
  | [] => []
  | item :: items => item.scalars.map (i :: ·) ++ scalarsOfItems (i + 1) items

def scalarsOfEntries (i : Nat) : List (Node × Node) → List Reference.Address
  | [] => []
  | (key, value) :: entries =>
    key.scalars.map (i :: ·) ++ (value.scalars.map ((i + 1) :: ·) ++ scalarsOfEntries (i + 2) entries)

end

mutual

/-- A document without aliases whose keys are texts. -/
def Node.Plain : Node → Prop
  | .scalar .. => True
  | .sequence _ _ _ items => PlainItems items
  | .mapping _ _ _ entries => PlainEntries entries
  | .aliasOf _ => False

/-- Items without aliases whose keys are texts. -/
def PlainItems : List Node → Prop
  | [] => True
  | item :: items => item.Plain ∧ PlainItems items

/-- Entries without aliases whose keys are texts. -/
def PlainEntries : List (Node × Node) → Prop
  | [] => True
  | (key, value) :: entries => key.text?.isSome ∧ value.Plain ∧ PlainEntries entries

end

variable {i : Nat} {node : Node} {a : Reference.Address} {entries : List (Node × Node)} {known : List (String × Value)}

theorem eq_scalar_of_text? (h : node.text?.isSome) : ∃ anchor tag style text, node = .scalar anchor tag style text := by
  cases node with
  | scalar anchor tag style text => exact ⟨anchor, tag, style, text, rfl⟩
  | _ => cases h

theorem plain_of_text? (h : node.text?.isSome) : node.Plain := by
  obtain ⟨anchor, tag, style, text, rfl⟩ := eq_scalar_of_text? h
  trivial

theorem PlainEntries.part (h : PlainEntries entries) (hpart : part? i entries = some node) : node.Plain := by
  induction entries generalizing i with
  | nil => cases hpart
  | cons e entries ih =>
    obtain ⟨hkey, hvalue, hentries⟩ := h
    match i with
    | 0 =>
      obtain rfl : e.1 = node := by simpa using hpart
      exact plain_of_text? hkey
    | 1 =>
      obtain rfl : e.2 = node := by simpa using hpart
      exact hvalue
    | i + 2 => exact ih hentries (by simpa using hpart)

mutual

/-- Whether a document is plain can be told from its outline. -/
theorem plain_outline : ∀ node : Node, node.outline.Plain ↔ node.Plain
  | .scalar .. | .aliasOf _ => Iff.rfl
  | .sequence _ _ _ items => plainItems_outline items
  | .mapping _ _ _ entries => plainEntries_outline entries

theorem plainItems_outline : ∀ items : List Node, PlainItems (outlineItems items) ↔ PlainItems items
  | [] => Iff.rfl
  | item :: items => and_congr (plain_outline item) (plainItems_outline items)

theorem plainEntries_outline : ∀ entries : List (Node × Node),
    PlainEntries (outlineEntries entries) ↔ PlainEntries entries
  | [] => Iff.rfl
  | (key, value) :: entries => by
    have hkey : key.outline.text?.isSome = key.text?.isSome := by cases key <;> rfl
    simp [outlineEntries, PlainEntries, hkey, plain_outline value, plainEntries_outline entries]

end

/-! ## Order -/

theorem mem_scalarsOfItems {items : List Node} :
    a ∈ scalarsOfItems i items ↔ ∃ j rest item, a = (i + j) :: rest ∧ items[j]? = some item ∧ rest ∈ item.scalars := by
  induction items generalizing i with
  | nil => simp [scalarsOfItems]
  | cons item items ih =>
    rw [scalarsOfItems, mem_append, mem_map, ih]
    constructor
    · rintro (⟨rest, hrest, rfl⟩ | ⟨j, rest, item', rfl, hitem, hrest⟩)
      · exact ⟨0, rest, item, rfl, rfl, hrest⟩
      · exact ⟨j + 1, rest, item', by simp only [cons.injEq, and_true]; omega, by simpa using hitem,
          hrest⟩
    · rintro ⟨_ | j, rest, item', rfl, hitem, hrest⟩
      · obtain rfl : item = item' := by simpa using hitem
        exact .inl ⟨rest, hrest, rfl⟩
      · exact .inr ⟨j, rest, item', by simp only [cons.injEq, and_true]; omega, by simpa using hitem,
          hrest⟩

theorem mem_scalarsOfEntries :
    a ∈ scalarsOfEntries i entries ↔
      ∃ j rest node, a = (i + j) :: rest ∧ part? j entries = some node ∧ rest ∈ node.scalars := by
  induction entries generalizing i with
  | nil => simp [scalarsOfEntries]
  | cons e entries ih =>
    rw [scalarsOfEntries, mem_append, mem_append, mem_map, mem_map, ih]
    constructor
    · rintro (⟨rest, hrest, rfl⟩ | ⟨rest, hrest, rfl⟩ | ⟨j, rest, node, rfl, hnode, hrest⟩)
      · exact ⟨0, rest, e.1, rfl, rfl, hrest⟩
      · exact ⟨1, rest, e.2, rfl, rfl, hrest⟩
      · exact ⟨j + 2, rest, node, by simp only [cons.injEq, and_true]; omega, by simpa using hnode,
          hrest⟩
    · rintro ⟨j, rest, node, rfl, hnode, hrest⟩
      match j with
      | 0 =>
        obtain rfl : e.1 = node := by simpa using hnode
        exact .inl ⟨rest, hrest, rfl⟩
      | 1 =>
        obtain rfl : e.2 = node := by simpa using hnode
        exact .inr (.inl ⟨rest, hrest, rfl⟩)
      | j + 2 =>
        exact .inr (.inr ⟨j, rest, node, by simp only [cons.injEq, and_true]; omega,
          by simpa using hnode, hrest⟩)

theorem pairwise_map_cons {addresses : List Reference.Address} (h : addresses.Pairwise (· < ·)) :
    (addresses.map (i :: ·)).Pairwise (· < ·) :=
  pairwise_map.2 (h.imp fun hlt => cons_lt_cons_iff.2 (.inr ⟨rfl, hlt⟩))

mutual

/-- The scalars stand in the order of their addresses. -/
theorem pairwise_scalars : ∀ node : Node, node.scalars.Pairwise (· < ·)
  | .scalar .. => pairwise_singleton _ _
  | .sequence _ _ _ items => pairwise_scalarsOfItems 0 items
  | .mapping _ _ _ entries => pairwise_scalarsOfEntries 0 entries
  | .aliasOf _ => List.Pairwise.nil

theorem pairwise_scalarsOfItems (i : Nat) : ∀ items : List Node, (scalarsOfItems i items).Pairwise (· < ·)
  | [] => List.Pairwise.nil
  | item :: items => by
    refine pairwise_append.2
      ⟨pairwise_map_cons (pairwise_scalars item), pairwise_scalarsOfItems (i + 1) items, ?_⟩
    intro a ha b hb
    obtain ⟨rest, -, rfl⟩ := mem_map.1 ha
    obtain ⟨j, rest', -, rfl, -⟩ := mem_scalarsOfItems.1 hb
    exact cons_lt_cons_iff.2 (.inl (by omega))

theorem pairwise_scalarsOfEntries (i : Nat) : ∀ entries : List (Node × Node),
    (scalarsOfEntries i entries).Pairwise (· < ·)
  | [] => List.Pairwise.nil
  | (key, value) :: entries => by
    refine pairwise_append.2 ⟨pairwise_map_cons (pairwise_scalars key), pairwise_append.2
      ⟨pairwise_map_cons (pairwise_scalars value), pairwise_scalarsOfEntries (i + 2) entries, ?_⟩, ?_⟩
    · intro a ha b hb
      obtain ⟨rest, -, rfl⟩ := mem_map.1 ha
      obtain ⟨j, rest', -, rfl, -⟩ := mem_scalarsOfEntries.1 hb
      exact cons_lt_cons_iff.2 (.inl (by omega))
    · intro a ha b hb
      obtain ⟨rest, -, rfl⟩ := mem_map.1 ha
      rcases mem_append.1 hb with hb | hb
      · obtain ⟨rest', -, rfl⟩ := mem_map.1 hb
        exact cons_lt_cons_iff.2 (.inl (by omega))
      · obtain ⟨j, rest', -, rfl, -⟩ := mem_scalarsOfEntries.1 hb
        exact cons_lt_cons_iff.2 (.inl (by omega))

end

theorem nodup_scalars (node : Node) : node.scalars.Nodup :=
  (pairwise_scalars node).imp fun {a b} hlt (heq : a = b) => List.lt_irrefl b (heq ▸ hlt)

/-- The scalars before one are those with a lesser address. -/
theorem mem_before_iff {before after : List Reference.Address} {b : Reference.Address}
    (h : node.scalars = before ++ a :: after) (hb : b ∈ node.scalars) : b ∈ before ↔ b < a := by
  have hpairs := pairwise_scalars node
  rw [h] at hpairs hb
  obtain ⟨-, hrest, hacross⟩ := List.pairwise_append.1 hpairs
  constructor
  · exact fun hbefore => hacross b hbefore a List.mem_cons_self
  · intro hlt
    rcases List.mem_append.1 hb with hbefore | hb
    · exact hbefore
    · rcases List.mem_cons.1 hb with rfl | hafter
      · exact absurd hlt (List.lt_irrefl _)
      · exact absurd ((List.pairwise_cons.1 hrest).1 b hafter) (List.lt_asymm hlt)

/-! ## Values -/

theorem buildEntries_cons {before : List (String × Value)} {key value : Node}
    {result : List (String × Value) × List (String × Value)} :
    buildEntries before known ((key, value) :: entries) = .ok result ↔
      ∃ k mid v last, key.build known = .ok (.str k, mid) ∧ value.build mid = .ok (v, last) ∧
        buildEntries (Keyed.set k v before) last entries = .ok result := by
  rw [buildEntries, bind_eq_ok_iff]
  constructor
  · rintro ⟨⟨k, mid⟩, hkey, h⟩
    cases k with
    | str k =>
      obtain ⟨⟨v, last⟩, hvalue, h⟩ := bind_eq_ok_iff.1 h
      exact ⟨k, mid, v, last, hkey, hvalue, h⟩
    | _ => cases h
  · rintro ⟨k, mid, v, last, hkey, hvalue, h⟩
    exact ⟨(.str k, mid), hkey, bind_eq_ok_iff.2 ⟨(v, last), hvalue, h⟩⟩

theorem text?_of_build {known' : List (String × Value)} {text : String} (halias : node.aliases = [])
    (h : node.build known = .ok (.str text, known')) : node.text? = some text := by
  cases node with
  | scalar => cases h; rfl
  | aliasOf => cases halias
  | sequence | mapping =>
    obtain ⟨_, -, h⟩ := bind_eq_ok_iff.1 h
    cases h

mutual

/-- A document without aliases that has a value is plain. -/
theorem plain_of_build : ∀ (node : Node) {known : List (String × Value)}
    {result : Value × List (String × Value)}, node.aliases = [] → node.build known = .ok result → node.Plain
  | .scalar .., _, _, _, _ => trivial
  | .aliasOf _, _, _, halias, _ => by cases halias
  | .sequence _ _ _ items, _, _, halias, hbuild => by
    obtain ⟨_, hitems, -⟩ := bind_eq_ok_iff.1 hbuild
    exact plainItems_of_build items halias hitems
  | .mapping _ _ _ entries, _, _, halias, hbuild => by
    obtain ⟨_, hentries, -⟩ := bind_eq_ok_iff.1 hbuild
    exact plainEntries_of_build entries halias hentries

theorem plainItems_of_build : ∀ (items : List Node) {known : List (String × Value)}
    {result : List Value × List (String × Value)},
    aliasesOfItems items = [] → buildItems known items = .ok result → PlainItems items
  | [], _, _, _, _ => trivial
  | item :: items, _, _, halias, hbuild => by
    obtain ⟨hitem, hitems⟩ := append_eq_nil_iff.1 halias
    obtain ⟨_, hfirst, hrest⟩ := bind_eq_ok_iff.1 hbuild
    obtain ⟨_, hrest, -⟩ := bind_eq_ok_iff.1 hrest
    exact ⟨plain_of_build item hitem hfirst, plainItems_of_build items hitems hrest⟩

theorem plainEntries_of_build : ∀ (entries : List (Node × Node)) {before known : List (String × Value)}
    {result : List (String × Value) × List (String × Value)},
    aliasesOfEntries entries = [] → buildEntries before known entries = .ok result → PlainEntries entries
  | [], _, _, _, _, _ => trivial
  | (key, value) :: entries, _, _, _, halias, hbuild => by
    obtain ⟨hboth, hentries⟩ := append_eq_nil_iff.1 halias
    obtain ⟨hkey, hvalue⟩ := append_eq_nil_iff.1 hboth
    obtain ⟨_, _, _, _, hkeyBuild, hvalueBuild, hrest⟩ := buildEntries_cons.1 hbuild
    exact ⟨by rw [text?_of_build hkey hkeyBuild]; rfl, plain_of_build value hvalue hvalueBuild,
      plainEntries_of_build entries hentries hrest⟩

end

mutual

/-- A plain document has a value. -/
theorem exists_build : ∀ (node : Node) (known : List (String × Value)), node.Plain →
    ∃ result, node.build known = .ok result
  | .scalar .., _, _ => ⟨_, rfl⟩
  | .aliasOf _, _, h => h.elim
  | .sequence _ _ _ items, known, h => by
    obtain ⟨result, hitems⟩ := exists_buildItems items known h
    exact ⟨_, bind_eq_ok_iff.2 ⟨result, hitems, rfl⟩⟩
  | .mapping _ _ _ entries, known, h => by
    obtain ⟨result, hentries⟩ := exists_buildEntries entries [] known h
    exact ⟨_, bind_eq_ok_iff.2 ⟨result, hentries, rfl⟩⟩

theorem exists_buildItems : ∀ (items : List Node) (known : List (String × Value)), PlainItems items →
    ∃ result, buildItems known items = .ok result
  | [], _, _ => ⟨_, rfl⟩
  | item :: items, known, h => by
    obtain ⟨first, hfirst⟩ := exists_build item known h.1
    obtain ⟨rest, hrest⟩ := exists_buildItems items first.2 h.2
    exact ⟨_, bind_eq_ok_iff.2 ⟨first, hfirst, bind_eq_ok_iff.2 ⟨rest, hrest, rfl⟩⟩⟩

theorem exists_buildEntries : ∀ (entries : List (Node × Node)) (before known : List (String × Value)),
    PlainEntries entries → ∃ result, buildEntries before known entries = .ok result
  | [], _, _, _ => ⟨_, rfl⟩
  | (key, value) :: entries, before, known, h => by
    obtain ⟨anchor, tag, style, text, rfl⟩ := eq_scalar_of_text? h.1
    obtain ⟨⟨v, last⟩, hvalue⟩ := exists_build value (bindAnchor anchor (.str text) known) h.2.1
    obtain ⟨result, hrest⟩ := exists_buildEntries entries (Keyed.set text v before) last h.2.2
    exact ⟨result, buildEntries_cons.2 ⟨text, _, v, last, rfl, hvalue, hrest⟩⟩

end

end Yaml

namespace Reference

open Yaml (Node part?)

variable {node : Node}

theorem cons_mem_scalars {i : Nat} {rest : Address} :
    i :: rest ∈ node.scalars ↔ ∃ child, node.child? i = some child ∧ rest ∈ child.scalars := by
  cases node with
  | scalar | aliasOf => simp [Node.scalars, Node.child?]
  | sequence =>
    rw [Node.scalars, Yaml.mem_scalarsOfItems, Node.child?]
    constructor
    · rintro ⟨j, rest', item, heq, hitem, hrest⟩
      obtain ⟨rfl, rfl⟩ : i = j ∧ rest = rest' := by simpa using heq
      exact ⟨item, hitem, hrest⟩
    · rintro ⟨item, hitem, hrest⟩
      exact ⟨i, rest, item, by rw [Nat.zero_add], hitem, hrest⟩
  | mapping =>
    rw [Node.scalars, Yaml.mem_scalarsOfEntries, Node.child?]
    constructor
    · rintro ⟨j, rest', part, heq, hpart, hrest⟩
      obtain ⟨rfl, rfl⟩ : i = j ∧ rest = rest' := by simpa using heq
      exact ⟨part, hpart, hrest⟩
    · rintro ⟨part, hpart, hrest⟩
      exact ⟨i, rest, part, by rw [Nat.zero_add], hpart, hrest⟩

/-- The scalars of a document are the addresses at which it has texts. -/
theorem mem_scalars {a : Address} : a ∈ node.scalars ↔ (textOf? a node).isSome := by
  induction a generalizing node with
  | nil =>
    cases node with
    | scalar | aliasOf => simp [Node.scalars, textOf?]
    | sequence => simp [Node.scalars, textOf?, Yaml.mem_scalarsOfItems]
    | mapping => simp [Node.scalars, textOf?, Yaml.mem_scalarsOfEntries]
  | cons i rest ih =>
    rw [cons_mem_scalars, textOf?_cons]
    cases node.child? i <;> simp [ih]

/-! ## Visits -/

mutual

theorem visitsOf_plain : ∀ (node : Node) (address : Address) (known : List (String × Visited)), node.Plain →
    (visitsOf address known node).1 = ⟨node.scalars.map fun a => .text (address ++ a), node.text?.isSome⟩
  | .scalar .., _, _, _ => by simp [visitsOf, Node.scalars, Node.text?]
  | .aliasOf _, _, _, h => h.elim
  | .sequence _ _ _ items, address, known, h => by
    simp only [visitsOf, visitsOfItems_plain items address 0 known h]
    rfl
  | .mapping _ _ _ entries, address, known, h => by
    simp only [visitsOf, visitsOfEntries_plain entries address 0 known h]
    rfl

theorem visitsOfItems_plain : ∀ (items : List Node) (address : Address) (i : Nat)
    (known : List (String × Visited)), Yaml.PlainItems items →
    (visitsOfItems address i known items).1 = (Yaml.scalarsOfItems i items).map fun a => .text (address ++ a)
  | [], _, _, _, _ => rfl
  | item :: items, address, i, known, h => by
    simp only [visitsOfItems, visitsOf_plain item _ _ h.1, visitsOfItems_plain items _ _ _ h.2,
      Yaml.scalarsOfItems, map_append, map_map]
    simp [Function.comp_def]

theorem visitsOfEntries_plain : ∀ (entries : List (Node × Node)) (address : Address) (i : Nat)
    (known : List (String × Visited)), Yaml.PlainEntries entries →
    (visitsOfEntries address i known entries).1 = (Yaml.scalarsOfEntries i entries).map fun a => .text (address ++ a)
  | [], _, _, _, _ => rfl
  | (key, value) :: entries, address, i, known, h => by
    obtain ⟨hkey, hvalue, hentries⟩ := h
    simp only [visitsOfEntries, visitsOf_plain key _ _ (Yaml.plain_of_text? hkey), visitsOf_plain value _ _ hvalue,
      visitsOfEntries_plain entries _ _ _ hentries, hkey, Yaml.scalarsOfEntries, map_append,
      map_map]
    simp [Function.comp_def]

end

/-- The scalars of a plain document are visited in order, each once. -/
theorem visits_eq {root : Node} (h : root.Plain) : visits root = root.scalars.map .text := by
  rw [visits, visitsOf_plain root [] [] h]
  simp

end Reference

end ServerlessTaint
