import ServerlessTaint.Reference.Document

/-!
# Scalars of documents

A scalar stands at an address. Giving it another text changes what is read at this address and at no
other (`textOf?_setText`), and nothing else of the document: the outline, which is the document with
all its texts taken out, stays as it is (`outline_setText`). Equality of documents is decided.
-/

namespace ServerlessTaint

namespace Yaml

mutual

/-- A document with all its texts taken out. -/
def Node.outline : Node → Node
  | .scalar anchor tag style _ => .scalar anchor tag style ""
  | .sequence anchor tag flow items => .sequence anchor tag flow (outlineItems items)
  | .mapping anchor tag flow entries => .mapping anchor tag flow (outlineEntries entries)
  | .aliasOf name => .aliasOf name

/-- The items of a sequence with all texts taken out. -/
def outlineItems : List Node → List Node
  | [] => []
  | item :: items => item.outline :: outlineItems items

/-- The entries of a mapping with all texts taken out. -/
def outlineEntries : List (Node × Node) → List (Node × Node)
  | [] => []
  | (key, value) :: entries => (key.outline, value.outline) :: outlineEntries entries

end

mutual

/-- Equality of documents. -/
def Node.decEq : (a b : Node) → Decidable (a = b)
  | .scalar anchor tag style text, .scalar anchor' tag' style' text' =>
    decidable_of_iff (anchor = anchor' ∧ tag = tag' ∧ style = style' ∧ text = text') (by simp)
  | .sequence anchor tag flow items, .sequence anchor' tag' flow' items' =>
    match decEqItems items items' with
    | isTrue h => decidable_of_iff (anchor = anchor' ∧ tag = tag' ∧ flow = flow') (by simp [h])
    | isFalse h => isFalse (by simp [h])
  | .mapping anchor tag flow entries, .mapping anchor' tag' flow' entries' =>
    match decEqEntries entries entries' with
    | isTrue h => decidable_of_iff (anchor = anchor' ∧ tag = tag' ∧ flow = flow') (by simp [h])
    | isFalse h => isFalse (by simp [h])
  | .aliasOf name, .aliasOf name' => decidable_of_iff (name = name') (by simp)
  | .scalar .., .sequence .. | .scalar .., .mapping .. | .scalar .., .aliasOf _
  | .sequence .., .scalar .. | .sequence .., .mapping .. | .sequence .., .aliasOf _
  | .mapping .., .scalar .. | .mapping .., .sequence .. | .mapping .., .aliasOf _
  | .aliasOf _, .scalar .. | .aliasOf _, .sequence .. | .aliasOf _, .mapping .. => isFalse (by simp)

def decEqItems : (as bs : List Node) → Decidable (as = bs)
  | [], [] => isTrue rfl
  | a :: as, b :: bs =>
    match a.decEq b, decEqItems as bs with
    | isTrue h, isTrue hs => isTrue (by rw [h, hs])
    | isFalse h, _ => isFalse (by simp [h])
    | _, isFalse hs => isFalse (by simp [hs])
  | [], _ :: _ | _ :: _, [] => isFalse (by simp)

def decEqEntries : (as bs : List (Node × Node)) → Decidable (as = bs)
  | [], [] => isTrue rfl
  | (key, value) :: as, (key', value') :: bs =>
    match key.decEq key', value.decEq value', decEqEntries as bs with
    | isTrue hk, isTrue hv, isTrue hs => isTrue (by rw [hk, hv, hs])
    | isFalse hk, _, _ => isFalse (by simp [hk])
    | _, isFalse hv, _ => isFalse (by simp [hv])
    | _, _, isFalse hs => isFalse (by simp [hs])
  | [], _ :: _ | _ :: _, [] => isFalse (by simp)

end

instance : DecidableEq Node := Node.decEq

/-- The key or value with a number: keys have the even numbers. -/
def part? (i : Nat) (entries : List (Node × Node)) : Option Node :=
  (entries[i / 2]?).map fun e => if i % 2 = 0 then e.1 else e.2

/-- The part of a node with a number: an item, a key or a value. -/
def Node.child? (i : Nat) : Node → Option Node
  | .sequence _ _ _ items => items[i]?
  | .mapping _ _ _ entries => part? i entries
  | _ => none

@[simp] theorem part?_nil (i : Nat) : part? i [] = none := rfl

@[simp] theorem part?_zero (e : Node × Node) (entries : List (Node × Node)) :
    part? 0 (e :: entries) = some e.1 := rfl

@[simp] theorem part?_one (e : Node × Node) (entries : List (Node × Node)) :
    part? 1 (e :: entries) = some e.2 := rfl

@[simp] theorem part?_add_two (i : Nat) (e : Node × Node) (entries : List (Node × Node)) :
    part? (i + 2) (e :: entries) = part? i entries := by
  simp [part?]

end Yaml

namespace Reference

open Yaml (Node part?)

/-! ## One step down -/

theorem textOfItem?_eq (rest : Address) (i : Nat) (items : List Node) :
    textOfItem? rest i items = (items[i]?).bind (textOf? rest) := by
  induction items generalizing i with
  | nil => simp [textOfItem?]
  | cons item items ih => cases i <;> simp [textOfItem?, ih]

theorem textOfEntry?_eq (rest : Address) (i : Nat) (entries : List (Node × Node)) :
    textOfEntry? rest i entries = (part? i entries).bind (textOf? rest) := by
  induction entries generalizing i with
  | nil => simp [ textOfEntry?]
  | cons e entries ih =>
    match i with
    | 0 | 1 => simp [ textOfEntry?]
    | i + 2 => simp [ textOfEntry?, ih]

theorem textOf?_cons (i : Nat) (rest : Address) (node : Node) :
    textOf? (i :: rest) node = (node.child? i).bind (textOf? rest) := by
  cases node with
  | sequence => simp [textOf?, Node.child?, textOfItem?_eq]
  | mapping => simp [textOf?, Node.child?, textOfEntry?_eq]
  | _ => simp [textOf?, Node.child?]

theorem getElem?_setItem (text : String) (rest : Address) (i j : Nat) (items : List Node) :
    (setItem text rest i items)[j]? =
      if i = j then (items[j]?).map (setText text rest) else items[j]? := by
  induction items generalizing i j with
  | nil => simp [setItem]
  | cons item items ih => cases i <;> cases j <;> simp [setItem, ih]

theorem part?_setEntry (text : String) (rest : Address) (i j : Nat) (entries : List (Node × Node)) :
    part? j (setEntry text rest i entries) =
      if i = j then (part? j entries).map (setText text rest) else part? j entries := by
  induction entries generalizing i j with
  | nil => simp [setEntry]
  | cons e entries ih =>
    match i, j with
    | 0, 0 | 0, 1 | 1, 0 | 1, 1 | 0, j + 2 | 1, j + 2 | i + 2, 0 | i + 2, 1 => simp [setEntry]
    | i + 2, j + 2 => simp [setEntry, ih]

theorem child?_setText (text : String) (rest : Address) (i j : Nat) (node : Node) :
    (setText text (i :: rest) node).child? j =
      if i = j then (node.child? j).map (setText text rest) else node.child? j := by
  cases node with
  | sequence => simp [setText, Node.child?, getElem?_setItem]
  | mapping => simp [setText, Node.child?, part?_setEntry]
  | _ => simp [setText, Node.child?]

/-! ## Texts -/

/-- After the scalar at an address got another text, that text is read there, and every other scalar
keeps its own. -/
theorem textOf?_setText (text : String) (a b : Address) (node : Node) :
    textOf? b (setText text a node) =
      if a = b then (textOf? b node).map fun _ => text else textOf? b node := by
  induction a generalizing b node with
  | nil =>
    cases b with
    | nil => cases node <;> simp [setText, textOf?]
    | cons j b => cases node <;> simp [setText, textOf?_cons, Node.child?]
  | cons i a ih =>
    cases b with
    | nil => cases node <;> simp [setText, textOf?]
    | cons j b =>
      rw [textOf?_cons, textOf?_cons, child?_setText]
      by_cases hij : i = j
      · subst hij
        cases node.child? i with
        | none => simp
        | some child => simp [ih]
      · simp [hij]

mutual

/-- A scalar that gets the text that it has makes no change. -/
theorem setText_self {text : String} : ∀ (a : Address) (node : Node), textOf? a node = some text →
    setText text a node = node
  | [], .scalar .., h => by cases h; rfl
  | _ :: _, .scalar .., _ | [], .sequence .., _ | [], .mapping .., _ | [], .aliasOf _, _
  | _ :: _, .aliasOf _, _ => rfl
  | i :: rest, .sequence _ _ _ items, h => by rw [setText, setItem_self rest i items h]
  | i :: rest, .mapping _ _ _ entries, h => by rw [setText, setEntry_self rest i entries h]

theorem setItem_self {text : String} (rest : Address) : ∀ (i : Nat) (items : List Node),
    textOfItem? rest i items = some text → setItem text rest i items = items
  | _, [], _ => rfl
  | 0, item :: items, h => by rw [setItem, setText_self rest item h]
  | i + 1, item :: items, h => by rw [setItem, setItem_self rest i items h]

theorem setEntry_self {text : String} (rest : Address) : ∀ (i : Nat) (entries : List (Node × Node)),
    textOfEntry? rest i entries = some text → setEntry text rest i entries = entries
  | _, [], _ => rfl
  | 0, (key, value) :: entries, h => by rw [setEntry, setText_self rest key h]
  | 1, (key, value) :: entries, h => by rw [setEntry, setText_self rest value h]
  | i + 2, (key, value) :: entries, h => by rw [setEntry, setEntry_self rest i entries h]

end

/-! ## Outlines -/

mutual

theorem outline_setText (text : String) : ∀ (a : Address) (node : Node),
    (setText text a node).outline = node.outline
  | [], .scalar .. | _ :: _, .scalar .. | [], .sequence .. | [], .mapping ..
  | [], .aliasOf _ | _ :: _, .aliasOf _ => rfl
  | i :: rest, .sequence _ _ _ items => by
    simp [setText, Node.outline, outlineItems_setItem text rest i items]
  | i :: rest, .mapping _ _ _ entries => by
    simp [setText, Node.outline, outlineEntries_setEntry text rest i entries]

theorem outlineItems_setItem (text : String) (rest : Address) : ∀ (i : Nat) (items : List Node),
    Yaml.outlineItems (setItem text rest i items) = Yaml.outlineItems items
  | _, [] => rfl
  | 0, item :: items => by simp only [setItem, Yaml.outlineItems, outline_setText text rest item]
  | i + 1, item :: items => by
    simp [setItem, Yaml.outlineItems, outlineItems_setItem text rest i items]

theorem outlineEntries_setEntry (text : String) (rest : Address) :
    ∀ (i : Nat) (entries : List (Node × Node)),
      Yaml.outlineEntries (setEntry text rest i entries) = Yaml.outlineEntries entries
  | _, [] => rfl
  | 0, (key, value) :: entries => by
    simp [setEntry, Yaml.outlineEntries, outline_setText text rest key]
  | 1, (key, value) :: entries => by
    simp [setEntry, Yaml.outlineEntries, outline_setText text rest value]
  | i + 2, (key, value) :: entries => by
    simp [setEntry, Yaml.outlineEntries, outlineEntries_setEntry text rest i entries]

end

end Reference

end ServerlessTaint
