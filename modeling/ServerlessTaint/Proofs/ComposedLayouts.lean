import ServerlessTaint.Proofs.BlockLayouts
import ServerlessTaint.Proofs.DocumentOrder
import ServerlessTaint.Proofs.Keyed

/-!
# Documents of layouts

A layout that fits is read as its document (`compose_render`). A document without anchors whose keys
are distinct texts has the value that its form gives (`load_eq`).
-/

namespace ServerlessTaint.Yaml

open List

/-! ## Documents -/

def Spelled.node (s : Spelled) : Node := .scalar none textTag s.style (String.ofList s.text)

mutual

def Layout.node : Layout → Node
  | .scalar s _ => s.node
  | .sequence items => .sequence none sequenceTag false (itemNodes items)
  | .mapping entries => .mapping none mappingTag false (entryNodes entries)
  | .stray _ => Compose.empty

def itemNodes : List Layout → List Node
  | [] => []
  | item :: items => item.node :: itemNodes items

/-- The documents of the entries of a mapping. -/
def entryNodes : LayoutEntries → List (Node × Node)
  | [] => []
  | (key, _, value) :: entries => (key.node, value.node) :: entryNodes entries

end

namespace Compose

variable {fuel : Nat} {b c : Bool} {m m' : Mark} {ts rest : List Token} {handles : List (String × String)}

theorem run_node_scalar (text : String) (style : Style) :
    (node (fuel + 1) b c).run ⟨⟨.scalar text style, m, m'⟩ :: ts, handles⟩ =
      .ok (.scalar none textTag style text, ⟨ts, handles⟩) := rfl

variable {least i j : Nat} {item : Node} {l : Layout} {items : List Node} {ts' : List Token}

theorem run_node_sequence (h : (blockItems fuel).run ⟨ts, handles⟩ = .ok (items, ⟨rest, handles⟩)) :
    (node (fuel + 1) true c).run ⟨⟨.blockSequenceStart, m, m'⟩ :: ts, handles⟩ =
      .ok (.sequence none sequenceTag false items, ⟨rest, handles⟩) := by
  show (do let items ← blockItems fuel; return Node.sequence none sequenceTag false items : Compose Node).run
    ⟨ts, handles⟩ = _
  rw [run_bind_ok h]
  rfl

theorem run_node_mapping {entries : List (Node × Node)}
    (h : (blockEntries fuel).run ⟨ts, handles⟩ = .ok (entries, ⟨rest, handles⟩)) :
    (node (fuel + 1) true c).run ⟨⟨.blockMappingStart, m, m'⟩ :: ts, handles⟩ =
      .ok (.mapping none mappingTag false entries, ⟨rest, handles⟩) := by
  show (do let entries ← blockEntries fuel; return Node.mapping none mappingTag false entries : Compose Node).run
    ⟨ts, handles⟩ = _
  rw [run_bind_ok h]
  rfl

/-- A sequence that is not indented may be the value of an entry. -/
theorem run_node_plainItems
    (h : (plainItems fuel).run ⟨⟨.blockEntry, m, m'⟩ :: ts, handles⟩ = .ok (items, ⟨rest, handles⟩)) :
    (node (fuel + 1) true true).run ⟨⟨.blockEntry, m, m'⟩ :: ts, handles⟩ =
      .ok (.sequence none sequenceTag false items, ⟨rest, handles⟩) := by
  show (do let items ← plainItems fuel; return Node.sequence none sequenceTag false items : Compose Node).run
    ⟨⟨.blockEntry, m, m'⟩ :: ts, handles⟩ = _
  rw [run_bind_ok h]
  rfl

/-- The tokens start with those of a node. -/
inductive StartsNode : List Token → Prop
  | scalar {text : String} {style : Style} {m m' : Mark} {ts : List Token} :
    StartsNode (⟨.scalar text style, m, m'⟩ :: ts)
  | sequence {m m' : Mark} {ts : List Token} : StartsNode (⟨.blockSequenceStart, m, m'⟩ :: ts)
  | mapping {m m' : Mark} {ts : List Token} : StartsNode (⟨.blockMappingStart, m, m'⟩ :: ts)

theorem StartsNode.length_pos (h : StartsNode ts) : 0 < ts.length := by
  cases h <;> exact Nat.succ_pos _

/-- How the items of a sequence are read. One that is the value of an entry is not indented. -/
def itemsOf : Bool → Nat → Compose (List Node)
  | true => plainItems
  | false => blockItems

theorem run_itemsOf_cons {inEntry : Bool} (hstart : StartsNode ts)
    (hitem : (node fuel true false).run ⟨ts, handles⟩ = .ok (item, ⟨ts', handles⟩))
    (hitems : (itemsOf inEntry fuel).run ⟨ts', handles⟩ = .ok (items, ⟨rest, handles⟩)) :
    (itemsOf inEntry (fuel + 1)).run ⟨⟨.blockEntry, m, m'⟩ :: ts, handles⟩ = .ok (item :: items, ⟨rest, handles⟩) := by
  have hrun : (itemsOf inEntry (fuel + 1)).run ⟨⟨.blockEntry, m, m'⟩ :: ts, handles⟩ =
      (do let item ← node fuel true false; return item :: (← itemsOf inEntry fuel) : Compose (List Node)).run
        ⟨ts, handles⟩ := by
    cases inEntry <;> cases hstart <;> rfl
  rw [hrun, run_bind_ok hitem, run_bind_ok hitems]
  rfl

/-- What follows the value of an entry: another entry, or the end of the mapping. -/
inductive EndsValue : List Token → Prop
  | key {m m' : Mark} {ts : List Token} : EndsValue (⟨.key, m, m'⟩ :: ts)
  | blockEnd {m m' : Mark} {ts : List Token} : EndsValue (⟨.blockEnd, m, m'⟩ :: ts)

/-- What follows the items of a sequence, and what is left of it once they are read. -/
inductive EndsItems : Bool → List Token → List Token → Prop
  | block {m m' : Mark} {rest : List Token} : EndsItems false (⟨.blockEnd, m, m'⟩ :: rest) rest
  | value {rest : List Token} (h : EndsValue rest) : EndsItems true rest rest

theorem run_itemsOf_nil {inEntry : Bool} (h : EndsItems inEntry ts rest) :
    (itemsOf inEntry (fuel + 1)).run ⟨ts, handles⟩ = .ok ([], ⟨rest, handles⟩) := by
  cases h with
  | block => rfl
  | value h => cases h <;> rfl

/-- The tokens start with those of a value: a node, or an item of a sequence that is not indented. -/
inductive StartsValue : List Token → Prop
  | node {ts : List Token} (h : StartsNode ts) : StartsValue ts
  | item {m m' : Mark} {ts : List Token} : StartsValue (⟨.blockEntry, m, m'⟩ :: ts)

theorem run_blockEntries_cons {text : String} {style : Style} {k k' v v' : Mark} (hstart : StartsValue ts)
    {value : Node} {entries : List (Node × Node)}
    (hvalue : (node fuel true true).run ⟨ts, handles⟩ = .ok (value, ⟨ts', handles⟩))
    (hentries : (blockEntries (fuel + 1)).run ⟨ts', handles⟩ = .ok (entries, ⟨rest, handles⟩)) :
    (blockEntries (fuel + 2)).run
      ⟨⟨.key, m, m'⟩ :: ⟨.scalar text style, k, k'⟩ :: ⟨.value, v, v'⟩ :: ts, handles⟩ =
        .ok ((.scalar none textTag style text, value) :: entries, ⟨rest, handles⟩) := by
  have hrun : (blockEntries (fuel + 2)).run
      ⟨⟨.key, m, m'⟩ :: ⟨.scalar text style, k, k'⟩ :: ⟨.value, v, v'⟩ :: ts, handles⟩ =
        (do
          let value ← node fuel true true
          return (Node.scalar none textTag style text, value) :: (← blockEntries (fuel + 1)) :
            Compose (List (Node × Node))).run ⟨ts, handles⟩ := by
    cases hstart with
    | node h => cases h <;> rfl
    | item => rfl
  rw [hrun, run_bind_ok hvalue, run_bind_ok hentries]
  rfl

theorem startsNode (h : l.Fits least i j) (m : Mark) (rest : List Token) : StartsNode (l.tokens false m ++ rest) := by
  cases l with
  | scalar => exact .scalar
  | sequence => exact .sequence
  | mapping => exact .mapping
  | stray => exact h.elim

theorem startsValue (h : l.Fits least i j) (m : Mark) (rest : List Token) : StartsValue (l.tokens true m ++ rest) := by
  cases l with
  | scalar => exact .node .scalar
  | sequence items =>
    obtain ⟨item, items, rfl⟩ := exists_cons_of_ne_nil h.1
    exact .item
  | mapping => exact .node .mapping
  | stray => exact h.elim

theorem EndsValue.entries {m m' : Mark} (entries : LayoutEntries) (k : Mark) :
    EndsValue (entryTokens k entries ++ ⟨.blockEnd, m, m'⟩ :: rest) := by
  cases entries with
  | nil => exact .blockEnd
  | cons entry entries => exact .key

mutual

/-- The tokens of a layout are those of its document. -/
theorem run_node_tokens : ∀ (l : Layout) {inEntry : Bool} {m : Mark} {least i j fuel : Nat} {rest : List Token}
    {handles : List (String × String)}, l.Fits least i j → 2 * (l.tokens inEntry m).length ≤ fuel →
      (inEntry → EndsValue rest) →
        (node fuel true inEntry).run ⟨l.tokens inEntry m ++ rest, handles⟩ = .ok (l.node, ⟨rest, handles⟩)
  | .scalar s gap, inEntry, m, _, _, _, fuel, rest, handles, _, hfuel, _ => by
    obtain _ | fuel := fuel
    · cases hfuel
    exact run_node_scalar _ _
  | .sequence items, false, m, _, _, _, fuel, rest, handles, h, hfuel, _ => by
    simp only [Layout.tokens, Bool.false_eq_true, if_false, length_cons, length_append,
      length_nil] at hfuel
    obtain _ | fuel := fuel
    · cases hfuel
    simp only [Layout.tokens, Bool.false_eq_true, if_false, cons_append, append_assoc, nil_append]
    exact run_node_sequence (run_itemsOf_tokens items h.2 (by omega) (by omega) .block)
  | .sequence items, true, m, _, _, _, fuel, rest, handles, h, hfuel, hrest => by
    simp only [Layout.tokens, if_true] at hfuel
    have hitems := @run_itemsOf_tokens items true m
    obtain ⟨item, items, rfl⟩ := exists_cons_of_ne_nil h.1
    obtain _ | fuel := fuel
    · cases hfuel
    exact run_node_plainItems (hitems h.2 (by simp [itemTokens] at hfuel; omega) (by omega) (.value (hrest rfl)))
  | .mapping entries, inEntry, m, _, _, _, fuel, rest, handles, h, hfuel, _ => by
    simp only [Layout.tokens, length_cons, length_append, length_nil] at hfuel
    obtain _ | fuel := fuel
    · cases hfuel
    simp only [Layout.tokens, cons_append, append_assoc, nil_append]
    exact run_node_mapping (run_blockEntries_tokens entries h.2 (by omega))
  | .stray _, _, _, _, _, _, _, _, _, h, _, _ => h.elim

theorem run_itemsOf_tokens : ∀ (items : List Layout) {inEntry : Bool} {m : Mark} {i j fuel : Nat}
    {after rest : List Token} {handles : List (String × String)}, ItemsFit i j items → 1 ≤ fuel →
      2 * (itemTokens m items).length ≤ fuel + 1 → EndsItems inEntry after rest →
        (itemsOf inEntry fuel).run ⟨itemTokens m items ++ after, handles⟩ = .ok (itemNodes items, ⟨rest, handles⟩)
  | [], _, _, _, _, fuel, _, _, _, _, hfuel, _, hends => by
    obtain _ | fuel := fuel
    · cases hfuel
    exact run_itemsOf_nil hends
  | item :: items, _, m, _, _, fuel, _, rest, handles, h, hpos, hfuel, hends => by
    have hitem := (startsNode h.1 (m.past ['-', ' ']) []).length_pos
    simp only [itemTokens, append_assoc, cons_append, nil_append] at hfuel ⊢
    simp only [length_append, length_cons, length_nil] at hfuel hitem
    obtain _ | fuel := fuel
    · omega
    exact run_itemsOf_cons (startsNode h.1 _ _) (run_node_tokens item h.1 (by omega) nofun)
      (run_itemsOf_tokens items h.2 (by omega) (by omega) hends)

theorem run_blockEntries_tokens : ∀ (entries : LayoutEntries) {m e e' : Mark} {i j fuel : Nat}
    {rest : List Token} {handles : List (String × String)}, EntriesFit i j entries →
      2 * (entryTokens m entries).length + 1 ≤ fuel →
        (blockEntries fuel).run ⟨entryTokens m entries ++ ⟨.blockEnd, e, e'⟩ :: rest, handles⟩ =
          .ok (entryNodes entries, ⟨rest, handles⟩)
  | [], _, _, _, _, _, fuel, _, _, _, hfuel => by
    obtain _ | fuel := fuel
    · cases hfuel
    rfl
  | (key, gap, value) :: entries, m, _, _, _, _, fuel, rest, handles, h, hfuel => by
    simp only [entryTokens, Lex.keyTokens, append_assoc, cons_append, nil_append] at hfuel ⊢
    simp only [length_append, length_cons] at hfuel
    obtain ⟨fuel, rfl⟩ : ∃ n, fuel = n + 2 := ⟨fuel - 2, by omega⟩
    exact run_blockEntries_cons (startsValue h.2.2.1 _ _)
      (run_node_tokens value h.2.2.1 (by omega) fun _ => .entries entries _)
      (run_blockEntries_tokens entries h.2.2.2 (by omega))

end

theorem run_document (h : l.Fits least i j) {m e : Mark} (hfuel : 2 * (l.tokens false m).length ≤ fuel) :
    (document fuel).run ⟨l.tokens false m ++ [⟨.streamEnd, e, e⟩], handles⟩ = .ok (some l.node, ⟨[], handles⟩) := by
  have hrun : (document fuel).run ⟨l.tokens false m ++ [⟨.streamEnd, e, e⟩], handles⟩ =
      (do let root ← node fuel true false; skipEnds fuel; expect .streamEnd; return some root :
        Compose (Option Node)).run ⟨l.tokens false m ++ [⟨.streamEnd, e, e⟩], handles⟩ := by
    have hstart := startsNode h m [⟨.streamEnd, e, e⟩]
    generalize l.tokens false m ++ [⟨.streamEnd, e, e⟩] = ts at hstart ⊢
    cases hstart <;> rfl
  have hends : (skipEnds fuel).run ⟨[⟨.streamEnd, e, e⟩], handles⟩ = .ok ((), ⟨[⟨.streamEnd, e, e⟩], handles⟩) := by
    cases fuel <;> rfl
  rw [hrun, run_bind_ok (run_node_tokens l h hfuel nofun), run_bind_ok hends]
  rfl

end Compose

mutual

theorem anchors_node : ∀ (l : Layout) (known : List String), l.node.anchors known = .ok known
  | .scalar .., _ => rfl
  | .sequence items, known => anchors_itemNodes items known
  | .mapping entries, known => anchors_entryNodes entries known
  | .stray _, _ => rfl

theorem anchors_itemNodes : ∀ (items : List Layout) (known : List String),
    anchorsOfItems known (itemNodes items) = .ok known
  | [], _ => rfl
  | item :: items, known => by
    rw [itemNodes, anchorsOfItems, anchors_node item]
    exact anchors_itemNodes items known

theorem anchors_entryNodes : ∀ (entries : LayoutEntries) (known : List String),
    anchorsOfEntries known (entryNodes entries) = .ok known
  | [], _ => rfl
  | (key, gap, value) :: entries, known => by
    show (value.node.anchors known >>= _) = _
    rw [anchors_node value]
    exact anchors_entryNodes entries known

end

/-- A collection that fits at the start of a text is read as its document. -/
theorem compose_render {l : Layout} {least : Nat} (h : l.Fits least 0 0) (hcollection : ∀ s gap, l ≠ .scalar s gap) :
    compose (String.ofList l.render) = .ok (some l.node) := by
  obtain ⟨m, hm⟩ : ∃ m : Mark, m = ⟨0, 0, 0⟩ := ⟨_, rfl⟩
  rw [compose, lex_render h hcollection hm, ok_bind]
  dsimp only
  rw [Compose.run_document h (by rw [length_append]; omega), ok_bind]
  simp only [anchors_node, ok_bind]
  rfl

/-- A collection that breaks is not read. -/
theorem compose_of_breaks {l : Layout} (h : l.Breaks 0) : compose (String.ofList l.render) = .error .malformed := by
  rw [compose, lex_of_breaks h]
  rfl

/-! ## Values -/

def Node.keyText (key : Node) : String := key.text?.getD ""

mutual

/-- The value that the form of a document gives. -/
def Node.value : Node → Value
  | .scalar _ _ _ text => .str text
  | .sequence _ _ _ items => .list (itemValues items)
  | .mapping _ _ _ entries => .map (entryValues entries)
  | .aliasOf _ => .null

def itemValues : List Node → List Value
  | [] => []
  | item :: items => item.value :: itemValues items

def entryValues : List (Node × Node) → List (String × Value)
  | [] => []
  | (key, value) :: entries => (key.keyText, value.value) :: entryValues entries

end

mutual

/-- A document without anchors and aliases whose keys are distinct texts. -/
def Node.Simple : Node → Prop
  | .scalar anchor _ _ _ => anchor = none
  | .sequence anchor _ _ items => anchor = none ∧ SimpleItems items
  | .mapping anchor _ _ entries => anchor = none ∧ SimpleEntries entries
  | .aliasOf _ => False

def SimpleItems : List Node → Prop
  | [] => True
  | item :: items => item.Simple ∧ SimpleItems items

/-- Entries with distinct texts as keys and simple documents as values. -/
def SimpleEntries : List (Node × Node) → Prop
  | [] => True
  | (key, value) :: entries =>
    key.text?.isSome ∧ key.Simple ∧ value.Simple ∧ key.keyText ∉ Keyed.keys (entryValues entries) ∧
      SimpleEntries entries

end

mutual

theorem build_eq : ∀ {node : Node}, node.Simple → ∀ known, node.build known = .ok (node.value, known)
  | .scalar .., rfl, _ => rfl
  | .sequence _ _ _ items, ⟨rfl, h⟩, known => by
    rw [Node.build, buildItems_eq h]
    rfl
  | .mapping _ _ _ entries, ⟨rfl, h⟩, known => by
    rw [Node.build, buildEntries_eq [] h nofun]
    rfl
  | .aliasOf _, h, _ => h.elim

theorem buildItems_eq : ∀ {items : List Node}, SimpleItems items →
    ∀ known, buildItems known items = .ok (itemValues items, known)
  | [], _, _ => rfl
  | item :: items, ⟨hitem, hitems⟩, known => by
    rw [buildItems, build_eq hitem]
    show (buildItems known items >>= _) = _
    rw [buildItems_eq hitems]
    rfl

/-- Entries are added after those before, as long as their keys are new. -/
theorem buildEntries_eq : ∀ {entries : List (Node × Node)} (before : List (String × Value)), SimpleEntries entries →
    (∀ k ∈ Keyed.keys before, k ∉ Keyed.keys (entryValues entries)) →
      ∀ known, buildEntries before known entries = .ok (before ++ entryValues entries, known)
  | [], before, _, _, known => by simp [buildEntries, entryValues]
  | (key, value) :: entries, before, ⟨htext, hkey, hvalue, hnew, hentries⟩, hbefore, known => by
    obtain ⟨anchor, tag, style, text, rfl⟩ := eq_scalar_of_text? htext
    obtain rfl : anchor = none := hkey
    have hset : Keyed.set text value.value before = before ++ [(text, value.value)] := by
      have hnot : text ∉ Keyed.keys before := fun h => hbefore text h mem_cons_self
      have := Keyed.set_append hnot value.value []
      rwa [append_nil] at this
    have hmore : ∀ k ∈ Keyed.keys (before ++ [(text, value.value)]), k ∉ Keyed.keys (entryValues entries) := by
      intro k hk
      rw [Keyed.keys, map_append, mem_append] at hk
      rcases hk with hk | hk
      · exact fun h => hbefore k hk (mem_cons_of_mem _ h)
      · obtain rfl : k = text := by simpa using hk
        exact hnew
    show (value.build known >>= _) = _
    rw [build_eq hvalue]
    show buildEntries (Keyed.set text value.value before) known entries = _
    rw [hset, buildEntries_eq _ hentries hmore]
    simp [entryValues, Node.keyText, Node.text?]

end

/-- A simple document denotes the value that its form gives. -/
theorem load_eq {node : Node} (h : node.Simple) : node.load = .ok node.value := by
  rw [Node.load, build_eq h]
  rfl

end ServerlessTaint.Yaml
