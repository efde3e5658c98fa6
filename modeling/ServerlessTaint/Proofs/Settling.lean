import ServerlessTaint.Proofs.DocumentPaths
import ServerlessTaint.Proofs.Phrases

/-!
# How a document settles

Resolution of a plain document, as long as what is written is read back: the scalars are settled in the
order of the document, each from the document as it stands (`settle`, `resolveRoot_eq`). A scalar is
settled once (`textOf?_progress_scalars`), and at that moment the scalars before it have their final
texts and the others the texts that they had at the start (`textAtPath?_progress`).

Whatever configurations the steps see, the outline of the document stays as it is, and so does the text of every scalar that
holds no reference (`kept_settled`).
-/

namespace ServerlessTaint.Reference

open List Yaml
open Yaml (Node)

def resolveAt (s : Sources) (address : Address) (node : Node) : Node :=
  setText (String.ofList (process s ((textOf? address node).getD "").toList)) address node

/-- A document after some steps, each of which resolves the scalar at an address from a configuration
of its own. -/
def settled (s : Sources) (root : Node) (steps : List (Address × Value)) : Node :=
  steps.foldl (fun node step => resolveAt { s with config := step.2 } step.1 node) root

/-- A document has the structure of another one, with the texts of the scalars that hold no
reference. -/
structure Kept (root root' : Node) : Prop where
  outline : root'.outline = root.outline
  texts : ∀ address text, textOf? address root = some text → ¬ HoldsReference text.toList →
    textOf? address root' = some text

/-! ## What a step keeps -/

theorem textOf?_resolveAt (s : Sources) (a b : Address) (node : Node) :
    textOf? b (resolveAt s a node) =
      if a = b then (textOf? b node).map fun text => String.ofList (process s text.toList) else textOf? b node := by
  rw [resolveAt, textOf?_setText]
  split
  · rename_i hab
    subst hab
    cases textOf? a node <;> rfl
  · rfl

theorem Kept.refl (root : Node) : Kept root root := ⟨rfl, fun _ _ htext _ => htext⟩

variable {root : Node} {s : Sources} {r r' : Resolving}

theorem Kept.resolveAt {node : Node} (h : Kept root node) (s : Sources) (a : Address) :
    Kept root (resolveAt s a node) where
  outline := (outline_setText _ a node).trans h.outline
  texts b text htext hno := by
    have hnode := h.texts b text htext hno
    rw [textOf?_resolveAt, hnode]
    split
    · rw [Option.map_some, process_of_no_reference s hno, String.ofList_toList]
    · rfl

/-! ## What a run keeps -/

/-- The structure is kept whatever configurations the steps see. -/
theorem kept_settled (s : Sources) (root : Node) (steps : List (Address × Value)) :
    Kept root (settled s root steps) := by
  -- the invariant of the steps is that the document so far has kept the structure of the first one
  have run : ∀ (steps : List (Address × Value)) (node : Node), Kept root node → Kept root (settled s node steps) := by
    intro steps
    induction steps with
    | nil => exact fun _ h => h
    | cons step steps ih => exact fun node h => ih _ (h.resolveAt _ step.1)
  exact run steps root (.refl root)

theorem visit_eq_ok_iff {v : Visit} :
    visit s r v = .ok r' ↔ ∃ address, v = .text address ∧
      r'.root = resolveAt { s with config := r.config } address r.root ∧
      ofYaml (load r'.root.write) = .ok r'.config := by
  cases v with
  | text address =>
    simp only [visit, Visit.text.injEq, exists_eq_left']
    rw [bind_eq_ok_iff]
    constructor
    · rintro ⟨config, hload, hr⟩
      cases hr
      exact ⟨rfl, hload⟩
    · rintro ⟨hroot, hload⟩
      rw [hroot] at hload
      refine ⟨r'.config, hload, ?_⟩
      obtain ⟨root, config⟩ := r'
      cases hroot
      rfl
  | collectionKey => simp [visit]
  | endless => simp [visit]

/-- The visits of a document are steps that resolve scalars. -/
theorem root_of_visits {visits : List Visit} (h : visits.foldlM (visit s) r = .ok r') :
    ∃ steps, steps.map (fun step => Visit.text step.1) = visits ∧ r'.root = settled s r.root steps := by
  induction visits generalizing r with
  | nil =>
    cases h
    exact ⟨[], rfl, rfl⟩
  | cons v visits ih =>
    rw [foldlM_cons, bind_eq_ok_iff] at h
    obtain ⟨mid, hv, hrest⟩ := h
    obtain ⟨address, rfl, hmid, -⟩ := visit_eq_ok_iff.1 hv
    obtain ⟨steps, hsteps, hroot⟩ := ih hrest
    exact ⟨(address, r.config) :: steps, by rw [map_cons, hsteps], by rw [hroot, hmid]; rfl⟩

/-- A document in any form comes from a document that was resolved. -/
theorem resolved_of_resolvedAs {form : Form} {v : Value} (h : s.resolvedAs form = .ok v) :
    ∃ root', s.resolved = .ok (some root') := by
  cases form with
  | value | text =>
    obtain ⟨root?, hroot, h⟩ := bind_eq_ok_iff.1 h
    obtain ⟨text, hwrite, -⟩ := bind_eq_ok_iff.1 h
    cases root? with
    | none => cases hwrite
    | some root' => exact ⟨root', hroot⟩
  | unrecognized =>
    obtain ⟨root?, -, h⟩ := bind_eq_ok_iff.1 h
    cases h

theorem resolved_of_compose {root' : Node} (hroot : composeFile s.tree s.file = .ok (some root)) :
    s.resolved = .ok (some root') ↔ resolveRoot s root = .ok root' := by
  rw [Sources.resolved, hroot, ok_bind]
  change some <$> resolveRoot s root = _ ↔ _
  cases resolveRoot s root <;> simp [Functor.map, Except.map]

/-- A document that is resolved keeps its structure, and every scalar in which no reference stands on
one line, key or value, keeps its text. The run resolves the scalars in the order of the visits; the
same holds of all steps that resolve scalars, whatever configurations they see. -/
theorem resolvedAs_keeps_structure {s : Sources} {root : Node} {form : Form} {v : Value}
    (hroot : composeFile s.tree s.file = .ok (some root)) (h : s.resolvedAs form = .ok v) :
    ∃ root' steps, s.resolved = .ok (some root') ∧
      steps.map (fun step => Visit.text step.1) = visits root ∧ root' = settled s root steps ∧
      Kept root root' ∧ ∀ others, Kept root (settled s root others) := by
  obtain ⟨root', hresolved⟩ := resolved_of_resolvedAs h
  obtain ⟨r, hrun, hr⟩ := bind_eq_ok_iff.1 ((resolved_of_compose hroot).1 hresolved)
  cases hr
  obtain ⟨steps, hsteps, hsettled⟩ := root_of_visits hrun
  refine ⟨r.root, steps, hresolved, hsteps, hsettled, ?_, kept_settled s root⟩
  rw [hsettled]
  exact kept_settled s root steps

/-- A file with a key, a scalar with a reference to it, and a sequence. -/
def greeting : Sources :=
  .ofFile (FileTree.empty.putFile ["s.yml"] "name: you\nitems: [\"hi $\x7bself:name\x7d\", '$\x7b']\n") "s.yml"

def greetingRoot : Node :=
  .mapping none Yaml.mappingTag false
    [(.scalar none Yaml.textTag .plain "name", .scalar none Yaml.textTag .plain "you"),
      (.scalar none Yaml.textTag .plain "items", .sequence none Yaml.sequenceTag true
        [.scalar none Yaml.textTag .double "hi $\x7bself:name\x7d", .scalar none Yaml.textTag .single "$\x7b"])]

theorem greeting_keeps_structure :
    ∃ root' steps, greeting.resolved = .ok (some root') ∧
      steps.map (fun step => Visit.text step.1) = visits greetingRoot ∧
      root' = settled greeting greetingRoot steps ∧ Kept greetingRoot root' ∧
      ∀ others, Kept greetingRoot (settled greeting greetingRoot others) := by
  have hroot : composeFile greeting.tree greeting.file = .ok (some greetingRoot) :=
    eq_ok_of_toOption (by decide +kernel)
  have hvalue : greeting.resolvedAs .value =
      .ok (.map [("name", .str "you"), ("items", .list [.str "hi you", .str "$\x7b"])]) :=
    eq_ok_of_toOption (by decide +kernel)
  exact resolvedAs_keeps_structure hroot hvalue

/-- The value of a document; null if it has none. -/
def valueOf (node : Node) : Value := node.load.toOption.getD .null

def keysOf (path : List Char) : List String := (Text.splitAt '.' path).map String.ofList

/-- A document with the scalar at an address resolved from the document itself. -/
def settle (s : Sources) (node : Node) (a : Address) : Node :=
  resolveAt { s with config := valueOf node } a node

/-- A document with scalars settled one after the other. -/
def progress (s : Sources) (root : Node) (done : List Address) : Node := done.foldl (settle s) root

/-- The documents on the way while scalars are settled. -/
def stages (s : Sources) : List Address → Node → List Node
  | [], node => [node]
  | a :: rest, node => node :: stages s rest (settle s node a)

/-- No key holds the opening of a reference. -/
def LiteralKeys (root : Node) : Prop :=
  ∀ a text, isKey a root = true → textOf? a root = some text → isResolvedText text = true

theorem literalKeys_iff {root : Node} :
    LiteralKeys root ↔ ∀ a ∈ root.scalars, isKey a root → (textOf? a root).all isResolvedText := by
  constructor
  · intro h a _ hkey
    cases htext : textOf? a root with
    | none => rfl
    | some text => exact h a text hkey htext
  · intro h a text hkey htext
    simpa [htext] using h a (mem_scalars.2 (by rw [htext]; rfl)) hkey

instance (root : Node) : Decidable (LiteralKeys root) := decidable_of_iff' _ literalKeys_iff

theorem progress_append (s : Sources) (root : Node) (done more : List Address) :
    progress s root (done ++ more) = progress s (progress s root done) more := foldl_append

theorem progress_mem_stages (s : Sources) (root : Node) (done more : List Address) :
    progress s root done ∈ stages s (done ++ more) root := by
  induction done generalizing root with
  | nil => cases more <;> simp [progress, stages]
  | cons a done ih => exact mem_cons_of_mem _ (ih (settle s root a))

/-! ## Values of plain documents -/

variable {node : Node}

theorem exists_build_valueOf (h : node.Plain) : ∃ known, node.build [] = .ok (valueOf node, known) := by
  obtain ⟨⟨v, known⟩, hbuild⟩ := exists_build node [] h
  have hload : node.load = .ok v := bind_eq_ok_iff.2 ⟨(v, known), hbuild, rfl⟩
  have hvalue : valueOf node = v := by rw [valueOf, hload]; rfl
  exact ⟨known, by rw [hvalue, hbuild]⟩

theorem load_eq_valueOf (h : node.Plain) : node.load = .ok (valueOf node) := by
  obtain ⟨known, hbuild⟩ := exists_build_valueOf h
  exact bind_eq_ok_iff.2 ⟨_, hbuild, rfl⟩

/-- What a name stands for in the value of a plain document. -/
theorem textAt?_valueOf (h : node.Plain) (name : List Char) :
    textAt? (valueOf node) name =
      ((addressOf? (keysOf (withoutSelf name)) node).bind (textOf? · node)).map String.toList := by
  obtain ⟨known, hbuild⟩ := exists_build_valueOf h
  rw [← text?_getAll h hbuild, textAt?, ← keysOf]
  cases ((valueOf node).getAll (keysOf (withoutSelf name))).toOption with
  | none => rfl
  | some v => cases hv : v.text? <;> simp [hv]

/-! ## One scalar after the other -/

section

variable {s : Sources} {root : Node}

/-- A document on the way: it has the outline of the first one, its paths lead to the same addresses,
its scalars stand at the same addresses, and those that are not settled have the texts that they
had. -/
structure Stage (root : Node) (done : List Address) (node : Node) : Prop where
  outline : node.outline = root.outline
  addresses : ∀ keys, addressOf? keys node = addressOf? keys root
  present : ∀ a, (textOf? a node).isSome = (textOf? a root).isSome
  texts : ∀ a, a ∉ done → textOf? a node = textOf? a root

theorem Stage.refl (root : Node) : Stage root [] root :=
  ⟨rfl, fun _ => rfl, fun _ => rfl, fun _ _ => rfl⟩

variable {node : Node} {a b : Address} {done more before after : List Address}

/-- Settling a further scalar. -/
theorem Stage.settle (hkeys : LiteralKeys root) (h : Stage root done node) (ha : a ∉ done)
    (hscalar : a ∈ root.scalars) :
    Stage root (done ++ [a]) (settle s node a) where
  outline := (outline_setText _ a node).trans h.outline
  addresses keys := by
    rw [← h.addresses keys]
    cases hkey : isKey a node with
    | false => exact addressOf?_setText hkey keys
    | true =>
      -- a key is settled too, but holds nothing to resolve
      obtain ⟨text, htext⟩ := Option.isSome_iff_exists.1 (mem_scalars.1 hscalar)
      rw [← isKey_outline, h.outline, isKey_outline] at hkey
      have hliteral : hasOpening text.toList = false := by
        simpa [isResolvedText] using hkeys a text hkey htext
      have hnode : textOf? a node = some text := by rw [h.texts a ha, htext]
      have hsame : Reference.settle s node a = node := by
        rw [Reference.settle, resolveAt, hnode, Option.getD_some, process_of_no_opening _ hliteral,
          String.ofList_toList, setText_self a node hnode]
      rw [hsame]
  present b := by
    rw [← h.present b, Reference.settle, textOf?_resolveAt]
    split <;> simp
  texts b hb := by
    rw [mem_append, mem_singleton, not_or] at hb
    rw [Reference.settle, textOf?_resolveAt, if_neg (Ne.symm hb.2), h.texts b hb.1]

/-- What holds at the start and is kept by each further scalar holds on the whole way. -/
theorem way_induction {P : List Address → Prop} (start : P [])
    (step : ∀ before a after, root.scalars = before ++ a :: after → P before → P (before ++ [a]))
    (h : root.scalars = done ++ more) : P done := by
  have run : ∀ rest before, P before → root.scalars = before ++ rest ++ more → P (before ++ rest) := by
    intro rest
    induction rest with
    | nil => intro before hbefore _; simpa using hbefore
    | cons a rest ih =>
      intro before hbefore hsplit
      have hnext : P (before ++ [a]) := step before a (rest ++ more) (by simpa using hsplit) hbefore
      simpa using ih (before ++ [a]) hnext (by simpa using hsplit)
  simpa using run done [] start (by simpa using h)

theorem not_mem_before (h : root.scalars = before ++ a :: after) : a ∉ before := by
  have hnodup := nodup_scalars root
  rw [h] at hnodup
  exact fun hmem => (nodup_append.1 hnodup).2.2 a hmem a mem_cons_self rfl

theorem progress_concat (s : Sources) (root : Node) (done : List Address) (a : Address) :
    progress s root (done ++ [a]) = settle s (progress s root done) a :=
  progress_append s root done [a]

/-- Every document on the way is a stage. -/
theorem stage_progress (hkeys : LiteralKeys root) (h : root.scalars = done ++ more) :
    Stage root done (progress s root done) := by
  refine way_induction (P := fun done => Stage root done (progress s root done)) (.refl root) ?_ h
  intro before a after hsplit hstage
  rw [progress_concat]
  exact hstage.settle hkeys (not_mem_before hsplit) (by rw [hsplit]; simp)

theorem Stage.plain (h : Stage root done node) (hroot : root.Plain) : node.Plain := by
  rw [← plain_outline, h.outline, plain_outline]
  exact hroot

/-- A scalar that is not settled keeps its text. -/
theorem textOf?_progress_of_not_mem (h : a ∉ done) (node : Node) :
    textOf? a (progress s node done) = textOf? a node := by
  induction done generalizing node with
  | nil => rfl
  | cons b done ih =>
    rw [mem_cons, not_or] at h
    change textOf? a (progress s (settle s node b) done) = _
    rw [ih h.2, settle, textOf?_resolveAt, if_neg (Ne.symm h.1)]

/-- The final text of a scalar comes from the document as it stood when the scalar was settled. -/
theorem textOf?_progress_scalars (h : root.scalars = before ++ a :: after) :
    textOf? a (progress s root root.scalars) =
      (textOf? a root).map fun text =>
        String.ofList (process { s with config := valueOf (progress s root before) } text.toList) := by
  have hnodup := nodup_scalars root
  rw [h] at hnodup
  have hafter : a ∉ after := (nodup_cons.1 (nodup_append.1 hnodup).2.1).1
  rw [h, progress_append]
  change textOf? a (progress s (settle s (progress s root before) a) after) = _
  rw [textOf?_progress_of_not_mem hafter, settle, textOf?_resolveAt, if_pos rfl,
    textOf?_progress_of_not_mem (not_mem_before h)]

/-- When a scalar is settled, those before it have their final texts and the others those that they had
at the start. -/
theorem textOf?_progress_before (h : root.scalars = before ++ a :: after) (hb : b ∈ root.scalars) :
    textOf? b (progress s root before) =
      if b < a then textOf? b (progress s root root.scalars) else textOf? b root := by
  by_cases hlt : b < a
  · have hbefore := (mem_before_iff h hb).2 hlt
    have hnodup := nodup_scalars root
    rw [h] at hnodup
    have hlater : b ∉ a :: after := fun hmem => (nodup_append.1 hnodup).2.2 b hbefore b hmem rfl
    rw [if_pos hlt, h, progress_append, textOf?_progress_of_not_mem hlater]
  · have hbefore := mt (mem_before_iff h hb).1 hlt
    rw [if_neg hlt, textOf?_progress_of_not_mem hbefore]

/-- What a path leads to when a scalar is settled. -/
theorem textAtPath?_progress (hplain : root.Plain) (hkeys : LiteralKeys root) (h : root.scalars = before ++ a :: after)
    {path : List Char} (hpath : addressOf? (keysOf path) root = some b) (hb : b ∈ root.scalars) :
    textAtPath? (valueOf (progress s root before)) path =
      (if b < a then textOf? b (progress s root root.scalars) else textOf? b root).map String.toList := by
  have hstage : Stage root before (progress s root before) := stage_progress hkeys h
  rw [textAtPath?, textAt?_valueOf (hstage.plain hplain), withoutSelf_self, hstage.addresses, hpath,
    Option.bind_some, textOf?_progress_before h hb]

/-! ## The run -/

/-- If what is written is read back, the run settles the scalars in their order. -/
theorem resolveRoot_eq (hconfig : s.config = valueOf root) (hplain : root.Plain) (hkeys : LiteralKeys root)
    (hread : ∀ node ∈ stages s root.scalars root, load node.write = node.load) :
    resolveRoot s root = .ok (progress s root root.scalars) := by
  -- along the run the configuration is the value of the document as it stands
  have run : (root.scalars.map Visit.text).foldlM (visit s) ⟨root, valueOf root⟩ =
      .ok ⟨progress s root root.scalars, valueOf (progress s root root.scalars)⟩ := by
    refine way_induction
      (P := fun done => (done.map Visit.text).foldlM (visit s) ⟨root, valueOf root⟩ =
        .ok ⟨progress s root done, valueOf (progress s root done)⟩)
      rfl ?_ (append_nil root.scalars).symm
    intro before a after hsplit hbefore
    have hsplit' : root.scalars = (before ++ [a]) ++ after := by rw [hsplit]; simp
    have hmem : progress s root (before ++ [a]) ∈ stages s root.scalars root := by
      rw [hsplit']
      exact progress_mem_stages s root (before ++ [a]) after
    have hload : ofYaml (load (progress s root (before ++ [a])).write) =
        .ok (valueOf (progress s root (before ++ [a]))) := by
      rw [hread _ hmem, load_eq_valueOf ((stage_progress hkeys hsplit').plain hplain)]
      rfl
    have hvisit : visit s ⟨progress s root before, valueOf (progress s root before)⟩ (.text a) =
        .ok ⟨progress s root (before ++ [a]), valueOf (progress s root (before ++ [a]))⟩ :=
      visit_eq_ok_iff.2 ⟨a, rfl, progress_concat s root before a, hload⟩
    rw [map_append, foldlM_append, hbefore, ok_bind, map_singleton, foldlM_cons, hvisit,
      ok_bind]
    rfl
  rw [resolveRoot, visits_eq hplain, hconfig, bind_eq_ok_iff]
  exact ⟨_, run, rfl⟩

/-- If what is written is read back, the value of the resolved document is that of the scalars settled. -/
theorem resolvedValue_eq {root' : Node} (hresolved : s.resolved = .ok (some root')) (hplain : root'.Plain)
    (hread : load root'.write = root'.load) : s.resolvedValue = .ok (valueOf root') := by
  rw [Sources.resolvedValue, hresolved, ok_bind]
  change ofYaml (load root'.write) = _
  rw [hread, load_eq_valueOf hplain]
  rfl

end

end ServerlessTaint.Reference
