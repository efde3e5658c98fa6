import Mathlib.Data.Fintype.EquivFin
import Mathlib.Logic.Relation
import ServerlessTaint.Proofs.Pieces
import ServerlessTaint.Proofs.Settling

/-!
# When resolution is complete

A document is given whose scalars are phrases, with paths that lead to scalars and no cycle among the
references. Then every scalar has a full text, in which every reference is replaced by the full text of
its target (`exists_fullText`). The resolved document has these texts if no closing brace follows a
reference on its line and every reference leads to a scalar that stands before it or is literal. If
braces and commas stand in references only, this condition is necessary too
(`resolution_complete_iff`).
-/

namespace ServerlessTaint.Reference

open Yaml (Node)
open Relation (TransGen)

/-- How the scalars of a document are made of literal texts and references: each is written as a phrase,
whose paths lead to scalars. -/
structure Reading (root : Node) where
  phrase : Address → Phrase
  written : ∀ a ∈ root.scalars, textOf? a root = some (String.ofList (phrase a).render)
  wellFormed : ∀ a ∈ root.scalars, (phrase a).WellFormed
  leads : ∀ a ∈ root.scalars, ∀ path ∈ (phrase a).paths,
    ∃ b ∈ root.scalars, addressOf? (keysOf path) root = some b

namespace Reading

variable {root : Node} (d : Reading root)

/-- A scalar refers to another one. -/
def Refers (a b : Address) : Prop :=
  a ∈ root.scalars ∧ ∃ path ∈ (d.phrase a).paths, addressOf? (keysOf path) root = some b

/-- No scalar refers to itself, directly or through others. -/
def Acyclic : Prop := ∀ a, ¬ TransGen d.Refers a a

/-- The text of a scalar with every reference replaced by the full text of its target. -/
inductive FullText : Address → List Char → Prop
  | intro {a : Address} (ha : a ∈ root.scalars) (target : List Char → Address)
    (value : List Char → List Char)
    (leads : ∀ path ∈ (d.phrase a).paths, addressOf? (keysOf path) root = some (target path))
    (full : ∀ path ∈ (d.phrase a).paths, FullText (target path) (value path)) :
    FullText a ((d.phrase a).fill value)

/-- No reference is followed by a closing brace on its line. -/
def Tidy : Prop := ∀ a ∈ root.scalars, (d.phrase a).Tidy

/-- References lead to scalars that stand before them or that are literal. -/
def Ordered : Prop :=
  ∀ a ∈ root.scalars, ∀ path ∈ (d.phrase a).paths, ∀ b ∈ root.scalars,
    addressOf? (keysOf path) root = some b → b < a ∨ (d.phrase b).paths = []

/-- Braces and commas stand in references only. -/
def Simple : Prop := ∀ a ∈ root.scalars, (d.phrase a).Simple

instance : Decidable d.Tidy := inferInstanceAs (Decidable (∀ a ∈ root.scalars, _))

instance : Decidable d.Ordered := inferInstanceAs (Decidable (∀ a ∈ root.scalars, _))

instance : Decidable d.Simple := inferInstanceAs (Decidable (∀ a ∈ root.scalars, _))

/-- No opening arises where a target is filled in. -/
def Closed : Prop := ∀ a full, d.FullText a full → hasOpening full = false

/-- A document has all full texts. -/
def Filled (root' : Node) : Prop :=
  ∀ a full, d.FullText a full → textOf? a root' = some (String.ofList full)

/-- A resolved document has all full texts, and its value holds no reference. -/
structure Complete (root' : Node) (value : Value) : Prop where
  texts : d.Filled root'
  resolved : ∀ text ∈ textsIn value, isResolvedText text = true

/-! ## Full texts -/

variable {d} {a : Address} {full : List Char}

theorem Refers.mem {b : Address} (h : d.Refers a b) : b ∈ root.scalars := by
  obtain ⟨ha, path, hpath, hb⟩ := h
  obtain ⟨b', hb', hleads⟩ := d.leads a ha path hpath
  rw [hb] at hleads
  cases hleads
  exact hb'

theorem Simple.closed (h : d.Simple) : d.Closed := by
  have hbrace : ∀ {a full}, d.FullText a full → '\x7b' ∉ full := fun hfull => by
    induction hfull with
    | intro ha _ _ _ _ ih => exact Phrase.brace_not_mem_fill (h _ ha) ih
  intro a full hfull
  rw [← Bool.not_eq_true]
  exact fun hopening => hbrace hfull (brace_mem_of_hasOpening hopening)

/-- Among finitely many scalars, references that make no cycle come to an end. -/
theorem Acyclic.wellFounded (h : d.Acyclic) :
    WellFounded fun b a : {a // a ∈ root.scalars} => TransGen d.Refers a.1 b.1 := by
  have : Std.Irrefl fun b a : {a // a ∈ root.scalars} => TransGen d.Refers a.1 b.1 := ⟨fun a => h a.1⟩
  exact Finite.wellFounded_of_trans_of_irrefl _

/-- References along which a number goes down make no cycle. -/
theorem Acyclic.of_rank (rank : Address → Nat)
    (h : ∀ a ∈ root.scalars, ∀ path ∈ (d.phrase a).paths, ∀ b ∈ root.scalars,
      addressOf? (keysOf path) root = some b → rank b < rank a) : d.Acyclic := by
  have hstep : ∀ {a b}, d.Refers a b → rank b < rank a := fun {a b} hrefers => by
    obtain ⟨ha, path, hpath, hleads⟩ := id hrefers
    exact h a ha path hpath b hrefers.mem hleads
  have hchain : ∀ {a b}, TransGen d.Refers a b → rank b < rank a := fun htrans => by
    induction htrans with
    | single hrefers => exact hstep hrefers
    | tail _ hrefers ih => exact (hstep hrefers).trans ih
  exact fun a hcycle => Nat.lt_irrefl _ (hchain hcycle)

/-- Every scalar has a full text. -/
theorem exists_fullText (h : d.Acyclic) (a : {a // a ∈ root.scalars}) : ∃ full, d.FullText a.1 full := by
  induction a using h.wellFounded.induction with
  | _ a ih =>
  have htargets : ∀ path, ∃ b value, path ∈ (d.phrase a.1).paths →
      addressOf? (keysOf path) root = some b ∧ d.FullText b value := by
    intro path
    by_cases hpath : path ∈ (d.phrase a.1).paths
    · obtain ⟨b, hb, hleads⟩ := d.leads a.1 a.2 path hpath
      obtain ⟨value, hvalue⟩ := ih ⟨b, hb⟩ (.single ⟨a.2, path, hpath, hleads⟩)
      exact ⟨b, value, fun _ => ⟨hleads, hvalue⟩⟩
    · exact ⟨[], [], fun h => absurd h hpath⟩
  choose target value hboth using htargets
  exact ⟨_, .intro a.2 target value (fun path h => (hboth path h).1) fun path h => (hboth path h).2⟩

/-- A scalar has only one full text. -/
theorem FullText.unique {full' : List Char} (h : d.FullText a full) (h' : d.FullText a full') : full = full' := by
  induction h generalizing full' with
  | intro _ target value leads _ ih =>
    cases h' with
    | intro _ target' value' leads' full' =>
      refine Phrase.fill_congr fun path hpath => ih path hpath ?_
      have htarget : target path = target' path :=
        Option.some.inj ((leads path hpath).symm.trans (leads' path hpath))
      rw [htarget]
      exact full' path hpath

theorem FullText.eq_render (h : d.FullText a full) (hpaths : (d.phrase a).paths = []) : full = (d.phrase a).render := by
  cases h with
  | intro => exact Phrase.fill_of_no_paths hpaths _

/-! ## What a scalar is made from -/

section

variable {s : Sources}

/-- The text of the target of a path at the moment at which a scalar is settled. -/
def seen (s : Sources) (root : Node) (a : Address) (path : List Char) : List Char :=
  match addressOf? (keysOf path) root with
  | some b => ((if b < a then textOf? b (progress s root root.scalars) else textOf? b root).getD "").toList
  | none => []

variable {a b : Address} {path : List Char} {before after : List Address}

theorem seen_of_lt {text : List Char} (hpath : addressOf? (keysOf path) root = some b) (hlt : b < a)
    (htext : textOf? b (progress s root root.scalars) = some (String.ofList text)) : seen s root a path = text := by
  simp [seen, hpath, hlt, htext]

theorem seen_of_not_lt (d : Reading root) (hpath : addressOf? (keysOf path) root = some b) (hlt : ¬ b < a)
    (hb : b ∈ root.scalars) : seen s root a path = (d.phrase b).render := by
  simp [seen, hpath, hlt, d.written b hb]

variable (hplain : root.Plain) (hkeys : LiteralKeys root)

include hkeys

theorem stage_final : Stage root root.scalars (progress s root root.scalars) :=
  stage_progress hkeys (List.append_nil root.scalars).symm

include hplain

/-- The final text of a scalar comes from its phrase and a configuration in which the paths of the phrase
lead to the texts that are seen from it. -/
theorem exists_settling (ha : a ∈ root.scalars) : ∃ before after,
    root.scalars = before ++ a :: after ∧
    textOf? a (progress s root root.scalars) = some (String.ofList
      (process { s with config := valueOf (progress s root before) } (d.phrase a).render)) ∧
    ∀ path ∈ (d.phrase a).paths,
      textAtPath? (valueOf (progress s root before)) path = some (seen s root a path) := by
  obtain ⟨before, after, hsplit⟩ := List.append_of_mem ha
  refine ⟨before, after, hsplit, ?_, ?_⟩
  · rw [textOf?_progress_scalars hsplit, d.written a ha, Option.map_some, String.toList_ofList]
  · intro path hpath
    obtain ⟨b, hb, hleads⟩ := d.leads a ha path hpath
    have hroot := mem_scalars.1 hb
    have hfinal := (stage_final (s := s) hkeys).present b
    rw [hroot] at hfinal
    obtain ⟨first, hfirst⟩ := Option.isSome_iff_exists.1 hroot
    obtain ⟨last, hlast⟩ := Option.isSome_iff_exists.1 hfinal
    rw [textAtPath?_progress hplain hkeys hsplit hleads hb]
    by_cases hlt : b < a <;> simp [seen, hleads, hlt, hfirst, hlast]

theorem textOf?_of_tidy (ha : a ∈ root.scalars) (htidy : (d.phrase a).Tidy) :
    textOf? a (progress s root root.scalars) = some (String.ofList ((d.phrase a).fill (seen s root a))) := by
  obtain ⟨before, after, -, htext, hpaths⟩ := exists_settling (s := s) (d := d) hplain hkeys ha
  rw [htext, process_render _ (d.wellFormed a ha) htidy hpaths]

/-! ## Sufficiency -/

/-- In a tidy document in which references lead back or to literals, every scalar gets its full text. -/
theorem filled_of_ordered (htidy : d.Tidy) (hordered : d.Ordered) : d.Filled (progress s root root.scalars) := by
  intro a full h
  induction h with
  | @intro a ha target value leads full ih =>
    rw [textOf?_of_tidy hplain hkeys ha (htidy a ha)]
    refine congrArg (fun cs => some (String.ofList cs)) (Phrase.fill_congr fun path hpath => ?_)
    have hrefers : d.Refers a (target path) := ⟨ha, path, hpath, leads path hpath⟩
    by_cases hlt : target path < a
    · exact seen_of_lt (leads path hpath) hlt (ih path hpath)
    · -- the target comes later, but has nothing to resolve
      have hliteral := (hordered a ha path hpath _ hrefers.mem (leads path hpath)).resolve_left hlt
      rw [seen_of_not_lt d (leads path hpath) hlt hrefers.mem, (full path hpath).eq_render hliteral]

omit hplain hkeys in
theorem Filled.no_opening {root' : Node} (h : d.Filled root') (hacyclic : d.Acyclic) (hclosed : d.Closed)
    (ha : a ∈ root.scalars) {cs : List Char} (htext : textOf? a root' = some (String.ofList cs)) :
    hasOpening cs = false := by
  obtain ⟨full, hfull⟩ := exists_fullText hacyclic ⟨a, ha⟩
  rw [h a full hfull] at htext
  have heq : full = cs := String.ofList_injective (Option.some.inj htext)
  rw [← heq]
  exact hclosed a full hfull

/-- A document with all full texts has a value without references, if no opening arises. -/
theorem Filled.complete (h : d.Filled (progress s root root.scalars)) (hacyclic : d.Acyclic)
    (hclosed : d.Closed) : d.Complete (progress s root root.scalars) (valueOf (progress s root root.scalars)) := by
  refine ⟨h, fun text htext => ?_⟩
  have hstage := stage_final (s := s) hkeys
  have hfinal := hstage.plain hplain
  obtain ⟨_, hbuild⟩ := exists_build_valueOf hfinal
  obtain ⟨a, ha⟩ := exists_textOf?_of_mem_textsIn _ hfinal hbuild htext
  have hscalar : a ∈ root.scalars := by rw [mem_scalars, ← hstage.present a, ha]; rfl
  have hopening : hasOpening text.toList = false :=
    h.no_opening hacyclic hclosed hscalar (by rw [ha, String.ofList_toList])
  simp [isResolvedText, hopening]

/-! ## Necessity -/

omit hplain hkeys in
theorem opensSelf_textAt? {node : Node} (hnode : node.Plain)
    (h : ∀ b text, textOf? b node = some text → OpensSelf text.toList) (name text : List Char)
    (htext : textAt? (valueOf node) name = some text) : OpensSelf text := by
  rw [textAt?_valueOf hnode, Option.map_eq_some_iff] at htext
  obtain ⟨found, hfound, rfl⟩ := htext
  obtain ⟨c, -, hc⟩ := Option.bind_eq_some_iff.1 hfound
  exact h c found hc

/-- Along the run, every opening brace of a simple document begins a reference to the document. -/
theorem opensSelf_progress (hsimple : d.Simple) (h : root.scalars = before ++ after) :
    ∀ b text, textOf? b (progress s root before) = some text → OpensSelf text.toList := by
  refine way_induction
    (P := fun done => ∀ b text, textOf? b (progress s root done) = some text → OpensSelf text.toList)
    ?_ ?_ h
  · intro b text htext
    have hb : b ∈ root.scalars := mem_scalars.2 (by rw [show textOf? b root = some text from htext]; rfl)
    have hwritten : some text = some (String.ofList (d.phrase b).render) := htext.symm.trans (d.written b hb)
    rw [Option.some.inj hwritten, String.toList_ofList]
    exact Phrase.opensSelf_render (hsimple b hb)
  · intro before a after hsplit ih b text htext
    have ha : a ∈ root.scalars := by rw [hsplit]; simp
    rw [progress_concat, settle, textOf?_resolveAt] at htext
    split at htext
    · rename_i hab
      subst hab
      rw [textOf?_progress_of_not_mem (not_mem_before hsplit), d.written a ha, Option.map_some] at htext
      cases htext
      rw [String.toList_ofList, String.toList_ofList]
      exact opensSelf_process _ (opensSelf_textAt? ((stage_progress hkeys hsplit).plain hplain) ih) _
        (Phrase.opensSelf_render (hsimple a ha))
        (Phrase.comma_not_mem_render (d.wellFormed a ha) (hsimple a ha))
    · exact ih b text htext

/-- No path with a closing brace leads anywhere in a simple document. -/
theorem textAt?_of_brace (hsimple : d.Simple) (h : root.scalars = before ++ after) {name : List Char}
    (hname : '\x7d' ∈ withoutSelf name) : textAt? (valueOf (progress s root before)) name = none := by
  have hstage : Stage root before (progress s root before) := stage_progress hkeys h
  rw [textAt?_valueOf (hstage.plain hplain), hstage.addresses]
  cases haddress : addressOf? (keysOf (withoutSelf name)) root with
  | none => rfl
  | some b =>
    obtain ⟨piece, hpiece, hbrace⟩ := Text.exists_mem_splitAt hname (show '\x7d' ≠ '.' by decide)
    obtain ⟨c, hkey, htext⟩ := exists_key_of_addressOf? haddress (List.mem_map_of_mem hpiece)
    have hc : c ∈ root.scalars := mem_scalars.2 (by rw [htext]; rfl)
    have hrender : (d.phrase c).render = piece := by
      have := (d.written c hc).symm.trans htext
      exact String.ofList_injective (Option.some.inj this)
    have hliteral : hasOpening (d.phrase c).render = false := by
      simpa [hrender, isResolvedText] using hkeys c _ hkey htext
    have hpaths := (Phrase.paths_eq_nil_iff (d.wellFormed c hc)).2 hliteral
    exact absurd (hrender ▸ hbrace) (Phrase.brace_not_mem_render (hsimple c hc) hpaths)

/-- A reference that a closing brace follows would stay. -/
theorem Filled.tidy (h : d.Filled (progress s root root.scalars)) (hacyclic : d.Acyclic)
    (hsimple : d.Simple) : d.Tidy := by
  intro a ha
  by_contra huntidy
  obtain ⟨before, after, hsplit, htext, hpaths⟩ := exists_settling (s := s) (d := d) hplain hkeys ha
  -- at that moment the texts and the keys are such that a reference stays
  have hopening := hasOpening_process_of_untidy { s with config := valueOf (progress s root before) }
    (opensSelf_textAt? ((stage_progress hkeys hsplit).plain hplain)
      (opensSelf_progress hplain hkeys hsimple hsplit))
    (fun name hname => textAt?_of_brace hplain hkeys hsimple hsplit hname)
    (d.wellFormed a ha) (hsimple a ha) (fun path hpath => by rw [hpaths path hpath]; rfl) huntidy
  rw [h.no_opening hacyclic hsimple.closed ha htext] at hopening
  cases hopening

/-- A reference to a later scalar that is not literal would be replaced by one that stays. -/
theorem Filled.ordered (h : d.Filled (progress s root root.scalars)) (hacyclic : d.Acyclic)
    (hclosed : d.Closed) (htidy : d.Tidy) : d.Ordered := by
  intro a ha path hpath b hb hleads
  by_cases hlt : b < a
  · exact .inl hlt
  · refine .inr ((Phrase.paths_eq_nil_iff (d.wellFormed b hb)).2 ?_)
    rw [← Bool.not_eq_true]
    intro hopening
    rw [← seen_of_not_lt (s := s) d hleads hlt hb] at hopening
    have hfill := Phrase.hasOpening_fill hpath hopening
    rw [h.no_opening hacyclic hclosed ha (textOf?_of_tidy hplain hkeys ha (htidy a ha))] at hfill
    cases hfill

end

end Reading

/-! ## The condition for complete resolution -/

open Reading in
/-- Resolution of a document whose scalars are phrases, with paths that lead to scalars and no cycle among
the references. It gives a result. Every scalar of it has its full text if no closing brace follows a
reference on its line and every reference leads to a scalar that stands before it or is literal. If braces
and commas stand in references only, it is complete in no other case. The documents met on the way have
to be read back as they are written. -/
theorem resolution_complete_iff {s : Sources} {root : Node} (d : Reading root)
    (hroot : composeFile s.tree s.file = .ok (some root)) (hconfig : root.load = .ok s.config)
    (halias : root.aliases = []) (hkeys : LiteralKeys root) (hacyclic : d.Acyclic)
    (hread : ∀ node ∈ stages s root.scalars root, Yaml.load node.write = node.load) :
    (∀ a ∈ root.scalars, ∃! full, d.FullText a full) ∧
    ∃ root' value, s.resolved = .ok (some root') ∧ s.resolvedValue = .ok value ∧ root'.load = .ok value ∧
      (d.Tidy ∧ d.Ordered → d.Filled root' ∧ (d.Closed → d.Complete root' value)) ∧
      (d.Simple → (d.Complete root' value ↔ d.Tidy ∧ d.Ordered)) := by
  obtain ⟨⟨_, _⟩, hbuild, -⟩ := bind_eq_ok_iff.1 hconfig
  have hplain : root.Plain := Yaml.plain_of_build root halias hbuild
  have hvalue : s.config = valueOf root := by rw [valueOf, hconfig]; rfl
  have hresolved : s.resolved = .ok (some (progress s root root.scalars)) :=
    (resolved_of_compose hroot).2 (resolveRoot_eq hvalue hplain hkeys hread)
  have hfinal : (progress s root root.scalars).Plain := (stage_final hkeys).plain hplain
  have hlast : progress s root root.scalars ∈ stages s root.scalars root := by
    simpa using progress_mem_stages s root root.scalars []
  have hfilled (h : d.Tidy ∧ d.Ordered) : d.Filled (progress s root root.scalars) :=
    filled_of_ordered hplain hkeys h.1 h.2
  refine ⟨fun a ha => ?_, _, _, hresolved, resolvedValue_eq hresolved hfinal (hread _ hlast),
    load_eq_valueOf hfinal, fun h => ⟨hfilled h, (hfilled h).complete hplain hkeys hacyclic⟩,
    fun hsimple =>
      ⟨fun hcomplete => ?_, fun h => (hfilled h).complete hplain hkeys hacyclic hsimple.closed⟩⟩
  · obtain ⟨full, hfull⟩ := exists_fullText hacyclic ⟨a, ha⟩
    exact ⟨full, hfull, fun _ hother => hother.unique hfull⟩
  · have htidy := hcomplete.texts.tidy hplain hkeys hacyclic hsimple
    exact ⟨htidy, hcomplete.texts.ordered hplain hkeys hacyclic hsimple.closed htidy⟩

/-! Three entries, of which each refers to the one before: read in their order all references are resolved,
and in the opposite order they are not. -/

def linesText (entries : List (String × Phrase)) : String :=
  String.join (entries.map fun e => e.1 ++ ": " ++ String.ofList e.2.render ++ "\n")

/-- The document of a key and a phrase on each line. -/
def linesRoot (entries : List (String × Phrase)) : Node :=
  .mapping none Yaml.mappingTag false (entries.map fun e =>
    (.scalar none Yaml.textTag .plain e.1, .scalar none Yaml.textTag .plain (String.ofList e.2.render)))

def linesPhrase (entries : List (String × Phrase)) : Address → Phrase
  | [n] =>
    match entries[n / 2]? with
    | some e => if n % 2 = 0 then .literal e.1.toList else e.2
    | none => .literal []
  | _ => .literal []

def linesSources (entries : List (String × Phrase)) : Sources :=
  .ofFile (FileTree.empty.putFile ["s.yml"] (linesText entries)) "s.yml"

/-- A value and two references, one to the other. -/
def chain : List (String × Phrase) :=
  [("c", .literal "v".toList), ("b", .reference [] "c".toList (.literal [])),
    ("a", .reference "x ".toList "b".toList (.literal " y".toList))]

def chainReading : Reading (linesRoot chain) where
  phrase := linesPhrase chain
  written := by decide
  wellFormed := by decide
  leads := by decide

def reversedChainReading : Reading (linesRoot chain.reverse) where
  phrase := linesPhrase chain.reverse
  written := by decide
  wellFormed := by decide
  leads := by decide

/-- What is written is read back, if this can be evaluated. -/
theorem read_back_of_toOption {nodes : List Node}
    (h : ∀ node ∈ nodes, (Yaml.load node.write).toOption = some (valueOf node) ∧
      node.load.toOption = some (valueOf node)) : ∀ node ∈ nodes, Yaml.load node.write = node.load := by
  intro node hnode
  obtain ⟨hwrite, hnode⟩ := h node hnode
  exact (eq_ok_of_toOption hwrite).trans (eq_ok_of_toOption hnode).symm

theorem chain_complete_in_order_only :
    (∃ root' value, (linesSources chain).resolved = .ok (some root') ∧
      (linesSources chain).resolvedValue = .ok value ∧ chainReading.Complete root' value) ∧
    ∃ root' value, (linesSources chain.reverse).resolved = .ok (some root') ∧
      (linesSources chain.reverse).resolvedValue = .ok value ∧ ¬ reversedChainReading.Complete root' value := by
  constructor
  · obtain ⟨-, root', value, hresolved, hvalue, -, -, hcomplete⟩ :=
      resolution_complete_iff (s := linesSources chain) chainReading
        (eq_ok_of_toOption (by decide +kernel)) (eq_ok_of_toOption (by decide +kernel)) rfl (by decide)
        (.of_rank (fun a => a.headD 0) (by decide)) (read_back_of_toOption (by decide +kernel))
    exact ⟨root', value, hresolved, hvalue, (hcomplete (by decide)).2 (by decide)⟩
  · obtain ⟨-, root', value, hresolved, hvalue, -, -, hcomplete⟩ :=
      resolution_complete_iff (s := linesSources chain.reverse) reversedChainReading
        (eq_ok_of_toOption (by decide +kernel)) (eq_ok_of_toOption (by decide +kernel)) rfl (by decide)
        (.of_rank (fun a => 6 - a.headD 0) (by decide)) (read_back_of_toOption (by decide +kernel))
    refine ⟨root', value, hresolved, hvalue, fun h => ?_⟩
    exact absurd ((hcomplete (by decide)).1 h).2 (by decide)

end ServerlessTaint.Reference
