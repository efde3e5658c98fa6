import ServerlessTaint.Proofs.EnvironmentValues
import ServerlessTaint.Proofs.Keyed
import ServerlessTaint.Proofs.ReferencePaths

/-!
# Variables that no environment has

The environment of a handler or of the provider may be a map from names to texts. A variable that is not among the
names is looked for all the same: the first reference in the displayed map, which stands in a name or in the text of
some other variable, is taken for one to the section that holds the environment. So the variable has no value if and
only if no such reference leads to one (`undefined_variable_null_iff`).

The displayed form of a map shows its keys and texts in quotes, with escapes. No escape makes a reference, so it has the
references of the keys and texts in their order, and no others (`paths_display_ofTexts`).
-/

namespace ServerlessTaint

open List Text

namespace Text

/-! ## Word characters are printable -/

variable {c : Char}

theorem isPrintable_of_isWord (h : isWord c) : isPrintable c := by
  have hascii : ∀ n < 128, isWord (Char.ofNat n) = true → isPrintable (Char.ofNat n) := by
    decide +kernel
  by_cases hsmall : c.toNat < 128
  · rw [← Char.ofNat_toNat c] at h ⊢
    exact hascii _ hsmall h
  · rw [isPrintable, if_neg hsmall, h]
    rfl

/-! ## Quotes -/

theorem dollar_not_mem_toDigits (n : Nat) : '$' ∉ Nat.toDigits 16 n := by
  have hdigit : ∀ d, '$' ∉ [Nat.digitChar d] := by
    simp
  induction n using Nat.strongRecOn with
  | ind n ih =>
    rw [Nat.toDigits_eq_if (by decide)]
    split
    · exact hdigit n
    · rw [mem_append, not_or]
      exact ⟨ih _ (by omega), hdigit _⟩

theorem dollar_not_mem_hexDigits (width n : Nat) : '$' ∉ hexDigits width n := by
  rw [hexDigits, mem_append, not_or]
  refine ⟨fun hmem => ?_, dollar_not_mem_toDigits n⟩
  exact absurd (eq_of_mem_replicate hmem) (by decide)

/-- The characters show a character as itself, or by an escape without a dollar sign. -/
def Shows (c : Char) (cs : List Char) : Prop :=
  cs = [c] ∨ ∃ escape : List Char, cs = '\\' :: escape ∧ '$' ∉ escape

theorem shows_quoteChar {quote : Char} (hquote : quote ≠ '$') (c : Char) : Shows c (quoteChar quote c) := by
  have hescape : ∀ escape : List Char, '$' ∉ escape → Shows c ('\\' :: escape) :=
    fun escape h => .inr ⟨escape, rfl, h⟩
  have hhex : ∀ (letter : Char) (width : Nat), letter ≠ '$' → Shows c ('\\' :: letter :: hexDigits width c.toNat) := by
    intro letter width hletter
    refine hescape _ fun hmem => ?_
    rcases mem_cons.1 hmem with heq | hmem
    · exact hletter heq.symm
    · exact dollar_not_mem_hexDigits _ _ hmem
  refine iteInduction (fun hc => hescape [c] ?_) fun _ => ?_
  · rw [mem_singleton]
    rintro rfl
    simp only [Bool.or_eq_true, beq_iff_eq] at hc
    exact hc.elim (fun h => hquote h.symm) (by decide)
  · refine iteInduction (fun _ => hescape _ (by decide)) fun _ => ?_
    refine iteInduction (fun _ => hescape _ (by decide)) fun _ => ?_
    refine iteInduction (fun _ => hescape _ (by decide)) fun _ => ?_
    refine iteInduction (fun _ => .inl rfl) fun _ => ?_
    refine iteInduction (fun _ => hhex 'x' 2 (by decide)) fun _ => ?_
    exact iteInduction (fun _ => hhex 'u' 4 (by decide)) fun _ => hhex 'U' 8 (by decide)

/-- A printable character other than the quote and the backslash is shown as itself. -/
theorem quoteChar_of_isPrintable {quote : Char} (hquote : c ≠ quote) (hslash : c ≠ '\\') (hc : isPrintable c) :
    quoteChar quote c = [c] := by
  have hline : ∀ d ∈ ['\n', '\r', '\t'], c ≠ d := by
    rintro d hd rfl
    have hnot : ∀ d ∈ ['\n', '\r', '\t'], isPrintable d = false := by simp [isPrintable]
    rw [hnot c hd] at hc
    cases hc
  simp [quoteChar, hquote, hslash, hline, hc]

/-- The quotes in which a text is shown. -/
theorem quoteFor_cases (cs : List Char) : quoteFor cs = '\'' ∨ quoteFor cs = '"' := by
  unfold quoteFor
  split
  · exact .inr rfl
  · exact .inl rfl

end Text

namespace Reference

open Text (quoteChar)

/-! ## References in quotes -/

theorem isPrintable_of_isReferenceChar {c : Char} (h : isReferenceChar c) : isPrintable c := by
  have hothers : ∀ d ∈ ['.', '-', '$', '\x7b', ':', '\x7d'], isPrintable d = true :=
    all_eq_true.1 (by decide)
  rw [isReferenceChar, isPathChar] at h
  simp only [Bool.or_eq_true, beq_iff_eq, contains_iff_mem] at h
  rcases h with ((hword | rfl) | rfl) | hmem
  · exact isPrintable_of_isWord hword
  · decide
  · decide
  · exact hothers c (mem_cons_of_mem _ (mem_cons_of_mem _ hmem))

section

variable {quote : Char} (hquote : quote = '\'' ∨ quote = '"')

include hquote

theorem quoteChar_of_isReferenceChar {c : Char} (h : isReferenceChar c) : quoteChar quote c = [c] := by
  refine quoteChar_of_isPrintable ?_ ?_ (isPrintable_of_isReferenceChar h)
  · rintro rfl
    rcases hquote with rfl | rfl <;> exact absurd h (by decide)
  · rintro rfl
    exact absurd h (by decide)

/-- Shown characters among which is no backslash are those of the text. -/
theorem exists_append_of_flatMap_quoteChar {cs start rest : List Char} (hstart : '\\' ∉ start)
    (h : cs.flatMap (quoteChar quote) = start ++ rest) : ∃ more : List Char, cs = start ++ more := by
  have hdollar : quote ≠ '$' := by
    rcases hquote with rfl | rfl <;> decide
  induction start generalizing cs with
  | nil => exact ⟨cs, rfl⟩
  | cons d start ih =>
    rw [mem_cons, not_or] at hstart
    cases cs with
    | nil => cases h
    | cons c cs =>
      rw [flatMap_cons] at h
      rcases shows_quoteChar hdollar c with hself | ⟨escape, hescape, -⟩
      · rw [hself] at h
        obtain ⟨rfl, htail⟩ := cons.inj h
        obtain ⟨more, rfl⟩ := ih hstart.2 htail
        exact ⟨more, rfl⟩
      · rw [hescape] at h
        exact absurd (cons.inj h).1 hstart.1

theorem pathAt?_flatMap_quoteChar (cs : List Char) : pathAt? (cs.flatMap (quoteChar quote)) = pathAt? cs := by
  apply Option.ext
  intro path
  rw [pathAt?_eq_some_iff, pathAt?_eq_some_iff]
  refine and_congr_right fun hpath => ?_
  have hslash : '\\' ∉ mention path := fun hmem =>
    absurd (hpath.isReferenceChar_of_mem hmem) (by decide)
  constructor
  · rintro ⟨rest, heq⟩
    exact exists_append_of_flatMap_quoteChar hquote hslash heq
  · rintro ⟨rest, rfl⟩
    have hshown : (mention path).flatMap (quoteChar quote) = mention path := by
      have hself : ∀ c ∈ mention path, quoteChar quote c = [c] := fun c hc =>
        quoteChar_of_isReferenceChar hquote (hpath.isReferenceChar_of_mem hc)
      rw [flatMap_def, map_congr_left hself, ← flatMap_def]
      exact flatMap_singleton' _
    exact ⟨rest.flatMap (quoteChar quote), by rw [flatMap_append, hshown]⟩

theorem paths_flatMap_quoteChar (cs : List Char) : paths (cs.flatMap (quoteChar quote)) = paths cs := by
  have hdollar : quote ≠ '$' := by
    rcases hquote with rfl | rfl <;> decide
  induction cs with
  | nil => rfl
  | cons c cs ih =>
    have hat := pathAt?_flatMap_quoteChar hquote (c :: cs)
    rw [flatMap_cons] at hat ⊢
    rcases shows_quoteChar hdollar c with hself | ⟨escape, hescape, hmem⟩
    · rw [hself] at hat ⊢
      rw [singleton_append] at hat ⊢
      rw [paths, hat, ih, paths]
    · have hc : c ≠ '$' := by
        rintro rfl
        rw [quoteChar_of_isReferenceChar hquote (by decide)] at hescape
        cases hescape
      rw [hescape, paths_append_of_no_dollar (by simpa using hmem), ih, paths, pathAt?_cons_of_ne hc]
      rfl

end

/-- A text in quotes has the references of the text, whatever follows. -/
theorem paths_quoted_append (text : String) (rest : List Char) :
    paths ((quoted text).toList ++ rest) = paths text.toList ++ paths rest := by
  have hquote := quoteFor_cases text.toList
  have hshown : (quoted text).toList ++ rest = [quoteFor text.toList] ++
      (text.toList.flatMap (quoteChar (quoteFor text.toList)) ++ quoteFor text.toList :: rest) := by
    simp [quoted, quote]
  rw [hshown]
  generalize quoteFor text.toList = quote at hquote
  have hno : '$' ∉ [quote] := by
    rcases hquote with rfl | rfl <;> decide
  have hends : isReferenceChar quote = false := by
    rcases hquote with rfl | rfl <;> decide
  rw [paths_append_of_no_dollar hno, paths_append _ hends, paths_flatMap_quoteChar hquote]
  exact congrArg _ (paths_append_of_no_dollar hno rest)

/-! ## References in maps -/

def ofTexts (texts : List (String × String)) : Value := .map (texts.map fun e => (e.1, .str e.2))

def pathsOfTexts (texts : List (String × String)) : List (List Char) :=
  texts.flatMap fun e => paths e.1.toList ++ paths e.2.toList

theorem paths_inlineEntry_append (e : String × String) (rest : List Char) :
    paths ((quoted e.1 ++ ": " ++ (Value.str e.2).inline).toList ++ rest) =
      paths e.1.toList ++ paths e.2.toList ++ paths rest := by
  rw [Value.inline, String.toList_append, String.toList_append, append_assoc, append_assoc,
    paths_quoted_append, paths_append_of_no_dollar (by decide), paths_quoted_append, append_assoc]

theorem paths_inlineEntries (texts : List (String × String)) (rest : List Char) :
    paths ((Value.inlineEntries (texts.map fun e => (e.1, .str e.2))).toList ++ rest) =
      pathsOfTexts texts ++ paths rest := by
  induction texts with
  | nil => rfl
  | cons e texts ih =>
    cases texts with
    | nil =>
      rw [map_cons, map_nil, Value.inlineEntries, paths_inlineEntry_append]
      simp [pathsOfTexts]
    | cons e' texts =>
      rw [map_cons, map_cons, Value.inlineEntries]
      · rw [String.toList_append, String.toList_append, append_assoc, append_assoc,
          paths_inlineEntry_append, paths_append_of_no_dollar (by decide)]
        rw [map_cons] at ih
        rw [ih]
        simp [pathsOfTexts]
      · simp

/-- The displayed form of a map has the references of its names and texts, in their order. -/
theorem paths_display_ofTexts (texts : List (String × String)) :
    paths (ofTexts texts).display.toList = pathsOfTexts texts := by
  have hshown : (ofTexts texts).display.toList =
      ['\x7b'] ++ ((Value.inlineEntries (texts.map fun e => (e.1, .str e.2))).toList ++ ['\x7d']) := by
    simp [ofTexts, Value.display, Value.inline]
  have hclose : paths ['\x7d'] = [] := by
    decide
  rw [hshown, paths_append_of_no_dollar (by decide), paths_inlineEntries, hclose, append_nil]

end Reference

namespace Environment

open Reference (ofTexts pathsOfTexts)

/-- A level of the configuration has no environment, or one that gives texts to names. -/
def GivesTexts (level : Except Fault Value) (texts : List (String × String)) : Prop :=
  (∃ fault, level >>= Value.get "environment" = .error fault) ∧ texts = [] ∨
    level >>= Value.get "environment" = .ok (ofTexts texts)

/-- The first reference in names and their texts leads to a section in which a variable has a value. -/
def LeadsTo (config : Value) (texts : List (String × String)) (name : Selector) (v : Value) : Prop :=
  ∃ path, (pathsOfTexts texts).head? = some path ∧
    (config.getAll (Text.splitString '.' (String.ofList path)) >>= name.part) = .ok v

/-- The variable is not among the names. -/
def IsMissing (name : Selector) (texts : List (String × String)) : Prop :=
  ∀ key, name = .key key → key ∉ texts.map (·.1)

theorem IsMissing.part_eq {name : Selector} {texts : List (String × String)} (h : IsMissing name texts) :
    ∃ fault, name.part (ofTexts texts) = .error fault := by
  cases name with
  | key key =>
    rw [Selector.part, ofTexts, Value.get, Keyed.find?_map, Keyed.find?_eq_none_iff.2 (h key rfl)]
    exact ⟨_, rfl⟩
  | index _ | none => exact ⟨_, rfl⟩

section

variable {config : Value} {level : Except Fault Value} {texts : List (String × String)} {name : Selector}

/-- What a level takes from another section is what the first reference leads to. -/
theorem refers_iff (hlevel : GivesTexts level texts) (hname : IsMissing name texts) {v : Value} :
    Refers config level name v ↔ LeadsTo config texts name v := by
  rcases hlevel with ⟨⟨fault, hlevel⟩, rfl⟩ | hlevel
  · constructor
    · rintro ⟨environment, _, _, henvironment, -⟩
      rw [hlevel] at henvironment
      cases henvironment
    · rintro ⟨path, hpath, -⟩
      cases hpath
  · constructor
    · rintro ⟨environment, fault, path, henvironment, -, hpath, hv⟩
      obtain rfl : ofTexts texts = environment := Except.ok.inj (hlevel.symm.trans henvironment)
      rw [Reference.paths_display_ofTexts] at hpath
      exact ⟨path, hpath, hv⟩
    · rintro ⟨path, hpath, hv⟩
      obtain ⟨fault, hfault⟩ := hname.part_eq
      exact ⟨_, fault, path, hlevel, hfault, by rw [Reference.paths_display_ofTexts, hpath], hv⟩

theorem levelValue_eq_null_iff (hlevel : GivesTexts level texts) (hname : IsMissing name texts) :
    levelValue config level name = .null ↔ ∀ v, LeadsTo config texts name v → v = .null := by
  constructor
  · intro h v hv
    rw [← ((refers_iff hlevel hname).2 hv).levelValue_eq, h]
  · intro h
    by_cases hrefers : ∃ v, Refers config level name v
    · obtain ⟨v, hv⟩ := hrefers
      rw [hv.levelValue_eq, h v ((refers_iff hlevel hname).1 hv)]
    · refine levelValue_eq_null (fun environment v henvironment hv => ?_) fun v hv => hrefers ⟨v, hv⟩
      rcases hlevel with ⟨⟨fault, hlevel⟩, -⟩ | hlevel
      · rw [hlevel] at henvironment
        cases henvironment
      · obtain rfl : ofTexts texts = environment := Except.ok.inj (hlevel.symm.trans henvironment)
        obtain ⟨fault, hfault⟩ := hname.part_eq
        rw [hfault] at hv
        cases hv

end

end Environment

open Environment (GivesTexts LeadsTo IsMissing levelValue)

/-- **A variable without a definition has no value unless a reference leads to one.** If the environments of the
handler and of the provider are absent or give texts to names, there is an answer for a variable that neither of them
names. It is null if and only if neither the first reference in the one nor the first reference in the other leads to
a section in which the variable has a value other than null. -/
theorem undefined_variable_null_iff {site : Site} (h : site.Declared) {own shared : List (String × String)}
    (hown : GivesTexts site.handlerInfo own) (hshared : GivesTexts (site.config.get "provider") shared)
    {name : Selector} (hnameOwn : IsMissing name own) (hnameShared : IsMissing name shared) :
    (∃ v, site.variableValue name = .ok v) ∧
      (site.variableValue name = .ok .null ↔ (∀ v, LeadsTo site.config own name v → v = .null) ∧
        ∀ v, LeadsTo site.config shared name v → v = .null) := by
  obtain ⟨info, hinfo⟩ := h.exists_info
  refine ⟨h.exists_value name, ?_⟩
  rw [Site.variableValue_eq hinfo, Except.ok.injEq, ← Environment.levelValue_eq_null_iff hown hnameOwn,
    ← Environment.levelValue_eq_null_iff hshared hnameShared]
  by_cases hnull : levelValue site.config site.handlerInfo name = .null
  · rw [if_pos hnull]
    exact ⟨fun hvalue => ⟨hnull, hvalue⟩, And.right⟩
  · rw [if_neg hnull]
    exact ⟨fun hvalue => absurd hvalue hnull, fun hboth => absurd hboth.1 hnull⟩

/-- A handler with a variable whose text is a reference to a section. -/
def sectionSite : Site where
  config := .map [
    ("functions", .map [("f", .map [("environment", .map [("A", .str "$\x7bself:custom.s\x7d")])])]),
    ("custom", .map [("s", .map [("X", .str "v")])])]
  handler := .str "f"
  program := .error .missingFile

/-- A variable of that section has a value though no environment names it, and one that is nowhere has none. -/
theorem section_gives_undefined_variable :
    IsMissing (.key "X") [("A", "$\x7bself:custom.s\x7d")] ∧
      sectionSite.variableValue (.key "X") = .ok (.str "v") ∧ sectionSite.variableValue (.key "Y") = .ok .null := by
  have hdeclared : sectionSite.Declared := ⟨⟨_, rfl⟩, ⟨_, rfl⟩⟩
  have hown : GivesTexts sectionSite.handlerInfo [("A", "$\x7bself:custom.s\x7d")] := .inr rfl
  have hshared : GivesTexts (sectionSite.config.get "provider") [] := .inl ⟨⟨_, rfl⟩, rfl⟩
  have hmissing : ∀ key, key ≠ "A" → IsMissing (.key key) [("A", "$\x7bself:custom.s\x7d")] := by
    rintro key hkey _ ⟨⟩
    simpa using hkey
  have hpaths : Reference.pathsOfTexts [("A", "$\x7bself:custom.s\x7d")] = ["custom.s".toList] := by
    decide
  have hempty : IsMissing (.key "Y") [] := fun _ _ => List.not_mem_nil
  refine ⟨hmissing "X" (by decide), rfl,
    (undefined_variable_null_iff hdeclared hown hshared (hmissing "Y" (by decide)) hempty).2.2 ⟨?_, ?_⟩⟩
  · rintro v ⟨path, hpath, hv⟩
    rw [hpaths] at hpath
    obtain rfl := Option.some.inj hpath
    cases hv
  · rintro v ⟨path, hpath, -⟩
    cases hpath

end ServerlessTaint
