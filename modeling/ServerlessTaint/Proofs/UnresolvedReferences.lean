import ServerlessTaint.Proofs.FileReferences
import ServerlessTaint.Proofs.Pieces

/-!
# References that lead nowhere

A reference comes to a name when its alternative is chosen and the reference nested in it is resolved. If the name
leads to no text of the configuration, the whole text stays, unless the name is a reference to a value in a file: then
the name in braces is put in the place of the text, without the `$` by which references are told (`unresolved_kept_iff`).
-/

namespace ServerlessTaint.Reference

/-- The value of a configuration file, if the file is there, has one of the extensions and can be read. -/
def contentWith? (reader : String → Option Value) (extensions : List String) (tree : FileTree) (folder name : String) :
    Option Value :=
  if extensions.contains (Path.extension name) then (tree.read (Path.join folder name)).toOption >>= reader else none

namespace Sources

variable (s : Sources)

/-- The value of a file, if the file is there and can be read as its extension says. -/
def content? (relative : String) : Option Value :=
  let path := s.fullPath relative
  if Path.extension relative = ".json" then
    contentWith? Json.read? [".json"] s.tree (Path.folder path) (Path.leaf path)
  else if Path.extension relative = ".yml" ∨ Path.extension relative = ".yaml" then
    contentWith? (fun text => (Yaml.load text).toOption) [".yml", ".yaml"] s.tree (Path.folder path) (Path.leaf path)
  else none

/-- A file is missing, cannot be read, or has nothing at a key. -/
def Lacks (path key : List Char) : Prop :=
  ∀ v, s.content? (resolve s.config (String.ofList path)) = some v →
    ∃ fault, v.getAll (Text.splitString '.' (resolve s.config (String.ofList key))) = .error fault

end Sources

theorem loadWith_eq (reader : String → Option Value) (extensions : List String) (tree : FileTree)
    (folder name : String) :
    tree.loadWith reader extensions folder name = (contentWith? reader extensions tree folder name).getD (.map []) := by
  unfold FileTree.loadWith contentWith?
  split
  · cases tree.read (Path.join folder name) <;> rfl
  · rfl

theorem loadFile?_eq (s : Sources) (relative : String) :
    s.loadFile? relative =
      if Path.extension relative = ".json" then
        some (s.tree.loadJson (Path.folder (s.fullPath relative)) (Path.leaf (s.fullPath relative)))
      else if Path.extension relative = ".yml" ∨ Path.extension relative = ".yaml" then
        some (s.tree.loadYaml (Path.folder (s.fullPath relative)) (Path.leaf (s.fullPath relative))) else none := by
  unfold Sources.loadFile?
  split <;> simp_all

/-- A file of no known kind or that cannot be read counts as an empty map. -/
theorem loadFile?_getD (s : Sources) (relative : String) :
    (s.loadFile? relative).getD (.map []) = (s.content? relative).getD (.map []) := by
  rw [loadFile?_eq, Sources.content?]
  by_cases hjson : Path.extension relative = ".json"
  · simp [if_pos hjson, Option.getD_some, FileTree.loadJson, loadWith_eq]
  · by_cases hyaml : Path.extension relative = ".yml" ∨ Path.extension relative = ".yaml"
    · simp [if_neg hjson, if_pos hyaml, Option.getD_some, FileTree.loadYaml, loadWith_eq]
    · simp [if_neg hjson, if_neg hyaml]

/-- Nothing stands at a key of an empty map, so a file that cannot be read has nothing at a key. -/
theorem getAll_getD_empty {keys : List String} (hkeys : keys ≠ []) (content : Option Value) :
    (∀ v, content = some v → ∃ fault, v.getAll keys = .error fault) ↔
      ∃ fault, (content.getD (.map [])).getAll keys = .error fault := by
  cases content with
  | some v => simp
  | none =>
    cases keys with
    | nil => exact absurd rfl hkeys
    | cons key keys => exact iff_of_true (fun v hv => by cases hv) ⟨_, rfl⟩

/-- No value is found exactly if the file of the reference lacks the key. -/
theorem externalValue?_eq_none_iff {s : Sources} {text : List Char} :
    s.externalValue? text = none ↔ ∀ path key, fileValue? text = some (path, key) → s.Lacks path key := by
  rw [Sources.externalValue?]
  cases hfound : fileValue? text with
  | none => simp
  | some reference =>
    obtain ⟨path, key⟩ := reference
    have hkeys : Text.splitString '.' (resolve s.config (String.ofList key)) ≠ [] := by
      simp [Text.splitString, Text.splitAt_ne_nil]
    have hlacks : s.Lacks path key ↔ ∃ fault, ((s.loadFile? (resolve s.config (String.ofList path))).getD
        (.map [])).getAll (Text.splitString '.' (resolve s.config (String.ofList key))) = .error fault := by
      rw [loadFile?_getD]
      exact getAll_getD_empty hkeys _
    rw [← getAll_getD_empty hkeys] at hlacks
    have hall : (∀ path' key', some (path, key) = some (path', key') → s.Lacks path' key') ↔ s.Lacks path key := by
      constructor
      · intro h
        exact h path key rfl
      · rintro h _ _ ⟨⟩
        exact h
    rw [hall, hlacks, Option.bind_eq_bind, Option.bind_some]
    refine Iff.trans Option.bind_eq_none_iff (forall_congr' fun v => imp_congr_right fun _ => ?_)
    cases v.getAll (Text.splitString '.' (resolve s.config (String.ofList key))) <;> simp [Except.toOption]

/-- The first reference of a text comes to a name, and the name leads to no text of the configuration and to no value
of a file. -/
structure Unresolved (s : Sources) (value name : List Char) : Prop where
  named : ∃ found inner, find? value = some found ∧ target found.inner = .named inner ∧ name = unnested s inner
  noText : textAt? s.config name = none
  noValue : ∀ path key, fileValue? (braced name) = some (path, key) → s.Lacks path key

namespace Unresolved

variable {s : Sources} {value name : List Char}

section

variable (h : Unresolved s value name)

include h

theorem hasOpening_eq : hasOpening value := by
  obtain ⟨found, inner, hfound, -, -⟩ := h.named
  apply hasOpening_of_reference
  apply Classical.byContradiction
  intro hno
  rw [find?_eq_none_iff.2 hno] at hfound
  cases hfound

/-- A text whose reference leads nowhere stays, or has the name in braces in its place. -/
theorem process_eq : process s value = if (fileValue? (braced name)).isSome then braced name else value := by
  obtain ⟨found, inner, hfound, hnamed, rfl⟩ := h.named
  rw [process_of_named s hfound hnamed, replaced, h.noText]
  change (if (fileValue? (braced _)).isSome = true then s.fromFile (braced _) else value) = _
  rw [Sources.fromFile, externalValue?_eq_none_iff.2 h.noValue]

theorem process_of_file (hfile : HoldsFileValue (braced name)) : process s value = braced name := by
  rw [h.process_eq, if_pos (fileValue?_isSome_iff.2 hfile)]

theorem process_of_no_file (hfile : ¬HoldsFileValue (braced name)) : process s value = value := by
  rw [h.process_eq, if_neg fun hsome => hfile (fileValue?_isSome_iff.1 hsome)]

end

end Unresolved

theorem isResolved_str_iff {text : String} : isResolved (.str text) ↔ hasOpening text.toList = false := by
  rw [isResolved, isResolvedText, Bool.not_eq_true']

/-- **A reference that leads nowhere stays unless it is one to a file.** There always is an answer. It is the text
itself if and only if the name that the reference comes to is no reference to a value in a file, or is the whole text
but for its braces. And it counts as resolved, which the text does not, if and only if the name is such a reference
and has no opening left in it. -/
theorem unresolved_kept_iff {s : Sources} {value : String} {name : List Char}
    (h : Unresolved s value.toList name) :
    isResolved (.str value) = false ∧ ∃ answer, processValue s (.str value) = .ok answer ∧
      (answer = value ↔ ¬HoldsFileValue (braced name) ∨ value.toList = braced name) ∧
      (isResolved (.str answer) = true ↔ HoldsFileValue (braced name) ∧ hasOpening name = false) := by
  have hvalue : isResolved (.str value) = false := by
    rw [← Bool.not_eq_true, isResolved_str_iff, h.hasOpening_eq]
    decide
  refine ⟨hvalue, String.ofList (process s value.toList), rfl, ?_⟩
  by_cases hfile : HoldsFileValue (braced name)
  · rw [h.process_of_file hfile, isResolved_str_iff, String.toList_ofList, hasOpening_braced]
    refine ⟨?_, by simp [hfile]⟩
    rw [← String.toList_inj, String.toList_ofList, eq_comm]
    simp [hfile]
  · rw [h.process_of_no_file hfile, String.ofList_toList, hvalue]
    simp [hfile]

/-- Sources with neither entries nor other files. -/
def emptySources : Sources := ⟨.empty, "s.yml", .map []⟩

/-- A reference to a file that is missing loses its `$` and counts as resolved. -/
theorem missing_file_counts_as_resolved :
    Unresolved emptySources "a $\x7bfile(m.yml):k\x7d".toList "file(m.yml):k".toList ∧
      processValue emptySources (.str "a $\x7bfile(m.yml):k\x7d") = .ok "\x7bfile(m.yml):k\x7d" ∧
      isResolved (.str "a $\x7bfile(m.yml):k\x7d") = false ∧ isResolved (.str "\x7bfile(m.yml):k\x7d") = true := by
  have hnamed : unnested emptySources "file(m.yml):k".toList = "file(m.yml):k".toList := by
    rw [unnested, find?_of_no_brace (by decide)]
  have hvalue : emptySources.externalValue? (braced "file(m.yml):k".toList) = none := by decide +kernel
  have h : Unresolved emptySources "a $\x7bfile(m.yml):k\x7d".toList "file(m.yml):k".toList :=
    ⟨⟨⟨"a ".toList, "file(m.yml):k".toList, []⟩, "file(m.yml):k".toList, by decide, by decide, hnamed.symm⟩,
      by decide, externalValue?_eq_none_iff.1 hvalue⟩
  have hfile : HoldsFileValue (braced "file(m.yml):k".toList) := fileValue?_isSome_iff.1 (by decide)
  have hopening : hasOpening "file(m.yml):k".toList = false := by decide
  obtain ⟨hvalue, answer, hanswer, -, hresolved⟩ := unresolved_kept_iff h
  have heq : processValue emptySources (.str "a $\x7bfile(m.yml):k\x7d") = .ok "\x7bfile(m.yml):k\x7d" := by
    change Except.ok (String.ofList (process _ _)) = _
    rw [h.process_of_file hfile]
    rfl
  obtain rfl := Except.ok.inj (hanswer.symm.trans heq)
  exact ⟨h, heq, hvalue, hresolved.2 ⟨hfile, hopening⟩⟩

end ServerlessTaint.Reference
