import Mathlib.Data.List.Basic
import ServerlessTaint.Proofs.Phrases

/-!
# References to values in files

A text refers to a value in a file by `{file(path):key}`. The search for such a reference finds one exactly if the
text holds one (`fileValue?_isSome_iff`). A name without braces in braces holds one exactly if it is one
(`holdsFileValue_braced_iff`).
-/

namespace ServerlessTaint.Reference

open List

/-- The characters between the path and the key of a reference to a value in a file. -/
def keyOpening : List Char := "):".toList

/-- A path and a key of a reference to a value in a file: both are there, on one line. -/
def IsFileKey (path key : List Char) : Prop := path ≠ [] ∧ key ≠ [] ∧ '\n' ∉ path ∧ '\n' ∉ key

/-- Somewhere in the text `{file(`, a path, `):`, a key and `}` stand on one line, in this order. -/
def HoldsFileValue (cs : List Char) : Prop :=
  ∃ before path key after : List Char, IsFileKey path key ∧
    cs = before ++ (fileOpening ++ path ++ keyOpening ++ key ++ '\x7d' :: after)

def braced (name : List Char) : List Char := '\x7b' :: name ++ ['\x7d']

def IsFileValue (name : List Char) : Prop :=
  ∃ path key : List Char, IsFileKey path key ∧ name = "file(".toList ++ path ++ keyOpening ++ key

/-! ## Places of other characters -/

variable {cs after name : List Char}

theorem mem_splits_iff {separator before : List Char} (h : separator ≠ []) :
    (before, after) ∈ splits separator cs ↔ cs = before ++ separator ++ after := by
  induction cs generalizing before with
  | nil => simp [splits, h]
  | cons c rest ih =>
    have hhere : (before, after) ∈ (if separator.isPrefixOf (c :: rest) = true
          then [([], (c :: rest).drop separator.length)] else []) ↔
        before = [] ∧ c :: rest = separator ++ after := by
      split
      · rename_i hprefix
        obtain ⟨tail, htail⟩ := isPrefixOf_iff_prefix.1 hprefix
        rw [← htail, drop_left, mem_singleton, Prod.mk.injEq, append_cancel_left_eq, eq_comm (a := after)]
      · rename_i hprefix
        simp only [not_mem_nil, false_iff, not_and]
        intro _ heq
        exact hprefix ( isPrefixOf_iff_prefix.2 ⟨after, heq.symm⟩)
    rw [splits, mem_append, hhere]
    cases before with
    | nil => simp
    | cons d before =>
      simp only [mem_map, Prod.mk.injEq, cons.injEq, reduceCtorEq, false_and, or_false, cons_append]
      constructor
      · rintro ⟨⟨b, a⟩, hmem, ⟨rfl, rfl⟩, rfl⟩
        exact ⟨rfl, ih.1 hmem⟩
      · rintro ⟨rfl, heq⟩
        exact ⟨(before, after), ih.2 heq, ⟨rfl, rfl⟩, rfl⟩

theorem nonemptyBefore?_isSome_iff {c : Char} :
    (nonemptyBefore? [c] cs).isSome ↔ ∃ start rest : List Char, start ≠ [] ∧ cs = start ++ c :: rest := by
  cases cs with
  | nil => simp [nonemptyBefore?]
  | cons d cs =>
    rw [nonemptyBefore?, Option.isSome_map, ← Option.not_isNone, Bool.not_eq_true', ← Bool.not_eq_true,
      Option.isNone_iff_eq_none, lastSplit?_eq_none_iff, Decidable.not_not]
    constructor
    · intro hmem
      obtain ⟨start, rest, rfl⟩ := append_of_mem hmem
      exact ⟨d :: start, rest, cons_ne_nil _ _, rfl⟩
    · rintro ⟨start, rest, hstart, heq⟩
      cases start with
      | nil => exact absurd rfl hstart
      | cons e start =>
        rw [(cons.inj heq).2]
        simp

theorem firstSome_isSome_iff {α : Type} {f : List Char → Option α} :
    (firstSome f cs).isSome ↔ ∃ before rest : List Char, cs = before ++ rest ∧ (f rest).isSome := by
  induction cs with
  | nil =>
    constructor
    · intro h
      exact ⟨[], [], rfl, h⟩
    · rintro ⟨before, rest, heq, h⟩
      obtain ⟨-, rfl⟩ := append_eq_nil_iff.1 heq.symm
      exact h
  | cons c cs ih =>
    rw [firstSome]
    cases hhere : f (c :: cs) with
    | some a => exact iff_of_true rfl ⟨[], c :: cs, rfl, by rw [hhere]; rfl⟩
    | none =>
      rw [ih]
      constructor
      · rintro ⟨before, rest, rfl, h⟩
        exact ⟨c :: before, rest, rfl, h⟩
      · rintro ⟨before, rest, heq, h⟩
        cases before with
        | nil =>
          rw [nil_append] at heq
          rw [← heq, hhere] at h
          cases h
        | cons d before => exact ⟨before, rest, (cons.inj heq).2, h⟩

/-! ## The search -/

theorem afterFileOpening?_eq_some_iff {line : List Char} :
    afterFileOpening? cs = some line ↔ ∃ rest : List Char, cs = fileOpening ++ rest ∧ line = firstLine rest := by
  unfold afterFileOpening?
  split
  · rename_i hprefix
    obtain ⟨tail, rfl⟩ := isPrefixOf_iff_prefix.1 hprefix
    rw [drop_left, Option.some.injEq]
    constructor
    · intro h
      exact ⟨tail, rfl, h.symm⟩
    · rintro ⟨rest, heq, rfl⟩
      rw [append_cancel_left heq]
      rfl
  · rename_i hprefix
    simp only [reduceCtorEq, false_iff, not_exists, not_and]
    intro rest heq _
    exact hprefix ( isPrefixOf_iff_prefix.2 ⟨rest, heq.symm⟩)

/-- On a line, a path that begins with a given character, and a key after it. -/
theorem findSome?_splits_isSome_iff {c : Char} {rest : List Char} :
    ((splits keyOpening rest).findSome? fun split =>
        (nonemptyBefore? ['\x7d'] split.2).map fun key => (c :: split.1, key)).isSome ↔
      ∃ before key after : List Char, key ≠ [] ∧ rest = before ++ keyOpening ++ key ++ '\x7d' :: after := by
  have hkey : keyOpening ≠ [] := by decide
  simp only [findSome?_isSome_iff, Option.isSome_map, nonemptyBefore?_isSome_iff, Prod.exists]
  constructor
  · rintro ⟨before, after, hmem, key, more, hne, rfl⟩
    exact ⟨before, key, more, hne, by rw [(mem_splits_iff hkey).1 hmem]; simp⟩
  · rintro ⟨before, key, after, hne, rfl⟩
    exact ⟨before, key ++ '\x7d' :: after, (mem_splits_iff hkey).2 (by simp), key, after, hne, rfl⟩

theorem fileValueAt?_isSome_iff_line :
    (fileValueAt? cs).isSome ↔ ∃ path key after : List Char, path ≠ [] ∧ key ≠ [] ∧
      afterFileOpening? cs = some (path ++ keyOpening ++ key ++ '\x7d' :: after) := by
  rw [fileValueAt?]
  cases afterFileOpening? cs with
  | none => simp
  | some line =>
    cases line with
    | nil => simp
    | cons c rest =>
      refine Iff.trans findSome?_splits_isSome_iff ?_
      constructor
      · rintro ⟨before, key, after, hne, rfl⟩
        exact ⟨c :: before, key, after, cons_ne_nil _ _, hne, rfl⟩
      · rintro ⟨path, key, after, hpath, hne, heq⟩
        cases path with
        | nil => exact absurd rfl hpath
        | cons d before => exact ⟨before, key, after, hne, (cons.inj (Option.some.inj heq)).2⟩

/-- A reference stands at the start of a text exactly if the text begins with one. -/
theorem fileValueAt?_isSome_iff :
    (fileValueAt? cs).isSome ↔ ∃ path key after : List Char, IsFileKey path key ∧
      cs = fileOpening ++ path ++ keyOpening ++ key ++ '\x7d' :: after := by
  rw [fileValueAt?_isSome_iff_line]
  constructor
  · rintro ⟨path, key, after, hpath, hne, hafter⟩
    obtain ⟨rest, rfl, heq⟩ := afterFileOpening?_eq_some_iff.1 hafter
    have hclean := newline_not_mem_firstLine rest
    have hrest := firstLine_append_afterLine rest
    rw [← heq] at hclean hrest
    simp only [mem_append, not_or] at hclean
    refine ⟨path, key, after ++ rest.dropWhile (· != '\n'), ⟨hpath, hne, hclean.1.1.1, hclean.1.2⟩, ?_⟩
    simpa using hrest.symm
  · rintro ⟨path, key, after, ⟨hpath, hne, hpathLine, hkeyLine⟩, rfl⟩
    refine ⟨path, key, firstLine after, hpath, hne, afterFileOpening?_eq_some_iff.2
      ⟨path ++ keyOpening ++ key ++ ['\x7d'] ++ after, by simp, ?_⟩⟩
    have hstart : '\n' ∉ path ++ keyOpening ++ key ++ ['\x7d'] := by
      simp only [mem_append, not_or]
      exact ⟨⟨⟨hpathLine, by decide⟩, hkeyLine⟩, by decide⟩
    rw [firstLine_append hstart]
    simp

/-- The search finds a reference to a value in a file exactly if the text holds one. -/
theorem fileValue?_isSome_iff : (fileValue? cs).isSome ↔ HoldsFileValue cs := by
  rw [fileValue?, firstSome_isSome_iff]
  constructor
  · rintro ⟨before, rest, rfl, h⟩
    obtain ⟨path, key, after, hkey, rfl⟩ := fileValueAt?_isSome_iff.1 h
    exact ⟨before, path, key, after, hkey, rfl⟩
  · rintro ⟨before, path, key, after, hkey, rfl⟩
    exact ⟨before, _, rfl, fileValueAt?_isSome_iff.2 ⟨path, key, after, hkey, rfl⟩⟩

/-! ## Names in braces -/

theorem hasOpening_braced : hasOpening (braced name) = hasOpening name := by
  rw [Bool.eq_iff_iff, hasOpening_iff, hasOpening_iff]
  constructor
  · rintro ⟨before, after, heq⟩
    cases before with
    | nil => exact absurd (cons.inj heq).1 (by decide)
    | cons c before =>
      have htail : name ++ ['\x7d'] = before ++ '$' :: '\x7b' :: after := (cons.inj heq).2
      -- the last character, a closing brace, is not part of the opening
      rcases append_eq_append_iff.1 htail with ⟨more, rfl, hmore⟩ | ⟨more, rfl, hmore⟩
      · rcases append_eq_singleton_iff.1 hmore.symm with ⟨-, h⟩ | ⟨-, h⟩ <;> simp at h
      · cases more with
        | nil => simp at hmore
        | cons d more =>
          cases more with
          | nil => simp at hmore
          | cons e more =>
            obtain ⟨rfl, rfl, -⟩ := hmore
            exact ⟨before, more, rfl⟩
  · rintro ⟨before, after, rfl⟩
    exact ⟨'\x7b' :: before, after ++ ['\x7d'], by simp [braced]⟩

/-- A name without braces, in braces, holds a reference to a value in a file exactly if it is one. -/
theorem holdsFileValue_braced_iff (hopen : '\x7b' ∉ name) (hclose : '\x7d' ∉ name) :
    HoldsFileValue (braced name) ↔ IsFileValue name := by
  have hopening : fileOpening = '\x7b' :: "file(".toList := rfl
  constructor
  · rintro ⟨before, path, key, after, hkey, heq⟩
    cases before with
    | cons c before =>
      have htail : name ++ ['\x7d'] = before ++ (fileOpening ++ path ++ keyOpening ++ key ++ '\x7d' :: after) :=
        (cons.inj heq).2
      have hmem : '\x7b' ∈ name ++ ['\x7d'] := by
        rw [htail, hopening]
        simp
      rcases mem_append.1 hmem with h | h
      · exact absurd h hopen
      · exact absurd (mem_singleton.1 h) (by decide)
    | nil =>
      have htail : name ++ ['\x7d'] = ("file(".toList ++ path ++ keyOpening ++ key) ++ '\x7d' :: after := by
        rw [nil_append, hopening] at heq
        simpa [braced] using heq
      exact ⟨path, key, hkey, ((append_cons_inj_of_notMem hclose not_mem_nil).1 htail).1⟩
  · rintro ⟨path, key, hkey, rfl⟩
    exact ⟨[], path, key, [], hkey, by rw [hopening]; simp [braced]⟩

/-! ## Text around a reference

A reference may stand in the middle of a text. What becomes of the text around it depends on how the reference is
resolved: a text of the configuration is put in its place, and a reference that names nothing stays; but a literal
alternative, and what is found or not found in a file, takes the place of the whole text. So the text around is kept
in these cases only (`surroundings_kept_iff`).
-/

def surrounded (before inner after : List Char) : List Char := before ++ wrap inner ++ after

/-- Characters around a reference that cannot be part of one. -/
def IsOutside (cs : List Char) : Prop := ∀ c ∈ cs, c ≠ '$' ∧ c ≠ '\x7b' ∧ c ≠ '\x7d'

instance (cs : List Char) : Decidable (IsOutside cs) := List.decidableBAll _ cs

/-- The inner text of a reference that stands on one line and has no other one nested in it. -/
def IsInside (cs : List Char) : Prop := ∀ c ∈ cs, c ≠ '\x7b' ∧ c ≠ '\x7d' ∧ c ≠ '\n'

instance (cs : List Char) : Decidable (IsInside cs) := List.decidableBAll _ cs

/-! ## Alternatives -/

variable {cs inner text : List Char}

theorem mem_of_mem_trim {c : Char} (h : c ∈ Text.trim cs) : c ∈ cs := by
  have hend : c ∈ (Text.trimStart cs).reverse :=
    (dropWhile_sublist Text.isBlank).subset (mem_reverse.1 h)
  exact (dropWhile_sublist Text.isBlank).subset (mem_reverse.1 hend)

/-- An alternative is a part of its reference. -/
theorem mem_of_mem_alternative {alternative : List Char} (h : alternative? inner = some alternative) {c : Char}
    (hc : c ∈ alternative) : c ∈ inner := by
  unfold alternative? at h
  split at h
  · obtain rfl := Option.some.inj h
    have hpiece := (takeWhile_sublist _).subset (mem_of_mem_trim hc)
    exact (dropWhile_sublist _).subset (drop_subset 1 _ hpiece)
  · cases h

/-- What a reference names, or has for an alternative, is a part of it. -/
theorem IsInside.of_target (h : IsInside inner) (htarget : target inner = .literal text ∨ target inner = .named text) :
    IsInside text := by
  intro c hc
  apply h c
  unfold target at htarget
  split at htarget
  · simp only [reduceCtorEq, Target.named.injEq, false_or] at htarget
    rwa [htarget]
  · rename_i alternative halternative
    apply mem_of_mem_alternative halternative
    split at htarget <;> simp_all

/-- A name in braces refers to a value in a file exactly if it is such a reference. -/
theorem IsInside.fileValue?_isSome_iff {name : List Char} (h : IsInside name) :
    (fileValue? (braced name)).isSome ↔ IsFileValue name := by
  rw [Reference.fileValue?_isSome_iff]
  exact holdsFileValue_braced_iff (fun hmem => (h _ hmem).1 rfl) fun hmem => (h _ hmem).2.1 rfl

/-! ## What becomes of a text -/

theorem process_of_literal (s : Sources) {value : List Char} {found : Found} (hfound : find? value = some found)
    (hliteral : target found.inner = .literal text) : process s value = text := by
  rw [process]
  split
  · rename_i hnone
    rw [hfound] at hnone
    cases hnone
  · rename_i found' hfound'
    obtain rfl : found = found' := Option.some.inj (hfound.symm.trans hfound')
    split
    · rename_i text' hliteral'
      exact Target.literal.inj (hliteral'.symm.trans hliteral)
    · rename_i hnamed
      rw [hliteral] at hnamed
      cases hnamed

theorem IsOutside.hasOpening_eq (h : IsOutside cs) : hasOpening cs = false := by
  rw [← Bool.not_eq_true]
  intro hopen
  exact (h _ (brace_mem_of_hasOpening hopen)).2.1 rfl

section

variable (s : Sources) {before inner after : List Char} (hbefore : IsOutside before) (hafter : IsOutside after)
  (hinner : IsInside inner)

include hbefore hafter hinner

theorem find?_surrounded : find? (surrounded before inner after) = some ⟨before, inner, after⟩ := by
  have hwhole : surrounded before inner after = before ++ '$' :: '\x7b' :: (inner ++ '\x7d' :: after) := by
    simp [surrounded, wrap]
  rw [hwhole]
  refine find?_append hbefore.hasOpening_eq (foundAt?_opening (fun hmem => (hinner _ hmem).2.2 rfl) fun hmem => ?_)
  exact (hafter _ ((takeWhile_sublist _).subset hmem)).2.2 rfl

variable {name : List Char} (hname : target inner = .named name)

include hname

/-- A name without braces has nothing nested in it. -/
theorem process_surrounded_of_named :
    process s (surrounded before inner after) =
      replaced s (surrounded before inner after) ⟨before, inner, after⟩ name := by
  have hclose : '\x7d' ∉ name := fun hmem => (hinner.of_target (.inr hname) _ hmem).2.1 rfl
  rw [process_of_named s (find?_surrounded hbefore hafter hinner) hname, unnested, find?_of_no_brace hclose]

/-- A text of the configuration takes the place of the reference. -/
theorem process_surrounded_of_text {text : List Char} (htext : textAt? s.config name = some text) :
    process s (surrounded before inner after) = before ++ text ++ after := by
  rw [process_surrounded_of_named s hbefore hafter hinner hname, replaced, htext]
  simp [process_of_no_opening s hbefore.hasOpening_eq, process_of_no_opening s hafter.hasOpening_eq]

variable (htext : textAt? s.config name = none)

include htext

/-- What a reference to a file gives takes the place of the whole text. -/
theorem process_surrounded_of_file (hfile : IsFileValue name) :
    process s (surrounded before inner after) = s.fromFile (braced name) := by
  rw [process_surrounded_of_named s hbefore hafter hinner hname, replaced, htext]
  exact if_pos ((hinner.of_target (.inr hname)).fileValue?_isSome_iff.2 hfile)

/-- A reference that names nothing stays. -/
theorem process_surrounded_of_nothing (hfile : ¬IsFileValue name) :
    process s (surrounded before inner after) = surrounded before inner after := by
  rw [process_surrounded_of_named s hbefore hafter hinner hname, replaced, htext]
  exact if_neg fun h => hfile ((hinner.of_target (.inr hname)).fileValue?_isSome_iff.1 h)

end

theorem surrounded_nil (inner : List Char) : surrounded [] inner [] = wrap inner := by
  simp [surrounded]

theorem append_eq_self_iff {before after : List Char} : text = before ++ text ++ after ↔ before = [] ∧ after = [] := by
  constructor
  · intro h
    have hlength := congrArg length h
    simp only [length_append] at hlength
    exact ⟨eq_nil_of_length_eq_zero (by omega), eq_nil_of_length_eq_zero (by omega)⟩
  · rintro ⟨rfl, rfl⟩
    simp

/-- **The text around a reference is kept unless something takes the place of all.** A text with one reference stays,
or has the reference replaced by what the reference alone gives, or is itself replaced by that. It stays or keeps what
stands around the reference if and only if there is nothing around it, or the reference has no literal alternative
and names a text of the configuration, or no value in a file, or one in which this very text is found. -/
theorem surroundings_kept_iff (s : Sources) {before inner after : List Char} (hbefore : IsOutside before)
    (hafter : IsOutside after) (hinner : IsInside inner) :
    (process s (surrounded before inner after) = surrounded before inner after ∨
      process s (surrounded before inner after) = before ++ process s (wrap inner) ++ after ∨
      process s (surrounded before inner after) = process s (wrap inner)) ∧
    ((process s (surrounded before inner after) = surrounded before inner after ∨
        process s (surrounded before inner after) = before ++ process s (wrap inner) ++ after) ↔
      before = [] ∧ after = [] ∨ ∃ name, target inner = .named name ∧
        ((∃ text, textAt? s.config name = some text) ∨ ¬IsFileValue name ∨
          s.fromFile (braced name) = surrounded before inner after)) := by
  have hnone : IsOutside [] := List.forall_mem_nil _
  rw [← surrounded_nil inner]
  cases htarget : target inner with
  | literal text =>
    have hlost : text ≠ surrounded before inner after := by
      intro h
      exact (hinner.of_target (.inl htarget) '\x7b' (by rw [h]; simp [surrounded, wrap])).1 rfl
    rw [process_of_literal s (find?_surrounded hbefore hafter hinner) htarget,
      process_of_literal s (find?_surrounded hnone hnone hinner) htarget, append_eq_self_iff]
    simp [hlost]
  | named name =>
    simp only [Target.named.injEq, exists_eq_left']
    cases htext : textAt? s.config name with
    | some text =>
      rw [process_surrounded_of_text s hbefore hafter hinner htarget htext,
        process_surrounded_of_text s hnone hnone hinner htarget htext]
      simp
    | none =>
      by_cases hfile : IsFileValue name
      · rw [process_surrounded_of_file s hbefore hafter hinner htarget htext hfile,
          process_surrounded_of_file s hnone hnone hinner htarget htext hfile, append_eq_self_iff]
        simp only [hfile, not_true, reduceCtorEq, exists_false, false_or, or_true, true_and]
        exact Or.comm
      · rw [process_surrounded_of_nothing s hbefore hafter hinner htarget htext hfile]
        simp [hfile]

def stageOnly : Sources := ⟨.empty, "s.yml", .map [("stage", .str "dev")]⟩

/-- The text around a reference to the stage is kept, that around a reference with a literal alternative is lost. -/
theorem alternative_drops_surroundings :
    process stageOnly "a-$\x7bself:stage\x7d-b".toList = "a-dev-b".toList ∧
      process stageOnly "a-$\x7bopt:x, lit\x7d-b".toList = "lit".toList ∧
      ¬(process stageOnly "a-$\x7bopt:x, lit\x7d-b".toList = "a-$\x7bopt:x, lit\x7d-b".toList ∨
        process stageOnly "a-$\x7bopt:x, lit\x7d-b".toList =
          "a-".toList ++ process stageOnly (wrap "opt:x, lit".toList) ++ "-b".toList) := by
  have hbefore : IsOutside "a-".toList := by decide
  have hafter : IsOutside "-b".toList := by decide
  have hstage : IsInside "self:stage".toList := by decide
  have hoption : IsInside "opt:x, lit".toList := by decide
  have hliteral : target "opt:x, lit".toList = .literal "lit".toList := by decide
  refine ⟨process_surrounded_of_text stageOnly hbefore hafter hstage rfl rfl,
    process_of_literal stageOnly (find?_surrounded hbefore hafter hoption) hliteral, fun hkept => ?_⟩
  rcases (surroundings_kept_iff stageOnly hbefore hafter hoption).2.1 hkept with ⟨h, -⟩ | ⟨name, hname, -⟩
  · cases h
  · rw [hliteral] at hname
    cases hname

end ServerlessTaint.Reference
