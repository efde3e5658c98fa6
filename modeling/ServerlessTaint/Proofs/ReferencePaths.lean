import ServerlessTaint.Reference.Inner

/-!
# Where references into the same configuration stand

A reference `${self:path}` is told by its characters alone: the path of the reference at the start of a text is the
one with which the text begins (`pathAt?_eq_some_iff`). References do not overlap, and none goes on past a character
that cannot stand in one, so the paths of a text are put together from those of its parts (`paths_mention_append`,
`paths_append`).
-/

namespace ServerlessTaint.Reference

open List

def mention (path : List Char) : List Char := selfOpening ++ path ++ ['\x7d']

/-- The characters are a path: there are some, and each may stand in a path. -/
def IsReferencePath (path : List Char) : Prop := path ≠ [] ∧ ∀ c ∈ path, isPathChar c = true

instance (path : List Char) : Decidable (IsReferencePath path) :=
  have : Decidable (∀ c ∈ path, isPathChar c = true) := List.decidableBAll _ path
  inferInstanceAs (Decidable (_ ∧ _))

def isReferenceChar (c : Char) : Bool := isPathChar c || ['$', '\x7b', ':', '\x7d'].contains c

theorem mention_eq_cons (path : List Char) : mention path = '$' :: ("\x7bself:".toList ++ path ++ ['\x7d']) := rfl

namespace IsReferencePath

variable {path : List Char} (h : IsReferencePath path)

include h

theorem not_mem {c : Char} (hc : isPathChar c = false) : c ∉ path := by
  intro hmem
  rw [h.2 c hmem] at hc
  cases hc

theorem isReferenceChar_of_mem {c : Char} (hc : c ∈ mention path) : isReferenceChar c := by
  have hopening : ∀ c ∈ selfOpening, isReferenceChar c = true :=
    all_eq_true.1 (show selfOpening.all isReferenceChar = true by decide)
  rcases mem_append.1 hc with hc | hc
  · rcases mem_append.1 hc with hc | hc
    · exact hopening c hc
    · rw [isReferenceChar, h.2 c hc, Bool.true_or]
  · rw [mem_singleton.1 hc]
    decide

/-- Only the first character of a reference is a dollar sign. -/
theorem dollar_not_mem : '$' ∉ "\x7bself:".toList ++ path ++ ['\x7d'] := by
  simp only [mem_append, not_or]
  exact ⟨⟨by decide, h.not_mem (by decide)⟩, by decide⟩

end IsReferencePath

/-! ## The reference at the start of a text -/

variable {c : Char} {path cs : List Char}

/-- The path of a reference at the start of a text is found, whatever follows. -/
theorem pathAt?_mention (h : IsReferencePath path) (rest : List Char) : pathAt? (mention path ++ rest) = some path := by
  have hopening : mention path ++ rest = selfOpening ++ (path ++ '\x7d' :: rest) := by
    simp [mention]
  have hpath : (path ++ '\x7d' :: rest).takeWhile isPathChar = path := by
    rw [takeWhile_append_of_pos h.2, takeWhile_cons_of_neg (by decide), append_nil]
  have hafter : (selfOpening ++ (path ++ '\x7d' :: rest)).drop (selfOpening.length + path.length) = '\x7d' :: rest := by
    rw [← drop_drop, drop_left, drop_left]
  have hne : path.isEmpty = false := isEmpty_eq_false_iff.2 h.1
  rw [pathAt?, hopening, if_pos ( isPrefixOf_iff_prefix.2 (prefix_append _ _)), drop_left, hpath]
  simp only [hafter, hne]
  rfl

theorem of_pathAt? (h : pathAt? cs = some path) :
    IsReferencePath path ∧ ∃ rest : List Char, cs = mention path ++ rest := by
  unfold pathAt? at h
  split at h
  · rename_i hprefix
    obtain ⟨tail, rfl⟩ := isPrefixOf_iff_prefix.1 hprefix
    simp only [drop_left, ← drop_drop] at h
    split at h
    · rename_i hpath
      obtain rfl := Option.some.inj h
      simp only [Bool.and_eq_true, Bool.not_eq_true', isEmpty_eq_false_iff, beq_iff_eq] at hpath
      obtain ⟨rest, hrest⟩ := head?_eq_some_iff.1 hpath.2
      refine ⟨⟨hpath.1, fun c hc => all_eq_true.1 all_takeWhile c hc⟩, rest, ?_⟩
      -- what is left after the path begins with the closing brace
      have htail : tail.takeWhile isPathChar ++ '\x7d' :: rest = tail := by
        have hparts := takeWhile_append_dropWhile (p := isPathChar) (l := tail)
        generalize tail.takeWhile isPathChar = path at hparts hrest
        rw [← hparts, drop_left] at hrest
        rw [← hparts, hrest]
      rw [mention, append_assoc, append_assoc, singleton_append, htail]
    · cases h
  · cases h

theorem pathAt?_eq_some_iff :
    pathAt? cs = some path ↔ IsReferencePath path ∧ ∃ rest : List Char, cs = mention path ++ rest := by
  constructor
  · exact of_pathAt?
  · rintro ⟨hpath, rest, rfl⟩
    exact pathAt?_mention hpath rest

/-! ## Openings -/

/-- No reference opens in a text that is followed by another one. -/
def opensNone : List Char → List Char → Bool
  | [], _ => true
  | c :: cs, rest => !selfOpening.isPrefixOf (c :: cs ++ rest) && opensNone cs rest

theorem not_opens (h : c ≠ '$') : selfOpening.isPrefixOf (c :: cs) = false := by
  rw [← Bool.not_eq_true, isPrefixOf_iff_prefix]
  rintro ⟨rest, heq⟩
  exact h (cons.inj heq).1.symm

theorem opensNone_of_no_dollar (h : '$' ∉ cs) (rest : List Char) : opensNone cs rest := by
  induction cs with
  | nil => rfl
  | cons c cs ih =>
    rw [mem_cons, not_or] at h
    rw [opensNone, cons_append, not_opens (Ne.symm h.1), ih h.2]
    rfl

/-- A reference starts with a dollar sign. -/
theorem pathAt?_cons_of_ne (h : c ≠ '$') (rest : List Char) : pathAt? (c :: rest) = none := by
  rw [pathAt?, not_opens h]
  rfl

/-! ## The paths of a text -/

theorem paths_append_of_opensNone {rest : List Char} (h : opensNone cs rest) : paths (cs ++ rest) = paths rest := by
  induction cs with
  | nil => rfl
  | cons c cs ih =>
    rw [opensNone, Bool.and_eq_true, Bool.not_eq_true'] at h
    have hnone : pathAt? (c :: cs ++ rest) = none := by
      rw [pathAt?, h.1]
      rfl
    rw [cons_append] at hnone ⊢
    rw [paths, hnone, ih h.2]
    rfl

theorem paths_append_of_no_dollar (h : '$' ∉ cs) (rest : List Char) : paths (cs ++ rest) = paths rest :=
  paths_append_of_opensNone (opensNone_of_no_dollar h rest)

theorem paths_mention_append (h : IsReferencePath path) (rest : List Char) :
    paths (mention path ++ rest) = path :: paths rest := by
  have hat := pathAt?_mention h rest
  rw [mention_eq_cons, cons_append] at hat ⊢
  rw [paths, hat, paths_append_of_no_dollar h.dollar_not_mem]
  rfl

theorem isReferencePath_of_mem_paths (h : path ∈ paths cs) : IsReferencePath path := by
  induction cs with
  | nil => cases h
  | cons c rest ih =>
    rw [paths, mem_append, Option.mem_toList] at h
    rcases h with h | h
    · exact (of_pathAt? h).1
    · exact ih h

/-- No reference goes on past a character that cannot stand in one. -/
theorem pathAt?_append (hc : isReferenceChar c = false) (rest : List Char) :
    pathAt? (cs ++ c :: rest) = pathAt? cs := by
  apply Option.ext
  intro path
  rw [pathAt?_eq_some_iff, pathAt?_eq_some_iff]
  refine and_congr_right fun hpath => ?_
  constructor
  · rintro ⟨more, heq⟩
    rcases append_eq_append_iff.1 heq with ⟨mid, hmid, hrest⟩ | ⟨mid, hmid, -⟩
    · cases mid with
      | nil => exact ⟨[], by rw [hmid, append_nil, append_nil]⟩
      | cons d mid =>
        obtain ⟨rfl, -⟩ := cons.inj hrest
        rw [hpath.isReferenceChar_of_mem (by rw [hmid]; simp)] at hc
        cases hc
    · exact ⟨mid, hmid⟩
  · rintro ⟨more, rfl⟩
    exact ⟨more ++ c :: rest, by rw [append_assoc]⟩

theorem paths_append (cs : List Char) (hc : isReferenceChar c = false) (rest : List Char) :
    paths (cs ++ c :: rest) = paths cs ++ paths (c :: rest) := by
  induction cs with
  | nil => rfl
  | cons d cs ih =>
    have hat : pathAt? (d :: cs ++ c :: rest) = pathAt? (d :: cs) := pathAt?_append hc rest
    have hhere : paths (d :: cs) = (pathAt? (d :: cs)).toList ++ paths cs := rfl
    rw [cons_append] at hat ⊢
    rw [paths, hat, ih, hhere, append_assoc]

end ServerlessTaint.Reference
