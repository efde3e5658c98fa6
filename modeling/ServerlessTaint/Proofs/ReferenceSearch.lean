import ServerlessTaint.Reference.External

/-!
# Where a reference is found

A text holds a reference if `${` and `}` stand on one line, in this order. The search finds one exactly
if the text holds one (`find?_eq_none_iff`), and what it finds goes on to the last `}` of its line
(`foundAt?_opening`). A text that holds no reference is not changed (`process_of_no_reference`).
-/

namespace ServerlessTaint.Reference

open List

/-- Somewhere in the text `${` and `}` stand on one line, in this order. -/
def HoldsReference (cs : List Char) : Prop :=
  ∃ before inner after, cs = before ++ '$' :: '\x7b' :: (inner ++ '\x7d' :: after) ∧ '\n' ∉ inner

def firstLine (cs : List Char) : List Char := cs.takeWhile (· != '\n')

/-! ## The last place of a character -/

variable {c : Char} {found : Found} {cs after : List Char}

theorem isPrefixOf_singleton {d : Char} {rest : List Char} : [c].isPrefixOf (d :: rest) = (c == d) := by
  simp [isPrefixOf]

/-- The last place of a character is not there exactly if the character is not. -/
theorem lastSplit?_eq_none_iff : lastSplit? [c] cs = none ↔ c ∉ cs := by
  induction cs with
  | nil => simp [lastSplit?]
  | cons d rest ih =>
    rw [lastSplit?, isPrefixOf_singleton, mem_cons, not_or, ← ih]
    cases lastSplit? [c] rest with
    | none => by_cases hd : c = d <;> simp [hd]
    | some split => simp

/-- After the last place of a character it does not stand again. -/
theorem lastSplit?_eq_some_iff {before : List Char} :
    lastSplit? [c] cs = some (before, after) ↔ cs = before ++ c :: after ∧ c ∉ after := by
  induction cs generalizing before after with
  | nil => simp [lastSplit?]
  | cons d rest ih =>
    rw [lastSplit?, isPrefixOf_singleton]
    cases hsplit : lastSplit? [c] rest with
    | none =>
      have hrest : c ∉ rest := lastSplit?_eq_none_iff.1 hsplit
      by_cases hd : c = d
      · subst hd
        simp only [beq_self_eq_true, if_true, length_singleton, drop_succ_cons, drop_zero,
          Option.some.injEq, Prod.mk.injEq]
        constructor
        · rintro ⟨rfl, rfl⟩
          exact ⟨rfl, hrest⟩
        · rintro ⟨heq, hafter⟩
          cases before with
          | nil => exact ⟨rfl, by simpa using heq⟩
          | cons e before =>
            obtain ⟨-, rfl⟩ := cons.inj heq
            simp at hrest
      · simp only [beq_eq_false_iff_ne.2 hd, Bool.false_eq_true, if_false, reduceCtorEq, false_iff]
        rintro ⟨heq, hafter⟩
        cases before with
        | nil => exact hd (cons.inj heq).1.symm
        | cons e before =>
          obtain ⟨-, rfl⟩ := cons.inj heq
          simp at hrest
    | some split =>
      obtain ⟨hrest, hafter'⟩ := ih.1 hsplit
      simp only [Option.some.injEq, Prod.mk.injEq]
      constructor
      · rintro ⟨rfl, rfl⟩
        exact ⟨by rw [hrest]; rfl, hafter'⟩
      · rintro ⟨heq, hafter⟩
        cases before with
        | nil =>
          obtain ⟨-, rfl⟩ := cons.inj heq
          exact absurd (hrest ▸ mem_append_right _ mem_cons_self) hafter
        | cons e before =>
          obtain ⟨rfl, htail⟩ := cons.inj heq
          obtain ⟨rfl, rfl⟩ := by simpa [hsplit] using ih.2 ⟨htail, hafter⟩
          exact ⟨rfl, rfl⟩

/-! ## Lines -/

theorem newline_not_mem_firstLine (cs : List Char) : '\n' ∉ firstLine cs := by
  intro h
  have hall := all_eq_true.1 (all_takeWhile (p := (· != '\n')) (l := cs)) _ h
  simp at hall

theorem firstLine_append (h : '\n' ∉ cs) (rest : List Char) : firstLine (cs ++ rest) = cs ++ firstLine rest :=
  takeWhile_append_of_pos fun c hc => by
    simp only [bne_iff_ne, ne_eq]
    rintro rfl
    exact h hc

theorem afterLine_append (h : '\n' ∉ cs) (rest : List Char) :
    (cs ++ rest).dropWhile (· != '\n') = rest.dropWhile (· != '\n') :=
  dropWhile_append_of_pos fun c hc => by
    simp only [bne_iff_ne, ne_eq]
    rintro rfl
    exact h hc

theorem firstLine_append_afterLine (cs : List Char) : firstLine cs ++ cs.dropWhile (· != '\n') = cs :=
  takeWhile_append_dropWhile

/-! ## The first reference -/

/-- The reference at the start of a text ends at the last closing brace of its line. -/
theorem foundAt?_opening {inner : List Char} (hinner : '\n' ∉ inner) (hafter : '\x7d' ∉ firstLine after) :
    foundAt? ('$' :: '\x7b' :: (inner ++ '\x7d' :: after)) = some ⟨[], inner, after⟩ := by
  have hline : '\n' ∉ inner ++ ['\x7d'] := by simpa using hinner
  have hsplit : inner ++ '\x7d' :: after = (inner ++ ['\x7d']) ++ after := by simp
  have hlast : lastSplit? ['\x7d'] (inner ++ '\x7d' :: firstLine after) = some (inner, firstLine after) :=
    lastSplit?_eq_some_iff.2 ⟨rfl, hafter⟩
  have hfirst : (inner ++ '\x7d' :: after).takeWhile (· != '\n') = inner ++ '\x7d' :: firstLine after := by
    rw [hsplit]
    exact (firstLine_append hline after).trans (by simp)
  have hrest : (inner ++ '\x7d' :: after).dropWhile (· != '\n') = after.dropWhile (· != '\n') := by
    rw [hsplit]
    exact afterLine_append hline after
  rw [foundAt?, hfirst, hlast, hrest]
  simp [firstLine_append_afterLine]

/-- What a found reference is taken from. -/
theorem of_foundAt? (h : foundAt? cs = some found) :
    found.before = [] ∧ cs = '$' :: '\x7b' :: (found.inner ++ '\x7d' :: found.after) ∧
      '\n' ∉ found.inner ∧ '\x7d' ∉ firstLine found.after := by
  unfold foundAt? at h
  split at h
  · rename_i rest
    obtain ⟨⟨inner, after⟩, hlast, rfl⟩ := Option.map_eq_some_iff.1 h
    obtain ⟨hline, hafter⟩ := lastSplit?_eq_some_iff.1 hlast
    have hclean := newline_not_mem_firstLine rest
    rw [firstLine, hline] at hclean
    simp only [mem_append, mem_cons, not_or] at hclean
    have htail : firstLine (after ++ rest.dropWhile (· != '\n')) = after := by
      rw [firstLine_append hclean.2.2]
      cases hdrop : rest.dropWhile (· != '\n') with
      | nil => simp [firstLine]
      | cons c more =>
        have hc := head?_dropWhile_not (· != '\n') rest
        rw [hdrop] at hc
        have hc' : c = '\n' := by simpa using hc
        simp [firstLine, hc']
    refine ⟨rfl, ?_, hclean.1, by rwa [htail]⟩
    have hwhole := firstLine_append_afterLine rest
    rw [firstLine, hline, append_assoc, cons_append] at hwhole
    rw [hwhole]
  · cases h

/-- A closing brace on the first line: the last one, and what stands before and after it. -/
theorem exists_last_brace (h : '\x7d' ∈ firstLine cs) :
    ∃ line rest, cs = line ++ '\x7d' :: rest ∧ '\n' ∉ line ∧ '\x7d' ∉ firstLine rest := by
  cases hfound : foundAt? ('$' :: '\x7b' :: cs) with
  | none =>
    rw [foundAt?, Option.map_eq_none_iff, lastSplit?_eq_none_iff] at hfound
    exact absurd h hfound
  | some found =>
    obtain ⟨-, hcs, hinner, hafter⟩ := of_foundAt? hfound
    exact ⟨found.inner, found.after, by simpa using hcs, hinner, hafter⟩

/-- A text has no reference at its start exactly if it does not begin with one. -/
theorem foundAt?_eq_none_iff :
    foundAt? cs = none ↔
      ¬ ∃ inner after, cs = '$' :: '\x7b' :: (inner ++ '\x7d' :: after) ∧ '\n' ∉ inner := by
  constructor
  · rintro hnone ⟨inner, after, rfl, hinner⟩
    simp only [foundAt?, Option.map_eq_none_iff] at hnone
    have hbrace := lastSplit?_eq_none_iff.1 hnone
    have hline := firstLine_append hinner ('\x7d' :: after)
    rw [firstLine] at hline
    rw [hline] at hbrace
    simp [firstLine] at hbrace
  · intro hnone
    cases hfound : foundAt? cs with
    | none => rfl
    | some found =>
      obtain ⟨-, hcs, hinner, -⟩ := of_foundAt? hfound
      exact absurd ⟨found.inner, found.after, hcs, hinner⟩ hnone

/-- The search finds a reference exactly if the text holds one. -/
theorem find?_eq_none_iff : find? cs = none ↔ ¬ HoldsReference cs := by
  induction cs with
  | nil => simp [find?, HoldsReference]
  | cons c rest ih =>
    rw [find?]
    constructor
    · intro hnone
      split at hnone
      · cases hnone
      · rename_i hat
        rw [Option.map_eq_none_iff, ih] at hnone
        rintro ⟨before, inner, after, heq, hinner⟩
        cases before with
        | nil => exact foundAt?_eq_none_iff.1 hat ⟨inner, after, heq, hinner⟩
        | cons d before => exact hnone ⟨before, inner, after, (cons.inj heq).2, hinner⟩
    · intro hnone
      have hat : foundAt? (c :: rest) = none := by
        rw [foundAt?_eq_none_iff]
        rintro ⟨inner, after, heq, hinner⟩
        exact hnone ⟨[], inner, after, heq, hinner⟩
      have hrest : find? rest = none := by
        rw [ih]
        rintro ⟨before, inner, after, heq, hinner⟩
        exact hnone ⟨c :: before, inner, after, by rw [heq]; rfl, hinner⟩
      rw [hat, hrest]
      rfl

/-- What the first reference of a text is taken from. -/
theorem of_find? (h : find? cs = some found) :
    cs = found.before ++ '$' :: '\x7b' :: (found.inner ++ '\x7d' :: found.after) ∧
      '\n' ∉ found.inner ∧ '\x7d' ∉ firstLine found.after := by
  induction cs generalizing found with
  | nil => cases h
  | cons c rest ih =>
    rw [find?] at h
    split at h
    · rename_i found' hat
      cases h
      obtain ⟨hbefore, hcs, hinner, hafter⟩ := of_foundAt? hat
      exact ⟨by rw [hbefore]; exact hcs, hinner, hafter⟩
    · obtain ⟨found', hfound, rfl⟩ := Option.map_eq_some_iff.1 h
      obtain ⟨hrest, hinner, hafter⟩ := ih hfound
      exact ⟨by rw [hrest]; rfl, hinner, hafter⟩

/-- A text that holds no reference is not changed. -/
theorem process_of_no_reference (s : Sources) (h : ¬ HoldsReference cs) : process s cs = cs := by
  rw [process]
  split
  · rfl
  · rename_i found hf
    rw [find?_eq_none_iff.2 h] at hf
    cases hf

end ServerlessTaint.Reference
