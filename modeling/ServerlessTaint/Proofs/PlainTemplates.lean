import ServerlessTaint.Proofs.Phrases

/-!
# Texts that are their own templates

A text that takes the place of a reference is read as a template, in which a backslash starts an escape. It is put in
unchanged exactly if no backslash in it makes an escape with the character after it (`fill_eq_self_iff`): every escape
stands for fewer characters than it has, but for the one that stands for the replaced reference.
-/

namespace ServerlessTaint.Template

open List

/-- A backslash before the character makes no escape with it. -/
def keepsBackslash (c : Char) : Bool := !(c == '\\' || c.isAlphanum)

/-- Every backslash stands before a character that makes no escape with it. -/
def isPlain : List Char → Bool
  | [] => true
  | [c] => c != '\\'
  | c :: d :: rest => if c == '\\' then keepsBackslash d && isPlain rest else isPlain (d :: rest)

/-! ## One escape -/

variable {c : Char} {cs rest : List Char} {parts : List Part}

theorem length_groupName {name : List Char} (h : groupName cs = some (name, rest)) : rest.length < cs.length := by
  fun_induction groupName cs generalizing name rest with
  | case1 => cases h
  | case2 tail =>
    cases h
    simp
  | case3 c tail ih | case4 c tail _ _ ih =>
    simp only [Option.bind_eq_bind, Option.bind_eq_some_iff, Prod.exists] at h
    obtain ⟨name', rest', h', heq⟩ := h
    cases heq
    have := ih h'
    simp only [length_cons]
    omega

theorem length_digitEscape {more : List Char} {part : Part} (h : digitEscape c rest = some (part, more)) :
    more.length ≤ rest.length := by
  unfold digitEscape at h
  split at h
  · cases h
    simp
  · split at h
    · split at h
      · dsimp only at h
        split at h
        · cases h
          simp only [length_cons]
          omega
        · cases h
      · cases h
    · cases h

theorem parse_escape (fuel : Nat) (c : Char) (rest : List Char) :
    parse (fuel + 1) ('\\' :: c :: rest) =
      (escapeAt? c rest).bind fun found => (parse fuel found.2).bind fun more => some (found.1 ++ more) :=
  rfl

theorem parse_cons (hc : c ≠ '\\') (fuel : Nat) (rest : List Char) :
    parse (fuel + 1) (c :: rest) = (parse fuel rest).bind fun more => some (.char c :: more) :=
  parse.eq_5 fuel c rest (fun h => absurd h hc) fun _ _ h => absurd h hc

theorem escape?_of_keepsBackslash (h : keepsBackslash c) : escape? c = none := by
  have hletters : ∀ d ∈ ['a', 'b', 'f', 'n', 'r', 't', 'v', '\\'], c ≠ d := by
    rintro d hd rfl
    have hnot : ∀ d ∈ ['a', 'b', 'f', 'n', 'r', 't', 'v', '\\'], (!keepsBackslash d) = true :=
      all_eq_true.1 (by decide)
    exact absurd (hnot c hd) (by rw [h]; decide)
  unfold escape?
  split <;> simp_all

/-- A backslash that makes no escape stays. -/
theorem escapeAt?_of_keepsBackslash (h : keepsBackslash c) (rest : List Char) :
    escapeAt? c rest = some ([.char '\\', .char c], rest) := by
  have hescape := escape?_of_keepsBackslash h
  have hg : c ≠ 'g' := by
    rintro rfl
    exact absurd h (by decide)
  simp only [keepsBackslash, Bool.not_eq_true', Bool.or_eq_false_iff, Char.isAlphanum] at h
  simp [escapeAt?, hg, h, hescape]

/-- An escape stands for fewer characters than it has, or keeps its backslash. -/
theorem of_escapeAt? {rest' : List Char} {part : List Part} (h : escapeAt? c rest = some (part, rest')) :
    part.length + rest'.length < rest.length + 2 ∨ keepsBackslash c ∧ part.length = 2 ∧ rest' = rest := by
  unfold escapeAt? at h
  split at h
  · split at h
    · obtain ⟨found, hname, hwhole⟩ := Option.bind_eq_some_iff.1 h
      dsimp only at hwhole
      split at hwhole
      · cases hwhole
        have hlength := length_groupName hname
        simp only [length_cons, length_nil]
        omega
      · cases hwhole
    · cases h
  · split at h
    · obtain ⟨found, hdigit, heq⟩ := Option.map_eq_some_iff.1 h
      cases heq
      have hlength := length_digitEscape hdigit
      simp only [length_singleton]
      omega
    · rename_i hdigit
      split at h
      · cases h
        simp only [length_singleton]
        omega
      · rename_i hescape
        split at h
        · cases h
        · rename_i halpha
          cases h
          have hslash : c ≠ '\\' := by
            rintro rfl
            cases hescape
          simp [keepsBackslash, hslash, Char.isAlphanum, hdigit, halpha]

/-! ## Whole templates -/

theorem isPlain_cons (hc : c ≠ '\\') (rest : List Char) : isPlain (c :: rest) = isPlain rest := by
  cases rest <;> simp [isPlain, hc]

theorem isPlain_escape (c : Char) (rest : List Char) :
    isPlain ('\\' :: c :: rest) = (keepsBackslash c && isPlain rest) := by
  simp [isPlain]

/-- A text in which no backslash makes an escape has its characters for parts. -/
theorem parse_of_isPlain {fuel : Nat} (h : isPlain cs) (hfuel : cs.length < fuel) :
    parse fuel cs = some (cs.map .char) := by
  induction fuel generalizing cs with
  | zero => omega
  | succ fuel ih =>
    cases cs with
    | nil => rfl
    | cons c rest =>
      by_cases hc : c = '\\'
      · subst hc
        cases rest with
        | nil => simp [isPlain] at h
        | cons d rest =>
          rw [isPlain_escape, Bool.and_eq_true] at h
          simp only [length_cons] at hfuel
          rw [parse_escape, escapeAt?_of_keepsBackslash h.1, Option.bind_some, ih h.2 (by omega)]
          rfl
      · rw [isPlain_cons hc] at h
        simp only [length_cons] at hfuel
        rw [parse_cons hc, ih h (by omega)]
        rfl

/-- A template has at most as many parts as characters, and only a plain one has as many. -/
theorem of_parse {fuel : Nat} (hfuel : cs.length < fuel) (h : parse fuel cs = some parts) :
    parts.length ≤ cs.length ∧ (parts.length = cs.length → isPlain cs) := by
  induction fuel generalizing cs parts with
  | zero => omega
  | succ fuel ih =>
    cases cs with
    | nil =>
      cases h
      exact ⟨Nat.le_refl _, fun _ => rfl⟩
    | cons c rest =>
      by_cases hc : c = '\\'
      · subst hc
        cases rest with
        | nil => cases h
        | cons d rest =>
          simp only [length_cons] at hfuel ⊢
          rw [parse_escape, Option.bind_eq_some_iff] at h
          obtain ⟨found, hescape, h⟩ := h
          obtain ⟨part, rest'⟩ := found
          obtain ⟨more, hmore, heq⟩ := Option.bind_eq_some_iff.1 h
          cases heq
          dsimp only at hmore ⊢
          rw [length_append, isPlain_escape]
          rcases of_escapeAt? hescape with hfewer | ⟨hkeeps, hpart, rfl⟩
          · have hlength := (ih (by omega) hmore).1
            exact ⟨by omega, fun heq => by omega⟩
          · obtain ⟨hlength, hplain⟩ := ih (by omega) hmore
            refine ⟨by omega, fun heq => ?_⟩
            rw [hkeeps, hplain (by omega)]
            rfl
      · simp only [length_cons] at hfuel ⊢
        rw [parse_cons hc, Option.bind_eq_some_iff] at h
        obtain ⟨more, hmore, heq⟩ := h
        cases heq
        obtain ⟨hlength, hplain⟩ := ih (by omega) hmore
        rw [length_cons, isPlain_cons hc]
        exact ⟨by omega, fun heq => hplain (by omega)⟩

/-! ## Filled templates -/

theorem fill_map_char (cs replaced : List Char) : fill (cs.map .char) replaced = cs := by
  rw [fill, flatMap_map]
  exact flatMap_singleton' cs

theorem length_fill (h : .whole ∉ parts) (replaced : List Char) : (fill parts replaced).length = parts.length := by
  induction parts with
  | nil => rfl
  | cons part parts ih =>
    rw [mem_cons, not_or] at h
    cases part with
    | char c => exact congrArg (· + 1) (ih h.2)
    | whole => exact absurd rfl h.1

/-- The replaced text is put in whole. -/
theorem infix_fill (h : .whole ∈ parts) (replaced : List Char) : replaced <:+: fill parts replaced := by
  obtain ⟨before, after, rfl⟩ := append_of_mem h
  exact ⟨fill before replaced, fill after replaced, by simp [fill]⟩

/-- A text without an opening takes the place of a reference unchanged exactly if no backslash in it makes an
escape. -/
theorem fill_eq_self_iff {text : String} {replaced : List Char} (htext : Reference.hasOpening text.toList = false)
    (hreplaced : Reference.hasOpening replaced) :
    (∃ parts, ofText? text = some parts ∧ fill parts replaced = text.toList) ↔ isPlain text.toList := by
  have hfuel : text.toList.length < text.length + 1 := by
    rw [String.length_toList]
    omega
  constructor
  · rintro ⟨parts, hparts, hfill⟩
    have hwhole : .whole ∉ parts := by
      intro hmem
      obtain ⟨before, after, heq⟩ := infix_fill hmem replaced
      rw [hfill] at heq
      rw [← heq, Reference.hasOpening_append_left (Reference.hasOpening_append_right before hreplaced) after] at htext
      cases htext
    refine (of_parse hfuel hparts).2 ?_
    rw [← length_fill hwhole replaced, hfill]
  · intro hplain
    exact ⟨_, parse_of_isPlain hplain hfuel, fill_map_char _ _⟩

end ServerlessTaint.Template
