import ServerlessTaint.Proofs.ReferenceSearch

/-!
# Texts with references into the same configuration

A phrase is a text made of literal characters and references `${self:path}`. It is tidy if no closing
brace follows a reference on its line, which in particular excludes a second reference there. A tidy
phrase is resolved by filling in what its paths lead to (`process_render`). In a phrase that is not
tidy, the search for the closing brace runs past the first reference, and a reference stays
(`hasOpening_process_of_untidy`).
-/

namespace ServerlessTaint.Reference

open List

/-! ## Openings -/

variable {cs rest before inner after : List Char}

theorem hasOpening_iff : hasOpening cs ↔ ∃ before after, cs = before ++ '$' :: '\x7b' :: after := by
  induction cs using hasOpening.induct with
  | case1 rest => exact ⟨fun _ => ⟨[], rest, rfl⟩, fun _ => rfl⟩
  | case2 c rest hne ih =>
    rw [hasOpening.eq_2 c rest hne, ih]
    constructor
    · rintro ⟨before, after, rfl⟩
      exact ⟨c :: before, after, rfl⟩
    · rintro ⟨before, after, heq⟩
      cases before with
      | nil =>
        obtain ⟨rfl, rfl⟩ := cons.inj heq
        exact absurd rfl (hne after rfl)
      | cons d before => exact ⟨before, after, (cons.inj heq).2⟩
  | case3 => simp [hasOpening]

theorem hasOpening_append_left (h : hasOpening cs) (rest : List Char) : hasOpening (cs ++ rest) := by
  obtain ⟨before, after, rfl⟩ := hasOpening_iff.1 h
  exact hasOpening_iff.2 ⟨before, after ++ rest, by simp⟩

theorem hasOpening_append_right (cs : List Char) (h : hasOpening rest) : hasOpening (cs ++ rest) := by
  obtain ⟨before, after, rfl⟩ := hasOpening_iff.1 h
  exact hasOpening_iff.2 ⟨cs ++ before, after, by simp⟩

theorem hasOpening_of_reference (h : HoldsReference cs) : hasOpening cs := by
  obtain ⟨before, inner, after, rfl, -⟩ := h
  exact hasOpening_iff.2 ⟨before, _, rfl⟩

theorem brace_mem_of_hasOpening (h : hasOpening cs) : '\x7b' ∈ cs := by
  obtain ⟨before, after, rfl⟩ := hasOpening_iff.1 h
  simp

/-- The reference that is found stands after literal characters. -/
theorem find?_append (hbefore : hasOpening before = false)
    (h : foundAt? ('$' :: '\x7b' :: rest) = some ⟨[], inner, after⟩) :
    find? (before ++ '$' :: '\x7b' :: rest) = some ⟨before, inner, after⟩ := by
  induction before with
  | nil => simp [find?, h]
  | cons c before ih =>
    have hnone : foundAt? (c :: before ++ '$' :: '\x7b' :: rest) = none := by
      rw [foundAt?_eq_none_iff]
      rintro ⟨inner', after', heq, -⟩
      rw [← Bool.not_eq_true] at hbefore
      cases before with
      | nil => simp at heq
      | cons d before =>
        simp only [cons_append, cons.injEq] at heq
        obtain ⟨rfl, rfl, -⟩ := heq
        exact hbefore rfl
    have hrest : hasOpening before = false := by
      rw [← Bool.not_eq_true] at hbefore ⊢
      exact fun hopen => hbefore (hasOpening_append_right [c] hopen)
    rw [cons_append] at hnone ⊢
    rw [find?, hnone, ih hrest]
    rfl

/-! ## Phrases -/

/-- A text that is literal to its end, or literal up to a reference to a path, after which it goes
on. -/
inductive Phrase where
  | literal (text : List Char)
  | reference (before path : List Char) (after : Phrase)
  deriving DecidableEq, Repr

/-- The source of references into the same configuration. -/
def selfSource : List Char := "self:".toList

def textAtPath? (config : Value) (path : List Char) : Option (List Char) :=
  textAt? config (selfSource ++ path)

/-- The characters can be the path of a reference: a comma would begin an alternative, and a brace or a
line end would end the reference. -/
def IsPath (path : List Char) : Prop := ∀ c ∈ path, c ≠ ',' ∧ c ≠ '\x7d' ∧ c ≠ '\n'

instance (path : List Char) : Decidable (IsPath path) := List.decidableBAll _ path

/-- The characters are neither braces nor commas. -/
def IsBare (cs : List Char) : Prop := ∀ c ∈ cs, c ≠ '\x7b' ∧ c ≠ '\x7d' ∧ c ≠ ','

instance (cs : List Char) : Decidable (IsBare cs) := List.decidableBAll _ cs

namespace Phrase

def render : Phrase → List Char
  | literal text => text
  | reference before path after => before ++ wrap (selfSource ++ path) ++ after.render

/-- A phrase with texts in the places of its references. -/
def fill (value : List Char → List Char) : Phrase → List Char
  | literal text => text
  | reference before path after => before ++ value path ++ after.fill value

def paths : Phrase → List (List Char)
  | literal _ => []
  | reference _ path after => path :: after.paths

/-- Literal parts hold no opening, and paths are paths. -/
def WellFormed : Phrase → Prop
  | literal text => hasOpening text = false
  | reference before path after => hasOpening before = false ∧ IsPath path ∧ after.WellFormed

/-- No reference is followed by a closing brace on its line. -/
def Tidy : Phrase → Prop
  | literal _ => True
  | reference _ _ after => '\x7d' ∉ firstLine after.render ∧ after.Tidy

/-- The literal parts have neither braces nor commas, and the paths have no opening brace. -/
def Simple : Phrase → Prop
  | literal text => IsBare text
  | reference before path after => IsBare before ∧ '\x7b' ∉ path ∧ after.Simple

instance decidableWellFormed : (p : Phrase) → Decidable p.WellFormed
  | literal text => inferInstanceAs (Decidable (hasOpening text = false))
  | reference before path after =>
    have := decidableWellFormed after
    inferInstanceAs (Decidable (hasOpening before = false ∧ IsPath path ∧ after.WellFormed))

instance decidableTidy : (p : Phrase) → Decidable p.Tidy
  | literal _ => inferInstanceAs (Decidable True)
  | reference _ _ after =>
    have := decidableTidy after
    inferInstanceAs (Decidable ('\x7d' ∉ firstLine after.render ∧ after.Tidy))

instance decidableSimple : (p : Phrase) → Decidable p.Simple
  | literal text => inferInstanceAs (Decidable (IsBare text))
  | reference before path after =>
    have := decidableSimple after
    inferInstanceAs (Decidable (IsBare before ∧ '\x7b' ∉ path ∧ after.Simple))

variable {p : Phrase} {value : List Char → List Char}

theorem fill_congr {value' : List Char → List Char} (h : ∀ path ∈ p.paths, value path = value' path) :
    p.fill value = p.fill value' := by
  induction p with
  | literal text => rfl
  | reference before path after ih =>
    rw [fill, fill, h path mem_cons_self, ih fun path' h' => h path' (mem_cons_of_mem _ h')]

/-- A phrase without references is its own text. -/
theorem fill_of_no_paths (h : p.paths = []) (value : List Char → List Char) : p.fill value = p.render := by
  cases p with
  | literal text => rfl
  | reference => cases h

theorem render_reference (before path : List Char) (after : Phrase) :
    (reference before path after).render =
      before ++ '$' :: '\x7b' :: ((selfSource ++ path) ++ '\x7d' :: after.render) := by
  simp [render, wrap]

theorem hasOpening_render_reference (before path : List Char) (after : Phrase) :
    hasOpening (reference before path after).render :=
  hasOpening_iff.2 ⟨before, _, render_reference before path after⟩

theorem paths_eq_nil_iff (hp : p.WellFormed) : p.paths = [] ↔ hasOpening p.render = false := by
  cases p with
  | literal text => exact iff_of_true rfl hp
  | reference before path after => simp [paths, hasOpening_render_reference]

/-- No opening brace gets into a phrase that has none in its literal parts. -/
theorem brace_not_mem_fill (h : p.Simple) (hvalue : ∀ path ∈ p.paths, '\x7b' ∉ value path) : '\x7b' ∉ p.fill value := by
  induction p with
  | literal text => exact fun hmem => (h _ hmem).1 rfl
  | reference before path after ih =>
    have hbefore : '\x7b' ∉ before := fun hmem => (h.1 _ hmem).1 rfl
    have hafter := ih h.2.2 fun path' h' => hvalue path' (mem_cons_of_mem _ h')
    simp [fill, hbefore, hvalue path mem_cons_self, hafter]

/-- A phrase filled with a text that holds an opening holds one. -/
theorem hasOpening_fill {path : List Char} (hpath : path ∈ p.paths) (hopen : hasOpening (value path)) :
    hasOpening (p.fill value) := by
  induction p with
  | literal text => cases hpath
  | reference before path' after ih =>
    rcases mem_cons.1 hpath with rfl | hrest
    · exact hasOpening_append_left (hasOpening_append_right before hopen) _
    · exact hasOpening_append_right _ (ih hrest)

end Phrase

/-! ## Tidy phrases -/

theorem process_of_no_opening (s : Sources) (h : hasOpening cs = false) : process s cs = cs :=
  process_of_no_reference s fun href => by rw [hasOpening_of_reference href] at h; cases h

theorem target_of_no_comma (h : ',' ∉ inner) : target inner = .named inner := by
  simp [target, alternative?, h]

theorem find?_of_no_brace (h : '\x7d' ∉ cs) : find? cs = none := by
  rw [find?_eq_none_iff]
  rintro ⟨before, inner, after, rfl, -⟩
  simp at h

/-- A name with the reference that is nested in it resolved. -/
def unnested (s : Sources) (named : List Char) : List Char :=
  match find? named with
  | none => named
  | some nested => nested.before ++ process s (wrap nested.inner) ++ nested.after

/-- A text with its first reference replaced by what it names; texts that name nothing stay. -/
def replaced (s : Sources) (value : List Char) (found : Found) (name : List Char) : List Char :=
  match textAt? s.config name with
  | some text => process s found.before ++ text ++ process s found.after
  | none =>
    if (fileValue? ('\x7b' :: name ++ ['\x7d'])).isSome then s.fromFile ('\x7b' :: name ++ ['\x7d'])
    else value

theorem process_of_named (s : Sources) {value named : List Char} {found : Found}
    (hfound : find? value = some found) (hnamed : target found.inner = .named named) :
    process s value = replaced s value found (unnested s named) := by
  rw [process]
  split
  · rename_i hnone
    rw [hfound] at hnone
    cases hnone
  · rename_i found' hfound'
    obtain rfl : found = found' := Option.some.inj (hfound.symm.trans hfound')
    split
    · rename_i text hliteral
      rw [hnamed] at hliteral
      cases hliteral
    · rename_i named' hnamed'
      refine congrArg (replaced s value found) ?_
      unfold unnested
      split <;> simp_all

/-- A reference that leads to a text is replaced by it, if its line ends at the closing brace that
belongs to it; the text after it is resolved on its own. -/
theorem process_reference (s : Sources) {path text : List Char} (hbefore : hasOpening before = false)
    (hpath : IsPath path) (hline : '\x7d' ∉ firstLine after) (htext : textAtPath? s.config path = some text) :
    process s (before ++ '$' :: '\x7b' :: ((selfSource ++ path) ++ '\x7d' :: after)) =
      before ++ text ++ process s after := by
  have hinner : ∀ c, c = ',' ∨ c = '\x7d' ∨ c = '\n' → c ∉ selfSource ++ path := by
    intro c hc hmem
    rcases mem_append.1 hmem with h | h
    · revert h
      rcases hc with rfl | rfl | rfl <;> decide
    · have := hpath c h
      grind
  have hfind : find? (before ++ '$' :: '\x7b' :: ((selfSource ++ path) ++ '\x7d' :: after)) =
      some ⟨before, selfSource ++ path, after⟩ :=
    find?_append hbefore (foundAt?_opening (hinner '\n' (by simp)) hline)
  have hnested : unnested s (selfSource ++ path) = selfSource ++ path := by
    rw [unnested, find?_of_no_brace (hinner '\x7d' (by simp))]
  rw [process_of_named s hfind (target_of_no_comma (hinner ',' (by simp))), hnested]
  rw [textAtPath?] at htext
  simp [replaced, htext, process_of_no_opening s hbefore]

/-- A tidy phrase is resolved by filling in the texts that its paths lead to. -/
theorem process_render (s : Sources) {p : Phrase} (hp : p.WellFormed) (htidy : p.Tidy)
    {value : List Char → List Char}
    (hvalue : ∀ path ∈ p.paths, textAtPath? s.config path = some (value path)) : process s p.render = p.fill value := by
  induction p with
  | literal text => exact process_of_no_opening s hp
  | reference before path after ih =>
    obtain ⟨hbefore, hpath, hafter⟩ := hp
    obtain ⟨hline, htidy⟩ := htidy
    rw [Phrase.render_reference,
      process_reference s hbefore hpath hline (hvalue path mem_cons_self),
      ih hafter htidy fun path' h => hvalue path' (mem_cons_of_mem _ h)]
    rfl

/-! ## Untidy phrases -/

/-- Every opening brace is followed by the first letter of `self:`, so none opens a reference to a
file. -/
def OpensSelf (cs : List Char) : Prop :=
  ∀ before after, cs = before ++ '\x7b' :: after → after.head? = some 's'

namespace OpensSelf

variable {a b : List Char}

theorem of_no_brace (h : '\x7b' ∉ a) : OpensSelf a := by
  rintro before after rfl
  simp at h

theorem right (h : OpensSelf (a ++ b)) : OpensSelf b := by
  rintro before after rfl
  exact h (a ++ before) after (by simp)

/-- The first part of a text, if what follows cannot follow an opening brace. -/
theorem left {c : Char} (h : OpensSelf (a ++ c :: b)) (hc : c ≠ 's') : OpensSelf a := by
  rintro before after rfl
  have hhead := h before (after ++ c :: b) (by simp)
  cases after with
  | nil => exact absurd (by simpa using hhead) hc
  | cons d after => simpa using hhead

theorem append (ha : OpensSelf a) (hb : OpensSelf b) : OpensSelf (a ++ b) := by
  intro before after heq
  rcases append_eq_append_iff.1 heq with ⟨more, rfl, hmore⟩ | ⟨more, rfl, hmore⟩
  · exact hb more after hmore
  · cases more with
    | nil => exact hb [] after (by simpa using hmore.symm)
    | cons d more =>
      obtain ⟨rfl, rfl⟩ := cons.inj hmore
      have hhead := ha before more rfl
      cases more with
      | nil => cases hhead
      | cons e more => exact hhead

/-- Such a text holds no reference to a value in a file. -/
theorem fileValue?_eq_none (h : OpensSelf a) : fileValue? a = none := by
  have hat : ∀ {cs : List Char}, OpensSelf cs → fileValueAt? cs = none := by
    intro cs hcs
    have hopening : fileOpening.isPrefixOf cs = false := by
      rw [← Bool.not_eq_true, isPrefixOf_iff_prefix]
      rintro ⟨rest, rfl⟩
      have hhead : some 'f' = some 's' := hcs [] _ rfl
      exact absurd hhead (by decide)
    simp [fileValueAt?, afterFileOpening?, hopening]
  rw [fileValue?]
  induction a with
  | nil => exact hat h
  | cons c rest ih =>
    rw [firstSome, hat h]
    exact ih (right (a := [c]) h)

end OpensSelf

namespace Phrase

variable {p : Phrase}

theorem opensSelf_render (h : p.Simple) : OpensSelf p.render := by
  induction p with
  | literal text => exact .of_no_brace fun hmem => (h _ hmem).1 rfl
  | reference before path after ih =>
    obtain ⟨hbefore, hpath, hafter⟩ := h
    have hopen : OpensSelf ['$', '\x7b', 's'] := by
      intro b a heq
      match b, heq with
      | [], heq => simp at heq
      | [_], heq =>
        simp only [cons_append, nil_append, cons.injEq] at heq
        rw [← heq.2.2]
        rfl
      | [_, _], heq => simp at heq
      | _ :: _ :: _ :: b, heq => simp at heq
    have hrest : '\x7b' ∉ "elf:".toList ++ path ++ ['\x7d'] := by
      simp only [mem_append, not_or]
      exact ⟨⟨by decide, hpath⟩, by decide⟩
    have hwrap : wrap (selfSource ++ path) = ['$', '\x7b', 's'] ++ ("elf:".toList ++ path ++ ['\x7d']) := rfl
    exact ((OpensSelf.of_no_brace fun hmem => (hbefore _ hmem).1 rfl).append
      (hopen.append (.of_no_brace hrest))).append (ih hafter)

theorem brace_not_mem_render (h : p.Simple) (hpaths : p.paths = []) : '\x7d' ∉ p.render := by
  cases p with
  | literal text => exact fun hmem => (h _ hmem).2.1 rfl
  | reference => cases hpaths

theorem comma_not_mem_render (hp : p.WellFormed) (h : p.Simple) : ',' ∉ p.render := by
  induction p with
  | literal text => exact fun hmem => (h _ hmem).2.2 rfl
  | reference before path after ih =>
    have hpath : ',' ∉ path := fun hmem => (hp.2.1 _ hmem).1 rfl
    have hbefore : ',' ∉ before := fun hmem => (h.1 _ hmem).2.2 rfl
    have hself : ',' ∉ selfSource := by decide
    simp [render, wrap, hbefore, hself, hpath, ih hp.2.2 h.2.2]

end Phrase

/-- The parts of a text at a reference; what stands in the reference begins like `self:`. -/
theorem OpensSelf.parts (h : OpensSelf (before ++ '$' :: '\x7b' :: (inner ++ '\x7d' :: after))) :
    OpensSelf before ∧ OpensSelf inner ∧ inner.head? = some 's' ∧ OpensSelf after ∧ OpensSelf (wrap inner) := by
  have hright : OpensSelf (('$' :: '\x7b' :: inner) ++ '\x7d' :: after) := by simpa using h.right
  have hopen : OpensSelf ('$' :: '\x7b' :: inner) := hright.left (by decide)
  refine ⟨h.left (by decide), OpensSelf.right (a := ['$', '\x7b']) hopen, hopen ['$'] inner rfl, ?_,
    hopen.append (.of_no_brace (by decide))⟩
  exact OpensSelf.right (a := ('$' :: '\x7b' :: inner) ++ ['\x7d']) (by simpa using hright)

/-- A name that begins like `self:` is no reference to a value in a file. -/
theorem OpensSelf.no_file {name : List Char} (h : OpensSelf name) (hhead : name.head? = some 's') :
    fileValue? ('\x7b' :: name ++ ['\x7d']) = none := by
  apply OpensSelf.fileValue?_eq_none
  refine OpensSelf.append ?_ (.of_no_brace (by decide))
  rintro (_ | ⟨c, before⟩) after heq
  · rw [← (cons.inj heq).2]
    exact hhead
  · exact h before after (cons.inj heq).2

theorem OpensSelf.unnested {s : Sources} (h : OpensSelf inner) (hhead : inner.head? = some 's')
    (hnested : ∀ nested, find? inner = some nested → OpensSelf (process s (wrap nested.inner))) :
    OpensSelf (unnested s inner) ∧ (Reference.unnested s inner).head? = some 's' := by
  unfold Reference.unnested
  cases hfind : find? inner with
  | none => exact ⟨h, hhead⟩
  | some nested =>
    obtain ⟨heq, -, -⟩ := of_find? hfind
    obtain ⟨hbefore, -, -, hafter, -⟩ := OpensSelf.parts (heq ▸ h)
    refine ⟨(hbefore.append (hnested nested hfind)).append hafter, ?_⟩
    -- the nested reference does not stand at the very start, where an `s` stands
    cases hstart : nested.before with
    | nil => rw [heq, hstart] at hhead; exact absurd hhead (by simp)
    | cons c before =>
      rw [heq, hstart] at hhead
      simpa [hstart] using hhead

/-- Nothing before the first opening changes when a name is freed of a nested reference. -/
theorem prefix_unnested (s : Sources) {start : List Char} (hbrace : '\x7b' ∉ start)
    (hlast : start.getLast? ≠ some '$') (rest : List Char) : ∃ rest', unnested s (start ++ rest) = start ++ rest' := by
  unfold unnested
  cases hfind : find? (start ++ rest) with
  | none => exact ⟨rest, rfl⟩
  | some nested =>
    obtain ⟨heq, -, -⟩ := of_find? hfind
    rcases append_eq_append_iff.1 heq with ⟨more, hbefore, -⟩ | ⟨more, hstart, hmore⟩
    · exact ⟨more ++ process s (wrap nested.inner) ++ nested.after, by simp [hbefore]⟩
    · match more, hmore with
      | [], _ => exact ⟨process s (wrap nested.inner) ++ nested.after, by simp [hstart]⟩
      | [_], hmore =>
        obtain ⟨rfl, -⟩ := cons.inj hmore
        exact absurd (by simp [hstart]) hlast
      | _ :: _ :: tail, hmore =>
        simp only [cons_append, cons.injEq] at hmore
        obtain ⟨rfl, rfl, -⟩ := hmore
        exact absurd (by simp [hstart]) hbrace

theorem withoutSelf_self (path : List Char) : withoutSelf (selfSource ++ path) = path := rfl

section

variable (s : Sources) (htexts : ∀ name text, textAt? s.config name = some text → OpensSelf text)

include htexts

/-- Resolution brings no opening braces of another kind. -/
theorem opensSelf_process (value : List Char) (hvalue : OpensSelf value) (hcomma : ',' ∉ value) :
    OpensSelf (process s value) := by
  induction hn : value.length using Nat.strongRecOn generalizing value with
  | ind n ih =>
  cases hfound : find? value with
  | none => rwa [process_of_no_reference s (find?_eq_none_iff.1 hfound)]
  | some found =>
    have hlength := find?_length hfound
    obtain ⟨heq, -, -⟩ := of_find? hfound
    obtain ⟨hbefore, hinner, hhead, hafter, -⟩ := OpensSelf.parts (heq ▸ hvalue)
    have hcommas : ',' ∉ found.before ∧ ',' ∉ found.inner ∧ ',' ∉ found.after := by
      rw [heq] at hcomma
      simp only [mem_append, mem_cons, not_or] at hcomma
      exact ⟨hcomma.1, hcomma.2.2.2.1, hcomma.2.2.2.2.2⟩
    obtain ⟨hname, hnameHead⟩ := hinner.unnested (s := s) hhead fun nested hnested => by
      have hshorter := find?_length hnested
      obtain ⟨hinnerEq, -, -⟩ := of_find? hnested
      have hwrap : (wrap nested.inner).length = nested.inner.length + 3 := by simp [wrap]
      have hwithin : wrap nested.inner <:+: found.inner :=
        ⟨nested.before, nested.after, by rw [hinnerEq]; simp [wrap]⟩
      exact ih _ (by omega) _ (OpensSelf.parts (hinnerEq ▸ hinner)).2.2.2.2
        (fun hmem => hcommas.2.1 (hwithin.subset hmem)) rfl
    rw [process_of_named s hfound (target_of_no_comma hcommas.2.1), replaced]
    cases htext : textAt? s.config (unnested s found.inner) with
    | some text =>
      exact ((ih _ (by omega) _ hbefore hcommas.1 rfl).append (htexts _ _ htext)).append
        (ih _ (by omega) _ hafter hcommas.2.2 rfl)
    | none =>
      rw [hname.no_file hnameHead]
      exact hvalue

variable (hkeys : ∀ name, '\x7d' ∈ withoutSelf name → textAt? s.config name = none)

include hkeys

/-- A phrase stays as it is if a closing brace follows its first reference on the line: the search
takes all up to that brace for the reference, and no path has a brace in it. -/
theorem process_of_closing_brace {before path : List Char} {after : Phrase}
    (hp : (Phrase.reference before path after).WellFormed)
    (hsimple : (Phrase.reference before path after).Simple) (hbrace : '\x7d' ∈ firstLine after.render) :
    process s (Phrase.reference before path after).render = (Phrase.reference before path after).render := by
  obtain ⟨line, rest, hafter, hline, hrest⟩ := exists_last_brace hbrace
  have hstart : '\n' ∉ selfSource ++ path ++ ['\x7d'] ∧ '\x7b' ∉ selfSource ++ path ++ ['\x7d'] := by
    have hnewline : '\n' ∉ path := fun hmem => (hp.2.1 _ hmem).2.2 rfl
    have hopen : '\x7b' ∉ path := hsimple.2.1
    constructor <;> simp only [mem_append, not_or]
    · exact ⟨⟨by decide, hnewline⟩, by decide⟩
    · exact ⟨⟨by decide, hopen⟩, by decide⟩
  have hvalue : (Phrase.reference before path after).render =
      before ++ '$' :: '\x7b' :: (selfSource ++ path ++ ['\x7d'] ++ line ++ '\x7d' :: rest) := by
    simp [Phrase.render_reference, hafter]
  have hself := Phrase.opensSelf_render hsimple
  have hcomma := Phrase.comma_not_mem_render hp hsimple
  generalize (Phrase.reference before path after).render = value at hvalue hself hcomma ⊢
  generalize hname : selfSource ++ path ++ ['\x7d'] ++ line = name at hvalue
  have hfound : find? value = some ⟨before, name, rest⟩ := by
    rw [hvalue]
    refine find?_append hp.1 (foundAt?_opening ?_ hrest)
    rw [← hname, mem_append, not_or]
    exact ⟨hstart.1, hline⟩
  have hnameComma : ',' ∉ name := fun hmem => hcomma (by rw [hvalue]; simp [hmem])
  obtain ⟨-, hnameSelf, hhead, -, -⟩ := OpensSelf.parts (hvalue ▸ hself)
  obtain ⟨hfree, hfreeHead⟩ := hnameSelf.unnested (s := s) hhead fun nested hnested => by
    obtain ⟨heq, -, -⟩ := of_find? hnested
    have hwithin : wrap nested.inner <:+: name := ⟨nested.before, nested.after, by rw [heq]; simp [wrap]⟩
    exact opensSelf_process s htexts _ (OpensSelf.parts (heq ▸ hnameSelf)).2.2.2.2
      fun hmem => hnameComma (hwithin.subset hmem)
  have hnone : textAt? s.config (unnested s name) = none := by
    obtain ⟨rest', hrest'⟩ := prefix_unnested s hstart.2 (by simp) line
    rw [hname] at hrest'
    apply hkeys
    rw [hrest', append_assoc, append_assoc, withoutSelf_self]
    simp
  rw [process_of_named s hfound (target_of_no_comma hnameComma), replaced, hnone,
    hfree.no_file hfreeHead]
  rfl

/-- In a phrase that is not tidy a reference stays. -/
theorem hasOpening_process_of_untidy {p : Phrase} (hp : p.WellFormed) (hsimple : p.Simple)
    (hpaths : ∀ path ∈ p.paths, (textAtPath? s.config path).isSome) (huntidy : ¬ p.Tidy) :
    hasOpening (process s p.render) := by
  induction p with
  | literal text => exact absurd trivial huntidy
  | reference before path after ih =>
    by_cases hbrace : '\x7d' ∈ firstLine after.render
    · rw [process_of_closing_brace s htexts hkeys hp hsimple hbrace]
      exact Phrase.hasOpening_render_reference before path after
    · have huntidy' : ¬ after.Tidy := fun htidy => huntidy ⟨hbrace, htidy⟩
      obtain ⟨text, htext⟩ := Option.isSome_iff_exists.1 (hpaths path mem_cons_self)
      rw [Phrase.render_reference, process_reference s hp.1 hp.2.1 hbrace htext]
      exact hasOpening_append_right _
        (ih hp.2.2 hsimple.2.2 (fun path' h => hpaths path' (mem_cons_of_mem _ h)) huntidy')

end

end ServerlessTaint.Reference
