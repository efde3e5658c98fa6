import ServerlessTaint.Proofs.Phrases
import ServerlessTaint.Proofs.ReferencePaths

/-!
# Replacing the references to one path

A text is read as a phrase of literal parts and references (`render_phraseOf`). The references to a path are looked for
by a pattern in which a dot stands for any character, so those to paths that look like it are replaced with it, and
with bad luck what stands around them. If the text opens references nowhere but at those of the phrase, and none of
them is followed by what makes it look like a longer one, exactly the references to like paths are replaced
(`Phrase.replaceFrom_fill`).
-/

namespace ServerlessTaint.Reference

open List

variable {rest path other : List Char}

theorem opensNone_of_no_opening {cs : List Char} (h : hasOpening cs = false) (hrest : rest.head? ≠ some '\x7b') :
    opensNone cs rest := by
  induction cs with
  | nil => rfl
  | cons c cs ih =>
    have hcs : hasOpening cs = false := by
      rw [← Bool.not_eq_true] at h ⊢
      exact fun hopen => h (hasOpening_append_right [c] hopen)
    have hhere : selfOpening.isPrefixOf (c :: cs ++ rest) = false := by
      rw [← Bool.not_eq_true, isPrefixOf_iff_prefix]
      rintro ⟨more, heq⟩
      have hopening : selfOpening ++ more = '$' :: '\x7b' :: ("self:".toList ++ more) := rfl
      rw [hopening, cons_append] at heq
      obtain ⟨rfl, htail⟩ := cons.inj heq
      cases cs with
      | nil => exact hrest (by rw [← nil_append rest, ← htail]; rfl)
      | cons d cs =>
        obtain ⟨rfl, -⟩ := cons.inj htail
        cases h
    rw [opensNone, hhere, ih hcs]
    rfl

/-! ## Paths that look alike -/

/-- The second path looks like the first: it has the same characters, but any in the places of the first one's dots. -/
def isLike (path other : List Char) : Bool := path.length == other.length && startsLike path other

theorem startsLike_append (h : path.length = other.length) (more rest : List Char) :
    startsLike (path ++ more) (other ++ rest) = (startsLike path other && startsLike more rest) := by
  induction path generalizing other with
  | nil =>
    rw [eq_nil_of_length_eq_zero h.symm]
    rfl
  | cons c path ih =>
    cases other with
    | nil => cases h
    | cons d other =>
      rw [cons_append, cons_append, startsLike, startsLike, ih (Nat.succ.inj h), Bool.and_assoc]

theorem isLike_self (h : '\n' ∉ path) : isLike path path := by
  have hstarts : startsLike path path := by
    induction path with
    | nil => rfl
    | cons c path ih =>
      rw [mem_cons, not_or] at h
      rw [startsLike, ih h.2, Bool.and_true]
      split
      · exact bne_iff_ne.2 (Ne.symm h.1)
      · exact beq_self_eq_true c
  rw [isLike, hstarts, beq_self_eq_true]
  rfl

theorem length_eq_of_isLike (h : isLike path other) : path.length = other.length := by
  rw [isLike, Bool.and_eq_true, beq_iff_eq] at h
  exact h.1

theorem refersTo_mention (h : path.length = other.length) (rest : List Char) :
    refersTo path (mention other ++ rest) = isLike path other := by
  have hmention : mention other ++ rest = selfOpening ++ (other ++ '\x7d' :: rest) := by
    simp [mention]
  have hprefix : selfOpening.isPrefixOf (selfOpening ++ (other ++ '\x7d' :: rest)) = true :=
    isPrefixOf_iff_prefix.2 (prefix_append _ _)
  have hclose : startsLike ['\x7d'] ('\x7d' :: rest) := by
    cases rest <;> rfl
  rw [refersTo, hmention, hprefix, drop_left, startsLike_append h, hclose, isLike, h, beq_self_eq_true]
  simp

/-! ## Replacing -/

section

variable (path : List Char) (parts : List Template.Part)

theorem replaceFrom_nil : replaceFrom path parts 0 [] = [] := rfl

variable {rest other : List Char}

theorem replaceFrom_append {cs : List Char} (h : opensNone cs rest) :
    replaceFrom path parts 0 (cs ++ rest) = cs ++ replaceFrom path parts 0 rest := by
  induction cs with
  | nil => rfl
  | cons c cs ih =>
    rw [opensNone, Bool.and_eq_true, Bool.not_eq_true'] at h
    have hnot : refersTo path (c :: cs ++ rest) = false := by
      rw [refersTo, h.1]
      rfl
    rw [cons_append] at hnot ⊢
    rw [replaceFrom, hnot, ih h.2]
    rfl

theorem replaceFrom_skip (cs rest : List Char) :
    replaceFrom path parts cs.length (cs ++ rest) = replaceFrom path parts 0 rest := by
  induction cs with
  | nil => rfl
  | cons c cs ih => rw [length_cons, cons_append, replaceFrom, ih]

variable {path}

/-- A reference to a like path is replaced. -/
theorem replaceFrom_mention_of_like (h : isLike path other) (rest : List Char) :
    replaceFrom path parts 0 (mention other ++ rest) =
      Template.fill parts (mention other) ++ replaceFrom path parts 0 rest := by
  have hlength : path.length = other.length := length_eq_of_isLike h
  have hrefers := refersTo_mention hlength rest
  have htake : (mention other ++ rest).take (selfOpening.length + path.length + 1) = mention other := by
    rw [take_left']
    simp only [mention, length_append, length_singleton, hlength]
  have hskip := replaceFrom_skip path parts ("\x7bself:".toList ++ other ++ ['\x7d']) rest
  have hcount : ("\x7bself:".toList ++ other ++ ['\x7d']).length = selfOpening.length + path.length + 1 - 1 := by
    rw [length_append, length_append, hlength]
    change 6 + other.length + 1 = 7 + other.length + 1 - 1
    omega
  rw [hcount] at hskip
  generalize hmention : mention other = whole at hrefers htake ⊢
  rw [mention_eq_cons] at hmention
  subst hmention
  rw [cons_append] at hrefers htake ⊢
  rw [replaceFrom, hrefers, h, if_pos rfl]
  simp only
  rw [htake, hskip]

/-- A reference that does not look like one to the path stays. -/
theorem replaceFrom_mention_of_unlike (hother : IsReferencePath other)
    (h : refersTo path (mention other ++ rest) = false) :
    replaceFrom path parts 0 (mention other ++ rest) = mention other ++ replaceFrom path parts 0 rest := by
  rw [mention_eq_cons, cons_append] at h ⊢
  rw [replaceFrom, h, replaceFrom_append path parts (opensNone_of_no_dollar hother.dollar_not_mem rest)]
  rfl

end

/-! ## Texts as phrases -/

namespace Phrase

/-- A phrase with one more literal character before it. -/
def prepend (c : Char) : Phrase → Phrase
  | literal text => literal (c :: text)
  | reference before path after => reference (c :: before) path after

theorem render_prepend (c : Char) (p : Phrase) : (p.prepend c).render = c :: p.render := by
  cases p <;> rfl

theorem paths_prepend (c : Char) (p : Phrase) : (p.prepend c).paths = p.paths := by
  cases p <;> rfl

/-- The written form of a phrase has its references as they are. -/
theorem render_eq_fill (p : Phrase) : p.render = p.fill mention := by
  induction p with
  | literal text => rfl
  | reference before path after ih =>
    rw [render, fill, ih]
    rfl

end Phrase

/-- The phrase that a text is, after a number of characters were skipped. -/
def phraseFrom : Nat → List Char → Phrase
  | _, [] => .literal []
  | skip + 1, _ :: rest => phraseFrom skip rest
  | 0, c :: rest =>
    match pathAt? (c :: rest) with
    | some path => .reference [] path (phraseFrom (selfOpening.length + path.length) rest)
    | none => (phraseFrom 0 rest).prepend c

def phraseOf (text : List Char) : Phrase := phraseFrom 0 text

theorem phraseFrom_skip (cs rest : List Char) : phraseFrom cs.length (cs ++ rest) = phraseOf rest := by
  induction cs with
  | nil => rfl
  | cons c cs ih => exact ih

theorem phraseOf_cons {c : Char} (h : pathAt? (c :: rest) = none) :
    phraseOf (c :: rest) = (phraseOf rest).prepend c := by
  rw [phraseOf, phraseFrom, h]
  rfl

theorem phraseOf_mention (h : IsReferencePath path) (rest : List Char) :
    phraseOf (mention path ++ rest) = .reference [] path (phraseOf rest) := by
  have hat := pathAt?_mention h rest
  have hcount : selfOpening.length + path.length = ("\x7bself:".toList ++ path ++ ['\x7d']).length := by
    rw [length_append, length_append]
    change 7 + path.length = 6 + path.length + 1
    omega
  rw [mention_eq_cons, cons_append] at hat ⊢
  rw [phraseOf, phraseFrom, hat]
  simp only
  rw [hcount, phraseFrom_skip]

/-- The induction by which a text is read: a reference at its start, or a literal character. -/
theorem text_induction {P : List Char → Prop} (nil : P [])
    (mention : ∀ path rest, IsReferencePath path → P rest → P (mention path ++ rest))
    (char : ∀ c rest, pathAt? (c :: rest) = none → P rest → P (c :: rest)) (text : List Char) : P text := by
  induction hn : text.length using Nat.strongRecOn generalizing text with
  | ind n ih =>
    cases text with
    | nil => exact nil
    | cons c rest =>
      cases hat : pathAt? (c :: rest) with
      | none => exact char c rest hat (ih rest.length (by rw [← hn]; simp) rest rfl)
      | some path =>
        obtain ⟨hpath, more, heq⟩ := of_pathAt? hat
        rw [heq]
        refine mention path more hpath (ih more.length ?_ more rfl)
        rw [← hn, heq, mention_eq_cons, cons_append, length_cons, length_append]
        omega

theorem render_phraseOf (text : List Char) : (phraseOf text).render = text := by
  induction text using text_induction with
  | nil => rfl
  | mention path rest hpath ih =>
    rw [phraseOf_mention hpath, Phrase.render, ih]
    rfl
  | char c rest hat ih => rw [phraseOf_cons hat, Phrase.render_prepend, ih]

theorem paths_phraseOf (text : List Char) : (phraseOf text).paths = paths text := by
  induction text using text_induction with
  | nil => rfl
  | mention path rest hpath ih => rw [phraseOf_mention hpath, Phrase.paths, ih, paths_mention_append hpath]
  | char c rest hat ih =>
    rw [phraseOf_cons hat, Phrase.paths_prepend, ih, paths, hat]
    rfl

/-! ## Phrases with some references replaced -/

namespace Phrase

/-- A phrase, with texts in the places of some references, opens references nowhere else, and none of those that are
left looks like one to a path of another length. -/
def apart (paths : List (List Char)) (value : List Char → List Char) : Phrase → Bool
  | literal text => opensNone text []
  | reference before path after =>
    opensNone before (value path ++ after.fill value) &&
      (if value path = mention path then
        paths.all fun other => !refersTo other (mention path ++ after.fill value) || other.length == path.length
      else opensNone (value path) (after.fill value)) &&
      after.apart paths value

variable {paths : List (List Char)} {value : List Char → List Char}

theorem fill_prepend (c : Char) (p : Phrase) : (p.prepend c).fill value = c :: p.fill value := by
  cases p <;> rfl

theorem apart_prepend {c : Char} (hc : c ≠ '$') (p : Phrase) :
    (p.prepend c).apart paths value = p.apart paths value := by
  cases p <;> simp [prepend, apart, opensNone, not_opens hc]

variable {path : List Char}

/-- Replacing the references to a path puts the template in the places of those to like paths that are left. -/
theorem replaceFrom_fill {p : Phrase} (hread : ∀ path ∈ p.paths, IsReferencePath path) (h : p.apart paths value)
    (hpath : path ∈ paths) (parts : List Template.Part) :
    replaceFrom path parts 0 (p.fill value) = p.fill fun other =>
      if value other = mention other ∧ isLike path other = true then Template.fill parts (mention other)
      else value other := by
  induction p with
  | literal text =>
    have hend := replaceFrom_append path parts h
    rwa [append_nil, replaceFrom_nil, append_nil] at hend
  | reference before other after ih =>
    rw [apart, Bool.and_eq_true, Bool.and_eq_true] at h
    obtain ⟨⟨hbefore, hhere⟩, hafter⟩ := h
    have hrest := ih (fun p hp => hread p (mem_cons_of_mem _ hp)) hafter
    rw [fill, fill, append_assoc, replaceFrom_append path parts hbefore, append_assoc]
    split at hhere
    · rename_i hleft
      rw [hleft]
      have hlength := all_eq_true.1 hhere path hpath
      by_cases hlike : isLike path other = true
      · rw [replaceFrom_mention_of_like parts hlike, hrest, if_pos ⟨rfl, hlike⟩]
      · have hunlike : refersTo path (mention other ++ after.fill value) = false := by
          rw [← Bool.not_eq_true]
          intro hrefers
          rw [hrefers, Bool.not_true, Bool.false_or, beq_iff_eq] at hlength
          rw [refersTo_mention hlength] at hrefers
          exact hlike hrefers
        rw [replaceFrom_mention_of_unlike parts (hread other mem_cons_self) hunlike, hrest, if_neg fun h => hlike h.2]
    · rename_i hreplaced
      rw [replaceFrom_append path parts hhere, hrest, if_neg fun h => hreplaced h.1]

/-- The references that a phrase holds with texts in the places of some are those that are left. -/
theorem mem_paths_fill {p : Phrase} (hread : ∀ path ∈ p.paths, IsReferencePath path) (h : p.apart paths value)
    (hpath : path ∈ Reference.paths (p.fill value)) : path ∈ p.paths ∧ value path = mention path := by
  induction p with
  | literal text =>
    have hend := paths_append_of_opensNone h
    rw [append_nil] at hend
    rw [fill, hend] at hpath
    cases hpath
  | reference before other after ih =>
    rw [apart, Bool.and_eq_true, Bool.and_eq_true] at h
    obtain ⟨⟨hbefore, hhere⟩, hafter⟩ := h
    have hrest := ih (fun p hp => hread p (mem_cons_of_mem _ hp)) hafter
    have hmore : path ∈ Reference.paths (after.fill value) →
        path ∈ (reference before other after).paths ∧ value path = mention path := by
      intro hmem
      exact ⟨mem_cons_of_mem _ (hrest hmem).1, (hrest hmem).2⟩
    rw [fill, append_assoc, paths_append_of_opensNone hbefore] at hpath
    split at hhere
    · rename_i hleft
      rw [hleft, paths_mention_append (hread other mem_cons_self)] at hpath
      rcases mem_cons.1 hpath with rfl | hmem
      · exact ⟨mem_cons_self, hleft⟩
      · exact hmore hmem
    · rw [paths_append_of_opensNone hhere] at hpath
      exact hmore hpath

end Phrase

end ServerlessTaint.Reference
