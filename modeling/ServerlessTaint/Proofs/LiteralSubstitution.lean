import ServerlessTaint.Proofs.PlainTemplates
import ServerlessTaint.Proofs.ReplacedPaths

/-!
# Literal substitution

References are replaced one path after the other: the path is a pattern, in which a dot stands for any character, and
the text that it leads to is a template, in which a backslash starts an escape. A set of paths is unambiguous if none
of the texts holds an escape and paths that look alike lead to the same text. These are exactly the sets of paths for
which references are replaced by the texts themselves (`substitution_literal_iff`).

The rounds end early once no reference is left. A round on a text without references changes nothing, so bounds on the
number of rounds add up (`rounds_add_up`).
-/

namespace ServerlessTaint.Reference

open List Template

/-! ## Texts at paths -/

/-- What the reference to a path stands for: the text there, or itself if there is none. -/
def literalAt (config : Value) (path : List Char) : List Char := (textAtPath? config path).getD (mention path)

/-- A text with its references replaced by what they stand for. -/
def substituted (config : Value) (text : List Char) : List Char := (phraseOf text).fill (literalAt config)

theorem hasOpening_mention (path : List Char) : hasOpening (mention path) := rfl

variable {config : Value} {v path text : List Char}

theorem ne_mention (h : hasOpening v = false) (path : List Char) : v ≠ mention path := by
  rintro rfl
  cases h

theorem literalAt_of_missing (h : textAtPath? config path = none) : literalAt config path = mention path := by
  rw [literalAt, h, Option.getD_none]

theorem literalAt_of_text (h : textAtPath? config path = some v) : literalAt config path = v := by
  rw [literalAt, h, Option.getD_some]

/-- A reference that stands for a text without an opening leads to it. -/
theorem textAtPath?_of_literalAt (h : literalAt config path = v) (hopen : hasOpening v = false) :
    textAtPath? config path = some v := by
  cases hv : textAtPath? config path with
  | none =>
    rw [literalAt_of_missing hv] at h
    exact absurd h.symm (ne_mention hopen path)
  | some w => rw [← h, literalAt_of_text hv]

theorem templateAt?_eq (config : Value) (path : List Char) :
    templateAt? config path = (textAtPath? config path).bind fun v => ofText? (String.ofList v) := by
  have hpath : withoutSelf (selfSource ++ path) = path := rfl
  rw [templateAt?, textAtPath?, textAt?, hpath]
  cases (config.getAll ((Text.splitAt '.' path).map String.ofList)).toOption with
  | none => rfl
  | some v =>
    cases htext : v.text? with
    | none => simp [htext]
    | some text => simp [htext]

theorem templateAt?_of_isPlain (h : textAtPath? config path = some v) (hplain : isPlain v) :
    templateAt? config path = some (v.map .char) := by
  have hparse := parse_of_isPlain hplain (Nat.lt_succ_self v.length)
  rw [templateAt?_eq, h, Option.bind_some, ofText?, String.toList_ofList, String.length_ofList, hparse]

theorem replacePath_of_missing (h : textAtPath? config path = none) (text : List Char) :
    replacePath config text path = text := by
  rw [replacePath, templateAt?_eq, h]
  rfl

theorem replacePath_of_isPlain (h : textAtPath? config path = some v) (hplain : isPlain v)
    (text : List Char) : replacePath config text path = replaceFrom path (v.map .char) 0 text := by
  rw [replacePath, templateAt?_of_isPlain h hplain]

/-! ## Rounds -/

theorem resolveChars_of_no_paths (config : Value) (n : Nat) (h : paths text = []) :
    resolveChars config n text = text := by
  cases n with
  | zero => rfl
  | succ n =>
    rw [resolveChars, h]
    rfl

theorem resolveChars_succ (config : Value) (n : Nat) (text : List Char) :
    resolveChars config (n + 1) text = resolveChars config n (round config text) := by
  by_cases h : paths text = []
  · rw [resolveChars_of_no_paths config _ h, round, h, foldl_nil, resolveChars_of_no_paths config _ h]
  · rw [resolveChars, if_neg (by rwa [List.isEmpty_iff])]

/-- Rounds change nothing in a text whose paths lead nowhere. -/
theorem resolveChars_of_missing (h : ∀ path ∈ paths text, textAtPath? config path = none) (n : Nat) :
    resolveChars config n text = text := by
  have hround : round config text = text := by
    rw [round]
    generalize paths text = todo at h
    induction todo with
    | nil => rfl
    | cons path todo ih =>
      rw [foldl_cons, replacePath_of_missing (h path mem_cons_self)]
      exact ih fun p hp => h p (mem_cons_of_mem _ hp)
  induction n with
  | zero => rfl
  | succ n ih => rw [resolveChars_succ, hround, ih]

/-! ## One path after the other -/

/-- What stands for the reference to a path once others have been replaced: those to paths that look like them have
been replaced with them. -/
def standing (config : Value) (done : List (List Char)) (path : List Char) : List Char :=
  if done.any fun p => isLike p path && (textAtPath? config p).isSome then literalAt config path else mention path

def leading (config : Value) (text : List Char) : List (List Char) :=
  (paths text).filter fun path => (textAtPath? config path).isSome

/-- While its references are replaced one after the other, a text opens no new ones, and none that is left is taken for
one to a path of another length. -/
def Steady (config : Value) (text : List Char) : Prop :=
  ∀ k ≤ (paths text).length,
    (phraseOf text).apart (leading config text) (standing config ((paths text).take k)) = true

instance (config : Value) (text : List Char) : Decidable (Steady config text) := Nat.decidableBallLE _ _

/-- No text at the paths holds an escape, and a path that looks like one with a text leads to the same text. -/
structure Unambiguous (config : Value) (ps : List (List Char)) : Prop where
  plain : ∀ p ∈ ps, ∀ v ∈ textAtPath? config p, Template.isPlain v = true
  alike : ∀ p ∈ ps, ∀ q ∈ ps, isLike p q = true → ∀ v ∈ textAtPath? config p, textAtPath? config q = some v

theorem unambiguous_iff {ps : List (List Char)} : Unambiguous config ps ↔
    (∀ p ∈ ps, ∀ v ∈ textAtPath? config p, isPlain v) ∧
      ∀ p ∈ ps, ∀ q ∈ ps, isLike p q → ∀ v ∈ textAtPath? config p, textAtPath? config q = some v :=
  ⟨fun h => ⟨h.plain, h.alike⟩, fun h => ⟨h.1, h.2⟩⟩

instance (config : Value) (ps : List (List Char)) : Decidable (Unambiguous config ps) :=
  decidable_of_iff _ unambiguous_iff.symm

section

variable {config : Value} {text : List Char}

theorem isReferencePath_of_mem_phraseOf : ∀ path ∈ (phraseOf text).paths, IsReferencePath path := by
  intro path hpath
  rw [paths_phraseOf] at hpath
  exact isReferencePath_of_mem_paths hpath

theorem mention_filled (text : List Char) : (phraseOf text).fill mention = text := by
  rw [← Phrase.render_eq_fill, render_phraseOf]

theorem standing_cases (config : Value) (done : List (List Char)) (path : List Char) :
    standing config done path = literalAt config path ∨ standing config done path = mention path := by
  rw [standing]
  split
  · exact .inl rfl
  · exact .inr rfl

variable {p v path : List Char} {done ps : List (List Char)}

theorem standing_concat (hv : textAtPath? config p = some v) (q : List Char) :
    standing config (done ++ [p]) q = if isLike p q = true then literalAt config q else standing config done q := by
  by_cases hpq : isLike p q = true <;> simp [standing, hv, hpq]

theorem standing_concat_of_missing (h : textAtPath? config p = none) (q : List Char) :
    standing config (done ++ [p]) q = standing config done q := by
  simp [standing, h]

/-- Replacing the references to one more path: those to like paths take its text, which is theirs too. -/
theorem standing_replaced (h : Unambiguous config ps) {q : List Char} (hp : p ∈ ps) (hq : q ∈ ps)
    (hv : textAtPath? config p = some v) :
    (if standing config done q = mention q ∧ isLike p q = true then v else standing config done q) =
      standing config (done ++ [p]) q := by
  rw [standing_concat hv]
  by_cases hpq : isLike p q = true
  · have hliteral : literalAt config q = v := literalAt_of_text (h.alike p hp q hq hpq v hv)
    rw [if_pos hpq, hliteral]
    split
    · rfl
    · rename_i hreplaced
      rcases standing_cases config done q with hstanding | hstanding
      · rw [hstanding, hliteral]
      · exact absurd ⟨hstanding, hpq⟩ hreplaced
  · rw [if_neg hpq, if_neg fun hboth => hpq hboth.2]

/-- After some paths, the references to them and to like paths are replaced by what they stand for. -/
theorem foldl_replacePath (h : Unambiguous config ps) (hps : ∀ path ∈ paths text, path ∈ ps)
    (hsteady : Steady config text) {k : Nat} (hk : k ≤ (paths text).length) :
    ((paths text).take k).foldl (replacePath config) text =
      (phraseOf text).fill (standing config ((paths text).take k)) := by
  induction k with
  | zero => exact (mention_filled text).symm
  | succ k ih =>
    have hlt : k < (paths text).length := hk
    have hmem : (paths text)[k] ∈ paths text := getElem_mem hlt
    have happly := hsteady k (Nat.le_of_lt hlt)
    rw [← take_append_getElem hlt, foldl_append, ih (Nat.le_of_lt hlt)]
    generalize (paths text)[k] = p at hmem
    rw [foldl_cons, foldl_nil]
    cases hv : textAtPath? config p with
    | none =>
      rw [replacePath_of_missing hv]
      exact Phrase.fill_congr fun q _ => (standing_concat_of_missing hv q).symm
    | some v =>
      have hleading : p ∈ leading config text := mem_filter.2 ⟨hmem, by rw [hv]; rfl⟩
      rw [replacePath_of_isPlain hv (h.plain p (hps p hmem) v hv),
        Phrase.replaceFrom_fill isReferencePath_of_mem_phraseOf happly hleading]
      refine Phrase.fill_congr fun q hq => ?_
      rw [paths_phraseOf] at hq
      rw [fill_map_char]
      exact standing_replaced h (hps p hmem) (hps q hq) hv

/-- After all paths, each reference is replaced by what it stands for. -/
theorem standing_paths (h : path ∈ paths text) : standing config (paths text) path = literalAt config path := by
  rw [standing]
  split
  · rfl
  · rename_i hnone
    cases hv : textAtPath? config path with
    | none => exact (literalAt_of_missing hv).symm
    | some v =>
      have hself := isLike_self ((isReferencePath_of_mem_paths h).not_mem (c := '\n') (by decide))
      refine absurd (any_eq_true.2 ⟨path, h, ?_⟩) hnone
      rw [hself, hv]
      rfl

theorem fill_standing_paths : (phraseOf text).fill (standing config (paths text)) = substituted config text := by
  refine Phrase.fill_congr fun path hpath => ?_
  rw [paths_phraseOf] at hpath
  exact standing_paths hpath

/-- The references that are left after a round lead nowhere. -/
theorem textAtPath?_of_mem_substituted (hsteady : Steady config text)
    (hvalues : ∀ path ∈ paths text, ∀ v ∈ textAtPath? config path, hasOpening v = false)
    (h : path ∈ paths (substituted config text)) : textAtPath? config path = none := by
  have happly := hsteady (paths text).length (Nat.le_refl _)
  rw [take_length] at happly
  rw [← fill_standing_paths] at h
  obtain ⟨hmem, hleft⟩ := Phrase.mem_paths_fill isReferencePath_of_mem_phraseOf happly h
  rw [paths_phraseOf] at hmem
  rw [standing_paths hmem] at hleft
  cases hv : textAtPath? config path with
  | none => rfl
  | some v =>
    rw [literalAt_of_text hv] at hleft
    exact absurd hleft (ne_mention (hvalues path hmem v hv) path)

/-- Unambiguous paths are replaced literally, in any number of rounds. -/
theorem resolveChars_of_unambiguous (h : Unambiguous config ps) (hps : ∀ path ∈ paths text, path ∈ ps)
    (hvalues : ∀ path ∈ paths text, ∀ v ∈ textAtPath? config path, hasOpening v = false) (hsteady : Steady config text)
    (n : Nat) : resolveChars config (n + 1) text = substituted config text := by
  have hround : round config text = substituted config text := by
    have hrun := foldl_replacePath h hps hsteady (Nat.le_refl _)
    rwa [take_length, fill_standing_paths] at hrun
  rw [resolveChars_succ, hround]
  exact resolveChars_of_missing (fun path => textAtPath?_of_mem_substituted hsteady hvalues) n

end

/-! ## Listed references -/

/-- The references to some paths, each with a blank after it. -/
def listing : List (List Char) → List Char
  | [] => []
  | path :: ps => mention path ++ ' ' :: listing ps

section

variable {ps : List (List Char)} (hps : ∀ path ∈ ps, IsReferencePath path)

theorem phraseOf_listing_cons {path : List Char} (h : IsReferencePath path) (ps : List (List Char)) :
    phraseOf (listing (path :: ps)) = .reference [] path ((phraseOf (listing ps)).prepend ' ') := by
  rw [listing, phraseOf_mention h, phraseOf_cons (pathAt?_cons_of_ne (by decide) _)]

include hps

theorem paths_listing : paths (listing ps) = ps := by
  induction ps with
  | nil => rfl
  | cons path ps ih =>
    rw [forall_mem_cons] at hps
    rw [← paths_phraseOf, phraseOf_listing_cons hps.1, Phrase.paths, Phrase.paths_prepend, paths_phraseOf, ih hps.2]

theorem fill_listing (value : List Char → List Char) :
    (phraseOf (listing ps)).fill value = ps.flatMap fun path => value path ++ [' '] := by
  induction ps with
  | nil => rfl
  | cons path ps ih =>
    rw [forall_mem_cons] at hps
    rw [phraseOf_listing_cons hps.1, Phrase.fill, Phrase.fill_prepend, ih hps.2]
    simp

/-- The blanks keep listed references apart if their paths have one length. -/
theorem apart_listing {others : List (List Char)} (hlength : ∀ p ∈ others, ∀ q ∈ ps, p.length = q.length)
    {value : List Char → List Char} (hvalue : ∀ q ∈ ps, value q = mention q ∨ hasOpening (value q) = false) :
    (phraseOf (listing ps)).apart others value := by
  induction ps with
  | nil => rfl
  | cons path ps ih =>
    rw [forall_mem_cons] at hps hvalue
    have hrest := ih hps.2 (fun p hp q hq => hlength p hp q (mem_cons_of_mem _ hq)) hvalue.2
    rw [phraseOf_listing_cons hps.1, Phrase.apart, Phrase.apart_prepend (by decide), hrest, Phrase.fill_prepend,
      Bool.and_true, opensNone, Bool.true_and]
    split
    · rw [all_eq_true]
      intro other hother
      rw [hlength other hother path mem_cons_self, beq_self_eq_true, Bool.or_true]
    · rename_i hreplaced
      exact opensNone_of_no_opening (hvalue.1.resolve_left hreplaced) (by simp)

theorem steady_listing {config : Value} (hlength : ∀ p ∈ ps, ∀ q ∈ ps, p.length = q.length)
    (hvalues : ∀ path ∈ ps, ∀ v ∈ textAtPath? config path, hasOpening v = false) : Steady config (listing ps) := by
  intro k _
  refine apart_listing hps (fun p hp => hlength p ?_) fun q hq => ?_
  · rw [leading, paths_listing hps] at hp
    exact (mem_filter.1 hp).1
  · rcases standing_cases config ((paths (listing ps)).take k) q with hstanding | hstanding
    · cases hv : textAtPath? config q with
      | none => exact .inl (hstanding.trans (literalAt_of_missing hv))
      | some v =>
        rw [hstanding, literalAt_of_text hv]
        exact .inr (hvalues q hq v hv)
    · exact .inl hstanding

end

/-! ## Literal substitution -/

section

variable {config : Value} {p q v : List Char}

theorem replaceFrom_blank (path : List Char) (parts : List Part) (rest : List Char) :
    replaceFrom path parts 0 (' ' :: rest) = ' ' :: replaceFrom path parts 0 rest := by
  have hblank : opensNone [' '] rest := rfl
  exact replaceFrom_append path parts hblank

/-- A text without an opening keeps clear of what follows it after a blank. -/
theorem replaceFrom_text_blank (hopen : hasOpening v = false) (path : List Char) (parts : List Part)
    (rest : List Char) : replaceFrom path parts 0 (v ++ ' ' :: rest) = v ++ ' ' :: replaceFrom path parts 0 rest := by
  rw [replaceFrom_append path parts (opensNone_of_no_opening hopen (by simp)), replaceFrom_blank]

/-- One round shows on listed references whether what they stand for takes their places. -/
theorem round_listing_of_literal {ps : List (List Char)} (hps : ∀ path ∈ ps, IsReferencePath path)
    (h : resolveIn config 1 (String.ofList (listing ps)) = String.ofList (substituted config (listing ps))) :
    round config (listing ps) = ps.flatMap fun path => literalAt config path ++ [' '] := by
  rwa [resolveIn, String.toList_ofList, String.ofList_inj, resolveChars_succ, resolveChars, substituted,
    fill_listing hps] at h

/-- A text that takes the place of the reference to it holds no escape. -/
theorem isPlain_of_replaced (hp : IsReferencePath p) (hv : textAtPath? config p = some v)
    (hopen : hasOpening v = false)
    (h : round config (listing [p]) = [p].flatMap fun path => literalAt config path ++ [' ']) : isPlain v := by
  rw [flatMap_cons, flatMap_nil, append_nil, literalAt_of_text hv] at h
  rw [round, paths_listing (forall_mem_singleton.2 hp), foldl_cons, foldl_nil, replacePath,
    templateAt?_eq, hv, Option.bind_some] at h
  cases hparts : ofText? (String.ofList v) with
  | none =>
    rw [hparts] at h
    exact absurd (append_cancel_right h).symm (ne_mention hopen p)
  | some parts =>
    have hself : isLike p p := isLike_self (hp.not_mem (by decide))
    rw [hparts] at h
    simp only [listing, replaceFrom_mention_of_like parts hself, replaceFrom_blank, replaceFrom_nil] at h
    have htext : hasOpening (String.ofList v).toList = false := by
      rwa [String.toList_ofList]
    have hplain := fill_eq_self_iff htext (hasOpening_mention p)
    rw [String.toList_ofList] at hplain
    exact hplain.1 ⟨parts, hparts, append_cancel_right h⟩

/-- The text at a path takes the place of the reference to a like path. -/
theorem round_listing_of_isLike (hp : IsReferencePath p) (hq : IsReferencePath q)
    (hv : textAtPath? config p = some v) (hopen : hasOpening v = false) (hplain : isPlain v)
    (hlike : isLike p q) : round config (listing [p, q]) = v ++ ' ' :: (v ++ [' ']) := by
  have hself : isLike p p := isLike_self (hp.not_mem (by decide))
  have hps : ∀ path ∈ [p, q], IsReferencePath path :=
    forall_mem_cons.2 ⟨hp, forall_mem_singleton.2 hq⟩
  have hfirst : replacePath config (listing [p, q]) p = v ++ ' ' :: (v ++ [' ']) := by
    simp [replacePath_of_isPlain hv hplain, listing, replaceFrom_mention_of_like _ hself, replaceFrom_mention_of_like _ hlike, replaceFrom_blank, replaceFrom_nil, fill_map_char]
  rw [round, paths_listing hps, foldl_cons, hfirst, foldl_cons, foldl_nil, replacePath]
  split
  · simp [replaceFrom_text_blank hopen, replaceFrom_nil]
  · rfl

/-- Where that is what the reference to the like path stands for, both paths lead to one text. -/
theorem textAtPath?_of_replaced (hp : IsReferencePath p) (hq : IsReferencePath q)
    (hv : textAtPath? config p = some v) (hopen : hasOpening v = false) (hplain : isPlain v)
    (hlike : isLike p q)
    (h : round config (listing [p, q]) = [p, q].flatMap fun path => literalAt config path ++ [' ']) :
    textAtPath? config q = some v := by
  rw [round_listing_of_isLike hp hq hv hopen hplain hlike] at h
  simp only [flatMap_cons, flatMap_nil, literalAt_of_text hv, append_assoc, singleton_append,
    append_nil, append_cancel_left_eq, cons.injEq, true_and] at h
  exact textAtPath?_of_literalAt (append_cancel_right h).symm hopen

end

/-- References to the paths of a text are replaced by exactly the texts that the paths lead to, in whatever text they
stand and in however many rounds, if and only if the paths are unambiguous. Texts that get new references while theirs
are replaced are left out, as are paths to texts with references. -/
theorem substitution_literal_iff {config : Value} {text : String}
    (hvalues : ∀ path ∈ paths text.toList, ∀ v ∈ textAtPath? config path, hasOpening v = false) :
    (∀ other : String, (∀ path ∈ paths other.toList, path ∈ paths text.toList) → Steady config other.toList →
        ∀ n, resolveIn config (n + 1) other = String.ofList (substituted config other.toList)) ↔
      Unambiguous config (paths text.toList) := by
  constructor
  · intro h
    have hpath : ∀ p ∈ paths text.toList, IsReferencePath p := fun p hp => isReferencePath_of_mem_paths hp
    -- a list of references to paths of one length is steady, so the assumption holds of it
    have hlisting : ∀ ps : List (List Char), (∀ p ∈ ps, p ∈ paths text.toList) →
        (∀ p ∈ ps, ∀ q ∈ ps, p.length = q.length) →
        round config (listing ps) = ps.flatMap fun p => literalAt config p ++ [' '] := by
      intro ps hps hlength
      have hread : ∀ p ∈ ps, IsReferencePath p := fun p hp => hpath p (hps p hp)
      have hliteral := h (String.ofList (listing ps))
      simp only [String.toList_ofList, paths_listing hread] at hliteral
      exact round_listing_of_literal hread
        (hliteral hps (steady_listing hread hlength fun p hp => hvalues p (hps p hp)) 0)
    have hplain : ∀ p ∈ paths text.toList, ∀ v ∈ textAtPath? config p, Template.isPlain v := by
      intro p hp v hv
      exact isPlain_of_replaced (hpath p hp) hv (hvalues p hp v hv)
        (hlisting [p] (List.forall_mem_singleton.2 hp) (by simp))
    refine ⟨hplain, fun p hp q hq hlike v hv => ?_⟩
    exact textAtPath?_of_replaced (hpath p hp) (hpath q hq) hv (hvalues p hp v hv) (hplain p hp v hv) hlike
      (hlisting [p, q] (by simp [hp, hq]) (by simp [length_eq_of_isLike hlike]))
  · intro h other hother hsteady n
    rw [resolveIn, resolveChars_of_unambiguous h hother (fun p hp => hvalues p (hother p hp)) hsteady]

/-- Two paths of which the second looks like the first, whose text holds a backslash. -/
def likePaths : Value := .map [("a", .map [("b", .str "1\\.")]), ("axb", .str "2")]

/-- The text at `a.b` takes the place of the reference to `axb` too. Alone it is put in as it is, and a missing path
stays. -/
theorem like_paths_replaced_alike :
    Steady likePaths "$\x7bself:a.b\x7d-$\x7bself:axb\x7d".toList ∧
      resolve likePaths "$\x7bself:a.b\x7d-$\x7bself:axb\x7d" = "1\\.-1\\." ∧
      ¬(∀ other : String,
        (∀ path ∈ paths other.toList, path ∈ paths "$\x7bself:a.b\x7d-$\x7bself:axb\x7d".toList) →
          Steady likePaths other.toList →
          ∀ n, resolveIn likePaths (n + 1) other = String.ofList (substituted likePaths other.toList)) ∧
      ∀ n, resolveIn likePaths (n + 1) "<$\x7bself:a.b\x7d$\x7bself:a.c\x7d>" = "<1\\.$\x7bself:a.c\x7d>" := by
  refine ⟨by decide +kernel, by decide +kernel, fun h => ?_, fun n => ?_⟩
  · exact absurd ((substitution_literal_iff (by decide +kernel)).1 h) (by decide +kernel)
  · have hresolve := (substitution_literal_iff (by decide +kernel)).2
      (show Unambiguous likePaths (paths "<$\x7bself:a.b\x7d$\x7bself:a.c\x7d>".toList) by decide +kernel)
      "<$\x7bself:a.b\x7d$\x7bself:a.c\x7d>" (fun path hpath => hpath) (by decide +kernel) n
    rw [hresolve]
    decide +kernel

/-! ## Texts without references -/

/-- No reference into the same configuration stands anywhere in a text. -/
def HoldsNoReference (text : List Char) : Prop := ∀ path, IsReferencePath path → ¬mention path <:+: text

/-- The reference that opens a text is one that the text holds. -/
theorem holdsNoReference_cons {c : Char} {rest : List Char} :
    HoldsNoReference (c :: rest) ↔ pathAt? (c :: rest) = none ∧ HoldsNoReference rest := by
  have hstart : pathAt? (c :: rest) = none ↔ ∀ path, IsReferencePath path → ¬mention path <+: c :: rest := by
    rw [Option.eq_none_iff_forall_ne_some]
    refine forall_congr' fun path => ?_
    rw [ne_eq, pathAt?_eq_some_iff, not_and]
    exact imp_congr_right fun _ => not_congr (exists_congr fun more => eq_comm)
  simp [HoldsNoReference, infix_cons_iff, not_or, forall_and, hstart]

theorem holdsNoReference_iff {text : List Char} : HoldsNoReference text ↔ paths text = [] := by
  induction text with
  | nil =>
    refine iff_of_true (fun path hpath hinfix => ?_) rfl
    rw [infix_nil, mention_eq_cons] at hinfix
    cases hinfix
  | cons c rest ih =>
    rw [holdsNoReference_cons, ih, paths, append_eq_nil_iff]
    cases pathAt? (c :: rest) <;> simp

/-! ## Rounds in a row -/

/-- The rounds of one bound and then those of another are the rounds of both together. -/
theorem resolveChars_add (config : Value) (m n : Nat) (text : List Char) :
    resolveChars config (m + n) text = resolveChars config n (resolveChars config m text) := by
  induction m generalizing text with
  | zero => rw [Nat.zero_add, resolveChars]
  | succ m ih => rw [Nat.succ_add, resolveChars_succ, ih, ← resolveChars_succ]

theorem resolveIn_add (config : Value) (m n : Nat) (text : String) :
    resolveIn config (m + n) text = resolveIn config n (resolveIn config m text) := by
  rw [resolveIn, resolveChars_add, resolveIn, resolveIn, String.toList_ofList]

/-- One more in the bound is one more round, also where the rounds end early. -/
theorem resolveIn_succ (config : Value) (n : Nat) (text : String) :
    resolveIn config (n + 1) text = String.ofList (round config (resolveIn config n text).toList) := by
  rw [resolveIn_add, resolveIn, resolveChars_succ, resolveChars]

theorem resolveIn_of_holdsNoReference {text : String} (h : HoldsNoReference text.toList) (config : Value) (n : Nat) :
    resolveIn config n text = text := by
  rw [resolveIn, resolveChars_of_no_paths config n (holdsNoReference_iff.1 h), String.ofList_toList]

/-- **Bounds add up.** For every configuration and every text, the answer within `m + n` rounds is the answer within `n`
rounds on the answer within `m`. Without a round the text stays as it is, and one more in the bound is one more round on
what the text has become. Once an answer holds no reference, no larger bound gives another one. -/
theorem rounds_add_up (config : Value) (text : String) :
    (∀ m n, resolveIn config (m + n) text = resolveIn config n (resolveIn config m text)) ∧
      (resolveIn config 0 text = text ∧
        ∀ n, resolveIn config (n + 1) text = String.ofList (round config (resolveIn config n text).toList)) ∧
      ∀ bound, HoldsNoReference (resolveIn config bound text).toList →
        ∀ larger, bound ≤ larger → resolveIn config larger text = resolveIn config bound text := by
  refine ⟨fun m n => resolveIn_add config m n text, ⟨?_, fun n => resolveIn_succ config n text⟩,
    fun bound hnone larger hle => ?_⟩
  · rw [resolveIn, resolveChars, String.ofList_toList]
  · obtain ⟨more, rfl⟩ := Nat.exists_eq_add_of_le hle
    rw [resolveIn_add, resolveIn_of_holdsNoReference hnone]

/-- A configuration in which a reference leads to the text in two steps, two references lead to each other, and one to
itself and another character. -/
def chained : Value :=
  .map [("near", .str "$\x7bself:far\x7d"), ("far", .str "end"), ("ping", .str "$\x7bself:pong\x7d"),
    ("pong", .str "$\x7bself:ping\x7d"), ("grows", .str "x$\x7bself:grows\x7d")]

theorem two_rounds_suffice :
    resolveIn chained 2 "$\x7bself:near\x7d" = "end" ∧
      ∀ larger, 2 ≤ larger → resolveIn chained larger "$\x7bself:near\x7d" = "end" := by
  have htwo : resolveIn chained 2 "$\x7bself:near\x7d" = "end" := by decide +kernel
  have hnone : HoldsNoReference (resolveIn chained 2 "$\x7bself:near\x7d").toList := by
    rw [htwo, holdsNoReference_iff]
    decide
  refine ⟨htwo, fun larger hle => ?_⟩
  rw [(rounds_add_up chained "$\x7bself:near\x7d").2.2 2 hnone larger hle, htwo]

example : resolveIn chained 1 "$\x7bself:near\x7d" = "$\x7bself:far\x7d" := by decide +kernel

example : resolveIn chained 5 "$\x7bself:ping\x7d" = "$\x7bself:pong\x7d" := by decide +kernel

example : resolveIn chained 3 "$\x7bself:grows\x7d" = "xxx$\x7bself:grows\x7d" := by decide +kernel

end ServerlessTaint.Reference
