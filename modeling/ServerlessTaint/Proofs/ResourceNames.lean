import ServerlessTaint.Arn
import ServerlessTaint.Proofs.Pieces

/-!
# Resource names taken apart

A text is a resource name exactly if it has five colons once its parameters are in plain form, and something
stands between them. A resource name is its parts with colons between, and what is none has no parts
(`arn_taken_apart`).
-/

namespace ServerlessTaint

open List

namespace Text

variable {separator : Char}

theorem length_splitAt (cs : List Char) : (splitAt separator cs).length = cs.count separator + 1 := by
  induction cs with
  | nil => rfl
  | cons c cs ih =>
    rw [splitAt, count_cons]
    split
    · simp_all
    · cases hsplit : splitAt separator cs <;> simp_all

/-- The pieces of a text make it up, with the separator between them. -/
theorem intercalate_splitAt (cs : List Char) : [separator].intercalate (splitAt separator cs) = cs := by
  induction cs with
  | nil => rfl
  | cons c cs ih =>
    have hne : splitAt separator cs ≠ [] := splitAt_ne_nil cs
    obtain ⟨piece, pieces, hsplit⟩ := exists_cons_of_ne_nil hne
    rw [hsplit] at ih
    rw [splitAt, hsplit]
    split
    · rename_i hc
      rw [hc, intercalate_cons_cons, ih]
      rfl
    · cases pieces <;> simp_all [intercalate]

end Text

namespace Arn

/-! ## Parameters in plain form -/

/-- The provider or the name of a parameter. -/
def IsWord (cs : List Char) : Prop := cs ≠ [] ∧ ∀ c ∈ cs, Text.isWord c

/-- A parameter as it is written. -/
def parameter (provider name : List Char) : List Char :=
  '#' :: '\x7b' :: (provider ++ ':' :: ':' :: (name ++ ['\x7d']))

/-- A text and the same text with each parameter `#{Provider::Name}` written `ProviderName`. -/
inductive Rewritten : List Char → List Char → Prop
  | nil : Rewritten [] []
  | parameter {provider name rest plain : List Char} : IsWord provider → IsWord name → Rewritten rest plain →
      Rewritten (parameter provider name ++ rest) (provider ++ name ++ plain)
  | char {c : Char} {rest plain : List Char} :
      (∀ provider name, IsWord provider → IsWord name → ¬ parameter provider name <+: c :: rest) →
      Rewritten rest plain → Rewritten (c :: rest) (c :: plain)

variable {cs rest plain provider name : List Char}

theorem takeWhile_isWord (h : ∀ c ∈ cs, Text.isWord c) {d : Char} (hd : Text.isWord d = false) (rest : List Char) :
    (cs ++ d :: rest).takeWhile Text.isWord = cs ∧ (cs ++ d :: rest).dropWhile Text.isWord = d :: rest := by
  rw [takeWhile_append_of_pos h, dropWhile_append_of_pos h]
  simp [hd]

theorem isWord_colon : Text.isWord ':' = false := by decide +kernel

theorem isWord_brace : Text.isWord '\x7d' = false := by decide +kernel

/-- A parameter at the start of a text is found. -/
theorem parameterAt?_parameter (hprovider : IsWord provider) (hname : IsWord name) (rest : List Char) :
    parameterAt? (parameter provider name ++ rest) = some (provider ++ name, (parameter provider name).length) := by
  have hfirst := takeWhile_isWord hprovider.2 isWord_colon (':' :: (name ++ '\x7d' :: rest))
  have hsecond := takeWhile_isWord hname.2 isWord_brace rest
  simp only [parameter, cons_append, append_assoc, nil_append, parameterAt?, hfirst, hsecond]
  simp only [isEmpty_eq_false_iff.2 hprovider.1, isEmpty_eq_false_iff.2 hname.1]
  simp
  omega

theorem isWord_takeWhile (h : (cs.takeWhile Text.isWord).isEmpty = false) : IsWord (cs.takeWhile Text.isWord) :=
  ⟨isEmpty_eq_false_iff.1 h, all_eq_true.1 all_takeWhile⟩

/-- What is found at the start of a text is a parameter. -/
theorem exists_parameter {n : Nat} (h : parameterAt? cs = some (plain, n)) :
    ∃ provider name rest, IsWord provider ∧ IsWord name ∧ cs = parameter provider name ++ rest := by
  unfold parameterAt? at h
  split at h
  · rename_i rest
    dsimp only at h
    split at h
    · rename_i rest' hrest
      split at h
      · rename_i rest'' hrest'
        split at h
        · cases h
        · rename_i hne
          simp only [Bool.or_eq_true, not_or, Bool.not_eq_true] at hne
          refine ⟨_, _, rest'', isWord_takeWhile hne.1, isWord_takeWhile hne.2, ?_⟩
          have hprovider := takeWhile_append_dropWhile (p := Text.isWord) (l := rest)
          have hname := takeWhile_append_dropWhile (p := Text.isWord) (l := rest')
          rw [hrest] at hprovider
          rw [hrest'] at hname
          simp [parameter, hname, hprovider]
      · cases h
    · cases h
  · cases h

/-- A text is rewritten from left to right. -/
theorem rewritten_sanitizeFrom (skip : Nat) (cs : List Char) : Rewritten (cs.drop skip) (sanitizeFrom skip cs) := by
  fun_induction sanitizeFrom skip cs with
  | case1 skip => rw [drop_nil]; exact .nil
  | case2 skip c rest ih => exact ih
  | case3 c rest plain length hfound ih =>
    obtain ⟨provider, name, more, hprovider, hname, heq⟩ := exists_parameter hfound
    rw [heq, parameterAt?_parameter hprovider hname] at hfound
    cases hfound
    have hmore : rest.drop ((parameter provider name).length - 1) = more := by
      rw [show rest = (c :: rest).tail from rfl, heq]
      simp [parameter]
    rw [hmore] at ih
    rw [drop_zero, heq]
    exact .parameter hprovider hname ih
  | case4 c rest hfound ih =>
    refine .char ?_ ih
    rintro provider name hprovider hname ⟨more, heq⟩
    rw [← heq, parameterAt?_parameter hprovider hname] at hfound
    cases hfound

/-! ## Parts -/

/-- The parts after the first, in their order. -/
def partList (parts : ArnParts) : List String :=
  [parts.division, parts.service, parts.region, parts.accountId, parts.resourceId]

theorem isValid_iff (arn : Arn) : arn.isValid ↔ ∃ part ∈ partList arn.parts, part ≠ "" := by
  obtain ⟨text, division, service, region, accountId, resourceId⟩ := arn
  rw [← Decidable.not_iff_not]
  simp [isValid, partList]

theorem length_splitString (text : String) :
    (Text.splitString ':' text).length = text.toList.count ':' + 1 := by
  rw [Text.splitString, length_map, Text.length_splitAt]

/-- A text of six pieces has those after the first as its parts. -/
theorem partList_split (text : String) : partList (split (.int standardParts) text) =
    if text.toList.count ':' = 5 then (Text.splitString ':' text).tail else replicate 5 "" := by
  have hlength := length_splitString text
  rw [split, drop_one]
  split <;> rename_i hfits
  · have hfive : text.toList.count ':' = 5 := by
      simp [standardParts] at hfits
      omega
    rw [if_pos hfive]
    match hpieces : Text.splitString ':' text with
    | [_, _, _, _, _, _] => rfl
    | [] | [_] | [_, _] | [_, _, _] | [_, _, _, _] | [_, _, _, _, _] => simp [hpieces, hfive] at hlength
    | _ :: _ :: _ :: _ :: _ :: _ :: _ :: _ => simp [hpieces, hfive] at hlength
  · rw [if_neg]
    · rfl
    · intro hfive
      simp [hlength, hfive, standardParts] at hfits

/-- **Resource names are taken apart without loss.** A text with its parameters in plain form is a resource name
exactly if it has five colons and some part after the first is not empty. Its parts then make it up, with colons
between them, and otherwise all are empty. -/
theorem arn_taken_apart (a : String) :
    Rewritten a.toList (ofText a).text.toList ∧
    ((ofText a).isValid ↔ (ofText a).text.toList.count ':' = 5 ∧
      ∃ part ∈ (Text.splitString ':' (ofText a).text).tail, part ≠ "") ∧
    ((ofText a).isValid → ∃ first ∈ (Text.splitString ':' (ofText a).text).head?,
      ":".intercalate (first :: partList (ofText a).parts) = (ofText a).text) ∧
    (¬ (ofText a).isValid → partList (ofText a).parts = List.replicate 5 "") := by
  have hrewritten : Rewritten a.toList (sanitize a).toList := by
    simpa [sanitize] using rewritten_sanitizeFrom 0 a.toList
  have harn : ofText a = ⟨sanitize a, split (.int standardParts) (sanitize a)⟩ := rfl
  generalize sanitize a = text at harn hrewritten
  rw [isValid_iff, harn]
  dsimp only
  refine ⟨hrewritten, ?_⟩
  rw [partList_split]
  have hlength := length_splitString text
  have hjoin : ":".intercalate (Text.splitString ':' text) = text := by
    rw [← String.toList_inj, String.toList_intercalate, Text.splitString, map_map]
    simpa using Text.intercalate_splitAt text.toList
  cases hpieces : Text.splitString ':' text with
  | nil => simp [hpieces] at hlength
  | cons first parts =>
    rw [hpieces] at hlength hjoin
    split <;> rename_i hfive
    · refine ⟨(and_iff_right hfive).symm, fun _ => ⟨first, rfl, hjoin⟩, fun hnone => ?_⟩
      refine eq_replicate_iff.2 ⟨by simpa [hfive] using hlength, fun part hpart => ?_⟩
      exact Decidable.byContradiction fun hne => hnone ⟨part, hpart, hne⟩
    · simp [hfive]

end Arn

end ServerlessTaint
