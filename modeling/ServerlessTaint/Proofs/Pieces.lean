import ServerlessTaint.Path

/-!
# Pieces of texts and paths

Laws of the pieces of a text between the occurrences of a character, and of what stands after the last of
them.

A path is made of a folder and a name, which are its parts.
-/

namespace ServerlessTaint.Text

open List

variable {separator : Char} {rest cs : List Char}

/-- The end of a text that lacks the separator stands after the last one. -/
theorem takeWhile_reverse_append (cs : List Char) (h : separator ∉ rest) :
    (cs ++ rest).reverse.takeWhile (· != separator) =
      rest.reverse ++ cs.reverse.takeWhile (· != separator) := by
  rw [reverse_append, takeWhile_append_of_pos]
  intro c hc
  have : c ≠ separator := fun heq => h (heq ▸ mem_reverse.1 hc)
  simpa using this

theorem splitAt_of_not_mem (h : separator ∉ cs) : splitAt separator cs = [cs] := by
  induction cs with
  | nil => rfl
  | cons c rest ih =>
    rw [mem_cons, not_or] at h
    rw [splitAt, if_neg (Ne.symm h.1), ih h.2]

theorem splitAt_ne_nil (cs : List Char) : splitAt separator cs ≠ [] := by
  cases cs with
  | nil => simp [splitAt]
  | cons c rest =>
    rw [splitAt]
    split
    · simp
    · split <;> simp

theorem splitAt_append (cs rest : List Char) :
    splitAt separator (cs ++ separator :: rest) = splitAt separator cs ++ splitAt separator rest := by
  induction cs with
  | nil => simp [splitAt]
  | cons c cs ih =>
    rw [cons_append, splitAt, splitAt, ih]
    split
    · rfl
    · cases hsplit : splitAt separator cs with
      | nil => exact absurd hsplit (splitAt_ne_nil cs)
      | cons piece pieces => rfl

/-- What stands after the last separator is the last piece. -/
theorem getLast?_splitAt (cs : List Char) (h : separator ∉ rest) :
    (splitAt separator (cs ++ separator :: rest)).getLast? = some rest := by
  rw [splitAt_append, splitAt_of_not_mem h, getLast?_append]
  rfl

/-- A character other than the separator stands in one of the pieces. -/
theorem exists_mem_splitAt {c : Char} (h : c ∈ cs) (hne : c ≠ separator) :
    ∃ piece ∈ splitAt separator cs, c ∈ piece := by
  induction cs with
  | nil => cases h
  | cons d rest ih =>
    rw [splitAt]
    split
    · rename_i hd
      have hrest : c ∈ rest := (mem_cons.1 h).resolve_left (hd ▸ hne)
      obtain ⟨piece, hpiece, hc⟩ := ih hrest
      exact ⟨piece, mem_cons_of_mem _ hpiece, hc⟩
    · cases hsplit : splitAt separator rest with
      | nil =>
        rcases mem_cons.1 h with rfl | hrest
        · simp
        · obtain ⟨piece, hpiece, -⟩ := ih hrest
          simp [hsplit] at hpiece
      | cons first pieces =>
        rcases mem_cons.1 h with rfl | hrest
        · exact ⟨c :: first, mem_cons_self, mem_cons_self⟩
        · obtain ⟨piece, hpiece, hc⟩ := ih hrest
          rw [hsplit] at hpiece
          rcases mem_cons.1 hpiece with rfl | hpiece
          · exact ⟨d :: piece, mem_cons_self, mem_cons_of_mem _ hc⟩
          · exact ⟨piece, mem_cons_of_mem _ hpiece, hc⟩

end ServerlessTaint.Text

namespace ServerlessTaint.Path

open List

/-- A name can follow: the path is empty or ends with a slash. -/
def IsOpen (path : List Char) : Prop := ∀ c ∈ path.getLast?, c = '/'

theorem isOpen_nil : IsOpen [] := by simp [IsOpen]

theorem isOpen_concat (path : List Char) : IsOpen (path ++ ['/']) := by simp [IsOpen]

theorem IsOpen.eq {path : List Char} (h : IsOpen path) : path = [] ∨ ∃ above, path = above ++ ['/'] := by
  cases eq_nil_or_concat path with
  | inl hnil => exact .inl hnil
  | inr hconcat =>
    obtain ⟨above, c, rfl⟩ := hconcat
    have hc : c = '/' := h c (by simp)
    exact .inr ⟨above, by rw [hc, concat_eq_append]⟩

theorem IsOpen.append {path rest : List Char} (h : IsOpen path) (hrest : IsOpen rest) :
    IsOpen (path ++ rest) := by
  rcases hrest.eq with rfl | ⟨above, rfl⟩
  · simpa using h
  · rw [← append_assoc]
    exact isOpen_concat _

section

variable {path name : List Char} (hpath : IsOpen path) (hname : '/' ∉ name)

include hpath hname

theorem lastSlash_append : lastSlash (path ++ name) = path.length := by
  have hstop : path.reverse.takeWhile (· != '/') = [] := by
    rcases hpath.eq with rfl | ⟨above, rfl⟩ <;> simp
  rw [lastSlash, Text.takeWhile_reverse_append path hname, hstop]
  simp

theorem leaf_append : leaf (String.ofList (path ++ name)) = String.ofList name := by
  simp [leaf, lastSlash_append hpath hname]

/-- The folder of a file is what stands before its name, without slashes at the end. -/
theorem folder_append {above : List Char} (habove : above.getLast? ≠ some '/') (hne : above ≠ [])
    (heq : path = above ++ ['/']) : folder (String.ofList (path ++ name)) = String.ofList above := by
  obtain ⟨front, c, rfl⟩ := (eq_nil_or_concat above).resolve_left hne
  have hc : c ≠ '/' := by simpa using habove
  subst heq
  rw [folder, String.toList_ofList, lastSlash_append hpath hname, take_left]
  simp [hc]

/-- The last part of a path. -/
theorem getLast?_splitAt_append : (Text.splitAt '/' (path ++ name)).getLast? = some name := by
  rcases hpath.eq with rfl | ⟨above, rfl⟩
  · rw [nil_append, Text.splitAt_of_not_mem hname]
    rfl
  · rw [append_assoc, singleton_append, Text.getLast?_splitAt above hname]

/-- The path of a file without its extension. -/
theorem stem_append {extension : List Char} (hextension : '.' ∉ extension) (hslash : '/' ∉ extension)
    (hdots : ∃ c ∈ name, c ≠ '.') :
    stem (String.ofList (path ++ (name ++ '.' :: extension))) = String.ofList (path ++ name) := by
  have hlast : lastSlash (path ++ (name ++ '.' :: extension)) = path.length :=
    lastSlash_append hpath (by simp [hname, hslash])
  have hplace : dotPlace? (path ++ (name ++ '.' :: extension)) = some (path.length + name.length) := by
    have hcount : ((name ++ '.' :: extension).reverse.takeWhile (· != '.')).length = extension.length := by
      have hsplit : name ++ '.' :: extension = (name ++ ['.']) ++ extension := by simp
      rw [hsplit, Text.takeWhile_reverse_append _ hextension]
      simp
    have hbefore : (name ++ '.' :: extension).length - extension.length - 1 = name.length := by
      rw [length_append, length_cons]
      omega
    have hsome : name.all (· == '.') = false := by
      obtain ⟨c, hc, hne⟩ := hdots
      exact all_eq_false.2 ⟨c, hc, by simpa using hne⟩
    simp only [dotPlace?, hlast, drop_left, hcount, hbefore, take_left, hsome]
    simp
  rw [stem, String.toList_ofList, hplace]
  simp [← append_assoc]

end

/-- A path below a folder is the path itself after an open one. -/
theorem exists_join_eq (base : String) (path : List Char) :
    ∃ front, IsOpen front ∧ join base (String.ofList path) = String.ofList (front ++ path) := by
  rw [join]
  split
  · exact ⟨[], isOpen_nil, rfl⟩
  · split
    · rename_i hbase
      refine ⟨base.toList, fun c hc => ?_, by rw [String.ofList_append, String.ofList_toList]⟩
      rcases Bool.or_eq_true_iff.1 hbase with hempty | hslash
      · rw [String.isEmpty_iff.1 hempty] at hc
        cases hc
      · rw [beq_iff_eq.1 hslash] at hc
        exact (Option.mem_some.1 hc).symm
    · refine ⟨base.toList ++ ['/'], isOpen_concat _, ?_⟩
      rw [String.ofList_append, String.ofList_append, String.ofList_toList]

end ServerlessTaint.Path
