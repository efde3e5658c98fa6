import ServerlessTaint.Proofs.FileEdits
import ServerlessTaint.Proofs.Pieces

/-!
# What stands in a folder

A name after the path of a folder leads to the entry of that name in the folder (`LeadsTo`), and the names
in a folder are those of its entries. A step that writes only files of certain names leaves the rest as it
was: all folders, all other entries, and in each folder the names other than these (`SameBesides`).
-/

namespace ServerlessTaint

open List ServerlessTaint.Path

/-- A text that stands for an entry of a folder when it follows the path of the folder. -/
def IsEntryName (name : String) : Prop := name ≠ "" ∧ name ≠ "." ∧ name ≠ ".." ∧ '/' ∉ name.toList

instance (name : String) : Decidable (IsEntryName name) := inferInstanceAs (Decidable (_ ∧ _))

namespace Path

theorem parts_append_name (above : List Char) {name : String} (hname : '/' ∉ name.toList) :
    parts (String.ofList above ++ "/" ++ name) = (Text.splitAt '/' above).map String.ofList ++ [name] := by
  have htext : (String.ofList above ++ "/" ++ name).toList = above ++ '/' :: name.toList := by simp
  rw [parts, Text.splitString, htext, Text.splitAt_append, Text.splitAt_of_not_mem hname]
  simp

/-- The parts of a path below a folder are those of the folder and the name. -/
theorem exists_parts_join (folder : String) :
    ∃ above, (∀ name : String, '/' ∉ name.toList → parts (join folder name) = above ++ [name]) ∧
      (folder ≠ "" → parts folder = above ∨ parts folder = above ++ [""]) := by
  have hrelative : ∀ name : String, '/' ∉ name.toList → (name.toList.head? == some '/') = false := by
    intro name hname
    cases h : name.toList with
    | nil => rfl
    | cons c rest =>
      rw [h, mem_cons, not_or] at hname
      simpa using Ne.symm hname.1
  by_cases hempty : folder = ""
  · refine ⟨[], ?_, fun h => absurd hempty h⟩
    intro name hname
    simp [join, hrelative name hname, hempty, parts, Text.splitString, Text.splitAt_of_not_mem hname]
  by_cases hslash : folder.toList.getLast? = some '/'
  · -- The slash at the end of the folder is the one before the name.
    obtain ⟨above, habove⟩ := getLast?_eq_some_iff.1 hslash
    have hfolder : folder = String.ofList above ++ "/" := by
      rw [← String.ofList_toList (s := folder), habove, String.ofList_append]
    refine ⟨(Text.splitAt '/' above).map String.ofList, ?_, fun _ => .inr ?_⟩
    · intro name hname
      have hjoin : join folder name = String.ofList above ++ "/" ++ name := by
        simp [join, hrelative name hname, hslash, ← hfolder]
      rw [hjoin, parts_append_name above hname]
    · have hname := parts_append_name above (show '/' ∉ "".toList by simp)
      rwa [String.append_empty, ← hfolder] at hname
  · refine ⟨parts folder, ?_, fun _ => .inl rfl⟩
    intro name hname
    have hjoin : join folder name = String.ofList folder.toList ++ "/" ++ name := by
      simp [join, hrelative name hname, hslash, hempty]
    rw [hjoin, parts_append_name _ hname]
    rfl

end Path

namespace FileTree

/-! ## Entries of a folder -/

/-- The path of a folder leads to a place: it is a folder, and a name after the path leads to the entry of
that name. -/
def LeadsTo (tree : FileTree) (folder : String) (place : Place) : Prop :=
  tree.at? place = some .folder ∧
    ∀ name, IsEntryName name → tree.locate (Path.join folder name) = .ok (place ++ [name])

variable {place : Place} {name path folder : String} {tree : FileTree}

theorem step_name (hname : IsEntryName name) (hfolder : tree.at? place = some .folder) :
    tree.step place name = .ok (place ++ [name]) := by
  obtain ⟨hempty, hhere, hup, -⟩ := hname
  simp [step, hfolder, hempty, hhere, hup]

theorem at?_of_step {next : Place} {part : String} (h : tree.step place part = .ok next) :
    tree.at? place = some .folder := by
  unfold step at h
  cases hentry : tree.at? place with
  | none => rw [hentry] at h; cases h
  | some entry =>
    cases entry with
    | file text => rw [hentry] at h; cases h
    | folder => rfl

theorem locate_eq (tree : FileTree) (h : path ≠ "") : tree.locate path = (parts path).foldlM tree.step [] := by
  simp [locate, h]

theorem join_ne_empty (h : name ≠ "") : join folder name ≠ "" := by
  unfold join
  split
  · exact h
  · split <;> simp [h]

/-- The folders on the way to an entry are the way to every other entry. -/
theorem leadsTo_of_locate (hname : IsEntryName name) (h : tree.locate (join folder name) = .ok place) :
    ∃ above, tree.LeadsTo folder above ∧ place = above ++ [name] := by
  obtain ⟨parts, hparts, -⟩ := exists_parts_join folder
  have hway : ∀ {name : String}, IsEntryName name →
      tree.locate (join folder name) = parts.foldlM tree.step [] >>= fun above => tree.step above name := by
    intro name hname
    rw [locate_eq tree (join_ne_empty hname.1), hparts name hname.2.2.2, foldlM_append]
    simp
  rw [hway hname, bind_eq_ok_iff] at h
  obtain ⟨above, habove, hstep⟩ := h
  have hfolder := at?_of_step hstep
  refine ⟨above, ⟨hfolder, ?_⟩, ?_⟩
  · intro other hother
    rw [hway hother, habove, ok_bind, step_name hother hfolder]
  · rw [step_name hname hfolder] at hstep
    exact (Except.ok.inj hstep).symm

/-- The path of a folder leads to the place of the folder. -/
theorem leadsTo_of_lookup (h : tree.lookup folder = .ok (place, .folder)) : tree.LeadsTo folder place := by
  obtain ⟨hlocate, hfolder⟩ := lookup_eq_ok_iff.1 h
  have hne : folder ≠ "" := by
    rintro rfl
    cases hlocate
  obtain ⟨above, hparts, hown⟩ := exists_parts_join folder
  rw [locate_eq tree hne] at hlocate
  have hway : above.foldlM tree.step [] = .ok place := by
    rcases hown hne with hown | hown
    · rwa [hown] at hlocate
    · -- An empty last part stays where it is.
      rw [hown, foldlM_append, bind_eq_ok_iff] at hlocate
      obtain ⟨before, hbefore, hlast⟩ := hlocate
      have hstep : tree.step before "" = .ok place := by simpa using hlast
      have hstay : tree.step before "" = .ok before := by simp [step, at?_of_step hstep]
      rw [hbefore, ← hstay, hstep]
  refine ⟨hfolder, ?_⟩
  intro name hname
  rw [locate_eq tree (join_ne_empty hname.1), hparts name hname.2.2.2, foldlM_append, hway, ok_bind]
  simpa using step_name hname hfolder

theorem LeadsTo.of_sameFolders {tree' : FileTree} (h : tree.LeadsTo folder place) (hsame : tree.SameFolders tree') :
    tree'.LeadsTo folder place :=
  ⟨(hsame place).2 h.1, fun name hname => hsame.locate (h.2 name hname)⟩

theorem isFolder_iff : tree.isFolder path ↔ ∃ place, tree.lookup path = .ok (place, .folder) := by
  unfold isFolder
  split
  · rename_i place h
    simp [h]
  · rename_i hno
    simpa using fun place h => hno place h

section

variable (h : tree.LeadsTo folder place) (hname : IsEntryName name)

include h hname

theorem LeadsTo.stored_eq_ok_iff {text : String} :
    tree.stored (join folder name) = .ok text ↔ tree.at? (place ++ [name]) = some (.file text) := by
  rw [FileTree.stored_eq_ok_iff, h.2 name hname]
  constructor
  · rintro ⟨there, hthere, hentry⟩
    cases hthere
    exact hentry
  · exact fun hentry => ⟨_, rfl, hentry⟩

theorem LeadsTo.at?_of_not_exists (hnot : tree.pathExists (join folder name) = false) :
    tree.at? (place ++ [name]) = none := by
  rw [pathExists, lookup, h.2 name hname, ok_bind] at hnot
  cases hentry : tree.at? (place ++ [name]) with
  | none => rfl
  | some entry =>
    rw [hentry] at hnot
    cases hnot

/-- A file can be written in a folder, unless a folder has its name. -/
theorem LeadsTo.exists_write (hfile : ¬ tree.isFolder (join folder name)) (text : String) :
    ∃ tree', tree.write (join folder name) text = .ok tree' := by
  refine ⟨_, write_eq_ok_iff.2 ⟨place ++ [name], h.2 name hname, ?_, rfl⟩⟩
  intro hfolder
  exact hfile (isFolder_iff.2 ⟨_, lookup_eq_ok_iff.2 ⟨h.2 name hname, hfolder⟩⟩)

end

/-! ## Names in a folder -/

theorem concat_eq_iff {folder : Place} :
    place = folder ++ [name] ↔ place.dropLast = folder ∧ place.getLast? = some name := by
  constructor
  · rintro rfl
    simp
  · rintro ⟨rfl, hlast⟩
    obtain ⟨above, rfl⟩ := getLast?_eq_some_iff.1 hlast
    simp

theorem mem_names_iff {folder : Place} : name ∈ tree.names folder ↔ (tree.at? (folder ++ [name])).isSome := by
  have hfind : (tree.at? (folder ++ [name])).isSome ↔ folder ++ [name] ∈ Keyed.keys tree.entries := by
    rw [at?, if_neg (by simp), Option.isSome_iff_ne_none, Ne, Keyed.find?_eq_none_iff, Classical.not_not]
  rw [hfind, names, sortTexts, mem_mergeSort, mem_filterMap, Keyed.keys, mem_map]
  refine exists_congr fun e => and_congr_right fun _ => ?_
  rw [concat_eq_iff]
  split <;> simp_all

theorem list_eq_ok_iff {found : List String} :
    tree.list path = .ok found ↔ ∃ place, tree.lookup path = .ok (place, .folder) ∧ tree.names place = found := by
  unfold list
  cases tree.lookup path with
  | error fault => simp [bind, Except.bind]
  | ok entry =>
    obtain ⟨place, entry⟩ := entry
    cases entry <;> simp [bind, Except.bind, pure, Except.pure, throw, throwThe, MonadExceptOf.throw]

/-- The names in a folder depend on the places of the entries only. -/
theorem names_eq (tree : FileTree) (folder : Place) :
    tree.names folder = sortTexts ((Keyed.keys tree.entries).filterMap fun place =>
      if place.dropLast = folder then place.getLast? else none) := by
  rw [names, Keyed.keys, filterMap_map]
  rfl

/-! ## Steps that change only files of certain names -/

/-- Two trees differ at most in files of the given names. -/
structure SameBesides (names : List String) (tree tree' : FileTree) : Prop where
  folders : tree.SameFolders tree'
  entries : ∀ place, (∀ name ∈ names, place.getLast? ≠ some name) → tree'.at? place = tree.at? place
  listed : ∀ folder (keep : String → Bool), (∀ name ∈ names, keep name = false) →
    (tree'.names folder).filter keep = (tree.names folder).filter keep

namespace SameBesides

variable {names : List String} {tree tree' : FileTree}

theorem refl (names : List String) (tree : FileTree) : SameBesides names tree tree :=
  ⟨fun _ => Iff.rfl, fun _ _ => rfl, fun _ _ _ => rfl⟩

theorem trans {tree'' : FileTree} (h : SameBesides names tree tree') (h' : SameBesides names tree' tree'') :
    SameBesides names tree tree'' where
  folders := h.folders.trans h'.folders
  entries := fun place hplace => (h'.entries place hplace).trans (h.entries place hplace)
  listed := fun folder keep hkeep => (h'.listed folder keep hkeep).trans (h.listed folder keep hkeep)

variable {place : Place} {folder name : String}

/-- A file that is put in a folder under one of the names. -/
theorem put {folder : Place} {text : String} (hname : name ∈ names)
    (hfile : tree.at? (folder ++ [name]) ≠ some .folder) :
    SameBesides names tree (tree.put (folder ++ [name]) (.file text)) where
  folders := by
    intro place
    rw [at?_put (by simp)]
    split
    · rename_i heq
      subst heq
      simp [hfile]
    · rfl
  entries := by
    intro place hplace
    rw [at?_put (by simp), if_neg]
    rintro rfl
    exact hplace name hname (by simp)
  listed := by
    intro other keep hkeep
    have hkeys : ((Keyed.keys (tree.put (folder ++ [name]) (.file text)).entries).filterMap fun place =>
          if place.dropLast = other then place.getLast? else none).filter keep =
        ((Keyed.keys tree.entries).filterMap fun place =>
          if place.dropLast = other then place.getLast? else none).filter keep := by
      rw [FileTree.put, Keyed.keys_set]
      split
      · rfl
      · by_cases hother : folder = other <;> simp [hother, hkeep name hname]
    rw [names_eq, names_eq, filter_sortTexts, filter_sortTexts, hkeys]

/-- The files of these names in a folder may be written. -/
theorem keptByWrites (hplace : tree.LeadsTo folder place) (hname : IsEntryName name) (hmem : name ∈ names) :
    Edit.KeptByWrites (SameBesides names tree) (join folder name) := by
  intro mid tree' text hmid hwrite
  obtain ⟨there, hthere, hfile, rfl⟩ := write_eq_ok_iff.1 hwrite
  rw [(hplace.of_sameFolders hmid.folders).2 name hname] at hthere
  cases hthere
  exact hmid.trans (put hmem hfile)

/-! ### What stays -/

section

variable (h : SameBesides names tree tree')

include h

theorem lookup_folder {path : String} (hplace : tree.lookup path = .ok (place, .folder)) :
    tree'.lookup path = .ok (place, .folder) := by
  rw [lookup_eq_ok_iff] at hplace ⊢
  exact ⟨h.folders.locate hplace.1, (h.folders place).2 hplace.2⟩

theorem at?_eq (folder : Place) (hnot : name ∉ names) : tree'.at? (folder ++ [name]) = tree.at? (folder ++ [name]) := by
  apply h.entries
  intro other hother hlast
  rw [getLast?_concat, Option.some.injEq] at hlast
  exact hnot (hlast ▸ hother)

theorem isFolder_eq (path : String) : tree'.isFolder path = tree.isFolder path := by
  rw [Bool.eq_iff_iff, isFolder_iff, isFolder_iff]
  refine exists_congr fun place => ?_
  rw [lookup_eq_ok_iff, lookup_eq_ok_iff, h.folders place]
  exact and_congr_left fun _ => ⟨h.folders.symm.locate, h.folders.locate⟩

/-- A file of another name can be read if it could, and has the same text. -/
theorem stored_eq (hplace : tree.LeadsTo folder place) (hname : IsEntryName name) (hnot : name ∉ names) :
    tree'.stored (join folder name) = tree.stored (join folder name) := by
  simp [stored, lookup, hplace.2 name hname, (hplace.of_sameFolders h.folders).2 name hname, ok_bind, h.at?_eq place hnot]

theorem contains_names (folder : Place) (hnot : name ∉ names) :
    (tree'.names folder).contains name = (tree.names folder).contains name := by
  rw [Bool.eq_iff_iff, contains_iff_mem, contains_iff_mem, mem_names_iff, mem_names_iff,
    h.at?_eq folder hnot]

end

end SameBesides

end FileTree

end ServerlessTaint
