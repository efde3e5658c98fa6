import Mathlib.Data.List.Nodup
import ServerlessTaint.Log
import ServerlessTaint.Proofs.FolderContents
import ServerlessTaint.Proofs.WrittenTables

/-!
# Logs that are split

The log of a run is what was printed before the first repository, and then for each repository the line that
announces it and what was printed during its analysis. Splitting reads the announcements back. It gives each
repository its lines exactly if every announcement can be read, none stands where nothing was announced, and
no repository comes twice, since its file is written anew each time (`split_recovers_iff`).
-/

namespace ServerlessTaint

open List Text

namespace Text

/-! ## Lines with their ends -/

/-- The lines of a text: each is ended, but the last one need not be. -/
inductive AreLines : List (List Char) → Prop
  | nil : AreLines []
  | last {line : List Char} : line ≠ [] → '\n' ∉ line → AreLines [line]
  | cons {content : List Char} {rest : List (List Char)} :
      '\n' ∉ content → AreLines rest → AreLines ((content ++ ['\n']) :: rest)

theorem areLines_linesWithEnds (cs : List Char) : AreLines (linesWithEnds cs) := by
  induction cs with
  | nil => exact .nil
  | cons c cs ih =>
    rw [linesWithEnds]
    split
    · exact @AreLines.cons [] _ (by simp) ih
    · rename_i hc
      generalize linesWithEnds cs = lines at ih ⊢
      cases ih with
      | nil => exact .last (by simp) (by simpa using Ne.symm hc)
      | last hne hline => exact .last (by simp) (by simpa [hline] using Ne.symm hc)
      | @cons content rest hcontent hrest =>
        exact @AreLines.cons (c :: content) rest (by simpa [hcontent] using Ne.symm hc) hrest

theorem linesWithEnds_of_not_mem {line : List Char} (hne : line ≠ []) (h : '\n' ∉ line) :
    linesWithEnds line = [line] := by
  induction line with
  | nil => exact absurd rfl hne
  | cons c line ih =>
    rw [mem_cons, not_or] at h
    rw [linesWithEnds, if_neg (Ne.symm h.1)]
    cases line with
    | nil => rfl
    | cons d line => rw [ih (by simp) h.2]

/-- A line is what stands up to the first line end. -/
theorem linesWithEnds_line {content : List Char} (h : '\n' ∉ content) (rest : List Char) :
    linesWithEnds (content ++ '\n' :: rest) = (content ++ ['\n']) :: linesWithEnds rest := by
  induction content with
  | nil => rw [nil_append, linesWithEnds, if_pos rfl, nil_append]
  | cons c content ih =>
    rw [mem_cons, not_or] at h
    rw [cons_append, linesWithEnds, if_neg (Ne.symm h.1), ih h.2, cons_append]

/-- Lines put together are taken apart again. -/
theorem AreLines.linesWithEnds_flatten {lines : List (List Char)} (h : AreLines lines) :
    linesWithEnds lines.flatten = lines := by
  induction h with
  | nil => rfl
  | last hne hline => rw [flatten_singleton, linesWithEnds_of_not_mem hne hline]
  | cons hcontent _ ih =>
    rw [flatten_cons, append_assoc, singleton_append, linesWithEnds_line hcontent, ih]

variable {first rest : List (List Char)}

theorem AreLines.of_append (h : AreLines (first ++ rest)) : AreLines first ∧ AreLines rest := by
  induction first with
  | nil => exact ⟨.nil, h⟩
  | cons line first ih =>
    generalize hwhole : first ++ rest = whole at h ih
    rw [cons_append, hwhole] at h
    cases h with
    | last hne hline =>
      obtain ⟨rfl, rfl⟩ := append_eq_nil_iff.1 hwhole
      exact ⟨.last hne hline, .nil⟩
    | cons hcontent hrest => exact ⟨.cons hcontent (ih hrest).1, (ih hrest).2⟩

/-- Lines that stand together in a text. -/
theorem linesWithEnds_of_infix {lines : List (List Char)} {cs : List Char} (h : lines <:+: linesWithEnds cs) :
    linesWithEnds lines.flatten = lines := by
  obtain ⟨before, after, heq⟩ := h
  have hall := areLines_linesWithEnds cs
  rw [← heq] at hall
  exact hall.of_append.1.of_append.2.linesWithEnds_flatten

theorem flatten_linesWithEnds (cs : List Char) : (linesWithEnds cs).flatten = cs := by
  induction cs with
  | nil => rfl
  | cons c cs ih =>
    rw [linesWithEnds]
    split
    · rename_i hc
      rw [flatten_cons, ih, hc, singleton_append]
    · cases hlines : linesWithEnds cs with
      | nil | cons =>
        rw [hlines] at ih
        rw [← ih]
        rfl

def IsEnded (cs : List Char) : Prop := cs = [] ∨ cs.getLast? = some '\n'

instance (cs : List Char) : Decidable (IsEnded cs) := inferInstanceAs (Decidable (_ ∨ _))

/-- The lines after an end of line are those of what follows. -/
theorem linesWithEnds_append {first : List Char} (h : IsEnded first) (rest : List Char) :
    linesWithEnds (first ++ rest) = linesWithEnds first ++ linesWithEnds rest := by
  induction first with
  | nil => rfl
  | cons c cs ih =>
    have hcs : IsEnded cs := by cases cs <;> simp_all [IsEnded]
    rw [cons_append, linesWithEnds, linesWithEnds, ih hcs]
    split
    · rfl
    · rename_i hc
      cases hlines : linesWithEnds cs with
      | nil =>
        -- a line that is not ended is no end of the text
        obtain rfl : [] = cs := by rw [← flatten_linesWithEnds cs, hlines]; rfl
        simp [IsEnded, hc] at h
      | cons => rfl

end Text

namespace Log

/-! ## Announcements -/

/-- The line that announces a repository, without its end. -/
def announcement (repository : String) : List Char :=
  opening ++ (repository.toList ++ closing)

def IsReadable (repository : String) : Prop := repository ≠ "" ∧ repository.toList.all isNameChar

instance (repository : String) : Decidable (IsReadable repository) := inferInstanceAs (Decidable (_ ∧ _))

def AreQuiet (lines : List (List Char)) : Prop := ∀ line ∈ lines, announced? line = none

instance (lines : List (List Char)) : Decidable (AreQuiet lines) :=
  inferInstanceAs (Decidable (∀ line ∈ lines, announced? line = none))

variable {repository : String} {line : List Char}

theorem not_mem_of_isReadable (h : IsReadable repository) {c : Char} (hc : isNameChar c = false) :
    c ∉ repository.toList := by
  intro hmem
  have := all_eq_true.1 h.2 c hmem
  rw [hc] at this
  cases this

theorem not_mem_announcement (h : IsReadable repository) : '\n' ∉ announcement repository := by
  rw [announcement, mem_append, mem_append]
  exact not_or.2 ⟨by decide, not_or.2 ⟨not_mem_of_isReadable h (by decide +kernel), by decide⟩⟩

theorem isReadable_of_announced (h : announced? line = some repository) : IsReadable repository := by
  unfold announced? at h
  split at h
  · dsimp only at h
    split at h
    · rename_i hname
      cases h
      rw [Bool.and_eq_true] at hname
      constructor
      · intro hempty
        rw [String.ofList_eq_empty_iff.1 hempty] at hname
        exact absurd hname.1 (by decide)
      · rw [String.toList_ofList]
        exact all_takeWhile
    · cases h
  · cases h

/-- The announcement of a repository with a readable name is read as such, whatever follows it. -/
theorem announced?_announcement (h : IsReadable repository) (rest : List Char) :
    announced? (announcement repository ++ rest) = some repository := by
  have hstop : (closing ++ rest).takeWhile isNameChar = [] := by
    exact takeWhile_cons_of_neg (by decide +kernel)
  have hname : (repository.toList ++ (closing ++ rest)).takeWhile isNameChar = repository.toList := by
    rw [takeWhile_append_of_pos (all_eq_true.1 h.2), hstop, append_nil]
  have hne : repository.toList.isEmpty = false := by simpa using h.1
  have hline : announcement repository ++ rest = opening ++ (repository.toList ++ (closing ++ rest)) := by
    rw [announcement, append_assoc, append_assoc]
  rw [announced?, hline, if_pos ( isPrefixOf_iff_prefix.2 (prefix_append _ _)), drop_left]
  dsimp only
  rw [hname, drop_left, hne, isPrefixOf_iff_prefix.2 (prefix_append _ _), String.ofList_toList]
  rfl

/-! ## Parts -/

/-- A part begins with the line that announces its repository, and no other line announces one. -/
def Part.IsProper (part : Part) : Prop :=
  ∃ first rest, part.lines = first :: rest ∧ announced? first = some part.repository ∧ AreQuiet rest

theorem Part.IsProper.isReadable {part : Part} (h : part.IsProper) : IsReadable part.repository := by
  obtain ⟨first, rest, -, hannounced, -⟩ := h
  exact isReadable_of_announced hannounced

theorem parts_cons_announced (h : announced? line = some repository) (rest : List (List Char)) :
    parts (line :: rest) = ([], ⟨repository, line :: (parts rest).1⟩ :: (parts rest).2) := by
  simp [parts, h]

theorem parts_cons_quiet (h : announced? line = none) (rest : List (List Char)) :
    parts (line :: rest) = (line :: (parts rest).1, (parts rest).2) := by
  simp [parts, h]

/-- Nothing is announced before the first part. -/
theorem quiet_before (lines : List (List Char)) : AreQuiet (parts lines).1 ∧ (parts lines).1 <+: lines := by
  induction lines with
  | nil => exact ⟨by simp [AreQuiet, parts], prefix_rfl⟩
  | cons line rest ih =>
    cases hline : announced? line with
    | some repository =>
      rw [parts_cons_announced hline]
      exact ⟨by simp [AreQuiet], nil_prefix⟩
    | none =>
      rw [parts_cons_quiet hline]
      exact ⟨forall_mem_cons.2 ⟨hline, ih.1⟩, cons_prefix_cons.2 ⟨rfl, ih.2⟩⟩

/-- Each part is proper and stands together in the log. -/
theorem proper_of_mem_parts {lines : List (List Char)} {part : Part} (h : part ∈ (parts lines).2) :
    part.IsProper ∧ part.lines <:+: lines := by
  induction lines with
  | nil => cases h
  | cons line rest ih =>
    cases hline : announced? line with
    | some repository =>
      rw [parts_cons_announced hline] at h
      rcases mem_cons.1 h with rfl | h
      · obtain ⟨hquiet, hbefore⟩ := quiet_before rest
        exact ⟨⟨line, _, rfl, hline, hquiet⟩, (cons_prefix_cons.2 ⟨rfl, hbefore⟩).isInfix⟩
      · exact ⟨(ih h).1, infix_cons (ih h).2⟩
    | none =>
      rw [parts_cons_quiet hline] at h
      exact ⟨(ih h).1, infix_cons (ih h).2⟩

theorem parts_append_quiet {quiet : List (List Char)} (h : AreQuiet quiet) (rest : List (List Char)) :
    parts (quiet ++ rest) = (quiet ++ (parts rest).1, (parts rest).2) := by
  induction quiet with
  | nil => rfl
  | cons line quiet ih =>
    have hrest := ih fun other hother => h other (mem_cons_of_mem line hother)
    rw [cons_append, parts_cons_quiet (h line mem_cons_self), hrest, cons_append]

/-- The parts of a log are those of its beginning and those of the rest, if the rest begins with an
announcement. -/
theorem parts_append {first rest : List (List Char)} (h : (parts rest).1 = []) :
    parts (first ++ rest) = ((parts first).1, (parts first).2 ++ (parts rest).2) := by
  induction first with
  | nil =>
    rw [nil_append, parts, nil_append, ← h]
  | cons line first ih =>
    cases hline : announced? line with
    | some repository =>
      rw [cons_append, parts_cons_announced hline, parts_cons_announced hline, ih, cons_append]
    | none => rw [cons_append, parts_cons_quiet hline, parts_cons_quiet hline, ih]

/-! ## Files of parts -/

theorem toList_fileNameFor (repository : String) :
    (fileNameFor repository).toList = "cloudflow_log_repo_".toList ++ (repository.toList ++ ".log".toList) := by
  have hfile : fileNameFor repository = "cloudflow_log_repo_" ++ repository ++ ".log" := rfl
  rw [hfile, String.toList_append, String.toList_append, append_assoc]

theorem isEntryName_fileNameFor (h : '/' ∉ repository.toList) : IsEntryName (fileNameFor repository) := by
  have hlong : 3 < (fileNameFor repository).toList.length := by
    rw [toList_fileNameFor, length_append, length_append, show ".log".toList.length = 4 from rfl]
    omega
  have hne : ∀ other : String, other.toList.length ≤ 3 → fileNameFor repository ≠ other := by
    rintro other hother rfl
    omega
  refine ⟨hne _ (by decide), hne _ (by decide), hne _ (by decide), ?_⟩
  rw [toList_fileNameFor, mem_append, mem_append]
  exact not_or.2 ⟨by decide, not_or.2 ⟨h, by decide⟩⟩

theorem fileNameFor_inj {other : String} (h : fileNameFor repository = fileNameFor other) : repository = other := by
  have htext := congrArg String.toList h
  rw [toList_fileNameFor, toList_fileNameFor] at htext
  exact String.toList_inj.1 (append_cancel_right (append_cancel_left htext))

def Part.text (part : Part) : String := String.ofList part.lines.flatten

section

variable {tree : FileTree} {folder : String} {place : Place}

/-- What is found after parts were written to the files of their repositories, in the folder at a place. -/
structure PartsWritten (parts : List Part) (place : Place) (tree tree' : FileTree) : Prop where
  folders : tree.SameFolders tree'
  /-- Each entry is what was there or has the text of a part. -/
  entries : ∀ other, tree'.at? other = tree.at? other ∨
    ∃ part ∈ parts, other = place ++ [fileNameFor part.repository] ∧ tree'.at? other = some (.file part.text)
  /-- The last part of a repository is found in its file. -/
  last : ∀ (before : List Part) (part : Part) (after : List Part), parts = before ++ part :: after →
    (∀ later ∈ after, later.repository ≠ part.repository) →
    tree.at? (place ++ [fileNameFor part.repository]) ≠ some .folder →
    tree'.at? (place ++ [fileNameFor part.repository]) = some (.file part.text)

/-- Writing a part puts its text in the file of its repository, unless a folder stands there. -/
theorem run_writePart (hplace : tree.LeadsTo folder place) {part : Part} (hpart : IsReadable part.repository) :
    ∃ tree', (writePart folder part).run.run tree = (.ok (), tree') ∧ PartsWritten [part] place tree tree' := by
  have hlocate := hplace.2 _ (isEntryName_fileNameFor (not_mem_of_isReadable hpart (by decide +kernel)))
  have hsole : ∀ {before p after}, [part] = before ++ p :: after → p = part := fun hsplit =>
    mem_singleton.1 (hsplit ▸ by simp)
  by_cases hfolder : tree.at? (place ++ [fileNameFor part.repository]) = some .folder
  · have herror : tree.write (Path.join folder (fileNameFor part.repository)) part.text = .error .isAFolder := by
      rw [FileTree.write, hlocate, ok_bind, hfolder]
      rfl
    refine ⟨tree, Edit.run_tryCatch_error (Edit.run_change_error herror), fun _ => Iff.rfl, fun _ => .inl rfl, ?_⟩
    intro before p after hsplit _ hfree
    exact absurd hfolder (hsole hsplit ▸ hfree)
  · have hwrite : tree.write (Path.join folder (fileNameFor part.repository)) part.text = .ok _ :=
      FileTree.write_eq_ok_iff.2 ⟨_, hlocate, hfolder, rfl⟩
    refine ⟨_, Edit.run_tryCatch_ok (Edit.write_eq_ok_iff.2 hwrite), FileTree.sameFolders_write hwrite, ?_, ?_⟩
    · intro other
      by_cases hother : place ++ [fileNameFor part.repository] = other
      · exact .inr ⟨part, mem_cons_self, hother.symm, by rw [FileTree.at?_put (by simp), if_pos hother]⟩
      · exact .inl (by rw [FileTree.at?_put (by simp), if_neg hother])
    · intro before p after hsplit _ _
      rw [hsole hsplit, FileTree.at?_put (by simp), if_pos rfl]

/-- A part before the others may be written over by one of them. -/
theorem PartsWritten.cons {first : Part} {rest : List Part} {mid tree' : FileTree}
    (hfirst : PartsWritten [first] place tree mid) (h : PartsWritten rest place mid tree') :
    PartsWritten (first :: rest) place tree tree' where
  folders := hfirst.folders.trans h.folders
  entries := by
    intro other
    rcases h.entries other with hkept | ⟨part, hpart, hwritten⟩
    · rcases hfirst.entries other with hbefore | ⟨part, hpart, hwhere, hfile⟩
      · exact .inl (hkept.trans hbefore)
      · exact .inr ⟨part, mem_singleton.1 hpart ▸ mem_cons_self, hwhere, hkept.trans hfile⟩
    · exact .inr ⟨part, mem_cons_of_mem _ hpart, hwritten⟩
  last := by
    intro before part after hsplit hafter hfree
    cases before with
    | nil =>
      obtain ⟨rfl, rfl⟩ := hsplit
      rcases h.entries (place ++ [fileNameFor first.repository]) with hkept | ⟨later, hlater, hwhere, -⟩
      · exact hkept.trans (hfirst.last [] first [] rfl (forall_mem_nil _) hfree)
      · have hname : fileNameFor first.repository = fileNameFor later.repository := by simpa using hwhere
        exact absurd (fileNameFor_inj hname).symm (hafter later hlater)
    | cons head before =>
      rw [cons_append, cons.injEq] at hsplit
      exact h.last before part after hsplit.2 hafter fun hfolder => hfree ((hfirst.folders _).1 hfolder)

theorem run_writeParts (hplace : tree.LeadsTo folder place) {parts : List Part}
    (hparts : ∀ part ∈ parts, IsReadable part.repository) :
    ∃ tree', (parts.forM (writePart folder)).run.run tree = (.ok (), tree') ∧
      PartsWritten parts place tree tree' := by
  induction parts generalizing tree with
  | nil => exact ⟨tree, rfl, fun _ => Iff.rfl, fun _ => .inl rfl, by simp⟩
  | cons first rest ih =>
    obtain ⟨mid, hmid, hfirst⟩ := run_writePart hplace (hparts first mem_cons_self)
    obtain ⟨tree', hrun, hwritten⟩ :=
      ih (hplace.of_sameFolders hfirst.folders) fun part hpart => hparts part (mem_cons_of_mem _ hpart)
    exact ⟨tree', (Edit.run_bind_ok hmid).trans hrun, hfirst.cons hwritten⟩

/-- Splitting goes well, and leaves the parts of the log in the files of their repositories. -/
theorem run_split {log : String} (hread : tree.read (Path.join folder fileName) = .ok log) :
    ∃ place tree', tree.LeadsTo folder place ∧ (split folder).run.run tree = (.ok (), tree') ∧
      PartsWritten (parts (linesWithEnds log.toList)).2 place tree tree' := by
  obtain ⟨there, hthere⟩ : ∃ there, tree.locate (Path.join folder fileName) = .ok there := by
    cases hstored : tree.stored (Path.join folder fileName) with
    | ok stored =>
      obtain ⟨there, hthere, -⟩ := FileTree.stored_eq_ok_iff.1 hstored
      exact ⟨there, hthere⟩
    | error fault =>
      rw [FileTree.read, hstored] at hread
      cases hread
  obtain ⟨place, hplace, -⟩ := FileTree.leadsTo_of_locate (show IsEntryName fileName by decide) hthere
  have hparts : ∀ part ∈ (parts (linesWithEnds log.toList)).2, IsReadable part.repository :=
    fun part hpart => (proper_of_mem_parts hpart).1.isReadable
  obtain ⟨tree', hrun, hwritten⟩ := run_writeParts hplace hparts
  exact ⟨place, tree', hplace, (Edit.run_bind_ok (Edit.ask_eq_ok_iff.2 ⟨hread, rfl⟩)).trans hrun, hwritten⟩

end

/-! ## Logs of a run -/

/-- What is logged about a repository: its announcement and what is printed during its analysis. -/
structure Section where
  repository : String
  body : List Char

namespace Section

def text (s : Section) : List Char := announcement s.repository ++ '\n' :: s.body

def lines (s : Section) : List (List Char) := (announcement s.repository ++ ['\n']) :: Text.linesWithEnds s.body

def part (s : Section) : Part := ⟨s.repository, s.lines⟩

theorem flatten_lines (s : Section) : s.lines.flatten = s.text := by
  rw [lines, text, flatten_cons, flatten_linesWithEnds, append_assoc, singleton_append]

variable {s : Section}

theorem linesWithEnds_text (h : IsReadable s.repository) : linesWithEnds s.text = s.lines :=
  linesWithEnds_line (not_mem_announcement h) s.body

theorem isEnded_text (h : IsEnded s.body) : IsEnded s.text := by
  right
  rw [text, getLast?_append, getLast?_cons]
  rcases h with hempty | hlast
  · simp [hempty]
  · simp [hlast]

theorem announced?_head (h : IsReadable s.repository) :
    announced? (announcement s.repository ++ ['\n']) = some s.repository :=
  announced?_announcement h ['\n']

end Section

variable {sections : List Section}

/-- The lines of sections are their announcements and bodies, if each section but the last one is ended. -/
theorem lines_sections (hread : ∀ s ∈ sections, IsReadable s.repository)
    (hended : sections.Pairwise fun s _ => IsEnded s.body) :
    linesWithEnds (sections.flatMap Section.text) = sections.flatMap Section.lines := by
  induction sections with
  | nil => rfl
  | cons s rest ih =>
    rw [pairwise_cons] at hended
    have hown := Section.linesWithEnds_text (hread s mem_cons_self)
    have hrest := ih (fun t ht => hread t (mem_cons_of_mem s ht)) hended.2
    cases rest with
    | nil => rw [flatMap_singleton, flatMap_singleton, hown]
    | cons t rest =>
      have htext := Section.isEnded_text (hended.1 t mem_cons_self)
      rw [flatMap_cons, linesWithEnds_append htext, hown, hrest]
      exact flatMap_cons.symm

/-- Sections whose bodies announce nothing are the parts of their lines. -/
theorem parts_sections (hread : ∀ s ∈ sections, IsReadable s.repository)
    (hquiet : ∀ s ∈ sections, AreQuiet (linesWithEnds s.body)) :
    parts (sections.flatMap Section.lines) = ([], sections.map Section.part) := by
  induction sections with
  | nil => rfl
  | cons s rest ih =>
    have hrest := ih (fun t ht => hread t (mem_cons_of_mem s ht)) fun t ht =>
      hquiet t (mem_cons_of_mem s ht)
    have hhead := Section.announced?_head (hread s mem_cons_self)
    rw [flatMap_cons, Section.lines, cons_append, parts_cons_announced hhead,
      parts_append_quiet (hquiet s mem_cons_self), hrest, append_nil]
    rfl

/-- Repositories are distinct exactly if each has one section. -/
theorem filter_eq_singleton_iff :
    (∀ s ∈ sections, sections.filter (fun t => t.repository = s.repository) = [s]) ↔
      (sections.map Section.repository).Nodup := by
  rw [nodup_iff_count_eq_one, forall_mem_map]
  refine forall₂_congr fun s hs => ?_
  have hcount : (sections.map Section.repository).count s.repository =
      (sections.filter fun t => t.repository = s.repository).length := by
    rw [count_eq_countP, countP_map, countP_eq_length_filter]
    rfl
  rw [hcount, length_eq_one_iff]
  refine ⟨fun h => ⟨s, h⟩, fun ⟨t, ht⟩ => ?_⟩
  have hmem : s ∈ sections.filter fun t => t.repository = s.repository := by simpa using hs
  rw [ht, mem_singleton] at hmem
  rw [ht, hmem]

/-- Each repository has its lines in its file, in their order, and no other file has got any of them. -/
structure Recovered (tree tree' : FileTree) (folder : String) (preamble : List Char) (sections : List Section) :
    Prop where
  own : ∀ s ∈ sections, tree'.stored (Path.join folder (fileNameFor s.repository)) =
    .ok (String.ofList ((sections.filter fun t => t.repository = s.repository).flatMap Section.text))
  other : ∀ path text, tree'.stored path = .ok text →
    (∀ s ∈ sections, tree.locate path ≠ tree.locate (Path.join folder (fileNameFor s.repository))) →
    tree.stored path = .ok text ∨ text.toList <:+: preamble

section

variable {tree tree' : FileTree} {folder : String} {place : Place} {preamble : List Char} {sections : List Section}
  {s : Section}

/-- The sections of one repository make a part only if there is one of them, and its body announces nothing. -/
theorem quiet_of_part {part : Part} (hs : s ∈ sections) (hended : sections.Pairwise fun s _ => IsEnded s.body)
    (hproper : part.IsProper) (hlines : linesWithEnds part.lines.flatten = part.lines)
    (hrepository : part.repository = s.repository)
    (htext : part.lines.flatten = (sections.filter fun t => t.repository = s.repository).flatMap Section.text) :
    sections.filter (fun t => t.repository = s.repository) = [s] ∧ AreQuiet (linesWithEnds s.body) := by
  have hread : IsReadable s.repository := hrepository ▸ hproper.isReadable
  obtain ⟨first, rest, hpart, -, hquiet⟩ := hproper
  have hmine : ∀ t ∈ sections.filter (fun t => t.repository = s.repository), t.repository = s.repository :=
    fun t ht => by simpa using (mem_filter.1 ht).2
  have hmem : s ∈ sections.filter (fun t => t.repository = s.repository) := mem_filter.2 ⟨hs, by simp⟩
  rw [htext, lines_sections (fun t ht => (hmine t ht).symm ▸ hread) (hended.filter _), hpart] at hlines
  generalize sections.filter (fun t => t.repository = s.repository) = mine at hlines hmine hmem ⊢
  cases mine with
  | nil => cases hmem
  | cons head more =>
    rw [flatMap_cons, Section.lines, cons_append, cons.injEq] at hlines
    have hnone : more = [] := by
      cases more with
      | nil => rfl
      | cons next more =>
        -- The announcement of a second section is one of the later lines.
        have hnext := hmine next (by simp)
        have hin : announcement next.repository ++ ['\n'] ∈ rest := by
          rw [← hlines.2, flatMap_cons, Section.lines]
          simp
        rw [← hnext] at hread
        have hsome := hquiet _ hin
        rw [Section.announced?_head hread] at hsome
        cases hsome
    subst hnone
    obtain rfl : s = head := by simpa using hmem
    refine ⟨rfl, fun line hline => hquiet line ?_⟩
    rw [← hlines.2]
    exact mem_append_left _ hline

/-- Where lines are recovered, names can be read, and bodies announce nothing: the file of a repository was not
there before, so it has the text of a part. -/
theorem PartsWritten.quiet_of_recovered {lines : List Char} (hs : s ∈ sections)
    (h : PartsWritten (parts (linesWithEnds lines)).2 place tree tree') (hplace : tree'.LeadsTo folder place)
    (hname : '/' ∉ s.repository.toList) (hfree : tree.at? (place ++ [fileNameFor s.repository]) = none)
    (hended : sections.Pairwise fun s _ => IsEnded s.body)
    (hrecovered : Recovered tree tree' folder preamble sections) :
    IsReadable s.repository ∧ sections.filter (fun t => t.repository = s.repository) = [s] ∧
      AreQuiet (linesWithEnds s.body) := by
  have hown := (hplace.stored_eq_ok_iff (isEntryName_fileNameFor hname)).1 (hrecovered.own s hs)
  rcases h.entries (place ++ [fileNameFor s.repository]) with hkept | ⟨part, hmem, hwhere, hfile⟩
  · rw [hkept, hfree] at hown
    cases hown
  · have hrepository : part.repository = s.repository := (fileNameFor_inj (by simpa using hwhere)).symm
    have htext := Entry.file.inj (Option.some.inj (hfile.symm.trans hown))
    obtain ⟨hproper, hinfix⟩ := proper_of_mem_parts hmem
    exact ⟨hrepository ▸ hproper.isReadable, quiet_of_part hs hended hproper ( linesWithEnds_of_infix hinfix)
      hrepository (String.ofList_injective htext)⟩

/-- Sections that are parts after those of the preamble, each of its own repository, are recovered. -/
theorem PartsWritten.recovered
    (h : PartsWritten ((parts (linesWithEnds preamble)).2 ++ sections.map Section.part) place tree tree')
    (hplace : tree.LeadsTo folder place) (hnames : ∀ s ∈ sections, '/' ∉ s.repository.toList)
    (hfree : ∀ s ∈ sections, tree.at? (place ++ [fileNameFor s.repository]) = none)
    (hdistinct : (sections.map Section.repository).Nodup) : Recovered tree tree' folder preamble sections where
  own := by
    intro s hs
    rw [filter_eq_singleton_iff.2 hdistinct s hs, flatMap_singleton, ← s.flatten_lines,
      (hplace.of_sameFolders h.folders).stored_eq_ok_iff (isEntryName_fileNameFor (hnames s hs))]
    obtain ⟨before, after, rfl⟩ := append_of_mem hs
    refine h.last ((parts (linesWithEnds preamble)).2 ++ before.map Section.part) s.part (after.map Section.part)
      (by simp) ?_ (by simp [Section.part, hfree s hs])
    intro later hlater
    obtain ⟨t, ht, rfl⟩ := mem_map.1 hlater
    rw [map_append, map_cons] at hdistinct
    have hnot := (nodup_cons.1 (nodup_append.1 hdistinct).2.1).1
    exact fun heq => hnot (mem_map.2 ⟨t, ht, heq⟩)
  other := by
    intro path text hstored helse
    obtain ⟨there, hthere, hentry⟩ := FileTree.stored_eq_ok_iff.1 hstored
    have hbefore := h.folders.symm.locate hthere
    rcases h.entries there with hkept | ⟨part, hmem, hwhere, hfile⟩
    · exact .inl (FileTree.stored_eq_ok_iff.2 ⟨there, hbefore, hkept ▸ hentry⟩)
    · rcases mem_append.1 hmem with hmem | hmem
      · -- A part of the preamble.
        obtain ⟨before, after, hinfix⟩ := (proper_of_mem_parts hmem).2
        have htext := Entry.file.inj (Option.some.inj (hentry.symm.trans hfile))
        refine .inr ⟨before.flatten, after.flatten, ?_⟩
        rw [htext, Part.text, String.toList_ofList, ← flatten_append, ← flatten_append, hinfix,
          flatten_linesWithEnds]
      · obtain ⟨s, hs, rfl⟩ := mem_map.1 hmem
        refine absurd ?_ (helse s hs)
        rw [hbefore, hwhere, hplace.2 _ (isEntryName_fileNameFor (hnames s hs))]
        rfl

/-- **What splitting recovers.** Let a log be something printed before the first announcement and then the
sections of repositories that have no logs of their own yet. Splitting it gives every repository its lines,
and no other file any of them, exactly if each repository has a name that can be read, no repository is
announced twice, and no line of a section looks like an announcement. -/
theorem split_recovers_iff {log : String} (hlog : log.toList = preamble ++ sections.flatMap Section.text)
    (hread : tree.read (Path.join folder fileName) = .ok log) (hpreamble : Text.IsEnded preamble)
    (hended : sections.Pairwise fun s _ => Text.IsEnded s.body)
    (hnames : ∀ s ∈ sections, '/' ∉ s.repository.toList)
    (hfresh : ∀ s ∈ sections, tree.pathExists (Path.join folder (fileNameFor s.repository)) = false) :
    ∃ tree', (split folder).run.run tree = (.ok (), tree') ∧
      (Recovered tree tree' folder preamble sections ↔
        (∀ s ∈ sections, IsReadable s.repository) ∧ (sections.map Section.repository).Nodup ∧
          ∀ s ∈ sections, AreQuiet (Text.linesWithEnds s.body)) := by
  obtain ⟨place, tree', hplace, hrun, hwritten⟩ := run_split hread
  have hfree : ∀ s ∈ sections, tree.at? (place ++ [fileNameFor s.repository]) = none := fun s hs =>
    hplace.at?_of_not_exists (isEntryName_fileNameFor (hnames s hs)) (hfresh s hs)
  refine ⟨tree', hrun, ?_, ?_⟩
  · intro hrecovered
    have hall := fun s hs => hwritten.quiet_of_recovered hs (hplace.of_sameFolders hwritten.folders) (hnames s hs)
      (hfree s hs) hended hrecovered
    exact ⟨fun s hs => (hall s hs).1, filter_eq_singleton_iff.1 fun s hs => (hall s hs).2.1,
      fun s hs => (hall s hs).2.2⟩
  · rintro ⟨hreadable, hdistinct, hquiet⟩
    have hsections := parts_sections hreadable hquiet
    rw [hlog, Text.linesWithEnds_append hpreamble, lines_sections hreadable hended, parts_append (by rw [hsections]),
      hsections] at hwritten
    exact hwritten.recovered hplace hnames hfree hdistinct

end

def twoSections (second : String) : List Section := [⟨"a", "x\n".toList⟩, ⟨second, "y".toList⟩]

def twoSectionsLog (second : String) : String :=
  String.ofList ("start\n".toList ++ (twoSections second).flatMap Section.text)

def loggedTree (second : String) : FileTree := FileTree.putFile ["t", fileName] (twoSectionsLog second) FileTree.empty

theorem toList_twoSectionsLog (second : String) :
    (twoSectionsLog second).toList = "start\n".toList ++ (twoSections second).flatMap Section.text :=
  String.toList_ofList

theorem read_loggedTree {second : String} (h : '\r' ∉ (twoSections second).flatMap Section.text) :
    (loggedTree second).read (Path.join "/t" fileName) = .ok (twoSectionsLog second) := by
  have hlocate : (loggedTree second).locate (Path.join "/t" fileName) = .ok ["t", fileName] := rfl
  have hstored : (loggedTree second).stored (Path.join "/t" fileName) = .ok (twoSectionsLog second) :=
    FileTree.stored_eq_ok_iff.2 ⟨["t", fileName], hlocate, rfl⟩
  have hplain : '\r' ∉ (twoSectionsLog second).toList := by
    rw [toList_twoSectionsLog, mem_append]
    exact not_or.2 ⟨by decide, h⟩
  exact congrArg Except.ok (readAsText_of_not_mem hplain)

/-- The lines of two repositories are recovered, but not if the name of one has a blank in it. -/
theorem split_loses_name_with_blank :
    (∃ tree', (split "/t").run.run (loggedTree "b-c") = (.ok (), tree') ∧
      Recovered (loggedTree "b-c") tree' "/t" "start\n".toList (twoSections "b-c")) ∧
    ∃ tree', (split "/t").run.run (loggedTree "b c") = (.ok (), tree') ∧
      ¬ Recovered (loggedTree "b c") tree' "/t" "start\n".toList (twoSections "b c") := by
  constructor
  · obtain ⟨tree', hrun, hrecovered⟩ := split_recovers_iff (toList_twoSectionsLog "b-c")
      (read_loggedTree (by decide +kernel)) (by decide) (by decide +kernel) (by decide +kernel) (by decide +kernel)
    exact ⟨tree', hrun, hrecovered.2 (by decide +kernel)⟩
  · obtain ⟨tree', hrun, hrecovered⟩ := split_recovers_iff (toList_twoSectionsLog "b c")
      (read_loggedTree (by decide +kernel)) (by decide) (by decide +kernel) (by decide +kernel) (by decide +kernel)
    exact ⟨tree', hrun, fun h => absurd (hrecovered.1 h).1 (by decide +kernel)⟩

end Log

end ServerlessTaint
