import ServerlessTaint.Edit
import ServerlessTaint.Proofs.Fault
import ServerlessTaint.Proofs.Keyed

/-!
# Laws of files and edits

Writing a file changes what stands at its place and nothing else: the folders stay as they are, so
every path leads where it led before, and other files keep their texts. What an edit does when it goes
well is told by one lemma for each of its forms. An edit that gives up leaves the files as they are at that
moment, so what every step keeps is kept by the edit, whether it goes well or not (`Keeps`).
-/

namespace ServerlessTaint

open List
open Syntax (Ast)

/-! ## Programs and the characters of their texts -/

/-- `Syntax.runParse` on the characters of a text. An evaluation that starts from them does not have to
decode the text. -/
def Syntax.runChars {α : Type} (split : List Char → Lexed) (cs : List Char) (step : Nat → Parse α) :
    Except SyntaxFault α :=
  if cs.contains '\x00' then .error .invalid
  else
    let lexed := split cs
    match step (4 * cs.length + 64) ⟨lexed.tokens, ⟨1, 0⟩, lexed.tokens.length, lexed.fault⟩ with
    | .ok (a, _) => .ok a
    | .error stop => .error (stop.fault lexed.tokens lexed.fault)

theorem Syntax.runParse_eq {α : Type} (split : List Char → Lexed) (text : String) (step : Nat → Parse α) :
    runParse split text step = runChars split text.toList step := rfl

theorem Text.toList_readAsText (text : String) : (readAsText text).toList = normalizeNewlines text.toList :=
  String.toList_ofList

theorem toOption_programOf (text : String) : (programOf text).toOption = (Syntax.parseModule text).toOption := by
  rw [programOf]
  cases Syntax.parseModule text <;> rfl

namespace FileTree

def SameFolders (tree tree' : FileTree) : Prop :=
  ∀ place, tree'.at? place = some .folder ↔ tree.at? place = some .folder

variable {place : Place} {entry : Entry} {path other text old : String} {tree tree' : FileTree}

theorem SameFolders.symm (h : tree.SameFolders tree') : tree'.SameFolders tree :=
  fun place => (h place).symm

theorem SameFolders.trans {t₁ t₂ t₃ : FileTree} (h : t₁.SameFolders t₂) (h' : t₂.SameFolders t₃) : t₁.SameFolders t₃ :=
  fun place => (h' place).trans (h place)

/-! ## Paths -/

section

variable (h : tree.SameFolders tree')

include h

theorem SameFolders.step {next : Place} {part : String} (hs : tree.step place part = .ok next) :
    tree'.step place part = .ok next := by
  unfold FileTree.step at hs ⊢
  split at hs <;> rename_i hentry
  · cases hs
  · cases hs
  · rwa [(h place).2 hentry]

theorem SameFolders.foldlM_step (parts : List String) {start : Place} (hs : parts.foldlM tree.step start = .ok place) :
    parts.foldlM tree'.step start = .ok place := by
  induction parts generalizing start with
  | nil => exact hs
  | cons part parts ih =>
    rw [foldlM_cons] at hs ⊢
    cases hnext : tree.step start part with
    | error fault => rw [hnext] at hs; cases hs
    | ok next =>
      rw [hnext] at hs
      rw [h.step hnext]
      exact ih hs

/-- A path leads to the same place in trees with the same folders. -/
theorem SameFolders.locate (hs : tree.locate path = .ok place) : tree'.locate path = .ok place := by
  unfold FileTree.locate at hs ⊢
  split at hs
  · cases hs
  · rename_i hpath
    rw [if_neg hpath]
    exact h.foldlM_step _ hs

/-- Paths that lead to different places do so in trees with the same folders. -/
theorem SameFolders.locate_ne (hother : tree.locate other = .ok place) (hne : tree.locate path ≠ tree.locate other) :
    tree'.locate path ≠ tree'.locate other := by
  intro heq
  rw [h.locate hother] at heq
  exact hne (by rw [h.symm.locate heq, hother])

end

/-! ## Reading and writing -/

theorem at?_put {other : Place} (h : place ≠ []) :
    (tree.put place entry).at? other = if place = other then some entry else tree.at? other := by
  unfold at? put
  by_cases hother : other = []
  · subst hother; simp [h]
  · simp [hother, Keyed.find?_set]

theorem ne_nil_of_not_folder (h : tree.at? place ≠ some .folder) : place ≠ [] := by
  rintro rfl
  exact h rfl

theorem lookup_eq_ok_iff :
    tree.lookup path = .ok (place, entry) ↔ tree.locate path = .ok place ∧ tree.at? place = some entry := by
  rw [lookup, bind_eq_ok_iff]
  constructor
  · rintro ⟨there, hthere, h⟩
    split at h <;> cases h
    rename_i hentry
    exact ⟨hthere, hentry⟩
  · rintro ⟨hplace, hentry⟩
    exact ⟨place, hplace, by rw [hentry]; rfl⟩

theorem stored_eq_ok_iff :
    tree.stored path = .ok text ↔ ∃ place, tree.locate path = .ok place ∧ tree.at? place = some (.file text) := by
  rw [stored, bind_eq_ok_iff]
  constructor
  · rintro ⟨⟨place, _ | _⟩, hlookup, h⟩ <;> cases h
    exact ⟨place, lookup_eq_ok_iff.1 hlookup⟩
  · rintro ⟨place, hplace⟩
    exact ⟨_, lookup_eq_ok_iff.2 hplace, rfl⟩

theorem write_eq_ok_iff :
    tree.write path text = .ok tree' ↔
      ∃ place, tree.locate path = .ok place ∧ tree.at? place ≠ some .folder ∧ tree' = tree.put place (.file text) := by
  rw [write, bind_eq_ok_iff]
  refine exists_congr fun place => and_congr_right fun _ => ?_
  split
  · simp [*, throw, throwThe, MonadExceptOf.throw]
  · simp_all [pure, Except.pure, eq_comm]

section

variable (h : tree.write path text = .ok tree')

include h

theorem sameFolders_write : tree.SameFolders tree' := by
  obtain ⟨place, _, hplace, rfl⟩ := write_eq_ok_iff.1 h
  intro other
  rw [at?_put (ne_nil_of_not_folder hplace)]
  split
  · rename_i heq
    subst heq
    simp [hplace]
  · rfl

/-- A file has the text that was written to it. -/
theorem stored_write : tree'.stored path = .ok text := by
  have hsame := sameFolders_write h
  obtain ⟨place, hlocate, hplace, rfl⟩ := write_eq_ok_iff.1 h
  refine stored_eq_ok_iff.2 ⟨place, hsame.locate hlocate, ?_⟩
  rw [at?_put (ne_nil_of_not_folder hplace), if_pos rfl]

/-- A file at another place has the text that it had. -/
theorem stored_write_iff (hne : tree.locate path ≠ tree.locate other) :
    tree'.stored other = .ok old ↔ tree.stored other = .ok old := by
  have hsame := sameFolders_write h
  obtain ⟨place, hlocate, hplace, rfl⟩ := write_eq_ok_iff.1 h
  rw [stored_eq_ok_iff, stored_eq_ok_iff]
  refine exists_congr fun there => ?_
  rw [show (tree.put place (.file text)).locate other = .ok there ↔ tree.locate other = .ok there from
    ⟨hsame.symm.locate, hsame.locate⟩]
  refine and_congr_right fun hother => ?_
  rw [at?_put (ne_nil_of_not_folder hplace), if_neg]
  rintro rfl
  exact hne (hlocate.trans hother.symm)

end

/-- A file that is there can be written. -/
theorem exists_write (h : tree.stored path = .ok old) (text : String) : ∃ tree', tree.write path text = .ok tree' := by
  obtain ⟨place, hplace, hentry⟩ := stored_eq_ok_iff.1 h
  exact ⟨_, write_eq_ok_iff.2 ⟨place, hplace, by simp [hentry], rfl⟩⟩

/-- Adding to a file that is there writes it again. -/
theorem append_of_stored (h : tree.stored path = .ok old) (text : String) :
    tree.append path text = tree.write path (old ++ text) := by
  obtain ⟨place, hplace, hentry⟩ := stored_eq_ok_iff.1 h
  simp [append, write, hplace, ok_bind, hentry]

theorem exists_write_of_append (h : tree.append path text = .ok tree') :
    ∃ whole, tree.write path whole = .ok tree' := by
  rw [append, bind_eq_ok_iff] at h
  obtain ⟨place, hplace, h⟩ := h
  simp only [write, hplace, ok_bind]
  split at h <;> rename_i hentry <;> rw [hentry]
  · cases h
  · exact ⟨_, h⟩
  · exact ⟨_, h⟩

/-- A file that was written can be removed. -/
theorem exists_removeFile_of_write (h : tree.write path text = .ok tree') :
    ∃ left, tree'.removeFile path = .ok left := by
  obtain ⟨place, hplace, hentry⟩ := stored_eq_ok_iff.1 (stored_write h)
  refine ⟨⟨Keyed.remove place tree'.entries⟩, ?_⟩
  simp only [removeFile, lookup, hplace, ok_bind, hentry]
  rfl

theorem program_of_stored (h : tree.stored path = .ok text) : tree.program path = programOf (Text.readAsText text) := by
  rw [program, read, h]
  exact ok_bind _ _

theorem stored_of_program {program : Ast} (h : tree.program path = .ok program) :
    ∃ text, tree.stored path = .ok text := by
  cases hstored : tree.stored path with
  | ok text => exact ⟨text, rfl⟩
  | error fault =>
    simp only [FileTree.program, read, hstored] at h
    cases h

/-! ## Names of files and folders -/

/-- The entry without its text, if it has one. -/
def shape : Entry → Entry
  | .file _ => .file ""
  | .folder => .folder

/-- What stands where, up to the texts of files. -/
def outline (tree : FileTree) : Keyed Place Entry := tree.entries.map fun e => (e.1, shape e.2)

theorem shape_eq_folder_iff : shape entry = .folder ↔ entry = .folder := by
  cases entry <;> simp [shape]

theorem at?_eq_folder_iff :
    tree.at? place = some .folder ↔ place = [] ∨ Keyed.find? place tree.outline = some .folder := by
  rw [outline, Keyed.find?_map, at?]
  by_cases hplace : place = []
  · simp [hplace]
  · simp [hplace, shape_eq_folder_iff]

/-- Trees with the same names have the same folders. -/
theorem sameFolders_of_outline (h : tree'.outline = tree.outline) : tree.SameFolders tree' := by
  intro place
  rw [at?_eq_folder_iff, at?_eq_folder_iff, h]

/-- What is taken from the files below a place does not depend on their texts. -/
theorem filterMap_below {α : Type} (tree : FileTree) (place : Place) {g : Place × Entry → Option α}
    (hg : ∀ names entry, g (names, entry) = g (names, shape entry)) :
    (tree.below place).filterMap g =
      tree.outline.filterMap fun e => if isBelow place e.1 then g (e.1.drop place.length, e.2) else none := by
  rw [below, outline, filterMap_filterMap, filterMap_map]
  congr
  funext e
  cases hbelow : isBelow place e.1 <;> simp [hbelow, ← hg]

/-- The files below a folder do not depend on their texts. -/
theorem walkFiles_of_outline (h : tree'.outline = tree.outline) (folder : String) :
    tree'.walkFiles folder = tree.walkFiles folder := by
  have hsame := sameFolders_of_outline h
  have hlookup : ∀ place, tree'.lookup folder = .ok (place, .folder) ↔ tree.lookup folder = .ok (place, .folder) := by
    intro place
    rw [lookup_eq_ok_iff, lookup_eq_ok_iff, hsame place]
    exact and_congr_left fun _ => ⟨hsame.symm.locate, hsame.locate⟩
  by_cases hfolder : ∃ place, tree.lookup folder = .ok (place, .folder)
  · obtain ⟨place, hplace⟩ := hfolder
    simp only [walkFiles, hplace, (hlookup place).2 hplace]
    rw [filterMap_below tree' place fun _ entry => by cases entry <;> rfl,
      filterMap_below tree place fun _ entry => by cases entry <;> rfl, h]
  · have hnone : ∀ {t : FileTree}, (¬ ∃ place, t.lookup folder = .ok (place, .folder)) → t.walkFiles folder = [] := by
      intro t ht
      unfold walkFiles
      split
      · rename_i place hplace
        exact absurd ⟨place, hplace⟩ ht
      · rfl
    rw [hnone hfolder, hnone (by simpa [hlookup] using hfolder)]

/-- Writing to a file that is there changes no names. -/
theorem outline_write (hold : tree.stored path = .ok old) (h : tree.write path text = .ok tree') :
    tree'.outline = tree.outline := by
  obtain ⟨place, hplace, hentry⟩ := stored_eq_ok_iff.1 hold
  obtain ⟨place', hplace', hfolder, rfl⟩ := write_eq_ok_iff.1 h
  cases hplace.symm.trans hplace'
  have hfind : Keyed.find? place tree.entries = some (.file old) := by
    simpa [at?, ne_nil_of_not_folder hfolder] using hentry
  exact Keyed.map_set_of_find? shape hfind rfl

end FileTree

/-! ## Edits that go well -/

namespace Edit

variable {fault : Fault} {path : String} {tree tree' : FileTree} {f : FileTree → Except Fault FileTree}

theorem bind_eq_ok_iff {α β : Type} {x : Edit α} {f : α → Edit β} {b : β} :
    (x >>= f).run.run tree = (.ok b, tree') ↔
      ∃ a mid, x.run.run tree = (.ok a, mid) ∧ (f a).run.run mid = (.ok b, tree') :=
  run_bind_eq_ok_iff

/-- Asking leaves the files as they are. -/
theorem run_ask {α : Type} (question : FileTree → Except Fault α) (tree : FileTree) :
    (ask question).run.run tree = (question tree, tree) := by
  rw [ask, run_bind_of_ok (show (get : Edit FileTree).run.run tree = (.ok tree, tree) from rfl)]
  cases question tree <;> rfl

theorem ask_eq_ok_iff {α : Type} {question : FileTree → Except Fault α} {a : α} :
    (ask question).run.run tree = (.ok a, tree') ↔ question tree = .ok a ∧ tree' = tree := by
  rw [run_ask, Prod.mk.injEq, @eq_comm _ tree]

theorem run_change (f : FileTree → Except Fault FileTree) (tree : FileTree) : (change f).run.run tree =
    match f tree with
    | .ok tree' => (.ok (), tree')
    | .error fault => (.error fault, tree) := by
  rw [change, run_bind_of_ok (show (get : Edit FileTree).run.run tree = (.ok tree, tree) from rfl)]
  cases f tree <;> rfl

theorem change_eq_ok_iff : (change f).run.run tree = (.ok (), tree') ↔ f tree = .ok tree' := by
  rw [run_change]
  cases f tree <;> rw [Prod.mk.injEq] <;> simp

theorem write_eq_ok_iff {text : String} :
    (write path text).run.run tree = (.ok (), tree') ↔ tree.write path text = .ok tree' :=
  change_eq_ok_iff

theorem writeProgram_eq_ok_iff {program : Ast} :
    (writeProgram path program).run.run tree = (.ok (), tree') ↔
      ∃ emptied text, tree.write path "" = .ok emptied ∧ program.source? = some text ∧
        emptied.write path text = .ok tree' := by
  rw [writeProgram, bind_eq_ok_iff]
  constructor
  · rintro ⟨_, emptied, hemptied, h⟩
    split at h
    · rename_i text htext
      exact ⟨emptied, text, write_eq_ok_iff.1 hemptied, htext, write_eq_ok_iff.1 h⟩
    · cases h
  · rintro ⟨emptied, text, hemptied, htext, h⟩
    refine ⟨(), emptied, write_eq_ok_iff.2 hemptied, ?_⟩
    rw [htext]
    exact write_eq_ok_iff.2 h

/-- A program that was written stands in its file, and the rest is as it was. -/
theorem writeProgram_effect {program : Ast} (h : (writeProgram path program).run.run tree = (.ok (), tree')) :
    ∃ text, program.source? = some text ∧ tree'.stored path = .ok text ∧ tree.SameFolders tree' ∧
      ∀ other old, tree.stored other = .ok old → tree.locate path ≠ tree.locate other →
        tree'.stored other = .ok old := by
  obtain ⟨emptied, text, hemptied, htext, hwrite⟩ := writeProgram_eq_ok_iff.1 h
  have hfirst := FileTree.sameFolders_write hemptied
  refine ⟨text, htext, FileTree.stored_write hwrite, hfirst.trans (FileTree.sameFolders_write hwrite), ?_⟩
  intro other old hold hne
  obtain ⟨place, hplace, _⟩ := FileTree.stored_eq_ok_iff.1 hold
  exact (FileTree.stored_write_iff hwrite (hfirst.locate_ne hplace hne)).2
    ((FileTree.stored_write_iff hemptied hne).2 hold)

theorem outline_writeProgram {old : String} {program : Ast} (hold : tree.stored path = .ok old)
    (h : (writeProgram path program).run.run tree = (.ok (), tree')) : tree'.outline = tree.outline := by
  obtain ⟨emptied, text, hemptied, -, hwrite⟩ := writeProgram_eq_ok_iff.1 h
  rw [FileTree.outline_write (FileTree.stored_write hemptied) hwrite, FileTree.outline_write hold hemptied]

/-! ## Edits that may give up -/

variable {α β : Type} {x : Edit α} {handler : Fault → Edit α}

theorem run_bind_ok {f : α → Edit β} {a : α} (h : x.run.run tree = (.ok a, tree')) :
    (x >>= f).run.run tree = (f a).run.run tree' :=
  run_bind_of_ok h f

theorem run_bind_error {f : α → Edit β} (h : x.run.run tree = (.error fault, tree')) :
    (x >>= f).run.run tree = (.error fault, tree') :=
  run_bind_of_error h f

theorem run_tryCatch_ok {a : α} (h : x.run.run tree = (.ok a, tree')) :
    (tryCatch x handler).run.run tree = (.ok a, tree') := by
  rw [ExceptT.run_tryCatch, StateT.run_bind, h]
  rfl

theorem run_tryCatch_error (h : x.run.run tree = (.error fault, tree')) :
    (tryCatch x handler).run.run tree = (handler fault).run.run tree' := by
  rw [ExceptT.run_tryCatch, StateT.run_bind, h]
  rfl

/-- An edit whose faults are dealt with goes well. -/
theorem exists_run_tryCatch {x : Edit Unit} {handler : Fault → Edit Unit}
    (h : ∀ fault tree, ∃ tree', (handler fault).run.run tree = (.ok (), tree')) (tree : FileTree) :
    ∃ tree', (tryCatch x handler).run.run tree = (.ok (), tree') := by
  match hrun : x.run.run tree with
  | (.ok (), mid) => exact ⟨mid, run_tryCatch_ok hrun⟩
  | (.error fault, mid) =>
    rw [run_tryCatch_error hrun]
    exact h fault mid

theorem run_change_error (h : f tree = .error fault) : (change f).run.run tree = (.error fault, tree) := by
  rw [run_change, h]

/-- Steps that do nothing can be left out. -/
theorem run_forM_filterMap {γ : Type} {f : β → Edit Unit} {g : β → Option γ} {f' : γ → Edit Unit}
    (hsome : ∀ x y, g x = some y → f x = f' y) (hnone : ∀ x, g x = none → f x = pure ()) (xs : List β)
    (tree : FileTree) : (xs.forM f).run.run tree = ((xs.filterMap g).forM f').run.run tree := by
  induction xs generalizing tree with
  | nil => rfl
  | cons x xs ih =>
    rw [forM_eq_forM, forM_cons]
    cases hx : g x with
    | none =>
      rw [hnone x hx, filterMap_cons_none hx, ← ih]
      rfl
    | some y =>
      rw [hsome x y hx, filterMap_cons_some hx, forM_eq_forM, forM_cons]
      match hrun : (f' y).run.run tree with
      | (.ok (), mid) =>
        rw [run_bind_ok hrun, run_bind_ok hrun]
        exact ih mid
      | (.error fault, mid) => rw [run_bind_error hrun, run_bind_error hrun]

/-- Steps one after the other give up at one of them, after those before it went well. -/
theorem exists_of_forM_error {f : β → Edit Unit} {xs : List β} (h : (xs.forM f).run.run tree = (.error fault, tree')) :
    ∃ (before : List β) (x : β) (after : List β) (mid : FileTree), xs = before ++ x :: after ∧
      (before.forM f).run.run tree = (.ok (), mid) ∧ (f x).run.run mid = (.error fault, tree') := by
  induction xs generalizing tree with
  | nil => cases h
  | cons x xs ih =>
    rw [forM_eq_forM, forM_cons] at h
    match hfirst : (f x).run.run tree with
    | (.error other, next) =>
      rw [run_bind_error hfirst] at h
      exact ⟨[], x, xs, tree, rfl, rfl, hfirst.trans h⟩
    | (.ok (), next) =>
      rw [run_bind_ok hfirst] at h
      obtain ⟨before, y, after, mid, rfl, hbefore, hy⟩ := ih h
      exact ⟨x :: before, y, after, mid, rfl, (run_bind_ok hfirst).trans hbefore, hy⟩

/-- What holds of the files still does when a file is written. -/
def KeptByWrites (P : FileTree → Prop) (file : String) : Prop :=
  ∀ tree tree' text, P tree → tree.write file text = .ok tree' → P tree'

/-- What holds of the files before an edit holds after it, whether it goes well or not. -/
def Keeps (P : FileTree → Prop) (x : Edit α) : Prop := ∀ tree, P tree → P (x.run.run tree).2

section

variable {P : FileTree → Prop}

theorem keeps_pure (a : α) : Keeps P (pure a : Edit α) := fun _ h => h

theorem keeps_ask (question : FileTree → Except Fault α) : Keeps P (ask question) := by
  intro tree h
  rwa [run_ask]

theorem keeps_change {f : FileTree → Except Fault FileTree}
    (hf : ∀ tree tree', P tree → f tree = .ok tree' → P tree') : Keeps P (change f) := by
  intro tree h
  rw [run_change]
  split
  · rename_i hchange
    exact hf tree _ h hchange
  · exact h

variable {x : Edit α} {xs : List β} {text : String} {f : β → Edit Unit}

theorem Keeps.bind {f : α → Edit β} (hx : Keeps P x) (hf : ∀ a, Keeps P (f a)) : Keeps P (x >>= f) := by
  intro tree h
  have hfirst := hx tree h
  match hrun : x.run.run tree with
  | (.ok a, mid) =>
    rw [hrun] at hfirst
    rw [run_bind_ok hrun]
    exact hf a mid hfirst
  | (.error fault, mid) =>
    rw [hrun] at hfirst
    rwa [run_bind_error hrun]

theorem Keeps.tryCatch {handler : Fault → Edit α} (hx : Keeps P x) (hhandler : ∀ fault, Keeps P (handler fault)) :
    Keeps P (tryCatch x handler) := by
  intro tree h
  have hfirst := hx tree h
  match hrun : x.run.run tree with
  | (.ok a, mid) =>
    rw [hrun] at hfirst
    rwa [run_tryCatch_ok hrun]
  | (.error fault, mid) =>
    rw [hrun] at hfirst
    rw [run_tryCatch_error hrun]
    exact hhandler fault mid hfirst

theorem keeps_forM (hf : ∀ x ∈ xs, Keeps P (f x)) : Keeps P (xs.forM f) := by
  induction xs with
  | nil => exact keeps_pure ()
  | cons x xs ih =>
    exact (hf x mem_cons_self).bind fun _ => ih fun y hy => hf y (mem_cons_of_mem x hy)

/-- Where the condition holds, the edit goes well, adds a text at the end of a file and keeps the condition. -/
def Appends (P : FileTree → Prop) (file : String) (x : Edit Unit) (text : String) : Prop :=
  ∀ tree old, P tree → tree.stored file = .ok old →
    ∃ tree', x.run.run tree = (.ok (), tree') ∧ P tree' ∧ tree'.stored file = .ok (old ++ text)

variable {file : String}

theorem appends_nothing : Appends P file (pure ()) "" :=
  fun tree old h hold => ⟨tree, rfl, h, by rw [hold, String.append_empty]⟩

theorem appends_append (hP : KeptByWrites P file) (text : String) : Appends P file (append file text) text := by
  intro tree old h hold
  obtain ⟨tree', hwrite⟩ := FileTree.exists_write hold (old ++ text)
  refine ⟨tree', ?_, hP tree tree' _ h hwrite, FileTree.stored_write hwrite⟩
  exact change_eq_ok_iff.2 ((FileTree.append_of_stored hold text).trans hwrite)

/-- A question before an edit takes nothing away from what it appends. -/
theorem Appends.after_ask {question : FileTree → Except Fault α} {f : α → Edit Unit} {a : α}
    (hask : ∀ tree, P tree → question tree = .ok a) (hf : Appends P file (f a) text) :
    Appends P file (ask question >>= f) text := by
  intro tree old h hold
  obtain ⟨tree', hrun, hkept⟩ := hf tree old h hold
  refine ⟨tree', ?_, hkept⟩
  rw [run_bind_ok (a := a) (by rw [run_ask, hask tree h]), hrun]

/-- What is done in case of a fault does not matter to an edit that goes well. -/
theorem Appends.tryCatch {x : Edit Unit} (h : Appends P file x text) (handler : Fault → Edit Unit) :
    Appends P file (tryCatch x handler) text := by
  intro tree old htree hold
  obtain ⟨tree', hrun, hkept⟩ := h tree old htree hold
  exact ⟨tree', run_tryCatch_ok hrun, hkept⟩

/-- Steps one after the other append their texts in order. -/
theorem appends_forM_map {γ : Type} {g : γ → β} {text : γ → String} {xs : List γ}
    (hf : ∀ x ∈ xs, Appends P file (f (g x)) (text x)) :
    Appends P file ((xs.map g).forM f) (String.join (xs.map text)) := by
  induction xs with
  | nil => exact appends_nothing
  | cons x xs ih =>
    intro tree old h hold
    obtain ⟨mid, hfirst, hmid, hadded⟩ := hf x mem_cons_self tree old h hold
    obtain ⟨tree', hrest, htree', hall⟩ := ih (fun y hy => hf y (mem_cons_of_mem x hy)) mid _ hmid hadded
    refine ⟨tree', ?_, htree', ?_⟩
    · exact (run_bind_ok hfirst).trans hrest
    · rw [hall, map_cons, String.join_cons, String.append_assoc]

theorem appends_forM {text : β → String} (hf : ∀ x ∈ xs, Appends P file (f x) (text x)) :
    Appends P file (xs.forM f) (String.join (xs.map text)) := by
  have hall := appends_forM_map (g := id) hf
  rwa [map_id] at hall

end

end Edit

/-! ## Rewrites -/

/-- The program that is read from a file to which a program was written. -/
def Injection.reread (program : Ast) : Except Fault Ast :=
  match program.source? with
  | some text => programOf (Text.readAsText text)
  | none => .error .missingAttribute

/-- The rewriting of a file: a change of the program in it. -/
structure Rewrite where
  path : String
  change : Ast → Ast

namespace Rewrite

open Injection (reread)

def edit (r : Rewrite) : Edit Unit := do
  let program ← Edit.program r.path
  Edit.writeProgram r.path (r.change program)

/-- What rewrites make of the program in a file. -/
def result (file : String) (rewrites : List Rewrite) (program : Ast) : Except Fault Ast :=
  (rewrites.filter (·.path = file)).foldlM (fun program r => reread (r.change program)) program

variable {r : Rewrite} {tree tree' : FileTree} {file old : String} {rewrites : List Rewrite}

/-- A rewrite that goes well leaves the changed program in its file, and the names of all files and the texts of
the others as they are. -/
theorem effect (h : r.edit.run.run tree = (.ok (), tree')) :
    ∃ program, tree.program r.path = .ok program ∧ tree'.program r.path = reread (r.change program) ∧
      tree'.outline = tree.outline ∧ (∃ text, tree'.stored r.path = .ok text) ∧
      ∀ other old, tree.stored other = .ok old → tree.locate r.path ≠ tree.locate other →
        tree'.stored other = .ok old := by
  obtain ⟨program, _, hask, hwrite⟩ := Edit.bind_eq_ok_iff.1 h
  obtain ⟨hprogram, rfl⟩ := Edit.ask_eq_ok_iff.1 hask
  obtain ⟨old, hold⟩ := FileTree.stored_of_program hprogram
  obtain ⟨text, htext, hstored, -, hframe⟩ := Edit.writeProgram_effect hwrite
  refine ⟨program, hprogram, ?_, Edit.outline_writeProgram hold hwrite, ⟨text, hstored⟩, hframe⟩
  rw [FileTree.program_of_stored hstored, reread, htext]

/-- A rewrite goes well if the new program has a text. -/
theorem exists_run {program : Ast} (hprogram : tree.program r.path = .ok program)
    (htext : (r.change program).source?.isSome) : ∃ tree', r.edit.run.run tree = (.ok (), tree') := by
  obtain ⟨text, htext⟩ := Option.isSome_iff_exists.1 htext
  obtain ⟨old, hold⟩ := FileTree.stored_of_program hprogram
  obtain ⟨emptied, hemptied⟩ := FileTree.exists_write hold ""
  obtain ⟨written, hwritten⟩ := FileTree.exists_write (FileTree.stored_write hemptied) text
  exact ⟨written, Edit.bind_eq_ok_iff.2 ⟨program, tree, Edit.ask_eq_ok_iff.2 ⟨hprogram, rfl⟩,
    Edit.writeProgram_eq_ok_iff.2 ⟨emptied, text, hemptied, htext, hwritten⟩⟩⟩

/-- Paths that lead to other places than a file do so after a rewrite. -/
theorem locate_ne_of_outline {other : String} (hsame : tree'.outline = tree.outline)
    (hold : tree.stored file = .ok old) (hne : tree.locate other ≠ tree.locate file) :
    tree'.locate other ≠ tree'.locate file := by
  obtain ⟨place, hplace, -⟩ := FileTree.stored_eq_ok_iff.1 hold
  exact (FileTree.sameFolders_of_outline hsame).locate_ne hplace hne

/-- **Rewrites one after the other make their changes of a file**, whatever is done to other files. -/
theorem program_after (hrun : (rewrites.forM edit).run.run tree = (.ok (), tree'))
    (hplaces : ∀ r ∈ rewrites, r.path = file ∨ tree.locate r.path ≠ tree.locate file)
    (hold : tree.stored file = .ok old) :
    tree'.outline = tree.outline ∧ (∃ text, tree'.stored file = .ok text) ∧
      tree'.program file = tree.program file >>= result file rewrites := by
  induction rewrites generalizing tree old with
  | nil =>
    cases hrun
    refine ⟨rfl, ⟨old, hold⟩, ?_⟩
    cases tree'.program file <;> rfl
  | cons r rewrites ih =>
    obtain ⟨_, mid, hfirst, hrest⟩ := Edit.bind_eq_ok_iff.1 hrun
    obtain ⟨program, hprogram, hread, hsame, ⟨text, hstored⟩, hframe⟩ := effect hfirst
    have hplaces' : ∀ r ∈ rewrites, r.path = file ∨ mid.locate r.path ≠ mid.locate file := fun r hr =>
      (hplaces r (mem_cons_of_mem _ hr)).imp_right (locate_ne_of_outline hsame hold)
    by_cases hfile : r.path = file
    · subst hfile
      obtain ⟨hsame', hstored', hlast⟩ := ih hrest hplaces' hstored
      refine ⟨hsame'.trans hsame, hstored', ?_⟩
      rw [hlast, hread, hprogram, ok_bind, result, filter_cons_of_pos (by simp), foldlM_cons]
      rfl
    · -- A step on another file leaves this one and the place of every path as they are.
      have hkept := hframe file old hold ((hplaces r mem_cons_self).resolve_left hfile)
      obtain ⟨hsame', hstored', hlast⟩ := ih hrest hplaces' hkept
      refine ⟨hsame'.trans hsame, hstored', ?_⟩
      have hresult : result file (r :: rewrites) = result file rewrites := by
        funext program
        simp [result, hfile]
      rw [hlast, hresult, FileTree.program_of_stored hkept, FileTree.program_of_stored hold]

end Rewrite

end ServerlessTaint
