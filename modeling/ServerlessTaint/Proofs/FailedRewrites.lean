import ServerlessTaint.Proofs.HintedFiles

/-!
# Rewrites that fail

Each pass over the programs of a repository is a list of rewrites, each of which reads the program in a file,
changes it and writes it back. A file is emptied before the text of its new program is made. So a pass that
is given up leaves the file that it was at as it was if the program in it could not be read, but empty if the
new program has no text (`failed_pass_keeps_iff`).
-/

namespace ServerlessTaint

open List
open Syntax (Ast)

/-! ## Rewrites -/

namespace Rewrite

variable {r : Rewrite} {tree tree' : FileTree}

/-- A rewrite fails if there is no program, and then nothing has been done, or if the new program has no text,
and then the file has been emptied. -/
theorem error_cases {fault : Fault} (h : r.edit.run.run tree = (.error fault, tree')) :
    (tree.program r.path = .error fault ∧ tree' = tree) ∨
      ∃ program, tree.program r.path = .ok program ∧ (r.change program).source? = none ∧
        fault = .missingAttribute ∧ tree.write r.path "" = .ok tree' := by
  cases hprogram : tree.program r.path with
  | error other =>
    left
    have hask : (Edit.program r.path).run.run tree = (.error other, tree) := by
      rw [Edit.program, Edit.run_ask, hprogram]
    rw [edit, Edit.run_bind_error hask] at h
    cases h
    exact ⟨rfl, rfl⟩
  | ok program =>
    right
    cases htext : (r.change program).source? with
    | some text =>
      obtain ⟨last, hlast⟩ := exists_run hprogram (Option.isSome_of_eq_some htext)
      cases h.symm.trans hlast
    | none =>
      obtain ⟨old, hold⟩ := FileTree.stored_of_program hprogram
      obtain ⟨emptied, hemptied⟩ := FileTree.exists_write hold ""
      have hask : (Edit.program r.path).run.run tree = (.ok program, tree) := Edit.ask_eq_ok_iff.2 ⟨hprogram, rfl⟩
      rw [edit, Edit.run_bind_ok hask, Edit.writeProgram, Edit.run_bind_ok (Edit.write_eq_ok_iff.2 hemptied), htext] at h
      cases h
      exact ⟨program, rfl, htext, rfl, hemptied⟩

/-- Rewrites that go well leave other files as they are. -/
theorem frame_forM {rewrites : List Rewrite} (h : (rewrites.forM edit).run.run tree = (.ok (), tree'))
    {other old : String} (hold : tree.stored other = .ok old)
    (hapart : ∀ r ∈ rewrites, tree.locate r.path ≠ tree.locate other) : tree'.stored other = .ok old := by
  induction rewrites generalizing tree with
  | nil =>
    cases h
    exact hold
  | cons r rewrites ih =>
    obtain ⟨_, mid, hfirst, hrest⟩ := Edit.bind_eq_ok_iff.1 h
    obtain ⟨-, -, -, hsame, -, hframe⟩ := effect hfirst
    exact ih hrest (hframe other old hold (hapart r mem_cons_self)) fun next hnext =>
      locate_ne_of_outline hsame hold (hapart next (mem_cons_of_mem r hnext))

end Rewrite

/-! ## Programs without statements -/

def emptyProgram : Ast := .node .module none [.list []]

theorem program_of_stored_empty {tree : FileTree} {path : String} (h : tree.stored path = .ok "") :
    tree.program path = .ok emptyProgram := by
  rw [FileTree.program_of_stored h]
  exact eq_ok_of_toOption (by decide +kernel)

theorem hasText_of_import {client : Client} {statement x : Ast} (h : TypeHints.importOf? client = some statement)
    {d : Nat} (hx : x ∈ Ast.nodesAt d statement) : Syntax.Printer.hasText x := by
  obtain ⟨types, type, -, -, rfl⟩ := TypeHints.importOf?_eq_some_iff.1 h
  match d, hx with
  | 0, hx | 1, hx =>
    obtain rfl := mem_singleton.1 hx
    rfl
  | d + 2, hx => cases hx

/-- A program with imports only has a text. -/
theorem isSome_source?_addImports (clients : List Client) :
    (TypeHints.addImports clients emptyProgram).source?.isSome := by
  have hcomplete : Syntax.Printer.isComplete (TypeHints.addImports clients emptyProgram) := by
    rw [Syntax.Printer.isComplete, all_eq_true]
    intro x hx
    obtain ⟨d, -, hx⟩ := mem_flatMap.1 hx
    cases d with
    | zero =>
      obtain rfl := mem_singleton.1 hx
      rfl
    | succ d =>
      obtain ⟨statement, hstatement, hx⟩ := mem_flatMap.1 hx
      obtain ⟨⟨client, -, himport⟩, -⟩ : (∃ client ∈ clients, TypeHints.importOf? client = some statement) ∧ _ := by
        simpa [TypeHints.addImports, emptyProgram, Ast.subnodes] using hstatement
      exact hasText_of_import himport hx
  rw [Ast.source?, if_pos hcomplete]
  rfl

/-! ## Passes -/

/-- The passes that rewrite the programs of a repository. -/
inductive SourcePass where
  | hints (mode : ImportMode) (repository : String) (found : FileClients)
  | imports (mode : ImportMode) (repository : String) (found : FileClients)
  | injection (apis : Value) (application : Application) (clients : RepositoryClients)

namespace SourcePass

def edit : SourcePass → Edit Unit
  | .hints mode repository found => TypeHints.editImporters mode repository found TypeHints.addHints
  | .imports mode repository found => TypeHints.editImporters mode repository found TypeHints.addImports
  | .injection apis application clients => Injection.injectAll apis application clients

def rewrites (tree : FileTree) : SourcePass → List Rewrite
  | .hints mode repository found => ofImporters mode repository found TypeHints.addHints tree
  | .imports mode repository found => ofImporters mode repository found TypeHints.addImports tree
  | .injection apis application clients => (Injection.steps clients).map fun step =>
    ⟨step.1, fun program => (Injection.ofProgram apis application step.1 step.2 program).run⟩

/-- A pass makes its rewrites one after the other. -/
theorem run_edit (pass : SourcePass) (tree : FileTree) :
    pass.edit.run.run tree = ((pass.rewrites tree).forM Rewrite.edit).run.run tree := by
  cases pass with
  | hints mode repository found | imports mode repository found => exact run_editImporters mode repository found _ tree
  | injection apis application clients =>
    rw [edit, rewrites, Injection.injectAll_eq, forM_eq_forM, forM_eq_forM, forM_map]
    rfl

/-- No pass fails at an empty file. -/
theorem isSome_source?_change {pass : SourcePass} {tree : FileTree} {r : Rewrite} (h : r ∈ pass.rewrites tree) :
    (r.change emptyProgram).source?.isSome := by
  cases pass with
  | hints mode repository found =>
    obtain ⟨importer, -, hr⟩ := mem_filterMap.1 h
    obtain ⟨clients, -, rfl⟩ := Option.map_eq_some_iff.1 hr
    rfl
  | imports mode repository found =>
    obtain ⟨importer, -, hr⟩ := mem_filterMap.1 h
    obtain ⟨clients, -, rfl⟩ := Option.map_eq_some_iff.1 hr
    exact isSome_source?_addImports clients
  | injection apis application clients =>
    obtain ⟨step, -, rfl⟩ := mem_map.1 h
    rfl

/-- **What a failed pass leaves.** A pass that fails does so at one rewrite, after others that went well. The
file that was to be rewritten has kept its text exactly if every program that could be read from it would have
had a text after the change. Otherwise it is empty now. Other files are as they were. -/
theorem failed_pass_keeps_iff (pass : SourcePass) {tree tree' : FileTree} {fault : Fault}
    (h : pass.edit.run.run tree = (.error fault, tree')) :
    ∃ (before : List Rewrite) (r : Rewrite) (after : List Rewrite) (mid : FileTree),
      pass.rewrites tree = before ++ r :: after ∧
      (before.forM Rewrite.edit).run.run tree = (.ok (), mid) ∧
      (∀ other old, tree.stored other = .ok old → (∀ q ∈ before, tree.locate q.path ≠ tree.locate other) →
        mid.stored other = .ok old) ∧
      (tree'.stored r.path = mid.stored r.path ↔
        ∀ program, mid.program r.path = .ok program → (r.change program).source?.isSome) ∧
      (∀ program, mid.program r.path = .ok program → (r.change program).source? = none →
        tree'.stored r.path = .ok "" ∧ mid.stored r.path ≠ .ok "") ∧
      ∀ other old, mid.stored other = .ok old → mid.locate r.path ≠ mid.locate other →
        tree'.stored other = .ok old := by
  rw [run_edit] at h
  obtain ⟨before, r, after, mid, hsplit, hbefore, hr⟩ := Edit.exists_of_forM_error h
  refine ⟨before, r, after, mid, hsplit, hbefore, fun other old hold => Rewrite.frame_forM hbefore hold, ?_⟩
  have hempty : (r.change emptyProgram).source?.isSome :=
    isSome_source?_change (show r ∈ pass.rewrites tree by rw [hsplit]; simp)
  rcases Rewrite.error_cases hr with ⟨hprogram, rfl⟩ | ⟨program, hprogram, htext, -, hwrite⟩
  · -- Nothing was read.
    refine ⟨?_, ?_, fun other old hold _ => hold⟩
    · simp [hprogram]
    · simp [hprogram]
  · have hstored := FileTree.stored_write hwrite
    have hne : mid.stored r.path ≠ .ok "" := by
      intro hold
      rw [program_of_stored_empty hold] at hprogram
      cases hprogram
      rw [htext] at hempty
      cases hempty
    refine ⟨?_, ?_, fun other old hold hne => (FileTree.stored_write_iff hwrite hne).2 hold⟩
    · constructor
      · intro hkept
        exact absurd (hkept.symm.trans hstored) hne
      · intro hall
        have hsome := hall program hprogram
        rw [htext] at hsome
        cases hsome
    · intro _ _ _
      exact ⟨hstored, hne⟩

/-- A program with a statement that has no text. -/
def matching : String := "match s3:\n  case 1:\n    pass\n"

def matchingTree : FileTree := FileTree.putFile ["m.py"] matching FileTree.empty

def idle : Application where
  config := .null
  grants := ⟨[], []⟩
  handlers := []
  facts := {}

/-- The work on one client object of the program. -/
def matchingPass : SourcePass := .injection .null idle [(.whole, [("/m.py", [⟨1, "s3", .client, .absent⟩])])]

/-- The pass fails, and the program is lost. -/
theorem failed_injection_empties_file :
    ∃ fault tree', matchingPass.edit.run.run matchingTree = (.error fault, tree') ∧
      matchingTree.stored "/m.py" = .ok matching ∧ tree'.stored "/m.py" = .ok "" := by
  have hfails : (matchingPass.edit.run.run matchingTree).1.toBool = false := by decide +kernel
  cases hrun : matchingPass.edit.run.run matchingTree with
  | mk result tree' =>
    cases result with
    | ok =>
      rw [hrun] at hfails
      cases hfails
    | error fault =>
      refine ⟨fault, tree', rfl, eq_ok_of_toOption (by decide +kernel), ?_⟩
      obtain ⟨before, r, after, mid, hsplit, hbefore, -, -, hemptied, -⟩ := failed_pass_keeps_iff matchingPass hrun
      cases before with
      | cons first before =>
        have hlength := congrArg List.length hsplit
        simp [rewrites, matchingPass, Injection.steps] at hlength
      | nil =>
        cases hbefore
        cases hsplit
        have hread : (matchingTree.program "/m.py").toOption.any fun program =>
            ((Injection.ofProgram .null idle "/m.py" ⟨1, "s3", .client, .absent⟩ program).run).source?.isNone := by
          decide +kernel
        cases hprogram : matchingTree.program "/m.py" with
        | error other =>
          rw [hprogram] at hread
          cases hread
        | ok program =>
          rw [hprogram] at hread
          exact (hemptied program hprogram (Option.isNone_iff_eq_none.1 hread)).1

end SourcePass

end ServerlessTaint
