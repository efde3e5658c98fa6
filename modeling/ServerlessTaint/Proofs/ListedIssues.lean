import ServerlessTaint.Analyser.Issues
import ServerlessTaint.Proofs.FileEdits

/-!
# The issues that are listed

Issues are asked for by number, up to the first answer that does not confirm its number. An answer is read
line by line, and what it says is noted under the number that was asked for, whether or not the answer
confirms it (`read_eq`). So the numbers asked for are known from the confirmations alone, and each issue
holds what its own answer says (`collect_eq`); but a confirmed issue about which nothing is said is not
listed, and one that is not confirmed is listed if something is said about it (`confirmed_listed_iff`).
-/

namespace ServerlessTaint

open List

namespace Issue

/-! ## One answer -/

/-- A line may settle whether the number is confirmed, and may say something about the issue. It does both
whatever is known so far. -/
theorem readLine_cases (number : Nat) (line : List Char) :
    ∃ (verdict : Option Bool) (note : Option (Issue → Issue)), ∀ r,
      readLine number r line =
        ⟨verdict.getD r.confirmed, note.toList.foldl (fun issues f => Keyed.modify number {} f issues) r.issues⟩ := by
  unfold readLine
  cases confirmed? line with
  | some digits => exact ⟨some _, none, fun r => rfl⟩
  | none =>
    cases code? line with
    | some code =>
      cases message? line with
      | some message =>
        exact ⟨none, some fun i => { i with code := some code, message := some message }, fun r => rfl⟩
      | none => exact ⟨some false, some fun i => { i with code := some code }, fun r => rfl⟩
    | none =>
      cases place? "source" line with
      | some place =>
        exact ⟨none, some fun i => { i with sourceFile := some place.1, sourceLine := some place.2 },
          fun r => rfl⟩
      | none =>
        cases place? "sink" line with
        | some place =>
          exact ⟨none, some fun i => { i with sinkFile := some place.1, sinkLine := some place.2 },
            fun r => rfl⟩
        | none => exact ⟨none, none, fun r => rfl⟩

/-- So do lines one after the other. -/
theorem readLines_cases (number : Nat) (lines : List (List Char)) :
    ∃ (verdict : Option Bool) (notes : List (Issue → Issue)), ∀ r,
      lines.foldl (readLine number) r =
        ⟨verdict.getD r.confirmed, notes.foldl (fun issues f => Keyed.modify number {} f issues) r.issues⟩ := by
  induction lines with
  | nil => exact ⟨none, [], fun r => rfl⟩
  | cons line lines ih =>
    obtain ⟨first, note, hline⟩ := readLine_cases number line
    obtain ⟨verdict, notes, hlines⟩ := ih
    refine ⟨verdict.or first, note.toList ++ notes, ?_⟩
    intro r
    rw [foldl_cons, hline, hlines, foldl_append]
    cases verdict <;> rfl

def reported? (number : Nat) (answer : String) : Option Issue :=
  Keyed.find? number (read number answer []).issues

def confirms (number : Nat) (answer : String) : Bool := (read number answer []).confirmed

variable {number : Nat} {issues : Issues}

/-- Reading an answer about a new number: what is known of other issues does not matter and stays, and what
the answer says is added, confirmed or not. -/
theorem read_eq (h : number ∉ Keyed.keys issues) (answer : String) :
    read number answer issues =
      ⟨confirms number answer, issues ++ ((reported? number answer).map (number, ·)).toList⟩ := by
  obtain ⟨verdict, notes, hread⟩ := readLines_cases number (Text.splitAt '\n' answer.toList)
  have hnotes {issues : Issues} (h : number ∉ Keyed.keys issues) :
      notes.foldl (fun issues f => Keyed.modify number {} f issues) issues =
        issues ++ ((notes.foldl (fun own f => some (f (own.getD {}))) none).map (number, ·)).toList := by
    simpa using Keyed.foldl_modify_of_not_mem h {} notes none
  have hown : reported? number answer = notes.foldl (fun own f => some (f (own.getD {}))) none := by
    unfold reported? read
    rw [hread, hnotes not_mem_nil]
    cases notes.foldl (fun own f => some (f (own.getD {}))) none <;> simp [Keyed.find?]
  unfold confirms
  simp [read, hread, hnotes h, hown]

/-! ## All answers -/

/-- How many answers confirm their numbers before one does not, when asking from a number on. -/
def confirmedCount (number : Nat) (answers : List String) : Nat :=
  ((answers.zipIdx number).takeWhile fun a => confirms a.2 a.1).length

/-- What is said about an issue by the answer to the question for it, when asking from a number on. -/
def reportOn (number : Nat) (answers : List String) (asked : Nat) : Option Issue :=
  answers[asked - number]? >>= reported? asked

theorem confirmedCount_cons (number : Nat) (answer : String) (answers : List String) :
    confirmedCount number (answer :: answers) =
      if confirms number answer then confirmedCount (number + 1) answers + 1 else 0 := by
  unfold confirmedCount
  rw [zipIdx_cons, takeWhile_cons]
  split <;> rfl

theorem reportOn_cons_self (number : Nat) (answer : String) (answers : List String) :
    reportOn number (answer :: answers) number = reported? number answer := by
  simp [reportOn]

theorem reportOn_cons_of_lt {asked : Nat} (h : number < asked) (answer : String) (answers : List String) :
    reportOn number (answer :: answers) asked = reportOn (number + 1) answers asked := by
  unfold reportOn
  obtain ⟨d, rfl⟩ := Nat.exists_eq_add_of_lt h
  rw [show number + d + 1 - number = d + 1 by omega, show number + d + 1 - (number + 1) = d by omega,
    getElem?_cons_succ]

/-- The issues of numbers, as far as something is said about them. -/
def listOf (report : Nat → Option Issue) (numbers : List Nat) : Issues :=
  numbers.filterMap fun number => (report number).map (number, ·)

theorem listOf_cons (report : Nat → Option Issue) (number : Nat) (numbers : List Nat) :
    listOf report (number :: numbers) = ((report number).map (number, ·)).toList ++ listOf report numbers := by
  unfold listOf
  rw [filterMap_cons]
  cases report number <;> rfl

theorem listOf_congr {report report' : Nat → Option Issue} {numbers : List Nat}
    (h : ∀ n ∈ numbers, report n = report' n) : listOf report numbers = listOf report' numbers := by
  induction numbers with
  | nil => rfl
  | cons n numbers ih =>
    rw [listOf_cons, listOf_cons, h n mem_cons_self,
      ih fun m hm => h m (mem_cons_of_mem _ hm)]

/-- **Asking up to the first number that is not confirmed.** The numbers asked for are the confirmed ones and
the one after them; what their answers say is added in this order. -/
theorem collect_eq (number : Nat) (answers : List String) (h : ∀ known ∈ Keyed.keys issues, known < number) :
    collect number issues answers =
      (range' number (confirmedCount number answers + 1),
        issues ++ listOf (reportOn number answers) (range' number (confirmedCount number answers + 1))) := by
  induction answers generalizing number issues with
  | nil => simp [collect, confirmedCount, listOf, reportOn]
  | cons answer answers ih =>
    have hnew : number ∉ Keyed.keys issues := fun hmem => Nat.lt_irrefl _ (h number hmem)
    have hfirst : ∀ n, range' number (n + 1) = number :: range' (number + 1) n := fun _ => rfl
    rw [collect, read_eq hnew, confirmedCount_cons]
    by_cases hconfirmed : confirms number answer = true
    · have hknown : ∀ known ∈ Keyed.keys
          (issues ++ ((reported? number answer).map (number, ·)).toList), known < number + 1 := by
        intro known hmem
        rw [Keyed.keys, map_append, mem_append] at hmem
        rcases hmem with hold | hown
        · exact Nat.lt_succ_of_lt (h known hold)
        · cases hreport : reported? number answer with
          | none => simp [hreport] at hown
          | some issue => simp [hreport] at hown; omega
      have hlater : listOf (reportOn (number + 1) answers)
          (range' (number + 1) (confirmedCount (number + 1) answers + 1)) =
          listOf (reportOn number (answer :: answers))
            (range' (number + 1) (confirmedCount (number + 1) answers + 1)) := by
        apply listOf_congr
        intro asked hasked
        exact (reportOn_cons_of_lt (mem_range'_1.1 hasked).1 answer answers).symm
      simp only [hconfirmed, if_true]
      rw [ih (number + 1) hknown, hlater, hfirst (confirmedCount (number + 1) answers + 1), listOf_cons,
        reportOn_cons_self, append_assoc]
    · simp only [hconfirmed]
      rw [hfirst, listOf_cons, reportOn_cons_self]
      simp [listOf]

/-! ## Which issues are listed -/

theorem keys_listOf (report : Nat → Option Issue) (numbers : List Nat) :
    Keyed.keys (listOf report numbers) = numbers.filter fun n => (report n).isSome := by
  induction numbers with
  | nil => rfl
  | cons n numbers ih =>
    unfold Keyed.keys at ih ⊢
    rw [listOf_cons, map_append, ih, filter_cons]
    cases report n <;> rfl

/-- Issues that are listed by increasing numbers are in the order in which they are shown. -/
theorem sorted_listOf (report : Nat → Option Issue) (first count : Nat) :
    Issues.sorted (listOf report (range' first count)) = listOf report (range' first count) := by
  apply mergeSort_of_pairwise
  refine List.Pairwise.filterMap _ ?_ pairwise_lt_range'
  intro a b hlt e he e' he'
  obtain ⟨-, -, rfl⟩ := Option.map_eq_some_iff.1 he
  obtain ⟨-, -, rfl⟩ := Option.map_eq_some_iff.1 he'
  exact decide_eq_true (Nat.le_of_lt hlt)

/-- The numbers that are kept are all but the last exactly if the last is the only one that is not. -/
theorem filter_range'_eq_iff (kept : Nat → Bool) (first count : Nat) :
    (range' first (count + 1)).filter kept = range' first count ↔
      (∀ n, first ≤ n → n < first + count → kept n) ∧ kept (first + count) = false := by
  rw [range'_concat, filter_append, Nat.one_mul]
  constructor
  · intro h
    constructor
    · intro n hle hlt
      have hmem : n ∈ range' first count := mem_range'_1.2 ⟨hle, hlt⟩
      rw [← h, ← filter_append] at hmem
      exact (mem_filter.1 hmem).2
    · cases hkept : kept (first + count) with
      | false => rfl
      | true =>
        have hmem : first + count ∈ range' first count := by
          rw [← h, mem_append]
          exact .inr (mem_filter.2 ⟨mem_singleton.2 rfl, hkept⟩)
        have := (mem_range'_1.1 hmem).2
        omega
  · rintro ⟨hall, hlast⟩
    have hself : (range' first count).filter kept = range' first count := by
      apply filter_eq_self.2
      intro n hn
      exact hall n (mem_range'_1.1 hn).1 (mem_range'_1.1 hn).2
    rw [hself]
    simp [hlast]

end Issue

/-! ## Asking in a session -/

namespace Act

theorem edit_eq_ok {α : Type} {e : Edit α} {a : α} {session : Session} {files : FileTree}
    (h : e.run.run session.files = (.ok a, files)) :
    (edit e).run.run session = (.ok a, { session with files := files }) := by
  refine run_bind_eq_ok_iff.2 ⟨session, session, rfl, ?_⟩
  simp only [h]
  rfl

/-- Commands are recorded in the order in which they are given. -/
theorem forM_command {α : Type} (text : α → String) (xs : List α) (session : Session) :
    (xs.forM fun x => command (text x)).run.run session =
      (.ok (), { session with commands := session.commands ++ xs.map text }) := by
  rw [forM_eq_forM]
  induction xs generalizing session with
  | nil =>
    rw [map_nil, append_nil]
    rfl
  | cons x xs ih =>
    rw [forM_cons, run_bind_eq_ok_iff]
    refine ⟨(), { session with commands := session.commands ++ [text x] }, rfl, ?_⟩
    rw [ih, map_cons, append_assoc, singleton_append]

end Act

namespace Analyser

open Issue (confirmedCount reportOn listOf)

/-- Asking for issues gives a result if the helper program is supplied and can be copied. -/
theorem exists_askIssues (q : Inquiry) (w : Workspace) (environments : String) (session : Session)
    {written : FileTree} (hhelper : suppliedHelpers.contains (q.helperFolder, q.helper))
    (hwrite : session.files.write (Path.join w.analysis q.helper) "" = .ok written) :
    ∃ session', (askIssues q w environments).run.run session =
        (.ok (Issue.collect 1 [] session.replies).2, session') ∧
      session'.commands = session.commands ++
        (Issue.collect 1 [] session.replies).1.map (issueCommand q w environments) ∧
      session'.replies = session.replies.drop (Issue.collect 1 [] session.replies).1.length := by
  obtain ⟨left, hleft⟩ := FileTree.exists_removeFile_of_write hwrite
  let copied : Session := { session with files := written }
  let answered : Session :=
    { copied with replies := session.replies.drop (Issue.collect 1 [] session.replies).1.length }
  let asked : Session :=
    { answered with commands := session.commands ++
        (Issue.collect 1 [] session.replies).1.map (issueCommand q w environments) }
  let last : Session := { asked with files := left }
  refine ⟨last, ?_, rfl, rfl⟩
  unfold askIssues
  simp only [hhelper, Bool.not_true, Bool.false_eq_true, if_false]
  refine run_bind_eq_ok_iff.2 ⟨(), copied, Act.edit_eq_ok (Edit.write_eq_ok_iff.2 hwrite), ?_⟩
  refine run_bind_eq_ok_iff.2 ⟨copied, copied, rfl, ?_⟩
  refine run_bind_eq_ok_iff.2 ⟨(), answered, rfl, ?_⟩
  refine run_bind_eq_ok_iff.2 ⟨(), asked, Act.forM_command _ _ _, ?_⟩
  exact run_bind_eq_ok_iff.2 ⟨(), last, Act.edit_eq_ok (Edit.change_eq_ok_iff.2 hleft), rfl⟩

/-- **Which issues are listed.** Let `n` answers in a row confirm their numbers. Then the issues from 1 to
`n + 1` are asked for in order, and each is listed with what its own answer says about it, in a row of its
own, if the answer says something. So the confirmed issues are the ones that are listed exactly if something
is said about each of them, and nothing about the one after them. -/
theorem confirmed_listed_iff (q : Inquiry) (w : Workspace) (environments : String) (session : Session)
    {written : FileTree} {n : Nat} (hhelper : suppliedHelpers.contains (q.helperFolder, q.helper) = true)
    (hwrite : session.files.write (Path.join w.analysis q.helper) "" = .ok written)
    (hn : confirmedCount 1 session.replies = n) :
    ∃ issues session', (askIssues q w environments).run.run session = (.ok issues, session') ∧
      session'.commands =
        session.commands ++ (List.range' 1 (n + 1)).map (issueCommand q w environments) ∧
      session'.replies = session.replies.drop (n + 1) ∧
      issues = listOf (reportOn 1 session.replies) (List.range' 1 (n + 1)) ∧
      Issues.csvText issues = String.join (Csv.rowText Issues.fieldNames ::
        issues.map fun e => Csv.rowText (Value.intText e.1 :: Issues.fields e.2)) ∧
      (Keyed.keys issues = List.range' 1 n ↔
        (∀ k, 1 ≤ k → k ≤ n → (reportOn 1 session.replies k).isSome = true) ∧
          reportOn 1 session.replies (n + 1) = none) := by
  obtain ⟨session', hrun, hcommands, hreplies⟩ := exists_askIssues q w environments session hhelper hwrite
  rw [Issue.collect_eq 1 session.replies (by simp [Keyed.keys]), hn, List.nil_append] at hrun hcommands hreplies
  refine ⟨_, session', hrun, hcommands, ?_, rfl, ?_, ?_⟩
  · rw [hreplies, List.length_range']
  · unfold Issues.csvText
    rw [Issue.sorted_listOf]
  · rw [Issue.keys_listOf, Issue.filter_range'_eq_iff, Nat.add_comm 1 n, Option.isSome_eq_false_iff,
      Option.isNone_iff_eq_none]
    constructor
    · rintro ⟨hall, hlast⟩
      exact ⟨fun k hle hk => hall k hle (Nat.lt_succ_of_le hk), hlast⟩
    · rintro ⟨hall, hlast⟩
      exact ⟨fun k hle hk => hall k hle (Nat.le_of_lt_succ hk), hlast⟩

/-- A session in which the first issue is confirmed and nothing is said about it, and something is said about
the second, which is not confirmed. -/
def unevenSession : Session where
  files := FileTree.empty
  folders := ⟨"", "", none, none, none, none, none, none, none, none⟩
  replies := ["Set issue to 1.", "Code: 5001\\n Message: leak\\n"]

/-- The confirmed issue is left out, and the other one is listed. -/
theorem silent_issue_left_out :
    ∃ issues session', (askIssues {} ⟨"", "", "", ""⟩ "").run.run unevenSession = (.ok issues, session') ∧
      confirmedCount 1 unevenSession.replies = 1 ∧ Keyed.keys issues ≠ List.range' 1 1 ∧
      issues = [(2, { code := some "5001", message := some "leak" })] := by
  have hn : confirmedCount 1 unevenSession.replies = 1 := by decide +kernel
  have hlisted : listOf (reportOn 1 unevenSession.replies) (List.range' 1 2) =
      [(2, { code := some "5001", message := some "leak" })] := by decide +kernel
  obtain ⟨issues, session', hrun, -, -, hissues, -, hiff⟩ :=
    confirmed_listed_iff {} ⟨"", "", "", ""⟩ "" unevenSession (by decide) rfl hn
  refine ⟨issues, session', hrun, hn, ?_, hissues.trans hlisted⟩
  intro hkeys
  exact absurd ((hiff.1 hkeys).1 1 (Nat.le_refl 1) (Nat.le_refl 1)) (by decide +kernel)

end Analyser

end ServerlessTaint
