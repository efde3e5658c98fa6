import ServerlessTaint.EventFilter
import ServerlessTaint.Proofs.EnvironmentValues
import ServerlessTaint.Proofs.KeptAssignments
import ServerlessTaint.Proofs.ParsedPrograms

/-!
# Look-ups of variables

A variable of a program has a text if a text literal is assigned to it, and a value from the environment if a read of
the environment is. Both look-ups go through the assignments of the program up to the first that settles the matter
(`Scans`). On the way there a first target that is not a variable is a fault, and for the environment so is a subscript
or a call that cannot be judged. A look-up has an answer if and only if no such assignment comes before the one that
settles it, and then it has the same answer if only the assignments to the variable are kept (`lookups_answer_iff`).
-/

namespace ServerlessTaint

open List Site
open Syntax (Ast Span)

theorem Syntax.Ast.length_of_fits {sorts : List Syntax.FieldSort} {ts : List Ast} (h : Ast.fits sorts ts) :
    ts.length = sorts.length := by
  induction sorts generalizing ts with
  | nil =>
    cases ts with
    | nil => rfl
    | cons => cases h
  | cons s sorts ih =>
    cases ts with
    | nil => cases h
    | cons t ts => exact congrArg (· + 1) (ih (Bool.and_eq_true_iff.1 h).2)

/-! ## Members before which another one comes -/

def NoneBefore {α : Type} (good bad : α → Prop) (xs : List α) : Prop :=
  ∀ before x after, xs = before ++ x :: after → bad x → ∃ y ∈ before, good y

theorem noneBefore_nil {α : Type} (good bad : α → Prop) : NoneBefore good bad [] := by
  intro before x after h
  cases before <;> cases h

theorem noneBefore_cons_iff {α : Type} {good bad : α → Prop} {x : α} {xs : List α} :
    NoneBefore good bad (x :: xs) ↔ ¬bad x ∧ (good x ∨ NoneBefore good bad xs) := by
  constructor
  · intro h
    refine ⟨fun hbad => ?_, Classical.or_iff_not_imp_left.2 fun hgood before y after heq hbad => ?_⟩
    · obtain ⟨_, hmem, -⟩ := h [] x xs rfl hbad
      cases hmem
    · obtain ⟨z, hz, hzgood⟩ := h (x :: before) y after (congrArg _ heq) hbad
      rcases mem_cons.1 hz with rfl | hz
      · exact absurd hzgood hgood
      · exact ⟨z, hz, hzgood⟩
  · rintro ⟨hfirst, hrest⟩ before y after heq hbad
    cases before with
    | nil =>
      obtain ⟨rfl, -⟩ := cons.inj heq
      exact absurd hbad hfirst
    | cons z before =>
      obtain ⟨rfl, htail⟩ := cons.inj heq
      rcases hrest with hgood | hrest
      · exact ⟨x, mem_cons_self, hgood⟩
      · obtain ⟨w, hw, hwgood⟩ := hrest before y after htail hbad
        exact ⟨w, mem_cons_of_mem _ hw, hwgood⟩

/-! ## Look-ups -/

/-- A look-up goes through values up to the first that settles the matter or stops the search by a fault. -/
structure Scans {β : Type} (find : List (Except Fault Ast) → Except Fault β) (settles stops : Ast → Prop) : Prop where
  nil : ∃ b, find [] = .ok b
  fault : ∀ fault rest, find (.error fault :: rest) = .error fault
  settled : ∀ {v}, settles v → ∃ b, ∀ rest, find (.ok v :: rest) = .ok b
  stopped : ∀ {v}, stops v → ∃ fault, ∀ rest, find (.ok v :: rest) = .error fault
  passed : ∀ {v}, v.conforms (.one .expression) = true → ¬settles v → ¬stops v →
    ∀ rest, find (.ok v :: rest) = find rest

/-- An assignment whose value settles the matter for a variable. -/
def SettledBy (settles : Ast → Prop) (name : String) (x : Ast) : Prop :=
  ∃ value, x.assignment? = some (name, value) ∧ settles value

/-- An assignment that stops the search for a variable: its first target is not a variable, or it is this one and the
value stops it. -/
def StoppedBy (stops : Ast → Prop) (name : String) (x : Ast) : Prop :=
  x.assignment? = none ∨ ∃ value, x.assignment? = some (name, value) ∧ stops value

variable {x value program : Ast} {name : String} {settles stops : Ast → Prop}

theorem settledBy_iff {id : String} (h : x.assignment? = some (id, value)) :
    SettledBy settles name x ↔ id = name ∧ settles value := by
  simp [SettledBy, h]

theorem stoppedBy_iff {id : String} (h : x.assignment? = some (id, value)) :
    StoppedBy stops name x ↔ id = name ∧ stops value := by
  simp [StoppedBy, h]

namespace Scans

variable {β : Type} {find : List (Except Fault Ast) → Except Fault β} {settles stops : Ast → Prop}

/-- A search has an answer unless the first assignment stops it, if this one settles it or the search in the others
has an answer. -/
theorem exists_ok_cons_iff (h : Scans find settles stops) (name : String) {x : Ast}
    (hvalue : ∀ id value, x.assignment? = some (id, value) → value.conforms (.one .expression)) (xs : List Ast) :
    (∃ b, find ((x :: xs).filterMap fun x => Ast.valueFor name x.assignment?) = .ok b) ↔
      ¬StoppedBy stops name x ∧ (SettledBy settles name x ∨
        ∃ b, find (xs.filterMap fun x => Ast.valueFor name x.assignment?) = .ok b) := by
  rw [filterMap_cons]
  cases hx : x.assignment? with
  | none =>
    have hstopped : StoppedBy stops name x := .inl hx
    simp [Ast.valueFor, h.fault, hstopped]
  | some pair =>
    obtain ⟨id, value⟩ := pair
    rw [settledBy_iff hx, stoppedBy_iff hx]
    by_cases hid : id = name
    · subst hid
      simp only [Ast.valueFor_self, true_and]
      by_cases hsettles : settles value
      · obtain ⟨b, hb⟩ := h.settled hsettles
        have hgoes : ¬stops value := by
          intro hstops
          obtain ⟨fault, hfault⟩ := h.stopped hstops
          cases (hb []).symm.trans (hfault [])
        simp [hb, hgoes, hsettles]
      by_cases hstops : stops value
      · obtain ⟨fault, hfault⟩ := h.stopped hstops
        simp [hfault, hstops]
      rw [h.passed (hvalue id value hx) hsettles hstops]
      simp [hsettles, hstops]
    · simp [Ast.valueFor_of_ne hid, hid]

/-- A search has an answer if no assignment stops it before one settles it. -/
theorem exists_ok_iff (h : Scans find settles stops) (name : String) {xs : List Ast}
    (hvalues : ∀ x ∈ xs, ∀ id value, x.assignment? = some (id, value) → value.conforms (.one .expression)) :
    (∃ b, find (xs.filterMap fun x => Ast.valueFor name x.assignment?) = .ok b) ↔
      NoneBefore (SettledBy settles name) (StoppedBy stops name) xs := by
  induction xs with
  | nil => exact ⟨fun _ => noneBefore_nil _ _, fun _ => h.nil⟩
  | cons x xs ih =>
    rw [h.exists_ok_cons_iff name (hvalues x mem_cons_self), noneBefore_cons_iff,
      ih fun y hy => hvalues y (mem_cons_of_mem _ hy)]

/-- An answer does not depend on the faults that a search has not met. -/
theorem filter_isOk (h : Scans find settles stops) {values : List (Except Fault Ast)}
    (hvalues : ∀ value, .ok value ∈ values → value.conforms (.one .expression)) {b : β}
    (hfind : find values = .ok b) : find (values.filter Except.isOk) = .ok b := by
  induction values with
  | nil => exact hfind
  | cons first rest ih =>
    cases first with
    | error fault =>
      rw [h.fault] at hfind
      cases hfind
    | ok value =>
      change find (.ok value :: rest.filter Except.isOk) = .ok b
      by_cases hsettles : settles value
      · obtain ⟨b', hb'⟩ := h.settled hsettles
        rw [hb'] at hfind ⊢
        exact hfind
      by_cases hstops : stops value
      · obtain ⟨fault, hfault⟩ := h.stopped hstops
        rw [hfault] at hfind
        cases hfind
      have hpassed := h.passed (hvalues value mem_cons_self) hsettles hstops
      rw [hpassed] at hfind ⊢
      exact ih (fun value hvalue => hvalues value (mem_cons_of_mem _ hvalue)) hfind

end Scans

/-! ## Texts -/

def IsTextLiteral (value : Ast) : Prop := ∃ text span, value = textLiteral text span

theorem text?_eq_none (h : ¬IsTextLiteral value) : value.text? = none := by
  unfold Ast.text? Ast.constant?
  split
  · rename_i text heq
    split at heq
    · cases heq
      exact absurd ⟨text, _, rfl⟩ h
    · cases heq
  · rfl

/-- The search for a text goes on up to a literal, whatever other values are assigned. -/
theorem scans_firstText : Scans EventFilter.firstText IsTextLiteral fun _ => False where
  nil := ⟨none, rfl⟩
  fault _ _ := rfl
  settled := by
    rintro _ ⟨text, span, rfl⟩
    exact ⟨some text, fun _ => rfl⟩
  stopped := False.elim
  passed := by
    intro value _ hother _ rest
    rw [EventFilter.firstText, ok_bind, text?_eq_none hother]

/-! ## Reads of the environment -/

namespace Environment

def IsMember (object attr : String) (t : Ast) : Prop :=
  ∃ whole place, t = .node .attributeRef whole [.node .name place [.name object], .name attr]

/-- A read of the environment from which the variable can be told: the index has a value that has a value, or the first
argument has one. -/
inductive Settles : Ast → Prop
  | subscript {span : Option Span} {base index value : Ast} : IsMember "os" "environ" base →
    (index.field? .value >>= Ast.field? .value) = some value → Settles (.node .subscript span [base, index])
  | call {span : Option Span} {function args keywords value : Ast} : IsMember "os" "getenv" function →
    (args.items.head? >>= Ast.field? .value) = some value → Settles (.node .call span [function, args, keywords])

/-- A subscript or a call of something that is not a member of a named object, or a read of the environment from which
the variable cannot be told. -/
inductive Unreadable : Ast → Prop
  | base {span : Option Span} {base index : Ast} : (∀ object attr, ¬IsMember object attr base) →
    Unreadable (.node .subscript span [base, index])
  | index {span : Option Span} {base index : Ast} : IsMember "os" "environ" base →
    (index.field? .value >>= Ast.field? .value) = none → Unreadable (.node .subscript span [base, index])
  | function {span : Option Span} {function args keywords : Ast} : (∀ object attr, ¬IsMember object attr function) →
    Unreadable (.node .call span [function, args, keywords])
  | argument {span : Option Span} {function args keywords : Ast} : IsMember "os" "getenv" function →
    (args.items.head? >>= Ast.field? .value) = none → Unreadable (.node .call span [function, args, keywords])

/-- A read of the environment is judged by the member of a named object with which it is made, and the variable is told
by a value. -/
structure IsJudged (reads : Except Fault Bool) (selector : Except Fault Selector) (attr : String) (member : Ast)
    (told : Option Ast) : Prop where
  isRead : ∀ {object name}, IsMember object name member → reads = .ok (object == "os" && name == attr)
  noMember : (∀ object name, ¬IsMember object name member) → reads = .error .missingAttribute
  isTold : ∀ {value}, told = some value → selector = .ok (.ofTree value)
  notTold : told = none → ∃ fault, selector = .error fault

theorem isJudged_subscript (span : Option Span) (base index : Ast) :
    IsJudged (isEnviron (.node .subscript span [base, index])) (subscriptVariable (.node .subscript span [base, index]))
      "environ" base (index.field? .value >>= Ast.field? .value) where
  isRead := by
    rintro object name ⟨whole, place, rfl⟩
    rfl
  noMember h := by
    unfold isEnviron
    split
    · rename_i heq
      cases heq
      exact absurd ⟨_, _, rfl⟩ (h _ _)
    · rfl
  isTold := by
    intro value h
    obtain ⟨below, hbelow, hvalue⟩ := Option.bind_eq_some_iff.1 h
    change (do return .ofTree (← valueBelow (← valueBelow index)) : Except Fault Selector) = _
    rw [valueBelow, hbelow, ok_bind, valueBelow, hvalue]
    rfl
  notTold h := by
    refine ⟨.missingAttribute, ?_⟩
    change (do return .ofTree (← valueBelow (← valueBelow index)) : Except Fault Selector) = _
    rw [valueBelow]
    cases hbelow : index.field? .value with
    | none => rfl
    | some below =>
      rw [hbelow] at h
      rw [ok_bind, valueBelow, show below.field? .value = none from h]
      rfl

theorem isJudged_call (span : Option Span) (function args keywords : Ast) :
    IsJudged (isGetenv (.node .call span [function, args, keywords]))
      (callVariable (.node .call span [function, args, keywords])) "getenv" function
      (args.items.head? >>= Ast.field? .value) where
  isRead := by
    rintro object name ⟨whole, place, rfl⟩
    rfl
  noMember h := by
    unfold isGetenv Ast.method?
    split
    · rename_i heq
      split at heq
      · rename_i hcall
        cases hcall
        exact absurd ⟨_, _, rfl⟩ (h _ _)
      · cases heq
    · rfl
  isTold := by
    intro value h
    obtain ⟨first, hfirst, hvalue⟩ := Option.bind_eq_some_iff.1 h
    obtain ⟨more, hitems⟩ := head?_eq_some_iff.1 hfirst
    have hargs : Ast.itemsOf .args (.node .call span [function, args, keywords]) = first :: more := hitems
    rw [callVariable, hargs]
    change (do return .ofTree (← valueBelow first) : Except Fault Selector) = _
    rw [valueBelow, hvalue]
    rfl
  notTold h := by
    have hargs : Ast.itemsOf .args (.node .call span [function, args, keywords]) = args.items := rfl
    rw [callVariable, hargs]
    cases hitems : args.items with
    | nil => exact ⟨.indexOutOfRange, rfl⟩
    | cons first more =>
      rw [hitems] at h
      refine ⟨.missingAttribute, ?_⟩
      change (do return .ofTree (← valueBelow first) : Except Fault Selector) = _
      rw [valueBelow, show first.field? .value = none from h]
      rfl

namespace IsJudged

variable {reads : Except Fault Bool} {selector : Except Fault Selector} {attr : String} {member : Ast}
  {told : Option Ast} (h : IsJudged reads selector attr member told) {β : Type} (f : Selector → Except Fault β)
include h

theorem bind_of_told (hmember : IsMember "os" attr member) {value : Ast} (hvalue : told = some value)
    (next : Except Fault β) :
    (reads >>= fun isRead => if isRead then selector >>= f else next) = f (.ofTree value) := by
  rw [h.isRead hmember, ok_bind, if_pos (by simp), h.isTold hvalue, ok_bind]

theorem bind_of_notTold (hmember : IsMember "os" attr member) (hvalue : told = none) :
    ∃ fault, ∀ next, (reads >>= fun isRead => if isRead then selector >>= f else next) = .error fault := by
  obtain ⟨fault, hfault⟩ := h.notTold hvalue
  refine ⟨fault, fun next => ?_⟩
  rw [h.isRead hmember, ok_bind, if_pos (by simp), hfault]
  rfl

theorem bind_of_noMember (hother : ∀ object name, ¬IsMember object name member) :
    ∃ fault, ∀ next, (reads >>= fun isRead => if isRead then selector >>= f else next) = .error fault :=
  ⟨.missingAttribute, fun _ => by rw [h.noMember hother]; rfl⟩

/-- What neither tells a variable nor is a fault is passed over. -/
theorem bind_eq_next (hmember : ∃ object name, IsMember object name member) (hread : ¬IsMember "os" attr member)
    (next : Except Fault β) : (reads >>= fun isRead => if isRead then selector >>= f else next) = next := by
  obtain ⟨object, name, hmember⟩ := hmember
  rw [h.isRead hmember, ok_bind, if_neg]
  intro hos
  obtain ⟨rfl, rfl⟩ : object = "os" ∧ name = attr := by simpa using hos
  exact hread hmember

end IsJudged

end Environment

theorem Site.firstRead_other (site : Site) (hsubscript : value.kind? ≠ some .subscript)
    (hcall : value.kind? ≠ some .call) (rest : List (Except Fault Ast)) :
    site.firstRead (.ok value :: rest) = site.firstRead rest := by
  rw [firstRead, ok_bind]
  split
  · rename_i hkind
    exact absurd hkind hsubscript
  · rename_i hkind
    exact absurd hkind hcall
  · rfl

section

variable {site : Site}

open Environment

/-- The search for a read of the environment goes on up to the first from which the variable can be told, and is stopped
by subscripts and calls that cannot be judged. -/
theorem scans_firstRead (h : site.Declared) : Scans site.firstRead Settles Unreadable where
  nil := ⟨.null, rfl⟩
  fault _ _ := rfl
  settled := by
    intro value hsettles
    cases hsettles with
    | subscript hmember hvalue =>
      obtain ⟨v, hv⟩ := h.exists_value (.ofTree _)
      exact ⟨v, fun rest => ((isJudged_subscript _ _ _).bind_of_told _ hmember hvalue _).trans hv⟩
    | call hmember hvalue =>
      obtain ⟨v, hv⟩ := h.exists_value (.ofTree _)
      exact ⟨v, fun rest => ((isJudged_call _ _ _ _).bind_of_told _ hmember hvalue _).trans hv⟩
  stopped := by
    intro value hstops
    cases hstops with
    | base hother =>
      exact ((isJudged_subscript _ _ _).bind_of_noMember _ hother).imp fun _ hnext rest => hnext _
    | index hmember hvalue =>
      exact ((isJudged_subscript _ _ _).bind_of_notTold _ hmember hvalue).imp fun _ hnext rest => hnext _
    | function hother =>
      exact ((isJudged_call _ _ _ _).bind_of_noMember _ hother).imp fun _ hnext rest => hnext _
    | argument hmember hvalue =>
      exact ((isJudged_call _ _ _ _).bind_of_notTold _ hmember hvalue).imp fun _ hnext rest => hnext _
  passed := by
    intro value hvalue hsettles hreadable rest
    cases value with
    | node kind span children =>
      have hlength : children.length = kind.sorts.length := Ast.length_of_fits (Bool.and_eq_true_iff.1 hvalue).2
      by_cases hsubscript : kind = .subscript
      · subst hsubscript
        obtain ⟨base, index, rfl⟩ := length_eq_two.1 hlength
        refine (isJudged_subscript span base index).bind_eq_next _ ?_ (fun hmember => ?_) _
        · exact by_contra fun hother => hreadable (.base (by simpa using hother))
        · cases htold : index.field? .value >>= Ast.field? .value with
          | none => exact hreadable (.index hmember htold)
          | some value => exact hsettles (.subscript hmember htold)
      by_cases hcall : kind = .call
      · subst hcall
        obtain ⟨function, args, keywords, rfl⟩ := length_eq_three.1 hlength
        refine (isJudged_call span function args keywords).bind_eq_next _ ?_ (fun hmember => ?_) _
        · exact by_contra fun hother => hreadable (.function (by simpa using hother))
        · cases htold : args.items.head? >>= Ast.field? .value with
          | none => exact hreadable (.argument hmember htold)
          | some value => exact hsettles (.call hmember htold)
      have hother : ∀ k, kind ≠ k → (Ast.node kind span children).kind? ≠ some k := fun k hk h => hk (Option.some.inj h)
      exact site.firstRead_other (hother _ hsubscript) (hother _ hcall) rest
    | _ => cases hvalue

end

/-! ## Programs -/

/-- The values of assignments in a program are expressions. -/
theorem conforms_of_assignment? (h : program.conforms (.one .module)) (hx : x ∈ program.walkKind .assign)
    {id : String} (hassigned : x.assignment? = some (id, value)) : value.conforms (.one .expression) := by
  obtain ⟨d, -, hdepth⟩ := mem_flatMap.1 (mem_filter.1 hx).1
  obtain ⟨s, hsort, -⟩ := (Ast.within_of_mem_nodesAt hdepth).2.exists_sort h
  unfold Ast.assignment? at hassigned
  split at hassigned
  · cases hassigned
    have hfits := (Bool.and_eq_true_iff.1 hsort).2
    exact (Bool.and_eq_true_iff.1 (Bool.and_eq_true_iff.1 hfits).2).1
  · cases hassigned

/-- A search in a program has an answer if no assignment stops it before one settles it, and then it has this answer if
only the assignments to the variable are kept. -/
theorem Scans.search {β : Type} {find : List (Except Fault Ast) → Except Fault β} (h : Scans find settles stops)
    (hprogram : program.conforms (.one .module)) (name : String) :
    ((∃ b, find (program.assignedTo (.str name)) = .ok b) ↔
      NoneBefore (SettledBy settles name) (StoppedBy stops name) (program.walkKind .assign)) ∧
      ∀ b, find (program.assignedTo (.str name)) = .ok b →
        find ((program.onlyAssigning name).assignedTo (.str name)) = .ok b := by
  have hnode := Ast.isNode_of_conforms_one hprogram
  have hvalues : ∀ x ∈ program.walkKind .assign, ∀ id value, x.assignment? = some (id, value) →
      value.conforms (.one .expression) = true := fun x hx id value => conforms_of_assignment? hprogram hx
  refine ⟨?_, fun b hfind => ?_⟩
  · rw [Ast.assignedTo_eq]
    exact h.exists_ok_iff name hvalues
  · rw [Ast.assignedTo_onlyAssigning hprogram hnode]
    refine h.filter_isOk (fun value hvalue => ?_) hfind
    rw [Ast.assignedTo_eq, mem_filterMap] at hvalue
    obtain ⟨x, hx, hvalue⟩ := hvalue
    exact hvalues x hx name value (Ast.assignment?_of_valueFor hvalue)

theorem Site.firstRead_withProgram (site : Site) (program : Ast) (values : List (Except Fault Ast)) :
    (site.withProgram program).firstRead values = site.firstRead values := by
  induction values with
  | nil => rfl
  | cons value rest ih =>
    rw [firstRead, firstRead, ih]
    rfl

theorem Site.Declared.assignedValue_eq {site : Site} (h : site.Declared) (program : Ast) (name : String) :
    (site.withProgram program).assignedValue (.str name) = site.firstRead (program.assignedTo (.str name)) := by
  obtain ⟨info, hinfo⟩ := h.exists_info
  have hinfo' : (site.withProgram program).handlerInfo = .ok info := hinfo
  rw [← site.firstRead_withProgram program, assignedValue, hinfo']
  rfl

/-- **A look-up has an answer unless a fault comes first.** In a program that was read from a text, the search for the
text of a variable has an answer if and only if before every assignment whose first target is not a variable there is
one of a text literal to the variable. The search for its value from the environment has an answer if and only if before
every such assignment, and before every assignment of an unreadable subscript or call to the variable, there is one of a
read of the environment. An answer is the same if all assignments with other first targets give way to empty statements,
which leaves a program. -/
theorem lookups_answer_iff {text : String} {program : Ast} (hprogram : Syntax.parseModule text = .ok program)
    {site : Site} (h : site.Declared) (name : String) :
    (program.onlyAssigning name).conforms (.one .module) = true ∧
      ((∃ found, EventFilter.firstText (program.assignedTo (.str name)) = .ok found) ↔
        NoneBefore (SettledBy IsTextLiteral name) (StoppedBy (fun _ => False) name) (program.walkKind .assign)) ∧
      (∀ found, EventFilter.firstText (program.assignedTo (.str name)) = .ok found →
        EventFilter.firstText ((program.onlyAssigning name).assignedTo (.str name)) = .ok found) ∧
      ((∃ v, (site.withProgram program).assignedValue (.str name) = .ok v) ↔
        NoneBefore (SettledBy Environment.Settles name) (StoppedBy Environment.Unreadable name)
          (program.walkKind .assign)) ∧
      ∀ v, (site.withProgram program).assignedValue (.str name) = .ok v →
        (site.withProgram (program.onlyAssigning name)).assignedValue (.str name) = .ok v := by
  have hconforms := Syntax.conforms_of_parseModule hprogram
  simp only [h.assignedValue_eq]
  obtain ⟨htext, htext'⟩ := scans_firstText.search hconforms name
  obtain ⟨hread, hread'⟩ := (scans_firstRead h).search hconforms name
  exact ⟨Ast.conforms_onlyAssigning name program hconforms, htext, htext', hread, hread'⟩

def attributeAssignment : Ast := .node .assign (some ⟨⟨2, 0⟩, ⟨2, 7⟩⟩) [
  .list [.node .attributeRef (some ⟨⟨2, 0⟩, ⟨2, 3⟩⟩) [.node .name (some ⟨⟨2, 0⟩, ⟨2, 1⟩⟩) [.name "a"], .name "b"]],
  .node .constant (some ⟨⟨2, 6⟩, ⟨2, 7⟩⟩) [.literal (.int 1)]]

def attributeProgram : Ast := .node .module none [.list [bucketAssignment, attributeAssignment]]

/-- The variable has its value from the environment, but the search for its text meets the attribute, without which it
finds that there is none. -/
theorem bucket_without_text :
    Syntax.parseModule "bucket = os.getenv('BUCKET')\na.b = 1\n" = .ok attributeProgram ∧ bucketSite.Declared ∧
      (∃ v, (bucketSite.withProgram attributeProgram).assignedValue (.str "bucket") = .ok v) ∧
      (¬∃ found, EventFilter.firstText (attributeProgram.assignedTo (.str "bucket")) = .ok found) ∧
      EventFilter.firstText ((attributeProgram.onlyAssigning "bucket").assignedTo (.str "bucket")) = .ok none := by
  have hparse : Syntax.parseModule "bucket = os.getenv('BUCKET')\na.b = 1\n" = .ok attributeProgram :=
    eq_ok_of_toOption (by decide +kernel)
  have hdeclared : bucketSite.Declared := ⟨⟨_, rfl⟩, ⟨_, rfl⟩⟩
  obtain ⟨-, htext, -, hread, -⟩ := lookups_answer_iff hparse hdeclared "bucket"
  have hwalk : attributeProgram.walkKind .assign = [bucketAssignment, attributeAssignment] := rfl
  refine ⟨hparse, hdeclared, hread.2 ?_, mt htext.1 ?_, rfl⟩
  · rw [hwalk, noneBefore_cons_iff, settledBy_iff rfl, stoppedBy_iff rfl]
    refine ⟨?_, .inl ⟨rfl, .call ⟨_, _, rfl⟩ rfl⟩⟩
    rintro ⟨-, hstops⟩
    cases hstops with
    | function hother => exact hother _ _ ⟨_, _, rfl⟩
    | argument _ hvalue => cases hvalue
  · rw [hwalk, noneBefore_cons_iff, noneBefore_cons_iff, settledBy_iff rfl]
    rintro ⟨-, hliteral | ⟨hgoes, -⟩⟩
    · obtain ⟨-, _, _, hliteral⟩ := hliteral
      cases hliteral
    · exact hgoes (.inl rfl)

end ServerlessTaint
