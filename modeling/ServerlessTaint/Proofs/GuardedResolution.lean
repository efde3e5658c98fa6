import ServerlessTaint.Proofs.Fault
import ServerlessTaint.Proofs.FileReferences

/-!
# Resolution with its faults

Resolving a text looks up keys that may be missing or lead to no text, and reads files that may not be there. Here the
steps are written out with the faults that they may end in, with the calls that they make on other texts, and with a
bound on how deep the calls go (`resolveWithin`). Whatever the configuration holds and whatever the files are, there
is a text in the end, and it is the one that `process` gives: every fault is dealt with where it arises, and every call
is on a shorter text (`resolution_ends`).
-/

namespace ServerlessTaint.Reference

open List

/-! ## Steps that may fault -/

/-- For what part of a text resolution calls itself: the reference nested in a reference, or the text before or after
it. -/
inductive CallKind where
  | nested
  | before
  | after
  deriving DecidableEq, Repr

/-- A call of resolution on a text while it works on another one. -/
structure Call where
  kind : CallKind
  caller : List Char
  argument : List Char
  deriving DecidableEq, Repr

/-- Work that makes calls, in order, and ends in a result or a fault; or it does not end. -/
abbrev Attempt := ExceptT Fault (StateT (List Call) Option)

/-- Work that does not end. -/
def Attempt.endless {α : Type} : Attempt α := ExceptT.mk fun _ => none

def callFor (resolve : List Char → Attempt (List Char)) (kind : CallKind) (caller argument : List Char) :
    Attempt (List Char) := do
  modify (· ++ [⟨kind, caller, argument⟩])
  resolve argument

/-- The value that a name leads to; a fault if a key is missing, or if something that has no keys is met. -/
def valueAt (config : Value) (name : List Char) : Except Fault Value :=
  config.getAll ((Text.splitAt '.' (withoutSelf name)).map String.ofList)

/-- The displayed value that the reference in a text leads to; a fault if there is no such reference, its file is of no
known kind, or its key leads nowhere. -/
def valueInFile (s : Sources) (text : List Char) : Except Fault (List Char) := do
  let reference ← (fileValue? text).elim (.error .missingAttribute) .ok
  let relative := resolve s.config (String.ofList reference.1)
  let content ← (s.loadFile? relative).elim (.error (.missingKey (Path.extension relative))) .ok
  let found ← content.getAll (Text.splitString '.' (resolve s.config (String.ofList reference.2)))
  return found.display.toList

/-- What is done about a fault: a name that refers to a file is looked up there, and stays with its braces if that
faults too; any other text stays as it is. -/
def afterFault (s : Sources) (value name : List Char) : Attempt (List Char) :=
  if (fileValue? (braced name)).isSome then
    tryCatch (liftM (valueInFile s (braced name))) fun _ => pure (braced name)
  else pure value

/-- The name of a reference with the reference nested in it resolved. -/
def expanded (resolve : List Char → Attempt (List Char)) (value named : List Char) : Attempt (List Char) :=
  match find? named with
  | none => pure named
  | some nested => do
    let middle ← callFor resolve .nested value (wrap nested.inner)
    return nested.before ++ middle ++ nested.after

/-- The text before a reference, the value that it names, and the text after it, put together. A value that is no text
cannot be. -/
def putTogether (resolve : List Char → Attempt (List Char)) (config : Value) (value : List Char) (found : Found)
    (name : List Char) : Attempt (List Char) := do
  let named ← valueAt config name
  let before ← callFor resolve .before value found.before
  let text ← named.asText
  let after ← callFor resolve .after value found.after
  return before ++ text.toList ++ after

/-- Resolves a text, given what resolves the parts of it. A fault is dealt with by what is known of the name when it
arises. -/
def resolveStep (s : Sources) (resolve : List Char → Attempt (List Char)) (value : List Char) : Attempt (List Char) :=
  match find? value with
  | none => pure value
  | some found =>
    match target found.inner with
    | .literal text => pure text
    | .named named =>
      tryCatch (do
        let name ← expanded resolve value named
        tryCatch (putTogether resolve s.config value found name) fun _ => afterFault s value name)
        fun _ => afterFault s value named

/-- Resolves a text with calls down to a depth. At the end of the bound it does not end. -/
def resolveWithin (s : Sources) : Nat → List Char → Attempt (List Char)
  | 0, _ => .endless
  | depth + 1, value => resolveStep s (resolveWithin s depth) value

/-! ## What an attempt comes to -/

def Call.Shorter (c : Call) : Prop := c.argument.length < c.caller.length

/-- Work ends in a result or in a fault, and all calls that it makes are on shorter texts. -/
def ComesTo {α : Type} (work : Attempt α) (result : Except Fault α) : Prop :=
  ∀ earlier : List Call, ∃ calls : List Call, work.run.run earlier = some (result, earlier ++ calls) ∧
    ∀ c ∈ calls, c.Shorter

namespace ComesTo

variable {α β : Type} {work : Attempt α} {next : α → Attempt β} {handler : Fault → Attempt α}

theorem of_pure (a : α) : ComesTo (pure a) (.ok a) := fun earlier =>
  ⟨[], by rw [append_nil]; rfl, forall_mem_nil _⟩

variable {fault : Fault} {result : Except Fault α}

theorem of_lift {found : Except Fault α} (h : found = result) : ComesTo (liftM found) result := fun earlier =>
  ⟨[], by rw [append_nil, h]; rfl, forall_mem_nil _⟩

/-- Work goes on after a result. -/
theorem bind {a : α} {result : Except Fault β} (hwork : ComesTo work (.ok a)) (hnext : ComesTo (next a) result) :
    ComesTo (work >>= next) result := by
  intro earlier
  obtain ⟨first, hfirst, hshort⟩ := hwork earlier
  obtain ⟨second, hsecond, hshort'⟩ := hnext (earlier ++ first)
  refine ⟨first ++ second, ?_, forall_mem_append.2 ⟨hshort, hshort'⟩⟩
  rw [ExceptT.run_bind, StateT.run_bind, hfirst, ← append_assoc]
  exact hsecond

/-- A fault ends the work. -/
theorem bind_fault (hwork : ComesTo work (.error fault)) : ComesTo (work >>= next) (.error fault) := by
  intro earlier
  obtain ⟨calls, hcalls, hshort⟩ := hwork earlier
  refine ⟨calls, ?_, hshort⟩
  rw [ExceptT.run_bind, StateT.run_bind, hcalls]
  rfl

/-- Where there is no fault, none is dealt with. -/
theorem tryCatch_ok {a : α} (hwork : ComesTo work (.ok a)) : ComesTo (tryCatch work handler) (.ok a) := by
  intro earlier
  obtain ⟨calls, hcalls, hshort⟩ := hwork earlier
  refine ⟨calls, ?_, hshort⟩
  rw [show (tryCatch work handler).run.run earlier = Option.bind (work.run.run earlier) _ from rfl, hcalls]
  rfl

/-- A fault is dealt with. -/
theorem tryCatch_fault (hwork : ComesTo work (.error fault)) (hhandler : ComesTo (handler fault) result) :
    ComesTo (tryCatch work handler) result := by
  intro earlier
  obtain ⟨first, hfirst, hshort⟩ := hwork earlier
  obtain ⟨second, hsecond, hshort'⟩ := hhandler (earlier ++ first)
  refine ⟨first ++ second, ?_, forall_mem_append.2 ⟨hshort, hshort'⟩⟩
  rw [show (tryCatch work handler).run.run earlier = Option.bind (work.run.run earlier) _ from rfl, hfirst,
    ← append_assoc]
  exact hsecond

theorem of_call {resolve : List Char → Attempt (List Char)} {kind : CallKind} {caller argument : List Char}
    {result : Except Fault (List Char)} (hresolve : ComesTo (resolve argument) result)
    (hshort : argument.length < caller.length) : ComesTo (callFor resolve kind caller argument) result := by
  intro earlier
  obtain ⟨calls, hcalls, hshort'⟩ := hresolve (earlier ++ [⟨kind, caller, argument⟩])
  refine ⟨⟨kind, caller, argument⟩ :: calls, ?_, forall_mem_cons.2 ⟨hshort, hshort'⟩⟩
  rw [append_assoc] at hcalls
  exact hcalls

end ComesTo

/-! ## Values in files -/

/-- A value is found in a file exactly if looking for it does not fault. -/
theorem valueInFile_cases (s : Sources) (text : List Char) :
    (∃ v, s.externalValue? text = some v ∧ valueInFile s text = .ok v.display.toList) ∨
      s.externalValue? text = none ∧ ∃ fault, valueInFile s text = .error fault := by
  rw [Sources.externalValue?, valueInFile]
  cases fileValue? text with
  | none => exact .inr ⟨rfl, _, rfl⟩
  | some reference =>
    obtain ⟨path, key⟩ := reference
    simp only [Option.bind_eq_bind, Option.bind_some, Option.elim_some, ok_bind]
    cases s.loadFile? (resolve s.config (String.ofList path)) with
    | none => exact .inr ⟨rfl, _, rfl⟩
    | some content =>
      simp only [Option.bind_some, Option.elim_some, ok_bind]
      cases content.getAll (Text.splitString '.' (resolve s.config (String.ofList key))) with
      | error fault => exact .inr ⟨rfl, fault, rfl⟩
      | ok v => exact .inl ⟨v, rfl, rfl⟩

/-- A fault is always dealt with. -/
theorem comesTo_afterFault (s : Sources) (value name : List Char) :
    ComesTo (afterFault s value name)
      (.ok (if (fileValue? (braced name)).isSome then s.fromFile (braced name) else value)) := by
  unfold afterFault
  split
  · rcases valueInFile_cases s (braced name) with ⟨v, hv, hfound⟩ | ⟨hnone, fault, hfault⟩
    · rw [Sources.fromFile, hv]
      exact (ComesTo.of_lift hfound).tryCatch_ok
    · rw [Sources.fromFile, hnone]
      exact (ComesTo.of_lift hfault).tryCatch_fault (ComesTo.of_pure _)
  · exact ComesTo.of_pure value

/-! ## One step -/

theorem textAt?_eq (config : Value) (name : List Char) :
    textAt? config name = (valueAt config name).toOption.bind fun v => v.text?.map String.toList := by
  rw [textAt?, valueAt]
  cases config.getAll ((Text.splitAt '.' (withoutSelf name)).map String.ofList) with
  | error fault => rfl
  | ok v => cases v <;> rfl

section

variable {s : Sources} {resolve : List Char → Attempt (List Char)} {value : List Char}
  (hresolve : ∀ argument : List Char, argument.length < value.length →
    ComesTo (resolve argument) (.ok (process s argument)))

include hresolve

theorem comesTo_expanded {named : List Char} (hshort : named.length < value.length) :
    ComesTo (expanded resolve value named) (.ok (unnested s named)) := by
  unfold expanded unnested
  cases hnested : find? named with
  | none => exact ComesTo.of_pure named
  | some nested =>
    have hlength := find?_length hnested
    have hwrapped : (wrap nested.inner).length < value.length := by
      simp only [wrap, length_append, length_cons, length_nil]
      omega
    exact (ComesTo.of_call (hresolve _ hwrapped) hwrapped).bind (ComesTo.of_pure _)

variable {found : Found} (hbefore : found.before.length < value.length)

include hbefore

variable {name : List Char}

theorem comesTo_putTogether_of_text (hafter : found.after.length < value.length) {text : List Char}
    (htext : textAt? s.config name = some text) :
    ComesTo (putTogether resolve s.config value found name)
      (.ok (process s found.before ++ text ++ process s found.after)) := by
  rw [textAt?_eq] at htext
  obtain ⟨v, hv, htext⟩ := Option.bind_eq_some_iff.1 htext
  obtain ⟨shown, hshown, rfl⟩ := Option.map_eq_some_iff.1 htext
  have hasText : v.asText = .ok shown := by
    cases v <;> cases hshown
    rfl
  exact (ComesTo.of_lift (eq_ok_of_toOption hv)).bind ((ComesTo.of_call (hresolve _ hbefore) hbefore).bind
    ((ComesTo.of_lift hasText).bind ((ComesTo.of_call (hresolve _ hafter) hafter).bind (ComesTo.of_pure _))))

/-- A name that leads to no text makes for a fault, at the latest when the texts are put together. -/
theorem exists_fault_putTogether (htext : textAt? s.config name = none) :
    ∃ fault, ComesTo (putTogether resolve s.config value found name) (.error fault) := by
  cases hv : valueAt s.config name with
  | error fault => exact ⟨fault, (ComesTo.of_lift hv).bind_fault⟩
  | ok v =>
    obtain ⟨fault, hfault⟩ : ∃ fault, v.asText = .error fault := by
      rw [textAt?_eq, hv] at htext
      cases v with
      | str text => cases htext
      | _ => exact ⟨_, rfl⟩
    exact ⟨fault, (ComesTo.of_lift hv).bind ((ComesTo.of_call (hresolve _ hbefore) hbefore).bind
      (ComesTo.of_lift hfault).bind_fault)⟩

end

variable {value : List Char}

/-- A step ends with what `process` gives, if the calls on shorter texts do. -/
theorem comesTo_resolveStep {s : Sources} {resolve : List Char → Attempt (List Char)}
    (hresolve : ∀ argument : List Char, argument.length < value.length →
      ComesTo (resolve argument) (.ok (process s argument))) :
    ComesTo (resolveStep s resolve value) (.ok (process s value)) := by
  unfold resolveStep
  cases hfound : find? value with
  | none =>
    rw [process_of_no_reference s (find?_eq_none_iff.1 hfound)]
    exact ComesTo.of_pure value
  | some found =>
    have hlength := find?_length hfound
    dsimp only
    cases htarget : target found.inner with
    | literal text =>
      rw [process_of_literal s hfound htarget]
      exact ComesTo.of_pure text
    | named named =>
      have hnamed := length_le_of_target htarget
      rw [process_of_named s hfound htarget, replaced]
      have hname := comesTo_expanded hresolve (show named.length < value.length by omega)
      refine (hname.bind ?_).tryCatch_ok
      cases htext : textAt? s.config (unnested s named) with
      | some text => exact (comesTo_putTogether_of_text hresolve (by omega) (by omega) htext).tryCatch_ok
      | none =>
        obtain ⟨fault, hfault⟩ :=
          exists_fault_putTogether hresolve (show found.before.length < value.length by omega) htext
        exact hfault.tryCatch_fault (comesTo_afterFault s value (unnested s named))

/-! ## All calls -/

/-- The calls end if they may go as deep as the text is long. -/
theorem comesTo_resolveWithin (s : Sources) {depth : Nat} (h : value.length < depth) :
    ComesTo (resolveWithin s depth value) (.ok (process s value)) := by
  induction depth generalizing value with
  | zero => exact absurd h (Nat.not_lt_zero _)
  | succ depth ih => exact comesTo_resolveStep fun argument hargument => ih (by omega)

/-- **Resolution ends with a text.** Whatever the text, the configuration and the files are, the calls come to an end
before they are deeper than the text is long, each of them is on a text that is shorter than that for which it is made,
and no fault is left: there is a text, the one that `process` gives. -/
theorem resolution_ends (s : Sources) (text : String) {depth : Nat} (h : text.length < depth) :
    ∃ calls : List Call,
      (resolveWithin s depth text.toList).run.run [] = some (.ok (process s text.toList), calls) ∧
        (∀ c ∈ calls, c.argument.length < c.caller.length) ∧
        processValue s (.str text) = .ok (String.ofList (process s text.toList)) := by
  obtain ⟨calls, hcalls, hshort⟩ := comesTo_resolveWithin s (by rwa [String.length_toList]) []
  exact ⟨calls, hcalls, hshort, rfl⟩

/-- A configuration with a text, the key of the text, and a list. -/
def keyed : Sources := ⟨⟨[]⟩, "s.yml", .map [("a", .str "k"), ("k", .str "v"), ("l", .list [.str "v"])]⟩

/-- A reference nested in another one is resolved by calls of all kinds. One that leads to a list makes for a fault after
the first call. -/
theorem calls_of_each_kind :
    (∃ calls : List Call, processValue keyed (.str "x$\x7bself:$\x7bself:a\x7d\x7dy") = .ok "xvy" ∧
      calls.map (·.kind) = [.nested, .before, .after, .before, .after] ∧
      ∀ c ∈ calls, c.argument.length < c.caller.length) ∧
    ∃ calls : List Call, processValue keyed (.str "x$\x7bself:l\x7dy") = .ok "x$\x7bself:l\x7dy" ∧
      calls = [⟨.before, "x$\x7bself:l\x7dy".toList, "x".toList⟩] ∧
      ∀ c ∈ calls, c.argument.length < c.caller.length := by
  constructor
  · obtain ⟨calls, hrun, hshort, hvalue⟩ :=
      resolution_ends keyed "x$\x7bself:$\x7bself:a\x7d\x7dy" (show _ < 30 by decide)
    have heval : ((resolveWithin keyed 30 "x$\x7bself:$\x7bself:a\x7d\x7dy".toList).run.run []).map
        (fun r => (r.1.toOption, r.2.map (·.kind))) =
          some (some "xvy".toList, [.nested, .before, .after, .before, .after]) := by decide +kernel
    rw [hrun, Option.map_some, Option.some.injEq, Prod.mk.injEq] at heval
    rw [Option.some.inj heval.1, String.ofList_toList] at hvalue
    exact ⟨calls, hvalue, heval.2, hshort⟩
  · obtain ⟨calls, hrun, hshort, hvalue⟩ := resolution_ends keyed "x$\x7bself:l\x7dy" (show _ < 20 by decide)
    have heval : ((resolveWithin keyed 20 "x$\x7bself:l\x7dy".toList).run.run []).map
        (fun r => (r.1.toOption, r.2)) =
          some (some "x$\x7bself:l\x7dy".toList, [⟨.before, "x$\x7bself:l\x7dy".toList, "x".toList⟩]) := by
      decide +kernel
    rw [hrun, Option.map_some, Option.some.injEq, Prod.mk.injEq] at heval
    rw [Option.some.inj heval.1, String.ofList_toList] at hvalue
    exact ⟨calls, hvalue, heval.2, hshort⟩

end ServerlessTaint.Reference
