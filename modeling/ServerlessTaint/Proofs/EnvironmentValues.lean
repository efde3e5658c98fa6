import ServerlessTaint.Environment
import ServerlessTaint.Proofs.Fault
import ServerlessTaint.Proofs.Phrases
import ServerlessTaint.Syntax.Program

/-!
# Values of environment variables

A variable gets its value from the environment of the handler or of the provider. The environment gives it itself, and
then only a text without references counts (`isSettled_resolvedText`), or it refers to another section of the
configuration, from which the value is taken as it stands there (`Refers`). So all values are settled if and only if
those that are taken from other sections are (`variable_settled_iff`).

A program reads a variable by a call or by a subscript, which is read like a call with what stands below its index
(`inspect_subscript`). A literal has nothing below its value, so only calls read the variable that a literal names
(`literal_read_iff`).
-/

namespace ServerlessTaint

open Reference Environment

/-- The configuration declares functions, and the handler may be one of them. -/
structure Site.Declared (site : Site) : Prop where
  functions : ∃ declared, site.config.get "functions" = .ok (.map declared)
  handler : ∃ key, site.handler.asKey = .ok key

variable {site : Site}

theorem Site.Declared.exists_info (h : site.Declared) : ∃ info, site.handlerInfo = .ok info := by
  obtain ⟨declared, hdeclared⟩ := h.functions
  obtain ⟨key, hkey⟩ := h.handler
  rw [Site.handlerInfo, hdeclared, ok_bind, Value.asMap, ok_bind, hkey, ok_bind]
  cases key <;> exact ⟨_, rfl⟩

namespace Environment

/-- No value, or a text without the opening of a reference. -/
def IsSettled (v : Value) : Prop := v = .null ∨ ∃ text, v = .str text ∧ ¬['$', '\x7b'] <:+: text.toList

/-- A level of the configuration has an environment without the variable, but with a reference to a section that
has it. -/
def Refers (config : Value) (level : Except Fault Value) (name : Selector) (v : Value) : Prop :=
  ∃ environment fault path, level >>= Value.get "environment" = .ok environment ∧
    name.part environment = .error fault ∧
    (Reference.paths environment.display.toList).head? = some path ∧
    (config.getAll (Text.splitString '.' (String.ofList path)) >>= name.part) = .ok v

theorem isResolvedText_iff {text : String} : isResolvedText text ↔ ¬['$', '\x7b'] <:+: text.toList := by
  rw [isResolvedText, Bool.not_eq_true', ← Bool.not_eq_true, hasOpening_iff]
  refine not_congr ⟨?_, ?_⟩
  · rintro ⟨before, after, h⟩
    exact ⟨before, after, by rw [h]; simp⟩
  · rintro ⟨before, after, h⟩
    exact ⟨before, after, by rw [← h]; simp⟩

variable {cs : List Char}

theorem hasOpening_of_pathAt? {path : List Char} (h : pathAt? cs = some path) : hasOpening cs := by
  have hopening : selfOpening = '$' :: '\x7b' :: "self:".toList := rfl
  unfold pathAt? at h
  split at h
  · rename_i hprefix
    obtain ⟨rest, rfl⟩ := List.isPrefixOf_iff_prefix.1 hprefix
    exact hasOpening_iff.2 ⟨[], _, rfl⟩
  · cases h

/-- A text that has a path has the opening of a reference. -/
theorem hasOpening_of_paths (h : paths cs ≠ []) : hasOpening cs := by
  induction cs with
  | nil => exact absurd rfl h
  | cons c rest ih =>
    rw [paths] at h
    cases hpath : pathAt? (c :: rest) with
    | some path => exact hasOpening_of_pathAt? hpath
    | none =>
      rw [hpath, Option.toList_none, List.nil_append] at h
      exact hasOpening_append_right [c] (ih h)

/-- A variable that the environment itself gives has a settled value. -/
theorem isSettled_resolvedText (config : Value) (text : String) : IsSettled (resolvedText config text) := by
  unfold resolvedText
  dsimp only
  split
  · exact .inr ⟨_, rfl, isResolvedText_iff.1 ‹_›⟩
  · split
    · exact .inr ⟨_, rfl, isResolvedText_iff.1 ‹_›⟩
    · exact .inl rfl

section

variable {config : Value} {level : Except Fault Value} {name : Selector} {v : Value} {environment : Value}

theorem levelValue_of_part (h : level >>= Value.get "environment" = .ok environment)
    (hpart : name.part environment = .ok v) : levelValue config level name = resolvedText config v.display := by
  rw [levelValue, h]
  simp [hpart]

theorem levelValue_of_missing {fault : Fault} (h : level >>= Value.get "environment" = .ok environment)
    (hpart : name.part environment = .error fault) :
    levelValue config level name = referredValue config environment.display name := by
  rw [levelValue, h]
  simp [hpart]

/-- What another section gives is taken as it stands there. -/
theorem Refers.levelValue_eq (h : Refers config level name v) : levelValue config level name = v := by
  obtain ⟨environment, fault, path, henvironment, hpart, hpath, hvalue⟩ := h
  obtain ⟨rest, hpaths⟩ := List.head?_eq_some_iff.1 hpath
  have hopening : hasOpening environment.display.toList = true :=
    hasOpening_of_paths (by rw [hpaths]; exact List.cons_ne_nil _ _)
  rw [levelValue_of_missing henvironment hpart, referredValue, isResolvedText, hopening, hpaths]
  simp only [hvalue]
  rfl

/-- A level that neither has a variable nor takes it from another section gives nothing. -/
theorem levelValue_eq_null (hpart : ∀ environment v, level >>= Value.get "environment" = .ok environment →
    name.part environment ≠ .ok v) (h : ∀ v, ¬Refers config level name v) : levelValue config level name = .null := by
  cases henvironment : level >>= Value.get "environment" with
  | error fault => rw [levelValue, henvironment]
  | ok environment =>
    cases hmissing : name.part environment with
    | ok v => exact absurd hmissing (hpart environment v henvironment)
    | error fault =>
      rw [levelValue_of_missing henvironment hmissing, referredValue]
      split
      · rfl
      · cases hpaths : paths environment.display.toList with
        | nil => rfl
        | cons path rest =>
          cases hvalue : config.getAll (Text.splitString '.' (String.ofList path)) >>= name.part with
          | error fault => simp [hvalue]
          | ok v => exact absurd ⟨environment, fault, path, henvironment, hmissing, by rw [hpaths]; rfl, hvalue⟩ (h v)

/-- A level that takes nothing from another section gives a settled value. -/
theorem isSettled_levelValue (h : ∀ v, ¬Refers config level name v) : IsSettled (levelValue config level name) := by
  by_cases hpart : ∃ environment v, level >>= Value.get "environment" = .ok environment ∧ name.part environment = .ok v
  · obtain ⟨environment, v, henvironment, hpart⟩ := hpart
    rw [levelValue_of_part henvironment hpart]
    exact isSettled_resolvedText config v.display
  · exact .inl (levelValue_eq_null (fun environment v henvironment hv => hpart ⟨environment, v, henvironment, hv⟩) h)

theorem isSettled_levelValue_iff :
    IsSettled (levelValue config level name) ↔ ∀ v, Refers config level name v → IsSettled v := by
  constructor
  · intro h v hv
    rwa [hv.levelValue_eq] at h
  · intro h
    by_cases hrefers : ∃ v, Refers config level name v
    · obtain ⟨v, hv⟩ := hrefers
      rw [hv.levelValue_eq]
      exact h v hv
    · exact isSettled_levelValue fun v hv => hrefers ⟨v, hv⟩

end

end Environment

open Environment (IsSettled Refers levelValue)

/-- The environment of the provider counts where that of the handler gives nothing. -/
theorem Site.variableValue_eq {info : Value} (h : site.handlerInfo = .ok info) (name : Selector) :
    site.variableValue name = .ok (
      if levelValue site.config site.handlerInfo name = .null then
        levelValue site.config (site.config.get "provider") name
      else levelValue site.config site.handlerInfo name) := by
  rw [Site.variableValue, h, ok_bind]
  cases hlevel : levelValue site.config (.ok info) name <;> rfl

theorem Site.Declared.exists_value (h : site.Declared) (name : Selector) : ∃ v, site.variableValue name = .ok v := by
  obtain ⟨info, hinfo⟩ := h.exists_info
  exact ⟨_, Site.variableValue_eq hinfo name⟩

/-- **Values of environment variables are settled where other sections are.** A variable always has a value or
null. It is null or a text without references if and only if whatever the environment of the handler, or where it
gives nothing that of the provider, takes from another section is. -/
theorem variable_settled_iff {site : Site} (h : site.Declared) (name : Selector) :
    (∃ v, site.variableValue name = .ok v) ∧
      ((∀ v, site.variableValue name = .ok v → IsSettled v) ↔
        (∀ v, Refers site.config site.handlerInfo name v → IsSettled v) ∧
          (levelValue site.config site.handlerInfo name = .null →
            ∀ v, Refers site.config (site.config.get "provider") name v → IsSettled v)) := by
  obtain ⟨info, hinfo⟩ := h.exists_info
  rw [Site.variableValue_eq hinfo]
  refine ⟨⟨_, rfl⟩, ?_⟩
  simp only [Except.ok.injEq, forall_eq']
  rw [← Environment.isSettled_levelValue_iff, ← Environment.isSettled_levelValue_iff]
  by_cases hnull : levelValue site.config site.handlerInfo name = .null
  · rw [if_pos hnull, hnull]
    exact ⟨fun hsettled => ⟨.inl rfl, fun _ => hsettled⟩, fun hboth => hboth.2 rfl⟩
  · rw [if_neg hnull]
    exact ⟨fun hsettled => ⟨hsettled, fun hnull' => absurd hnull' hnull⟩, And.left⟩

/-- A handler whose environment is another section of the configuration. -/
def settingsSite : Site where
  config := .map [
    ("custom", .map [("settings", .map [("STAGE", .str "$\x7bopt:stage\x7d"), ("REGION", .str "eu")])]),
    ("functions", .map [("f", .map [("environment", .str "$\x7bself:custom.settings\x7d")])])]
  handler := .str "f"
  program := .error .missingFile

/-- A variable of that section may have a reference for its value, though another one is settled. -/
theorem reference_taken_from_section :
    settingsSite.Declared ∧
      settingsSite.variableValue (.key "STAGE") = .ok (.str "$\x7bopt:stage\x7d") ∧
      (¬∀ v, settingsSite.variableValue (.key "STAGE") = .ok v → IsSettled v) ∧
      ∀ v, settingsSite.variableValue (.key "REGION") = .ok v → IsSettled v := by
  have hdeclared : settingsSite.Declared := ⟨⟨_, rfl⟩, ⟨_, rfl⟩⟩
  have hregion : levelValue settingsSite.config settingsSite.handlerInfo (.key "REGION") = .str "eu" := rfl
  refine ⟨hdeclared, rfl, fun hsettled => ?_, (variable_settled_iff hdeclared _).2.2 ⟨fun v hv => ?_, fun hnull => ?_⟩⟩
  · obtain ⟨hsection, -⟩ := (variable_settled_iff hdeclared _).2.1 hsettled
    rcases hsection _ ⟨_, _, _, rfl, rfl, rfl, rfl⟩ with hnull | ⟨text, htext, hopening⟩
    · cases hnull
    · cases htext
      exact hopening ⟨[], _, rfl⟩
  · rw [← hv.levelValue_eq, hregion]
    exact .inr ⟨_, rfl, Environment.isResolvedText_iff.1 rfl⟩
  · rw [hregion] at hnull
    cases hnull

open Syntax (Ast Span)

/-- The two forms in which a program reads a variable. -/
inductive ReadForm where
  | subscript
  | call
  deriving DecidableEq, Repr

/-- An expression that reads the variable that `key` stands for, wherever it stands. -/
inductive ReadForm.Reads (key : Ast) : ReadForm → Ast → Prop
  | subscript (whole member object : Option Span) :
    Reads key .subscript (.node .subscript whole [
      .node .attributeRef member [.node .name object [.name "os"], .name "environ"], key])
  | call (whole member object : Option Span) :
    Reads key .call (.node .call whole [
      .node .attributeRef member [.node .name object [.name "os"], .name "getenv"], .list [key], .list []])

def textLiteral (text : String) (span : Option Span) : Ast := .node .constant span [.literal (.str text)]

/-- The only assignment of a program gives a variable the value of an expression. -/
def AssignsOnly (program : Ast) (name : String) (expression : Ast) : Prop :=
  ∃ whole target, program.walkKind .assign = [.node .assign whole [.list [.node .name target [.name name]], expression]]

/-- The same place in another program. -/
def Site.withProgram (site : Site) (program : Ast) : Site := { site with program := .ok program }

namespace Site

variable {site : Site} {key expression : Ast}

/-- A call is read by the value of its argument. -/
theorem inspect_call (h : site.Declared) (hread : ReadForm.Reads key .call expression) :
    site.inspect expression = valueBelow key >>= fun value => site.variableValue (.ofTree value) := by
  obtain ⟨info, hinfo⟩ := h.exists_info
  cases hread
  rw [inspect, hinfo, ok_bind]
  change ((valueBelow key >>= fun value => pure (Selector.ofTree value)) >>= site.variableValue) = _
  cases valueBelow key <;> rfl

/-- A subscript is read like a call with what stands below its index. -/
theorem inspect_subscript (h : site.Declared) (hread : ReadForm.Reads key .subscript expression) :
    site.inspect expression = valueBelow key >>= fun below =>
      valueBelow below >>= fun value => site.variableValue (.ofTree value) := by
  obtain ⟨info, hinfo⟩ := h.exists_info
  cases hread
  rw [inspect, hinfo, ok_bind]
  change ((valueBelow key >>= fun below => valueBelow below >>= fun value =>
    pure (Selector.ofTree value)) >>= site.variableValue) = _
  cases valueBelow key with
  | error fault => rfl
  | ok below =>
    rw [ok_bind, ok_bind]
    cases valueBelow below <;> rfl

/-- A variable of the program is read by the expression that is assigned to it. -/
theorem inspect_name {form : ReadForm} (h : site.Declared) (hread : form.Reads key expression) {program : Ast}
    {name : String} (hassigns : AssignsOnly program name expression) (place : Option Span) :
    (site.withProgram program).inspect (.node .name place [.name name]) = site.inspect expression := by
  obtain ⟨info, hinfo⟩ := h.exists_info
  obtain ⟨whole, target, hassigns⟩ := hassigns
  have hinfo' : (site.withProgram program).handlerInfo = .ok info := hinfo
  have hvalues : program.assignedTo (.str name) = [.ok expression] := by
    simp [Ast.assignedTo, hassigns, Value.isText, Value.text?]
  rw [inspect, hinfo', ok_bind]
  rw [assignedValue, hinfo', ok_bind]
  change firstRead _ (program.assignedTo (.str name)) = _
  rw [hvalues]
  cases hread <;> rw [inspect, hinfo, ok_bind] <;> rfl

end Site

/-- **Only calls read the variable that a literal names.** The variable has a value or null. An expression that reads
it by a literal gives this value if it is a call, and a fault if it is a subscript; and a variable of the program to
which nothing else is assigned gives what the expression gives. -/
theorem literal_read_iff {site : Site} (h : site.Declared) {form : ReadForm} {wanted : String} {span : Option Span}
    {expression : Ast} (hread : form.Reads (textLiteral wanted span) expression) :
    ∃ value, site.variableValue (.key wanted) = .ok value ∧
      (site.inspect expression = .ok value ↔ form = .call) ∧
      (form = .subscript → site.inspect expression = .error .missingAttribute) ∧
      ∀ program name, AssignsOnly program name expression → ∀ place,
        (site.withProgram program).inspect (.node .name place [.name name]) = site.inspect expression := by
  obtain ⟨value, hvalue⟩ := h.exists_value (.key wanted)
  refine ⟨value, hvalue, ?_, ?_, fun program name hassigns place => Site.inspect_name h hread hassigns place⟩
  · cases form with
    | subscript =>
      rw [Site.inspect_subscript h hread]
      exact ⟨fun hread => (by cases hread), fun hform => (by cases hform)⟩
    | call =>
      rw [Site.inspect_call h hread]
      exact ⟨fun _ => rfl, fun _ => hvalue⟩
  · rintro rfl
    rw [Site.inspect_subscript h hread]
    rfl

def bucketSite : Site where
  config := .map [("functions", .map [("f", .map [("environment", .map [("BUCKET", .str "uploads")])])])]
  handler := .str "f"
  program := .error .missingFile

def onFirstLine (start stop : Nat) : Option Span := some ⟨⟨1, start⟩, ⟨1, stop⟩⟩

def bucketSubscript : Ast := .node .subscript (onFirstLine 0 20) [
  .node .attributeRef (onFirstLine 0 10) [.node .name (onFirstLine 0 2) [.name "os"], .name "environ"],
  textLiteral "BUCKET" (onFirstLine 11 19)]

def bucketCall (column : Nat) : Ast := .node .call (onFirstLine column (column + 19)) [
  .node .attributeRef (onFirstLine column (column + 9)) [
    .node .name (onFirstLine column (column + 2)) [.name "os"], .name "getenv"],
  .list [textLiteral "BUCKET" (onFirstLine (column + 10) (column + 18))], .list []]

def bucketAssignment : Ast :=
  .node .assign (onFirstLine 0 28) [.list [.node .name (onFirstLine 0 6) [.name "bucket"]], bucketCall 9]

def bucketProgram : Ast := .node .module none [.list [bucketAssignment]]

/-- The call reads the variable, directly and by a variable of the program, and the subscript ends in a fault. -/
theorem bucket_read_by_call_only :
    Syntax.parseExpression "os.environ['BUCKET']" = .ok bucketSubscript ∧
      Syntax.parseExpression "os.getenv('BUCKET')" = .ok (bucketCall 0) ∧
      Syntax.parseModule "bucket = os.getenv('BUCKET')\n" = .ok bucketProgram ∧ bucketSite.Declared ∧
      bucketSite.inspect bucketSubscript = .error .missingAttribute ∧
      bucketSite.inspect (bucketCall 0) = .ok (.str "uploads") ∧
      (bucketSite.withProgram bucketProgram).inspect (.node .name none [.name "bucket"]) = .ok (.str "uploads") := by
  have hdeclared : bucketSite.Declared := ⟨⟨_, rfl⟩, ⟨_, rfl⟩⟩
  have hvalue : bucketSite.variableValue (.key "BUCKET") = .ok (.str "uploads") := rfl
  have hsubscript : ReadForm.Reads (textLiteral "BUCKET" (onFirstLine 11 19)) .subscript bucketSubscript :=
    .subscript _ _ _
  have hcall : ∀ column, ReadForm.Reads (textLiteral "BUCKET" (onFirstLine (column + 10) (column + 18))) .call
      (bucketCall column) := fun _ => .call _ _ _
  have hread : ∀ column, bucketSite.inspect (bucketCall column) = .ok (.str "uploads") := by
    intro column
    obtain ⟨value, hfound, hiff, -⟩ := literal_read_iff hdeclared (hcall column)
    rw [hiff.2 rfl, ← hfound, hvalue]
  obtain ⟨-, -, -, hfault, -⟩ := literal_read_iff hdeclared hsubscript
  obtain ⟨-, -, -, -, hname⟩ := literal_read_iff hdeclared (hcall 9)
  refine ⟨?_, ?_, ?_, hdeclared, hfault rfl, hread 0, (hname bucketProgram "bucket" ⟨_, _, rfl⟩ none).trans (hread 9)⟩
  · exact eq_ok_of_toOption (by decide +kernel)
  · exact eq_ok_of_toOption (by decide +kernel)
  · exact eq_ok_of_toOption (by decide +kernel)

end ServerlessTaint
