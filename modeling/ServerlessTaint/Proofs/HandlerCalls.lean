import ServerlessTaint.Proofs.HandlerLocations

/-!
# Calls of handlers

The location of a handler designates a source file and a function in it. The statement that is put into a program
for the handler should call that function: by its bare name in the designated file itself, and by the name of its
module in any other (`CallsFrom`). It is made from the first two names of the last part of the location, and the file
is taken for the designated one if its name is the first of them. So the function is called if and only if these two
are the names of the module and of the function, and no other file of the module's name is at work
(`called_from_iff`).
-/

namespace ServerlessTaint

open List Text ServerlessTaint.Path

/-! ## Last parts -/

variable {separator : Char} {text : String} {cs : List Char}

theorem Text.not_mem_of_mem_splitAt {piece : List Char} (h : piece ∈ splitAt separator cs) :
    separator ∉ piece := by
  induction cs generalizing piece with
  | nil =>
    rw [splitAt, mem_singleton] at h
    exact h ▸ not_mem_nil
  | cons c rest ih =>
    rw [splitAt] at h
    split at h
    · rcases mem_cons.1 h with rfl | h
      · exact not_mem_nil
      · exact ih h
    · rename_i hc
      cases hsplit : splitAt separator rest with
      | nil => exact absurd hsplit (splitAt_ne_nil rest)
      | cons first pieces =>
        rw [hsplit] at h ih
        rcases mem_cons.1 h with rfl | h
        · exact not_mem_cons_of_ne_of_not_mem (Ne.symm hc) (ih mem_cons_self)
        · exact ih (mem_cons_of_mem _ h)

theorem Text.splitString_of_not_mem (h : separator ∉ text.toList) : splitString separator text = [text] := by
  rw [splitString, splitAt_of_not_mem h, map_singleton, String.ofList_toList]

theorem Text.not_mem_of_mem_splitString {piece : String} (h : piece ∈ splitString separator text) :
    separator ∉ piece.toList := by
  obtain ⟨cs, hcs, rfl⟩ := mem_map.1 h
  rw [String.toList_ofList]
  exact not_mem_of_mem_splitAt hcs

/-- A text with a separator has at least two pieces. -/
theorem Text.exists_splitString_eq (h : separator ∈ text.toList) :
    ∃ first second more, splitString separator text = first :: second :: more := by
  obtain ⟨front, rest, hsplit⟩ := append_of_mem h
  obtain ⟨first, more, hfront⟩ := exists_cons_of_ne_nil (@splitAt_ne_nil separator front)
  obtain ⟨second, others, hrest⟩ := exists_cons_of_ne_nil (@splitAt_ne_nil separator rest)
  rw [splitString, hsplit, splitAt_append, hfront, hrest]
  cases more <;> exact ⟨_, _, _, rfl⟩

/-- A text with a separator ends with the last one and what stands after it. -/
theorem Text.exists_eq_append_afterLast (h : separator ∈ cs) :
    ∃ front, cs = front ++ separator :: (cs.reverse.takeWhile (· != separator)).reverse := by
  obtain ⟨after, front, hcs, hafter⟩ := eq_append_cons_of_mem (mem_reverse.2 h)
  have htake : cs.reverse.takeWhile (· != separator) = after := by
    rw [hcs, takeWhile_append_of_pos, takeWhile_cons_of_neg (by simp), append_nil]
    intro c hc
    exact bne_iff_ne.2 fun heq => hafter (heq ▸ hc)
  refine ⟨front.reverse, ?_⟩
  rw [htake, ← reverse_inj, hcs]
  simp

/-- Every path is a folder and a name. -/
theorem Path.exists_eq_append (cs : List Char) : ∃ path name, cs = path ++ name ∧ IsOpen path ∧ '/' ∉ name := by
  induction cs with
  | nil => exact ⟨[], [], rfl, isOpen_nil, not_mem_nil⟩
  | cons c rest ih =>
    obtain ⟨path, name, rfl, hpath, hname⟩ := ih
    by_cases hc : c = '/'
    · subst hc
      exact ⟨'/' :: path, name, rfl, IsOpen.append (isOpen_concat []) hpath, hname⟩
    · rcases hpath.eq with rfl | ⟨above, rfl⟩
      · exact ⟨[], c :: name, rfl, isOpen_nil, not_mem_cons_of_ne_of_not_mem (Ne.symm hc) hname⟩
      · exact ⟨c :: above ++ ['/'], name, by simp, isOpen_concat _, hname⟩

/-- The last part of a path is its leaf. -/
theorem Path.getLast?_parts (path : String) : (parts path).getLast? = some (leaf path) := by
  obtain ⟨front, name, hpath, hfront, hname⟩ := exists_eq_append path.toList
  rw [← String.ofList_toList (s := path), hpath, leaf_append hfront hname, parts, splitString,
    String.toList_ofList, getLast?_map, getLast?_splitAt_append hfront hname]
  rfl

/-! ## What a location designates -/

theorem Value.exists_entries_of_get {key : String} {v w : Value} (h : v.get key = .ok w) :
    ∃ entries, v = .map entries ∧ Keyed.find? key entries = some w := by
  cases v with
  | map entries =>
    refine ⟨entries, rfl, ?_⟩
    rw [Value.get] at h
    split at h
    · rename_i found hfind
      rw [hfind, Except.ok.inj h]
    · cases h
  | _ => cases h

theorem Value.exists_of_getAll {config v : Value} {first second third : String}
    (h : config.getAll [first, second, third] = .ok v) :
    ∃ outer inner, config.get first = .ok outer ∧ outer.get second = .ok inner ∧ inner.get third = .ok v := by
  rw [Value.getAll, foldlM_cons, bind_eq_ok_iff] at h
  obtain ⟨outer, houter, h⟩ := h
  rw [foldlM_cons, bind_eq_ok_iff] at h
  obtain ⟨inner, hinner, h⟩ := h
  rw [foldlM_cons, bind_eq_ok_iff] at h
  obtain ⟨found, hfound, h⟩ := h
  obtain rfl : found = v := Except.ok.inj h
  exact ⟨outer, inner, houter, hinner, hfound⟩

namespace HandlerModel

def lastPart (location : String) : String := (Path.parts location).getLast?.getD ""

variable {config : Value} {location path function handler : String} {l : Location}

theorem lastPart_eq_leaf (location : String) : lastPart location = leaf location := by
  rw [lastPart, getLast?_parts]
  rfl

/-- A location that can be read ends with a dot and a name, but for a line end. -/
theorem exists_eq_of_locationParts? (h : locationParts? location = some (path, function)) :
    ∃ front rest, location.toList = front ++ '.' :: rest ∧ '/' ∉ rest := by
  obtain ⟨lines, tail, hlocation, htail, hlines⟩ : ∃ lines tail, location.toList = lines ++ tail ∧ '/' ∉ tail ∧
      (if location.toList.getLast? == some '\n' then location.toList.dropLast else location.toList) = lines := by
    by_cases hend : location.toList.getLast? = some '\n'
    · obtain ⟨lines, hlines⟩ := getLast?_eq_some_iff.1 hend
      exact ⟨lines, ['\n'], hlines, by decide, by simp [hlines]⟩
    · exact ⟨_, [], (append_nil _).symm, not_mem_nil, by simp [hend]⟩
  obtain ⟨before, line, hbefore, hline⟩ : ∃ before line, lines = before ++ line ∧
      (lines.reverse.takeWhile (· != '\n')).reverse = line := by
    obtain ⟨before, heq⟩ := reverse_suffix.2 ( takeWhile_prefix (l := lines.reverse) (· != '\n'))
    exact ⟨before, _, by rw [heq, reverse_reverse], rfl⟩
  simp only [locationParts?, hlines, hline] at h
  split at h
  · rename_i hread
    simp only [Bool.and_eq_true, contains_eq_mem, decide_eq_true_eq] at hread
    obtain ⟨⟨hdot, -⟩, hword⟩ := hread
    obtain ⟨above, habove⟩ := exists_eq_append_afterLast hdot
    refine ⟨before ++ above, (line.reverse.takeWhile (· != '.')).reverse ++ tail, ?_, ?_⟩
    · rw [hlocation, hbefore, append_assoc, append_assoc, ← cons_append, ← append_assoc above,
        ← habove]
    · rw [mem_append, not_or]
      refine ⟨fun hmem => ?_, htail⟩
      have hslash := all_eq_true.1 hword '/' hmem
      revert hslash
      decide
  · cases h

theorem exists_eq_of_dropHere {front rest : List Char} (h : (dropHere location).toList = front ++ rest) :
    ∃ front', location.toList = front' ++ rest := by
  unfold dropHere at h
  split at h
  · rename_i cs heq
    rw [String.toList_ofList] at h
    exact ⟨'.' :: '/' :: front, by rw [heq, h]; rfl⟩
  · exact ⟨front, h⟩

/-- The last part of a location that can be read has a dot. -/
theorem dot_mem_lastPart (h : locationParts? (dropHere location) = some (path, function)) :
    '.' ∈ (lastPart location).toList := by
  obtain ⟨front, rest, hdropped, hrest⟩ := exists_eq_of_locationParts? h
  obtain ⟨front, hlocation⟩ := exists_eq_of_dropHere hdropped
  obtain ⟨folder, name, rfl, hfolder, hname⟩ := exists_eq_append front
  rw [lastPart_eq_leaf, ← String.ofList_toList (s := location), hlocation, append_assoc,
    leaf_append hfolder (by simp [hname, hrest])]
  simp

/-- A location that designates a function has been read, and its last part is two names at least. -/
theorem exists_names_of_located {base target : String}
    (hlocation : config.getAll ["functions", handler, "handler"] = .ok (.str location))
    (hlocated : located config base handler = .ok (target, function)) :
    ∃ first second more, splitString '.' (lastPart location) = first :: second :: more := by
  obtain ⟨value, hvalue, hread⟩ := bind_eq_ok_iff.1 hlocated
  obtain rfl : Value.str location = value := Except.ok.inj (hlocation.symm.trans hvalue)
  obtain ⟨text, htext, hread⟩ := bind_eq_ok_iff.1 hread
  obtain rfl : location = text := Except.ok.inj htext
  cases hparts : locationParts? (dropHere location) with
  | none =>
    rw [hparts] at hread
    cases hread
  | some parts => exact exists_splitString_eq (dot_mem_lastPart hparts)

/-- What a location designates, read from the configuration. -/
theorem located_of_getAll (base : String)
    (hlocation : config.getAll ["functions", handler, "handler"] = .ok (.str (String.ofList l.text))) :
    located config base handler = .ok (l.file base, String.ofList l.function) := by
  obtain ⟨functions, info, hfunctions, hinfo, hhandler⟩ := Value.exists_of_getAll hlocation
  obtain ⟨entries, rfl, hentry⟩ := Value.exists_entries_of_get hinfo
  exact l.located_eq base hfunctions hentry hhandler

/-- With nothing but slashes above the module, the last part of a location is the module and the function. -/
theorem names_lastPart (h : IsOpen l.above) :
    splitString '.' (lastPart (String.ofList l.text)) = [String.ofList l.module, String.ofList l.function] := by
  have hslash : '/' ∉ l.module ++ '.' :: l.function := by
    simp [l.not_mem_module (c := '/') (by simp), l.slash_not_mem_function]
  rw [lastPart_eq_leaf, Location.text, leaf_append h hslash, splitString, String.toList_ofList, splitAt_append,
    splitAt_of_not_mem (l.not_mem_module (by simp)), splitAt_of_not_mem l.dot_not_mem_function]
  rfl

end HandlerModel

/-! ## Names of functions -/

namespace Injection

open Syntax (Ast)
open HandlerModel (lastPart)

def plainName (name : String) : Ast := .node .name none [.name name]

/-- A name in what another expression stands for. -/
def nameIn (receiver : Ast) (name : String) : Ast := .node .attributeRef none [receiver, .name name]

/-- Names with dots between. -/
def dottedName (first : String) (more : List String) : Ast := more.foldl nameIn (plainName first)

/-- The statement that calls a function with an event and a context. -/
def callOf (callee : Ast) : Ast :=
  .node .exprStmt none [.node .call none [callee, .list [plainName "event", plainName "context"], .list []]]

def sourceModule (file : String) : String := Path.leaf (Path.stem file)

/-- A statement in a file calls a function of a target file: by its bare name if the two are the same file, and
otherwise in the module, which is named by the end of its path, however much of it. -/
def CallsFrom (file target function : String) (statement : Ast) : Prop :=
  ∃ callee, statement = callOf callee ∧
    if file = target then callee = plainName function
    else ∃ first more, first :: more <:+ Path.parts (Path.stem target) ∧ callee = nameIn (dottedName first more) function

variable {name name' first : String} {more : List String}

@[simp] theorem plainName_inj : plainName name = plainName name' ↔ name = name' := by
  simp [plainName]

@[simp] theorem nameIn_inj {receiver receiver' : Ast} :
    nameIn receiver name = nameIn receiver' name' ↔ receiver = receiver' ∧ name = name' := by
  simp [nameIn]

theorem nameIn_ne_plainName (receiver : Ast) (name name' : String) : nameIn receiver name ≠ plainName name' := by
  simp [nameIn, plainName]

@[simp] theorem callOf_inj {callee callee' : Ast} : callOf callee = callOf callee' ↔ callee = callee' := by
  simp [callOf]

theorem dottedName_eq_plainName_iff : dottedName first more = plainName name ↔ first = name ∧ more = [] := by
  rcases eq_nil_or_concat more with rfl | ⟨front, last, rfl⟩
  · simp [dottedName]
  · simp [dottedName, nameIn_ne_plainName]

/-- A module is named by a bare name only if this is the name of its file. -/
theorem exists_dottedName_iff {target : String} :
    (∃ first more, first :: more <:+ parts (stem target) ∧ plainName name = dottedName first more) ↔
      name = sourceModule target := by
  have hlast : [name] <:+ parts (stem target) ↔ name = sourceModule target := by
    rw [singleton_suffix_iff_getLast?_eq_some, getLast?_parts, Option.some.injEq, eq_comm, sourceModule]
  rw [← hlast]
  constructor
  · rintro ⟨first, more, hsuffix, heq⟩
    obtain ⟨rfl, rfl⟩ := dottedName_eq_plainName_iff.1 heq.symm
    exact hsuffix
  · exact fun h => ⟨name, [], h, rfl⟩

section

variable {file target function : String}

theorem callsFrom_callOf {callee : Ast} :
    CallsFrom file target function (callOf callee) ↔
      if file = target then callee = plainName function
      else ∃ first more, first :: more <:+ parts (stem target) ∧
        callee = nameIn (dottedName first more) function := by
  constructor
  · rintro ⟨callee', heq, hcallee⟩
    rwa [callOf_inj.1 heq]
  · exact fun h => ⟨callee, rfl, h⟩

theorem callsFrom_plainName {name : String} :
    CallsFrom file target function (callOf (plainName name)) ↔ file = target ∧ name = function := by
  rw [callsFrom_callOf]
  split
  · rename_i hfile
    simp [hfile]
  · rename_i hfile
    refine iff_of_false ?_ fun h => hfile h.1
    rintro ⟨first, more, -, heq⟩
    exact nameIn_ne_plainName _ _ _ heq.symm

theorem callsFrom_nameIn {first second : String} :
    CallsFrom file target function (callOf (nameIn (plainName first) second)) ↔
      file ≠ target ∧ first = sourceModule target ∧ second = function := by
  rw [callsFrom_callOf]
  split
  · rename_i hfile
    exact iff_of_false (nameIn_ne_plainName _ _ _) fun h => h.1 hfile
  · rename_i hfile
    rw [← exists_dottedName_iff]
    simp only [nameIn_inj, ne_eq, hfile, not_false_eq_true, true_and]
    constructor
    · rintro ⟨front, more, hsuffix, hreceiver, hsecond⟩
      exact ⟨⟨front, more, hsuffix, hreceiver⟩, hsecond⟩
    · rintro ⟨⟨front, more, hsuffix, hreceiver⟩, hsecond⟩
      exact ⟨front, more, hsuffix, hreceiver, hsecond⟩

end

/-! ## The statement for a handler -/

theorem handlerCall_of_plain (h : '.' ∉ name.toList) : handlerCall name = callOf (plainName name) := by
  rw [handlerCall, splitString_of_not_mem h]
  rfl

theorem handlerCall_of_names {second : String} (h : splitString '.' name = first :: second :: more) :
    handlerCall name = callOf (nameIn (plainName first) second) := by
  rw [handlerCall, h]
  rfl

section

variable {config : Value} {handler location first second : String} {more : List String} (file : String)
  (hlocation : config.getAll ["functions", handler, "handler"] = .ok (.str location))
  (hnames : Text.splitString '.' (lastPart location) = first :: second :: more)

include hlocation hnames

theorem calledName_eq :
    Application.calledName config file (.str handler) =
      .ok (if first = sourceModule file then second else lastPart location) := by
  obtain ⟨functions, info, hfunctions, hinfo, hvalue⟩ := Value.exists_of_getAll hlocation
  refine bind_eq_ok_iff.2 ⟨functions, hfunctions, bind_eq_ok_iff.2 ⟨info, hinfo, bind_eq_ok_iff.2 ⟨_, hvalue, ?_⟩⟩⟩
  have hparts : splitString '.' ((splitString '/' location).getLast?.getD "") = first :: second :: more :=
    hnames
  simp only [pure_bind, hparts, beq_iff_eq]
  exact (apply_ite Except.ok (first = sourceModule file) second (lastPart location)).symm

/-- The statement for a handler is made from the first two names of the last part of its location. -/
theorem exists_handlerCall_eq :
    ∃ name, Application.calledName config file (.str handler) = .ok name ∧
      handlerCall name = callOf
        (if first = sourceModule file then plainName second else nameIn (plainName first) second) := by
  refine ⟨_, calledName_eq file hlocation hnames, ?_⟩
  split
  · have hsecond : second ∈ splitString '.' (lastPart location) := by simp [hnames]
    exact handlerCall_of_plain (not_mem_of_mem_splitString hsecond)
  · exact handlerCall_of_names hnames

end

/-- **When the statement for a handler calls its function.** For every location that designates a source file and a
function, and for every file into which the statement is put, there is a name to call. The statement calls the function,
by its bare name in the designated file and by its module in any other, if and only if the first two names of the last
part of the location are those of the module and of the function, which is so if no dot stands between folders, and the
file is the designated one if it has its name. -/
theorem called_from_iff {config : Value} {base handler location target function : String} (file : String)
    (hlocation : config.getAll ["functions", handler, "handler"] = .ok (.str location))
    (hlocated : HandlerModel.located config base handler = .ok (target, function)) :
    (∃ name, Application.calledName config file (.str handler) = .ok name ∧
      (CallsFrom file target function (handlerCall name) ↔
        (Text.splitString '.' (lastPart location)).take 2 = [sourceModule target, function] ∧
          (sourceModule file = sourceModule target → file = target))) ∧
      ∀ l : Location, location = String.ofList l.text → Path.IsOpen l.above →
        (Text.splitString '.' (lastPart location)).take 2 = [sourceModule target, function] := by
  obtain ⟨first, second, more, hnames⟩ := HandlerModel.exists_names_of_located hlocation hlocated
  obtain ⟨name, hname, hcall⟩ := exists_handlerCall_eq file hlocation hnames
  have htwo : (Text.splitString '.' (lastPart location)).take 2 = [sourceModule target, function] ↔
      first = sourceModule target ∧ second = function := by
    rw [hnames]
    simp
  refine ⟨⟨name, hname, ?_⟩, ?_⟩
  · rw [htwo, hcall]
    by_cases hfirst : first = sourceModule file
    · -- the file passes for the designated one
      rw [if_pos hfirst, callsFrom_plainName]
      constructor
      · rintro ⟨rfl, hsecond⟩
        exact ⟨⟨hfirst, hsecond⟩, fun _ => rfl⟩
      · rintro ⟨⟨hmodule, hsecond⟩, hsame⟩
        exact ⟨hsame (hfirst.symm.trans hmodule), hsecond⟩
    · rw [if_neg hfirst, callsFrom_nameIn]
      constructor
      · rintro ⟨-, hmodule, hsecond⟩
        exact ⟨⟨hmodule, hsecond⟩, fun hfile => absurd (hmodule.trans hfile.symm) hfirst⟩
      · rintro ⟨⟨hmodule, hsecond⟩, -⟩
        exact ⟨fun hfile => hfirst (hfile ▸ hmodule), hmodule, hsecond⟩
  · rintro l rfl habove
    have hread := HandlerModel.located_of_getAll base hlocation
    obtain ⟨rfl, rfl⟩ := Prod.mk.inj (Except.ok.inj (hlocated.symm.trans hread))
    rw [HandlerModel.names_lastPart habove, sourceModule, l.leaf_stem_file]
    rfl

def oneHandler (location : String) : Value :=
  .map [("functions", .map [("handle", .map [("handler", .str location)])])]

/-- The function of a module in a folder is called from beside the folder, but not from a file there that has the name
of the module. With a dot for the slash it is not even called from its own file. -/
theorem same_name_taken_for_designated :
    (∃ name, Application.calledName (oneHandler "api/app.run") "/r/main.py" (.str "handle") = .ok name ∧
      CallsFrom "/r/main.py" "/r/api/app.py" "run" (handlerCall name)) ∧
    (∃ name, Application.calledName (oneHandler "api/app.run") "/r/app.py" (.str "handle") = .ok name ∧
      ¬CallsFrom "/r/app.py" "/r/api/app.py" "run" (handlerCall name)) ∧
    ∃ name, Application.calledName (oneHandler "api.app.run") "/r/api/app.py" (.str "handle") = .ok name ∧
      ¬CallsFrom "/r/api/app.py" "/r/api/app.py" "run" (handlerCall name) := by
  have hslash : HandlerModel.located (oneHandler "api/app.run") "/r" "handle" = .ok ("/r/api/app.py", "run") :=
    eq_ok_of_toOption (by decide +kernel)
  have hdot : HandlerModel.located (oneHandler "api.app.run") "/r" "handle" = .ok ("/r/api/app.py", "run") :=
    eq_ok_of_toOption (by decide +kernel)
  have hmodule : sourceModule "/r/api/app.py" = "app" := by decide +kernel
  refine ⟨?_, ?_, ?_⟩
  · obtain ⟨⟨name, hname, hiff⟩, -⟩ := called_from_iff "/r/main.py" rfl hslash
    exact ⟨name, hname, hiff.2 ⟨by decide +kernel, fun h => absurd h (by decide +kernel)⟩⟩
  · obtain ⟨⟨name, hname, hiff⟩, -⟩ := called_from_iff "/r/app.py" rfl hslash
    exact ⟨name, hname, fun h => absurd ((hiff.1 h).2 (by decide +kernel)) (by decide)⟩
  · obtain ⟨⟨name, hname, hiff⟩, -⟩ := called_from_iff "/r/api/app.py" rfl hdot
    exact ⟨name, hname, fun h => absurd (hiff.1 h).1 (by decide +kernel)⟩

end Injection

end ServerlessTaint
