import ServerlessTaint.Plugin.StateMachines
import ServerlessTaint.Proofs.Fault
import ServerlessTaint.Proofs.Statements

/-!
# Events of state machines

The functions of the states of a machine get the events of the machine. Machines, entries and states are gone
through in turn, and each of the three only up to the first member that cannot be read: a state without a
function hides the states after it, and an entry without a method the entries and machines after it
(`machine_events_iff`).
-/

namespace ServerlessTaint.StateMachines

open List
open Grants (readPart)

/-! ## Functions of states -/

/-- A text ends in a hyphen and a name. -/
def EndsIn (name : String) (cs : List Char) : Prop :=
  name ≠ "" ∧ name.toList.all Text.isWord ∧ ∃ before, cs = before ++ '-' :: name.toList

/-- A text without the line end that may follow. -/
def unended (text : String) : List Char :=
  if text.toList.getLast? == some '\n' then text.toList.dropLast else text.toList

theorem functionName?_eq_some_iff {resource function : String} :
    functionName? resource = some function ↔ EndsIn function (unended resource) := by
  have hcs : (if resource.toList.getLast? == some '\n' then resource.toList.dropLast else resource.toList) =
      unended resource := rfl
  simp only [functionName?, hcs]
  generalize unended resource = cs
  constructor
  · intro h
    have hcs := takeWhile_append_dropWhile (p := Text.isWord) (l := cs.reverse)
    have hword : (cs.reverse.takeWhile Text.isWord).all Text.isWord := all_takeWhile
    generalize cs.reverse.takeWhile Text.isWord = last at hcs hword h
    rw [← hcs] at h
    simp only [length_reverse, drop_left, isEmpty_reverse] at h
    split at h
    · cases h
    · next hne =>
      split at h
      · next hhead =>
        cases h
        obtain ⟨before, hbefore⟩ := head?_eq_some_iff.1 hhead
        refine ⟨by simpa using hne, by simpa using hword, before.reverse, ?_⟩
        rw [← reverse_reverse cs, ← hcs, hbefore]
        simp
      · cases h
  · rintro ⟨hne, hword, before, rfl⟩
    have htake : (function.toList.reverse ++ '-' :: before.reverse).takeWhile Text.isWord = function.toList.reverse := by
      rw [takeWhile_append_of_pos (by simpa using hword), takeWhile_cons_of_neg (by decide), append_nil]
    simp [htake, hne]

/-- The keys of a map or the items of a list. -/
def keysOf (v : Value) : List Value := v.elements.toOption.getD []

/-- A state has a resource that ends in the name of a function, with a line end after it or not. -/
def HasFunction (states state : Value) (function : String) : Prop :=
  ∃ name resource, state = .str name ∧ states.getAll [name, "Resource"] = .ok (.str resource) ∧
    EndsIn function (unended resource)

section

variable {config machine states state : Value} {function : String}

theorem stateFunction_eq_ok_iff : stateFunction states state = .ok function ↔ HasFunction states state function := by
  unfold stateFunction HasFunction
  simp only [← functionName?_eq_some_iff, bind_eq_ok_iff, Value.getAll, foldlM_cons, foldlM_nil]
  constructor
  · rintro ⟨name, hname, member, hmember, found, hfound, resource, hresource, h⟩
    cases state <;> cases hname
    cases found <;> cases hresource
    refine ⟨name, resource, rfl, ⟨member, hmember, _, hfound, rfl⟩, ?_⟩
    cases hown : functionName? resource with
    | none => rw [hown] at h; cases h
    | some own => rw [hown] at h; cases h; rfl
  · rintro ⟨name, resource, rfl, ⟨member, hmember, _, hfound, ⟨⟩⟩, h⟩
    exact ⟨name, rfl, member, hmember, _, hfound, resource, rfl, by rw [h]; rfl⟩

/-- The functions of the states before the first one without a function, if they are declared. -/
def Runs (config machine : Value) (function : String) : Prop :=
  (config.get "functions" >>= Value.holds function) = .ok true ∧
    ∃ states, machine.getAll ["definition", "States"] = .ok states ∧
      ∃ state ∈ (keysOf states).takeWhile (fun s => (stateFunction states s).isOk), HasFunction states state function

/-- Where one name cannot be looked up, no name is declared. -/
theorem not_declared_of_error {own : String} {fault : Fault}
    (h : (config.get "functions" >>= Value.holds own) = .error fault) :
    (config.get "functions" >>= Value.holds function) ≠ .ok true := by
  cases hfunctions : config.get "functions" with
  | error _ => simp [bind, Except.bind]
  | ok functions =>
    rw [hfunctions, ok_bind] at h
    rw [ok_bind]
    cases functions <;> cases h <;> rintro ⟨⟩

theorem mem_functionsUntilFault {names : List Value} :
    function ∈ functionsUntilFault (config.get "functions") states names ↔
      (config.get "functions" >>= Value.holds function) = .ok true ∧
        ∃ state ∈ names.takeWhile (fun s => (stateFunction states s).isOk), stateFunction states state = .ok function := by
  induction names with
  | nil => simp [functionsUntilFault]
  | cons state rest ih =>
    rw [functionsUntilFault]
    cases hstate : stateFunction states state with
    | error _ => simp [hstate, Except.isOk, Except.toBool]
    | ok own =>
      have hread : (state :: rest).takeWhile (fun s => (stateFunction states s).isOk) =
          state :: rest.takeWhile (fun s => (stateFunction states s).isOk) :=
        takeWhile_cons_of_pos (by rw [hstate]; rfl)
      simp only [hread, mem_cons, exists_eq_or_imp, hstate, Except.ok.injEq]
      cases hown : config.get "functions" >>= Value.holds own with
      | error _ => simp [not_declared_of_error hown]
      | ok held =>
        by_cases hsame : own = function
        · subst hsame
          cases held <;> simp [ih, hown]
        · cases held <;> simp [ih, hsame, Ne.symm hsame]

theorem mem_machineFunctions : function ∈ machineFunctions config machine ↔ Runs config machine function := by
  unfold machineFunctions Runs
  simp only [← stateFunction_eq_ok_iff]
  cases machine.getAll ["definition", "States"] with
  | error _ => simp
  | ok states =>
    unfold keysOf
    cases helements : states.elements with
    | error _ => simp [helements, Except.toOption]
    | ok names => simp [helements, Except.toOption, mem_functionsUntilFault]

end

/-! ## Entries, machines and all of them -/

/-- A computation comes to its end or not and collects the same, whatever was collected before. -/
def Collects (x : Collect Unit) (gives : String → PluginEvent → Prop) (ends : Bool) : Prop :=
  ∀ table, (x.run.run table).1.isOk = ends ∧ ∀ function event,
    (x.run.run table).2.Holds function event ↔ table.Holds function event ∨ gives function event

namespace Collects

variable {α : Type} {x y : Collect Unit} {gives gives' : String → PluginEvent → Prop} {ends ends' : Bool}

theorem congr (h : Collects x gives ends) (hgives : ∀ f e, gives' f e ↔ gives f e) (hends : ends' = ends) :
    Collects x gives' ends' := by
  intro table
  simpa only [hends, hgives] using h table

theorem nothing (result : Except Fault Unit) : Collects (liftM result) (fun _ _ => False) result.isOk := by
  intro table
  cases result <;> exact ⟨rfl, fun _ _ => (or_false _).symm.to_iff⟩

theorem andThen (hx : Collects x gives ends) (hy : Collects y gives' ends') :
    Collects (x >>= fun _ => y) (fun f e => gives f e ∨ ends ∧ gives' f e) (ends && ends') := by
  intro table
  obtain ⟨hends, hholds⟩ := hx table
  cases hrun : x.run.run table with
  | mk result next =>
    rw [hrun] at hends hholds
    cases result with
    | ok _ =>
      obtain rfl : true = ends := hends
      rw [run_bind_of_ok hrun]
      simpa [← hholds, ← or_assoc] using hy next
    | error fault =>
      obtain rfl : false = ends := hends
      rw [run_bind_of_error hrun]
      exact ⟨rfl, by simpa using hholds⟩

variable {step : α → Collect Unit} {gives : α → String → PluginEvent → Prop} {goesOn : α → Bool}
  (h : ∀ a, Collects (step a) (gives a) (goesOn a))

include h

/-- A list is gone through up to the first member whose computation does not come to its end. -/
theorem forM (items : List α) :
    Collects (items.forM step) (fun f e => ∃ a ∈ readPart goesOn items, gives a f e) (items.all goesOn) := by
  induction items with
  | nil => exact (nothing (.ok ())).congr (by simp [readPart]) rfl
  | cons a rest ih =>
    refine ((h a).andThen ih).congr (fun f e => ?_) rfl
    cases ha : goesOn a <;> simp [readPart, ha]

theorem read (result : Except Fault α) :
    Collects (liftM result >>= step) (fun f e => ∃ a, result = .ok a ∧ gives a f e) (result.toOption.any goesOn) := by
  cases result with
  | error fault => exact (nothing (.error fault)).congr (by simp) rfl
  | ok a => exact (h a).congr (by simp) rfl

end Collects

/-- The event of an entry: its first key and the method under it. -/
def eventOf? : Value → Option PluginEvent
  | .map ((service, info) :: _) =>
    (info.get "method").toOption.bind fun method => if method.asKey.isOk then some ⟨service, method⟩ else none
  | _ => none

/-- Without functions the methods are not looked for. -/
def isPassed (functions : List String) : Value → Bool
  | .map (first :: rest) => functions.isEmpty || (eventOf? (.map (first :: rest))).isSome
  | _ => false

theorem collects_addEvent (service : String) (info : Value) (rest : Keyed String Value) (own : String) :
    Collects (addEvent service (.map ((service, info) :: rest)) own)
      (fun function event => own = function ∧ eventOf? (.map ((service, info) :: rest)) = some event)
      (eventOf? (.map ((service, info) :: rest))).isSome := by
  have hinfo : Value.getAll [service, "method"] (.map ((service, info) :: rest)) = info.get "method" := by
    simp [Value.getAll, Value.get, Keyed.find?, ok_bind]
  have hown : Collects (modify (Keyed.modify own [] id)) (fun _ _ => False) true :=
    fun table => ⟨rfl, fun _ _ => Keyed.holds_modify_id.trans (or_false _).symm.to_iff⟩
  have hnew : ∀ event, Collects (modify (Keyed.modify own [] fun events => addNew events event))
      (fun function event' => own = function ∧ event = event') true :=
    fun event table => ⟨rfl, fun _ _ => Keyed.holds_modify_addNew⟩
  have h := hown.andThen (Collects.read (fun method => Collects.read (fun _ => hnew ⟨service, method⟩) method.asKey)
    (info.get "method"))
  rw [addEvent, hinfo, eventOf?]
  cases hmethod : info.get "method" with
  | error _ => exact (hmethod ▸ h).congr (by simp [Except.toOption]) rfl
  | ok method =>
    refine (hmethod ▸ h).congr ?_ ?_ <;> cases hkey : method.asKey <;>
      simp [hkey, Except.toOption, Except.isOk, Except.toBool]

/-- Gives the event of an entry to functions. -/
def addEntry (functions : List String) (entry : Value) : Collect Unit := do
  match ← entry.asMap with
  | [] => throw .indexOutOfRange
  | (service, _) :: _ => functions.forM (addEvent service entry)

theorem collects_addEntry (functions : List String) (entry : Value) :
    Collects (addEntry functions entry) (fun function event => function ∈ functions ∧ eventOf? entry = some event)
      (isPassed functions entry) := by
  cases entry with
  | map entries =>
    cases entries with
    | nil => exact (Collects.nothing (.error .indexOutOfRange)).congr (by simp [eventOf?]) rfl
    | cons first rest =>
      have hends : isPassed functions (.map (first :: rest)) =
          functions.all fun _ => (eventOf? (.map (first :: rest))).isSome := by
        rw [isPassed]
        cases eventOf? (.map (first :: rest)) <;> cases functions <;> simp
      refine (Collects.forM (collects_addEvent first.1 first.2 rest) functions).congr (fun function event => ?_) hends
      -- The functions are all read if there is an event, and none gets one otherwise.
      cases eventOf? (.map (first :: rest)) with
      | none => simp
      | some own => simp [Grants.readPart_of_all, and_left_comm]
  | _ => exact (Collects.nothing (.error .wrongType)).congr (by simp [eventOf?]) rfl

/-- The entries of a machine, none without events. -/
def entriesOf (machine : Value) : Except Fault (List Value) := do
  if ← machine.holds "events" then (← machine.get "events").elements else return []

/-- All entries of a machine are gone through. -/
def isClear (config machine : Value) : Bool :=
  (entriesOf machine).toOption.any (·.all (isPassed (machineFunctions config machine)))

/-- A machine gives its functions the events of the entries that are gone through. -/
def Gives (config machine : Value) (function : String) (event : PluginEvent) : Prop :=
  Runs config machine function ∧ ∃ entries, entriesOf machine = .ok entries ∧
    ∃ entry ∈ readPart (isPassed (machineFunctions config machine)) entries, eventOf? entry = some event

theorem addMachine_eq (config machine : Value) :
    addMachine config machine =
      liftM (entriesOf machine) >>= fun entries => entries.forM (addEntry (machineFunctions config machine)) := by
  rw [addMachine, entriesOf]
  cases machine.holds "events" with
  | error _ => rfl
  | ok held =>
    cases held with
    | false => rfl
    | true => cases machine.get "events" <;> rfl

theorem collects_addMachine (config machine : Value) :
    Collects (addMachine config machine) (Gives config machine) (isClear config machine) := by
  rw [addMachine_eq]
  refine (Collects.read (Collects.forM (collects_addEntry (machineFunctions config machine))) _).congr (fun f e => ?_) rfl
  rw [Gives, ← mem_machineFunctions]
  simp only [exists_and_left, and_left_comm (b := f ∈ _)]

/-- A machine by its key. -/
def machineAt (machines name : Value) : Except Fault Value := do
  match ← name.asKey with
  | some key => machines.get key
  | none => throw .wrongType

/-- A machine that is there and gone through to its end. -/
def isDone (config machines name : Value) : Bool := (machineAt machines name).toOption.any (isClear config)

theorem addMachines_eq (config machines : Value) (names : List Value) :
    addMachines config machines names =
      names.forM fun name => liftM (machineAt machines name) >>= addMachine config := by
  unfold addMachines machineAt
  congr 1
  funext name
  rcases name.asKey with _ | _ | _ <;> rfl

/-- The events of the functions: those of the machines up to the first one that is not gone through to its end. -/
theorem machine_events_iff (config : Value) (function : String) (event : PluginEvent) :
    (∃ table, events config = .ok table ∧ table.Holds function event) ↔
      ∃ machines, config.getAll ["stepFunctions", "stateMachines"] = .ok machines ∧
        ∃ name ∈ readPart (isDone config machines) (keysOf machines),
          ∃ machine, machineAt machines name = .ok machine ∧ Gives config machine function event := by
  unfold events keysOf
  cases config.getAll ["stepFunctions", "stateMachines"] with
  | error fault => cases fault <;> simp [Keyed.Holds, Keyed.find?]
  | ok machines =>
    simp only [Except.ok.injEq, exists_eq_left']
    cases machines.elements with
    | error _ => simp [Except.toOption, readPart]
    | ok names =>
      have hall := Collects.forM (fun name => Collects.read (collects_addMachine config) (machineAt machines name)) names
      simp only [Except.ok.injEq, exists_eq_left', addMachines_eq]
      exact ((hall []).2 function event).trans (or_iff_right (by simp [Keyed.Holds, Keyed.find?]))

end ServerlessTaint.StateMachines
