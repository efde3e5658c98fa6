import ServerlessTaint.Fault
import ServerlessTaint.Text.Integer
import ServerlessTaint.Value

/-!
# Command lines

A command line is a list of words. Options have names; a long name may be cut short if it stays clear which
option is meant, and a value may stand in the next word, after `=`, or directly after a name of one letter.
After the word `--` there are no options. A wrong command line ends the program with code 2, a request for
help with code 0.
-/

namespace ServerlessTaint.CommandLine

/-- What an option takes and does. -/
inductive Kind where
  | flag
  | text
  | integer
  | choice (texts : List String)
  | help
  deriving DecidableEq, Repr

def Kind.takesValue : Kind → Bool
  | .flag | .help => false
  | _ => true

/-- An option with its names. Options of the same group exclude each other. -/
structure Switch where
  key : String
  names : List String
  kind : Kind
  group : Option String := none
  deriving DecidableEq, Repr

/-- The options of a program, those that have to be given, and the groups of which one has to be. -/
structure Grammar where
  switches : List Switch
  required : List String := []
  requiredGroups : List String := []
  deriving DecidableEq, Repr

def helpSwitch : Switch := ⟨"help", ["-h", "--help"], .help, none⟩

def wrong : Fault := .exit "2"

/-! ## Words -/

/-- An option as it is named in a word. -/
structure Mention where
  switch : Switch
  name : List Char
  separated : Bool
  attached : Option (List Char)
  deriving DecidableEq, Repr

/-- A word of a command line. -/
inductive Word where
  | plain (text : String)
  | dashes
  | unknown
  | mention (m : Mention)
  deriving DecidableEq, Repr

def named (g : Grammar) : List (Switch × List Char) :=
  g.switches.flatMap fun s => s.names.map fun name => (s, name.toList)

def find? (g : Grammar) (name : List Char) : Option Switch :=
  ((named g).find? fun n => n.2 == name).map (·.1)

def splitValue (text : List Char) : List Char × Option (List Char) :=
  let name := text.takeWhile (· != '=')
  (name, (text.drop name.length).tail?)

/-- The options that a word with two dashes may mean: those whose names start with it, up to `=`. -/
def longMentions (g : Grammar) (text : List Char) : List Mention :=
  let (name, value) := splitValue text
  ((named g).filter fun n => name.isPrefixOf n.2).map fun (s, full) => ⟨s, full, value.isSome, value⟩

/-- The options that a word with one dash may mean: one with a name of one letter, followed by its value, or
one whose name starts with the word. -/
def shortMentions (g : Grammar) (text : List Char) : List Mention :=
  (named g).filterMap fun (s, full) =>
    if full == text.take 2 then some ⟨s, full, false, some (text.drop 2)⟩
    else if text.isPrefixOf full then some ⟨s, full, false, none⟩
    else none

def isNegativeNumber (text : List Char) : Bool :=
  let digits := (if text.getLast? == some '\n' then text.dropLast else text).drop 1
  let whole := digits.takeWhile Text.isDecimalDigit
  let rest := digits.drop whole.length
  match rest with
  | [] => !whole.isEmpty
  | '.' :: fraction => !fraction.isEmpty && fraction.all Text.isDecimalDigit
  | _ => false

def classify (g : Grammar) (word : String) : Except Fault Word :=
  match word.toList with
  | '-' :: c :: rest =>
    let text := '-' :: c :: rest
    match find? g text with
    | some s => .ok (.mention ⟨s, text, false, none⟩)
    | none =>
      let (name, value) := splitValue text
      match value.bind fun v => (find? g name).map fun s => (s, v) with
      | some (s, v) => .ok (.mention ⟨s, name, true, some v⟩)
      | none =>
        match if c == '-' then longMentions g text else shortMentions g text with
        | [m] => .ok (.mention m)
        | _ :: _ :: _ => .error wrong
        | [] => .ok (if isNegativeNumber text || text.contains ' ' then .plain word else .unknown)
  | _ => .ok (.plain word)

def words (g : Grammar) : List String → Except Fault (List Word)
  | [] => .ok []
  | word :: rest =>
    if word == "--" then .ok (.dashes :: rest.map .plain)
    else do
      let first ← classify g word
      return first :: (← words g rest)

/-! ## Options with their values -/

/-- Options as given, with the text of their value; whether something in the word is not known; and the words
that are left. -/
structure Given where
  options : List (Switch × Option String)
  unknown : Bool
  rest : List Word
  deriving DecidableEq, Repr

/-- An option without anything attached: its value, if it takes one, is the next word. -/
def alone (s : Switch) (rest : List Word) : Except Fault Given :=
  if s.kind.takesValue then
    match rest with
    | .plain value :: rest => .ok ⟨[(s, some value)], false, rest⟩
    | _ => .error wrong
  else .ok ⟨[(s, none)], false, rest⟩

/-- An option with something attached: its value, or further options of one letter. -/
def attachedTo (g : Grammar) (rest : List Word) : Switch → List Char → Bool → List Char → Except Fault Given
  | s, name, separated, value =>
    if s.kind.takesValue then .ok ⟨[(s, some (String.ofList value))], false, rest⟩
    else if name[1]? == some '-' || separated then .error wrong
    else match value with
      | [] => .error wrong
      | '-' :: _ => .error wrong
      | c :: more =>
        match find? g ['-', c] with
        | none => .ok ⟨[(s, none)], true, rest⟩
        | some next => do
          let given ← match more with
            | [] => alone next rest
            | '=' :: more => attachedTo g rest next ['-', c] true more
            | d :: more => attachedTo g rest next ['-', c] false (d :: more)
          return { given with options := (s, none) :: given.options }
  termination_by _ _ _ value => value.length

/-- The options that a word names. -/
def expand (g : Grammar) (m : Mention) (rest : List Word) : Except Fault Given :=
  match m.attached with
  | none => alone m.switch rest
  | some value => attachedTo g rest m.switch m.name m.separated value

/-! ## Parsing -/

/-- What has been found: the values of options, and whether a word belongs to no option. -/
structure Found where
  values : Keyed String Value := []
  seen : List Switch := []
  unused : Bool := false
  deriving DecidableEq

def valueOf (s : Switch) (text : Option String) : Except Fault Value :=
  match s.kind, text with
  | .flag, _ => .ok (.bool true)
  | .help, _ => .error (.exit "0")
  | .text, some t => .ok (.str t)
  | .integer, some t =>
    match Text.parseInt? t.toList with
    | some n => .ok (.int n)
    | none => .error wrong
  | .choice texts, some t => if texts.contains t then .ok (.str t) else .error wrong
  | _, none => .error wrong

/-- Takes note of an option, unless one that excludes it has been given. -/
def take (found : Found) (option : Switch × Option String) : Except Fault Found := do
  let (s, text) := option
  let value ← valueOf s text
  if s.group.isSome && found.seen.any fun other => other.group == s.group && other.key != s.key then throw wrong
  return { found with values := Keyed.set s.key value found.values, seen := found.seen ++ [s] }

/-- Goes through the words of a command line. At most `fuel` words are looked at. -/
def scan (g : Grammar) : Nat → Found → List Word → Except Fault Found
  | 0, found, _ => .ok found
  | _, found, [] => .ok found
  | fuel + 1, found, .mention m :: rest => do
    let given ← expand g m rest
    let found ← given.options.foldlM take found
    scan g fuel { found with unused := found.unused || given.unknown } given.rest
  | fuel + 1, found, _ :: rest => scan g fuel { found with unused := true } rest

def parse (g : Grammar) (line : List String) : Except Fault (Keyed String Value) := do
  let g := { g with switches := helpSwitch :: g.switches }
  let words ← words g line
  let found ← scan g words.length {} words
  if g.required.all (Keyed.has · found.values) &&
      g.requiredGroups.all (fun group => found.seen.any fun s => s.group == some group) && !found.unused then
    return found.values
  else throw wrong

end ServerlessTaint.CommandLine
