import ServerlessTaint.FileTree
import ServerlessTaint.Reference.Inner

/-!
# References to other files and general references

`{file(path)}` stands for the content of another file and `{file(path):key}` for a value in it. A
value of the form `${…}` is resolved from the configuration or, if that fails, from another file;
what cannot be resolved stays as it is.
-/

namespace ServerlessTaint.Reference

/-! ## Finding references -/

/-- The parts of a text before and after the last place where other characters stand. -/
def lastSplit? (separator : List Char) : List Char → Option (List Char × List Char)
  | [] => none
  | c :: rest =>
    match lastSplit? separator rest with
    | some (before, after) => some (c :: before, after)
    | none =>
      if separator.isPrefixOf (c :: rest) then some ([], (c :: rest).drop separator.length) else none

/-- A split loses only the separator. -/
theorem lastSplit?_length {separator cs before after : List Char}
    (h : lastSplit? separator cs = some (before, after)) :
    before.length + separator.length + after.length = cs.length := by
  induction cs generalizing before with
  | nil => simp [lastSplit?] at h
  | cons c rest ih =>
    rw [lastSplit?] at h
    split at h
    · rename_i b a heq
      obtain ⟨rfl, rfl⟩ := by simpa using h
      have := ih heq
      simp only [List.length_cons]
      omega
    · split at h
      · rename_i hp
        obtain ⟨rfl, rfl⟩ := by simpa using h
        have := (List.isPrefixOf_iff_prefix.1 hp).length_le
        simp only [List.length_nil, List.length_drop]
        omega
      · simp at h

/-- The parts before and after every place where other characters stand, the last place first. -/
def splits (separator : List Char) : List Char → List (List Char × List Char)
  | [] => []
  | c :: rest =>
    (splits separator rest).map (fun (before, after) => (c :: before, after)) ++
      if separator.isPrefixOf (c :: rest) then [([], (c :: rest).drop separator.length)] else []

/-- The first place of a text at which something is found. -/
def firstSome {α : Type} (f : List Char → Option α) : List Char → Option α
  | [] => f []
  | c :: rest =>
    match f (c :: rest) with
    | some a => some a
    | none => firstSome f rest

/-- A text and at least one character before the last place where other characters stand. -/
def nonemptyBefore? (separator : List Char) : List Char → Option (List Char)
  | [] => none
  | c :: rest => (lastSplit? separator rest).map fun (before, _) => c :: before

def fileOpening : List Char := "\x7bfile(".toList

def afterFileOpening? (cs : List Char) : Option (List Char) :=
  if fileOpening.isPrefixOf cs then some ((cs.drop fileOpening.length).takeWhile (· != '\n')) else none

def filePathAt? (cs : List Char) : Option (List Char) :=
  afterFileOpening? cs >>= nonemptyBefore? ")\x7d".toList

def filePath? (text : String) : Option String := (firstSome filePathAt? text.toList).map String.ofList

def fileValueAt? (cs : List Char) : Option (List Char × List Char) := do
  match ← afterFileOpening? cs with
  | [] => none
  | c :: rest =>
    (splits "):".toList rest).findSome? fun (before, after) =>
      (nonemptyBefore? ['\x7d'] after).map fun key => (c :: before, key)

def fileValue? (cs : List Char) : Option (List Char × List Char) := firstSome fileValueAt? cs

/-- A text taken apart at a reference: what stands before it, in it, and after it. -/
structure Found where
  before : List Char
  inner : List Char
  after : List Char
  deriving DecidableEq, Repr

/-- The reference `${…}` at the start of a text; it ends at the last closing brace of its line. -/
def foundAt? : List Char → Option Found
  | '$' :: '\x7b' :: rest =>
    (lastSplit? ['\x7d'] (rest.takeWhile (· != '\n'))).map fun (inner, after) =>
      ⟨[], inner, after ++ rest.dropWhile (· != '\n')⟩
  | _ => none

/-- A reference is taken apart without loss, but for the opening and the closing brace. -/
theorem foundAt?_length {cs : List Char} {found : Found} (h : foundAt? cs = some found) :
    found.before.length + found.inner.length + found.after.length + 3 = cs.length := by
  unfold foundAt? at h
  split at h
  · rename_i rest
    obtain ⟨⟨inner, after⟩, hs, rfl⟩ := Option.map_eq_some_iff.1 h
    have hl := lastSplit?_length hs
    have hw := congrArg List.length (List.takeWhile_append_dropWhile (p := (· != '\n')) (l := rest))
    simp only [List.length_append, List.length_cons, List.length_nil] at *
    omega
  · simp at h

/-- The first reference `${…}` of a text. -/
def find? : List Char → Option Found
  | [] => none
  | c :: rest =>
    match foundAt? (c :: rest) with
    | some found => some found
    | none => (find? rest).map fun found => { found with before := c :: found.before }

/-- A text is taken apart without loss, but for the opening and the closing brace. -/
theorem find?_length {cs : List Char} {found : Found} (h : find? cs = some found) :
    found.before.length + found.inner.length + found.after.length + 3 = cs.length := by
  induction cs generalizing found with
  | nil => simp [find?] at h
  | cons c rest ih =>
    rw [find?] at h
    split at h
    · rename_i f heq
      obtain rfl := by simpa using h
      exact foundAt?_length heq
    · obtain ⟨f, hf, rfl⟩ := Option.map_eq_some_iff.1 h
      have := ih hf
      simp only [List.length_cons]
      omega

/-! ## Values in other files -/

/-- Where references lead: the files, the path of the configuration file, and the configuration. -/
structure Sources where
  tree : FileTree
  file : String
  config : Value

def pathFrom (file : String) (relative : String) : String :=
  let folder := Path.folder file
  match relative.toList with
  | '.' :: '/' :: rest => Path.join folder (String.ofList rest)
  | '.' :: '.' :: '/' :: rest =>
    Path.join ("/".intercalate (Path.parts folder).dropLast) (String.ofList rest)
  | _ => Path.join folder relative

namespace Sources

def fullPath (s : Sources) (relative : String) : String := pathFrom s.file relative

def loadFile? (s : Sources) (relative : String) : Option Value :=
  let path := s.fullPath relative
  match Path.extension relative with
  | ".json" => some (s.tree.loadJson (Path.folder path) (Path.leaf path))
  | ".yml" | ".yaml" => some (s.tree.loadYaml (Path.folder path) (Path.leaf path))
  | _ => none

def externalValue? (s : Sources) (text : List Char) : Option Value := do
  let (path, key) ← fileValue? text
  let v ← s.loadFile? (resolve s.config (String.ofList path))
  (v.getAll (Text.splitString '.' (resolve s.config (String.ofList key)))).toOption

/-- The displayed form of the value that a text refers to; the text itself if it cannot be resolved. -/
def fromFile (s : Sources) (text : List Char) : List Char :=
  match s.externalValue? text with
  | some v => v.display.toList
  | none => text

/-- `fromFile` on values: a value that is no text stays as it is. -/
def fromFileValue (s : Sources) : Value → Value
  | .str text => .str (String.ofList (s.fromFile text.toList))
  | v => v

end Sources

/-! ## General references -/

/-- The alternative of a reference: what stands after its first comma, up to the next. -/
def alternative? (inner : List Char) : Option (List Char) :=
  if inner.contains ',' then some (Text.trim ((inner.dropWhile (· != ',')).drop 1 |>.takeWhile (· != ',')))
  else none

/-- An alternative is no longer than its reference. -/
theorem length_alternative?_le {inner alternative : List Char} (h : alternative? inner = some alternative) :
    alternative.length ≤ inner.length := by
  unfold alternative? at h
  split at h
  · obtain rfl := Option.some.inj h
    have h1 := Text.length_trim_le (((inner.dropWhile (· != ',')).drop 1).takeWhile (· != ','))
    have h2 := (List.takeWhile_sublist (l := (inner.dropWhile (· != ',')).drop 1) (· != ',')).length_le
    have h3 := (List.dropWhile_sublist (l := inner) (· != ',')).length_le
    simp only [List.length_drop] at *
    omega
  · simp at h

def namesSource (cs : List Char) : Bool :=
  ["self:", "opt:", "env:"].any fun source => source.toList.isPrefixOf cs

def withoutSelf (cs : List Char) : List Char :=
  let afterDollar := match cs with
    | '$' :: rest => rest
    | cs => cs
  let afterBrace := match afterDollar with
    | '\x7b' :: rest => rest
    | cs => cs
  let self := "self:".toList
  if self.isPrefixOf afterBrace then afterBrace.drop self.length else cs

def textAt? (config : Value) (inner : List Char) : Option (List Char) := do
  let keys := (Text.splitAt '.' (withoutSelf inner)).map String.ofList
  let v ← (config.getAll keys).toOption
  let text ← v.text?
  return text.toList

/-- A reference is a plain text, or names what it stands for. -/
inductive Target where
  | literal (text : List Char)
  | named (inner : List Char)
  deriving DecidableEq, Repr

/-- What a reference is: its alternative counts if it has one. -/
def target (inner : List Char) : Target :=
  match alternative? inner with
  | none => .named inner
  | some text => if namesSource text then .named text else .literal text

/-- A named target is no longer than its reference. -/
theorem length_le_of_target {inner named : List Char} (h : target inner = .named named) :
    named.length ≤ inner.length := by
  unfold target at h
  split at h
  · simp_all
  · rename_i text ha
    split at h
    · have := length_alternative?_le ha
      simp_all
    · simp at h

def wrap (inner : List Char) : List Char := '$' :: '\x7b' :: inner ++ ['\x7d']

/-- Resolves a text: its first reference, with the references nested in it, and the texts before and
after it. A reference that names nothing in the configuration may name a value in a file; otherwise
the text stays as it is. -/
def process (s : Sources) (value : List Char) : List Char :=
  match hf : find? value with
  | none => value
  | some found =>
    match ht : target found.inner with
    | .literal text => text
    | .named named =>
      let inner :=
        match hn : find? named with
        | none => named
        | some nested => nested.before ++ process s (wrap nested.inner) ++ nested.after
      match textAt? s.config inner with
      | some text => process s found.before ++ text ++ process s found.after
      | none =>
        let reference := '\x7b' :: inner ++ ['\x7d']
        if (fileValue? reference).isSome then s.fromFile reference else value
termination_by value.length
decreasing_by
  all_goals
    have h1 := find?_length hf
    have h2 := length_le_of_target ht
  · have h3 := find?_length hn
    simp only [wrap, List.length_cons, List.length_append, List.length_nil]
    omega
  · omega
  · omega

def processValue (s : Sources) (v : Value) : Except Fault String :=
  v.asText.map fun text => String.ofList (process s text.toList)

end ServerlessTaint.Reference
