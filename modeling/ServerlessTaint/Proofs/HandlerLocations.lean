import ServerlessTaint.Injection
import ServerlessTaint.Model.Handler
import ServerlessTaint.Proofs.Fault
import ServerlessTaint.Proofs.Keyed
import ServerlessTaint.Proofs.Pieces

/-!
# Locations of handlers

A location names the function of a handler and, by dots and slashes, the module that holds it. It is read
in two ways. Models are made for the file that it leads to (`located_eq`). When code is put into a file,
the handler of a function is the first one whose location ends with the names of the function, of its
module and, if the location has a slash, of its folder (`isLocation_iff`). The two agree on a handler under
a condition on its own location and on those before it (`handlerAt?_registered_iff`).
-/

namespace ServerlessTaint

open List HandlerModel Text

/-- The characters can be the name of a module or of a folder. -/
def IsName (cs : List Char) : Prop := cs ≠ [] ∧ ∀ c ∈ cs, c ≠ '.' ∧ c ≠ '/' ∧ c ≠ '\n'

instance (cs : List Char) : Decidable (IsName cs) :=
  have := List.decidableBAll (fun c => c ≠ '.' ∧ c ≠ '/' ∧ c ≠ '\n') cs
  inferInstanceAs (Decidable (cs ≠ [] ∧ ∀ c ∈ cs, c ≠ '.' ∧ c ≠ '/' ∧ c ≠ '\n'))

theorem Text.replacePart_singleton {part new : String} {c d : Char} (hpart : part.toList = [c]) (hnew : new.toList = [d])
    (cs : List Char) : replacePart part new (String.ofList cs) = String.ofList (cs.map fun e => if e = c then d else e) := by
  rw [replacePart, hpart, hnew, String.toList_ofList]
  congr 1
  induction cs with
  | nil => rfl
  | cons e rest ih =>
    rw [replaceFrom, map_cons]
    by_cases he : e = c
    · subst he
      simpa using ih
    · simp [he, Ne.symm he, ih]

/-- What stands after the last end of a line. -/
def Text.lastLine (cs : List Char) : List Char := (cs.reverse.takeWhile (· != '\n')).reverse

theorem Text.lastLine_of_not_mem {cs : List Char} (h : '\n' ∉ cs) : lastLine cs = cs := by
  have hwhole := takeWhile_reverse_append [] h
  rw [nil_append] at hwhole
  simp [lastLine, hwhole]

theorem Text.not_mem_of_word {c : Char} {cs : List Char} (h : cs.all isWord = true) (hc : isWord c = false) : c ∉ cs :=
  fun hmem => by
    have := all_eq_true.1 h c hmem
    rw [hc] at this
    cases this

/-- The parts of a location: the last line before the function, and the function. -/
theorem HandlerModel.locationParts?_eq {module function : List Char} (hmodule : '\n' ∉ module) (hne : function ≠ [])
    (hword : function.all isWord = true) (cs : List Char) :
    locationParts? (String.ofList (cs ++ (module ++ '.' :: function))) =
      some (String.ofList (lastLine cs ++ module), String.ofList function) := by
  have hfunction : '\n' ∉ function := not_mem_of_word hword (by decide)
  have hend : (cs ++ (module ++ '.' :: function)).getLast? ≠ some '\n' := by
    obtain ⟨front, c, rfl⟩ := (eq_nil_or_concat function).resolve_left hne
    have hc : c ≠ '\n' := fun heq => hfunction (by simp [heq])
    have hsplit : cs ++ (module ++ '.' :: front.concat c) = cs ++ module ++ '.' :: front ++ [c] := by simp
    rw [hsplit, getLast?_concat]
    simpa using hc
  have hline : ((cs ++ (module ++ '.' :: function)).reverse.takeWhile (· != '\n')).reverse =
      lastLine cs ++ module ++ '.' :: function := by
    rw [takeWhile_reverse_append cs (by simp [hmodule, hfunction]), reverse_append, reverse_reverse,
      lastLine, append_assoc]
  have hname : (lastLine cs ++ module ++ '.' :: function).reverse.takeWhile (· != '.') = function.reverse := by
    rw [append_cons, takeWhile_reverse_append _ (not_mem_of_word hword (by decide))]
    simp
  have htake : (lastLine cs ++ module ++ '.' :: function).take
      ((lastLine cs ++ module ++ '.' :: function).length - function.length - 1) = lastLine cs ++ module := by
    refine take_left' ?_
    simp only [length_append, length_cons]
    omega
  simp only [locationParts?, String.toList_ofList, beq_iff_eq, hend, if_false, hline, hname, reverse_reverse, htake]
  simp [hne, hword]

/-- Names can follow: there are no characters, or a dot or slash is the last. -/
def EndsApart (cs : List Char) : Prop := ∀ c ∈ cs.getLast?, c = '.' ∨ c = '/'

/-- The location of a handler: what stands before the name of the module, with the dot or slash at its end,
the name of the module, and that of the function. -/
structure Location where
  above : List Char
  module : List Char
  function : List Char
  ends : EndsApart above
  oneLine : '\n' ∉ above
  named : IsName module
  nonempty : function ≠ []
  word : function.all Text.isWord = true

namespace Location

def text (l : Location) : List Char := l.above ++ (l.module ++ '.' :: l.function)

/-- What stands before the name of the module, without a leading `./`. -/
def below (l : Location) : List Char :=
  match l.above with
  | '.' :: '/' :: rest => rest
  | above => above

def slashed (cs : List Char) : List Char := cs.map fun c => if c = '.' then '/' else c

def file (base : String) (l : Location) : String :=
  Path.join base (String.ofList (slashed l.below ++ (l.module ++ ".py".toList)))

def folder (base : String) (l : Location) : List Char :=
  ((Text.splitString '/' (Path.folder (l.file base))).getLast?.getD "").toList

/-- A location passes for that of a function of a module in a folder: the functions have one name, and
the name of the module is the end of that of the other; if the location has slashes, the two modules have
one name, and the name of the folder stands before it. -/
def PassesFor (l : Location) (folder module function : List Char) : Prop :=
  l.function = function ∧
    if '/' ∈ l.above then l.module = module ∧ folder ++ ['/'] <:+ l.above else module <:+ l.module

instance (l : Location) (folder module function : List Char) : Decidable (l.PassesFor folder module function) :=
  inferInstanceAs (Decidable (_ ∧ _))

variable (l : Location) {c e : Char} {l : Location} {cs name xs ys f g : List Char}

theorem dot_not_mem_function : '.' ∉ l.function := not_mem_of_word l.word (by decide)

theorem slash_not_mem_function : '/' ∉ l.function := not_mem_of_word l.word (by decide)

theorem not_mem_module (hc : c = '.' ∨ c = '/' ∨ c = '\n') : c ∉ l.module := fun hmem => by
  have := l.named.2 c hmem
  grind

theorem slash_mem_text_iff : '/' ∈ l.text ↔ '/' ∈ l.above := by
  simp [text, l.slash_not_mem_function, l.not_mem_module (c := '/') (by simp)]

/-! ## The file of a location -/

theorem dropHere_text :
    dropHere (String.ofList l.text) = String.ofList (l.below ++ (l.module ++ '.' :: l.function)) := by
  obtain ⟨first, rest, hmodule⟩ := exists_cons_of_ne_nil l.named.1
  have hfirst : first ≠ '.' ∧ first ≠ '/' := by
    have := l.named.2 first (by rw [hmodule]; simp)
    exact ⟨this.1, this.2.1⟩
  rw [dropHere, String.toList_ofList, text, below]
  match l.above with
  | [] => simp [hmodule, hfirst]
  | [c] =>
    have hslash : first ≠ '/' := hfirst.2
    simp [hmodule, hslash]
  | c :: d :: above =>
    by_cases hhere : c = '.' ∧ d = '/'
    · obtain ⟨rfl, rfl⟩ := hhere
      rfl
    · split <;> split <;> simp_all

theorem below_suffix : l.below <:+ l.above := by
  unfold below
  split
  · rename_i rest heq
    exact ⟨['.', '/'], heq.symm⟩
  · exact suffix_rfl

theorem replacePart_dot (cs : List Char) : replacePart "." "/" (String.ofList cs) = String.ofList (slashed cs) :=
  replacePart_singleton rfl rfl cs

theorem slashed_of_not_mem (h : '.' ∉ cs) : slashed cs = cs :=
  (map_congr_left fun c hc => if_neg fun heq => h (by rwa [← heq])).trans (map_id _)

/-- The path of the file of a module. -/
theorem replacePart_dot_py {module : List Char} (hmodule : '.' ∉ module) (cs : List Char) :
    replacePart "." "/" (String.ofList (cs ++ module)) ++ ".py" =
      String.ofList (slashed cs ++ (module ++ ".py".toList)) := by
  have hslashed : slashed (cs ++ module) = slashed cs ++ module := by
    rw [slashed, map_append, ← slashed, ← slashed, slashed_of_not_mem hmodule]
  have hextend (path : List Char) : String.ofList (path ++ ".py".toList) = String.ofList path ++ ".py" := by
    rw [String.ofList_append, String.ofList_toList]
  rw [replacePart_dot, hslashed, ← append_assoc, hextend]

/-- The file and the function for which models are made. -/
theorem located_eq {config info : Value} {entries : List (String × Value)} {handler : String} (base : String)
    (hconfig : config.get "functions" = .ok (.map entries)) (hinfo : Keyed.find? handler entries = some info)
    (hlocation : info.get "handler" = .ok (.str (String.ofList l.text))) :
    located config base handler = .ok (l.file base, String.ofList l.function) := by
  have hhandler : (Value.map entries).get handler = .ok info := by simp [Value.get, hinfo]
  have htext : config.getAll ["functions", handler, "handler"] = .ok (.str (String.ofList l.text)) := by
    rw [Value.getAll, foldlM_cons, hconfig, ok_bind, foldlM_cons, hhandler, ok_bind,
      foldlM_cons, hlocation, ok_bind]
    rfl
  refine bind_eq_ok_iff.2 ⟨_, htext, bind_eq_ok_iff.2 ⟨String.ofList l.text, rfl, ?_⟩⟩
  have hline : '\n' ∉ l.below := fun h => l.oneLine (l.below_suffix.subset h)
  rw [l.dropHere_text, locationParts?_eq (l.not_mem_module (by simp)) l.nonempty l.word, lastLine_of_not_mem hline,
    file, ← replacePart_dot_py (l.not_mem_module (by simp)) l.below]
  rfl

/-! ## The names of the file -/

theorem isOpen_slashed (h : EndsApart cs) : Path.IsOpen (slashed cs) := by
  intro c hc
  rw [slashed, getLast?_map, Option.mem_def, Option.map_eq_some_iff] at hc
  obtain ⟨d, hd, rfl⟩ := hc
  rcases h d hd with rfl | rfl <;> rfl

theorem endsApart_below : EndsApart l.below := by
  intro c hc
  obtain ⟨front, hfront⟩ := l.below_suffix
  obtain ⟨start, hstart⟩ := getLast?_eq_some_iff.1 hc
  exact l.ends c (getLast?_eq_some_iff.2 ⟨front ++ start, by rw [← hfront, hstart, append_assoc]⟩)

/-- The path of the file ends with the name of the module. -/
theorem exists_file_eq (base : String) : ∃ front, Path.IsOpen front ∧
    l.file base = String.ofList (front ++ slashed l.below ++ (l.module ++ ".py".toList)) := by
  obtain ⟨front, hfront, hjoin⟩ := Path.exists_join_eq base (slashed l.below ++ (l.module ++ ".py".toList))
  exact ⟨front, hfront, by rw [file, hjoin, append_assoc]⟩

theorem leaf_stem_file (base : String) : Path.leaf (Path.stem (l.file base)) = String.ofList l.module := by
  obtain ⟨front, hfront, hfile⟩ := l.exists_file_eq base
  have hopen := hfront.append (isOpen_slashed l.endsApart_below)
  have hslash : '/' ∉ l.module := l.not_mem_module (by simp)
  obtain ⟨c, rest, hmodule⟩ := exists_cons_of_ne_nil l.named.1
  have hdots : ∃ c ∈ l.module, c ≠ '.' :=
    ⟨c, by rw [hmodule]; simp, (l.named.2 c (by rw [hmodule]; simp)).1⟩
  have hextension : ".py".toList = '.' :: "py".toList := rfl
  rw [hfile, hextension, Path.stem_append hopen hslash (by decide) (by decide) hdots,
    Path.leaf_append hopen hslash]

/-- If a name stands before that of the module, it is that of the folder. -/
theorem folder_eq_of_name (base : String) {above : List Char} {separator : Char}
    (hbelow : l.below = above ++ (name ++ [separator])) (habove : EndsApart above) (hname : IsName name) :
    l.folder base = name := by
  obtain ⟨front, hfront, hfile⟩ := l.exists_file_eq base
  have hslash : '/' ∉ name := fun hmem => (hname.2 _ hmem).2.1 rfl
  have hseparator : separator = '.' ∨ separator = '/' := l.endsApart_below separator (by rw [hbelow]; simp)
  have hslashed : slashed l.below = slashed above ++ name ++ ['/'] := by
    have hkept : slashed name = name := slashed_of_not_mem fun hmem => (hname.2 _ hmem).1 rfl
    rw [hbelow, slashed, map_append, map_append, ← slashed, ← slashed, hkept]
    rcases hseparator with rfl | rfl <;> simp
  have hopen := hfront.append (isOpen_slashed habove)
  have hlast : (front ++ slashed above ++ name).getLast? ≠ some '/' := by
    obtain ⟨start, c, rfl⟩ := (eq_nil_or_concat name).resolve_left hname.1
    have hc : c ≠ '/' := (hname.2 c (by simp)).2.1
    simpa using hc
  have hfolder : Path.folder (l.file base) = String.ofList (front ++ slashed above ++ name) := by
    rw [hfile, hslashed, ← append_assoc front, ← append_assoc front]
    exact Path.folder_append (Path.isOpen_concat _)
      (by simp [l.not_mem_module (c := '/') (by simp)]) hlast (by simp [hname.1]) rfl
  rw [folder, hfolder, splitString, String.toList_ofList, getLast?_map,
    Path.getLast?_splitAt_append hopen hslash]
  simp

/-! ## Locations that pass for others -/

/-- Where the last separators are, the texts before and after them are equal. -/
theorem append_cons_inj (hf : e ∉ f) (hg : c ∉ g) : xs ++ c :: f = ys ++ e :: g ↔ xs = ys ∧ c = e ∧ f = g := by
  constructor
  · intro h
    rcases append_eq_append_iff.1 h with ⟨more, rfl, hmore⟩ | ⟨more, rfl, hmore⟩
    · cases more with
      | nil => simpa using hmore
      | cons d more =>
        rw [cons_append, cons.injEq] at hmore
        exact absurd (by rw [hmore.2]; simp) hf
    · cases more with
      | nil => simpa [eq_comm] using hmore
      | cons d more =>
        rw [cons_append, cons.injEq] at hmore
        exact absurd (by rw [hmore.2]; simp) hg
  · rintro ⟨rfl, rfl, rfl⟩
    rfl

theorem suffix_cons_iff (hf : e ∉ f) (hg : c ∉ g) : xs ++ c :: f <:+ ys ++ e :: g ↔ c = e ∧ f = g ∧ xs <:+ ys := by
  constructor
  · rintro ⟨front, h⟩
    rw [← append_assoc, append_cons_inj hf hg] at h
    exact ⟨h.2.1, h.2.2, front, h.1⟩
  · rintro ⟨rfl, rfl, front, rfl⟩
    exact ⟨front, by simp⟩

/-- A name that ends a text after a dot or slash ends the name there. -/
theorem name_suffix_iff {above : List Char} (hname : IsName name) (habove : EndsApart above) (module : List Char) :
    name <:+ above ++ module ↔ name <:+ module := by
  refine ⟨fun h => ?_, fun h => h.trans (suffix_append _ _)⟩
  obtain ⟨front, h⟩ := h
  rcases append_eq_append_iff.1 h with ⟨more, habove', hmore⟩ | ⟨more, -, hmore⟩
  · -- the name would reach over the dot or slash
    rcases eq_nil_or_concat more with rfl | ⟨start, c, rfl⟩
    · exact ⟨[], hmore⟩
    · have hc : c ∈ name := by rw [hmore]; simp
      have hapart : c = '.' ∨ c = '/' := habove c (by rw [habove']; simp)
      have := hname.2 c hc
      grind
  · exact ⟨more, hmore.symm⟩

/-- A location is determined by its written form. -/
theorem text_injective {l' : Location} (h : l.text = l'.text) : l = l' := by
  rw [text, text, ← append_assoc, ← append_assoc,
    append_cons_inj l.dot_not_mem_function l'.dot_not_mem_function] at h
  obtain ⟨hbefore, -, hfunction⟩ := h
  have hsuffix : l.module <:+ l'.module :=
    (name_suffix_iff l.named l'.ends _).1 (hbefore ▸ suffix_append _ _)
  have hsuffix' : l'.module <:+ l.module :=
    (name_suffix_iff l'.named l.ends _).1 (hbefore ▸ suffix_append _ _)
  have hmodule : l.module = l'.module :=
    hsuffix.eq_of_length (Nat.le_antisymm hsuffix.length_le hsuffix'.length_le)
  rw [hmodule, append_left_inj] at hbefore
  cases l
  cases l'
  cases hbefore
  cases hmodule
  cases hfunction
  rfl

theorem exists_above_eq (h : '/' ∈ l.above) : ∃ front c, l.above = front ++ [c] ∧ (c = '.' ∨ c = '/') := by
  obtain ⟨front, c, hconcat⟩ := (eq_nil_or_concat l.above).resolve_left (ne_nil_of_mem h)
  rw [concat_eq_append] at hconcat
  exact ⟨front, c, hconcat, l.ends c (by rw [hconcat]; simp)⟩

/-- The locations that are taken for that of the function of another one. -/
theorem isLocation_iff (l other : Location) (base : String) :
    Application.isLocation (l.file base) (String.ofList l.function) (String.ofList other.text) ↔
      other.PassesFor (l.folder base) l.module l.function := by
  have hslash : (String.ofList other.text).toList.contains '/' = decide ('/' ∈ other.above) := by
    rw [String.toList_ofList, contains_eq_mem, decide_eq_decide, slash_mem_text_iff]
  have hname : (Path.leaf (Path.stem (l.file base)) ++ "." ++ String.ofList l.function).toList =
      l.module ++ '.' :: l.function := by
    rw [leaf_stem_file]
    simp
  have htext : other.text = (other.above ++ other.module) ++ '.' :: other.function := by simp [text]
  have hother : '/' ∉ other.module := other.not_mem_module (by simp)
  rw [Application.isLocation, hslash, isSuffixOf_iff_suffix, String.toList_ofList, PassesFor]
  by_cases habove : '/' ∈ other.above
  · obtain ⟨front, c, hfront, hc⟩ := exists_above_eq habove
    have hapart : c ∉ l.module := l.not_mem_module (hc.imp_right .inl)
    have hfull : (((splitString '/' (Path.folder (l.file base))).getLast?.getD "") ++ "/" ++
        (Path.leaf (Path.stem (l.file base)) ++ "." ++ String.ofList l.function)).toList =
          (l.folder base ++ '/' :: l.module) ++ '.' :: l.function := by
      rw [String.toList_append, hname, String.toList_append, ← folder]
      simp
    have hjoined : other.above ++ other.module = front ++ c :: other.module := by simp [hfront]
    simp only [habove, decide_true, if_true, hfull, htext]
    rw [suffix_cons_iff l.dot_not_mem_function other.dot_not_mem_function, hjoined,
      suffix_cons_iff hapart hother, hfront, suffix_cons_iff (not_mem_nil) (not_mem_nil)]
    constructor
    · rintro ⟨-, hfunction, hc, hmodule, hfolder⟩
      exact ⟨hfunction.symm, hmodule.symm, hc, rfl, hfolder⟩
    · rintro ⟨hfunction, hmodule, hc, -, hfolder⟩
      exact ⟨rfl, hfunction.symm, hc, hmodule.symm, hfolder⟩
  · simp only [habove, decide_false, Bool.false_eq_true, if_false, hname, htext]
    rw [suffix_cons_iff l.dot_not_mem_function other.dot_not_mem_function, name_suffix_iff l.named other.ends]
    exact ⟨fun h => ⟨h.2.1.symm, h.2.2⟩, fun h => ⟨rfl, h.1.symm, h.2⟩⟩

end Location

/-! ## The handler of a function -/

open Application (isLocation firstHandlerAt? handlerAt?)

variable {function handler : String} {handlers : Handlers} {place : String × String}
  {found : Keyed String (List String)}

theorem mem_of_firstHandlerAt? {file : String} {entries : List (String × Value)}
    (h : firstHandlerAt? file function entries = some handler) : handler ∈ entries.map (·.1) := by
  induction entries with
  | nil => cases h
  | cons e entries ih =>
    rw [firstHandlerAt?] at h
    split at h
    · split at h
      · cases h
        exact mem_cons_self
      · exact mem_cons_of_mem _ (ih h)
    · cases h

/-- A handler is found if its location is taken for that of the function and no handler before it stops the
search: each has a location, which is not taken for it. -/
theorem firstHandlerAt?_eq_some_iff {file location : String} {info : Value} {before after : List (String × Value)}
    (hlocation : info.get "handler" = .ok (.str location)) (hbefore : handler ∉ before.map (·.1))
    (hafter : handler ∉ after.map (·.1)) :
    firstHandlerAt? file function (before ++ (handler, info) :: after) = some handler ↔
      isLocation file function location ∧
        ∀ e ∈ before, ∃ other, e.2.get "handler" = .ok (.str other) ∧ isLocation file function other = false := by
  induction before with
  | nil =>
    rw [nil_append, firstHandlerAt?, hlocation]
    by_cases hown : isLocation file function location = true
    · simp [hown]
    · simp only [hown, Bool.false_eq_true, if_false, false_and, iff_false]
      exact fun h => hafter (mem_of_firstHandlerAt? h)
  | cons e before ih =>
    rw [map_cons, mem_cons, not_or] at hbefore
    rw [cons_append, firstHandlerAt?]
    split
    · rename_i other hother
      rw [forall_mem_cons]
      by_cases htaken : isLocation file function other = true
      · simp [htaken, hother, Ne.symm hbefore.1]
      · simp [htaken, hother, ih hbefore.2]
    · rename_i hother
      refine iff_of_false (by simp) ?_
      rintro ⟨-, hall⟩
      obtain ⟨other, hget, -⟩ := hall e mem_cons_self
      exact hother other hget

def Entered (found : Keyed String (List String)) (file function : String) : Prop :=
  ∃ functions, Keyed.find? file found = some functions ∧ function ∈ functions

/-- Enters a function under its source file. -/
def enter (found : Keyed String (List String)) (place : String × String) : Keyed String (List String) :=
  Keyed.modify place.1 [] (· ++ [place.2]) found

theorem entered_enter_iff {file : String} :
    Entered (enter found place) file function ↔ (file, function) = place ∨ Entered found file function := by
  obtain ⟨file', function'⟩ := place
  rw [Entered, enter, Keyed.find?_modify]
  by_cases hfile : file' = file
  · subst hfile
    cases hfind : Keyed.find? file' found <;> simp [Entered, hfind, or_comm]
  · simp [Entered, hfile, Ne.symm hfile]

/-- What has been entered stays, and each place of a run gets in. -/
theorem entered_foldl_iff {file : String} {places : List (String × String)} :
    Entered (places.foldl enter found) file function ↔ (file, function) ∈ places ∨ Entered found file function := by
  induction places generalizing found with
  | nil => simp
  | cons place places ih => rw [foldl_cons, ih, entered_enter_iff, mem_cons, or_left_comm, or_assoc]

theorem sources_eq (config : Value) (infrastructure : String) (handlers : Handlers) :
    sources config infrastructure handlers =
      (handlers.mapM fun handler => located config (Path.folder infrastructure) handler.1).map
        (·.foldl enter []) := by
  rw [sources]
  generalize ([] : Keyed String (List String)) = start
  induction handlers generalizing start with
  | nil => rfl
  | cons handler handlers ih =>
    obtain ⟨name, events⟩ := handler
    rw [foldlM_cons, mapM_cons]
    dsimp only
    cases located config (Path.folder infrastructure) name with
    | error fault => rfl
    | ok place =>
      refine (ih (enter start place)).trans ?_
      cases handlers.mapM fun handler => located config (Path.folder infrastructure) handler.1 <;> rfl

/-- The handlers of a configuration file are entered under their source files. -/
theorem entered_of_sources {config : Value} {infrastructure : String}
    (h : sources config infrastructure handlers = .ok found) {handler : String × List Event}
    (hmem : handler ∈ handlers)
    (hlocated : located config (Path.folder infrastructure) handler.1 = .ok place) :
    Entered found place.1 place.2 := by
  rw [sources_eq] at h
  cases hplaces : handlers.mapM fun handler => located config (Path.folder infrastructure) handler.1 with
  | error fault =>
    rw [hplaces] at h
    cases h
  | ok places =>
    rw [hplaces] at h
    cases h
    exact entered_foldl_iff.2 (.inl (mem_of_mapM hplaces hmem hlocated))

theorem Location.passesFor_self (l : Location) (base : String) :
    l.PassesFor (l.folder base) l.module l.function ↔ ('/' ∈ l.above → l.folder base ++ ['/'] <:+ l.above) := by
  by_cases h : '/' ∈ l.above <;> simp [PassesFor, h]

/-- A handler for which models are made is also found when code is put into its file, if and only if its
location has no slash or has the name of the folder and a slash right before that of the module, and every
function before it in the configuration has a location that does not pass for it. The name of the folder is
the one before that of the module, if there is one. -/
theorem handlerAt?_registered_iff {config info : Value} {infrastructure handler : String}
    {before after : List (String × Value)} {handlers : Handlers} {events : List Event}
    {found : Keyed String (List String)} (l : Location)
    (hconfig : config.get "functions" = .ok (.map (before ++ (handler, info) :: after)))
    (hnodup : ((before ++ (handler, info) :: after).map (·.1)).Nodup)
    (hlocation : info.get "handler" = .ok (.str (String.ofList l.text)))
    (hlocations : ∀ e ∈ before, ∀ location, e.2.get "handler" = .ok (.str location) →
      ∃ other : Location, location = String.ofList other.text)
    (hsources : HandlerModel.sources config infrastructure handlers = .ok found)
    (hhandler : (handler, events) ∈ handlers) :
    HandlerModel.located config (Path.folder infrastructure) handler =
        .ok (l.file (Path.folder infrastructure), String.ofList l.function) ∧
      Entered found (l.file (Path.folder infrastructure)) (String.ofList l.function) ∧
      (handlerAt? config (l.file (Path.folder infrastructure)) (.str (String.ofList l.function)) = some handler ↔
        ('/' ∈ l.above → l.folder (Path.folder infrastructure) ++ ['/'] <:+ l.above) ∧
        ∀ e ∈ before, ∃ other : Location, e.2.get "handler" = .ok (.str (String.ofList other.text)) ∧
          ¬ other.PassesFor (l.folder (Path.folder infrastructure)) l.module l.function) ∧
      ∀ above name separator, l.below = above ++ (name ++ [separator]) → EndsApart above → IsName name →
        l.folder (Path.folder infrastructure) = name := by
  have hnames : handler ∉ before.map (·.1) ∧ handler ∉ after.map (·.1) := by
    rw [List.map_append, List.map_cons] at hnodup
    obtain ⟨-, hrest, hacross⟩ := List.nodup_append.1 hnodup
    exact ⟨fun hmem => hacross handler hmem handler List.mem_cons_self rfl, (List.nodup_cons.1 hrest).1⟩
  have hlocated := l.located_eq (Path.folder infrastructure) hconfig
    (Keyed.find?_append_cons hnames.1 info after) hlocation
  refine ⟨hlocated, entered_of_sources hsources hhandler hlocated, ?_,
    fun _ _ _ => l.folder_eq_of_name (Path.folder infrastructure)⟩
  have hsearch : ∀ file function, handlerAt? config file (.str function) =
      firstHandlerAt? file function (before ++ (handler, info) :: after) := by
    simp [handlerAt?, hconfig]
  rw [hsearch, firstHandlerAt?_eq_some_iff hlocation hnames.1 hnames.2, l.isLocation_iff, l.passesFor_self]
  refine and_congr_right fun _ => forall_congr' fun e => forall_congr' fun he => ?_
  constructor
  · rintro ⟨location, hget, hother⟩
    obtain ⟨other, rfl⟩ := hlocations e he location hget
    exact ⟨other, hget, by rw [← l.isLocation_iff, hother]; simp⟩
  · rintro ⟨other, hget, hother⟩
    rw [← l.isLocation_iff, Bool.not_eq_true] at hother
    exact ⟨_, hget, hother⟩

def runIn (module : List Char) (h : IsName module) : Location where
  above := []
  module := module
  function := "run".toList
  ends := fun _ hc => by cases hc
  oneLine := List.not_mem_nil
  named := h
  nonempty := by decide
  word := by decide

def app : Location := runIn "app".toList (by decide)

def myapp : Location := runIn "myapp".toList (by decide)

def functionAt (l : Location) : Value := .map [("handler", .str (String.ofList l.text))]

def withFunctions (functions : List (String × Location)) : Value :=
  .map [("functions", .map (functions.map fun f => (f.1, functionAt f.2)))]

theorem longer_module_name_taken_first :
    handlerAt? (withFunctions [("a", app), ("b", myapp)]) "/r/app.py" (.str "run") = some "a" ∧
      handlerAt? (withFunctions [("b", myapp), ("a", app)]) "/r/app.py" (.str "run") ≠ some "a" := by
  have hfile : app.file (Path.folder "/r/serverless.yml") = "/r/app.py" := by decide +kernel
  constructor
  · have hconfig : (withFunctions [("a", app), ("b", myapp)]).get "functions" =
        .ok (.map ([] ++ ("a", functionAt app) :: [("b", functionAt myapp)])) := rfl
    have hsources : HandlerModel.sources (withFunctions [("a", app), ("b", myapp)]) "/r/serverless.yml"
        [("a", []), ("b", [])] = .ok [("/r/app.py", ["run"]), ("/r/myapp.py", ["run"])] :=
      eq_ok_of_toOption (by decide +kernel)
    obtain ⟨-, -, hiff, -⟩ := handlerAt?_registered_iff app hconfig (by decide) rfl (by simp) hsources
      List.mem_cons_self
    rw [hfile] at hiff
    exact hiff.2 ⟨by simp [app, runIn], by simp⟩
  · have hconfig : (withFunctions [("b", myapp), ("a", app)]).get "functions" =
        .ok (.map ([("b", functionAt myapp)] ++ ("a", functionAt app) :: [])) := rfl
    have hsources : HandlerModel.sources (withFunctions [("b", myapp), ("a", app)]) "/r/serverless.yml"
        [("b", []), ("a", [])] = .ok [("/r/myapp.py", ["run"]), ("/r/app.py", ["run"])] :=
      eq_ok_of_toOption (by decide +kernel)
    have hlocations : ∀ e ∈ [("b", functionAt myapp)], ∀ location, e.2.get "handler" = .ok (.str location) →
        ∃ other : Location, location = String.ofList other.text := by
      intro e he location hget
      obtain rfl := List.mem_singleton.1 he
      cases hget
      exact ⟨myapp, rfl⟩
    obtain ⟨-, -, hiff, -⟩ := handlerAt?_registered_iff app hconfig (by decide) rfl hlocations hsources
      (List.mem_cons_of_mem _ List.mem_cons_self)
    rw [hfile] at hiff
    intro hfound
    obtain ⟨other, hother, hpasses⟩ := (hiff.1 hfound).2 _ (List.mem_singleton.2 rfl)
    have hmyapp : myapp = other := by
      have htext : Except.ok (Value.str (String.ofList myapp.text)) =
          (.ok (.str (String.ofList other.text)) : Except Fault Value) := hother
      simp only [Except.ok.injEq, Value.str.injEq] at htext
      exact Location.text_injective (String.ofList_injective htext)
    exact hpasses (hmyapp ▸ (by decide))

end ServerlessTaint
