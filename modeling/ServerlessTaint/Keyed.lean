/-!
# Finite maps and sets in order of first insertion

Configurations, reports and collected facts are shown in the order in which their keys were first
added, so maps are lists of entries and sets are lists without repetition.
-/

namespace ServerlessTaint

/-- A finite map as a list of entries, in the order in which the keys were first added. -/
abbrev Keyed (κ α : Type) := List (κ × α)

namespace Keyed

variable {κ α : Type} [DecidableEq κ]

def find? (key : κ) : Keyed κ α → Option α
  | [] => none
  | (k, a) :: rest => if k = key then some a else find? key rest

def has (key : κ) (entries : Keyed κ α) : Bool := (find? key entries).isSome

/-- Gives a key a value: in its old place if it has one, at the end otherwise. -/
def set (key : κ) (value : α) : Keyed κ α → Keyed κ α
  | [] => [(key, value)]
  | (k, a) :: rest => if k = key then (k, value) :: rest else (k, a) :: set key value rest

def remove (key : κ) (entries : Keyed κ α) : Keyed κ α := entries.filter fun e => e.1 ≠ key

def keys (entries : Keyed κ α) : List κ := entries.map (·.1)

def modify (key : κ) (fallback : α) (f : α → α) (entries : Keyed κ α) : Keyed κ α :=
  set key (f ((find? key entries).getD fallback)) entries

def setAll (entries new : Keyed κ α) : Keyed κ α := new.foldl (fun m e => set e.1 e.2 m) entries

/-- A map from entries in which a later one replaces the value of an earlier one. -/
def ofEntries (entries : List (κ × α)) : Keyed κ α := setAll [] entries

def sortByKey (entries : Keyed String α) : Keyed String α :=
  entries.mergeSort fun a b => !(decide (b.1 < a.1))

end Keyed

def sortTexts (texts : List String) : List String := texts.mergeSort fun a b => !(decide (b < a))

/-- Adds an element to a set at the end, unless it is there already. -/
def addNew {α : Type} [DecidableEq α] (xs : List α) (x : α) : List α :=
  if x ∈ xs then xs else xs ++ [x]

def addAllNew {α : Type} [DecidableEq α] (xs ys : List α) : List α := ys.foldl addNew xs

def distinct {α : Type} [DecidableEq α] (xs : List α) : List α := addAllNew [] xs

end ServerlessTaint
