import Mathlib.Data.List.Nodup
import ServerlessTaint.Proofs.HandlerPermissions
import ServerlessTaint.Proofs.ResolvedResources

/-!
# Grants in shared memory

The sets of grants stand in memory, and a table of resources holds their addresses, so two tables may share a
set. To merge the grants of a handler into those of the provider, the table of the provider is copied with its
sets; then sets of the copy are added to in place, and where the copy has none it takes over the set of the handler
itself. `exists_mergeTables` says that what stood in memory before stays as it was, and that what the new table shows
is the merged grants. So any number of handlers are answered as if each were the first (`resources_merged_for_each`).

The grants on resources that hold for a handler are made from those of the provider and its own, one resource after the
other (`run_resourcesFor`), and can be told resource by resource (`isMerged_merged`).
-/

namespace ServerlessTaint

open List

theorem Keyed.nodup_keys_set {κ α : Type} [DecidableEq κ] {entries : Keyed κ α} (h : (keys entries).Nodup) (key : κ)
    (value : α) : (keys (set key value entries)).Nodup := by
  rw [keys_set]
  exact nodup_addNew h key

namespace Permission

def HasFlag (facts : PluginFacts) (handler : String) (override : Bool) : Prop :=
  ∃ config parameters flags, facts.config = some config ∧ Keyed.find? Roles.pluginName config = some parameters ∧
    Keyed.find? Roles.overrideName parameters = some flags ∧ ∀ flag, (handler, flag) ∈ flags ↔ flag = override

def HasResources (facts : PluginFacts) (handler : String) (own : ResourceGrants) : Prop :=
  ∃ stored, facts.resources = some stored ∧ Keyed.find? handler stored = some own

/-- Grants are those of the provider and those of a handler, merged resource by resource. -/
structure IsMerged (override : Bool) (provided own all : ResourceGrants) : Prop where
  mem_keys_iff : ∀ resource,
    resource ∈ Keyed.keys all ↔ resource ∈ Keyed.keys provided ∨ resource ∈ Keyed.keys own
  find?_eq : override = true → ∀ resource,
    Keyed.find? resource all = (Keyed.find? resource own).or (Keyed.find? resource provided)
  holds_iff : override = false → ∀ resource grant,
    Keyed.Holds all resource grant ↔ Keyed.Holds provided resource grant ∨ Keyed.Holds own resource grant

/-! ## One resource after the other -/

def counting (override : Bool) (provided : Option (List Grant)) (own : List Grant) : List Grant :=
  if override then own else addAllNew (provided.getD []) own

def mergeEntry (override : Bool) (all : ResourceGrants) (entry : String × List Grant) : ResourceGrants :=
  Keyed.set entry.1 (counting override (Keyed.find? entry.1 all) entry.2) all

def merged (override : Bool) (provided own : ResourceGrants) : ResourceGrants :=
  own.foldl (mergeEntry override) provided

section

variable {override : Bool} {provided own : ResourceGrants}

theorem keys_merged (override : Bool) (provided own : ResourceGrants) :
    Keyed.keys (merged override provided own) = addAllNew (Keyed.keys provided) (Keyed.keys own) := by
  unfold merged addAllNew
  induction own generalizing provided with
  | nil => rfl
  | cons entry own ih => rw [foldl_cons, ih, mergeEntry, Keyed.keys_set]; rfl

/-- A resource of the handler is met once, so what it had before is what the provider gives it. -/
theorem find?_merged (hown : (Keyed.keys own).Nodup) (resource : String) :
    Keyed.find? resource (merged override provided own) = match Keyed.find? resource own with
      | some grants => some (counting override (Keyed.find? resource provided) grants)
      | none => Keyed.find? resource provided := by
  induction own generalizing provided with
  | nil => rfl
  | cons entry own ih =>
    obtain ⟨name, grants⟩ := entry
    obtain ⟨hname, hown⟩ := nodup_cons.1 hown
    have hlater := @ih (mergeEntry override provided (name, grants)) hown
    rw [mergeEntry, Keyed.find?_set] at hlater
    refine hlater.trans ?_
    by_cases hsame : name = resource
    · subst hsame
      simp [Keyed.find?, Keyed.find?_eq_none_iff.2 hname]
    · simp [Keyed.find?, hsame]

/-- **Grants are merged resource by resource.** -/
theorem isMerged_merged (hown : (Keyed.keys own).Nodup) :
    IsMerged override provided own (merged override provided own) where
  mem_keys_iff resource := by rw [keys_merged, mem_addAllNew]
  find?_eq hoverride resource := by
    rw [find?_merged hown, hoverride]
    cases Keyed.find? resource own <;> rfl
  holds_iff hoverride resource grant := by
    unfold Keyed.Holds
    rw [find?_merged hown, hoverride]
    cases Keyed.find? resource own with
    | none => simp
    | some grants => exact mem_addAllNew

end

/-! ## Asking the facts -/

section

variable {facts : PluginFacts} {handler : String} {override : Bool} {own : ResourceGrants}

section

variable (h : HasFlag facts handler override)

include h

theorem HasFlag.roleIn_eq : roleIn (facts.config.getD []) handler = .ok (some override) := by
  obtain ⟨config, parameters, flags, hconfig, hparameters, hflags, honly⟩ := h
  have hmem : (handler, override) ∈ flags := (honly override).2 rfl
  rw [roleIn, hconfig, Option.getD_some, hparameters]
  simp only [hflags]
  cases hfound : flags.find? fun flag => flag.1 == handler with
  | none => simpa using find?_eq_none.1 hfound _ hmem
  | some flag =>
    obtain ⟨name, flag⟩ := flag
    obtain rfl : name = handler := by simpa using find?_some hfound
    rw [(honly flag).1 (mem_of_find?_eq_some hfound)]

theorem HasFlag.asked_eq : asked facts = facts := by
  obtain ⟨config, -, -, hconfig, -⟩ := h
  obtain ⟨stored, events, handlers, resources⟩ := facts
  cases hconfig
  rfl

theorem HasFlag.run_hasRoles : hasRoles.run.run facts = (.ok true, facts) := by
  have hrun := run_hasRoles_eq facts
  rw [h.asked_eq] at hrun
  obtain ⟨config, parameters, -, hconfig, hparameters, -⟩ := h
  rwa [hconfig, Option.getD_some, Keyed.has, hparameters] at hrun

theorem HasFlag.run_overrides : (overrides handler).run.run facts = (.ok override, facts) := by
  have hrole := h.roleIn_eq
  have hasked := h.asked_eq
  obtain ⟨config, parameters, -, hconfig, hparameters, -⟩ := h
  have hknown : Keyed.find? Roles.pluginName (facts.config.getD []) = some parameters := by
    rw [hconfig, Option.getD_some, hparameters]
  rw [run_overrides_eq hknown, hrole, hasked]
  cases override <;> rfl

end

theorem HasResources.run_resourcesFor (h : HasResources facts handler own) :
    (ask (PluginFacts.resourcesFor (.str handler) .null)).run.run facts = (.ok (some own), facts) := by
  obtain ⟨stored, hstored, hfound⟩ := h
  obtain ⟨config, events, handlers, resources⟩ := facts
  cases hstored
  have hlook : PluginFacts.lookUp (.str handler) stored = some own := hfound
  change (Except.ok ((PluginFacts.lookUp (.str handler) stored).map _), _) = _
  rw [hlook]
  rfl

/-- For a handler with an override flag and own grants the answer is the merged grants, and the facts stay. -/
theorem run_resourcesFor (hflag : HasFlag facts handler override) (hresources : HasResources facts handler own)
    (provided : ResourceGrants) :
    (resourcesFor provided (some handler)).run.run facts = (.ok (merged override provided own), facts) := by
  have hask := hresources.run_resourcesFor
  obtain ⟨stored, hstored, -⟩ := hresources
  have hempty : ¬facts.isEmpty := by simp [PluginFacts.isEmpty, PluginFacts.sections, hstored]
  have hhas : (facts.hasResources && true) := by simp [PluginFacts.hasResources, hstored]
  have hget : (get : Decide PluginFacts).run.run facts = (.ok facts, facts) := rfl
  rw [resourcesFor, run_bind_of_ok hget, if_neg hempty, run_bind_of_ok hflag.run_hasRoles, if_pos hhas,
    run_bind_of_ok hflag.run_overrides]
  cases override with
  | true =>
    rw [if_pos rfl, run_bind_of_ok hask]
    rfl
  | false =>
    rw [if_neg (by decide), run_bind_of_ok hask]
    rfl

end

end Permission

variable {α κ β : Type}

theorem distinct_of_nodup [DecidableEq α] {xs : List α} (h : xs.Nodup) : distinct xs = xs := by
  have later : ∀ before after : List α, (before ++ after).Nodup → addAllNew before after = before ++ after := by
    intro before after
    induction after generalizing before with
    | nil => simp [addAllNew]
    | cons x after ih =>
      intro h
      have hx : x ∉ before := by
        intro hmem
        exact (nodup_append.1 h).2.2 x hmem x mem_cons_self rfl
      rw [append_cons] at h ⊢
      rw [addAllNew, foldl_cons, addNew, if_neg hx]
      exact ih _ h
  exact later [] xs h

theorem Keyed.map_set [DecidableEq κ] (f : α → β) (key : κ) (value : α) (entries : Keyed κ α) :
    (set key value entries).map (fun e => (e.1, f e.2)) = set key (f value) (entries.map fun e => (e.1, f e.2)) := by
  induction entries with
  | nil => rfl
  | cons e entries ih =>
    by_cases hkey : e.1 = key
    · simp [set, hkey]
    · simp [set, hkey, ih]

/-- Two views of a map that differ at one key only. -/
theorem Keyed.map_eq_set [DecidableEq κ] {f g : α → β} {key : κ} {a : α} {entries : Keyed κ α}
    (hkeys : (keys entries).Nodup) (hfound : find? key entries = some a)
    (hsame : ∀ e ∈ entries, e.1 ≠ key → g e.2 = f e.2) :
    entries.map (fun e => (e.1, g e.2)) = set key (g a) (entries.map fun e => (e.1, f e.2)) := by
  induction entries with
  | nil => cases hfound
  | cons e entries ih =>
    obtain ⟨k, b⟩ := e
    obtain ⟨hk, hkeys⟩ := nodup_cons.1 hkeys
    by_cases hkey : k = key
    · subst hkey
      obtain rfl : b = a := by simpa [find?] using hfound
      have hrest : entries.map (fun e => (e.1, g e.2)) = entries.map fun e => (e.1, f e.2) := by
        refine map_congr_left fun e he => ?_
        have hne : e.1 ≠ k := by
          rintro rfl
          exact hk (mem_map.2 ⟨e, he, rfl⟩)
        rw [hsame e (mem_cons_of_mem _ he) hne]
      simp [set, hrest]
    · simp only [find?, if_neg hkey] at hfound
      have hrest := ih hkeys hfound fun e he => hsame e (mem_cons_of_mem _ he)
      simp [set, hkey, hrest, hsame _ mem_cons_self hkey]

theorem run_bind_of_run {σ : Type} {x : StateM σ α} {a : α} {s s' : σ} (h : x.run s = (a, s')) (f : α → StateM σ β) :
    (x >>= f).run s = (f a).run s' := by
  rw [StateT.run_bind, h]
  rfl

namespace Permission

/-! ## Memory -/

/-- The place of a set or of a table in memory. -/
abbrev Address := Nat

/-- A set of grants. -/
structure GrantSet where
  grants : List Grant
  nodup : grants.Nodup

/-- A table of resources, each with the address of its set. -/
structure GrantTable where
  entries : Keyed String Address
  nodup : (Keyed.keys entries).Nodup

/-- The sets and the tables that have been made so far. -/
structure Memory where
  sets : List GrantSet
  tables : List GrantTable

def GrantSet.union (s t : GrantSet) : GrantSet := ⟨addAllNew s.grants t.grants, Grants.nodup_addAllNew s.nodup _⟩

namespace GrantTable

def put (resource : String) (a : Address) (table : GrantTable) : GrantTable :=
  ⟨Keyed.set resource a table.entries, Keyed.nodup_keys_set table.nodup resource a⟩

def addresses (table : GrantTable) : List Address := table.entries.map (·.2)

def moved (move : Address → Address) (table : GrantTable) : GrantTable where
  entries := table.entries.map fun e => (e.1, move e.2)
  nodup := by
    have hkeys : Keyed.keys (table.entries.map fun e => (e.1, move e.2)) = Keyed.keys table.entries := by
      simp [Keyed.keys]
    rw [hkeys]
    exact table.nodup

end GrantTable

namespace Memory

def setAt (m : Memory) (a : Address) : GrantSet := m.sets.getD a ⟨[], List.nodup_nil⟩

def tableAt (m : Memory) (a : Address) : GrantTable := m.tables.getD a ⟨[], List.nodup_nil⟩

def shown (m : Memory) (table : GrantTable) : ResourceGrants :=
  table.entries.map fun e => (e.1, (m.setAt e.2).grants)

def grantsAt (m : Memory) (a : Address) : ResourceGrants := m.shown (m.tableAt a)

/-- Every table shows sets that have been made. -/
def Sound (m : Memory) : Prop := ∀ table ∈ m.tables, ∀ e ∈ table.entries, e.2 < m.sets.length

/-- All that stood in memory still stands there, unchanged. -/
structure Extends (m m' : Memory) : Prop where
  sets : m.sets <+: m'.sets
  tables : m.tables <+: m'.tables

theorem Extends.refl (m : Memory) : m.Extends m := ⟨prefix_rfl, prefix_rfl⟩

theorem Extends.trans {m₁ m₂ m₃ : Memory} (h : m₁.Extends m₂) (h' : m₂.Extends m₃) : m₁.Extends m₃ :=
  ⟨h.sets.trans h'.sets, h.tables.trans h'.tables⟩

theorem getD_of_prefix {α : Type} {xs ys : List α} (h : xs <+: ys) {i : Nat} (hi : i < xs.length) (a : α) :
    ys.getD i a = xs.getD i a := by
  obtain ⟨rest, rfl⟩ := h
  simp [getElem?_append_left hi]

variable {m m' : Memory} {a : Address}

theorem Extends.setAt (h : m.Extends m') (ha : a < m.sets.length) : m'.setAt a = m.setAt a :=
  getD_of_prefix h.sets ha _

theorem Extends.tableAt (h : m.Extends m') (ha : a < m.tables.length) : m'.tableAt a = m.tableAt a :=
  getD_of_prefix h.tables ha _

theorem tableAt_mem (ha : a < m.tables.length) : m.tableAt a ∈ m.tables := by
  simp [Memory.tableAt, ha]

/-- A table that stood in memory shows what it showed. -/
theorem Extends.grantsAt (h : m.Extends m') (hsound : m.Sound) (ha : a < m.tables.length) :
    m'.grantsAt a = m.grantsAt a := by
  rw [Memory.grantsAt, h.tableAt ha, Memory.grantsAt]
  refine map_congr_left fun e he => ?_
  rw [h.setAt (hsound _ (tableAt_mem ha) e he)]

end Memory

/-! ## Merging in memory -/

/-- Copies a table with its sets; resources that share a set share its copy. -/
def copyTable (source : Address) : StateM Memory Address := do
  let m ← get
  let table := m.tableAt source
  let originals := distinct table.addresses
  set (⟨m.sets ++ originals.map m.setAt,
    m.tables ++ [table.moved fun a => m.sets.length + originals.idxOf a]⟩ : Memory)
  return m.tables.length

def putSet (target : Address) (resource : String) (a : Address) : StateM Memory Unit :=
  modify fun m => { m with tables := m.tables.set target ((m.tableAt target).put resource a) }

def addSet (target source : Address) : StateM Memory Unit :=
  modify fun m => { m with sets := m.sets.set target ((m.setAt target).union (m.setAt source)) }

/-- Merges the set of one resource into a table. A resource that is new takes over the set itself. -/
def mergeSet (override : Bool) (target : Address) (entry : String × Address) : StateM Memory Unit := do
  if override then putSet target entry.1 entry.2
  else
    match Keyed.find? entry.1 ((← get).tableAt target).entries with
    | some a => addSet a entry.2
    | none => putSet target entry.1 entry.2

/-- Merges the table of a handler into a copy of the table of the provider. -/
def mergeTables (override : Bool) (provided own : Address) : StateM Memory Address := do
  let target ← copyTable provided
  ((← get).tableAt own).entries.forM (mergeSet override target)
  return target

def Memory.grown (m : Memory) (sets : List GrantSet) (table : GrantTable) : Memory :=
  ⟨m.sets ++ sets, m.tables ++ [table]⟩

/-- What holds while resources are merged into a new table: a resource that shows an old set was merged before, and
no two resources share a new set. -/
structure Underway (m : Memory) (merged : List String) (sets : List GrantSet) (table : GrantTable) : Prop where
  made : ∀ e ∈ table.entries, e.2 < m.sets.length + sets.length
  old : ∀ e ∈ table.entries, e.2 < m.sets.length → e.1 ∈ merged
  apart : ∀ e ∈ table.entries, ∀ e' ∈ table.entries, m.sets.length ≤ e.2 → e.2 = e'.2 → e.1 = e'.1

section

variable {m : Memory} {sets : List GrantSet} {table : GrantTable} {done : List String} {override : Bool}

theorem extends_grown (m : Memory) (sets : List GrantSet) (table : GrantTable) : m.Extends (m.grown sets table) :=
  ⟨prefix_append _ _, prefix_append _ _⟩

theorem tableAt_grown : (m.grown sets table).tableAt m.tables.length = table := by
  simp [Memory.grown, Memory.tableAt]

theorem run_putSet (resource : String) (a : Address) :
    (putSet m.tables.length resource a).run (m.grown sets table) = ((), m.grown sets (table.put resource a)) := by
  change ((), (⟨_, (m.grown sets table).tables.set _ (((m.grown sets table).tableAt _).put resource a)⟩ : Memory)) = _
  rw [tableAt_grown]
  simp [Memory.grown]

variable {a provided : Address}

theorem run_addSet (ha : m.sets.length ≤ a) (source : Address) :
    (addSet a source).run (m.grown sets table) =
      ((), m.grown (sets.set (a - m.sets.length)
        (((m.grown sets table).setAt a).union ((m.grown sets table).setAt source))) table) := by
  change ((), (⟨(m.grown sets table).sets.set a _, _⟩ : Memory)) = _
  simp [Memory.grown, set_append_right _ _ ha]

theorem Underway.put (h : Underway m done sets table) (resource : String) (ha : a < m.sets.length) :
    Underway m (resource :: done) sets (table.put resource a) := by
  have hcases : ∀ e ∈ (table.put resource a).entries, e = (resource, a) ∨ e ∈ table.entries :=
    fun e he => Keyed.mem_set he
  refine ⟨fun e he => ?_, fun e he hold => ?_, fun e he e' he' hnew heq => ?_⟩
  · rcases hcases e he with rfl | he
    · exact Nat.lt_add_right _ ha
    · exact h.made e he
  · rcases hcases e he with rfl | he
    · exact mem_cons_self
    · exact mem_cons_of_mem _ (h.old e he hold)
  · rcases hcases e he with rfl | he
    · exact absurd ha (Nat.not_lt.2 hnew)
    · rcases hcases e' he' with rfl | he'
      · rw [heq] at hnew
        exact absurd ha (Nat.not_lt.2 hnew)
      · exact h.apart e he e' he' hnew heq

theorem shown_put (resource : String) (ha : a < m.sets.length) :
    (m.grown sets (table.put resource a)).shown (table.put resource a) =
      Keyed.set resource (m.setAt a).grants ((m.grown sets table).shown table) := by
  have hset : ((m.grown sets table).setAt a).grants = (m.setAt a).grants := by
    rw [(extends_grown m sets table).setAt ha]
  rw [← hset]
  exact Keyed.map_set (fun a => ((m.grown sets table).setAt a).grants) resource a table.entries

/-- Adding to a new set in place changes what the one resource shows that has it. -/
theorem Underway.shown_add (h : Underway m done sets table) {resource : String}
    (hfound : Keyed.find? resource table.entries = some a) (ha : m.sets.length ≤ a) (s : GrantSet) :
    (m.grown (sets.set (a - m.sets.length) s) table).shown table =
      Keyed.set resource s.grants ((m.grown sets table).shown table) := by
  have hmem := Keyed.mem_of_find? hfound
  have hmade := h.made _ hmem
  have hget : ∀ b, (m.grown (sets.set (a - m.sets.length) s) table).setAt b =
      if b = a then s else (m.grown sets table).setAt b := by
    intro b
    rw [Memory.setAt, Memory.setAt, Memory.grown, ← set_append_right _ _ ha]
    by_cases hb : b = a
    · subst hb
      have hlt : b < (m.sets ++ sets).length := by simpa using hmade
      simp [getElem?_set_self hlt]
    · simp [Memory.grown, getElem?_set_ne (Ne.symm hb), hb]
  have hself : ((m.grown (sets.set (a - m.sets.length) s) table).setAt a).grants = s.grants := by rw [hget, if_pos rfl]
  rw [← hself]
  refine Keyed.map_eq_set (f := fun b => ((m.grown sets table).setAt b).grants)
    (g := fun b => ((m.grown (sets.set (a - m.sets.length) s) table).setAt b).grants) table.nodup hfound ?_
  intro e he hne
  have hother : e.2 ≠ a := fun heq => hne (h.apart _ hmem e he ha heq.symm).symm
  rw [hget, if_neg hother]

/-- One more resource is merged, and the old memory is still there. -/
theorem Underway.exists_mergeSet (h : Underway m done sets table) (override : Bool) {entry : String × Address}
    (hnew : entry.1 ∉ done) (ha : entry.2 < m.sets.length) :
    ∃ sets' table', (mergeSet override m.tables.length entry).run (m.grown sets table) = ((), m.grown sets' table') ∧
      Underway m (entry.1 :: done) sets' table' ∧
      (m.grown sets' table').shown table' =
        mergeEntry override ((m.grown sets table).shown table) (entry.1, (m.setAt entry.2).grants) := by
  have hshown : Keyed.find? entry.1 ((m.grown sets table).shown table) =
      (Keyed.find? entry.1 table.entries).map fun a => ((m.grown sets table).setAt a).grants :=
    Keyed.find?_map entry.1 (fun a => ((m.grown sets table).setAt a).grants) table.entries
  have hput : ∀ {value : List Grant}, value = (m.setAt entry.2).grants →
      (m.grown sets (table.put entry.1 entry.2)).shown (table.put entry.1 entry.2) =
        Keyed.set entry.1 value ((m.grown sets table).shown table) := by
    rintro value rfl
    exact shown_put entry.1 ha
  cases override with
  | true => exact ⟨sets, table.put entry.1 entry.2, run_putSet _ _, h.put entry.1 ha, hput rfl⟩
  | false =>
    have hrun : (mergeSet false m.tables.length entry).run (m.grown sets table) =
        (match Keyed.find? entry.1 ((m.grown sets table).tableAt m.tables.length).entries with
          | some a => addSet a entry.2
          | none => putSet m.tables.length entry.1 entry.2).run (m.grown sets table) := rfl
    rw [tableAt_grown] at hrun
    cases hfound : Keyed.find? entry.1 table.entries with
    | none =>
      rw [hfound] at hrun hshown
      refine ⟨sets, table.put entry.1 entry.2, hrun.trans (run_putSet _ _), h.put entry.1 ha, hput ?_⟩
      rw [hshown]
      exact distinct_of_nodup (m.setAt entry.2).nodup
    | some a =>
      rw [hfound] at hrun hshown
      -- The resource was not merged before, so its set is one of the copies.
      have hcopy : m.sets.length ≤ a := by
        refine Nat.not_lt.1 fun hold => hnew ?_
        exact h.old (entry.1, a) (Keyed.mem_of_find? hfound) hold
      refine ⟨_, table, hrun.trans (run_addSet hcopy _), ?_, ?_⟩
      · refine ⟨fun e he => ?_, fun e he hold => mem_cons_of_mem _ (h.old e he hold), h.apart⟩
        rw [length_set]
        exact h.made e he
      · rw [h.shown_add hfound hcopy, mergeEntry, hshown]
        rw [(extends_grown m sets table).setAt ha]
        rfl

/-- Resources are merged one after the other. -/
theorem Underway.exists_forM (h : Underway m done sets table) (override : Bool) {entries : Keyed String Address}
    (hkeys : (Keyed.keys entries).Nodup) (hnew : ∀ e ∈ entries, e.1 ∉ done)
    (hmade : ∀ e ∈ entries, e.2 < m.sets.length) :
    ∃ done' sets' table',
      (entries.forM (mergeSet override m.tables.length)).run (m.grown sets table) = ((), m.grown sets' table') ∧
        Underway m done' sets' table' ∧
        (m.grown sets' table').shown table' = merged override ((m.grown sets table).shown table)
          (entries.map fun e => (e.1, (m.setAt e.2).grants)) := by
  induction entries generalizing done sets table with
  | nil => exact ⟨done, sets, table, rfl, h, rfl⟩
  | cons entry entries ih =>
    obtain ⟨hentry, hkeys⟩ := nodup_cons.1 hkeys
    obtain ⟨sets₁, table₁, hrun, h₁, hshown⟩ :=
      h.exists_mergeSet override (hnew entry mem_cons_self) (hmade entry mem_cons_self)
    have hlater : ∀ e ∈ entries, e.1 ∉ entry.1 :: done := by
      intro e he hmem
      rcases mem_cons.1 hmem with heq | hmem
      · exact hentry (mem_map.2 ⟨e, he, heq⟩)
      · exact hnew e (mem_cons_of_mem _ he) hmem
    obtain ⟨done', sets', table', hrest, h', hshown'⟩ :=
      ih h₁ hkeys hlater fun e he => hmade e (mem_cons_of_mem _ he)
    refine ⟨done', sets', table', ?_, h', ?_⟩
    · have hstep : ((entry :: entries).forM (mergeSet override m.tables.length)).run (m.grown sets table) =
          (entries.forM (mergeSet override m.tables.length)).run
            ((mergeSet override m.tables.length entry).run (m.grown sets table)).2 := rfl
      rw [hstep, hrun]
      exact hrest
    · rw [hshown', hshown]
      rfl

/-- The copy of a table whose resources share no sets: its resources share none either, and it shows the same. -/
theorem underway_copy (hapart : (m.tableAt provided).addresses.Nodup) :
    ∃ sets table, (copyTable provided).run m = (m.tables.length, m.grown sets table) ∧
      Underway m [] sets table ∧ (m.grown sets table).shown table = m.grantsAt provided := by
  rw [Memory.grantsAt]
  refine ⟨(m.tableAt provided).addresses.map m.setAt,
    (m.tableAt provided).moved fun a => m.sets.length + (m.tableAt provided).addresses.idxOf a, ?_, ?_⟩
  · change (m.tables.length, m.grown ((distinct _).map m.setAt) _) = _
    rw [distinct_of_nodup hapart]
  generalize m.tableAt provided = source at hapart
  have hmem : ∀ e ∈ source.entries, e.2 ∈ source.addresses := fun e he => mem_map_of_mem he
  have hlt : ∀ e ∈ source.entries, source.addresses.idxOf e.2 < source.addresses.length :=
    fun e he => idxOf_lt_length_iff.2 (hmem e he)
  refine ⟨⟨fun e he => ?_, fun e he hold => ?_, fun e he e' he' _ heq => ?_⟩, ?_⟩
  · obtain ⟨original, horiginal, rfl⟩ := mem_map.1 he
    simpa using hlt original horiginal
  · obtain ⟨original, horiginal, rfl⟩ := mem_map.1 he
    exact absurd hold (Nat.not_lt.2 (Nat.le_add_right _ _))
  · obtain ⟨original, horiginal, rfl⟩ := mem_map.1 he
    obtain ⟨other, hother, rfl⟩ := mem_map.1 he'
    have hsame : original.2 = other.2 := (idxOf_inj (hmem original horiginal)).1 (Nat.add_left_cancel heq)
    exact congrArg (·.1) (inj_on_of_nodup_map hapart horiginal hother hsame)
  · have hget : ∀ e ∈ source.entries, (m.sets ++ source.addresses.map m.setAt).getD
        (m.sets.length + source.addresses.idxOf e.2) ⟨[], nodup_nil⟩ = m.setAt e.2 := by
      intro e he
      rw [getD_eq_getElem?_getD, getElem?_append_right (Nat.le_add_right _ _), Nat.add_sub_cancel_left,
        getElem?_map, getElem?_eq_getElem (hlt e he), getElem_idxOf]
      rfl
    rw [Memory.shown, Memory.shown, GrantTable.moved, map_map]
    refine map_congr_left fun e he => ?_
    exact congrArg (fun s : GrantSet => (e.1, s.grants)) (hget e he)

/-- Two tables are merged into a new one. What stood in memory stays as it was, the sets that the new table took
over included. -/
theorem exists_mergeTables (hsound : m.Sound) {own : Address} (hown : own < m.tables.length)
    (hapart : (m.tableAt provided).addresses.Nodup) (override : Bool) :
    ∃ m', (mergeTables override provided own).run m = (m.tables.length, m') ∧ m.Extends m' ∧ m'.Sound ∧
      m.tables.length < m'.tables.length ∧
      m'.grantsAt m.tables.length = merged override (m.grantsAt provided) (m.grantsAt own) := by
  obtain ⟨sets, table, hcopy, h, hshown⟩ := underway_copy hapart
  have hmade : ∀ e ∈ (m.tableAt own).entries, e.2 < m.sets.length := hsound _ (Memory.tableAt_mem hown)
  obtain ⟨done, sets', table', hloop, h', hshown'⟩ :=
    h.exists_forM override (m.tableAt own).nodup (fun _ _ => not_mem_nil) hmade
  have hrun : (mergeTables override provided own).run m =
      (((copyTable provided).run m).1,
        ((((((copyTable provided).run m).2.tableAt own).entries.forM
          (mergeSet override ((copyTable provided).run m).1)).run ((copyTable provided).run m).2)).2) := rfl
  rw [hcopy, (extends_grown m sets table).tableAt hown, hloop] at hrun
  refine ⟨m.grown sets' table', hrun, extends_grown m sets' table', ?_, ?_, ?_⟩
  · intro t ht e he
    have hlength : (m.grown sets' table').sets.length = m.sets.length + sets'.length := length_append
    rw [hlength]
    rcases mem_append.1 ht with ht | ht
    · exact Nat.lt_add_right _ (hsound t ht e he)
    · rw [mem_singleton.1 ht] at he
      exact h'.made e he
  · simp [Memory.grown]
  · rw [Memory.grantsAt, tableAt_grown, hshown', hshown]
    rfl

end

/-! ## Handlers one after the other -/

def Memory.Shows (m : Memory) (a : Address) (grants : ResourceGrants) : Prop :=
  a < m.tables.length ∧ m.grantsAt a = grants

theorem Memory.Extends.shows {m m' : Memory} (h : m.Extends m') (hsound : m.Sound) {a : Address}
    {grants : ResourceGrants} (ha : m.Shows a grants) : m'.Shows a grants :=
  ⟨Nat.lt_of_lt_of_le ha.1 h.tables.length_le, (h.grantsAt hsound ha.1).trans ha.2⟩

/-- A question for the grants of a handler, with what the facts say about it. -/
structure Asker where
  handler : String
  override : Bool
  own : ResourceGrants

/-- The facts hold the override flag of a handler and its own grants, no resource twice. -/
structure Asker.Known (facts : PluginFacts) (asker : Asker) : Prop where
  flag : HasFlag facts asker.handler asker.override
  resources : HasResources facts asker.handler asker.own
  nodup : (Keyed.keys asker.own).Nodup

section

variable {facts : PluginFacts} {askers : List Asker} {provided : ResourceGrants}

theorem run_mapM_resourcesFor (h : ∀ asker ∈ askers, asker.Known facts) :
    (askers.mapM fun asker => resourcesFor provided (some asker.handler)).run.run facts =
      (.ok (askers.map fun asker => merged asker.override provided asker.own), facts) := by
  induction askers with
  | nil => rfl
  | cons asker askers ih =>
    have hfirst := h asker mem_cons_self
    have hrest := ih fun other hother => h other (mem_cons_of_mem _ hother)
    rw [mapM_cons, run_bind_of_ok (run_resourcesFor hfirst.flag hfirst.resources provided),
      run_bind_of_ok hrest]
    rfl

/-- In memory the tables of any number of handlers are merged, each with the provider's as it was at first. -/
theorem exists_mapM_mergeTables {m : Memory} {place : Address} {places : String → Address} (hsound : m.Sound)
    (hprovided : m.Shows place provided) (hapart : (m.tableAt place).addresses.Nodup)
    (hown : ∀ asker ∈ askers, m.Shows (places asker.handler) asker.own) :
    ∃ addresses m',
      (askers.mapM fun asker => mergeTables asker.override place (places asker.handler)).run m = (addresses, m') ∧
        m.Extends m' ∧
        addresses.map m'.grantsAt = askers.map fun asker => merged asker.override provided asker.own := by
  induction askers generalizing m with
  | nil => exact ⟨[], m, rfl, .refl m, rfl⟩
  | cons asker askers ih =>
    have hasker := hown asker mem_cons_self
    obtain ⟨m₁, hrun, hextends, hsound₁, hlength, hshown⟩ :=
      exists_mergeTables hsound hasker.1 hapart asker.override
    rw [hprovided.2, hasker.2] at hshown
    -- The next handler finds the tables as the first one did.
    have hapart₁ : (m₁.tableAt place).addresses.Nodup := by rwa [hextends.tableAt hprovided.1]
    obtain ⟨addresses, m', hrest, hextends', hshown'⟩ := ih hsound₁ (hextends.shows hsound hprovided) hapart₁
      fun other hother => hextends.shows hsound (hown other (mem_cons_of_mem _ hother))
    refine ⟨m.tables.length :: addresses, m', ?_, hextends.trans hextends', ?_⟩
    · rw [mapM_cons, run_bind_of_run hrun, run_bind_of_run hrest]
      rfl
    · rw [map_cons, map_cons, hshown', hextends'.grantsAt hsound₁ hlength, hshown]

/-- **Grants are merged resource by resource, and for each handler by itself.** Let the facts hold an override flag
and own grants for the handlers that are asked for. Each is answered by the provider's grants merged with its own
and the facts stay as they are, whatever other handlers are asked for in between. The same holds in any memory in
which no two resources of the provider share a set: all tables show what they showed before, and each new table shows
the answer for its handler. -/
theorem resources_merged_for_each (h : ∀ asker ∈ askers, asker.Known facts) (provided : ResourceGrants) :
    ∃ answer : Asker → ResourceGrants,
      (∀ asker ∈ askers,
        (resourcesFor provided (some asker.handler)).run.run facts = (.ok (answer asker), facts) ∧
          IsMerged asker.override provided asker.own (answer asker)) ∧
      (askers.mapM fun asker => resourcesFor provided (some asker.handler)).run.run facts =
        (.ok (askers.map answer), facts) ∧
      ∀ (m : Memory) (place : Address) (places : String → Address), m.Sound → m.Shows place provided →
        (m.tableAt place).addresses.Nodup → (∀ asker ∈ askers, m.Shows (places asker.handler) asker.own) →
        ∃ addresses m',
          (askers.mapM fun asker => mergeTables asker.override place (places asker.handler)).run m =
            (addresses, m') ∧
          (∀ a grants, m.Shows a grants → m'.Shows a grants) ∧ addresses.map m'.grantsAt = askers.map answer := by
  refine ⟨fun asker => merged asker.override provided asker.own, fun asker hasker => ?_, run_mapM_resourcesFor h, ?_⟩
  · have hknown := h asker hasker
    exact ⟨run_resourcesFor hknown.flag hknown.resources provided, isMerged_merged hknown.nodup⟩
  · intro m place places hsound hprovided hapart hown
    obtain ⟨addresses, m', hrun, hextends, hshown⟩ := exists_mapM_mergeTables hsound hprovided hapart hown
    exact ⟨addresses, m', hrun, fun _ _ ha => hextends.shows hsound ha, hshown⟩

end

def adding : Asker :=
  ⟨"f", false, [("uploads", [.permission "s3" "PutObject"]), ("jobs", [.permission "sqs" "SendMessage"])]⟩

def overriding : Asker := ⟨"g", true, [("uploads", [.permission "s3" "DeleteObject"])]⟩

def bothFacts : PluginFacts where
  config := some [(Roles.pluginName, [(Roles.overrideName, [("f", false), ("g", true)])])]
  resources := some [("f", adding.own), ("g", overriding.own)]

def bothMemory : Memory where
  sets := [⟨[.permission "s3" "GetObject"], by decide⟩, ⟨[.permission "s3" "PutObject"], by decide⟩,
    ⟨[.permission "sqs" "SendMessage"], by decide⟩, ⟨[.permission "s3" "DeleteObject"], by decide⟩]
  tables := [⟨[("uploads", 0)], by decide⟩, ⟨[("uploads", 1), ("jobs", 2)], by decide⟩, ⟨[("uploads", 3)], by decide⟩]

/-- The handler that adds grants gets the same again after the other one was asked for. -/
theorem grants_of_two_handlers :
    adding.Known bothFacts ∧ overriding.Known bothFacts ∧ bothMemory.Sound ∧
      ∃ addresses m', ([adding, overriding, adding].mapM fun asker =>
          mergeTables asker.override 0 (if asker.handler = "f" then 1 else 2)).run bothMemory = (addresses, m') ∧
        m'.Shows 0 (bothMemory.grantsAt 0) ∧ m'.Shows 1 adding.own ∧ m'.Shows 2 overriding.own ∧
        addresses.map m'.grantsAt = [
          [("uploads", [.permission "s3" "GetObject", .permission "s3" "PutObject"]),
            ("jobs", [.permission "sqs" "SendMessage"])],
          [("uploads", [.permission "s3" "DeleteObject"])],
          [("uploads", [.permission "s3" "GetObject", .permission "s3" "PutObject"]),
            ("jobs", [.permission "sqs" "SendMessage"])]] := by
  have hadding : adding.Known bothFacts :=
    ⟨⟨_, _, _, rfl, rfl, rfl, by decide⟩, ⟨_, rfl, rfl⟩, by decide⟩
  have hoverriding : overriding.Known bothFacts :=
    ⟨⟨_, _, _, rfl, rfl, rfl, by decide⟩, ⟨_, rfl, rfl⟩, by decide⟩
  have hsound : bothMemory.Sound := by unfold Memory.Sound; decide
  have hshows : ∀ asker ∈ [adding, overriding, adding],
      bothMemory.Shows (if asker.handler = "f" then 1 else 2) asker.own := by
    simp only [List.forall_mem_cons]
    exact ⟨⟨by decide, rfl⟩, ⟨by decide, rfl⟩, ⟨by decide, rfl⟩, List.forall_mem_nil _⟩
  have hknown : ∀ asker ∈ [adding, overriding, adding], asker.Known bothFacts := by
    simp only [List.forall_mem_cons]
    exact ⟨hadding, hoverriding, hadding, List.forall_mem_nil _⟩
  obtain ⟨answer, heach, -, hmemory⟩ := resources_merged_for_each hknown (bothMemory.grantsAt 0)
  obtain ⟨addresses, m', hrun, hkept, hshown⟩ := hmemory bothMemory 0
    (fun handler => if handler = "f" then 1 else 2) hsound ⟨by decide, rfl⟩ (by decide) hshows
  have hanswer : ∀ asker ∈ [adding, overriding, adding], ∀ grants,
      (resourcesFor (bothMemory.grantsAt 0) (some asker.handler)).run.run bothFacts = (.ok grants, bothFacts) →
        answer asker = grants := by
    intro asker hasker grants hrun
    rw [(heach asker hasker).1] at hrun
    cases hrun
    rfl
  have hadded := hanswer adding (by simp) _ rfl
  have hoverridden := hanswer overriding (by simp) _ rfl
  refine ⟨hadding, hoverriding, hsound, addresses, m', hrun, hkept 0 _ ⟨by decide, rfl⟩, hkept 1 _ ⟨by decide, rfl⟩,
    hkept 2 _ ⟨by decide, rfl⟩, ?_⟩
  rw [hshown]
  simp only [List.map_cons, List.map_nil, hadded, hoverridden]
  rfl

end Permission

end ServerlessTaint
