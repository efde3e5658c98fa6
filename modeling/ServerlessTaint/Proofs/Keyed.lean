import ServerlessTaint.Keyed

/-!
# Laws of ordered maps and sets

How looking up a key goes together with setting and changing one, and what adding to a set does to
its elements.
-/

namespace ServerlessTaint

open List

namespace Keyed

variable {κ α : Type} [DecidableEq κ] {key : κ} {a : α} {entries before new : Keyed κ α}

theorem mem_of_find? (h : find? key entries = some a) : (key, a) ∈ entries := by
  induction entries with
  | nil => cases h
  | cons e rest ih =>
    simp only [find?] at h
    split at h
    · rename_i hk
      cases h
      subst hk
      exact mem_cons_self
    · exact mem_cons_of_mem _ (ih h)

theorem find?_append_cons (h : key ∉ before.map (·.1)) (a : α) (after : Keyed κ α) :
    find? key (before ++ (key, a) :: after) = some a := by
  induction before with
  | nil => simp [find?]
  | cons e before ih =>
    rw [map_cons, mem_cons, not_or] at h
    rw [cons_append, find?, if_neg (Ne.symm h.1), ih h.2]

theorem find?_of_mem (hkeys : (keys entries).Nodup) (h : (key, a) ∈ entries) : find? key entries = some a := by
  obtain ⟨before, after, rfl⟩ := append_of_mem h
  refine find?_append_cons ?_ a after
  intro hbefore
  rw [keys, map_append, nodup_append] at hkeys
  exact hkeys.2.2 key hbefore key (by simp) rfl

/-- Two orders of entries with keys of their own are looked up alike. -/
theorem find?_perm {entries' : Keyed κ α} (h : entries.Perm entries') (hkeys : (keys entries).Nodup) (key : κ) :
    find? key entries = find? key entries' := by
  have hkeys' : (keys entries').Nodup := (h.map _).nodup_iff.1 hkeys
  apply Option.ext
  intro a
  constructor
  · intro ha
    exact find?_of_mem hkeys' (h.subset (mem_of_find? ha))
  · intro ha
    exact find?_of_mem hkeys (h.symm.subset (mem_of_find? ha))

theorem find?_append (key : κ) (first second : Keyed κ α) :
    find? key (first ++ second) = (find? key first).or (find? key second) := by
  induction first with
  | nil => simp [find?]
  | cons e first ih =>
    obtain ⟨k, a⟩ := e
    by_cases hk : k = key
    · simp [find?, hk]
    · simp [find?, hk, ih]

theorem find?_set (key other : κ) (value : α) (entries : Keyed κ α) :
    find? other (set key value entries) = if key = other then some value else find? other entries := by
  induction entries with
  | nil => simp [set, find?]
  | cons e rest ih =>
    obtain ⟨k, a⟩ := e
    by_cases hk : k = key
    · subst hk
      by_cases ho : k = other <;> simp [set, find?, ho]
    · by_cases ho : k = other
      · subst ho; simp [set, find?, hk, Ne.symm hk]
      · simp [set, find?, hk, ho, ih]

theorem find?_modify (key other : κ) (fallback : α) (f : α → α) (entries : Keyed κ α) :
    find? other (modify key fallback f entries) =
      if key = other then some (f ((find? key entries).getD fallback)) else find? other entries :=
  find?_set key other _ entries

theorem set_append (h : key ∉ keys before) (value : α) (after : Keyed κ α) :
    set key value (before ++ after) = before ++ set key value after := by
  induction before with
  | nil => rfl
  | cons e before ih =>
    rw [keys, map_cons, mem_cons, not_or] at h
    rw [cons_append, set, if_neg (Ne.symm h.1), ih h.2, cons_append]

theorem mem_set {value : α} {e : κ × α} (h : e ∈ set key value entries) : e = (key, value) ∨ e ∈ entries := by
  induction entries with
  | nil => exact .inl (mem_singleton.1 h)
  | cons first entries ih =>
    obtain ⟨k, a⟩ := first
    by_cases hkey : k = key
    · rw [set, if_pos hkey] at h
      rcases mem_cons.1 h with rfl | h
      · exact .inl (by rw [hkey])
      · exact .inr (mem_cons_of_mem _ h)
    · rw [set, if_neg hkey] at h
      rcases mem_cons.1 h with rfl | h
      · exact .inr mem_cons_self
      · exact (ih h).imp_right (mem_cons_of_mem _)

theorem set_set (key : κ) (a b : α) (entries : Keyed κ α) : set key b (set key a entries) = set key b entries := by
  induction entries with
  | nil => simp [set]
  | cons e rest ih =>
    obtain ⟨k, c⟩ := e
    by_cases hk : k = key
    · simp [set, hk]
    · simp [set, hk, ih]

/-- A new value that looks like the old one changes nothing in how the map looks. -/
theorem map_set_of_find? {β : Type} {old new : α} (f : α → β) (h : find? key entries = some old)
    (hnew : f new = f old) : (set key new entries).map (fun e => (e.1, f e.2)) = entries.map fun e => (e.1, f e.2) := by
  induction entries with
  | nil => cases h
  | cons e rest ih =>
    obtain ⟨k, c⟩ := e
    by_cases hk : k = key
    · simp only [find?, hk, if_true] at h
      cases h
      simp [set, hk, hnew]
    · simp only [find?, hk, if_false] at h
      simp [set, hk, ih h]

theorem set_of_find? (h : find? key entries = some a) : set key a entries = entries := by
  simpa using map_set_of_find? id h rfl

theorem find?_map {β : Type} (key : κ) (f : α → β) (entries : Keyed κ α) :
    find? key (entries.map fun e => (e.1, f e.2)) = (find? key entries).map f := by
  induction entries with
  | nil => rfl
  | cons e rest ih =>
    by_cases hk : e.1 = key
    · simp [find?, hk]
    · simp [find?, hk, ih]

theorem find?_eq_none_iff : find? key entries = none ↔ key ∉ keys entries := by
  induction entries with
  | nil => simp [find?, keys]
  | cons e rest ih =>
    obtain ⟨k, a⟩ := e
    rw [find?, keys, map_cons, mem_cons, not_or]
    by_cases hk : k = key
    · simp [hk]
    · rw [if_neg hk, ih]
      exact (and_iff_right (Ne.symm hk)).symm

theorem keys_set (key : κ) (value : α) (entries : Keyed κ α) :
    keys (set key value entries) = if key ∈ keys entries then keys entries else keys entries ++ [key] := by
  induction entries with
  | nil => simp [set, keys]
  | cons e rest ih =>
    obtain ⟨k, a⟩ := e
    by_cases hk : k = key
    · simp [set, keys, hk]
    · have hne : key ≠ k := Ne.symm hk
      by_cases hmem : key ∈ rest.map (·.1) <;> simp_all [set, keys]

/-- Entries with keys of their own are set one after the other. -/
theorem setAll_eq_append (h : (keys (entries ++ new)).Nodup) : setAll entries new = entries ++ new := by
  induction new generalizing entries with
  | nil => simp [setAll]
  | cons e new ih =>
    have hnew : e.1 ∉ keys entries := by
      rw [keys, map_append, nodup_append] at h
      intro hmem
      exact h.2.2 e.1 hmem e.1 (by simp) rfl
    have hset : set e.1 e.2 entries = entries ++ [e] := by
      simpa [set] using set_append hnew e.2 []
    rw [append_cons] at h
    have hrest := ih h
    rw [setAll] at hrest
    rw [setAll, foldl_cons, hset, hrest, append_assoc, singleton_append]

theorem ofEntries_eq_self (h : (keys entries).Nodup) : ofEntries entries = entries :=
  setAll_eq_append h

theorem find?_setAll_of_not_mem (h : key ∉ keys new) : find? key (setAll entries new) = find? key entries := by
  induction new generalizing entries with
  | nil => rfl
  | cons e new ih =>
    rw [keys, map_cons, mem_cons, not_or] at h
    exact (ih h.2).trans (by rw [find?_set, if_neg (Ne.symm h.1)])

/-- Of entries with the same key the last one counts. -/
theorem find?_ofEntries_append_cons {after : Keyed κ α} (h : key ∉ keys after) (before : Keyed κ α) (a : α) :
    find? key (ofEntries (before ++ (key, a) :: after)) = some a := by
  have hset : ofEntries (before ++ (key, a) :: after) = setAll (set key a (ofEntries before)) after := by
    simp [ofEntries, setAll]
  rw [hset, find?_setAll_of_not_mem h, find?_set, if_pos rfl]

/-- Keys and values of the same number are looked up in step. -/
theorem map_find?_zip {names : List κ} {values : List α} (hnames : names.Nodup)
    (hlength : names.length = values.length) :
    names.map (fun name => find? name (names.zip values)) = values.map some := by
  induction names generalizing values with
  | nil =>
    rw [length_nil, eq_comm, length_eq_zero_iff] at hlength
    rw [hlength]
    rfl
  | cons name names ih =>
    cases values with
    | nil => simp at hlength
    | cons value values =>
      rw [nodup_cons] at hnames
      have hrest : names.map (fun other => find? other ((name :: names).zip (value :: values))) =
          names.map fun other => find? other (names.zip values) := by
        refine map_congr_left fun other hother => ?_
        have hne : name ≠ other := by
          rintro rfl
          exact hnames.1 hother
        rw [zip_cons_cons, find?, if_neg hne]
      rw [map_cons, hrest, ih hnames.2 (by simpa using hlength)]
      simp [find?]

/-- Changes of one key that others do not have leave at most that key after the others. -/
theorem foldl_modify_of_not_mem (h : key ∉ keys entries) (fallback : α) (changes : List (α → α)) (own : Option α) :
    changes.foldl (fun entries f => modify key fallback f entries) (entries ++ (own.map (key, ·)).toList) =
      entries ++ ((changes.foldl (fun own f => some (f (own.getD fallback))) own).map (key, ·)).toList := by
  induction changes generalizing own with
  | nil => rfl
  | cons f changes ih =>
    have hstep : modify key fallback f (entries ++ (own.map (key, ·)).toList) =
        entries ++ ((some (f (own.getD fallback))).map (key, ·)).toList := by
      rw [modify, set_append h, find?_append, find?_eq_none_iff.2 h, Option.none_or]
      cases own <;> simp [set, find?]
    rw [foldl_cons, foldl_cons, hstep, ih]

end Keyed

/-! ## Sorted texts -/

theorem pairwise_sortTexts (texts : List String) : (sortTexts texts).Pairwise (· ≤ ·) := by
  have hle : ∀ a b : String, (!decide (b < a)) = true ↔ a ≤ b := by
    intro a b
    rw [Bool.not_eq_true', decide_eq_false_iff_not, String.not_lt]
  have hsorted := @pairwise_mergeSort String (fun a b => !decide (b < a))
    (fun a b c => by simpa only [hle] using String.le_trans)
    (fun a b => by simpa only [Bool.or_eq_true, hle] using String.le_total a b) texts
  exact hsorted.imp fun h => (hle _ _).1 h

theorem sortTexts_of_pairwise {texts : List String} (h : texts.Pairwise fun a b => !decide (b < a)) :
    sortTexts texts = texts :=
  mergeSort_of_pairwise h

/-- Texts that are kept are sorted among themselves. -/
theorem filter_sortTexts (keep : String → Bool) (texts : List String) :
    (sortTexts texts).filter keep = sortTexts (texts.filter keep) := by
  refine List.Perm.eq_of_pairwise (fun a b _ _ => String.le_antisymm)
    ((pairwise_sortTexts texts).filter keep) (pairwise_sortTexts _) ?_
  exact ((mergeSort_perm texts _).filter keep).trans (mergeSort_perm _ _).symm

section

variable {α : Type} [DecidableEq α] {xs ys : List α}

theorem mem_addNew {x y : α} : y ∈ addNew xs x ↔ y ∈ xs ∨ y = x := by
  unfold addNew
  split
  · rename_i hx
    constructor
    · exact Or.inl
    · rintro (hy | rfl)
      · exact hy
      · exact hx
  · simp

theorem nodup_addNew (h : xs.Nodup) (x : α) : (addNew xs x).Nodup := by
  unfold addNew
  split
  · exact h
  · rename_i hx
    refine nodup_append.2 ⟨h, by simp, ?_⟩
    intro a ha b hb
    rw [mem_singleton.1 hb]
    rintro rfl
    exact hx ha

theorem mem_addAllNew {y : α} : y ∈ addAllNew xs ys ↔ y ∈ xs ∨ y ∈ ys := by
  unfold addAllNew
  induction ys generalizing xs with
  | nil => simp
  | cons z ys ih => rw [foldl_cons, ih, mem_addNew, mem_cons, or_assoc]

/-- Adding what is there already changes nothing. -/
theorem addAllNew_of_subset (h : ∀ y ∈ ys, y ∈ xs) : addAllNew xs ys = xs := by
  unfold addAllNew
  induction ys with
  | nil => rfl
  | cons y ys ih =>
    have hy : addNew xs y = xs := if_pos (h y mem_cons_self)
    rw [foldl_cons, hy]
    exact ih fun z hz => h z (mem_cons_of_mem _ hz)

end

/-! ## Maps of sets -/

namespace Keyed

variable {κ α : Type} [DecidableEq κ]

/-- The set of a key has an element. A key without a value has none. -/
def Holds (entries : Keyed κ (List α)) (key : κ) (a : α) : Prop := a ∈ (find? key entries).getD []

instance [DecidableEq α] (entries : Keyed κ (List α)) (key : κ) (a : α) : Decidable (Holds entries key a) :=
  inferInstanceAs (Decidable (a ∈ _))

variable {key other : κ} {entries : Keyed κ (List α)}

/-- A key that comes into being has the empty set, so no set gets an element. -/
theorem holds_modify_id {b : α} : Holds (modify key [] id entries) other b ↔ Holds entries other b := by
  unfold Holds
  rw [find?_modify]
  by_cases hkey : key = other
  · subst hkey
    simp
  · simp [hkey]

theorem holds_modify_addNew [DecidableEq α] {a b : α} :
    Holds (modify key [] (fun s => addNew s a) entries) other b ↔ Holds entries other b ∨ key = other ∧ a = b := by
  unfold Holds
  rw [find?_modify]
  by_cases hkey : key = other
  · subst hkey
    simp [mem_addNew, eq_comm]
  · simp [hkey]

/-- The sets after elements were added one after the other. -/
theorem holds_foldl_addNew [DecidableEq α] {pairs : List (κ × α)} {b : α} :
    Holds (pairs.foldl (fun entries p => modify p.1 [] (fun s => addNew s p.2) entries) entries) other b ↔
      Holds entries other b ∨ (other, b) ∈ pairs := by
  induction pairs generalizing entries with
  | nil => simp
  | cons p pairs ih =>
    rw [foldl_cons, ih, holds_modify_addNew, or_assoc, mem_cons, Prod.ext_iff, eq_comm, @eq_comm α]

theorem keys_modify (key : κ) (fallback : α) (f : α → α) (entries : Keyed κ α) :
    keys (modify key fallback f entries) = addNew (keys entries) key :=
  keys_set key _ entries

/-! ## Inverted maps of sets -/

/-- Keys stand once each, and so do the elements of every set. -/
structure AreSets (entries : Keyed κ (List α)) : Prop where
  keys : (keys entries).Nodup
  elements : ∀ e ∈ entries, e.2.Nodup

theorem holds_iff (h : (keys entries).Nodup) {a : α} : Holds entries key a ↔ ∃ s, (key, s) ∈ entries ∧ a ∈ s := by
  unfold Holds
  constructor
  · intro ha
    cases hfind : find? key entries with
    | none => simp [hfind] at ha
    | some s => exact ⟨s, mem_of_find? hfind, by simpa [hfind] using ha⟩
  · rintro ⟨s, hs, ha⟩
    simpa [find?_of_mem h hs] using ha

/-- Maps of sets without empty sets are told by the elements. -/
theorem rel_of_holds_iff {entries' : Keyed κ (List α)} (h : AreSets entries) (h' : AreSets entries')
    (hne : ∀ e ∈ entries, e.2 ≠ []) (hne' : ∀ e ∈ entries', e.2 ≠ [])
    (hsame : ∀ a, Holds entries key a ↔ Holds entries' key a) :
    Option.Rel Perm (find? key entries) (find? key entries') := by
  unfold Holds at hsame
  cases hfind : find? key entries with
  | none =>
    cases hfind' : find? key entries' with
    | none => exact .none
    | some s =>
      obtain ⟨a, ha⟩ := exists_mem_of_ne_nil _ (hne' _ (mem_of_find? hfind'))
      simpa [hfind, hfind', ha] using hsame a
  | some s =>
    cases hfind' : find? key entries' with
    | none =>
      obtain ⟨a, ha⟩ := exists_mem_of_ne_nil _ (hne _ (mem_of_find? hfind))
      simpa [hfind, hfind', ha] using hsame a
    | some s' =>
      have hperm := perm_ext_iff_of_nodup (h.elements _ (mem_of_find? hfind)) (h'.elements _ (mem_of_find? hfind'))
      exact .some (hperm.2 (by simpa [hfind, hfind'] using hsame))

variable [DecidableEq α]

/-- The keys of each element, both in the order in which they are first met. -/
def inverted (entries : Keyed κ (List α)) : Keyed α (List κ) :=
  entries.foldl (fun result entry =>
    entry.2.foldl (fun result a => modify a [] (fun keys => addNew keys entry.1) result) result) []

theorem holds_inverted {a : α} : Holds (inverted entries) a key ↔ ∃ s, (key, s) ∈ entries ∧ a ∈ s := by
  have hpairs : inverted entries = (entries.flatMap fun e => e.2.map (·, e.1)).foldl
      (fun result p => modify p.1 [] (fun keys => addNew keys p.2) result) [] := by
    simp only [foldl_flatMap, foldl_map]
    rfl
  rw [hpairs, holds_foldl_addNew, or_iff_right (by simp [Holds, find?])]
  simp only [mem_flatMap, mem_map, Prod.mk.injEq]
  constructor
  · rintro ⟨⟨_, s⟩, hs, _, ha, rfl, rfl⟩
    exact ⟨s, hs, ha⟩
  · rintro ⟨s, hs, ha⟩
    exact ⟨_, hs, a, ha, rfl, rfl⟩

/-- One step of inverting keeps sets what they are and makes no empty one. -/
theorem AreSets.modify_addNew (h : AreSets entries ∧ ∀ e ∈ entries, e.2 ≠ []) (key : κ) (a : α) :
    AreSets (modify key [] (fun s => addNew s a) entries) ∧
      ∀ e ∈ modify key [] (fun s => addNew s a) entries, e.2 ≠ [] := by
  obtain ⟨⟨hkeys, helements⟩, hne⟩ := h
  have hold : ((find? key entries).getD []).Nodup := by
    cases hfind : find? key entries with
    | none => exact nodup_nil
    | some s => exact helements _ (mem_of_find? hfind)
  refine ⟨⟨keys_modify key [] _ entries ▸ nodup_addNew hkeys key, fun e he => ?_⟩, fun e he => ?_⟩
  · rcases mem_set he with rfl | he
    · exact nodup_addNew hold a
    · exact helements e he
  · rcases mem_set he with rfl | he
    · exact ne_nil_of_mem (mem_addNew.2 (.inr rfl))
    · exact hne e he

theorem areSets_inverted (entries : Keyed κ (List α)) :
    AreSets (inverted entries) ∧ ∀ e ∈ inverted entries, e.2 ≠ [] := by
  let P (result : Keyed α (List κ)) : Prop := AreSets result ∧ ∀ e ∈ result, e.2 ≠ []
  refine foldlRecOn (motive := P) entries _ ⟨⟨nodup_nil, forall_mem_nil _⟩, forall_mem_nil _⟩ fun result h e _ => ?_
  exact foldlRecOn (motive := P) e.2 _ h fun result h a _ => AreSets.modify_addNew h a e.1

end Keyed

end ServerlessTaint
