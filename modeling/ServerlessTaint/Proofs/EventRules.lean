import ServerlessTaint.EventFilter
import ServerlessTaint.Proofs.Fault

/-!
# Rules of storage triggers

Of the storage triggers of a handler only the first with rules is asked whether it lets a name pass. So a
name that does not pass breaks one of its rules, and where it is the only trigger and no rule has two sides, a
name passes unless it breaks one (`storage_rejects`). A second trigger without rules does not help
(`rejected_beside_open_trigger`).
-/

namespace ServerlessTaint

open List Value

section

variable {ε α : Type} {p : α → Except ε Bool}

/-- The members that pass a test, if it can be made of all. -/
theorem filterAuxM_eq_ok_iff {xs ys acc : List α} : xs.filterAuxM p acc = .ok ys ↔
    (∀ x ∈ xs, ∃ b, p x = .ok b) ∧ ys = (xs.filter fun x => (p x).toOption = some true).reverse ++ acc := by
  induction xs generalizing acc with
  | nil => simp [filterAuxM, pure, Except.pure, eq_comm]
  | cons x xs ih =>
    rw [filterAuxM, bind_eq_ok_iff]
    cases hx : p x with
    | error fault => simp [hx]
    | ok b => cases b <;> simp [hx, ih, Except.toOption]

theorem filterM_eq_ok_iff {xs ys : List α} : xs.filterM p = .ok ys ↔
    (∀ x ∈ xs, ∃ b, p x = .ok b) ∧ ys = xs.filter fun x => (p x).toOption = some true := by
  rw [filterM, bind_eq_ok_iff]
  constructor
  · rintro ⟨kept, hkept, heq⟩
    obtain ⟨hall, rfl⟩ := filterAuxM_eq_ok_iff.1 hkept
    cases heq
    exact ⟨hall, by simp⟩
  · rintro ⟨hall, rfl⟩
    exact ⟨_, filterAuxM_eq_ok_iff.2 ⟨hall, rfl⟩, by simp [pure, Except.pure]⟩

end

namespace EventFilter

/-! ## Rules -/

/-- A name breaks a rule: it lacks the beginning or the end that the rule asks for. -/
def Breaks (name : String) (rule : Value) : Prop :=
  ∃ text : String, rule.get "prefix" = .ok (.str text) ∧ ¬ text.toList <+: name.toList ∨
    rule.get "suffix" = .ok (.str text) ∧ ¬ text.toList <:+ name.toList

variable {name handler : String} {config : Value} {rules : List Value} {items : List (Keyed String Value)}

theorem breaks_of_ruleAdmits {rule : Value} (h : ruleAdmits (.str name) rule = .ok (some false)) :
    Breaks name rule := by
  have hside : ∀ {side : String} {test : List Char → List Char → Bool},
      (do return some (test (← (← rule.get side).asText).toList (← asText (.str name)).toList)) =
        .ok (some false) →
        ∃ text : String, rule.get side = .ok (.str text) ∧ test text.toList name.toList = false := by
    intro side test h
    obtain ⟨v, hv, h⟩ := bind_eq_ok_iff.1 h
    obtain ⟨text, htext, h⟩ := bind_eq_ok_iff.1 h
    cases v <;> cases htext
    exact ⟨text, hv, by simpa [asText, pure, Except.pure, bind, Except.bind] using h⟩
  obtain ⟨hasPrefix, -, h⟩ := bind_eq_ok_iff.1 h
  cases hasPrefix with
  | true =>
    obtain ⟨text, htext, hbroken⟩ := hside h
    exact ⟨text, .inl ⟨htext, fun hpre => by simp [ isPrefixOf_iff_prefix.2 hpre] at hbroken⟩⟩
  | false =>
    obtain ⟨hasSuffix, -, h⟩ := bind_eq_ok_iff.1 h
    cases hasSuffix with
    | true =>
      obtain ⟨text, htext, hbroken⟩ := hside h
      exact ⟨text, .inr ⟨htext, fun hsuf => by simp [isSuffixOf_iff_suffix.2 hsuf] at hbroken⟩⟩
    | false => cases h

/-- What a rule asks for is a text. -/
def hasTexts (rule : Keyed String Value) : Bool :=
  ["prefix", "suffix"].all fun side => (Keyed.find? side rule).all fun v => v.text?.isSome

/-- What a rule says of a name: its beginning is looked at first. -/
theorem ruleAdmits_map (name : String) (rule : Keyed String Value) : ruleAdmits (.str name) (.map rule) =
    match Keyed.find? "prefix" rule, Keyed.find? "suffix" rule with
    | some v, _ => v.asText.map fun text => some (text.toList.isPrefixOf name.toList)
    | none, some v => v.asText.map fun text => some (text.toList.isSuffixOf name.toList)
    | none, none => .ok none := by
  cases hprefix : Keyed.find? "prefix" rule with
  | some v =>
    simp only [ruleAdmits, holds, Value.get, Keyed.has, hprefix, Option.isSome_some, ok_bind, if_true]
    cases v <;> rfl
  | none =>
    cases hsuffix : Keyed.find? "suffix" rule with
    | some v =>
      simp only [ruleAdmits, holds, Value.get, Keyed.has, hprefix, hsuffix, Option.isSome_some, Option.isSome_none,
        ok_bind, if_true, Bool.false_eq_true, if_false]
      cases v <;> rfl
    | none =>
      simp only [ruleAdmits, holds, Value.get, Keyed.has, hprefix, hsuffix, Option.isSome_none, ok_bind,
        Bool.false_eq_true, if_false]
      rfl

theorem ruleAdmits_of_oneSided (name : String) {rule : Keyed String Value}
    (hone : ¬ (Keyed.has "prefix" rule ∧ Keyed.has "suffix" rule)) :
    ((∃ result, ruleAdmits (.str name) (.map rule) = .ok result) ↔ hasTexts rule) ∧
      (Breaks name (.map rule) → ruleAdmits (.str name) (.map rule) = .ok (some false)) := by
  rw [ruleAdmits_map]
  cases hprefix : Keyed.find? "prefix" rule with
  | some v =>
    have hsuffix : Keyed.find? "suffix" rule = none := by simpa [Keyed.has, hprefix] using hone
    cases v <;> simp [hasTexts, Breaks, Value.get, hprefix, hsuffix, asText, text?, Except.map, ← Bool.not_eq_true,
      isPrefixOf_iff_prefix]
  | none =>
    cases hsuffix : Keyed.find? "suffix" rule with
    | some v =>
      cases v <;> simp [hasTexts, Breaks, Value.get, hprefix, hsuffix, asText, text?, Except.map, ← Bool.not_eq_true,
        isSuffixOf_iff_suffix]
    | none => simp [hasTexts, Breaks, Value.get, hprefix, hsuffix]

/-- A name is rejected if all rules can be read and one of them does not let it pass. -/
theorem storageAdmits_eq_false_iff {key handler : Value} : storageAdmits key config handler = false ↔
    ∃ rules, storageRules config handler = .ok rules ∧
      (∀ rule ∈ rules, ∃ result, ruleAdmits key rule = .ok result) ∧
      ∃ rule ∈ rules, ruleAdmits key rule = .ok (some false) := by
  unfold storageAdmits
  cases hrules : storageRules config handler with
  | error fault => simp [bind, Except.bind]
  | ok rules =>
    rw [ok_bind]
    cases hresults : rules.mapM (ruleAdmits key) with
    | error fault =>
      refine iff_of_false (by simp) ?_
      rintro ⟨_, heq, hall, -⟩
      cases heq
      obtain ⟨results, hok, -⟩ := exists_mapM hall
      cases hresults.symm.trans hok
    | ok results =>
      have hmem : some false ∈ results ↔ ∃ rule ∈ rules, ruleAdmits key rule = .ok (some false) := by
        constructor
        · intro hfalse
          have hsome := mem_map_of_mem (f := some) hfalse
          rw [map_some_of_mapM hresults] at hsome
          obtain ⟨rule, hrule, heq⟩ := mem_map.1 hsome
          exact ⟨rule, hrule, eq_ok_of_toOption heq⟩
        · rintro ⟨rule, hrule, hfalse⟩
          exact mem_of_mapM hresults hrule hfalse
      have hall : ∀ rule ∈ rules, ∃ result, ruleAdmits key rule = .ok result := fun _ => exists_ok_of_mapM hresults
      simp [← hmem]
      exact fun _ => hall

/-! ## Triggers -/

/-- What is said of the storage triggers of a handler. -/
def triggers (items : List (Keyed String Value)) : List Value := items.filterMap (Keyed.find? "s3")

theorem mapM_storage (items : List (Keyed String Value)) :
    ((items.map Value.map).filter fun e => (e.holds "s3").toOption = some true).mapM (Value.get "s3") =
      .ok (triggers items) := by
  induction items with
  | nil => rfl
  | cons entries items ih =>
    cases h : Keyed.find? "s3" entries with
    | none => simpa [triggers, holds, Keyed.has, h, Except.toOption] using ih
    | some info =>
      have hholds : ((Value.map entries).holds "s3").toOption = some true := by
        simp [holds, Keyed.has, h, Except.toOption]
      have hget : (Value.map entries).get "s3" = .ok info := by simp [Value.get, h]
      rw [map_cons, filter_cons_of_pos (by simpa using hholds), mapM_cons, hget, ok_bind, ih]
      exact congrArg Except.ok (filterMap_cons_some h).symm

/-- The rules of the first trigger that has any. -/
def firstRules (infos : List Value) : Except Fault (List Value) := do
  match ← infos.filterM (holds "rules") with
  | [] => throw .indexOutOfRange
  | first :: rest =>
    let _ ← rest.mapM (Value.get "rules")
    (← first.get "rules").elements

theorem storageRules_eq (hitems : config.getAll ["functions", handler, "events"] = .ok (.list (items.map .map))) :
    storageRules config (.str handler) = firstRules (triggers items) := by
  simp only [getAll, foldlM_cons, foldlM_nil, bind_eq_ok_iff] at hitems
  obtain ⟨functions, hfunctions, entry, hentry, events, hevents, hlist⟩ := hitems
  cases hlist
  have hstorage : (items.map Value.map).filterM (holds "s3") = .ok _ :=
    filterM_eq_ok_iff.2 ⟨by simp [holds], rfl⟩
  have hpart : (Selector.ofValue (.str handler)).part functions = .ok entry := hentry
  rw [storageRules, hfunctions, ok_bind, hpart, ok_bind, hevents, ok_bind, elements, ok_bind, hstorage, ok_bind,
    mapM_storage, ok_bind]
  rfl

/-- **Which names storage triggers reject.** Let the event entries of a handler be maps. A name that does not pass
breaks a rule of the first storage trigger that has rules. If this is the only trigger, and no rule of it asks for
both a beginning and an end, a name does not pass exactly if all that is asked for are texts and it breaks a rule. -/
theorem storage_rejects (items : List (Keyed String Value))
    (hitems : config.getAll ["functions", handler, "events"] = .ok (.list (items.map .map))) :
    (storageAdmits (.str name) config (.str handler) = false →
      ∃ before info after rules, triggers items = before ++ info :: after ∧
        (∀ other ∈ before, other.holds "rules" = .ok false) ∧ (info.get "rules" >>= elements) = .ok rules ∧
        ∃ rule ∈ rules, Breaks name rule) ∧
    ∀ (info : Value) (rules : List (Keyed String Value)), triggers items = [info] →
      info.get "rules" = .ok (.list (rules.map .map)) →
      (∀ rule ∈ rules, ¬ (Keyed.has "prefix" rule ∧ Keyed.has "suffix" rule)) →
      (storageAdmits (.str name) config (.str handler) = false ↔
        (∀ rule ∈ rules, hasTexts rule) ∧ ∃ rule ∈ rules, Breaks name (.map rule)) := by
  rw [storageAdmits_eq_false_iff, storageRules_eq hitems]
  constructor
  · rintro ⟨rules, hrules, -, rule, hrule, hfalse⟩
    obtain ⟨kept, hkept, hrules⟩ := bind_eq_ok_iff.1 hrules
    obtain ⟨hall, rfl⟩ := filterM_eq_ok_iff.1 hkept
    split at hrules
    · cases hrules
    · rename_i info rest hfirst
      obtain ⟨-, -, hrules⟩ := bind_eq_ok_iff.1 hrules
      obtain ⟨before, after, hsplit, hbefore, -⟩ := filter_eq_cons_iff.1 hfirst
      refine ⟨before, info, after, rules, hsplit, ?_, hrules, rule, hrule, breaks_of_ruleAdmits hfalse⟩
      intro other hother
      obtain ⟨b, hb⟩ := hall other (by rw [hsplit]; exact mem_append_left _ hother)
      cases b with
      | false => exact hb
      | true => exact absurd (by simp [hb, Except.toOption]) (hbefore other hother)
  · intro info rules hsole hget hone
    have hrules : firstRules (triggers items) = .ok (rules.map .map) := by
      cases info with
      | map entries =>
        have hholds : (Value.map entries).holds "rules" = .ok true := by
          simp only [Value.get] at hget
          split at hget <;> simp_all [holds, Keyed.has]
        have hkept : (triggers items).filterM (holds "rules") = .ok [.map entries] :=
          filterM_eq_ok_iff.2 ⟨by simp [hsole, hholds], by simp [hsole, hholds, Except.toOption]⟩
        rw [firstRules, hkept, ok_bind]
        simp [hget, bind, Except.bind, elements, pure, Except.pure]
      | _ => cases hget
    have hread := fun rule hrule => (ruleAdmits_of_oneSided name (hone rule hrule)).1
    simp only [hrules, Except.ok.injEq, exists_eq_left', forall_mem_map]
    refine and_congr (forall₂_congr hread) ?_
    constructor
    · rintro ⟨_, hmem, hfalse⟩
      obtain ⟨rule, hrule, rfl⟩ := mem_map.1 hmem
      exact ⟨rule, hrule, breaks_of_ruleAdmits hfalse⟩
    · rintro ⟨rule, hrule, hbreaks⟩
      exact ⟨_, mem_map_of_mem hrule, (ruleAdmits_of_oneSided name (hone rule hrule)).2 hbreaks⟩

/-- The handler `h` with event entries. -/
def handling (events : List Value) : Value :=
  .map [("functions", .map [("h", .map [("events", .list events)])])]

/-- A storage trigger with a rule. -/
def ruledTrigger (rule : Keyed String Value) : Keyed String Value :=
  [("s3", .map [("rules", .list [.map rule])])]

theorem rejected_by_sole_trigger :
    storageAdmits (.str "b") (handling [.map (ruledTrigger [("prefix", .str "a")])]) (.str "h") = false :=
  ((storage_rejects [ruledTrigger [("prefix", .str "a")]] rfl).2 _ [[("prefix", .str "a")]] rfl rfl (by decide)).2
    ⟨by decide, _, mem_singleton.2 rfl, "a", .inl ⟨rfl, by decide⟩⟩

/-- A name is rejected though a second trigger has no rules, and let pass though the end that a rule asks for beside a
beginning is not its own. -/
theorem rejected_beside_open_trigger :
    storageAdmits (.str "b") (handling [.map (ruledTrigger [("prefix", .str "a")]), .map [("s3", .map [])]])
      (.str "h") = false ∧
    storageAdmits (.str "b") (handling [.map (ruledTrigger [("prefix", .str "b"), ("suffix", .str "a")])])
      (.str "h") = true ∧
    Breaks "b" (.map [("prefix", .str "b"), ("suffix", .str "a")]) :=
  ⟨rfl, rfl, "a", .inr ⟨rfl, by decide⟩⟩

end EventFilter

end ServerlessTaint
