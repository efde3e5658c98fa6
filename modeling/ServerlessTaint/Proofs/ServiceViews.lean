import ServerlessTaint.Proofs.HandlerPermissions

/-!
# The permissions of a service in two views

The permissions of all handlers by service divide a permission at its colon. The permissions of a handler for a service
are those that start with the name of the service, without the letters and digits before a colon. Both views have the
same permissions of a service if and only if no permission of another service, and none of a service with a hyphen,
comes into the second (`views_agree_iff`).
-/

namespace ServerlessTaint.PluginFacts

open List

def written (service name : String) : String := service ++ ":" ++ name

def IsServiceName (service : String) : Prop := ∀ c ∈ service.toList, c.isAlphanum = true ∨ c = '-'

def IsPermission (permission : String) : Prop :=
  ∃ service name, permission = written service name ∧ IsServiceName service ∧ ':' ∉ name.toList

def stored (facts : PluginFacts) : List String := (facts.handlers.getD []).flatMap (·.2)

variable {facts : PluginFacts} {s service name permission : String}

theorem toList_written (service name : String) : (written service name).toList = service.toList ++ ':' :: name.toList := by
  simp [written]

theorem IsServiceName.colon_not_mem (h : IsServiceName service) : ':' ∉ service.toList := by
  intro hmem
  rcases h ':' hmem with h | h <;> exact absurd h (by decide)

/-! ## Dividing at the colon -/

/-- The service and the name of a permission with a colon. -/
def divide? (permission : String) : Option (String × String) :=
  let cs := permission.toList
  if cs.contains ':' then
    some (String.ofList (cs.takeWhile (· != ':')), String.ofList ((cs.dropWhile (· != ':')).drop 1))
  else none

theorem divide?_written (h : ':' ∉ service.toList) (name : String) :
    divide? (written service name) = some (service, name) := by
  have hservice : ∀ c ∈ service.toList, (c != ':') := fun _ hc => bne_iff_ne.2 fun heq => h (heq ▸ hc)
  have hcolon : (service.toList ++ ':' :: name.toList).contains ':' := by simp
  simp only [divide?, toList_written, hcolon, if_true, takeWhile_append_of_pos hservice,
    dropWhile_append_of_pos hservice]
  simp

theorem written_inj {service' name' : String} (h : ':' ∉ service.toList) (h' : ':' ∉ service'.toList)
    (heq : written service name = written service' name') : service = service' ∧ name = name' := by
  have hdivided := congrArg divide? heq
  rw [divide?_written h, divide?_written h'] at hdivided
  simpa using hdivided

/-- A permission with a colon is divided at the first one. -/
theorem exists_eq_written (h : ':' ∈ permission.toList) :
    ∃ service name, permission = written service name ∧ ':' ∉ service.toList := by
  obtain ⟨first, rest, hsplit, hfirst⟩ := eq_append_cons_of_mem h
  refine ⟨String.ofList first, String.ofList rest, String.toList_injective ?_, by rwa [String.toList_ofList]⟩
  rw [toList_written, String.toList_ofList, String.toList_ofList, hsplit]

/-- The view by service lists a permission if and only if a handler has it. -/
theorem holds_allPermissions_iff (h : ':' ∉ s.toList) :
    Keyed.Holds facts.allPermissions s name ↔ written s name ∈ facts.stored := by
  have hpairs : facts.allPermissions = (facts.stored.filterMap divide?).foldl
      (fun result p => Keyed.modify p.1 [] (fun names => addNew names p.2) result) [] := by
    rw [foldl_filterMap, allPermissions, stored]
    congr 1
    funext result permission
    by_cases hcolon : ':' ∈ permission.toList <;> simp [divide?, hcolon]
  rw [hpairs, Keyed.holds_foldl_addNew, mem_filterMap]
  refine (or_iff_right not_mem_nil).trans ⟨?_, fun hmem => ⟨_, hmem, divide?_written h name⟩⟩
  rintro ⟨permission, hmem, hdivide⟩
  have hcolon : ':' ∈ permission.toList := Decidable.byContradiction fun hnot => by simp [divide?, hnot] at hdivide
  obtain ⟨service, own, rfl, hservice⟩ := exists_eq_written hcolon
  rw [divide?_written hservice] at hdivide
  cases hdivide
  exact hmem

/-! ## Leaving out the start -/

/-- The name of a service that is left out from the start of a permission. -/
def IsPlain (service : String) : Prop := service ≠ "" ∧ '-' ∉ service.toList

theorem prefix_written_iff (h : ':' ∉ s.toList) : s.toList <+: (written service name).toList ↔ s.toList <+: service.toList := by
  rw [toList_written]
  refine ⟨fun hprefix => ?_, fun hprefix => hprefix.trans (prefix_append _ _)⟩
  rcases prefix_or_prefix_of_prefix hprefix (prefix_append service.toList _) with hshort | ⟨more, hlong⟩
  · exact hshort
  · cases more with
    | nil => exact ⟨[], by simpa using hlong.symm⟩
    | cons c more =>
      rw [← hlong, prefix_append_right_inj, cons_prefix_cons] at hprefix
      exact absurd (by rw [← hlong, hprefix.1]; simp) h

/-- The name of a service is left out if it consists of letters and digits. -/
theorem withoutService_of_isPlain (h : IsServiceName service) (hplain : IsPlain service) (name : String) :
    withoutService (written service name) = name := by
  have halnum : ∀ c ∈ service.toList, c.isAlphanum := fun c hc =>
    (h c hc).resolve_right fun heq => hplain.2 (heq ▸ hc)
  have hne : service.toList ≠ [] := fun hnil => hplain.1 (String.toList_injective hnil)
  unfold withoutService
  simp only [toList_written, dropWhile_append_of_pos halnum, takeWhile_append_of_pos halnum]
  simp [hne]

/-- Otherwise the permission stays as it is. -/
theorem withoutService_of_not_isPlain (h : IsServiceName service) (hplain : ¬ IsPlain service) (name : String) :
    withoutService (written service name) = written service name := by
  unfold withoutService
  by_cases hempty : service = ""
  · subst hempty
    simp only [toList_written]
    rfl
  · have hhyphen : '-' ∈ service.toList := Classical.byContradiction fun hnot => hplain ⟨hempty, hnot⟩
    obtain ⟨first, rest, hsplit, hfirst⟩ := eq_append_cons_of_mem hhyphen
    have halnum : ∀ c ∈ first, c.isAlphanum := fun c hc =>
      (h c (by simp [hsplit, hc])).resolve_right fun heq => hfirst (heq ▸ hc)
    simp only [toList_written, hsplit, append_assoc, cons_append, dropWhile_append_of_pos halnum]
    rfl

/-- The permissions of all handlers for a service. -/
theorem exists_permissionsFor_iff (hkeys : (Keyed.keys (facts.handlers.getD [])).Nodup) :
    (∃ handler own, ((permissionsFor (.str handler) (.str s) false).run facts).1 = some own ∧ name ∈ own) ↔
      ∃ permission ∈ facts.stored, s.toList <+: permission.toList ∧ withoutService permission = name := by
  have hmem {own : List String} : name ∈ distinct (Roles.forService s own) ↔
      ∃ permission ∈ own, s.toList <+: permission.toList ∧ withoutService permission = name := by
    rw [distinct, mem_addAllNew, or_iff_right not_mem_nil]
    simp [Roles.forService, mem_filter, and_assoc]
  simp only [permissionsFor_eq, Option.map_eq_some_iff]
  constructor
  · rintro ⟨handler, _, ⟨own, hown, rfl⟩, hname⟩
    obtain ⟨permission, hpermission, h⟩ := hmem.1 hname
    exact ⟨permission, mem_flatMap.2 ⟨_, Keyed.mem_of_find? hown, hpermission⟩, h⟩
  · rintro ⟨permission, hpermission, h⟩
    obtain ⟨⟨handler, own⟩, hentry, hown⟩ := mem_flatMap.1 hpermission
    exact ⟨handler, _, ⟨own, Keyed.find?_of_mem hkeys hentry, rfl⟩, hmem.2 ⟨permission, hown, h⟩⟩

/-- **When the two views agree.** Let the permissions of handlers be written with the names of services and a colon. What
handlers may do with a service, taken together, is what is listed under the service, if and only if each permission of
a service whose name starts with that of the service has a name of letters and digits before its colon, and is one of
the service itself as well. -/
theorem views_agree_iff (hkeys : (Keyed.keys (facts.handlers.getD [])).Nodup)
    (hpermissions : ∀ permission ∈ facts.stored, IsPermission permission) (hs : IsServiceName s) :
    (∀ name, (∃ handler own, ((permissionsFor (.str handler) (.str s) false).run facts).1 = some own ∧ name ∈ own) ↔
        name ∈ (Keyed.find? s facts.allPermissions).getD []) ↔
      ∀ service name, IsServiceName service → written service name ∈ facts.stored → s.toList <+: service.toList →
        IsPlain service ∧ written s name ∈ facts.stored := by
  have hcolon := hs.colon_not_mem
  have hlisted (name : String) : name ∈ (Keyed.find? s facts.allPermissions).getD [] ↔ written s name ∈ facts.stored :=
    holds_allPermissions_iff hcolon
  simp only [exists_permissionsFor_iff hkeys, hlisted]
  constructor
  · intro h service name hservice hmem hprefix
    have hname := (h _).1 ⟨_, hmem, (prefix_written_iff hcolon).2 hprefix, rfl⟩
    by_cases hplain : IsPlain service
    · rw [withoutService_of_isPlain hservice hplain] at hname
      exact ⟨hplain, hname⟩
    · -- The permission as a whole would be a name with a colon in it.
      rw [withoutService_of_not_isPlain hservice hplain] at hname
      obtain ⟨_, _, heq, hother, hno⟩ := hpermissions _ hname
      obtain ⟨rfl, rfl⟩ := written_inj hcolon hother.colon_not_mem heq
      exact absurd (by simp [toList_written]) hno
  · intro h name
    constructor
    · rintro ⟨permission, hmem, hprefix, rfl⟩
      obtain ⟨service, name, rfl, hservice, -⟩ := hpermissions permission hmem
      obtain ⟨hplain, hown⟩ := h service name hservice hmem ((prefix_written_iff hcolon).1 hprefix)
      rwa [withoutService_of_isPlain hservice hplain]
    · intro hmem
      obtain ⟨hplain, -⟩ := h s name hs hmem List.prefix_rfl
      exact ⟨_, hmem, (prefix_written_iff hcolon).2 List.prefix_rfl, withoutService_of_isPlain hs hplain name⟩

/-- A permission of a service with a longer name, which has a hyphen. -/
def longerName : PluginFacts := { handlers := some [("f", ["s3-outposts:PutObject"])] }

theorem longer_name_taken_for_service :
    longerName.stored = [written "s3-outposts" "PutObject"] ∧
      ¬ ∀ name, (∃ handler own, ((permissionsFor (.str handler) (.str "s3") false).run longerName).1 = some own ∧
          name ∈ own) ↔ name ∈ (Keyed.find? "s3" longerName.allPermissions).getD [] := by
  have hstored : longerName.stored = [written "s3-outposts" "PutObject"] := by decide
  have hname (service : String) (h : (service.toList.all fun c => c.isAlphanum || c == '-') = true) :
      IsServiceName service := by
    intro c hc
    simpa using List.all_eq_true.1 h c hc
  have hpermissions : ∀ permission ∈ longerName.stored, IsPermission permission := by
    rw [hstored, List.forall_mem_singleton]
    exact ⟨_, _, rfl, hname _ (by decide), by decide⟩
  refine ⟨hstored, ?_⟩
  rw [views_agree_iff (by decide) hpermissions (hname _ (by decide))]
  intro h
  have hplain := (h "s3-outposts" "PutObject" (hname _ (by decide)) (by decide) (by decide)).1
  exact hplain.2 (by decide)

end ServerlessTaint.PluginFacts
