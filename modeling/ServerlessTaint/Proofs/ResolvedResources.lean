import ServerlessTaint.Proofs.Statements

/-!
# Resources under their resolved names

The grants on resources are collected under the names that the statements write, in the order in which these
first occur (`keys_writtenResources`), and are stored again under the resolved names. Of the written names
that are resolved alike only the last one keeps its grants (`find?_resolveResources`), so resolving loses
nothing if and only if the last name has the grants of the others too (`resolving_loses_none_iff`).
-/

namespace ServerlessTaint.Grants

open List Keyed Reference

/-! ## The written names in order -/

theorem keys_addGrant (resource : String) (resources : ResourceGrants) (action : Value) :
    keys (addGrant resource resources action).1 = addNew (keys resources) resource := by
  cases action with
  | str text =>
    rw [addGrant]
    rcases actionParts text with ⟨service, _ | name⟩
    · exact keys_modify resource [] id resources
    · exact keys_modify resource [] (fun s => addNew s (.permission service name)) resources
  | _ => exact keys_modify resource _ _ resources

variable {α : Type} {grant : Grant} {resource : String} {stated : List Statement}

theorem addNew_addNew [DecidableEq α] (xs : List α) (x : α) : addNew (addNew xs x) x = addNew xs x :=
  if_pos (mem_addNew.2 (.inr rfl))

/-- The actions of a statement bring its resource into being, if there are some. -/
theorem keys_untilFault_addGrant (resource : String) (resources : ResourceGrants) (actions : List Value) :
    keys (untilFault (addGrant resource) resources actions).1 =
      if actions.isEmpty then keys resources else addNew (keys resources) resource := by
  induction actions generalizing resources with
  | nil => rfl
  | cons action rest ih =>
    rw [untilFault_cons]
    split
    · rw [ih, keys_addGrant, addNew_addNew]
      simp
    · simp [keys_addGrant]

namespace Statement

/-- The resource on which a statement allows something, as it is written. -/
def names (s : Statement) : List String :=
  if s.allowed.isEmpty then [] else (s.resource.map Value.display).toList

theorem mem_names_of_grantsOn {s : Statement} {resource : String} {grant : Grant} (h : s.GrantsOn resource grant) :
    resource ∈ s.names := by
  obtain ⟨hresource, a, ha, -⟩ := h
  have hallowed : s.allowed.isEmpty = false := by
    rw [isEmpty_eq_false_iff]
    exact ne_nil_of_mem ha
  simp [names, hallowed, hresource]

theorem keys_addResource (s : Statement) (resources : ResourceGrants) :
    keys (addResource resources s.value).1 = addAllNew (keys resources) s.names := by
  have hname := s.resourceOf?_value
  unfold names
  cases hresource : s.resource.map Value.display with
  | none =>
    rw [addResource_of_none (hname.trans hresource)]
    split <;> rfl
  | some name =>
    rw [addResource_of_resource (hname.trans hresource), s.allowedActions_value]
    simp only [keys_untilFault_addGrant, isEmpty_map]
    split <;> rfl

end Statement

/-- The names of the resources on which statements allow something, in the order in which they first occur. -/
def named (stated : List Statement) : List String := distinct (stated.flatMap Statement.names)

theorem keys_untilFault_addResource (stated : List Statement) (resources : ResourceGrants) :
    keys (untilFault addResource resources (stated.map Statement.value)).1 =
      addAllNew (keys resources) (stated.flatMap Statement.names) := by
  induction stated generalizing resources with
  | nil => rfl
  | cons s rest ih =>
    rw [map_cons, untilFault_cons, adds_addResource.goesOn_eq, s.isPassed_value, if_pos rfl, ih,
      s.keys_addResource, flatMap_cons]
    exact foldl_append.symm

theorem keys_writtenResources (stated : List Statement) :
    keys (writtenResources (.list (stated.map Statement.value))) = named stated :=
  keys_untilFault_addResource stated []

theorem nodup_addAllNew [DecidableEq α] {xs : List α} (h : xs.Nodup) (ys : List α) : (addAllNew xs ys).Nodup := by
  induction ys generalizing xs with
  | nil => exact h
  | cons y ys ih => exact ih (nodup_addNew h y)

theorem nodup_named (stated : List Statement) : (named stated).Nodup := nodup_addAllNew nodup_nil _

theorem mem_named_of_grantsOn {s : Statement} (hs : s ∈ stated) (h : s.GrantsOn resource grant) :
    resource ∈ named stated :=
  mem_addAllNew.2 (.inr (mem_flatMap.2 ⟨s, hs, Statement.mem_names_of_grantsOn h⟩))

theorem holds_writtenResources_stated :
    (writtenResources (.list (stated.map Statement.value))).Holds resource grant ↔
      ∃ s ∈ stated, s.GrantsOn resource grant := by
  have hgrants : ∀ s : Statement, (resourceOf? s.value = some resource ∧ grant ∈ grantsOf s.value) ↔
      s.GrantsOn resource grant := by
    intro s
    rw [s.resourceOf?_value, s.grantsOf_value, mem_map]
    rfl
  rw [holds_writtenResources_iff, readPart_of_all (by simp [Statement.isPassed_value])]
  constructor
  · rintro ⟨item, hitem, hgrant⟩
    obtain ⟨s, hs, rfl⟩ := mem_map.1 hitem
    exact ⟨s, hs, (hgrants s).1 hgrant⟩
  · rintro ⟨s, hs, hgrant⟩
    exact ⟨s.value, mem_map_of_mem hs, (hgrants s).2 hgrant⟩

/-! ## The resolved names -/

/-- Among the written names that are resolved alike, the last one keeps its grants. -/
theorem find?_resolveResources {config : Value} {resources : ResourceGrants} {before after : List String}
    {last : String} (hkeys : keys resources = before ++ last :: after)
    (hnodup : (keys resources).Nodup)
    (hlast : ∀ r ∈ after, resolve config r ≠ resolve config last) :
    find? (resolve config last) (resolveResources config resources) =
      find? last resources := by
  obtain ⟨first, rest, rfl, rfl, hrest⟩ := map_eq_append_iff.1 hkeys
  obtain ⟨⟨name, grants⟩, others, rfl, rfl, rfl⟩ := map_eq_cons_iff.1 hrest
  rw [find?_of_mem hnodup (mem_append_right _ mem_cons_self), resolveResources, map_append,
    map_cons]
  refine find?_ofEntries_append_cons ?_ _ _
  simpa [Keyed.keys, eq_comm] using hlast

/-- Every name has a last one that is resolved alike. -/
theorem exists_last_alike {β : Type} [DecidableEq β] (f : α → β) {names : List α} {name : α} (h : name ∈ names) :
    ∃ before last after, names = before ++ last :: after ∧ f last = f name ∧ (∀ r ∈ after, f r ≠ f last) ∧
      (name = last ∨ name ∈ before) := by
  cases hfind : names.reverse.find? fun r => f r = f name with
  | none =>
    have := find?_eq_none.1 hfind name (mem_reverse.2 h)
    simp at this
  | some last =>
    obtain ⟨halike, later, earlier, hsplit, hlater⟩ := find?_eq_some_iff_append.1 hfind
    have hnames : names = earlier.reverse ++ last :: later.reverse := by
      rw [← reverse_reverse names, hsplit]
      simp
    have hf : f last = f name := of_decide_eq_true halike
    have hafter : ∀ r ∈ later.reverse, f r ≠ f last := by
      intro r hr heq
      have := hlater r (mem_reverse.1 hr)
      simp [heq, hf] at this
    refine ⟨earlier.reverse, last, later.reverse, hnames, hf, hafter, ?_⟩
    rw [hnames, mem_append, mem_cons] at h
    rcases h with hbefore | rfl | hlate
    · exact .inr hbefore
    · exact .inl rfl
    · exact absurd hf.symm (hafter name hlate)

section

variable {config : Value} {stated : List Statement}

/-- Every grant of a statement on a resource is found under the resolved name of the resource. -/
def NoneLost (config : Value) (stated : List Statement) : Prop :=
  ∀ s ∈ stated, ∀ resource grant, s.GrantsOn resource grant →
    (ofConfig config).resources.Holds (Reference.resolve config resource) grant

/-- Among the names that are resolved alike, the one that first occurs last has the grants of all. -/
def LastHasAll (config : Value) (stated : List Statement) : Prop :=
  ∀ before last after, named stated = before ++ last :: after →
    (∀ r ∈ after, Reference.resolve config r ≠ Reference.resolve config last) →
      ∀ r ∈ before, Reference.resolve config r = Reference.resolve config last →
        ∀ s ∈ stated, ∀ grant, s.GrantsOn r grant → ∃ s' ∈ stated, s'.GrantsOn last grant

theorem holds_resources_ofConfig {before after : List String} {last : String} {grant : Grant}
    (hstated : statements config = .list (stated.map Statement.value))
    (hnames : named stated = before ++ last :: after)
    (hlast : ∀ r ∈ after, resolve config r ≠ resolve config last) :
    (ofConfig config).resources.Holds (resolve config last) grant ↔
      ∃ s ∈ stated, s.GrantsOn last grant := by
  have hresources : (ofConfig config).resources =
      resolveResources config (writtenResources (.list (stated.map Statement.value))) := by
    rw [ofConfig, hstated]
  have hkeys := keys_writtenResources stated
  rw [hresources, Holds, find?_resolveResources (hkeys.trans hnames) (hkeys ▸ nodup_named stated) hlast]
  exact holds_writtenResources_stated

/-- **Resolving loses no permission, if the last name has them all.** Let the statements of the provider be
well-formed. Every grant is found under the resolved name of its resource if and only if, among the names that
are resolved alike, the last one has the grants of all. -/
theorem resolving_loses_none_iff (hstated : statements config = .list (stated.map Statement.value)) :
    NoneLost config stated ↔ LastHasAll config stated := by
  constructor
  · intro hall before last after hnames hlast r _ halike s hs grant hgrant
    have hfound := hall s hs r grant hgrant
    rw [halike] at hfound
    exact (holds_resources_ofConfig hstated hnames hlast).1 hfound
  · intro hcond s hs resource grant hgrant
    obtain ⟨before, last, after, hnames, halike, hlast, hplace⟩ :=
      exists_last_alike (Reference.resolve config) (mem_named_of_grantsOn hs hgrant)
    rw [← halike, holds_resources_ofConfig hstated hnames hlast]
    rcases hplace with rfl | hbefore
    · exact ⟨s, hs, hgrant⟩
    · exact hcond before last after hnames hlast resource hbefore halike.symm s hs grant hgrant

end

/-- A configuration that names a bucket and has the given statements. -/
def withBucket (stated : List Statement) : Value :=
  .map [("custom", .map [("bucket", .str "uploads")]),
    ("provider", .map [("iam", .map [("role", .map [("statements", .list (stated.map Statement.value))])])])]

def referredBucket : String := "arn:aws:s3:::$\x7bself:custom.bucket\x7d"

def plainBucket : String := "arn:aws:s3:::uploads"

theorem resolve_referredBucket (stated : List Statement) :
    resolve (withBucket stated) referredBucket = resolve (withBucket stated) plainBucket := by
  have hreferred : resolve (withBucket stated) referredBucket = plainBucket := by rfl
  have hplain : resolve (withBucket stated) plainBucket = plainBucket := by rfl
  rw [hreferred, hplain]

/-- A permission on a bucket by reference is lost to another one on the bucket by name, unless both allow the
same. -/
theorem referred_permission_lost :
    ¬NoneLost (withBucket [.allowing .putObject referredBucket, .allowing .getObject plainBucket])
        [.allowing .putObject referredBucket, .allowing .getObject plainBucket] ∧
      NoneLost (withBucket [.allowing .putObject referredBucket, .allowing .putObject plainBucket])
        [.allowing .putObject referredBucket, .allowing .putObject plainBucket] := by
  have hnames : ∀ first second, named [.allowing first referredBucket, .allowing second plainBucket] =
      [referredBucket, plainBucket] := fun first second => rfl
  refine ⟨fun hkept => ?_, (resolving_loses_none_iff rfl).2 ?_⟩
  · have hall := (resolving_loses_none_iff rfl).1 hkept [referredBucket] plainBucket [] (hnames _ _) (by simp)
      referredBucket List.mem_cons_self (resolve_referredBucket _)
    obtain ⟨s, hs, hgrant⟩ := hall _ List.mem_cons_self _ (Statement.grantsOn_allowing.2 ⟨rfl, rfl⟩)
    simp only [List.mem_cons, List.not_mem_nil, or_false] at hs
    rcases hs with rfl | rfl
    · exact absurd (Statement.grantsOn_allowing.1 hgrant).1 (by decide)
    · exact absurd (Statement.grantsOn_allowing.1 hgrant).2 (by decide)
  · intro before last after hsplit _ r _ _ s hs grant hgrant
    have hlast : last ∈ [referredBucket, plainBucket] := by
      rw [← hnames .putObject .putObject, hsplit]
      simp
    have hput : Action.putObject.grant = grant := by
      simp only [List.mem_cons, List.not_mem_nil, or_false] at hs
      rcases hs with rfl | rfl <;> exact (Statement.grantsOn_allowing.1 hgrant).2
    simp only [List.mem_cons, List.not_mem_nil, or_false] at hlast
    rcases hlast with rfl | rfl
    · exact ⟨_, List.mem_cons_self, Statement.grantsOn_allowing.2 ⟨rfl, hput⟩⟩
    · exact ⟨_, List.mem_cons_of_mem _ List.mem_cons_self, Statement.grantsOn_allowing.2 ⟨rfl, hput⟩⟩

end ServerlessTaint.Grants
