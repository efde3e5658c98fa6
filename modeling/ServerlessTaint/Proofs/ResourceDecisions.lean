import ServerlessTaint.Permission
import ServerlessTaint.Proofs.Fault
import ServerlessTaint.Proofs.Keyed
import ServerlessTaint.Proofs.Pieces

/-!
# Decisions about resources

The decision about a call that names its resource goes by the first resource in stored order that the name
designates (`run_resourcesAllow`), and every resource that the name designates stands first in some order.
So a call is allowed in every order only if all those resources, or the wildcard, grant a required
permission (`allowed_in_every_order_iff`).
-/

namespace ServerlessTaint.Permission

open Syntax (Ast)

/-- A name designates a resource of a service: it is the last part of the resource, or stands in it between
slashes. -/
def Designates (service name resource : String) : Prop :=
  (Arn.ofText resource).parts.service = service ∧
    ((Arn.ofText resource).parts.resourceId = name ∨
      name ∈ Text.splitString '/' (Arn.ofText resource).parts.resourceId)

instance (service name resource : String) : Decidable (Designates service name resource) :=
  inferInstanceAs (Decidable (_ ∧ _))

theorem isNamed_eq_true_iff {service name resource : String} :
    isNamed (.str name) service resource ↔ Designates service name resource := by
  unfold isNamed Designates
  generalize (Arn.ofText resource).parts = parts
  simp only [Value.isText, Value.text?, Bool.and_eq_true, Bool.or_eq_true, beq_iff_eq, Option.some.injEq,
    List.any_eq_true, List.contains_iff_mem]
  refine and_congr_right fun _ => ⟨?_, ?_⟩
  · rintro (rfl | ⟨-, piece, hpiece, rfl⟩)
    · exact .inl rfl
    · exact .inr hpiece
  · rintro (rfl | hpiece)
    · exact .inl rfl
    · by_cases hslash : '/' ∈ parts.resourceId.toList
      · exact .inr ⟨hslash, name, hpiece, rfl⟩
      · -- Without a slash the only piece is the whole.
        rw [Text.splitString, Text.splitAt_of_not_mem hslash, List.map_singleton, String.ofList_toList,
          List.mem_singleton] at hpiece
        exact .inl hpiece

def Permits (required : List String) (service : String) (grants : List Grant) : Prop :=
  ∃ p ∈ required, p ∈ permissionsIn service grants

instance (required : List String) (service : String) (grants : List Grant) :
    Decidable (Permits required service grants) :=
  inferInstanceAs (Decidable (∃ p ∈ required, p ∈ permissionsIn service grants))

theorem meets_permissionsIn {required : List String} {service : String} {grants : List Grant} :
    meets required (permissionsIn service grants) = decide (Permits required service grants) := by
  rw [Bool.eq_iff_iff, decide_eq_true_iff]
  simp [meets, Permits]

/-- A call is allowed for every handler that has the given grants on resources, in whatever order they are
stored. -/
def AllowedInEveryOrder (site : Site) (required : List String) (service : String) (places : Value) (call : Ast)
    (resources : ResourceGrants) : Prop :=
  ∀ (provided stored : ResourceGrants) (handler : Option String) (facts facts' : PluginFacts),
    stored.Perm resources → (resourcesFor provided handler).run.run facts = (.ok stored, facts') →
      (resourcesAllow site required provided service places call handler).run.run facts = (.ok true, facts')

section

variable {site : Site} {required : List String} {service name id : String} {position : Value}
  {more : List (String × Value)} {call input : Ast}

theorem placeAllows_of_text {stored : ResourceGrants}
    (hinput : call.callInput? (.str id) position = .ok (some input)) (hname : input.text? = some name) :
    placeAllows site required stored service call (.map ((id, position) :: more)) =
      .ok (resourceAllows required stored service (.str name)) := by
  refine bind_eq_ok_iff.2 ⟨_, rfl, bind_eq_ok_iff.2 ⟨some input, hinput, ?_⟩⟩
  simp only [hname]
  rfl

/-- The decision about a call with one place for a resource, where a literal text stands. -/
theorem run_resourcesAllow {provided stored : ResourceGrants} {handler : Option String}
    {facts facts' : PluginFacts} (hstored : (resourcesFor provided handler).run.run facts = (.ok stored, facts'))
    (hinput : call.callInput? (.str id) position = .ok (some input)) (hname : input.text? = some name) :
    (resourcesAllow site required provided service (.list [.map ((id, position) :: more)]) call
        handler).run.run facts =
      (.ok (((Keyed.find? "*" stored).any fun grants => decide (Permits required service grants)) ||
        resourceAllows required stored service (.str name)), facts') := by
  have hplaces : (resourcesAllow.decideAll site required service (.list [.map ((id, position) :: more)]) call
      stored).run.run facts' = (.ok (resourceAllows required stored service (.str name)), facts') := by
    refine run_bind_eq_ok_iff.2 ⟨[.map ((id, position) :: more)], facts', rfl, ?_⟩
    refine run_bind_eq_ok_iff.2 ⟨[resourceAllows required stored service (.str name)], facts', ?_, ?_⟩
    · rw [List.mapM_cons, placeAllows_of_text hinput hname]
      rfl
    · simp
      rfl
  refine run_bind_eq_ok_iff.2 ⟨stored, facts', hstored, ?_⟩
  cases hwild : Keyed.find? "*" stored with
  | none => exact hplaces
  | some grants =>
    simp only [meets_permissionsIn, Option.any_some]
    by_cases hpermits : Permits required service grants
    · simp [hpermits]
      rfl
    · simp [hpermits]
      exact hplaces

/-- **Any matching grant allows the call, if all matching resources grant.** Let a call name its resource
by a literal text, and let some resource that the text designates grant a required permission. The call is
allowed, however the grants are stored, if and only if the wildcard grants a required permission or every
resource that the text designates does. -/
theorem allowed_in_every_order_iff {resources : ResourceGrants}
    (hinput : call.callInput? (.str id) position = .ok (some input)) (hname : input.text? = some name)
    (hkeys : (Keyed.keys resources).Nodup)
    (hgrant : ∃ entry ∈ resources, Designates service name entry.1 ∧ Permits required service entry.2) :
    AllowedInEveryOrder site required service (.list [.map ((id, position) :: more)]) call resources ↔
      (∃ grants, ("*", grants) ∈ resources ∧ Permits required service grants) ∨
        ∀ entry ∈ resources, Designates service name entry.1 → Permits required service entry.2 := by
  constructor
  · intro hall
    rw [Classical.or_iff_not_imp_left]
    intro hwild entry hentry hnamed
    -- Stored with this entry first, the grants are decided by it.
    obtain ⟨before, after, hsplit⟩ := List.append_of_mem hentry
    have hperm : (entry :: (before ++ after)).Perm resources := hsplit ▸ List.perm_middle.symm
    have hallowed := hall (entry :: (before ++ after)) _ none {} {} hperm rfl
    rw [run_resourcesAllow rfl hinput hname, Prod.mk.injEq, Except.ok.injEq, Bool.or_eq_true] at hallowed
    rcases hallowed.1 with hany | hfirst
    · cases hfind : Keyed.find? "*" (entry :: (before ++ after)) with
      | none => simp [hfind] at hany
      | some grants =>
        rw [hfind, Option.any_some, decide_eq_true_iff] at hany
        exact absurd ⟨grants, hperm.mem_iff.1 (Keyed.mem_of_find? hfind), hany⟩ hwild
    · simpa [resourceAllows, isNamed_eq_true_iff.2 hnamed, meets_permissionsIn] using hfirst
  · intro hcond provided stored handler facts facts' hperm hstored
    rw [run_resourcesAllow hstored hinput hname]
    rcases hcond with ⟨grants, hwild, hpermits⟩ | hevery
    · have hfind : Keyed.find? "*" stored = some grants :=
        Keyed.find?_of_mem ((hperm.map _).nodup_iff.2 hkeys) (hperm.mem_iff.2 hwild)
      simp [hfind, hpermits]
    · obtain ⟨entry, hentry, hnamed, -⟩ := hgrant
      cases hfind : List.find? (fun entry => isNamed (.str name) service entry.1) stored with
      | none =>
        have := List.find?_eq_none.1 hfind entry (hperm.mem_iff.2 hentry)
        exact absurd (isNamed_eq_true_iff.2 hnamed) this
      | some first =>
        have hdesignated := List.find?_some hfind
        have hfirst := hevery first (hperm.mem_iff.1 (List.mem_of_find?_eq_some hfind))
          (isNamed_eq_true_iff.1 hdesignated)
        simp [resourceAllows, hfind, meets_permissionsIn, hfirst]

end

def bucketWrite : Ast := .node .call none [
  .node .attributeRef none [.node .name none [.name "s3"], .name "put_object"], .list [],
  .list [.node .keyword none [.name "Bucket", .node .constant none [.literal (.str "b")]]]]

def bucketGrants (onBucket onObjects : List String) : ResourceGrants := [
  ("arn:aws:s3:::b", onBucket.map (.permission "s3")), ("arn:aws:s3:::b/*", onObjects.map (.permission "s3"))]

/-- With a bucket that may be read and objects that may be written, one of the orders refuses to write. Both
allow it if the bucket may be written as well. -/
theorem objects_hidden_by_bucket :
    (∃ entry ∈ bucketGrants ["GetObject"] ["PutObject"],
        Designates "s3" "b" entry.1 ∧ Permits ["PutObject"] "s3" entry.2) ∧
      ¬AllowedInEveryOrder ⟨.map [], .null, .error .missingFile⟩ ["PutObject"] "s3"
        (.list [.map [("Bucket", .str "None")]]) bucketWrite (bucketGrants ["GetObject"] ["PutObject"]) ∧
      AllowedInEveryOrder ⟨.map [], .null, .error .missingFile⟩ ["PutObject"] "s3"
        (.list [.map [("Bucket", .str "None")]]) bucketWrite (bucketGrants ["PutObject"] ["PutObject"]) := by
  have hgrant : ∃ entry ∈ bucketGrants ["GetObject"] ["PutObject"],
      Designates "s3" "b" entry.1 ∧ Permits ["PutObject"] "s3" entry.2 := by decide +kernel
  have hwild : ∀ onBucket onObjects grants, ("*", grants) ∉ bucketGrants onBucket onObjects := by
    simp [bucketGrants]
  refine ⟨hgrant, ?_, ?_⟩
  · rw [allowed_in_every_order_iff rfl rfl (by decide) hgrant]
    rintro (⟨grants, hstar, -⟩ | hevery)
    · exact hwild _ _ grants hstar
    · exact absurd hevery (by decide +kernel)
  · rw [allowed_in_every_order_iff rfl rfl (by decide) (by decide +kernel)]
    exact .inr (by decide +kernel)

end ServerlessTaint.Permission
