import ServerlessTaint.Model.Supplied
import ServerlessTaint.Proofs.SplitLogs

/-!
# Models that are copied

The models of a service that no dictionary of permissions lists are copied as they are. Those of a service that is
listed are chosen line by line. More permissions keep more lines of a listed service (`keepsLine_mono`), but the first
permission of a service makes it listed. So no line is lost by more permissions if and only if the service was listed
before, is not listed, or loses no line by the choice (`copied_lines`).
-/

namespace ServerlessTaint.SuppliedModel

open List

variable {catalogue : Value} {service api : String} {line : List Char} {kinds : List (String × Value)}
  {permissions : List String} {granted granted' extra extra' : ServicePermissions}

def linesOf (text : String) : List (List Char) := Text.linesWithEnds (Text.normalizeNewlines text.toList)

def isListed (granted extra : ServicePermissions) (service : String) : Bool :=
  Keyed.has service granted || Keyed.has service extra

def permissionsOf (granted extra : ServicePermissions) (service : String) : List String :=
  (Keyed.find? service granted).getD [] ++ (Keyed.find? service extra).getD []

def copiesLine (catalogue : Value) (granted extra : ServicePermissions) (service : String) (line : List Char) : Bool :=
  !isListed granted extra service || keepsLine catalogue service (permissionsOf granted extra service) line

/-- The text of a file of models consists, up to line ends, of the lines that are copied. -/
theorem normalizeNewlines_textFor (catalogue : Value) (granted extra : ServicePermissions) (file text : String) :
    Text.normalizeNewlines (textFor catalogue granted extra file text).toList =
      ((linesOf text).filter (copiesLine catalogue granted extra (serviceOf file))).flatten := by
  unfold textFor
  dsimp only
  rw [← Bool.not_or, ← isListed]
  cases hlisted : isListed granted extra (serviceOf file) with
  | false =>
    have hall : ∀ line ∈ linesOf text, copiesLine catalogue granted extra (serviceOf file) line := by
      intro line _
      rw [copiesLine, hlisted]
      rfl
    rw [filter_eq_self.2 hall]
    exact (Text.flatten_linesWithEnds _).symm
  | true =>
    have hcopies : copiesLine catalogue granted extra (serviceOf file) =
        keepsLine catalogue (serviceOf file) (permissionsOf granted extra (serviceOf file)) := by
      funext line
      rw [copiesLine, hlisted]
      rfl
    rw [hcopies, Bool.not_true, if_neg Bool.false_ne_true, String.toList_ofList]
    refine Text.normalizeNewlines_of_not_mem fun hmem => Text.not_mem_normalizeNewlines text.toList ?_
    rw [← Text.flatten_linesWithEnds (Text.normalizeNewlines text.toList)]
    obtain ⟨line, hline, hreturn⟩ := mem_flatten.1 hmem
    exact mem_flatten.2 ⟨line, (mem_filter.1 hline).1, hreturn⟩

theorem keepsApi_iff : keepsApi catalogue service permissions api ↔
    ∃ info, catalogue.get service = .ok info ∧ ∀ kinds, info = .map kinds →
      ∃ required, permissionsFor api kinds = .ok required ∧ ∃ p ∈ required, p ∈ permissions := by
  unfold keepsApi
  cases catalogue.get service with
  | error fault => simp
  | ok info =>
    cases info with
    | map kinds => cases hrequired : permissionsFor api kinds <;> simp [hrequired]
    | _ => simp

/-- More permissions keep the models of a service that were kept. -/
theorem keepsLine_mono {permissions' : List String} (h : permissions ⊆ permissions')
    (hkeeps : keepsLine catalogue service permissions line) : keepsLine catalogue service permissions' line := by
  unfold keepsLine at hkeeps ⊢
  rw [Bool.or_eq_true] at hkeeps ⊢
  refine hkeeps.imp_right fun hkeeps => ?_
  cases hname : apiName? line with
  | none => rfl
  | some api =>
    rw [hname] at hkeeps
    obtain ⟨info, hinfo, hkinds⟩ := keepsApi_iff.1 hkeeps
    refine keepsApi_iff.2 ⟨info, hinfo, fun kinds heq => ?_⟩
    obtain ⟨required, hrequired, p, hp, hmay⟩ := hkinds kinds heq
    exact ⟨required, hrequired, p, hp, h hmay⟩

/-- The permissions that are asked for a function are those of the kinds of objects. -/
theorem exists_of_mem_permissionsFor {required : List String} {p : String} (h : permissionsFor api kinds = .ok required)
    (hp : p ∈ required) : ∃ kind ∈ kinds, ∃ asked, permissionsIn api kind.2 = .ok asked ∧ p ∈ asked := by
  suffices hfold : p ∈ ([] : List String) ∨ ∃ kind ∈ kinds, ∃ asked, permissionsIn api kind.2 = .ok asked ∧ p ∈ asked from
    hfold.resolve_left not_mem_nil
  unfold permissionsFor at h
  generalize ([] : List String) = found at h ⊢
  induction kinds generalizing found with
  | nil =>
    cases h
    exact .inl hp
  | cons kind kinds ih =>
    obtain ⟨next, hnext, h⟩ := bind_eq_ok_iff.1 h
    rcases ih next h with hmem | ⟨kind', hkind', hasked⟩
    · dsimp only at hnext
      split at hnext
      · cases hnext
        rename_i asked hasked
        exact (mem_append.1 hmem).imp_right fun hmem => ⟨kind, mem_cons_self, asked, hasked, hmem⟩
      · cases hnext
        exact .inl hmem
      · cases hnext
    · exact .inr ⟨kind', mem_cons_of_mem _ hkind', hasked⟩

theorem permissionsOf_subset (hgranted : ∀ service p, Keyed.Holds granted service p → Keyed.Holds granted' service p)
    (hextra : ∀ service p, Keyed.Holds extra service p → Keyed.Holds extra' service p) (service : String) :
    permissionsOf granted extra service ⊆ permissionsOf granted' extra' service := fun p hp =>
  mem_append.2 ((mem_append.1 hp).imp (hgranted service p) (hextra service p))

/-- **Which models are copied.** A file of models is written with the lines that are copied. With more permissions of
either kind no line is lost, if and only if the service of the file was listed before, is not listed now, or would keep
all lines anyway. A line that models a function of a listed service is copied only if the application has one of the
permissions that the catalogue asks for the function. -/
theorem copied_lines (hgranted : ∀ service p, Keyed.Holds granted service p → Keyed.Holds granted' service p)
    (hextra : ∀ service p, Keyed.Holds extra service p → Keyed.Holds extra' service p) (catalogue : Value)
    (file text : String) :
    Text.normalizeNewlines (textFor catalogue granted extra file text).toList =
        ((linesOf text).filter (copiesLine catalogue granted extra (serviceOf file))).flatten ∧
      ((∀ line ∈ linesOf text, copiesLine catalogue granted extra (serviceOf file) line = true →
          copiesLine catalogue granted' extra' (serviceOf file) line = true) ↔
        isListed granted extra (serviceOf file) = true ∨ isListed granted' extra' (serviceOf file) = false ∨
          ∀ line ∈ linesOf text,
            keepsLine catalogue (serviceOf file) (permissionsOf granted' extra' (serviceOf file)) line = true) ∧
      ∀ kinds api line, catalogue.get (serviceOf file) = .ok (.map kinds) →
        isListed granted extra (serviceOf file) = true → line.head? ≠ some '#' → apiName? line = some api →
        copiesLine catalogue granted extra (serviceOf file) line = true →
          ∃ kind ∈ kinds, ∃ asked, permissionsIn api kind.2 = .ok asked ∧
            ∃ p ∈ asked, Keyed.Holds granted (serviceOf file) p ∨ Keyed.Holds extra (serviceOf file) p := by
  have hsub := permissionsOf_subset hgranted hextra (serviceOf file)
  refine ⟨normalizeNewlines_textFor catalogue granted extra file text, ?_, ?_⟩
  · simp only [copiesLine, Bool.or_eq_true, Bool.not_eq_true']
    constructor
    · intro h
      rcases Bool.eq_false_or_eq_true (isListed granted extra (serviceOf file)) with hlisted | hlisted
      · exact .inl hlisted
      · rcases Bool.eq_false_or_eq_true (isListed granted' extra' (serviceOf file)) with hlisted' | hlisted'
        · refine .inr (.inr fun line hline => (h line hline (.inl hlisted)).resolve_left ?_)
          exact ne_false_of_eq_true hlisted'
        · exact .inr (.inl hlisted')
    · rintro (hlisted | hlisted' | hall) line hline hcopies
      · rw [hlisted] at hcopies
        exact .inr (keepsLine_mono hsub (hcopies.resolve_left Bool.noConfusion))
      · exact .inl hlisted'
      · exact .inr (hall line hline)
  · intro kinds api line hkinds hlisted hcomment hapi hcopies
    have hlength : line.length ≠ 1 := by
      intro hone
      obtain ⟨c, rfl⟩ := List.length_eq_one_iff.1 hone
      simp [apiName?] at hapi
    rw [copiesLine, hlisted, Bool.not_true, Bool.false_or, keepsLine, hapi, beq_eq_false_iff_ne.2 hcomment,
      beq_eq_false_iff_ne.2 hlength, Bool.false_or, Bool.false_or] at hcopies
    obtain ⟨info, hinfo, hasks⟩ := keepsApi_iff.1 hcopies
    obtain ⟨required, hrequired, p, hp, hmay⟩ := hasks kinds (Except.ok.inj (hinfo.symm.trans hkinds))
    obtain ⟨kind, hkind, asked, hasked, hp⟩ := exists_of_mem_permissionsFor hrequired hp
    exact ⟨kind, hkind, asked, hasked, p, hp, List.mem_append.1 hmay⟩

/-- Models of two functions of a service, of which one may be called with a permission. -/
def storageModels : String := "def m.C.put(a): ...\ndef m.C.scan(a): ...\n"

def storageCatalogue : Value :=
  .map [("s3", .map [("client", .map [("put", .map [("permissions", .list [.str "Put"])]),
    ("scan", .map [("permissions", .list [.str "Scan"])])])])]

/-- The first permission of a service takes a model away, and without any a function that may not be called keeps its
model. -/
theorem first_permission_takes_model :
    textFor storageCatalogue [] [] "s3_models.pysa" storageModels = storageModels ∧
      textFor storageCatalogue [("s3", ["Put"])] [] "s3_models.pysa" storageModels = "def m.C.put(a): ...\n" := by
  decide +kernel

theorem second_permission_adds_model :
    copiesLine storageCatalogue [("s3", ["Put"])] [] "s3" "def m.C.put(a): ...\n".toList = true ∧
      copiesLine storageCatalogue [("s3", ["Put", "Scan"])] [] "s3" "def m.C.put(a): ...\n".toList = true := by
  have hgranted : ∀ service p, Keyed.Holds [("s3", ["Put"])] service p →
      Keyed.Holds [("s3", ["Put", "Scan"])] service p := by
    intro service p h
    by_cases hservice : "s3" = service
    · subst hservice
      exact List.mem_append_left ["Scan"] h
    · simp [Keyed.Holds, Keyed.find?, hservice] at h
  have hfirst : copiesLine storageCatalogue [("s3", ["Put"])] [] "s3" "def m.C.put(a): ...\n".toList := by
    decide +kernel
  have hextra : ∀ service p, Keyed.Holds ([] : ServicePermissions) service p → Keyed.Holds [] service p := fun _ _ h => h
  have hkept := ((copied_lines hgranted hextra storageCatalogue "s3_models.pysa" storageModels).2.1.2
    (.inl (by decide))) "def m.C.put(a): ...\n".toList
  exact ⟨hfirst, hkept (by decide +kernel) hfirst⟩

end ServerlessTaint.SuppliedModel
