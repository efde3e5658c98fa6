import ServerlessTaint.Client.Calls
import ServerlessTaint.Proofs.Keyed
import ServerlessTaint.Proofs.KeptAssignments

/-!
# Which calls are found

The calls on a client object and on the objects that it makes are looked for in one walk over a program, and the
names of these objects are learnt on the way. So a call on such an object is found if and only if some assignment
that makes it comes before the call in the walk (`mem_calls_iff`): it is less deep in the program, or at the same
depth and further left. The calls that are found are those on the client and on the objects it makes, wherever
these are made, exactly if no assignment comes too late and no call or assignment of another form looks like one
on the client (`found_exactly_iff`).
-/

namespace ServerlessTaint.ClientCalls

open List
open Syntax (Ast)
open Syntax.Ast (Earlier)

/-! ## What one node adds -/

/-- A statement makes an object of a client, as the walk sees it: the client is what the value of the assignment
is called on, and the name is one of those that the targets start with. -/
def Makes (client : String) (statement : Ast) (name : String) : Prop :=
  ∃ span targets value, statement = .node .assign span [.list targets, value] ∧
    receiver? value = some client ∧ name ∈ plainNames targets

variable {client name : String} {found : ClientCalls} {node call : Ast} {nodes : List Ast}

theorem mem_objects_add : name ∈ (add client found node).objects ↔ name ∈ found.objects ∨ Makes client node name := by
  unfold add
  split
  · have hnone : ∀ span children, ¬Makes client (.node .call span children) name := by
      rintro span children ⟨_, _, _, heq, -⟩
      cases heq
    rw [or_iff_left (hnone _ _)]
    split
    · rfl
    · split
      · rfl
      · split <;> rfl
  · rename_i span targets value
    have hmakes : Makes client (.node .assign span [.list targets, value]) name ↔
        receiver? value = some client ∧ name ∈ plainNames targets := by
      constructor
      · rintro ⟨_, _, _, heq, hmade⟩
        cases heq
        exact hmade
      · exact fun hmade => ⟨span, targets, value, rfl, hmade⟩
    rw [hmakes]
    split
    · rename_i hvalue
      simp only [hvalue, true_and]
      split <;> exact mem_addAllNew
    · rename_i hvalue
      simp only [hvalue, false_and, or_false]
  · refine (or_iff_left ?_).symm
    rintro ⟨_, _, _, heq, -⟩
    cases heq
  · rename_i hassign _
    refine (or_iff_left ?_).symm
    rintro ⟨_, _, _, rfl, -⟩
    exact hassign _ _ _ rfl

/-- Only a call adds a call, and only itself. -/
theorem mem_calls_add_iff : call ∈ (add client found node).calls ↔
    call ∈ found.calls ∨ call = node ∧ ∃ object, receiver? node = some object ∧
      (object = client ∨ object ∈ found.objects) := by
  by_cases hcall : ∃ span children, node = .node .call span children
  · obtain ⟨span, children, rfl⟩ := hcall
    rw [add]
    cases hreceiver : receiver? (.node .call span children) with
    | none => simp
    | some object =>
      by_cases hobject : object ∈ found.objects
      · simp [hobject, mem_addNew]
      · by_cases hclient : object = client
        · subst hclient
          simp [hobject, mem_addNew]
        · simp [hobject, hclient]
  · have hreceiver : receiver? node = none := by
      unfold receiver?
      split
      · exact absurd ⟨_, _, rfl⟩ hcall
      · rfl
    have hkept : (add client found node).calls = found.calls := by
      unfold add
      split
      · exact absurd ⟨_, _, rfl⟩ hcall
      · split
        · dsimp only
          split <;> rfl
        · rfl
      · rfl
      · rfl
    simp [hreceiver, hkept]

/-! ## What a walk finds -/

theorem pair_sublist_cons {α : Type} {a b x : α} {xs : List α} :
    [a, b].Sublist (x :: xs) ↔ [a, b].Sublist xs ∨ a = x ∧ b ∈ xs := by
  rw [sublist_cons_iff]
  constructor
  · rintro (h | ⟨rest, heq, h⟩)
    · exact .inl h
    · cases heq
      exact .inr ⟨rfl, singleton_sublist.1 h⟩
  · rintro (h | ⟨rfl, h⟩)
    · exact .inl h
    · exact .inr ⟨[b], rfl, singleton_sublist.2 h⟩

/-- A walk finds the calls on the client, and those on objects that were known before or that an earlier node
makes. -/
theorem mem_calls_foldl : call ∈ (nodes.foldl (add client) found).calls ↔
    call ∈ found.calls ∨ ∃ object, receiver? call = some object ∧
      (call ∈ nodes ∧ (object = client ∨ object ∈ found.objects) ∨
        ∃ s, [s, call].Sublist nodes ∧ Makes client s object) := by
  induction nodes generalizing found with
  | nil => simp
  | cons node nodes ih =>
    rw [foldl_cons, ih, mem_calls_add_iff]
    simp only [mem_objects_add, pair_sublist_cons, mem_cons]
    constructor
    · rintro ((hfound | ⟨rfl, object, hobject, hknown⟩) | ⟨object, hobject, ⟨hmem, hknown⟩ | ⟨s, hs, hmakes⟩⟩)
      · exact .inl hfound
      · exact .inr ⟨object, hobject, .inl ⟨.inl rfl, hknown⟩⟩
      · rcases hknown with hclient | hbefore | hmakes
        · exact .inr ⟨object, hobject, .inl ⟨.inr hmem, .inl hclient⟩⟩
        · exact .inr ⟨object, hobject, .inl ⟨.inr hmem, .inr hbefore⟩⟩
        · exact .inr ⟨object, hobject, .inr ⟨node, .inr ⟨rfl, hmem⟩, hmakes⟩⟩
      · exact .inr ⟨object, hobject, .inr ⟨s, .inl hs, hmakes⟩⟩
    · rintro (hfound | ⟨object, hobject, ⟨rfl | hmem, hknown⟩ | ⟨s, hs | ⟨rfl, hmem⟩, hmakes⟩⟩)
      · exact .inl (.inl hfound)
      · exact .inl (.inr ⟨rfl, object, hobject, hknown⟩)
      · exact .inr ⟨object, hobject, .inl ⟨hmem, hknown.imp_right .inl⟩⟩
      · exact .inr ⟨object, hobject, .inr ⟨s, hs, hmakes⟩⟩
      · exact .inr ⟨object, hobject, .inl ⟨hmem, .inr (.inr hmakes)⟩⟩

def MadeBefore (client : String) (program : Ast) (object : String) (call : Ast) : Prop :=
  ∃ s place place', program.nodeAt? place = some s ∧ Makes client s object ∧
    program.nodeAt? place' = some call ∧ Earlier place place'

/-- **Which calls are found.** -/
theorem mem_calls_iff {program : Ast} : call ∈ (ofProgram client program).calls ↔
    call ∈ program.walk ∧ ∃ object, receiver? call = some object ∧
      (object = client ∨ MadeBefore client program object call) := by
  rw [ofProgram, mem_calls_foldl]
  simp only [not_mem_nil, or_false, false_or, Ast.sublist_walk_iff]
  constructor
  · rintro ⟨object, hobject, ⟨hmem, hclient⟩ | ⟨s, ⟨place, place', hs, hcall, hearlier⟩, hmakes⟩⟩
    · exact ⟨hmem, object, hobject, .inl hclient⟩
    · exact ⟨Ast.mem_walk_iff_nodeAt?.2 ⟨place', hcall⟩, object, hobject,
        .inr ⟨s, place, place', hs, hmakes, hcall, hearlier⟩⟩
  · rintro ⟨hmem, object, hobject, hclient | ⟨s, place, place', hs, hmakes, hcall, hearlier⟩⟩
    · exact ⟨object, hobject, .inl ⟨hmem, hclient⟩⟩
    · exact ⟨object, hobject, .inr ⟨s, ⟨place, place', hs, hcall, hearlier⟩, hmakes⟩⟩

/-! ## Calls on a client and its objects -/

def MakesPlainly (client : String) (statement : Ast) (name : String) : Prop :=
  ∃ span place value method, statement = .node .assign span [.list [.node .name place [.name name]], value] ∧
    value.method? = some (client, method)

def IsMade (client : String) (program : Ast) (name : String) : Prop :=
  ∃ s ∈ program.walk, MakesPlainly client s name

/-- A call `object.method(...)` of a program, on a client or an object that it makes. -/
def IsCallOn (client : String) (program call : Ast) : Prop :=
  call ∈ program.walk ∧ ∃ object method, call.method? = some (object, method) ∧
    (object = client ∨ IsMade client program object)

theorem receiver?_of_method? {object method : String} (h : call.method? = some (object, method)) :
    receiver? call = some object := by
  unfold Ast.method? at h
  split at h
  · cases h
    rfl
  · cases h

/-- **When the calls that are found are those on the client and its objects.** No call may come before all
assignments that make its object, and what looks like a call on the client or on an object made before has to be
the call of a method, on the client or on an object that is made by a plain assignment. -/
theorem found_exactly_iff (client : String) (program : Ast) :
    (∀ call, call ∈ (ofProgram client program).calls ↔ IsCallOn client program call) ↔
      (∀ call ∈ program.walk, ∀ object method, call.method? = some (object, method) → object ≠ client →
        IsMade client program object → MadeBefore client program object call) ∧
      ∀ call ∈ program.walk, ∀ object, receiver? call = some object →
        object = client ∨ MadeBefore client program object call →
          (∃ method, call.method? = some (object, method)) ∧ (object = client ∨ IsMade client program object) := by
  constructor
  · intro hexact
    constructor
    · intro call hcall object method hmethod hne hmade
      obtain ⟨-, object', hobject', hknown⟩ :=
        mem_calls_iff.1 ((hexact call).2 ⟨hcall, object, method, hmethod, .inr hmade⟩)
      cases (receiver?_of_method? hmethod).symm.trans hobject'
      exact hknown.resolve_left hne
    · intro call hcall object hobject hknown
      obtain ⟨-, object', method, hmethod, hon⟩ := (hexact call).1 (mem_calls_iff.2 ⟨hcall, object, hobject, hknown⟩)
      cases (receiver?_of_method? hmethod).symm.trans hobject
      exact ⟨⟨method, hmethod⟩, hon⟩
  · rintro ⟨hbefore, hplain⟩ call
    rw [mem_calls_iff]
    constructor
    · rintro ⟨hcall, object, hobject, hknown⟩
      obtain ⟨⟨method, hmethod⟩, hon⟩ := hplain call hcall object hobject hknown
      exact ⟨hcall, object, method, hmethod, hon⟩
    · rintro ⟨hcall, object, method, hmethod, hon⟩
      refine ⟨hcall, object, receiver?_of_method? hmethod, ?_⟩
      by_cases hclient : object = client
      · exact .inl hclient
      · exact .inr (hbefore call hcall object method hmethod hclient (hon.resolve_left hclient))

def methodCall (object method : String) : Ast :=
  .node .call none [.node .attributeRef none [.node .name none [.name object], .name method], .list [], .list []]

def bucketAssignment : Ast := .node .assign none [.list [.node .name none [.name "b"]], methodCall "s3" "Bucket"]

/-- A program that makes a bucket in a block and calls it at once or after the block. -/
def bucketProgram (block : Ast → Ast) : Ast :=
  .node .module none [.list [block bucketAssignment, .node .exprStmt none [methodCall "b" "upload_file"]]]

def underCondition (statement : Ast) : Ast :=
  .node .ifStmt none [.node .name none [.name "ready"], .list [statement], .list []]

/-- A call after one condition is found, since the assignment in it is as deep as the call and further left; after
two conditions the assignment is too deep. -/
theorem deeper_assignment_comes_late :
    (∀ call, call ∈ (ofProgram "s3" (bucketProgram underCondition)).calls ↔
      IsCallOn "s3" (bucketProgram underCondition) call) ∧
    ¬∀ call, call ∈ (ofProgram "s3" (bucketProgram (underCondition ∘ underCondition))).calls ↔
      IsCallOn "s3" (bucketProgram (underCondition ∘ underCondition)) call := by
  have hplainly : MakesPlainly "s3" bucketAssignment "b" := ⟨none, none, _, "Bucket", rfl, rfl⟩
  have hmakes : Makes "s3" bucketAssignment "b" := ⟨none, _, _, rfl, rfl, List.mem_cons_self⟩
  constructor
  · have hmade : IsMade "s3" (bucketProgram underCondition) "b" :=
      ⟨bucketAssignment, Ast.mem_walk_iff_nodeAt?.2 ⟨[0, 1], rfl⟩, hplainly⟩
    have hbefore : MadeBefore "s3" (bucketProgram underCondition) "b" (methodCall "b" "upload_file") :=
      ⟨bucketAssignment, [0, 1], [1, 0], rfl, hmakes, rfl, .of_lex rfl (.rel (by decide))⟩
    have hcalls : ∀ call ∈ (bucketProgram underCondition).walk, receiver? call = none ∨
        call = methodCall "s3" "Bucket" ∨ call = methodCall "b" "upload_file" := by decide +kernel
    rw [found_exactly_iff]
    constructor
    · intro call hcall object method hmethod hne _
      rcases hcalls call hcall with hnone | rfl | rfl
      · cases hnone.symm.trans (receiver?_of_method? hmethod)
      · cases hmethod
        exact absurd rfl hne
      · cases hmethod
        exact hbefore
    · intro call hcall object hobject _
      rcases hcalls call hcall with hnone | rfl | rfl
      · cases hnone.symm.trans hobject
      · cases hobject
        exact ⟨⟨"Bucket", rfl⟩, .inl rfl⟩
      · cases hobject
        exact ⟨⟨"upload_file", rfl⟩, .inr hmade⟩
  · intro hexact
    have hcall : IsCallOn "s3" (bucketProgram (underCondition ∘ underCondition)) (methodCall "b" "upload_file") :=
      ⟨Ast.mem_walk_iff_nodeAt?.2 ⟨[1, 0], rfl⟩, "b", "upload_file", rfl,
        .inr ⟨bucketAssignment, Ast.mem_walk_iff_nodeAt?.2 ⟨[0, 1, 1], rfl⟩, hplainly⟩⟩
    have hmissed : methodCall "b" "upload_file" ∉
        (ofProgram "s3" (bucketProgram (underCondition ∘ underCondition))).calls := by decide +kernel
    exact hmissed ((hexact _).2 hcall)

end ServerlessTaint.ClientCalls
