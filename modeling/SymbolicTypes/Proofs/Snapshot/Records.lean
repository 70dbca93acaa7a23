import SymbolicTypes.Proofs.Codebase.Retype
import SymbolicTypes.Proofs.Snapshot.Reading

namespace SymbolicTypes

/-- What is read when the text of a type is read; the type itself where nothing is. -/
def SymType.reread (t : SymType) : SymType :=
  match SymType.ofText t.text with
  | .ok s => s
  | .error _ => t

namespace TypeUnion

def IsReadable (u : TypeUnion) : Prop := ∀ t ∈ u, ∃ s, SymType.ofText t.text = .ok s

def reread (u : TypeUnion) : TypeUnion := ofList (u.toList.map SymType.reread)

end TypeUnion

namespace Snapshot

open SymType (bind_eq_ok_iff)

theorem recovers_type : Recovers readType (fun t => Json.ofString t.text)
    (fun t : SymType => ∃ s, SymType.ofText t.text = .ok s) SymType.reread := by
  intro t b
  have hread : readType (Json.ofString t.text) = .ok b ↔ SymType.ofText t.text = .ok b := by
    simp only [readType, Json.ofString, readString, bind, Except.bind]
    cases SymType.ofText t.text <;> simp
  rw [hread, SymType.reread]
  cases h : SymType.ofText t.text with
  | error e => simp [h]
  | ok s => simp [h, eq_comm]

theorem recovers_union :
    Recovers readUnion TypeUnion.toJson TypeUnion.IsReadable TypeUnion.reread := by
  intro u b
  have hlist := recovers_type.list u.toList
  rw [readUnion, bind_eq_ok_iff]
  constructor
  · rintro ⟨l, hl, ⟨⟩⟩
    obtain ⟨hu, rfl⟩ := (hlist l).mp hl
    exact ⟨hu, rfl⟩
  · rintro ⟨hu, rfl⟩
    exact ⟨_, (hlist _).mpr ⟨hu, rfl⟩, rfl⟩

theorem recovers_typedName (label : String) :
    Recovers (typedNameSchema label).read TypedName.toJson (fun n => n.type.IsReadable)
      (TypedName.retype TypeUnion.reread) := by
  intro n b
  have hnodup : ["name", "type"].Nodup := by decide
  have hfields := read_ofFields (typedNameSchema label) hnodup
    [Json.ofString n.name, n.type.toJson] rfl
  refine (iff_of_eq (congrArg (· = _) hfields)).trans ?_
  simp only [typedNameSchema, readEach_nameField, readEach_field recovers_union]
  simp only [readEach, TypedName.retype, Except.ok.injEq, eq_comm (b := b)]

theorem recovers_function :
    Recovers functionSchema.read FunctionDecl.toJson (fun d => ∀ u ∈ d.unions, u.IsReadable)
      (FunctionDecl.retype TypeUnion.reread) := by
  intro d b
  have hnodup : ["name", "parameters", "return_type"].Nodup := by decide
  have hfields := read_ofFields functionSchema hnodup
    [Json.ofString d.name, Json.ofList (d.parameters.map TypedName.toJson),
      d.returnType.toJson] rfl
  refine (iff_of_eq (congrArg (· = _) hfields)).trans ?_
  simp only [functionSchema, readEach_nameField,
    readEach_field (recovers_typedName "ParameterInfo").list, readEach_field recovers_union]
  simp only [readEach, FunctionDecl.retype, FunctionDecl.forall_unions, Except.ok.injEq,
    eq_comm (b := b), and_assoc]

theorem recovers_class :
    Recovers classSchema.read ClassDecl.toJson (fun c => ∀ u ∈ c.unions, u.IsReadable)
      (ClassDecl.retype TypeUnion.reread) := by
  intro c b
  have hnodup : ["name", "parent_class", "used_traits", "interfaces", "parent_interfaces",
    "methods", "properties", "constants"].Nodup := by decide
  have hfields := read_ofFields classSchema hnodup
    [Json.ofString c.name, (c.parent.map Json.ofString).getD .null,
      Json.ofList (c.traits.map Json.ofString), Json.ofList (c.interfaces.map Json.ofString),
      Json.ofList (c.parentInterfaces.map Json.ofString),
      Json.ofList (c.methods.map FunctionDecl.toJson),
      Json.ofList (c.properties.map TypedName.toJson),
      Json.ofList (c.constants.map TypedName.toJson)] rfl
  refine (iff_of_eq (congrArg (· = _) hfields)).trans ?_
  simp only [classSchema, readEach_nameField, readEach_field recovers_optional,
    readEach_field recovers_string.list, readEach_field recovers_function.list,
    readEach_field (recovers_typedName _).list]
  simp only [readEach, ClassDecl.retype, ClassDecl.forall_unions, Except.ok.injEq,
    eq_comm (b := b), and_assoc, id_eq, List.map_id, implies_true, true_and]

theorem recovers_snapshot :
    Recovers schema.read Snapshot.toJson (fun s => ∀ u ∈ s.unions, u.IsReadable)
      (Snapshot.retype TypeUnion.reread) := by
  intro s b
  have hnodup : ["classes", "traits", "functions", "global_vars", "constants",
    "indexing_complete"].Nodup := by decide
  have hfields := read_ofFields schema hnodup
    [Json.ofList (s.classes.map ClassDecl.toJson),
      Json.ofList (s.traits.map ClassDecl.toJson),
      Json.ofList (s.functions.map FunctionDecl.toJson),
      Json.ofFields (s.globals.entries.map fun e => (e.1, e.2.toJson)),
      Json.ofList (s.constants.map TypedName.toJson), .bool s.complete] rfl
  have hglobals := SortedMap.ofList_entries (s.globals.mapValues TypeUnion.reread)
  refine (iff_of_eq (congrArg (· = _) hfields)).trans ?_
  simp only [schema, readEach_field recovers_class.list, readEach_field recovers_function.list,
    readEach_field recovers_union.members, readEach_field (recovers_typedName _).list,
    readEach_field recovers_bool]
  simp only [SortedMap.mapValues] at hglobals
  simp only [readEach, retype, forall_unions, SortedMap.values, SortedMap.mapValues, hglobals,
    List.forall_mem_map, Except.ok.injEq, eq_comm (b := b), and_assoc, id_eq, true_and]

end Snapshot

end SymbolicTypes
