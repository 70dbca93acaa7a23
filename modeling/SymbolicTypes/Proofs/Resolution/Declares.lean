import SymbolicTypes.Proofs.Resolution.Lookup

namespace SymbolicTypes

/-- What the methods of a codebase return has one property, every other type that an expansion can
come to has another. -/
structure Codebase.Declares (b : Codebase) (value return_ : TypeUnion → Prop) : Prop where
  global : ∀ u ∈ b.globals.values, value u
  constant : ∀ c ∈ b.constants.values, value c.type
  function : ∀ f ∈ b.functions.values, value f.returnType
  property : ∀ c ∈ b.classLikes, ∀ p ∈ c.properties, value p.type
  parameter : ∀ c ∈ b.classLikes, ∀ m ∈ c.methods, ∀ p ∈ m.parameters, value p.type
  method : ∀ c ∈ b.classLikes, ∀ m ∈ c.methods, return_ m.returnType

instance (b : Codebase) (V M : TypeUnion → Prop) [DecidablePred V] [DecidablePred M] :
    Decidable (b.Declares V M) :=
  decidable_of_iff
    ((∀ u ∈ b.globals.values, V u) ∧ (∀ c ∈ b.constants.values, V c.type) ∧
      (∀ f ∈ b.functions.values, V f.returnType) ∧
      (∀ c ∈ b.classLikes, ∀ p ∈ c.properties, V p.type) ∧
      (∀ c ∈ b.classLikes, ∀ m ∈ c.methods, ∀ p ∈ m.parameters, V p.type) ∧
      ∀ c ∈ b.classLikes, ∀ m ∈ c.methods, M m.returnType)
    ⟨fun ⟨g, c, f, p, a, m⟩ => ⟨g, c, f, p, a, m⟩,
      fun h => ⟨h.global, h.constant, h.function, h.property, h.parameter, h.method⟩⟩

namespace Codebase.Declares

variable {b : Codebase} {V M : TypeUnion → Prop} {settings : ResolverSettings}

theorem mono {M' : TypeUnion → Prop} (h : b.Declares V M) (hM : ∀ u, M u → M' u) :
    b.Declares V M' :=
  { h with method := fun c hc m hm => hM _ (h.method c hc m hm) }

theorem of_function? (h : b.Declares V M) {name : String} {f : FunctionDecl}
    (hf : b.function? name = some f) : V f.returnType :=
  h.function f (SortedMap.mem_values hf)

theorem of_callee? (h : b.Declares V M) {name : String} {f : FunctionDecl}
    (hf : b.callee? settings name = some f) : V f.returnType := by
  obtain hf | ⟨-, hf⟩ := Option.or_eq_some_iff.mp hf
  · exact h.of_function? hf
  · split at hf
    · obtain ⟨root, -, hf⟩ := Option.bind_eq_some_iff.mp hf
      exact h.of_function? hf
    · cases hf

theorem of_parameterType? (h : b.Declares V M) {index : UInt64} {host method : String}
    {u : TypeUnion} (hu : b.parameterType? index host method = some u) : V u := by
  obtain ⟨c, -, hu⟩ := Option.bind_eq_some_iff.mp hu
  obtain ⟨i, -, hu⟩ := List.exists_of_findSome?_eq_some hu
  obtain ⟨d, hd, hu⟩ := Option.bind_eq_some_iff.mp hu
  obtain ⟨m, hm, hu⟩ := Option.bind_eq_some_iff.mp hu
  obtain ⟨p, hp, rfl⟩ := Option.map_eq_some_iff.mp hu
  exact h.parameter d (mem_classLikes_of_class? hd) m (List.mem_of_find?_eq_some hm) p
    (List.mem_of_getElem? hp)

theorem of_findMethod? (h : b.Declares V M) {host name : String} {m : Located FunctionDecl}
    (hm : b.findMethod? host name = some m) : M m.member.returnType := by
  obtain ⟨c, hc, hown⟩ := SearchPlan.own_of_found? hm
  exact h.method c hc m.member (List.mem_of_find?_eq_some hown)

theorem of_findProperty? (h : b.Declares V M) {host name : String} {p : Located TypedName}
    (hp : b.findProperty? host name = some p) : V p.member.type := by
  obtain ⟨c, hc, hown⟩ := SearchPlan.own_of_found? hp
  exact h.property c hc p.member (List.mem_of_find?_eq_some hown)

theorem of_magicGetter? (h : b.Declares V M) {host : String} {m : Located FunctionDecl}
    (hm : b.magicGetter? settings host = some m) : M m.member.returnType := by
  unfold magicGetter? at hm
  split at hm
  · cases hm
  · exact h.of_findMethod? hm

end Codebase.Declares

end SymbolicTypes
