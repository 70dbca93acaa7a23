import SymbolicTypes.Proofs.Resolution.Declares

namespace SymbolicTypes

open Query

namespace SymType

/-- Named in full, so that nothing has to be expanded to find its declaration. -/
def isReference : SymType → Bool
  | global _ | constant _ | callOf _ | staticPropertyOf _ _ | interfaceParam _ _ _ => true
  | _ => false

theorem isNamed_of_isReference {t : SymType} (h : t.isReference = true) : t.isNamed = false := by
  cases t <;> first | rfl | cases h

/-- The class that `static` is in the declaration a reference leads to. -/
def base (context : String) : SymType → String
  | interfaceParam _ _ _ => ""
  | _ => context

theorem base_empty (t : SymType) : t.base "" = "" := by
  cases t <;> rfl

theorem base_eq_or_empty (context : String) (t : SymType) :
    t.base context = context ∨ t.base context = "" := by
  cases t with
  | interfaceParam => exact .inr rfl
  | _ => exact .inl rfl

theorem base_eq_or (b : Codebase) (context : String) (t : SymType) :
    t.base context = context ∨ b.IsContext (t.base context) :=
  (t.base_eq_or_empty context).imp_right .inl

end SymType

namespace Resolver

variable {σ : Type}

/-- The declared type that a reference leads to. -/
def target (r : Resolver) : SymType → Query σ (Option TypeUnion)
  | .global n => r.index.global? n
  | .constant n => do return (← r.index.constant? n).map TypedName.type
  | .callOf n => do return (← r.callee n).map FunctionDecl.returnType
  | .staticPropertyOf c p => do return (← r.index.findProperty c p).map fun f => f.member.type
  | .interfaceParam i c m => r.parameterType i c m
  | _ => return none

def follow (declared : TypeUnion → Query Guard TypeNames) :
    Option TypeUnion → Query Guard TypeNames
  | some u => declared u
  | none => return ∅

theorem expand_reference (r : Resolver) (d : String → TypeUnion → Query Guard TypeNames)
    (context : String) {t : SymType} (ht : t.isReference = true) :
    r.expand d context t = once context t (r.target t >>= follow (d (t.base context))) := by
  cases t with
  | global | interfaceParam =>
    simp only [expand, target]
    congr 2
  | constant | callOf | staticPropertyOf =>
    simp only [expand, target, bind_assoc, pure_bind]
    congr 2
    funext o
    cases o <;> rfl
  | _ => exact absurd ht (by simp [SymType.isReference])

theorem knows_map_option {α β : Type} {q : Query σ (Option α)} {o : Option α}
    (hq : q.Knows (· = o)) (f : α → β) : Knows (do return (← q).map f) (· = o.map f) := by
  apply hq.bind
  rintro o rfl
  exact knows_pure rfl

end Resolver

namespace Codebase

variable {σ : Type} {b : Codebase} {settings : ResolverSettings}

def target? (b : Codebase) (settings : ResolverSettings) : SymType → Option TypeUnion
  | .global n => b.global? n
  | .constant n => (b.constant? n).map TypedName.type
  | .callOf n => (b.callee? settings n).map FunctionDecl.returnType
  | .staticPropertyOf c p => (b.findProperty? c p).map fun f => f.member.type
  | .interfaceParam i c m => b.parameterType? i c m
  | _ => none

theorem knows_target (b : Codebase) (settings : ResolverSettings) (t : SymType) :
    Knows (σ := σ) ((b.resolver settings).target t) (· = b.target? settings t) := by
  cases t with
  | global n => exact knows_global? b n
  | constant n => exact Resolver.knows_map_option (knows_constant? b n) _
  | callOf n => exact Resolver.knows_map_option (knows_callee b settings n) _
  | staticPropertyOf c p => exact Resolver.knows_map_option (knows_findProperty? b c p) _
  | interfaceParam i c m => exact knows_parameterType b settings i c m
  | _ => exact knows_pure rfl

theorem isReference_of_target? {t : SymType} {u : TypeUnion}
    (h : b.target? settings t = some u) : t.isReference = true := by
  cases t <;> first | rfl | cases h

theorem Declares.of_target? {V M : TypeUnion → Prop} (hb : b.Declares V M) {t : SymType}
    {u : TypeUnion} (h : b.target? settings t = some u) : V u := by
  cases t with
  | global n => exact hb.global u (SortedMap.mem_values h)
  | constant n =>
    obtain ⟨c, hc, rfl⟩ := Option.map_eq_some_iff.mp h
    exact hb.constant c (SortedMap.mem_values hc)
  | callOf n =>
    obtain ⟨f, hf, rfl⟩ := Option.map_eq_some_iff.mp h
    exact hb.of_callee? hf
  | staticPropertyOf c p =>
    obtain ⟨f, hf, rfl⟩ := Option.map_eq_some_iff.mp h
    exact hb.of_findProperty? hf
  | interfaceParam i c m => exact hb.of_parameterType? h
  | _ => cases h

end Codebase

end SymbolicTypes
