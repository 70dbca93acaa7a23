import SymbolicTypes.Proofs.Inheritance.Search
import SymbolicTypes.Resolution.Bound

namespace SymbolicTypes

open Query

namespace Codebase

variable {σ : Type} {b : Codebase} {settings : ResolverSettings}

def resolver (b : Codebase) (settings : ResolverSettings) : Resolver :=
  { index := b.index, settings }

/-- The function a call means: the one of that name or, where allowed, its namesake in the root
namespace. -/
def callee? (b : Codebase) (settings : ResolverSettings) (name : String) : Option FunctionDecl :=
  (b.function? name).or
    (if settings.rootFallback then (Naming.rootFallback name).bind b.function? else none)

def declaredParameter? (b : Codebase) (index : UInt64) (method interface : String) :
    Option TypeUnion :=
  (b.class? interface).bind fun c => (c.method? method).bind fun m =>
    (m.parameters[index.toNat]?).map TypedName.type

def parameterType? (b : Codebase) (index : UInt64) (host method : String) : Option TypeUnion :=
  (b.class? host).bind fun c => c.interfaces.findSome? (b.declaredParameter? index method)

def magicGetter? (b : Codebase) (settings : ResolverSettings) (host : String) :
    Option (Located FunctionDecl) :=
  if settings.magicGetter.isEmpty then none else b.findMethod? host settings.magicGetter

theorem knows_callee (b : Codebase) (settings : ResolverSettings) (name : String) :
    Knows (σ := σ) ((b.resolver settings).callee name) (· = b.callee? settings name) := by
  apply (knows_function? b name).bind
  rintro o rfl
  cases hf : b.function? name with
  | some f => exact knows_pure (by rw [callee?, hf, Option.some_or])
  | none =>
    rw [callee?, hf, Option.none_or]
    by_cases hs : settings.rootFallback = true
    · simp only [resolver, hs, if_true]
      cases Naming.rootFallback name with
      | some root => exact knows_function? b root
      | none => exact knows_pure rfl
    · simp only [resolver, hs]
      exact knows_pure rfl

theorem knows_parameterType (b : Codebase) (settings : ResolverSettings) (index : UInt64)
    (host method : String) :
    Knows (σ := σ) ((b.resolver settings).parameterType index host method)
      (· = b.parameterType? index host method) := by
  apply (knows_class? b host).bind
  rintro o rfl
  cases hc : b.class? host with
  | none => exact knows_pure (by rw [parameterType?, hc, Option.bind_none])
  | some c =>
    rw [parameterType?, hc, Option.bind_some]
    apply knows_firstSome
    intro i
    apply (knows_class? b i).bind
    rintro o rfl
    cases hd : b.class? i with
    | none => exact knows_pure (by rw [declaredParameter?, hd, Option.bind_none])
    | some d => exact knows_pure (by rw [declaredParameter?, hd, Option.bind_some])

theorem knows_magicGetter (b : Codebase) (settings : ResolverSettings) (host : String) :
    Knows (σ := σ) ((b.resolver settings).magicGetter host) (· = b.magicGetter? settings host) := by
  by_cases hs : settings.magicGetter.isEmpty = true
  · simp only [Resolver.magicGetter, magicGetter?, resolver, hs, if_true]
    exact knows_pure rfl
  · simp only [Resolver.magicGetter, magicGetter?, resolver, hs]
    exact knows_findMethod? b host _

theorem isContext_of_findMethod? {host name : String} {m : Located FunctionDecl}
    (h : b.findMethod? host name = some m) : b.IsContext host :=
  .inr (SearchPlan.mem_keys_of_found? h)

end Codebase

end SymbolicTypes
