import SymbolicTypes.Proofs.Query.Composes
import SymbolicTypes.Proofs.Resolution.Reference
import SymbolicTypes.Proofs.SymType.Parts

namespace SymbolicTypes

open Query

namespace Codebase

/-- Where `static` is the context, a type may come to a declared type in which `static` is the
host. -/
inductive Consults (b : Codebase) (settings : ResolverSettings) (context : String) :
    SymType → String → TypeUnion → Prop
  | reference {t u} (hu : b.target? settings t = some u) :
      Consults b settings context t (t.base context) u
  | methodOf {t method host m} (hm : b.findMethod? host method = some m) :
      Consults b settings context (.methodOf t method) host m.member.returnType
  | propertyOf {t property host p} (hp : b.findProperty? host property = some p) :
      Consults b settings context (.propertyOf t property) context p.member.type
  | getterOf {t property host m} (hm : b.magicGetter? settings host = some m) :
      Consults b settings context (.propertyOf t property) context m.member.returnType
  | staticMethodOf {host method m} (hm : b.findMethod? host method = some m) :
      Consults b settings context (.staticMethodOf host method) host m.member.returnType

variable {b : Codebase} {settings : ResolverSettings} {context host : String} {t : SymType}
  {u : TypeUnion}

theorem Consults.declared {V M : TypeUnion → Prop} (hb : b.Declares V M)
    (h : b.Consults settings context t host u) : V u ∨ M u := by
  cases h with
  | reference hu => exact .inl (hb.of_target? hu)
  | methodOf hm | staticMethodOf hm => exact .inr (hb.of_findMethod? hm)
  | propertyOf hp => exact .inl (hb.of_findProperty? hp)
  | getterOf hm => exact .inr (hb.of_magicGetter? hm)

theorem Consults.context_eq_or (h : b.Consults settings context t host u) :
    host = context ∨ b.IsContext host := by
  cases h with
  | reference => exact t.base_eq_or b context
  | methodOf hm | staticMethodOf hm => exact .inr (isContext_of_findMethod? hm)
  | propertyOf | getterOf => exact .inl rfl

end Codebase

namespace Resolver

variable {d : String → TypeUnion → Query Guard TypeNames}

/-- What the expansion of a type does once it has begun. -/
def unguarded (r : Resolver) (d : String → TypeUnion → Query Guard TypeNames) (context : String) :
    SymType → Query Guard TypeNames
  | .named n => return SortedSet.ofList [n]
  | .arrayOf e => do return (← r.expand d context e).wrapArray context
  | .elementOf e => do return (← r.expand d context e).unwrapArray
  | .methodOf e m => do
    let hosts ← r.expand d context e
    gather (r.callOn d m) hosts.toList
  | .propertyOf e p => do
    let hosts ← r.expand d context e
    r.fetch (d context) p hosts.toList ∅
  | .staticMethodOf c m => r.callOn d m c
  | t => r.target t >>= follow (d (t.base context))

theorem expand_eq_once (r : Resolver) (context : String) {t : SymType} (ht : t.isNamed = false) :
    r.expand d context t = once context t (r.unguarded d context t) := by
  cases t with
  | named => cases ht
  | arrayOf | elementOf | methodOf | propertyOf | staticMethodOf => rfl
  | global | constant | callOf | staticPropertyOf | interfaceParam =>
    exact expand_reference r d context rfl

theorem gather_composes {σ α : Type} {A : ∀ {α : Type}, Query σ α → Query σ α → Prop}
    (h : Composes A) {f f' : α → Query σ TypeNames} {l : List α}
    (hf : ∀ a ∈ l, A (f a) (f' a)) : A (gather f l) (gather f' l) := by
  induction l with
  | nil => exact h.pure ∅
  | cons a l ih =>
    apply h.bind (hf a List.mem_cons_self)
    intro names
    apply h.bind (ih fun x hx => hf x (List.mem_cons_of_mem a hx))
    intro names'
    exact h.pure (names ∪ names')

end Resolver

end SymbolicTypes
