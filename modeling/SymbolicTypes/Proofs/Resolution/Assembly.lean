import SymbolicTypes.Proofs.Inheritance.Assembly
import SymbolicTypes.Proofs.Resolution.Unfolding

namespace SymbolicTypes

open Query

namespace Resolver

/-- A relation that lookups and searches of two resolvers keep, and the ways expansions are put
together. -/
structure Carries (r r' : Resolver) (A : ∀ {α : Type}, Query Guard α → Query Guard α → Prop) :
    Prop extends SymbolicTypes.Carries r.index r'.index A where
  settings : r.settings = r'.settings
  run : ∀ {M : Type} (p : SearchPlan M) (host : String), A (p.run r.index host) (p.run r'.index host)
  once : ∀ (context : String) (t : SymType) {q q' : Query Guard TypeNames}, A q q' →
    A (once context t q) (once context t q')

variable {r r' : Resolver} {A : ∀ {α : Type}, Query Guard α → Query Guard α → Prop}
  {d d' : String → TypeUnion → Query Guard TypeNames}

namespace Carries

theorem callee (h : Carries r r' A) (name : String) : A (r.callee name) (r'.callee name) := by
  apply h.bind (h.function? name)
  intro o
  cases o with
  | some f => exact h.pure (some f)
  | none =>
    rw [h.settings]
    cases r'.settings.rootFallback with
    | false => exact h.pure none
    | true =>
      cases Naming.rootFallback name with
      | some root => exact h.function? root
      | none => exact h.pure none

theorem parameterType (h : Carries r r' A) (index : UInt64) (host method : String) :
    A (r.parameterType index host method) (r'.parameterType index host method) := by
  apply h.bind (h.class? host)
  intro o
  cases o with
  | none => exact h.pure none
  | some c =>
    refine h.firstSome (fun i => ?_) c.interfaces
    apply h.bind (h.class? i)
    intro o
    cases o with
    | none => exact h.pure none
    | some d => exact h.pure _

theorem target (h : Carries r r' A) (t : SymType) : A (r.target t) (r'.target t) := by
  cases t with
  | global n => exact h.global? n
  | constant n => exact h.bind (h.constant? n) fun _ => h.pure _
  | callOf n => exact h.bind (h.callee n) fun _ => h.pure _
  | staticPropertyOf c p => exact h.bind (h.run (SearchPlan.property p) c) fun _ => h.pure _
  | interfaceParam i c m => exact h.parameterType i c m
  | _ => exact h.pure none

theorem callOn (h : Carries r r' A) (hd : ∀ c u, A (d c u) (d' c u)) (method host : String) :
    A (r.callOn d method host) (r'.callOn d' method host) := by
  apply h.bind (h.run (SearchPlan.method method) host)
  intro o
  cases o with
  | none => exact h.pure ∅
  | some m => exact h.bind (hd host _) fun _ => h.pure _

theorem magicGetter (h : Carries r r' A) (host : String) :
    A (r.magicGetter host) (r'.magicGetter host) := by
  unfold Resolver.magicGetter
  rw [h.settings]
  split
  · exact h.pure none
  · exact h.run _ host

theorem fetch (h : Carries r r' A) {e e' : TypeUnion → Query Guard TypeNames}
    (he : ∀ u, A (e u) (e' u)) (property : String) (hosts : List String) (found : TypeNames) :
    A (r.fetch e property hosts found) (r'.fetch e' property hosts found) := by
  induction hosts generalizing found with
  | nil => exact h.pure found
  | cons host hosts ih =>
    apply h.bind (h.run (SearchPlan.property property) host)
    intro o
    cases o with
    | some p => exact h.bind (he _) fun _ => ih _
    | none =>
      apply h.bind (h.magicGetter host)
      intro o
      cases o with
      | some getter => exact he _
      | none => exact ih found

theorem unguarded (h : Carries r r' A) (hd : ∀ c u, A (d c u) (d' c u)) {context : String}
    {t : SymType} (hinner : ∀ e ∈ t.inner?, A (r.expand d context e) (r'.expand d' context e)) :
    A (r.unguarded d context t) (r'.unguarded d' context t) := by
  cases t with
  | named n => exact h.pure _
  | global | constant | callOf | staticPropertyOf | interfaceParam =>
    apply h.bind (h.target _)
    intro o
    cases o with
    | some u => exact hd _ u
    | none => exact h.pure ∅
  | arrayOf e | elementOf e => exact h.bind (hinner e rfl) fun _ => h.pure _
  | methodOf e m =>
    exact h.bind (hinner e rfl) fun hosts =>
      gather_composes h.toComposes fun host _ => h.callOn hd m host
  | propertyOf e p => exact h.bind (hinner e rfl) fun hosts => h.fetch (hd context) p hosts.toList ∅
  | staticMethodOf c m => exact h.callOn hd m c

theorem expand (h : Carries r r' A) (hd : ∀ c u, A (d c u) (d' c u)) (context : String)
    (t : SymType) : A (r.expand d context t) (r'.expand d' context t) := by
  induction t using SymType.inner_induction with
  | h t ih =>
    by_cases hn : t.isNamed = true
    · obtain ⟨n, rfl⟩ := SymType.exists_eq_named hn
      exact h.pure _
    · have hn : t.isNamed = false := Bool.eq_false_iff.mpr hn
      rw [expand_eq_once _ _ hn, expand_eq_once _ _ hn]
      exact h.once context t (h.unguarded hd ih)

theorem expandUnion (h : Carries r r' A)
    (hmember : ∀ (t : SymType) {q q' : Query Guard TypeNames}, A q q' →
      A (asMember t q) (asMember t q'))
    (depth : Nat) (context : String) (u : TypeUnion) :
    A (r.expandUnion depth context u) (r'.expandUnion depth context u) := by
  induction depth generalizing context u with
  | zero => exact h.pure ∅
  | succ depth ih =>
    refine h.bind (gather_composes h.toComposes fun t _ => hmember t ?_) fun _ => h.pure _
    exact h.expand ih context t

end Carries

end Resolver

end SymbolicTypes
