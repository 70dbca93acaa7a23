import SymbolicTypes.Proofs.Resolution.Alike

namespace SymbolicTypes

open Query

/-- Pairs of a type and of what `static` is in it that hold along with everything that the expansion
of the type leads to, and two runs that stay in step behind the guard at each of them. -/
structure InStep (b : Codebase) (settings : ResolverSettings) (within : String → SymType → Prop)
    (R : Guard → Guard → Prop) : Prop where
  inner : ∀ context t, within context t → ∀ e ∈ t.inner?, within context e
  consults : ∀ context t host u, within context t → b.Consults settings context t host u →
    ∀ e ∈ u, within host e
  guarded : ∀ d context t, within context t → t.isNamed = false →
    Query.Alike R ((b.resolver settings).unguarded d context t)
      ((b.resolver settings).unguarded d context t) →
    Query.Alike R ((b.resolver settings).expand d context t)
      ((b.resolver settings).expand d context t)

namespace InStep

variable {b : Codebase} {settings : ResolverSettings} {within : String → SymType → Prop}
  {R : Guard → Guard → Prop} {context : String}

theorem expand (h : InStep b settings within R) {d : String → TypeUnion → Query Guard TypeNames}
    (hd : ∀ host u, (∀ e ∈ u, within host e) → Alike R (d host u) (d host u)) {t : SymType}
    (ht : within context t) :
    Alike R ((b.resolver settings).expand d context t)
      ((b.resolver settings).expand d context t) := by
  induction t using SymType.inner_induction with
  | h t ih =>
    by_cases hn : t.isNamed = true
    · obtain ⟨n, rfl⟩ := SymType.exists_eq_named hn
      exact alike_pure _
    · apply h.guarded d context t ht (Bool.eq_false_iff.mpr hn)
      apply Resolver.unguarded_alike
      · exact fun e he => ih e he (h.inner context t ht e he)
      · exact fun host u hu => hd host u (h.consults context t host u ht hu)

theorem expandUnion (h : InStep b settings within R) (depth : Nat) {u : TypeUnion}
    (hu : ∀ t ∈ u, within context t) :
    Alike R ((b.resolver settings).expandUnion depth context u)
      ((b.resolver settings).expandUnion depth context u) := by
  induction depth generalizing context u with
  | zero => exact alike_pure ∅
  | succ depth ih =>
    apply Resolver.settled_gather_alike
    intro t ht
    exact h.expand (fun _ _ hv => ih hv) (hu t ht)

end InStep

end SymbolicTypes
