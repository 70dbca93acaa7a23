import SymbolicTypes.Proofs.Resolution.Guard
import SymbolicTypes.Proofs.Resolution.Unfolding

namespace SymbolicTypes

open Query

variable {P : String × SymType → Prop}

namespace Resolver

variable {σ α : Type} {context : String} {t : SymType}

theorem settled_gather_alike {R : Guard → Guard → Prop} {f f' : SymType → Query Guard TypeNames}
    {u : TypeUnion} (h : ∀ t ∈ u, Alike R (f t) (f' t)) :
    Alike R
      (do return (← gather (fun t => Query.asMember t (f t)) u.toList).settleEmptyArray)
      (do return (← gather (fun t => Query.asMember t (f' t)) u.toList).settleEmptyArray) := by
  have hmembers : Alike R (gather (fun t => Query.asMember t (f t)) u.toList)
      (gather (fun t => Query.asMember t (f' t)) u.toList) := by
    apply gather_composes composes_alike
    intro t ht
    exact (h t ht).asMember t
  apply hmembers.bind
  intro names
  exact alike_pure _

section

variable {b : Codebase} {V M : TypeUnion → Prop} {settings : ResolverSettings}
  {R : Guard → Guard → Prop} {d d' : String → TypeUnion → Query Guard TypeNames}

theorem callOn_alike {method host : String}
    (hd : ∀ m, b.findMethod? host method = some m →
      Alike R (d host m.member.returnType) (d' host m.member.returnType)) :
    Alike R ((b.resolver settings).callOn d method host)
      ((b.resolver settings).callOn d' method host) := by
  apply (Codebase.knows_findMethod? b host method).bind_alike
  rintro o rfl
  cases hm : b.findMethod? host method with
  | none => exact alike_pure ∅
  | some m =>
    apply (hd m hm).bind
    intro names
    exact alike_pure _

theorem fetch_alike {e e' : TypeUnion → Query Guard TypeNames} {property : String}
    (hp : ∀ host p, b.findProperty? host property = some p →
      Alike R (e p.member.type) (e' p.member.type))
    (hm : ∀ host m, b.magicGetter? settings host = some m →
      Alike R (e m.member.returnType) (e' m.member.returnType))
    (hosts : List String) (found : TypeNames) :
    Alike R ((b.resolver settings).fetch e property hosts found)
      ((b.resolver settings).fetch e' property hosts found) := by
  induction hosts generalizing found with
  | nil => exact alike_pure found
  | cons host hosts ih =>
    apply (Codebase.knows_findProperty? b host property).bind_alike
    rintro o rfl
    cases hfound : b.findProperty? host property with
    | some p =>
      apply (hp host p hfound).bind
      intro names
      exact ih _
    | none =>
      apply (Codebase.knows_magicGetter b settings host).bind_alike
      rintro o rfl
      cases hgetter : b.magicGetter? settings host with
      | some getter => exact hm host getter hgetter
      | none => exact ih found

theorem unguarded_alike
    (hinner : ∀ e ∈ t.inner?, Alike R ((b.resolver settings).expand d context e)
      ((b.resolver settings).expand d' context e))
    (hd : ∀ c u, b.Consults settings context t c u → Alike R (d c u) (d' c u)) :
    Alike R ((b.resolver settings).unguarded d context t)
      ((b.resolver settings).unguarded d' context t) := by
  cases t with
  | named n => exact alike_pure _
  | global | constant | callOf | staticPropertyOf | interfaceParam =>
    apply (Codebase.knows_target b settings _).bind_alike
    rintro o rfl
    cases hu : b.target? settings _ with
    | none => exact alike_pure ∅
    | some u => exact hd _ u (.reference hu)
  | arrayOf e | elementOf e =>
    apply (hinner e rfl).bind
    intro names
    exact alike_pure _
  | methodOf e m =>
    apply (hinner e rfl).bind
    intro hosts
    apply gather_composes composes_alike
    intro host _
    exact callOn_alike fun _ hm => hd host _ (.methodOf hm)
  | propertyOf e p =>
    apply (hinner e rfl).bind
    intro hosts
    exact fetch_alike (fun _ _ hp => hd context _ (.propertyOf hp))
      (fun _ _ hm => hd context _ (.getterOf hm)) _ ∅
  | staticMethodOf c m => exact callOn_alike fun _ hm => hd c _ (.staticMethodOf hm)

/-- Two expansions of one type run alike if those of the declarations do. The relation may change
with the number of expansions that are under way, one inside the other. -/
theorem expand_alike_of_once {R : Nat → Guard → Guard → Prop}
    (honce : ∀ i, ∀ x ∈ t.indirections, ∀ q q', Alike (R (i + 1)) q q' →
      Alike (R i) (once context x q) (once context x q'))
    (hd : ∀ i, ∀ x ∈ t.indirections, ∀ c u, b.Consults settings context x c u →
      Alike (R (i + 1)) (d c u) (d' c u)) (i : Nat) :
    Alike (R i) ((b.resolver settings).expand d context t)
      ((b.resolver settings).expand d' context t) := by
  induction t using SymType.inner_induction generalizing i with
  | h t ih =>
    by_cases hn : t.isNamed = true
    · obtain ⟨n, rfl⟩ := SymType.exists_eq_named hn
      exact alike_pure _
    · have hn : t.isNamed = false := Bool.eq_false_iff.mpr hn
      have hself := SymType.mem_indirections_self hn
      rw [expand_eq_once _ _ hn, expand_eq_once _ _ hn]
      apply honce i t hself
      apply unguarded_alike _ (hd i t hself)
      intro e he
      have hsub {x : SymType} (hx : x ∈ e.indirections) := SymType.mem_indirections_of_inner? he hx
      exact ih e he (fun j x hx => honce j x (hsub hx)) (fun j x hx => hd j x (hsub hx)) (i + 1)

theorem expand_alike (hb : b.Declares V M)
    (hv : t.isNamed = false → ∀ c u, V u → Alike (Guard.Agree P) (d c u) (d' c u))
    (hm : t.isNamed = false → ∀ c u, M u → Alike (Guard.Agree P) (d c u) (d' c u))
    (hp : ∀ x ∈ t.indirections, P (context, x)) :
    Alike (Guard.Agree P) ((b.resolver settings).expand d context t)
      ((b.resolver settings).expand d' context t) := by
  apply expand_alike_of_once (R := fun _ => Guard.Agree P)
    (fun _ x hx _ _ => once_alike (SymType.isNamed_of_mem_indirections hx) (hp x hx)) _ 0
  intro _ x hx c u hc
  have hn := SymType.isNamed_of_exists_mem_indirections hx
  exact (hc.declared hb).elim (hv hn c u) (hm hn c u)

end

end Resolver

end SymbolicTypes
