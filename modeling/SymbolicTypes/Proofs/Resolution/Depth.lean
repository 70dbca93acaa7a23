import SymbolicTypes.Proofs.Resolution.Termination

namespace SymbolicTypes

open Query

namespace Guard

variable {b : Codebase} {query query' : List SymType} {g : Guard}

theorem card_unbegun_le_of_subset (h : ∀ x ∈ query, x ∈ query' ∨ x ∈ b.indirections) :
    (g.unbegun b query).card ≤ (g.unbegun b query').card := by
  refine Finset.card_le_card (Finset.sdiff_subset_sdiff ?_ subset_rfl)
  refine Finset.product_subset_product_right fun x hx => ?_
  rw [List.mem_toFinset, List.mem_append] at hx ⊢
  exact hx.elim (h x) .inr

end Guard

namespace Resolver

variable {b : Codebase} {query : List SymType} {g : Guard} {t : SymType} {depth : Nat}

/-- In the course of an expansion a type comes to what it comes to on its own, as long as there are
no more pairs left to begin than declarations that may be followed. -/
theorem exists_returns_resolve (settings : ResolverSettings)
    (ht : ∀ x ∈ t.indirections, x ∈ query ∨ x ∈ b.indirections)
    (hdepth : (g.unbegun b query).card ≤ depth) :
    ∃ names w,
      ((b.resolver settings).expand ((b.resolver settings).expandUnion depth) "" t).Returns
        g names w ∧
      ((b.resolver settings).resolve t).Returns g names w := by
  have hcard := (Guard.card_unbegun_le_of_subset ht).trans hdepth
  have hbound := Guard.card_unbegun_lt_bound b settings t.indirections g
  have halike : Alike (Guard.Remains b t.indirections g ((g.unbegun b t.indirections).card + 1))
      ((b.resolver settings).expand ((b.resolver settings).expandUnion depth) "" t)
      ((b.resolver settings).resolve t) := by
    apply expand_alike_of_remains b.isContext_empty fun x hx => .inl hx
    intro j hj c u hc hu
    rw [expandUnion_eq_iterate, expandUnion_eq_iterate]
    apply iterate_expandMembers_alike _ _ (by omega) (by omega) hc
    exact fun e he x hx => .inr (Codebase.mem_indirections_of_mem_unions hu he hx)
  obtain ⟨names, w, w', hrun, hown, hw⟩ := halike g g ⟨rfl, .refl g, Nat.lt_succ_self _⟩
  obtain rfl := hw.same
  exact ⟨names, w, hrun, hown⟩

/-- An indirection that only changes the names of the type inside it changes what that comes to on its
own, once the indirection has begun. -/
theorem exists_returns_resolve_of_inner (b : Codebase) (settings : ResolverSettings)
    {e : SymType} (he : e ∈ t.inner?) {change : TypeNames → TypeNames}
    (hbody : ∀ d, (b.resolver settings).unguarded d "" t =
      do return change (← (b.resolver settings).expand d "" e))
    (hg : ¬ ("", t) ∈ g) :
    ∃ names w, ((b.resolver settings).resolve e).Returns (g.insert "" t) names w ∧
      ((b.resolver settings).resolve t).Returns g (change names) w := by
  have hn : t.isNamed = false := by
    cases t with
    | named => cases he
    | _ => rfl
  have hcard := Guard.card_unbegun_lt_bound b settings t.indirections (g.insert "" t)
  obtain ⟨names, w, hrun, hown⟩ := exists_returns_resolve settings
    (fun x hx => .inl (SymType.mem_indirections_of_inner? he hx)) (Nat.le_of_lt hcard)
  refine ⟨names, w, hown, ?_⟩
  rw [resolve, expand_eq_once _ _ hn, hbody]
  exact returns_once_of_not_mem hg (hrun.bind (returns_pure _ w))

theorem exists_returns_resolve_arrayOf (b : Codebase) (settings : ResolverSettings) {e : SymType}
    (hg : ¬ ("", .arrayOf e) ∈ g) :
    ∃ names w, ((b.resolver settings).resolve e).Returns (g.insert "" (.arrayOf e)) names w ∧
      ((b.resolver settings).resolve (.arrayOf e)).Returns g (names.wrapArray "") w :=
  exists_returns_resolve_of_inner b settings rfl (fun _ => rfl) hg

theorem exists_returns_resolve_elementOf (b : Codebase) (settings : ResolverSettings) {e : SymType}
    (hg : ¬ ("", .elementOf e) ∈ g) :
    ∃ names w, ((b.resolver settings).resolve e).Returns (g.insert "" (.elementOf e)) names w ∧
      ((b.resolver settings).resolve (.elementOf e)).Returns g names.unwrapArray w :=
  exists_returns_resolve_of_inner b settings rfl (fun _ => rfl) hg

theorem exists_returns_resolveUnion (b : Codebase) (settings : ResolverSettings) (u : TypeUnion)
    (g : Guard) :
    ∃ names w, (gather (b.resolver settings).resolve u.toList).Returns g names w ∧
      ((b.resolver settings).resolveUnion u).Returns g names.settleEmptyArray w := by
  obtain ⟨n, hn⟩ := Nat.exists_eq_add_one_of_ne_zero (Nat.ne_zero_of_lt
    (Guard.card_unbegun_lt_bound b settings (u.toList.flatMap SymType.indirections) g))
  have hmembers : Alike Eq
      (gather (fun t => Query.asMember t ((b.resolver settings).expand
        ((b.resolver settings).expandUnion n) "" t)) u.toList)
      (gather (b.resolver settings).resolve u.toList) := by
    apply gather_composes composes_alike
    rintro t ht g _ rfl
    have hcard := Guard.card_unbegun_lt_bound b settings (u.toList.flatMap SymType.indirections) g
    obtain ⟨names, w, hrun, hown⟩ := exists_returns_resolve settings
      (fun x hx => .inl (List.mem_flatMap.mpr ⟨t, ht, hx⟩)) (Nat.le_of_lt_succ (hn ▸ hcard))
    exact ⟨names, w, w, hrun.asMember t, hown, rfl⟩
  obtain ⟨names, w, _, hrun, hown, rfl⟩ := hmembers g g rfl
  refine ⟨names, w, hown, ?_⟩
  rw [resolveUnion, hn]
  exact hrun.bind (returns_pure _ w)

end Resolver

end SymbolicTypes
