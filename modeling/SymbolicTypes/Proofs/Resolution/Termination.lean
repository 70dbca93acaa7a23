import SymbolicTypes.Proofs.Inheritance.Scanning
import SymbolicTypes.Proofs.Resolution.Alike
import SymbolicTypes.Proofs.Resolution.Growth

namespace SymbolicTypes

open Query

namespace Resolver

variable {b : Codebase} {settings : ResolverSettings} {query : List SymType} {start : Guard}
  {context : String} {k : Nat}

theorem once_alike_of_remains {t : SymType} {q q' : Query Guard TypeNames}
    (hcontext : b.IsContext context) (ht : t ∈ query ∨ t ∈ b.indirections)
    (hq : Alike (Guard.Remains b query start (k - 1)) q q') :
    Alike (Guard.Remains b query start k) (once context t q) (once context t q') := by
  apply once_alike_of _ _ (fun _ _ hw => hw.mono (Nat.sub_le k 1)) hq
  · intro g g' hg
    rw [hg.same]
  · intro g g' hg h
    obtain rfl := hg.same
    have hcard := Guard.card_unbegun_insert_lt hcontext ht h
    exact ⟨rfl, hg.grows.insert hcontext ht, by have := hg.card; omega⟩

def expandMembers (r : Resolver) (declared : String → TypeUnion → Query Guard TypeNames)
    (context : String) (u : TypeUnion) : Query Guard TypeNames := do
  let names ← gather (fun t => Query.asMember t (r.expand declared context t)) u.toList
  return names.settleEmptyArray

theorem expandUnion_eq_iterate (r : Resolver) (depth : Nat) :
    r.expandUnion depth = r.expandMembers^[depth] fun _ _ => return ∅ := by
  induction depth with
  | zero =>
    funext context u
    rfl
  | succ depth ih =>
    rw [Function.iterate_succ_apply', ← ih]
    funext context u
    rfl

section

variable {d d' : String → TypeUnion → Query Guard TypeNames}

theorem alike_of_remains_zero {α : Type} (q q' : Query Guard α) :
    Alike (Guard.Remains b query start 0) q q' :=
  fun _ _ h => absurd h.card (Nat.not_lt_zero _)

theorem expand_alike_of_remains {t : SymType} (hcontext : b.IsContext context)
    (ht : ∀ x ∈ t.indirections, x ∈ query ∨ x ∈ b.indirections)
    (hd : ∀ j < k, ∀ c u, b.IsContext c → u ∈ b.unions →
      Alike (Guard.Remains b query start j) (d c u) (d' c u)) :
    Alike (Guard.Remains b query start k) ((b.resolver settings).expand d context t)
      ((b.resolver settings).expand d' context t) := by
  -- each expansion that is under way has begun one pair more
  apply expand_alike_of_once (R := fun i => Guard.Remains b query start (k - i))
    (fun i x hx q q' => once_alike_of_remains hcontext (ht x hx)) _ 0
  intro i x _ c u hc
  have hcontext : b.IsContext c := by
    obtain rfl | hc := hc.context_eq_or
    · exact hcontext
    · exact hc
  have hu : u ∈ b.unions := (hc.declared b.declares_unions).elim id id
  obtain rfl | hk := Nat.eq_zero_or_pos k
  · rw [Nat.zero_sub]
    exact alike_of_remains_zero _ _
  · exact hd _ (by omega) c u hcontext hu

theorem expandMembers_alike {u : TypeUnion} (hcontext : b.IsContext context)
    (hu : ∀ t ∈ u, ∀ x ∈ t.indirections, x ∈ query ∨ x ∈ b.indirections)
    (hd : ∀ j < k, ∀ c v, b.IsContext c → v ∈ b.unions →
      Alike (Guard.Remains b query start j) (d c v) (d' c v)) :
    Alike (Guard.Remains b query start k) ((b.resolver settings).expandMembers d context u)
      ((b.resolver settings).expandMembers d' context u) := by
  apply settled_gather_alike
  intro t ht
  exact expand_alike_of_remains hcontext (hu t ht) hd

/-- As many declarations, one inside the other, as there are pairs to begin: what lies deeper has
no part in an expansion. -/
theorem iterate_expandMembers_alike (rest rest' : String → TypeUnion → Query Guard TypeNames)
    {depth depth' : Nat} (hdepth : k ≤ depth) (hdepth' : k ≤ depth') {u : TypeUnion}
    (hcontext : b.IsContext context)
    (hu : ∀ t ∈ u, ∀ x ∈ t.indirections, x ∈ query ∨ x ∈ b.indirections) :
    Alike (Guard.Remains b query start k)
      ((b.resolver settings).expandMembers^[depth] rest context u)
      ((b.resolver settings).expandMembers^[depth'] rest' context u) := by
  induction depth generalizing depth' k context u with
  | zero =>
    obtain rfl := Nat.le_zero.mp hdepth
    exact alike_of_remains_zero _ _
  | succ depth ih =>
    obtain rfl | hk := Nat.eq_zero_or_pos k
    · exact alike_of_remains_zero _ _
    obtain ⟨n', rfl⟩ := Nat.exists_eq_add_of_le' (Nat.le_trans hk hdepth')
    rw [Function.iterate_succ_apply', Function.iterate_succ_apply']
    apply expandMembers_alike hcontext hu
    intro j hj c v hc hv
    exact ih (by omega) (by omega) hc fun t ht x hx =>
      .inr (Codebase.mem_indirections_of_mem_unions hv ht hx)

end

/-- Expansion of a query from the guard `g` comes to an end at the guard `w`: `run`, given how the
types of declarations are expanded, does the same whatever would expand those that lie deeper than
the bound. -/
structure Ends (r : Resolver) (query : List SymType)
    (run : (String → TypeUnion → Query Guard TypeNames) → Query Guard TypeNames) (g : Guard)
    (names : TypeNames) (w : Guard) : Prop where
  returns : ∀ depth, r.bound query ≤ depth → ∀ rest,
    (run (r.expandMembers^[depth] rest)).Returns g names w
  grows : g.Grows r.index.codebase query w
  size_le : w.size ≤ g.size + {c | r.index.codebase.IsContext c}.ncard *
    {x | x ∈ query ∨ x ∈ r.index.codebase.indirections}.ncard

theorem exists_ends (b : Codebase) (settings : ResolverSettings) (query : List SymType)
    (run : (String → TypeUnion → Query Guard TypeNames) → Query Guard TypeNames) (g : Guard)
    (h : ∀ depth depth', (b.resolver settings).bound query ≤ depth →
      (b.resolver settings).bound query ≤ depth' → ∀ rest rest',
      Alike (Guard.Remains b query g ((b.resolver settings).bound query))
        (run ((b.resolver settings).expandMembers^[depth] rest))
        (run ((b.resolver settings).expandMembers^[depth'] rest'))) :
    ∃ names w, Ends (b.resolver settings) query run g names w := by
  have hstart : Guard.Remains b query g ((b.resolver settings).bound query) g g :=
    ⟨rfl, .refl g, Guard.card_unbegun_lt_bound b settings query g⟩
  obtain ⟨names, w, hw, hrun⟩ := exists_returns_of_alike
    (fun i : Nat × _ => run ((b.resolver settings).expandMembers^[i.1] i.2))
    (fun i => (b.resolver settings).bound query ≤ i.1)
    (fun i j hi hj => h i.1 j.1 hi hj i.2 j.2) (fun _ _ h => h.same) hstart
    (_, fun _ _ => return ∅) (Nat.le_refl _)
  exact ⟨names, w, fun depth hdepth rest => hrun (depth, rest) hdepth, hw.grows, hw.grows.size_le⟩

/-- Expansion comes to an end from every guard, and so does every search for a member in the course
of it. -/
theorem resolve_ends (b : Codebase) (settings : ResolverSettings) (g : Guard) :
    (∀ t, ∃ names w, ((b.resolver settings).resolve t).Returns g names w ∧
      Ends (b.resolver settings) t.indirections
        (fun d => (b.resolver settings).expand d "" t) g names w) ∧
    (∀ u, ∃ names w, ((b.resolver settings).resolveUnion u).Returns g names w ∧
      Ends (b.resolver settings) (u.toList.flatMap SymType.indirections) (fun d => d "" u)
        g names w) ∧
    {c | b.IsContext c}.Finite ∧
    ∀ (M : Type) (p : SearchPlan M) (host : String), ∃ seen, ∀ depth, b.depth ≤ depth → ∀ rest,
      ((p.visit b.index)^[depth] rest host).Returns [] (p.found? b host) seen := by
  refine ⟨fun t => ?_, fun u => ?_, b.finite_isContext,
    fun M p host => p.returns_iterate_visit b host⟩
  · obtain ⟨names, w, h⟩ := exists_ends b settings t.indirections
      (fun d => (b.resolver settings).expand d "" t) g
      fun depth depth' hdepth hdepth' rest rest' =>
        expand_alike_of_remains b.isContext_empty (fun x hx => .inl hx)
          fun j hj c u hc hu => iterate_expandMembers_alike rest rest' (by omega) (by omega) hc
            fun t ht x hx => .inr (Codebase.mem_indirections_of_mem_unions hu ht hx)
    refine ⟨names, w, ?_, h⟩
    rw [resolve, expandUnion_eq_iterate]
    exact h.returns _ (Nat.le_refl _) _
  · obtain ⟨names, w, h⟩ := exists_ends b settings (u.toList.flatMap SymType.indirections)
      (fun d => d "" u) g
      fun depth depth' hdepth hdepth' rest rest' =>
        iterate_expandMembers_alike rest rest' hdepth hdepth' b.isContext_empty
          fun t ht x hx => .inl (List.mem_flatMap.mpr ⟨t, ht, hx⟩)
    refine ⟨names, w, ?_, h⟩
    rw [resolveUnion, expandUnion_eq_iterate]
    exact h.returns _ (Nat.le_refl _) _

end Resolver

end SymbolicTypes
