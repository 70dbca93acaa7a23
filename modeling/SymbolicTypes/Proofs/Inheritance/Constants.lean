import SymbolicTypes.Proofs.Inheritance.PathSearch

namespace SymbolicTypes

open Query Naming

theorem ClassDecl.constant?_eq_none_iff {c : ClassDecl} {name : String} :
    c.constant? name = none ↔ ∀ k ∈ c.constants, k.name ≠ name := by
  simp [constant?]

namespace Codebase

variable {b : Codebase}

def TakesFrom (b : Codebase) (name next : String) : Prop :=
  ∃ c, b.class? name = some c ∧
    (next ∈ c.interfaces ∨ next ∈ c.parentInterfaces ∨ (c.parent = some next ∧ next ≠ ""))

/-- A constant by a search that knows the way it has come and nothing else: the interfaces of a class
come first, then its own constants, the interfaces that it extends and its parent. -/
def constantOnPath (b : Codebase) (constant : String) (path : List String) (name : String) :
    Option (Located TypedName) :=
  if _hmet : normalize name ∈ path then none
  else
    match _hc : b.class? name with
    | none => none
    | some c =>
      let next := fun n => constantOnPath b constant (normalize name :: path) n
      (c.interfaces.findSome? next).or
        (((c.constants.find? fun k => k.name == constant).map fun k => ⟨k, name⟩).or
          ((c.parentInterfaces.findSome? next).or ((c.parent.filter (· ≠ "")).bind next)))
termination_by (b.unmet path).card
decreasing_by all_goals exact card_unmet_cons_lt (.inl (SortedMap.mem_keys _hc)) _hmet

theorem leads_constant (b : Codebase) (constant : String) :
    (SearchPlan.constant constant).Leads b = b.TakesFrom := by
  funext name next
  simp [TakesFrom, SearchPlan.Leads, SearchPlan.described?, SearchPlan.constant,
    ClassDecl.mem_parents_iff]

theorem byPath_constantOnPath (b : Codebase) (constant : String) :
    (SearchPlan.constant constant).ByPath b (b.constantOnPath constant) where
  of_mem path name h := by rw [constantOnPath, dif_pos h]
  of_none path name h hc := by
    have hc : b.class? name = none := hc
    rw [constantOnPath, dif_neg h]
    split
    · rfl
    · next hd => rw [hc] at hd; cases hd
  of_some path name c h hc := by
    have hc : b.class? name = some c := hc
    rw [constantOnPath, dif_neg h]
    split
    · next hd => rw [hc] at hd; cases hd
    · next d hd =>
      rw [hc] at hd
      cases hd
      simp [SearchPlan.turn, SearchPlan.constant, ClassDecl.constant?, List.findSome?_append,
        ClassDecl.findSome?_parents]

/-- The constant that is found is the one that a search finds which knows the way it has come and
nothing else. So none is found just if no class that can be reached declares one, and wherever such a
search comes to a class, the class's own constant is found only if none of its interfaces has one. -/
theorem findConstant_eq_constantOnPath (b : Codebase) (host constant : String) :
    (∀ (σ : Type) (s : σ),
      (b.index.findConstant host constant).Returns s (b.constantOnPath constant [] host) s) ∧
    (b.constantOnPath constant [] host = none ↔
      ∀ name c, Relation.ReflTransGen b.TakesFrom host name → b.class? name = some c →
        ∀ k ∈ c.constants, k.name ≠ constant) ∧
    ∀ path name c found, b.class? name = some c →
      b.constantOnPath constant path name = some found →
      normalize found.host = normalize name →
      c.constants.find? (fun k => k.name == constant) = some found.member ∧
        ∀ i ∈ c.interfaces, b.constantOnPath constant (normalize name :: path) i = none := by
  have hfind := b.byPath_constantOnPath constant
  refine ⟨fun σ s => hfind.returns_run host s, ⟨fun hnone name c hreach hc => ?_, fun h => ?_⟩,
    fun path name c found hc hfound hhost => hfind.own_of_host_eq hc hfound hhost⟩
  · rw [← leads_constant b constant] at hreach
    exact ClassDecl.constant?_eq_none_iff.mp (hfind.complete hnone hreach hc)
  · refine Option.eq_none_iff_forall_ne_some.mpr fun found hfound => ?_
    obtain ⟨hreach, c, hc, hm⟩ := hfind.sound hfound
    rw [SearchPlan.Reaches, leads_constant] at hreach
    have hnone : c.constant? constant = none :=
      ClassDecl.constant?_eq_none_iff.mpr (h found.host c hreach hc)
    exact absurd (hnone.symm.trans hm) (by simp)

example :
    let b := ({} : Codebase)
      |>.insertClass { name := "A", interfaces := ["I"], constants := [{ name := "k" }] }
      |>.insertClass { name := "I", parent := some "J", parentInterfaces := ["\\A"] }
      |>.insertClass { name := "J", constants := [{ name := "k" }] }
    (b.index.findConstant "A" "k" ()).answer = .ok (some ⟨{ name := "k" }, "J"⟩) ∧
      (b.index.findConstant "I" "k" ()).answer = .ok (some ⟨{ name := "k" }, "\\A"⟩) := by
  exact ⟨rfl, rfl⟩

end Codebase

end SymbolicTypes
