import SymbolicTypes.Proofs.Inheritance.PathSearch

namespace SymbolicTypes

open Query Naming

theorem ClassDecl.isSome_method?_iff {c : ClassDecl} {name : String} :
    (c.method? name).isSome = true ↔ ∃ m ∈ c.methods, m.name = name := by
  simp [method?]

namespace Codebase

variable {σ : Type} {b : Codebase}

theorem mem_keys_of_classOrTrait? {name : String} {c : ClassDecl}
    (h : b.classOrTrait? name = some c) :
    normalize name ∈ b.classes.keys ∨ normalize name ∈ b.traits.keys :=
  SearchPlan.mem_keys_of_described? (p := SearchPlan.method name) h

/-- A class or trait leads to its traits, to the interfaces that it extends and to its parent. -/
def Inherits (b : Codebase) (name next : String) : Prop :=
  ∃ c, b.classOrTrait? name = some c ∧
    (next ∈ c.traits ∨ next ∈ c.parentInterfaces ∨ (c.parent = some next ∧ next ≠ ""))

/-- A method by a search that knows the way it has come and nothing else, and so may look at a class
again and again: the methods of the class itself come first, then its traits, the interfaces that it
extends and its parent. -/
def methodOnPath (b : Codebase) (method : String) (path : List String) (name : String) :
    Option (Located FunctionDecl) :=
  if _hmet : normalize name ∈ path then none
  else
    match _hc : b.classOrTrait? name with
    | none => none
    | some c =>
      let next := fun n => methodOnPath b method (normalize name :: path) n
      ((c.methods.find? fun m => m.name == method).map fun m => ⟨m, name⟩).or
        ((c.traits.findSome? next).or
          ((c.parentInterfaces.findSome? next).or ((c.parent.filter (· ≠ "")).bind next)))
termination_by (b.unmet path).card
decreasing_by all_goals exact card_unmet_cons_lt (mem_keys_of_classOrTrait? _hc) _hmet

theorem leads_method (b : Codebase) (method : String) :
    (SearchPlan.method method).Leads b = b.Inherits := by
  funext name next
  simp [Inherits, SearchPlan.Leads, SearchPlan.described?, SearchPlan.method,
    ClassDecl.mem_parents_iff]

theorem byPath_methodOnPath (b : Codebase) (method : String) :
    (SearchPlan.method method).ByPath b (b.methodOnPath method) where
  of_mem path name h := by rw [methodOnPath, dif_pos h]
  of_none path name h hc := by
    have hc : b.classOrTrait? name = none := hc
    rw [methodOnPath, dif_neg h]
    split
    · rfl
    · next hd => rw [hc] at hd; cases hd
  of_some path name c h hc := by
    have hc : b.classOrTrait? name = some c := hc
    rw [methodOnPath, dif_neg h]
    split
    · next hd => rw [hc] at hd; cases hd
    · next d hd =>
      rw [hc] at hd
      cases hd
      simp [SearchPlan.turn, SearchPlan.method, ClassDecl.method?, List.findSome?_append,
        ClassDecl.findSome?_parents]

/-- A method is found just if a class or trait that can be reached declares it, and then it is the
first of that name in a host that can be reached. -/
theorem findMethod_isSome_iff_inherits (b : Codebase) (host method : String) :
    ∃ o, (∀ (σ : Type) (s : σ), (b.index.findMethod host method).Returns s o s) ∧
      (o.isSome = true ↔ ∃ name c, Relation.ReflTransGen b.Inherits host name ∧
        b.classOrTrait? name = some c ∧ ∃ m ∈ c.methods, m.name = method) ∧
      ∀ found ∈ o, Relation.ReflTransGen b.Inherits host found.host ∧
        ∃ c, b.classOrTrait? found.host = some c ∧
          c.methods.find? (fun m => m.name == method) = some found.member := by
  have hfind := b.byPath_methodOnPath method
  have hsound : ∀ found ∈ b.methodOnPath method [] host,
      Relation.ReflTransGen b.Inherits host found.host ∧
        ∃ c, b.classOrTrait? found.host = some c ∧ c.method? method = some found.member := by
    intro found hfound
    rw [← leads_method b method]
    exact hfind.sound hfound
  refine ⟨_, fun σ s => hfind.returns_run host s, ⟨fun hsome => ?_, ?_⟩, hsound⟩
  · obtain ⟨found, hfound⟩ := Option.isSome_iff_exists.mp hsome
    obtain ⟨hreach, c, hc, hm⟩ := hsound found hfound
    exact ⟨found.host, c, hreach, hc, ClassDecl.isSome_method?_iff.mp (Option.isSome_of_eq_some hm)⟩
  · rintro ⟨name, c, hreach, hc, hm⟩
    refine Option.isSome_iff_ne_none.mpr fun hnone => ?_
    rw [← leads_method b method] at hreach
    have hown : c.method? method = none := hfind.complete hnone hreach hc
    rw [← ClassDecl.isSome_method?_iff, hown] at hm
    exact absurd hm (by simp)

example :
    let b := ({} : Codebase)
      |>.insertClass { name := "A", parent := some "B" }
      |>.insertClass { name := "B", parent := some "\\A", traits := ["T"] }
      |>.insertTrait { name := "T", methods := [{ name := "m" }] }
    (b.index.findMethod "\\B" "m" ()).answer = .ok (some ⟨{ name := "m" }, "T"⟩) ∧
      (b.index.findMethod "A" "n" ()).answer = .ok none := by
  exact ⟨rfl, rfl⟩

/-- The method that is found is the one that a search finds which knows the way it has come and
nothing else. -/
theorem findMethod_eq_methodOnPath (b : Codebase) (host method : String) (s : σ) :
    (b.index.findMethod host method).Returns s (b.methodOnPath method [] host) s :=
  (b.byPath_methodOnPath method).returns_run host s

end Codebase

end SymbolicTypes
