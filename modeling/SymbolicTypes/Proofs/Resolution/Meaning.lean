import SymbolicTypes.Proofs.Resolution.Reference

namespace SymbolicTypes

open TypeNames

namespace TypeNames

variable {names : TypeNames} {n : String}

def forStatic (host n : String) : String := if n = staticName then host else n

def settled (n : String) : String := if n = emptyArrayName then arrayName else n

theorem element?_eq_some_iff {m : String} : element? m = some n ↔ m = arrayOf n := by
  have harray : m = arrayOf n ↔ m.toList.reverse = ']' :: '[' :: n.toList.reverse := by
    rw [← String.toList_inj, ← List.reverse_inj, arrayOf, String.toList_append,
      List.reverse_append]
    exact Iff.rfl
  rw [harray, element?]
  constructor
  · intro h
    split at h
    · next rest hrest =>
      obtain rfl := Option.some.inj h
      rw [hrest, String.toList_ofList, List.reverse_reverse]
    · cases h
  · intro h
    rw [h]
    simp

theorem arrayOf_inj {m : String} : arrayOf m = arrayOf n ↔ m = n := by
  constructor
  · intro h
    have helement : element? (arrayOf n) = some m := element?_eq_some_iff.mpr h.symm
    rw [element?_eq_some_iff.mpr rfl] at helement
    exact (Option.some.inj helement).symm
  · rintro rfl
    rfl

theorem mem_wrapArray {context : String} :
    n ∈ names.wrapArray context ↔ ∃ m ∈ names, arrayOf (forStatic context m) = n := by
  simp only [wrapArray, SortedSet.mem_ofList, List.mem_map, forStatic, apply_ite arrayOf]
  rfl

theorem mem_unwrapArray :
    n ∈ names.unwrapArray ↔ arrayOf n ∈ names ∨ n = mixedName ∧ mixedName ∈ names := by
  have hmixed : element? mixedName = none := by decide
  simp only [unwrapArray, SortedSet.mem_ofList, List.mem_filterMap, Option.or_eq_some_iff,
    element?_eq_some_iff]
  constructor
  · rintro ⟨m, hm, rfl | ⟨-, h⟩⟩
    · exact .inl hm
    · obtain ⟨rfl, rfl⟩ : m = mixedName ∧ m = n := by simpa using h
      exact .inr ⟨rfl, hm⟩
  · rintro (h | ⟨rfl, h⟩)
    · exact ⟨_, h, .inl rfl⟩
    · exact ⟨_, h, .inr ⟨hmixed, if_pos rfl⟩⟩

theorem mem_bindStatic {host : String} :
    n ∈ names.bindStatic host ↔ ∃ m ∈ names, forStatic host m = n := by
  simp only [bindStatic, SortedSet.mem_ofList, List.mem_map, forStatic]
  rfl

theorem arrayOf_ne (harray : element? n = none) (m : String) : arrayOf m ≠ n := by
  rintro rfl
  rw [element?_eq_some_iff.mpr rfl] at harray
  cases harray

def HasArray (names : TypeNames) : Prop := ∃ n, arrayOf n ∈ names

theorem any_isArray_iff : names.toList.any isArray = true ↔ names.HasArray := by
  rw [List.any_eq_true]
  constructor
  · rintro ⟨m, hm, harray⟩
    obtain ⟨n, hn⟩ := Option.isSome_iff_exists.mp harray
    obtain rfl := element?_eq_some_iff.mp hn
    exact ⟨n, hm⟩
  · rintro ⟨n, hn⟩
    exact ⟨_, hn, Option.isSome_of_mem (element?_eq_some_iff.mpr rfl)⟩

theorem mem_settleEmptyArray :
    n ∈ names.settleEmptyArray ↔ n ∈ names ∧ n ≠ emptyArrayName ∨
      n = arrayName ∧ emptyArrayName ∈ names ∧ ¬ names.HasArray := by
  by_cases hempty : emptyArrayName ∈ names
  · have hrest : (names.erase emptyArrayName).toList.any isArray = true ↔ names.HasArray := by
      rw [any_isArray_iff]
      apply exists_congr
      intro m
      rw [SortedSet.mem_erase]
      exact and_iff_right (arrayOf_ne (by decide) m)
    rw [settleEmptyArray, if_pos (SortedSet.contains_iff.mpr hempty)]
    dsimp only
    by_cases harray : names.HasArray
    · rw [if_pos (hrest.mpr harray), SortedSet.mem_erase, and_comm]
      exact (or_iff_left fun h => h.2.2 harray).symm
    · rw [if_neg (mt hrest.mp harray), SortedSet.mem_insert, SortedSet.mem_erase]
      simp only [hempty, harray, not_false_eq_true, and_true, true_and, and_comm, or_comm]
  · have hne : n ∈ names → n ≠ emptyArrayName := by
      rintro h rfl
      exact hempty h
    rw [settleEmptyArray, if_neg (mt SortedSet.contains_iff.mp hempty)]
    simpa [hempty] using hne

theorem exists_settled_of_mem (h : n ∈ names.settleEmptyArray) :
    ∃ m ∈ names, settled m = n := by
  obtain ⟨hn, hne⟩ | ⟨rfl, hempty, -⟩ := mem_settleEmptyArray.mp h
  · exact ⟨n, hn, if_neg hne⟩
  · exact ⟨_, hempty, if_pos rfl⟩

end TypeNames

namespace Codebase

/-- What a type stands for where `static` is the first of the names. Every declaration may be
followed again and again: nothing is remembered. -/
inductive Means (b : Codebase) (settings : ResolverSettings) : String → SymType → String → Prop
  | named {context n} : Means b settings context (.named n) n
  | reference {context t u e n} (hu : b.target? settings t = some u) (he : e ∈ u)
      (hn : Means b settings (t.base context) e n) : Means b settings context t (settled n)
  | arrayOf {context t n} (hn : Means b settings context t n) :
      Means b settings context (.arrayOf t) (arrayOf (forStatic context n))
  | elementOf {context t n} (hn : Means b settings context t (arrayOf n)) :
      Means b settings context (.elementOf t) n
  | elementOf_mixed {context t} (hn : Means b settings context t mixedName) :
      Means b settings context (.elementOf t) mixedName
  | methodOf {context t host method m e n} (hhost : Means b settings context t host)
      (hm : b.findMethod? host method = some m) (he : e ∈ m.member.returnType)
      (hn : Means b settings host e n) :
      Means b settings context (.methodOf t method) (forStatic host (settled n))
  | propertyOf {context t host property p e n} (hhost : Means b settings context t host)
      (hp : b.findProperty? host property = some p) (he : e ∈ p.member.type)
      (hn : Means b settings context e n) :
      Means b settings context (.propertyOf t property) (settled n)
  | getterOf {context t host property m e n} (hhost : Means b settings context t host)
      (hp : b.findProperty? host property = none) (hm : b.magicGetter? settings host = some m)
      (he : e ∈ m.member.returnType) (hn : Means b settings context e n) :
      Means b settings context (.propertyOf t property) (settled n)
  | staticMethodOf {context host method m e n} (hm : b.findMethod? host method = some m)
      (he : e ∈ m.member.returnType) (hn : Means b settings host e n) :
      Means b settings context (.staticMethodOf host method) (forStatic host (settled n))

theorem Means.eq_of_named {b : Codebase} {settings : ResolverSettings} {context m n : String}
    (h : b.Means settings context (.named m) n) : n = m := by
  cases h with
  | named => rfl
  | reference hu => cases isReference_of_target? hu

def UnionMeans (b : Codebase) (settings : ResolverSettings) (context : String) (u : TypeUnion)
    (n : String) : Prop :=
  ∃ e ∈ u, ∃ m, b.Means settings context e m ∧ settled m = n

end Codebase

end SymbolicTypes
