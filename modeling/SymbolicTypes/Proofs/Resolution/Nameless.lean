import SymbolicTypes.Proofs.Resolution.Depth
import SymbolicTypes.Proofs.Resolution.Origin
import SymbolicTypes.Proofs.Resolution.Soundness

namespace SymbolicTypes

open Query TypeNames

namespace TypeNames

/-- No name at all, or an array of such. -/
def IsNameless (n : String) : Prop := n = "" ∨ ['[', ']'] <+: n.toList

instance : DecidablePred IsNameless :=
  fun n => inferInstanceAs (Decidable (n = "" ∨ ['[', ']'] <+: n.toList))

theorem isKind_isNameless : IsKind IsNameless where
  array n := by
    simp only [IsNameless, ← String.toList_inj, arrayOf, String.toList_append]
    obtain _ | ⟨c, _ | ⟨d, cs⟩⟩ := n.toList
    · decide
    · simp
    · simp
  mixed := by decide
  separator n := by simp [IsNameless]

theorem isNameless_forStatic_empty {n : String} :
    IsNameless (forStatic "" n) ↔ n = staticName ∨ IsNameless n := by
  by_cases hn : n = staticName
  · rw [forStatic, if_pos hn]
    exact iff_of_true (.inl rfl) (.inl hn)
  · rw [forStatic, if_neg hn, or_iff_right hn]

theorem exists_isNameless_wrapArray {names : TypeNames} :
    (∃ n ∈ names.wrapArray "", IsNameless n) ↔
      staticName ∈ names ∨ ∃ n ∈ names, IsNameless n := by
  have hwrap : (∃ n ∈ names.wrapArray "", IsNameless n) ↔
      ∃ m ∈ names, m = staticName ∨ IsNameless m := by
    constructor
    · rintro ⟨n, hn, hnameless⟩
      obtain ⟨m, hm, rfl⟩ := mem_wrapArray.mp hn
      rw [isKind_isNameless.array, isNameless_forStatic_empty] at hnameless
      exact ⟨m, hm, hnameless⟩
    · rintro ⟨m, hm, hnameless⟩
      refine ⟨_, mem_wrapArray.mpr ⟨m, hm, rfl⟩, ?_⟩
      rwa [isKind_isNameless.array, isNameless_forStatic_empty]
  simp only [hwrap, and_or_left, exists_or, exists_eq_right]

end TypeNames

namespace Resolver

/-- Where every class and every literal is named, a type without a name can only come from an array over
`static` outside of any class. Such an array has no name as soon as its elements come to `static`. -/
theorem exists_isNameless_resolve (b : Codebase) (hb : b.Avoids IsNameless)
    (settings : ResolverSettings) (g : Guard) :
    (∀ t, (∀ n ∈ t.literal?, ¬ IsNameless n) →
      ∃ names w, ((b.resolver settings).resolve t).Returns g names w ∧
        ((∃ n ∈ names, IsNameless n) → b.WrapsUnbound settings t.indirections)) ∧
    ∀ e, ¬ ("", .arrayOf e) ∈ g →
      ∃ elements names w,
        ((b.resolver settings).resolve e).Returns (g.insert "" (.arrayOf e)) elements w ∧
        ((b.resolver settings).resolve (.arrayOf e)).Returns g names w ∧
        ((∃ n ∈ names, IsNameless n) ↔ staticName ∈ elements ∨ ∃ n ∈ elements, IsNameless n) := by
  constructor
  · intro t ht
    obtain ⟨names, w, hrun, hmeans⟩ := (resolve_sound b settings g).1 t
    refine ⟨names, w, hrun, ?_⟩
    rintro ⟨n, hn, hnameless⟩
    obtain ⟨-, hwraps⟩ | ⟨harray, -⟩ :=
      (hmeans n hn).forms isKind_isNameless hb hnameless (fun _ => rfl) ht
    · exact hwraps
    · exact absurd harray (by decide)
  · intro e he
    obtain ⟨elements, w, helements, harrays⟩ := exists_returns_resolve_arrayOf b settings he
    exact ⟨elements, _, w, helements, harrays, exists_isNameless_wrapArray⟩

def staticArrays : Codebase :=
  ({} : Codebase)
    |>.insertGlobal "made" (TypeUnion.ofNames ["static"])
    |>.insertFunction
      { name := "all", returnType := TypeUnion.ofList [.named "null", .arrayOf (.global "made")] }
    |>.insertClass
      { name := "Base"
        methods := [{ name := "all", returnType := TypeUnion.ofList [.callOf "all"] }] }

theorem avoids_isNameless_staticArrays : staticArrays.Avoids IsNameless := by decide

theorem exists_isNameless_resolve_staticArrays :
    staticArrays.Avoids IsNameless ∧
    ((staticArrays.resolver {}).resolve (.staticMethodOf "Base" "all") ∅).answer =
      .ok (SortedSet.ofList ["Base[]", "null"]) ∧
    ((staticArrays.resolver {}).resolve (.callOf "all") ∅).answer =
      .ok (SortedSet.ofList ["[]", "null"]) ∧
    (∀ t, (∀ n ∈ t.literal?, ¬ IsNameless n) →
      ∃ names w, ((staticArrays.resolver {}).resolve t).Returns ∅ names w ∧
        ((∃ n ∈ names, IsNameless n) → staticArrays.WrapsUnbound {} t.indirections)) ∧
    ∀ e, ¬ ("", .arrayOf e) ∈ (∅ : Guard) →
      ∃ elements names w,
        ((staticArrays.resolver {}).resolve e).Returns ((∅ : Guard).insert "" (.arrayOf e)) elements
          w ∧
        ((staticArrays.resolver {}).resolve (.arrayOf e)).Returns ∅ names w ∧
        ((∃ n ∈ names, IsNameless n) ↔ staticName ∈ elements ∨ ∃ n ∈ elements, IsNameless n) :=
  ⟨avoids_isNameless_staticArrays, rfl, rfl,
    exists_isNameless_resolve _ avoids_isNameless_staticArrays _ _⟩

/-- An array of `static` that nothing binds comes to an array of no name. -/
theorem resolve_arrayOf_static_isNameless :
    ({} : Codebase).Avoids IsNameless ∧ (SymType.arrayOf (.named "static")).isEncodable = true ∧
    (∀ n ∈ (SymType.arrayOf (.named "static")).literal?, ¬ IsNameless n) ∧
    ¬ ∃ names, ((({} : Codebase).resolver {}).resolve (.arrayOf (.named "static")) ∅).answer =
        .ok names ∧ ∀ n ∈ names, ¬ IsNameless n := by
  refine ⟨by decide, rfl, by decide, ?_⟩
  rintro ⟨names, hanswer, hnames⟩
  have harrays : names = SortedSet.ofList ["[]"] := Except.ok.inj (hanswer.symm.trans rfl)
  refine hnames "[]" ?_ (by decide)
  rw [harrays, SortedSet.mem_ofList]
  exact List.mem_singleton_self _

end Resolver

end SymbolicTypes
