import SymbolicTypes.Proofs.Resolution.Depth
import SymbolicTypes.Proofs.Resolution.Origin
import SymbolicTypes.Proofs.Resolution.Soundness

namespace SymbolicTypes

open Query TypeNames

namespace TypeNames

variable {names : TypeNames}

/-- Holds an array beside the name that stands for arrays of anything. -/
def IsVague (names : TypeNames) : Prop := arrayName ∈ names ∧ names.HasArray

theorem hasArray_settleEmptyArray : HasArray names.settleEmptyArray ↔ names.HasArray := by
  apply exists_congr
  intro m
  have harray : arrayOf m ≠ arrayName := arrayOf_ne (by decide) m
  have hempty : arrayOf m ≠ emptyArrayName := arrayOf_ne (by decide) m
  rw [mem_settleEmptyArray, or_iff_left fun h => harray h.1, and_iff_left hempty]

theorem isVague_settleEmptyArray : IsVague names.settleEmptyArray ↔ names.IsVague := by
  rw [IsVague, IsVague, hasArray_settleEmptyArray]
  apply and_congr_left
  intro harray
  rw [mem_settleEmptyArray, or_iff_left fun h => h.2.2 harray]
  exact and_iff_left (by decide)

def BeginsLikeArray (n : String) : Prop := arrayName.toList <+: n.toList

instance : DecidablePred BeginsLikeArray :=
  fun n => inferInstanceAs (Decidable (arrayName.toList <+: n.toList))

theorem isKind_beginsLikeArray : IsKind BeginsLikeArray where
  array n := by
    -- neither bracket ends what the name has to begin with
    have hlast {c : Char} (hc : c ≠ 'y') (l : List Char) : arrayName.toList ≠ l ++ [c] := by
      intro h
      have hchar := congrArg List.getLast? h
      rw [List.getLast?_concat] at hchar
      exact hc (Option.some.inj hchar).symm
    have hbrackets : (arrayOf n).toList = n.toList ++ ['['] ++ [']'] := by
      rw [arrayOf, String.toList_append, List.append_assoc]
      rfl
    rw [BeginsLikeArray, hbrackets, List.prefix_concat_iff, or_iff_right (hlast (by decide) _),
      List.prefix_concat_iff, or_iff_right (hlast (by decide) _), BeginsLikeArray]
  mixed := by decide
  separator n := by simp [BeginsLikeArray, arrayName]

end TypeNames

namespace Resolver

/-- Where no literal and no class begins like `array`, a union comes to `array` beside an array of
something only if its members already do. One that comes to `array` has been led to a declared type
that came to an array of which no element was seen. -/
theorem isVague_resolveUnion (b : Codebase) (hb : b.Avoids BeginsLikeArray)
    (settings : ResolverSettings) (g : Guard) (u : TypeUnion)
    (hu : ∀ t ∈ u, ∀ n ∈ t.literal?, ¬ BeginsLikeArray n) :
    ∃ found w, (gather (b.resolver settings).resolve u.toList).Returns g found w ∧
      ((b.resolver settings).resolveUnion u).Returns g found.settleEmptyArray w ∧
      (IsVague found.settleEmptyArray ↔ found.IsVague) ∧
      (arrayName ∈ found → ∃ t ∈ u, t.isNamed = false ∧ b.Means settings "" t arrayName ∧
        b.DeclaresEmptyArray settings) := by
  obtain ⟨found, w, hmembers, hunion⟩ := exists_returns_resolveUnion b settings u g
  refine ⟨found, w, hmembers, hunion, isVague_settleEmptyArray, fun harray => ?_⟩
  have hanswers : AnswersIn (gather (b.resolver settings).resolve u.toList)
      fun n => ∃ t ∈ u, b.Means settings "" t n := by
    apply gather_answersIn
    intro t ht g
    obtain ⟨names, w, hrun, hmeans⟩ := (resolve_sound b settings g).1 t
    exact ⟨names, w, hrun, fun n hn => ⟨t, ht, hmeans n hn⟩⟩
  obtain ⟨names, v, hrun, hmeans⟩ := hanswers g
  obtain ⟨rfl, -⟩ := hrun.unique hmembers
  obtain ⟨t, ht, harray⟩ := hmeans _ harray
  refine ⟨t, ht, ?_, harray, ?_⟩
  · by_contra hn
    obtain ⟨n, rfl⟩ := SymType.exists_eq_named (by simpa using hn)
    obtain rfl := harray.eq_of_named
    exact hu _ ht _ rfl (by decide)
  · obtain ⟨hempty, -⟩ | ⟨-, hdeclares⟩ :=
      harray.forms isKind_beginsLikeArray hb (by decide) (fun _ => rfl) (hu t ht)
    · exact absurd hempty (by decide)
    · exact hdeclares

def emptyArrays : Codebase :=
  ({} : Codebase)
    |>.insertGlobal "a" (TypeUnion.ofNames ["empty_array"])
    |>.insertFunction
      { name := "list", returnType := TypeUnion.ofNames ["Foo[]", "empty_array"] }

theorem avoids_beginsLikeArray_emptyArrays : emptyArrays.Avoids BeginsLikeArray := by decide

theorem isVague_resolveUnion_emptyArrays :
    let u := TypeUnion.ofList [.named "empty_array", .callOf "list"]
    emptyArrays.Avoids BeginsLikeArray ∧ (∀ t ∈ u, ∀ n ∈ t.literal?, ¬ BeginsLikeArray n) ∧
    ((emptyArrays.resolver {}).resolveUnion u ∅).answer = .ok (SortedSet.ofList ["Foo[]"]) ∧
    ∃ found w, (gather (emptyArrays.resolver {}).resolve u.toList).Returns ∅ found w ∧
      ((emptyArrays.resolver {}).resolveUnion u).Returns ∅ found.settleEmptyArray w ∧
      (IsVague found.settleEmptyArray ↔ found.IsVague) ∧
      (arrayName ∈ found → ∃ t ∈ u, t.isNamed = false ∧ emptyArrays.Means {} "" t arrayName ∧
        emptyArrays.DeclaresEmptyArray {}) := by
  intro u
  have hu : ∀ t ∈ u, ∀ n ∈ t.literal?, ¬ BeginsLikeArray n := by decide
  exact ⟨avoids_beginsLikeArray_emptyArrays, hu, rfl,
    isVague_resolveUnion _ avoids_beginsLikeArray_emptyArrays _ _ _ hu⟩

/-- The global has no array beside it in its own declaration, so that it comes to `array`, which stays
beside the array that it is a member with. -/
theorem resolveUnion_isVague :
    let u := TypeUnion.ofList [.named "Foo[]", .global "a"]
    emptyArrays.Avoids BeginsLikeArray ∧
    (∀ t ∈ u, ∀ n ∈ t.literal?, ¬ BeginsLikeArray n) ∧
    ¬ ∃ names, ((emptyArrays.resolver {}).resolveUnion u ∅).answer = .ok names ∧
      ¬ names.IsVague := by
  refine ⟨avoids_beginsLikeArray_emptyArrays, by decide, ?_⟩
  rintro ⟨names, hanswer, hvague⟩
  have hboth : names = SortedSet.ofList ["Foo[]", "array"] := Except.ok.inj (hanswer.symm.trans rfl)
  apply hvague
  rw [hboth]
  refine ⟨?_, "Foo", ?_⟩
  · exact SortedSet.mem_ofList.mpr (by decide)
  · exact SortedSet.mem_ofList.mpr (by decide)

end Resolver

end SymbolicTypes
