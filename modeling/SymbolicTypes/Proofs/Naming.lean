import SymbolicTypes.Naming

namespace SymbolicTypes.Naming

variable {c : Char} {name : String}

theorem dropLeading_append (c : Char) (name : String) :
    dropLeading c (String.singleton c ++ name) = name := by
  unfold dropLeading
  split
  · next d rest hname =>
    obtain ⟨rfl, rfl⟩ : c = d ∧ name.toList = rest := by simpa using hname
    simp
  · next hname => simp at hname

theorem dropLeading_eq_self_iff : dropLeading c name = name ↔ name.toList.head? ≠ some c := by
  unfold dropLeading
  split
  · next d rest hname =>
    rw [hname, List.head?_cons, ne_eq, Option.some.injEq]
    split
    · next hd =>
      refine iff_of_false (fun h => ?_) (fun h => h hd)
      rw [← h, String.toList_ofList] at hname
      exact absurd hname.symm (List.cons_ne_self d rest)
    · next hd => exact iff_of_true rfl hd
  · next hname => simp [hname]

theorem eq_dropLeading_or (c : Char) (name : String) :
    name = dropLeading c name ∨ name = String.singleton c ++ dropLeading c name := by
  by_cases h : name.toList.head? = some c
  · obtain ⟨rest, hrest⟩ := List.head?_eq_some_iff.mp h
    have hname : name = String.singleton c ++ String.ofList rest := by
      apply String.toList_inj.mp
      simpa using hrest
    right
    rw [hname, dropLeading_append]
  · exact .inl (dropLeading_eq_self_iff.mpr h).symm

theorem depth_separator_append (name : String) :
    depth (String.singleton separator ++ name) = depth name + 1 := by
  simp [depth]

theorem shortName_separator_append (name : String) :
    shortName (String.singleton separator ++ name) = shortName name := by
  have hend : [separator].takeWhile (fun c => decide (c ≠ separator)) = [] := rfl
  simp only [shortName, String.toList_append, String.toList_singleton, List.singleton_append,
    List.reverse_cons, List.takeWhile_append, hend, List.append_nil]
  split
  · next h => rw [(List.takeWhile_prefix _).eq_of_length h]
  · rfl

/-- Two spellings of a name lead to one name in the root namespace, unless one of them has two
separators and the other has one. -/
theorem rootFallback_eq_or {n m : String} (h : normalize n = normalize m) :
    rootFallback n = rootFallback m ∨
      (depth n = 2 ∧ depth m = 1) ∨ (depth n = 1 ∧ depth m = 2) := by
  have hspelling (x : String) : rootFallback (String.singleton separator ++ x) = rootFallback x ∨
      (depth (String.singleton separator ++ x) = 2 ∧ depth x = 1) := by
    rw [rootFallback, rootFallback, depth_separator_append, shortName_separator_append]
    by_cases hx : depth x = 1
    · exact .inr ⟨by rw [hx], hx⟩
    · have hdepth : 1 < depth x + 1 ↔ 1 < depth x := by omega
      exact .inl (by simp only [hdepth])
  rw [normalize, normalize] at h
  obtain hn | hn := eq_dropLeading_or separator n <;>
    obtain hm | hm := eq_dropLeading_or separator m <;> rw [hn, hm, h]
  · exact .inl rfl
  · exact (hspelling _).imp Eq.symm fun hdepth => .inr hdepth.symm
  · exact (hspelling _).imp_right .inl
  · exact .inl rfl

end SymbolicTypes.Naming
