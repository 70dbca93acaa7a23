import SymbolicTypes.SymType.Basic

namespace SymbolicTypes.SymType

def rank : SymType → Nat
  | named _ => 0
  | global _ => 1
  | constant _ => 2
  | arrayOf _ => 3
  | elementOf _ => 4
  | callOf _ => 5
  | methodOf _ _ => 6
  | propertyOf _ _ => 7
  | staticMethodOf _ _ => 8
  | staticPropertyOf _ _ => 9
  | interfaceParam _ _ _ => 10

/-- Types of one kind compare part by part, types of two kinds by the place of the kind. -/
def cmp : SymType → SymType → Ordering
  | named a, named b | global a, global b | constant a, constant b | callOf a, callOf b =>
    compare a b
  | arrayOf a, arrayOf b | elementOf a, elementOf b => cmp a b
  | methodOf a m, methodOf b n | propertyOf a m, propertyOf b n => (cmp a b).then (compare m n)
  | staticMethodOf a m, staticMethodOf b n | staticPropertyOf a m, staticPropertyOf b n =>
    (compare a b).then (compare m n)
  | interfaceParam i a m, interfaceParam j b n =>
    (compare i j).then ((compare a b).then (compare m n))
  | a, b => compare a.rank b.rank

instance : Ord SymType := ⟨cmp⟩

inductive SameKind : SymType → SymType → Prop
  | named (a b) : SameKind (named a) (named b)
  | global (a b) : SameKind (global a) (global b)
  | constant (a b) : SameKind (constant a) (constant b)
  | arrayOf (a b) : SameKind (arrayOf a) (arrayOf b)
  | elementOf (a b) : SameKind (elementOf a) (elementOf b)
  | callOf (a b) : SameKind (callOf a) (callOf b)
  | methodOf (a b m n) : SameKind (methodOf a m) (methodOf b n)
  | propertyOf (a b m n) : SameKind (propertyOf a m) (propertyOf b n)
  | staticMethodOf (a b m n) : SameKind (staticMethodOf a m) (staticMethodOf b n)
  | staticPropertyOf (a b m n) : SameKind (staticPropertyOf a m) (staticPropertyOf b n)
  | interfaceParam (i j a b m n) : SameKind (interfaceParam i a m) (interfaceParam j b n)

theorem sameKind_of_rank_eq {a b : SymType} (h : a.rank = b.rank) : SameKind a b := by
  cases a <;> cases b <;> first | constructor | simp [rank] at h

theorem cmp_of_rank_ne {a b : SymType} (h : a.rank ≠ b.rank) : cmp a b = compare a.rank b.rank := by
  cases a <;> cases b <;> first | rfl | exact absurd rfl h

theorem rank_le_of_cmp_isLE {a b : SymType} (h : (cmp a b).isLE) : a.rank ≤ b.rank := by
  by_cases hr : a.rank = b.rank
  · omega
  · rw [cmp_of_rank_ne hr] at h
    exact Nat.isLE_compare.1 h

theorem sameKind_of_cmp_eq {a b : SymType} (h : cmp a b = .eq) : SameKind a b := by
  refine sameKind_of_rank_eq (Decidable.byContradiction fun hr => hr ?_)
  rw [cmp_of_rank_ne hr] at h
  exact Nat.compare_eq_eq.1 h

theorem cmp_self (a : SymType) : cmp a a = .eq := by
  induction a <;> simp_all [cmp, Std.ReflOrd.compare_self]

theorem eq_of_cmp {a b : SymType} (h : cmp a b = .eq) : a = b := by
  induction a generalizing b with
  | named x | global x | constant x | callOf x =>
    cases sameKind_of_cmp_eq h
    exact congrArg _ (Std.LawfulEqOrd.eq_of_compare h)
  | arrayOf e ih | elementOf e ih =>
    cases sameKind_of_cmp_eq h
    rw [cmp] at h
    exact congrArg _ (ih h)
  | methodOf r m ih | propertyOf r m ih =>
    cases sameKind_of_cmp_eq h
    obtain ⟨h, hm⟩ := Ordering.then_eq_eq.1 h
    rw [ih h, Std.LawfulEqOrd.eq_of_compare hm]
  | staticMethodOf c m | staticPropertyOf c m =>
    cases sameKind_of_cmp_eq h
    obtain ⟨h, hm⟩ := Ordering.then_eq_eq.1 h
    rw [Std.LawfulEqOrd.eq_of_compare h, Std.LawfulEqOrd.eq_of_compare hm]
  | interfaceParam i c m =>
    cases sameKind_of_cmp_eq h
    obtain ⟨hi, h⟩ := Ordering.then_eq_eq.1 h
    obtain ⟨h, hm⟩ := Ordering.then_eq_eq.1 h
    rw [Std.LawfulEqOrd.eq_of_compare hi, Std.LawfulEqOrd.eq_of_compare h,
      Std.LawfulEqOrd.eq_of_compare hm]

theorem swap_of_sameKind {a b : SymType} (h : SameKind a b → cmp a b = (cmp b a).swap) :
    cmp a b = (cmp b a).swap := by
  by_cases hr : a.rank = b.rank
  · exact h (sameKind_of_rank_eq hr)
  · rw [cmp_of_rank_ne hr, cmp_of_rank_ne (Ne.symm hr)]
    exact Std.OrientedCmp.eq_swap

theorem cmp_eq_swap (a b : SymType) : cmp a b = (cmp b a).swap := by
  have swap (x y : String) : compare x y = (compare y x).swap := Std.OrientedCmp.eq_swap
  have swap' (x y : UInt64) : compare x y = (compare y x).swap := Std.OrientedCmp.eq_swap
  induction a generalizing b with
  | named x | global x | constant x | callOf x =>
    refine swap_of_sameKind fun hab => ?_
    cases hab
    exact swap _ _
  | arrayOf e ih | elementOf e ih =>
    refine swap_of_sameKind fun hab => ?_
    cases hab
    exact ih _
  | methodOf r m ih | propertyOf r m ih =>
    refine swap_of_sameKind fun hab => ?_
    cases hab
    rw [cmp, cmp, Ordering.swap_then, ← ih, ← swap]
  | staticMethodOf c m | staticPropertyOf c m =>
    refine swap_of_sameKind fun hab => ?_
    cases hab
    rw [cmp, cmp, Ordering.swap_then, ← swap, ← swap]
  | interfaceParam i c m =>
    refine swap_of_sameKind fun hab => ?_
    cases hab
    rw [cmp, cmp, Ordering.swap_then, Ordering.swap_then, ← swap', ← swap, ← swap]

/-- Where two lexicographic steps lead upward, so does their composition, provided the first parts
are equal only when nothing happened between them. -/
theorem then_isLE_trans {o₁ o₂ o₃ p₁ p₂ p₃ : Ordering}
    (trans : o₁.isLE → o₂.isLE → o₃.isLE) (tight : o₃ = .eq → o₂ = o₁.swap)
    (trans' : p₁.isLE → p₂.isLE → p₃.isLE)
    (h₁ : (o₁.then p₁).isLE) (h₂ : (o₂.then p₂).isLE) : (o₃.then p₃).isLE := by
  rw [Ordering.isLE_then_iff_or] at h₁ h₂ ⊢
  have strict (h : o₃.isLE) (hne : o₂ ≠ o₁.swap) : o₃ = .lt := by
    cases o₃ with
    | lt => rfl
    | eq => exact absurd (tight rfl) hne
    | gt => exact absurd h (by decide)
  rcases h₁ with rfl | ⟨rfl, h₁⟩ <;> rcases h₂ with rfl | ⟨rfl, h₂⟩
  · exact .inl (strict (trans rfl rfl) (by decide))
  · exact .inl (strict (trans rfl rfl) (by decide))
  · exact .inl (strict (trans rfl rfl) (by decide))
  · have h₃ := trans rfl rfl
    cases o₃ with
    | lt => exact .inl rfl
    | eq => exact .inr ⟨rfl, trans' h₁ h₂⟩
    | gt => exact absurd h₃ (by decide)

theorem compare_then_isLE_trans {α : Type} [Ord α] [Std.TransOrd α] [Std.LawfulEqOrd α] {a b c : α}
    {p₁ p₂ p₃ : Ordering} (trans' : p₁.isLE → p₂.isLE → p₃.isLE)
    (h₁ : ((compare a b).then p₁).isLE) (h₂ : ((compare b c).then p₂).isLE) :
    ((compare a c).then p₃).isLE := by
  refine then_isLE_trans Std.TransCmp.isLE_trans (fun h => ?_) trans' h₁ h₂
  rw [Std.LawfulEqOrd.eq_of_compare h]
  exact Std.OrientedCmp.eq_swap

theorem isLE_of_sameKind {a b c : SymType} (h₁ : (cmp a b).isLE) (h₂ : (cmp b c).isLE)
    (h : SameKind a b → SameKind a c → (cmp a c).isLE) : (cmp a c).isLE := by
  have hab := rank_le_of_cmp_isLE h₁
  have hbc := rank_le_of_cmp_isLE h₂
  by_cases hac : a.rank = c.rank
  · exact h (sameKind_of_rank_eq (by omega)) (sameKind_of_rank_eq hac)
  · rw [cmp_of_rank_ne hac]
    exact Nat.isLE_compare.2 (by omega)

theorem cmp_isLE_trans {a b c : SymType} (h₁ : (cmp a b).isLE) (h₂ : (cmp b c).isLE) :
    (cmp a c).isLE := by
  have names {x y z : String} (h : (compare x y).isLE) (h' : (compare y z).isLE) :
      (compare x z).isLE := Std.TransCmp.isLE_trans h h'
  induction a generalizing b c with
  | named x | global x | constant x | callOf x =>
    refine isLE_of_sameKind h₁ h₂ fun hab hac => ?_
    cases hab
    cases hac
    exact names h₁ h₂
  | arrayOf e ih | elementOf e ih =>
    refine isLE_of_sameKind h₁ h₂ fun hab hac => ?_
    cases hab
    cases hac
    exact ih h₁ h₂
  | methodOf r m ih | propertyOf r m ih =>
    refine isLE_of_sameKind h₁ h₂ fun hab hac => ?_
    cases hab
    cases hac
    refine then_isLE_trans ih (fun h => ?_) names h₁ h₂
    rw [eq_of_cmp h]
    exact cmp_eq_swap _ _
  | staticMethodOf c m | staticPropertyOf c m =>
    refine isLE_of_sameKind h₁ h₂ fun hab hac => ?_
    cases hab
    cases hac
    exact compare_then_isLE_trans names h₁ h₂
  | interfaceParam i c m =>
    refine isLE_of_sameKind h₁ h₂ fun hab hac => ?_
    cases hab
    cases hac
    exact compare_then_isLE_trans (compare_then_isLE_trans names) h₁ h₂

instance : Std.TransOrd SymType where
  eq_swap := cmp_eq_swap _ _
  isLE_trans := cmp_isLE_trans

instance : Std.LawfulEqOrd SymType where
  compare_self := cmp_self _
  eq_of_compare := eq_of_cmp

end SymbolicTypes.SymType
