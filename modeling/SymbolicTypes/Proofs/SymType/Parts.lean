import SymbolicTypes.SymType.Basic

namespace SymbolicTypes.SymType

def inner? : SymType → Option SymType
  | arrayOf e | elementOf e => some e
  | methodOf r _ | propertyOf r _ => some r
  | _ => none

theorem exists_eq_named {t : SymType} (ht : t.isNamed = true) : ∃ n, t = named n := by
  cases t with
  | named n => exact ⟨n, rfl⟩
  | _ => cases ht

theorem ne_named {t : SymType} (ht : t.isNamed = false) (n : String) : t ≠ named n := by
  rintro rfl
  cases ht

theorem mem_indirections_self {t : SymType} (ht : t.isNamed = false) : t ∈ t.indirections := by
  have hparts : t ∈ t.parts := by cases t <;> exact List.mem_cons_self
  exact List.mem_filter.mpr ⟨hparts, by simp [ht]⟩

theorem sizeOf_le_of_mem_parts {t x : SymType} (h : x ∈ t.parts) : sizeOf x ≤ sizeOf t := by
  induction t with
  | arrayOf e ih | elementOf e ih | methodOf e m ih | propertyOf e m ih =>
    obtain rfl | h := List.mem_cons.mp h
    · exact Nat.le_refl _
    · have := ih h
      simp only [arrayOf.sizeOf_spec, elementOf.sizeOf_spec, methodOf.sizeOf_spec,
        propertyOf.sizeOf_spec]
      omega
  | _ => exact Nat.le_of_eq (congrArg sizeOf (List.mem_singleton.mp h))

theorem sizeOf_le_of_mem_indirections {t x : SymType} (h : x ∈ t.indirections) :
    sizeOf x ≤ sizeOf t :=
  sizeOf_le_of_mem_parts (List.mem_filter.mp h).1

theorem not_mem_indirections_of_sizeOf_lt {t e : SymType} (h : sizeOf e < sizeOf t) :
    ¬ t ∈ e.indirections := by
  intro ht
  have := sizeOf_le_of_mem_indirections ht
  omega

theorem mem_parts_trans {t e x : SymType} (he : e ∈ t.parts) (hx : x ∈ e.parts) : x ∈ t.parts := by
  induction t with
  | arrayOf i ih | elementOf i ih | methodOf i m ih | propertyOf i m ih =>
    obtain rfl | he := List.mem_cons.mp he
    · exact hx
    · exact List.mem_cons_of_mem _ (ih he)
  | _ =>
    obtain rfl := List.mem_singleton.mp he
    exact hx

theorem mem_indirections_trans {t e x : SymType} (he : e ∈ t.indirections)
    (hx : x ∈ e.indirections) : x ∈ t.indirections := by
  obtain ⟨hx, hn⟩ := List.mem_filter.mp hx
  exact List.mem_filter.mpr ⟨mem_parts_trans (List.mem_filter.mp he).1 hx, hn⟩

theorem mem_parts_of_inner? {t e x : SymType} (he : e ∈ t.inner?) (hx : x ∈ e.parts) :
    x ∈ t.parts := by
  cases t with
  | arrayOf | elementOf | methodOf | propertyOf =>
    obtain rfl := Option.some.inj he
    exact List.mem_cons_of_mem _ hx
  | _ => cases he

theorem mem_indirections_of_inner? {t e x : SymType} (he : e ∈ t.inner?)
    (hx : x ∈ e.indirections) : x ∈ t.indirections := by
  obtain ⟨hx, hn⟩ := List.mem_filter.mp hx
  exact List.mem_filter.mpr ⟨mem_parts_of_inner? he hx, hn⟩

theorem inner_induction {P : SymType → Prop} (h : ∀ t, (∀ e ∈ t.inner?, P e) → P t)
    (t : SymType) : P t := by
  induction t with
  | arrayOf e ih | elementOf e ih | methodOf e m ih | propertyOf e p ih =>
    apply h
    rintro _ ⟨⟩
    exact ih
  | _ =>
    apply h
    rintro _ ⟨⟩

theorem isNamed_of_mem_indirections {t x : SymType} (h : x ∈ t.indirections) :
    x.isNamed = false := by
  simpa using (List.mem_filter.mp h).2

theorem isNamed_of_exists_mem_indirections {t x : SymType} (h : x ∈ t.indirections) :
    t.isNamed = false := by
  cases t with
  | named => cases h
  | _ => rfl

end SymbolicTypes.SymType
