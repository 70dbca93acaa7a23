import SymbolicTypes.Proofs.SymType.Parts
import SymbolicTypes.Proofs.Text.ByteOrder
import SymbolicTypes.SymType.Order

namespace SymbolicTypes.SymType

inductive Field
  | type (t : SymType)
  | index (i : UInt64)
  | text (s : String)

/-- What a type is made of, in the order of its declaration. -/
def fields : SymType → List Field
  | named n | global n | constant n | callOf n => [.text n]
  | arrayOf e | elementOf e => [.type e]
  | methodOf r m | propertyOf r m => [.type r, .text m]
  | staticMethodOf c m | staticPropertyOf c m => [.text c, .text m]
  | interfaceParam i c m => [.index i, .text c, .text m]

mutual

/-- Of two types of different kinds the one whose kind is declared earlier comes first; of two types
of one kind the first field in which they differ decides. -/
inductive Precedes : SymType → SymType → Prop
  | kind {a b} (h : a.rank < b.rank) : Precedes a b
  | field {a b} {same rest rest' : List Field} {x y : Field} (hrank : a.rank = b.rank)
      (ha : a.fields = same ++ x :: rest) (hb : b.fields = same ++ y :: rest')
      (h : x.Precedes y) : Precedes a b

inductive Field.Precedes : Field → Field → Prop
  | type {t u} (h : SymType.Precedes t u) : Field.Precedes (.type t) (.type u)
  | index {i j} (h : i.toNat < j.toNat) : Field.Precedes (.index i) (.index j)
  | text {s t} (h : Text.bytes s < Text.bytes t) : Field.Precedes (.text s) (.text t)

end

/-- The fields that stand in one place of the types of one kind are of one kind themselves. -/
def Field.cmp : Field → Field → Ordering
  | type t, type u => SymType.cmp t u
  | index i, index j => compare i j
  | text s, text t => compare s t
  | _, _ => .gt

theorem Field.cmp_eq_eq_iff {x y : Field} : x.cmp y = .eq ↔ x = y := by
  cases x with
  | type t =>
    cases y with
    | type u =>
      rw [Field.cmp, Field.type.injEq]
      refine ⟨eq_of_cmp, ?_⟩
      rintro rfl
      exact cmp_self t
    | _ => simp [Field.cmp]
  | index i | text i => cases y <;> simp [Field.cmp]

theorem cmp_eq_compareLex {a b : SymType} (h : a.rank = b.rank) :
    cmp a b = List.compareLex Field.cmp a.fields b.fields := by
  cases sameKind_of_rank_eq h <;>
    simp [cmp, fields, List.compareLex_cons_cons, List.compareLex_nil_nil, Field.cmp]

theorem length_fields {a b : SymType} (h : a.rank = b.rank) :
    a.fields.length = b.fields.length := by
  cases sameKind_of_rank_eq h <;> rfl

theorem compareLex_eq_lt_iff {α : Type} {cmp : α → α → Ordering}
    (heq : ∀ {x y}, cmp x y = .eq ↔ x = y) {l m : List α} (hlen : l.length = m.length) :
    List.compareLex cmp l m = .lt ↔
      ∃ same x y rest rest', l = same ++ x :: rest ∧ m = same ++ y :: rest' ∧ cmp x y = .lt := by
  induction l generalizing m with
  | nil => simp [List.eq_nil_of_length_eq_zero hlen.symm, List.compareLex_nil_nil]
  | cons x l ih =>
    obtain ⟨y, m, rfl⟩ := List.exists_cons_of_length_eq_add_one hlen.symm
    rw [List.compareLex_cons_cons, Ordering.then_eq_lt, ih (Nat.succ.inj hlen), heq]
    constructor
    · rintro (h | ⟨rfl, same, x', y', rest, rest', rfl, rfl, h⟩)
      · exact ⟨[], x, y, l, m, rfl, rfl, h⟩
      · exact ⟨x :: same, x', y', rest, rest', rfl, rfl, h⟩
    · rintro ⟨same, x', y', rest, rest', hl, hm, h⟩
      cases same with
      | nil =>
        obtain ⟨rfl, -⟩ := List.cons.inj hl
        obtain ⟨rfl, -⟩ := List.cons.inj hm
        exact .inl h
      | cons z same =>
        obtain ⟨rfl, rfl⟩ := List.cons.inj hl
        obtain ⟨rfl, rfl⟩ := List.cons.inj hm
        exact .inr ⟨rfl, same, x', y', rest, rest', rfl, rfl, h⟩

theorem Field.cmp_eq_lt_iff {x y : Field}
    (h : ∀ t u, x = .type t → (SymType.cmp t u = .lt ↔ SymType.Precedes t u)) :
    x.cmp y = .lt ↔ x.Precedes y := by
  cases x with
  | type t =>
    cases y with
    | type u =>
      rw [Field.cmp, h t u rfl]
      exact ⟨.type, fun (.type h) => h⟩
    | _ => exact ⟨fun h => (nomatch h), fun h => nomatch h⟩
  | index i =>
    cases y with
    | index j =>
      rw [Field.cmp]
      exact compareOfLessAndEq_eq_lt.trans ⟨.index, fun (.index h) => h⟩
    | _ => exact ⟨fun h => (nomatch h), fun h => nomatch h⟩
  | text s =>
    cases y with
    | text t =>
      rw [Field.cmp, ← Text.bytes_lt_bytes_iff]
      exact ⟨.text, fun (.text h) => h⟩
    | _ => exact ⟨fun h => (nomatch h), fun h => nomatch h⟩

theorem inner?_of_mem_fields {a t : SymType} (h : .type t ∈ a.fields) : t ∈ a.inner? := by
  cases a <;> simp_all [fields, inner?]

theorem precedes_iff {a b : SymType} :
    Precedes a b ↔ a.rank < b.rank ∨ a.rank = b.rank ∧
      ∃ same x y rest rest', a.fields = same ++ x :: rest ∧ b.fields = same ++ y :: rest' ∧
        x.Precedes y := by
  constructor
  · rintro (h | ⟨hrank, ha, hb, h⟩)
    · exact .inl h
    · exact .inr ⟨hrank, _, _, _, _, _, ha, hb, h⟩
  · rintro (h | ⟨hrank, _, _, _, _, _, ha, hb, h⟩)
    · exact .kind h
    · exact .field hrank ha hb h

/-- The order of types that sets of them are kept in. -/
theorem compare_eq_lt_iff_precedes {a b : SymType} : compare a b = .lt ↔ Precedes a b := by
  change cmp a b = .lt ↔ _
  induction a using inner_induction generalizing b with
  | h a ih =>
    rw [precedes_iff]
    by_cases hrank : a.rank = b.rank
    · have hfield {x y : Field} (hx : x ∈ a.fields) : x.cmp y = .lt ↔ x.Precedes y := by
        apply Field.cmp_eq_lt_iff
        rintro t u rfl
        exact ih t (inner?_of_mem_fields hx)
      rw [cmp_eq_compareLex hrank, compareLex_eq_lt_iff Field.cmp_eq_eq_iff (length_fields hrank),
        or_iff_right (by omega), and_iff_right hrank]
      constructor
      · rintro ⟨same, x, y, rest, rest', ha, hb, h⟩
        exact ⟨same, x, y, rest, rest', ha, hb, (hfield (by simp [ha])).mp h⟩
      · rintro ⟨same, x, y, rest, rest', ha, hb, h⟩
        exact ⟨same, x, y, rest, rest', ha, hb, (hfield (by simp [ha])).mpr h⟩
    · rw [cmp_of_rank_ne hrank, Nat.compare_eq_lt]
      exact (or_iff_left fun h => hrank h.1).symm

theorem compare_eq_gt_iff_precedes {a b : SymType} : compare a b = .gt ↔ Precedes b a :=
  Std.OrientedCmp.gt_iff_lt.trans compare_eq_lt_iff_precedes

theorem Precedes.trans {a b c : SymType} (hab : Precedes a b) (hbc : Precedes b c) :
    Precedes a c := by
  rw [← compare_eq_lt_iff_precedes] at hab hbc ⊢
  exact Std.TransCmp.lt_trans hab hbc

theorem Precedes.asymm {a b : SymType} (h : Precedes a b) : ¬ Precedes b a := by
  rw [← compare_eq_lt_iff_precedes] at h
  rw [← compare_eq_gt_iff_precedes, h]
  decide

theorem Precedes.ne {a b : SymType} (h : Precedes a b) : a ≠ b := by
  rintro rfl
  exact h.asymm h

theorem precedes_or_eq_or_precedes (a b : SymType) : Precedes a b ∨ a = b ∨ Precedes b a := by
  cases h : compare a b with
  | lt => exact .inl (compare_eq_lt_iff_precedes.mp h)
  | eq => exact .inr (.inl (Std.LawfulEqOrd.eq_of_compare h))
  | gt => exact .inr (.inr (compare_eq_gt_iff_precedes.mp h))

theorem rank_eq_ctorIdx (t : SymType) : t.rank = t.ctorIdx := by
  cases t <;> rfl

/-- Comparison decides the order of types, which is strict, total and transitive: two types that
differ precede each other in one direction, and not in the other. -/
theorem compare_decides_precedes (a b c : SymType) :
    (compare a b = .lt ↔ Precedes a b) ∧ (compare a b = .eq ↔ a = b) ∧
      (compare a b = .gt ↔ Precedes b a) ∧ (a.ctorIdx < b.ctorIdx → Precedes a b) ∧
      (Precedes a b ∧ a ≠ b ∧ ¬ Precedes b a ∨ ¬ Precedes a b ∧ a = b ∧ ¬ Precedes b a ∨
        ¬ Precedes a b ∧ a ≠ b ∧ Precedes b a) ∧
      (Precedes a b → Precedes b c → Precedes a c) := by
  refine ⟨compare_eq_lt_iff_precedes, Std.LawfulEqCmp.compare_eq_iff_eq,
    compare_eq_gt_iff_precedes, fun h => ?_, ?_, Precedes.trans⟩
  · rw [← rank_eq_ctorIdx, ← rank_eq_ctorIdx] at h
    exact .kind h
  · obtain h | rfl | h := precedes_or_eq_or_precedes a b
    · exact .inl ⟨h, h.ne, h.asymm⟩
    · exact .inr (.inl ⟨fun h => h.ne rfl, rfl, fun h => h.ne rfl⟩)
    · exact .inr (.inr ⟨h.asymm, h.ne.symm, h⟩)

def factor (index : UInt64) : SymType := .interfaceParam index "Shape" "scale"

/-- Positions compare as numbers, `9` before `10`, and texts by their bytes, `EF BF BF` before
`F0 9F 98 80`. -/
theorem compare_decides_precedes_factors :
    compare (propertyOf (factor 9) "unit") (propertyOf (factor 10) "\uffff") = .lt ∧
    compare (propertyOf (factor 10) "\uffff") (propertyOf (factor 10) "😀") = .lt ∧
    Precedes (propertyOf (factor 9) "unit") (propertyOf (factor 10) "😀") := by
  have hab : compare (propertyOf (factor 9) "unit") (propertyOf (factor 10) "\uffff") = .lt := by
    decide +kernel
  have hbc : compare (propertyOf (factor 10) "\uffff") (propertyOf (factor 10) "😀") = .lt := by
    decide +kernel
  obtain ⟨hlt, -, -, -, -, htrans⟩ := compare_decides_precedes (propertyOf (factor 9) "unit")
    (propertyOf (factor 10) "\uffff") (propertyOf (factor 10) "😀")
  exact ⟨hab, hbc, htrans (hlt.mp hab) (compare_eq_lt_iff_precedes.mp hbc)⟩

end SymbolicTypes.SymType
