import SymbolicTypes.Proofs.SymType.Arguments
import SymbolicTypes.SymType.Decode

namespace SymbolicTypes.SymType

/-- A position is written in digits, with a `+` before them or without. -/
def Numeral (word : List Char) (i : UInt64) : Prop :=
  ∃ ds, (word = ds ∨ word = '+' :: ds) ∧ ds ≠ [] ∧ (∀ d ∈ ds, d.isDigit = true) ∧
    decimal ds = i.toNat

structure Name (a : List Char) : Prop where
  ne_nil : a ≠ []
  closed : Closed a

/-- The texts of a type. A plain name is any text that does not look like an indirection; an
indirection is its tag and its arguments. -/
inductive Denotes : List Char → SymType → Prop
  | named {a} (hne : a ≠ []) (hat : a.head? ≠ some '@') : Denotes a (named (String.ofList a))
  | global {a} (ha : Name a) : Denotes (tagged .global [a]) (global (String.ofList a))
  | constant {a} (ha : Name a) : Denotes (tagged .constant [a]) (constant (String.ofList a))
  | arrayOf {a e} (ha : Closed a) (he : Denotes a e) : Denotes (tagged .arrayOf [a]) (arrayOf e)
  | elementOf {a e} (ha : Closed a) (he : Denotes a e) :
      Denotes (tagged .elementOf [a]) (elementOf e)
  | callOf {a} (ha : Name a) : Denotes (tagged .call [a]) (callOf (String.ofList a))
  | methodOf {a b r} (ha : Closed a) (hr : Denotes a r) (hb : Name b) :
      Denotes (tagged .method [a, b]) (methodOf r (String.ofList b))
  | propertyOf {a b r} (ha : Closed a) (hr : Denotes a r) (hb : Name b) :
      Denotes (tagged .property [a, b]) (propertyOf r (String.ofList b))
  | staticMethodOf {a b} (ha : Name a) (hb : Name b) :
      Denotes (tagged .staticMethod [a, b]) (staticMethodOf (String.ofList a) (String.ofList b))
  | staticPropertyOf {a b} (ha : Name a) (hb : Name b) :
      Denotes (tagged .staticProperty [a, b])
        (staticPropertyOf (String.ofList a) (String.ofList b))
  | interfaceParam {a b c i} (hi : Numeral a i) (hb : Name b) (hc : Name c) :
      Denotes (tagged .interfaceParam [a, b, c])
        (interfaceParam i (String.ofList b) (String.ofList c))

theorem Numeral.closed {word : List Char} {i : UInt64} (h : Numeral word i) : Closed word := by
  obtain ⟨ds, hword, -, hds, -⟩ := h
  apply closed_of_plain
  have digit : ∀ d : Char, d.isDigit = true →
      isOpening d = false ∧ isClosing d = false ∧ d ≠ ',' := by
    intro d hd
    refine ⟨?_, ?_, ?_⟩
    · simp only [isOpening, Bool.or_eq_false_iff, beq_eq_false_iff_ne]
      refine ⟨⟨⟨?_, ?_⟩, ?_⟩, ?_⟩ <;> rintro rfl <;> exact absurd hd (by decide)
    · simp only [isClosing, Bool.or_eq_false_iff, beq_eq_false_iff_ne]
      refine ⟨⟨⟨?_, ?_⟩, ?_⟩, ?_⟩ <;> rintro rfl <;> exact absurd hd (by decide)
    · rintro rfl
      exact absurd hd (by decide)
  obtain rfl | rfl := hword
  · exact fun d hd => digit d (hds d hd)
  · intro d hd
    obtain rfl | hd := List.mem_cons.mp hd
    · decide
    · exact digit d (hds d hd)

theorem parseIndex_eq_some_iff {word : List Char} {i : UInt64} :
    parseIndex word = some i ↔ Numeral word i := by
  unfold parseIndex
  constructor
  · intro h
    by_cases hplus : word.head? = some '+'
    · obtain ⟨ds, rfl⟩ := List.head?_eq_some_iff.mp hplus
      simp only [List.head?_cons, if_true, List.tail_cons, List.all_eq_true] at h
      split at h
      · next hds =>
        refine ⟨ds, .inr rfl, hds.1, hds.2.1, ?_⟩
        rw [← Option.some_inj.mp h, UInt64.toNat_ofNat_of_lt' hds.2.2]
      · cases h
    · simp only [hplus, if_false, List.all_eq_true] at h
      split at h
      · next hds =>
        refine ⟨word, .inl rfl, hds.1, hds.2.1, ?_⟩
        rw [← Option.some_inj.mp h, UInt64.toNat_ofNat_of_lt' hds.2.2]
      · cases h
  · rintro ⟨ds, hword, hne, hds, hi⟩
    have hdigits : (if word.head? = some '+' then word.tail else word) = ds := by
      obtain rfl | rfl := hword
      · rw [if_neg]
        intro hplus
        exact absurd (hds '+' (List.mem_of_mem_head? hplus)) (by decide)
      · simp
    have hlt : decimal ds < 2 ^ 64 := hi ▸ i.toNat_lt
    simp only [hdigits, List.all_eq_true]
    rw [if_pos ⟨hne, hds, hlt⟩, hi, UInt64.ofNat_toNat]

theorem numeral_toDigits (i : UInt64) : Numeral (Nat.toDigits 10 i.toNat) i := by
  refine ⟨_, .inl rfl, Nat.toDigits_ne_nil, ?_, ?_⟩
  · intro d hd
    exact Nat.isDigit_of_mem_toDigits (by decide) (by decide) hd
  · rw [decimal, ← Nat.ofDigitChars_eq_foldl, Nat.ofDigitChars_ten_toDigits]

end SymbolicTypes.SymType
