import SymbolicTypes.Proofs.SymType.Grammar

namespace SymbolicTypes.SymType

/-- Digits without the zeros before them; the last digit stays. -/
def dropZeros : List Char → List Char
  | '0' :: d :: ds => dropZeros (d :: ds)
  | ds => ds

/-- A numeral without its `+` and without leading zeros. -/
def shortestNumeral (word : List Char) : List Char :=
  dropZeros (if word.head? = some '+' then word.tail else word)

theorem digitChar_of_isDigit {d : Char} (hd : d.isDigit = true) :
    d.toNat - '0'.toNat < 10 ∧ Nat.digitChar (d.toNat - '0'.toNat) = d := by
  have hzero : '0'.toNat = 48 := rfl
  have hnine : '9'.toNat = 57 := rfl
  obtain ⟨hle, hge⟩ := Char.isDigit_iff_toNat.mp hd
  have hlt : d.toNat - '0'.toNat < 10 := by omega
  refine ⟨hlt, Char.toNat_inj.mp ?_⟩
  rw [Nat.toNat_digitChar_of_lt_ten hlt]
  omega

theorem toDigits_ofDigitChars {ds : List Char} (hds : ∀ d ∈ ds, d.isDigit = true) {n : Nat}
    (hn : 0 < n) : Nat.toDigits 10 (Nat.ofDigitChars 10 ds n) = Nat.toDigits 10 n ++ ds := by
  induction ds generalizing n with
  | nil => simp
  | cons d ds ih =>
    obtain ⟨hd, hds⟩ := List.forall_mem_cons.mp hds
    obtain ⟨hlt, hdigit⟩ := digitChar_of_isDigit hd
    have hstep := Nat.toDigits_append_toDigits (by decide) hn hlt
    rw [Nat.toDigits_of_lt_base hlt, hdigit] at hstep
    rw [Nat.ofDigitChars_cons, ih hds (by omega), ← hstep, List.append_assoc,
      List.singleton_append]

theorem toDigits_decimal {ds : List Char} (hne : ds ≠ []) (hds : ∀ d ∈ ds, d.isDigit = true) :
    Nat.toDigits 10 (decimal ds) = dropZeros ds := by
  rw [decimal, ← Nat.ofDigitChars_eq_foldl]
  induction ds using dropZeros.induct with
  | case1 d ds ih =>
    rw [Nat.ofDigitChars_cons, dropZeros]
    exact ih (by simp) (List.forall_mem_cons.mp hds).2
  | case2 ds hzero =>
    rw [dropZeros.eq_2 ds hzero]
    cases ds with
    | nil => exact absurd rfl hne
    | cons d ds =>
      obtain ⟨hd, hds⟩ := List.forall_mem_cons.mp hds
      obtain ⟨hlt, hdigit⟩ := digitChar_of_isDigit hd
      rw [Nat.ofDigitChars_cons, Nat.mul_zero, Nat.zero_add]
      obtain hz | hpos := Nat.eq_zero_or_pos (d.toNat - '0'.toNat)
      · -- a zero that is not dropped stands alone
        rw [hz] at hdigit ⊢
        subst hdigit
        cases ds with
        | nil => rfl
        | cons e ds => exact absurd rfl (hzero e ds)
      · rw [toDigits_ofDigitChars hds hpos, Nat.toDigits_of_lt_base hlt, hdigit,
          List.singleton_append]

theorem Numeral.toDigits_eq {word : List Char} {i : UInt64} (h : Numeral word i) :
    Nat.toDigits 10 i.toNat = shortestNumeral word := by
  obtain ⟨ds, hword, hne, hds, hi⟩ := h
  have hplus : ds.head? ≠ some '+' := by
    intro hhead
    exact absurd (hds '+' (List.mem_of_mem_head? hhead)) (by decide)
  rw [← hi, toDigits_decimal hne hds, shortestNumeral]
  obtain rfl | rfl := hword
  · rw [if_neg hplus]
  · rw [if_pos List.head?_cons, List.tail_cons]

theorem decimal_dropZeros (ds : List Char) : decimal (dropZeros ds) = decimal ds := by
  induction ds using dropZeros.induct with
  | case1 d ds ih => exact ih
  | case2 ds hzero => rw [dropZeros.eq_2 ds hzero]

theorem mem_dropZeros_or {d : Char} {ds : List Char} (hd : d ∈ ds) :
    d ∈ dropZeros ds ∨ d = '0' := by
  induction ds using dropZeros.induct with
  | case1 e ds ih =>
    obtain rfl | hd := List.mem_cons.mp hd
    · exact .inr rfl
    · exact ih hd
  | case2 ds hzero =>
    rw [dropZeros.eq_2 ds hzero]
    exact .inl hd

/-- The shortest form tells which number a numeral stands for, and that it is a numeral. -/
theorem Numeral.of_shortestNumeral_eq {v w : List Char} {i : UInt64} (h : Numeral v i)
    (heq : shortestNumeral v = shortestNumeral w) : Numeral w i := by
  obtain ⟨ds, hds, hdrop⟩ : ∃ ds, (w = ds ∨ w = '+' :: ds) ∧ shortestNumeral w = dropZeros ds := by
    unfold shortestNumeral
    by_cases hplus : w.head? = some '+'
    · obtain ⟨ds, rfl⟩ := List.head?_eq_some_iff.mp hplus
      exact ⟨ds, .inr rfl, by simp⟩
    · exact ⟨w, .inl rfl, by rw [if_neg hplus]⟩
  have hdigits : Nat.toDigits 10 i.toNat = dropZeros ds := by rw [h.toDigits_eq, heq, hdrop]
  refine ⟨ds, hds, ?_, ?_, ?_⟩
  · rintro rfl
    exact Nat.toDigits_ne_nil hdigits
  · intro d hd
    obtain hd | rfl := mem_dropZeros_or hd
    · rw [← hdigits] at hd
      exact Nat.isDigit_of_mem_toDigits (by decide) (by decide) hd
    · decide
  · rw [← decimal_dropZeros, ← hdigits, decimal, ← Nat.ofDigitChars_eq_foldl,
      Nat.ofDigitChars_ten_toDigits]

theorem parseIndex_eq_of_shortestNumeral_eq {v w : List Char}
    (h : shortestNumeral v = shortestNumeral w) : parseIndex v = parseIndex w := by
  apply Option.ext
  intro i
  rw [parseIndex_eq_some_iff, parseIndex_eq_some_iff]
  exact ⟨fun hv => hv.of_shortestNumeral_eq h, fun hw => hw.of_shortestNumeral_eq h.symm⟩

end SymbolicTypes.SymType
