import Mathlib.Tactic.SplitIfs
import SymbolicTypes.Json.Quoted

namespace SymbolicTypes.Json

theorem hexValue_hexDigit : ∀ n < 16, Text.hexValue (hexDigit n) = some n := by
  decide

theorem scanUnits_backslash {c d : Char} (h : unescape c = some d) (rest : List Char) :
    scanUnits ('\\' :: c :: rest) = (scanUnits rest).map fun p => (d.toNat :: p.1, p.2) := by
  have hu : c ≠ 'u' := by
    rintro rfl
    cases h
  rw [scanUnits.eq_def]
  split
  · next heq => cases heq
  · next heq => exact absurd (List.cons.inj heq).1 (by decide)
  · next heq => exact absurd (List.cons.inj (List.cons.inj heq).2).1 hu
  · next heq =>
    obtain ⟨rfl, rfl⟩ := List.cons.inj (List.cons.inj heq).2
    rw [h]
    cases scanUnits rest <;> rfl
  · next hescape heq =>
    obtain ⟨rfl, rfl⟩ := List.cons.inj heq
    exact absurd rfl (hescape c rest rfl)

theorem scanUnits_plain {c : Char} (hquote : c ≠ '"') (hback : c ≠ '\\') (hlow : ¬ c.toNat < 32)
    (rest : List Char) :
    scanUnits (c :: rest) = (scanUnits rest).map fun p => (c.toNat :: p.1, p.2) := by
  have hallowed : ¬ (c.toNat < 32 ∨ c = '\\') := fun h => h.elim hlow hback
  rw [scanUnits.eq_def]
  split
  · next heq => cases heq
  · next heq => exact absurd (List.cons.inj heq).1 hquote
  · next heq => exact absurd (List.cons.inj heq).1 hback
  · next heq => exact absurd (List.cons.inj heq).1 hback
  · next heq =>
    obtain ⟨rfl, rfl⟩ := List.cons.inj heq
    rw [if_neg hallowed]
    cases scanUnits rest <;> rfl

theorem scanUnits_escapeChar (c : Char) (rest : List Char) :
    scanUnits (escapeChar c ++ rest) = (scanUnits rest).map fun p => (c.toNat :: p.1, p.2) := by
  unfold escapeChar
  split_ifs with h₁ h₂ h₃ h₄ h₅ h₆ h₇ hlow
  · subst h₁; exact scanUnits_backslash rfl rest
  · subst h₂; exact scanUnits_backslash rfl rest
  · subst h₃; exact scanUnits_backslash rfl rest
  · subst h₄; exact scanUnits_backslash rfl rest
  · subst h₅; exact scanUnits_backslash rfl rest
  · subst h₆; exact scanUnits_backslash rfl rest
  · subst h₇; exact scanUnits_backslash rfl rest
  · have hzero : Text.hexValue '0' = some 0 := by decide
    have hhigh := hexValue_hexDigit (c.toNat / 16) (by omega)
    have hunit := hexValue_hexDigit (c.toNat % 16) (Nat.mod_lt _ (by omega))
    have hc : c.toNat / 16 * 16 + c.toNat % 16 = c.toNat := by omega
    simp only [List.cons_append, List.nil_append, scanUnits, hhigh, hunit, hzero]
    cases scanUnits rest <;> simp [hc]
  · exact scanUnits_plain h₁ h₂ hlow rest

theorem scanUnits_escaped (cs rest : List Char) :
    scanUnits (cs.flatMap escapeChar ++ '"' :: rest) = some (cs.map Char.toNat, rest) := by
  induction cs with
  | nil => rfl
  | cons c cs ih =>
    rw [List.flatMap_cons, List.append_assoc, scanUnits_escapeChar, ih]
    rfl

/-- No character is half of a surrogate pair. -/
theorem joinUnits_toNat (cs : List Char) : joinUnits (cs.map Char.toNat) = some cs := by
  induction cs with
  | nil => rfl
  | cons c cs ih =>
    have hvalid := c.valid
    have hhigh : isHighSurrogate c.toNat = false := by
      simp only [isHighSurrogate, Char.toNat]
      simp only [UInt32.isValidChar, Nat.isValidChar] at hvalid
      grind
    have hlow : isLowSurrogate c.toNat = false := by
      simp only [isLowSurrogate, Char.toNat]
      simp only [UInt32.isValidChar, Nat.isValidChar] at hvalid
      grind
    rw [List.map_cons, joinUnits.eq_def]
    simp [hhigh, hlow, ih]

theorem scanString_quote (s : String) (rest : List Char) :
    scanString (s.toList.flatMap escapeChar ++ '"' :: rest) = some (some s, rest) := by
  rw [scanString, scanUnits_escaped, Option.map_some, joinUnits_toNat, Option.map_some,
    String.ofList_toList]

end SymbolicTypes.Json
