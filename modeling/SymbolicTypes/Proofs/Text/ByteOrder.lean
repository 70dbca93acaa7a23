import Mathlib.Tactic.SplitIfs

namespace SymbolicTypes.Text

/-- A text as it is stored. -/
def bytes (s : String) : List UInt8 := s.toByteArray.data.toList

theorem bytes_eq_flatMap (s : String) : bytes s = s.toList.flatMap String.utf8EncodeChar := by
  conv => lhs; rw [← String.ofList_toList (s := s)]
  exact List.toList_data_toByteArray

theorem toNat_val_lt (c : Char) : c.val.toNat < 0x110000 := by
  obtain h | h := c.valid <;> omega

theorem div_lt_div_or_mod_lt_mod (k : Nat) {v w : Nat} (h : v < w) :
    v / k < w / k ∨ v / k = w / k ∧ v % k < w % k := by
  obtain h' | h' := Nat.lt_or_eq_of_le (Nat.div_le_div_right (c := k) (Nat.le_of_lt h))
  · exact .inl h'
  · have hv := Nat.div_add_mod v k
    have hw := Nat.div_add_mod w k
    rw [h'] at hv
    exact .inr ⟨h', by omega⟩

/-- Of two characters the smaller has the smaller bytes, whatever comes after them: neither of the
two sequences is the beginning of the other. -/
theorem utf8EncodeChar_append_lt {c d : Char} (h : c < d) (l m : List UInt8) :
    String.utf8EncodeChar c ++ l < String.utf8EncodeChar d ++ m := by
  have hcd : c.val.toNat < d.val.toNat := h
  have hd := toNat_val_lt d
  simp only [String.utf8EncodeChar]
  generalize c.val.toNat = v at *
  generalize d.val.toNat = w at *
  -- the bytes of a character are its digits to the base 64, the first with the length added
  have hlast := div_lt_div_or_mod_lt_mod 64 hcd
  have hthird := fun h => div_lt_div_or_mod_lt_mod 64 (v := v / 64) (w := w / 64) h
  have hsecond := fun h => div_lt_div_or_mod_lt_mod 64 (v := v / 4096) (w := w / 4096) h
  simp only [Nat.div_div_eq_div_mul, Nat.reduceMul] at hthird hsecond
  have hdigit (x : Nat) : (x % 64 + 128) % 256 = x % 64 + 128 := by omega
  have hfirst (x : Nat) : (x % 8 + 240) % 256 = x % 8 + 240 := by omega
  have hv : v / 262144 % 8 = v / 262144 := by omega
  have hw : w / 262144 % 8 = w / 262144 := by omega
  split_ifs <;>
    simp only [List.cons_append, List.nil_append, List.cons_lt_cons_iff, UInt8.lt_iff_toNat_lt,
      ← UInt8.toNat_inj, UInt8.toNat_ofNat', Nat.reducePow, hdigit, hfirst] <;>
    omega

theorem bytes_lt_bytes {s t : String} (h : compare s t = .lt) : bytes s < bytes t := by
  have hlt (l m : List Char) (h : l < m) :
      l.flatMap String.utf8EncodeChar < m.flatMap String.utf8EncodeChar := by
    induction l generalizing m with
    | nil =>
      cases m with
      | nil => exact absurd h (List.lt_irrefl [])
      | cons d m =>
        obtain ⟨b, l, hd⟩ := List.exists_cons_of_ne_nil String.utf8EncodeChar_ne_nil
        rw [List.flatMap_nil, List.flatMap_cons, hd]
        exact List.nil_lt_cons b _
    | cons c l ih =>
      cases m with
      | nil => exact absurd h (List.not_lt_nil _)
      | cons d m =>
        rw [List.flatMap_cons, List.flatMap_cons]
        obtain hcd | ⟨rfl, hlm⟩ := List.cons_lt_cons_iff.mp h
        · exact utf8EncodeChar_append_lt hcd _ _
        · exact List.append_left_lt (ih m hlm)
  have hst : s < t := compareOfLessAndEq_eq_lt.mp h
  rw [bytes_eq_flatMap, bytes_eq_flatMap]
  exact hlt s.toList t.toList hst

theorem bytes_lt_bytes_iff {s t : String} : bytes s < bytes t ↔ compare s t = .lt := by
  refine ⟨fun h => ?_, bytes_lt_bytes⟩
  cases hst : compare s t with
  | lt => rfl
  | eq =>
    rw [Std.LawfulEqOrd.eq_of_compare hst] at h
    exact absurd h (List.lt_irrefl _)
  | gt => exact absurd h (List.lt_asymm (bytes_lt_bytes (Std.OrientedCmp.gt_iff_lt.mp hst)))

end SymbolicTypes.Text
