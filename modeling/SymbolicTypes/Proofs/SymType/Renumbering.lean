import SymbolicTypes.Proofs.SymType.Numerals
import SymbolicTypes.Proofs.SymType.Survival
import SymbolicTypes.Proofs.SymType.Unambiguous

namespace SymbolicTypes.SymType

def Tag.takesNames : Tag → Bool
  | .global | .constant | .call | .staticMethod | .staticProperty => true
  | .arrayOf | .elementOf | .method | .property | .interfaceParam => false

/-- Two texts that differ in the numerals of positions alone, at any depth; one numeral stands for
the other by `R`. -/
inductive Renumbered (R : List Char → List Char → Prop) : List Char → List Char → Prop
  | name {a} (hat : a.head? ≠ some '@') : Renumbered R a a
  | names {a tag args} (ha : IsCall a tag args) (htag : tag.takesNames = true) : Renumbered R a a
  | inner {a b x y tag args} (ha : IsCall a tag (x :: args)) (hb : IsCall b tag (y :: args))
      (htag : tag.takesType = true) (h : Renumbered R x y) : Renumbered R a b
  | position {a b v w args} (ha : IsCall a .interfaceParam (v :: args))
      (hb : IsCall b .interfaceParam (w :: args)) (h : R v w) : Renumbered R a b

theorem Denotes.renumbered_encode {text : List Char} {t : SymType} (h : Denotes text t) :
    Renumbered (fun v w => w = shortestNumeral v) text t.encode := by
  induction h with
  | named hne hat => simpa [encode] using Renumbered.name hat
  | global ha | constant ha | callOf ha =>
    simpa [encode] using .names ⟨rfl, rfl, by simpa using ha.closed⟩ rfl
  | arrayOf ha he ih | elementOf ha he ih =>
    have hclosed := closed_encode (he.sound.2 (.inl ha))
    exact .inner ⟨rfl, rfl, by simpa using ha⟩ ⟨rfl, rfl, by simpa using hclosed⟩ rfl ih
  | methodOf ha hr hb ih | propertyOf ha hr hb ih =>
    have hclosed := closed_encode (hr.sound.2 (.inl ha))
    simp only [encode, String.toList_ofList]
    exact .inner ⟨rfl, rfl, by simpa using ⟨ha, hb.closed⟩⟩
      ⟨rfl, rfl, by simpa using ⟨hclosed, hb.closed⟩⟩ rfl ih
  | staticMethodOf ha hb | staticPropertyOf ha hb =>
    simpa [encode] using .names ⟨rfl, rfl, by simpa using ⟨ha.closed, hb.closed⟩⟩ rfl
  | @interfaceParam a b c i hi hb hc =>
    have hdigits := (numeral_toDigits i).closed
    simp only [encode, String.toList_ofList]
    exact .position ⟨rfl, rfl, by simpa using ⟨hi.closed, hb.closed, hc.closed⟩⟩
      ⟨rfl, rfl, by simpa using ⟨hdigits, hb.closed, hc.closed⟩⟩ hi.toDigits_eq

def tag? : SymType → Option Tag
  | named _ => none
  | global _ => some .global
  | constant _ => some .constant
  | arrayOf _ => some .arrayOf
  | elementOf _ => some .elementOf
  | callOf _ => some .call
  | methodOf _ _ => some .method
  | propertyOf _ _ => some .property
  | staticMethodOf _ _ => some .staticMethod
  | staticPropertyOf _ _ => some .staticProperty
  | interfaceParam _ _ _ => some .interfaceParam

theorem Denotes.eq_toList {text : List Char} {n : String} (h : Denotes text (SymType.named n)) :
    text = n.toList := by
  cases h with
  | named _ _ => simp

theorem Denotes.isCall_of_takesNames {text : List Char} {t : SymType} {tag : Tag}
    (h : Denotes text t) (ht : t.tag? = some tag) (htag : tag.takesNames = true) :
    IsCall text tag (t.ownNames.map String.toList) := by
  cases h with
  | global ha | constant ha | callOf ha =>
    cases ht
    exact ⟨by simp [ownNames], rfl, by simpa [ownNames] using ha.closed⟩
  | staticMethodOf ha hb | staticPropertyOf ha hb =>
    cases ht
    exact ⟨by simp [ownNames], rfl, by simpa [ownNames] using ⟨ha.closed, hb.closed⟩⟩
  | _ => cases ht <;> cases htag

theorem Denotes.isCall_of_inner {text : List Char} {t e : SymType} {tag : Tag} (h : Denotes text t)
    (ht : t.tag? = some tag) (he : t.inner? = some e) :
    ∃ x, Denotes x e ∧ IsCall text tag (x :: t.ownNames.map String.toList) := by
  cases h with
  | arrayOf ha hx | elementOf ha hx =>
    cases ht
    cases he
    exact ⟨_, hx, rfl, rfl, by simpa [ownNames] using ha⟩
  | methodOf ha hx hb | propertyOf ha hx hb =>
    cases ht
    cases he
    exact ⟨_, hx, by simp [ownNames], rfl, by simpa [ownNames] using ⟨ha, hb.closed⟩⟩
  | _ => cases he

theorem Denotes.isCall_of_position {text : List Char} {i : UInt64} {host method : String}
    (h : Denotes text (SymType.interfaceParam i host method)) :
    ∃ v, Numeral v i ∧ IsCall text .interfaceParam [v, host.toList, method.toList] := by
  cases h with
  | interfaceParam hi hb hc =>
    exact ⟨_, hi, by simp, rfl, by simpa using ⟨hi.closed, hb.closed, hc.closed⟩⟩

theorem Denotes.renumbered {a b : List Char} {t : SymType} (ha : Denotes a t) (hb : Denotes b t) :
    Renumbered (fun v w => shortestNumeral v = shortestNumeral w) a b := by
  induction t generalizing a b with
  | named n =>
    have hat := ha.head?_ne
    rw [ha.eq_toList] at hat
    rw [ha.eq_toList, hb.eq_toList]
    exact .name hat
  | global _ | constant _ | callOf _ | staticMethodOf _ _ | staticPropertyOf _ _ =>
    have hcall := ha.isCall_of_takesNames rfl rfl
    rw [(hb.isCall_of_takesNames rfl rfl).eq_tagged, ← hcall.eq_tagged]
    exact .names hcall rfl
  | arrayOf e ih | elementOf e ih | methodOf e _ ih | propertyOf e _ ih =>
    obtain ⟨x, hx, hcall⟩ := ha.isCall_of_inner rfl rfl
    obtain ⟨y, hy, hcall'⟩ := hb.isCall_of_inner rfl rfl
    exact .inner hcall hcall' rfl (ih hx hy)
  | interfaceParam i host method =>
    obtain ⟨v, hv, hcall⟩ := ha.isCall_of_position
    obtain ⟨w, hw, hcall'⟩ := hb.isCall_of_position
    exact .position hcall hcall' (hv.toDigits_eq.symm.trans hw.toDigits_eq)

theorem Renumbered.decode_eq_ok_iff {a b : List Char} {t : SymType}
    (h : Renumbered (fun v w => shortestNumeral v = shortestNumeral w) a b) :
    decode a = .ok t ↔ decode b = .ok t := by
  induction h generalizing t with
  | name _ | names _ _ => exact Iff.rfl
  | @inner a b x y tag args ha hb htag _ ih =>
    have hlength := ha.length_eq
    rw [ha.decode_eq, hb.decode_eq]
    cases tag with
    | arrayOf | elementOf =>
      obtain rfl : args = [] := by simpa [Tag.arity] using hlength
      simp only [ofCall, bind_eq_ok_iff, ih]
    | method | property =>
      obtain ⟨m, rfl⟩ : ∃ m, args = [m] := by
        simpa [Tag.arity, List.length_eq_one_iff] using hlength
      simp only [ofCall, bind_eq_ok_iff, parseName_eq_ok_iff, ih]
    | _ => cases htag
  | @position a b v w args ha hb hvw =>
    have hlength := ha.length_eq
    obtain ⟨c, m, rfl⟩ : ∃ c m, args = [c, m] := by
      simpa [Tag.arity, List.length_eq_two] using hlength
    rw [ha.decode_eq, hb.decode_eq]
    -- the index is all in which the two differ
    simp only [ofCall, parseIndex_eq_of_shortestNumeral_eq hvw]
    cases parseIndex w with
    | none => simp
    | some i => simp only [bind_eq_ok_iff, parseName_eq_ok_iff]

/-- A type that was read is encodable and is read back from its own text, which differs from the
text it was read from in that numerals are written in the shortest way. The texts of the type are
just those that differ from that text in numerals for the same numbers alone. -/
theorem renumbered_text_of_ofText {text : String} {t : SymType} (h : ofText text = .ok t) :
    t.isEncodable = true ∧ ofText t.text = .ok t ∧
      Renumbered (fun v w => w = shortestNumeral v) text.toList t.text.toList ∧
      ∀ other : String, ofText other = .ok t ↔
        Renumbered (fun v w => shortestNumeral v = shortestNumeral w) text.toList other.toList := by
  have hread := ofText_text_of_ofText h
  have hdenotes : Denotes text.toList t := decode_eq_ok_iff.mp h
  refine ⟨(ofText_text_eq_ok_iff.mp hread).1, hread, ?_, fun other => ⟨fun hother => ?_, ?_⟩⟩
  · rw [SymType.text, String.toList_ofList]
    exact hdenotes.renumbered_encode
  · exact hdenotes.renumbered (decode_eq_ok_iff.mp hother)
  · exact fun hother => hother.decode_eq_ok_iff.mp h

theorem renumbered_text_plusZeros :
    ofText "@method(@base_param(+007,C,f),g)" = .ok (methodOf (interfaceParam 7 "C" "f") "g") ∧
      (methodOf (interfaceParam 7 "C" "f") "g").isEncodable = true ∧
      ofText (methodOf (interfaceParam 7 "C" "f") "g").text =
        .ok (methodOf (interfaceParam 7 "C" "f") "g") ∧
      Renumbered (fun v w => w = shortestNumeral v) "@method(@base_param(+007,C,f),g)".toList
        (methodOf (interfaceParam 7 "C" "f") "g").text.toList ∧
      ∀ other : String, ofText other = .ok (methodOf (interfaceParam 7 "C" "f") "g") ↔
        Renumbered (fun v w => shortestNumeral v = shortestNumeral w)
          "@method(@base_param(+007,C,f),g)".toList other.toList :=
  ⟨rfl, renumbered_text_of_ofText rfl⟩

example : (methodOf (interfaceParam 7 "C" "f") "g").text = "@method(@base_param(7,C,f),g)" := rfl

end SymbolicTypes.SymType
