import SymbolicTypes.Proofs.SymType.Unambiguous

namespace SymbolicTypes.SymType

def DecodeError.text? : DecodeError → Option String
  | empty => none
  | unknownTag _ text | malformed text _ | arity _ _ text | badIndex _ text => some text

/-- The word stands in the text where an indirection has the type inside it. -/
def HasInner (text a : List Char) : Prop :=
  ∃ tag rest, tag.takesType = true ∧ IsCall text tag (a :: rest)

variable {text a : List Char} {tag : Tag} {args : List (List Char)} {err : DecodeError}

theorem bind_eq_error_iff {ε α β : Type} {x : Except ε α} {f : α → Except ε β} {e : ε} :
    x >>= f = .error e ↔ x = .error e ∨ ∃ a, x = .ok a ∧ f a = .error e := by
  cases x with
  | error e' => simp [bind, Except.bind]
  | ok a => simp [bind, Except.bind]

theorem text?_of_parseName (h : parseName text a = .error err) :
    err.text? = some (String.ofList text) := by
  unfold parseName at h
  split at h
  · obtain rfl := Except.error.inj h
    rfl
  · cases h

theorem text?_of_parseName_bind {f : String → Except DecodeError SymType}
    (h : parseName text a >>= f = .error err)
    (hf : ∀ name, f name = .error err → err.text? = some (String.ofList text)) :
    err.text? = some (String.ofList text) := by
  obtain h | ⟨name, -, h⟩ := bind_eq_error_iff.mp h
  · exact text?_of_parseName h
  · exact hf name h

theorem text?_or_of_ofCall {read : List Char → Except DecodeError SymType}
    (h : ofCall read text tag args = .error err) :
    err.text? = some (String.ofList text) ∨
      ∃ a rest, tag.takesType = true ∧ args = a :: rest ∧ args.length = tag.arity ∧
        read a = .error err := by
  unfold ofCall at h
  split at h
  case h_1 | h_2 | h_5 => exact .inl (text?_of_parseName_bind h fun _ h => nomatch h)
  case h_3 a | h_4 a =>
    obtain h | ⟨_, -, h⟩ := bind_eq_error_iff.mp h
    · exact .inr ⟨a, [], rfl, rfl, rfl, h⟩
    · cases h
  case h_6 a b | h_7 a b =>
    obtain h | ⟨_, -, h⟩ := bind_eq_error_iff.mp h
    · exact .inr ⟨a, [b], rfl, rfl, rfl, h⟩
    · exact .inl (text?_of_parseName_bind h fun _ h => nomatch h)
  case h_8 | h_9 =>
    exact .inl (text?_of_parseName_bind h fun _ h =>
      text?_of_parseName_bind h fun _ h => nomatch h)
  case h_10 =>
    split at h
    · exact .inl (text?_of_parseName_bind h fun _ h =>
        text?_of_parseName_bind h fun _ h => nomatch h)
    · obtain rfl := Except.error.inj h
      exact .inl rfl
  case h_11 =>
    obtain rfl := Except.error.inj h
    exact .inl rfl

theorem decode_eq_error (h : decode text = .error err) :
    (text = [] ∧ err = .empty) ∨
      (text.head? = some '@' ∧ err.text? = some (String.ofList text)) ∨
      ∃ a, HasInner text a ∧ decode a = .error err := by
  rw [decode_eq] at h
  unfold decodeStep at h
  split at h
  · exact .inl ⟨rfl, (Except.error.inj h).symm⟩
  · next body =>
    split at h
    · obtain rfl := Except.error.inj h
      exact .inr (.inl ⟨rfl, rfl⟩)
    next word args hcall =>
    split at h
    · obtain rfl := Except.error.inj h
      exact .inr (.inl ⟨rfl, rfl⟩)
    next tag htag =>
    obtain htext | ⟨a, rest, htype, rfl, hlength, hinner⟩ := text?_or_of_ofCall h
    · exact .inr (.inl ⟨rfl, htext⟩)
    · obtain ⟨rfl, -, hclosed⟩ := splitCall_eq_ok hcall
      rw [text_of_ofText? htag]
      exact .inr (.inr ⟨a, ⟨tag, rest, htype, rfl, hlength, hclosed⟩, hinner⟩)
  · cases h

namespace HasInner

theorem decode_eq_error (h : HasInner text a) (ha : decode a = .error err) :
    decode text = .error err := by
  obtain ⟨tag, rest, htype, hcall⟩ := h
  have hlength := hcall.length_eq
  rw [hcall.decode_eq]
  cases tag with
  | arrayOf | elementOf =>
    obtain rfl := List.eq_nil_of_length_eq_zero (Nat.succ.inj hlength)
    rw [ofCall, ha]
    rfl
  | method | property =>
    obtain ⟨b, rfl⟩ := List.length_eq_one_iff.mp (Nat.succ.inj hlength)
    rw [ofCall, ha]
    rfl
  | _ => cases htype

theorem isInfix (h : HasInner text a) : a <:+: text := by
  obtain ⟨tag, rest, -, hcall⟩ := h
  obtain ⟨tail, htail⟩ : a <+: joinArgs (a :: rest) := by
    cases rest with
    | nil => exact List.prefix_rfl
    | cons b rest => exact List.prefix_append a _
  refine ⟨'@' :: (tag.text.toList ++ ['(']), tail ++ [')'], ?_⟩
  rw [hcall.eq_tagged, tagged, ← htail]
  simp

theorem length_lt (h : HasInner text a) : a.length < text.length := by
  obtain ⟨tag, rest, -, hcall⟩ := h
  have hlt := length_lt_of_splitCall hcall.splitCall_eq a List.mem_cons_self
  rw [List.length_tail] at hlt
  omega

end HasInner

/-- Whatever a text is refused for stands somewhere in it and is refused on its own as well. -/
theorem exists_infix_of_decode (h : decode text = .error err) :
    (err = .empty ∧ (text = [] ∨ ∃ x, x <:+: text ∧ HasInner x [])) ∨
      ∃ x, err.text? = some (String.ofList x) ∧ x <:+: text ∧ x.head? = some '@' ∧
        decode x = .error err := by
  -- the type inside an indirection is shorter than its text
  induction hn : text.length using Nat.strongRecOn generalizing text with
  | ind n ih =>
    subst hn
    obtain ⟨rfl, rfl⟩ | ⟨hat, htext⟩ | ⟨a, ha, hinner⟩ := decode_eq_error h
    · exact .inl ⟨rfl, .inl rfl⟩
    · exact .inr ⟨text, htext, List.infix_rfl, hat, h⟩
    · obtain ⟨rfl, hempty⟩ | ⟨x, hx, hpart, hat, herr⟩ := ih a.length ha.length_lt hinner rfl
      · obtain rfl | ⟨x, hpart, hx⟩ := hempty
        · exact .inl ⟨rfl, .inr ⟨text, List.infix_rfl, ha⟩⟩
        · exact .inl ⟨rfl, .inr ⟨x, hpart.trans ha.isInfix, hx⟩⟩
      · exact .inr ⟨x, hx, hpart.trans ha.isInfix, hat, herr⟩

theorem text?_ne_of_length_lt {text : String} (h : decode a = .error err)
    (hlt : a.length < text.toList.length) : err.text? ≠ some text := by
  intro htext
  obtain ⟨rfl, -⟩ | ⟨x, hx, hpart, -⟩ := exists_infix_of_decode h
  · cases htext
  · obtain rfl := Option.some.inj (htext.symm.trans hx)
    rw [String.toList_ofList] at hlt
    exact absurd hpart.length_le (by omega)

/-- An error names the part of the text that it is about: an indirection that is refused for the
same on its own. Only where a type is missing there is no such part. What is wrong with the type
inside an indirection is never said of the whole. -/
theorem ofText_eq_error {text : String} (h : ofText text = .error err) :
    (err ≠ .empty → ∃ x, err.text? = some x ∧ x.toList <:+: text.toList ∧
      x.toList.head? = some '@' ∧ ofText x = .error err) ∧
    (err = .empty → text = "" ∨ ∃ x, x <:+: text.toList ∧ HasInner x []) ∧
    ∀ a e, HasInner text.toList a → decode a = .error e → err = e ∧ err.text? ≠ some text := by
  refine ⟨fun hne => ?_, ?_, fun a e ha he => ?_⟩
  · obtain ⟨rfl, -⟩ | ⟨x, hx, hpart, hat, herr⟩ := exists_infix_of_decode h
    · exact absurd rfl hne
    · refine ⟨String.ofList x, hx, ?_, ?_, ?_⟩
      · rwa [String.toList_ofList]
      · rwa [String.toList_ofList]
      · rwa [ofText, String.toList_ofList]
  · rintro rfl
    obtain ⟨-, hempty⟩ | ⟨x, hx, -⟩ := exists_infix_of_decode h
    · exact hempty.imp_left String.toList_eq_nil_iff.mp
    · cases hx
  · obtain rfl := Except.error.inj (h.symm.trans (ha.decode_eq_error he))
    exact ⟨rfl, text?_ne_of_length_lt he ha.length_lt⟩

theorem ofText_eq_error_unknownTag :
    let text := "@method(@array(@nope(x)),)"
    let err := DecodeError.unknownTag "nope" "@nope(x)"
    ofText text = .error err ∧
    (err ≠ .empty → ∃ x, err.text? = some x ∧ x.toList <:+: text.toList ∧
      x.toList.head? = some '@' ∧ ofText x = .error err) ∧
    (err = .empty → text = "" ∨ ∃ x, x <:+: text.toList ∧ HasInner x []) ∧
    ∀ a e, HasInner text.toList a → decode a = .error e → err = e ∧ err.text? ≠ some text := by
  intro text err
  have h : ofText text = .error err := by decide +kernel
  exact ⟨h, ofText_eq_error h⟩

end SymbolicTypes.SymType
