import SymbolicTypes.Proofs.SymType.Grammar

namespace SymbolicTypes.SymType

theorem ofText?_text (t : Tag) : Tag.ofText? t.text.toList = some t := by
  cases t <;> decide

theorem text_of_ofText? {word : List Char} {t : Tag} (h : Tag.ofText? word = some t) :
    word = t.text.toList := by
  have := List.find?_some h
  exact (eq_of_beq this).symm

theorem tag_no_opening (t : Tag) : ∀ c ∈ t.text.toList, c ≠ '(' := by
  have hall : (t.text.toList.all fun c => c != '(') = true := by
    cases t <;> rfl
  simpa using hall

theorem splitCall_eq_ok {body word : List Char} {as : List (List Char)}
    (h : splitCall body = .ok (word, as)) :
    body = word ++ '(' :: (joinArgs as ++ [')']) ∧ as ≠ [] ∧ ∀ a ∈ as, Closed a := by
  have htake := List.takeWhile_append_dropWhile (p := (· ≠ '(')) (l := body)
  unfold splitCall at h
  split at h
  · cases h
  next c rest hrest =>
  split at h
  · next hlast =>
    split at h
    · next bs hsplit =>
      cases h
      obtain ⟨hjoin, hne, hbs⟩ := splitArgs_eq_some_iff.mp hsplit
      refine ⟨?_, hne, hbs⟩
      obtain rfl : c = '(' := by
        have := List.head?_dropWhile_not (· ≠ '(') body
        rw [hrest] at this
        simpa using this
      have hend : rest = joinArgs as ++ [')'] := by
        rw [← hjoin]
        exact (List.dropLast_append_getLast? _ hlast).symm
      rw [← hend, ← hrest]
      exact htake.symm
    · cases h
  · cases h

theorem splitCall_tagged (t : Tag) {as : List (List Char)} (hne : as ≠ [])
    (h : ∀ a ∈ as, Closed a) :
    splitCall (t.text.toList ++ '(' :: (joinArgs as ++ [')'])) = .ok (t.text.toList, as) := by
  have hall : ∀ c ∈ t.text.toList, decide (c ≠ '(') = true := by
    intro c hc
    exact decide_eq_true (tag_no_opening t c hc)
  have hdrop : (t.text.toList ++ '(' :: (joinArgs as ++ [')'])).dropWhile (· ≠ '(') =
      '(' :: (joinArgs as ++ [')']) := by
    rw [List.dropWhile_append_of_pos hall]
    simp
  have htake : (t.text.toList ++ '(' :: (joinArgs as ++ [')'])).takeWhile (· ≠ '(') =
      t.text.toList := by
    rw [List.takeWhile_append_of_pos hall]
    simp
  have hsplit := splitArgs_joinArgs h hne
  unfold splitCall
  rw [hdrop, htake]
  simp [hsplit]

theorem decode_tagged (t : Tag) {as : List (List Char)} (hne : as ≠ []) (h : ∀ a ∈ as, Closed a) :
    decode (tagged t as) = ofCall decode (tagged t as) t as := by
  rw [decode_eq]
  unfold tagged
  simp only [decodeStep, splitCall_tagged t hne h, ofText?_text]

theorem decode_eq_ok {text : List Char} {t : SymType} (h : decode text = .ok t) :
    (text ≠ [] ∧ text.head? ≠ some '@' ∧ t = named (String.ofList text)) ∨
      ∃ tag as, text = tagged tag as ∧ as ≠ [] ∧ (∀ a ∈ as, Closed a) ∧
        ofCall decode text tag as = .ok t := by
  rw [decode_eq] at h
  unfold decodeStep at h
  split at h
  · cases h
  · next body =>
    split at h
    · cases h
    next word as hcall =>
    split at h
    · cases h
    next tag htag =>
    obtain ⟨rfl, hne, has⟩ := splitCall_eq_ok hcall
    rw [text_of_ofText? htag] at h ⊢
    exact .inr ⟨tag, as, rfl, hne, has, h⟩
  · next hnil hat =>
    refine .inl ⟨hnil, ?_, ?_⟩
    · intro hhead
      obtain ⟨body, rfl⟩ := List.head?_eq_some_iff.mp hhead
      exact hat body rfl
    · cases h
      rfl

theorem parseName_eq_ok_iff {text a : List Char} {name : String} :
    parseName text a = .ok name ↔ a ≠ [] ∧ name = String.ofList a := by
  unfold parseName
  by_cases ha : a = []
  · simp [ha]
  · simp [ha, eq_comm]

theorem bind_eq_ok_iff {ε α β : Type} {x : Except ε α} {f : α → Except ε β} {b : β} :
    x >>= f = .ok b ↔ ∃ a, x = .ok a ∧ f a = .ok b := by
  cases x with
  | error e => simp [bind, Except.bind]
  | ok a => simp [bind, Except.bind]

theorem parseName_bind_eq_ok_iff {text a : List Char} {f : String → Except DecodeError SymType}
    {t : SymType} :
    parseName text a >>= f = .ok t ↔ a ≠ [] ∧ f (String.ofList a) = .ok t := by
  rw [bind_eq_ok_iff]
  constructor
  · rintro ⟨name, hname, ht⟩
    obtain ⟨hne, rfl⟩ := parseName_eq_ok_iff.mp hname
    exact ⟨hne, ht⟩
  · rintro ⟨hne, ht⟩
    exact ⟨_, parseName_eq_ok_iff.mpr ⟨hne, rfl⟩, ht⟩

theorem denotes_of_ofCall {text : List Char} {tag : Tag} {as : List (List Char)} {t : SymType}
    (hread : ∀ a ∈ as, ∀ e, decode a = .ok e → Denotes a e) (has : ∀ a ∈ as, Closed a)
    (h : ofCall decode text tag as = .ok t) : Denotes (tagged tag as) t := by
  unfold ofCall at h
  split at h
  case h_1 a =>
    obtain ⟨hne, ⟨⟩⟩ := parseName_bind_eq_ok_iff.mp h
    exact .global ⟨hne, has a (by simp)⟩
  case h_2 a =>
    obtain ⟨hne, ⟨⟩⟩ := parseName_bind_eq_ok_iff.mp h
    exact .constant ⟨hne, has a (by simp)⟩
  case h_3 a =>
    obtain ⟨e, he, ⟨⟩⟩ := bind_eq_ok_iff.mp h
    exact .arrayOf (has a (by simp)) (hread a (by simp) e he)
  case h_4 a =>
    obtain ⟨e, he, ⟨⟩⟩ := bind_eq_ok_iff.mp h
    exact .elementOf (has a (by simp)) (hread a (by simp) e he)
  case h_5 a =>
    obtain ⟨hne, ⟨⟩⟩ := parseName_bind_eq_ok_iff.mp h
    exact .callOf ⟨hne, has a (by simp)⟩
  case h_6 a b =>
    obtain ⟨r, hr, h⟩ := bind_eq_ok_iff.mp h
    obtain ⟨hne, ⟨⟩⟩ := parseName_bind_eq_ok_iff.mp h
    exact .methodOf (has a (by simp)) (hread a (by simp) r hr) ⟨hne, has b (by simp)⟩
  case h_7 a b =>
    obtain ⟨r, hr, h⟩ := bind_eq_ok_iff.mp h
    obtain ⟨hne, ⟨⟩⟩ := parseName_bind_eq_ok_iff.mp h
    exact .propertyOf (has a (by simp)) (hread a (by simp) r hr) ⟨hne, has b (by simp)⟩
  case h_8 a b =>
    obtain ⟨ha, h⟩ := parseName_bind_eq_ok_iff.mp h
    obtain ⟨hb, ⟨⟩⟩ := parseName_bind_eq_ok_iff.mp h
    exact .staticMethodOf ⟨ha, has a (by simp)⟩ ⟨hb, has b (by simp)⟩
  case h_9 a b =>
    obtain ⟨ha, h⟩ := parseName_bind_eq_ok_iff.mp h
    obtain ⟨hb, ⟨⟩⟩ := parseName_bind_eq_ok_iff.mp h
    exact .staticPropertyOf ⟨ha, has a (by simp)⟩ ⟨hb, has b (by simp)⟩
  case h_10 a b c =>
    split at h
    · next i hi =>
      obtain ⟨hb, h⟩ := parseName_bind_eq_ok_iff.mp h
      obtain ⟨hc, ⟨⟩⟩ := parseName_bind_eq_ok_iff.mp h
      exact .interfaceParam (parseIndex_eq_some_iff.mp hi) ⟨hb, has b (by simp)⟩
        ⟨hc, has c (by simp)⟩
    · cases h
  case h_11 => cases h

theorem denotes_of_decode {text : List Char} {t : SymType} (h : decode text = .ok t) :
    Denotes text t := by
  -- the arguments of an indirection are shorter than its text
  induction hn : text.length using Nat.strongRecOn generalizing text t with
  | ind n ih =>
    subst hn
    obtain ⟨hne, hat, rfl⟩ | ⟨tag, as, rfl, hne, has, hcall⟩ := decode_eq_ok h
    · exact .named hne hat
    · apply denotes_of_ofCall _ has hcall
      intro a ha e he
      have hlt := length_lt_of_splitCall (splitCall_tagged tag hne has) a ha
      exact ih a.length (by simpa [tagged] using Nat.lt_succ_of_lt hlt) he rfl

theorem decode_of_denotes {text : List Char} {t : SymType} (h : Denotes text t) :
    decode text = .ok t := by
  have name {text a : List Char} (ha : Name a) : parseName text a = .ok (String.ofList a) :=
    parseName_eq_ok_iff.mpr ⟨ha.ne_nil, rfl⟩
  induction h with
  | @named a hne hat =>
    rw [decode_eq]
    unfold decodeStep
    split
    · exact absurd rfl hne
    · exact absurd rfl hat
    · rfl
  | global ha | constant ha | callOf ha =>
    rw [decode_tagged _ (by simp) (by simpa using ha.closed)]
    simp only [ofCall, name ha]
    rfl
  | arrayOf ha _ ih | elementOf ha _ ih =>
    rw [decode_tagged _ (by simp) (by simpa using ha)]
    simp only [ofCall, ih]
    rfl
  | methodOf ha _ hb ih | propertyOf ha _ hb ih =>
    rw [decode_tagged _ (by simp) (by simpa using ⟨ha, hb.closed⟩)]
    simp only [ofCall, ih, name hb]
    rfl
  | staticMethodOf ha hb | staticPropertyOf ha hb =>
    rw [decode_tagged _ (by simp) (by simpa using ⟨ha.closed, hb.closed⟩)]
    simp only [ofCall, name ha, name hb]
    rfl
  | interfaceParam hi hb hc =>
    rw [decode_tagged _ (by simp) (by simpa using ⟨hi.closed, hb.closed, hc.closed⟩)]
    simp only [ofCall, parseIndex_eq_some_iff.mpr hi, name hb, name hc]
    rfl

theorem decode_eq_ok_iff {text : List Char} {t : SymType} : decode text = .ok t ↔ Denotes text t :=
  ⟨denotes_of_decode, decode_of_denotes⟩

end SymbolicTypes.SymType
