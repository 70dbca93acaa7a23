import SymbolicTypes.Proofs.SymType.Decode

namespace SymbolicTypes.SymType

def names : SymType → List String
  | named n | global n | constant n | callOf n => [n]
  | arrayOf e | elementOf e => e.names
  | methodOf r m | propertyOf r m => r.names ++ [m]
  | staticMethodOf c m | staticPropertyOf c m | interfaceParam _ c m => [c, m]

/-- Every name that stands inside an indirection stays whole there. -/
def IsClosed (t : SymType) : Prop := t.isNamed = false → ∀ n ∈ t.names, Closed n.toList

theorem closed_encode {t : SymType} (h : ∀ n ∈ t.names, Closed n.toList) : Closed t.encode := by
  induction t with
  | named n => exact h n (by simp [names])
  | global n | constant n | callOf n => exact closed_tagged (by simpa [names] using h)
  | arrayOf e ih | elementOf e ih => exact closed_tagged (by simpa using ih h)
  | methodOf r m ih | propertyOf r m ih =>
    have hr := ih fun n hn => h n (by simp [names, hn])
    have hm := h m (by simp [names])
    exact closed_tagged (by simpa using ⟨hr, hm⟩)
  | staticMethodOf c m | staticPropertyOf c m => exact closed_tagged (by simpa [names] using h)
  | interfaceParam i c m =>
    have hi := (numeral_toDigits i).closed
    exact closed_tagged (by simpa [names] using ⟨hi, h c (by simp [names]), h m (by simp [names])⟩)

theorem nonempty_iff {n : String} : (!n.isEmpty) = true ↔ n.toList ≠ [] := by
  simp

theorem denotes_encode {t : SymType} (he : t.isEncodable = true) (hc : t.IsClosed) :
    Denotes t.encode t := by
  -- an inner type is written whole, whether it is a plain name or not
  have inner {e : SymType} (h : ∀ n ∈ e.names, Closed n.toList) : Closed e.encode ∧ e.IsClosed :=
    ⟨closed_encode h, fun _ => h⟩
  have name {n : String} (hn : (!n.isEmpty) = true) (hcn : Closed n.toList) : Name n.toList :=
    ⟨nonempty_iff.mp hn, hcn⟩
  induction t with
  | named n =>
    obtain ⟨hn, hat⟩ := Bool.and_eq_true_iff.mp he
    simpa [encode] using Denotes.named (nonempty_iff.mp hn) (by simpa using hat)
  | global n =>
    simpa [encode] using Denotes.global (name he (hc rfl n (by simp [names])))
  | constant n =>
    simpa [encode] using Denotes.constant (name he (hc rfl n (by simp [names])))
  | callOf n =>
    simpa [encode] using Denotes.callOf (name he (hc rfl n (by simp [names])))
  | arrayOf e ih =>
    obtain ⟨hwhole, hce⟩ := inner (e := e) (hc rfl)
    exact .arrayOf hwhole (ih he hce)
  | elementOf e ih =>
    obtain ⟨hwhole, hce⟩ := inner (e := e) (hc rfl)
    exact .elementOf hwhole (ih he hce)
  | methodOf r m ih =>
    obtain ⟨hr, hm⟩ := Bool.and_eq_true_iff.mp he
    obtain ⟨hwhole, hcr⟩ := inner (e := r) fun n hn => hc rfl n (List.mem_append_left _ hn)
    simpa [encode] using Denotes.methodOf hwhole (ih hr hcr) (name hm (hc rfl m (by simp [names])))
  | propertyOf r m ih =>
    obtain ⟨hr, hm⟩ := Bool.and_eq_true_iff.mp he
    obtain ⟨hwhole, hcr⟩ := inner (e := r) fun n hn => hc rfl n (List.mem_append_left _ hn)
    simpa [encode] using Denotes.propertyOf hwhole (ih hr hcr) (name hm (hc rfl m (by simp [names])))
  | staticMethodOf c m =>
    obtain ⟨hn, hm⟩ := Bool.and_eq_true_iff.mp he
    simpa [encode] using Denotes.staticMethodOf (name hn (hc rfl c (by simp [names])))
      (name hm (hc rfl m (by simp [names])))
  | staticPropertyOf c m =>
    obtain ⟨hn, hm⟩ := Bool.and_eq_true_iff.mp he
    simpa [encode] using Denotes.staticPropertyOf (name hn (hc rfl c (by simp [names])))
      (name hm (hc rfl m (by simp [names])))
  | interfaceParam i c m =>
    obtain ⟨hn, hm⟩ := Bool.and_eq_true_iff.mp he
    simpa [encode] using Denotes.interfaceParam (numeral_toDigits i) (name hn (hc rfl c (by simp [names])))
      (name hm (hc rfl m (by simp [names])))

theorem Denotes.sound {text : List Char} {t : SymType} (h : Denotes text t) :
    t.isEncodable = true ∧ (Closed text ∨ t.isNamed = false → ∀ n ∈ t.names, Closed n.toList) := by
  have present {a : List Char} (ha : Name a) : (!(String.ofList a).isEmpty) = true :=
    nonempty_iff.mpr (by simpa using ha.ne_nil)
  induction h with
  | named hne hat =>
    refine ⟨Bool.and_eq_true_iff.mpr ⟨nonempty_iff.mpr (by simpa using hne), by simpa using hat⟩, ?_⟩
    intro hc
    simpa [names, isNamed] using hc
  | global ha | constant ha | callOf ha =>
    refine ⟨present ha, fun _ => ?_⟩
    simpa [names] using ha.closed
  | arrayOf ha _ ih | elementOf ha _ ih => exact ⟨ih.1, fun _ => ih.2 (.inl ha)⟩
  | methodOf ha _ hb ih | propertyOf ha _ hb ih =>
    refine ⟨Bool.and_eq_true_iff.mpr ⟨ih.1, present hb⟩, fun _ n hn => ?_⟩
    obtain hn | hn := List.mem_append.mp hn
    · exact ih.2 (.inl ha) n hn
    · rw [List.mem_singleton.mp hn, String.toList_ofList]
      exact hb.closed
  | staticMethodOf ha hb | staticPropertyOf ha hb =>
    refine ⟨Bool.and_eq_true_iff.mpr ⟨present ha, present hb⟩, fun _ => ?_⟩
    simpa [names] using ⟨ha.closed, hb.closed⟩
  | interfaceParam hi hb hc =>
    refine ⟨Bool.and_eq_true_iff.mpr ⟨present hb, present hc⟩, fun _ => ?_⟩
    simpa [names] using ⟨hb.closed, hc.closed⟩

theorem ofText_text_eq_ok_iff {t : SymType} :
    ofText t.text = .ok t ↔ t.isEncodable = true ∧ t.IsClosed := by
  rw [ofText, text, String.toList_ofList, decode_eq_ok_iff]
  constructor
  · intro h
    obtain ⟨he, hc⟩ := h.sound
    exact ⟨he, fun hn => hc (.inr hn)⟩
  · rintro ⟨he, hc⟩
    exact denotes_encode he hc

theorem ofText_text_of_ofText {text : String} {t : SymType} (h : ofText text = .ok t) :
    ofText t.text = .ok t := by
  obtain ⟨he, hc⟩ := (decode_eq_ok_iff.mp h).sound
  exact ofText_text_eq_ok_iff.mpr ⟨he, fun hn => hc (.inr hn)⟩

/-- Being encodable means being read back just where no name inside an indirection is torn apart. -/
theorem isEncodable_iff_ofText_text_iff (t : SymType) :
    (t.isEncodable = true ↔ ofText t.text = .ok t) ↔ (t.isEncodable = true → t.IsClosed) := by
  rw [ofText_text_eq_ok_iff]
  constructor
  · intro h he
    exact (h.mp he).2
  · intro h
    exact ⟨fun he => ⟨he, h he⟩, fun he => he.1⟩

theorem isEncodable_unbalanced_name :
    ((global "a)").isEncodable = true ∧
      ofText (global "a)").text = .error (.malformed "@global(a))" .unbalanced)) ∧
    ((staticMethodOf "a<" "b>,c").isEncodable = true ∧
      ofText (staticMethodOf "a<" "b>,c").text = .ok (staticMethodOf "a<,b>" "c")) := by
  refine ⟨⟨?_, ?_⟩, ?_, ?_⟩
  · decide
  · rfl
  · decide
  · rfl

end SymbolicTypes.SymType
