import SymbolicTypes.Proofs.SymType.Parts
import SymbolicTypes.Proofs.SymType.RoundTrip

namespace SymbolicTypes.SymType

def ownNames : SymType → List String
  | named n | global n | constant n | callOf n => [n]
  | arrayOf _ | elementOf _ => []
  | methodOf _ m | propertyOf _ m => [m]
  | staticMethodOf c m | staticPropertyOf c m | interfaceParam _ c m => [c, m]

theorem isEncodable_named_iff {n : String} :
    (named n).isEncodable = true ↔ n ≠ "" ∧ n.toList.head? ≠ some '@' := by
  simp [isEncodable]

theorem isEncodable_iff_inner {t : SymType} (ht : t.isNamed = false) :
    t.isEncodable = true ↔ (∀ n ∈ t.ownNames, n ≠ "") ∧ ∀ e ∈ t.inner?, e.isEncodable = true := by
  cases t with
  | named n => cases ht
  | _ => simp [isEncodable, ownNames, inner?, and_comm]

theorem mem_names_iff {t : SymType} {n : String} :
    n ∈ t.names ↔ n ∈ t.ownNames ∨ ∃ e ∈ t.inner?, n ∈ e.names := by
  cases t with
  | methodOf r m | propertyOf r m => simp [names, ownNames, inner?, or_comm]
  | _ => simp [names, ownNames, inner?]

theorem forall_names_closed_iff {e : SymType} :
    (∀ n ∈ e.names, Closed n.toList) ↔ e.IsClosed ∧ ∀ n, e = named n → Closed n.toList := by
  constructor
  · intro h
    refine ⟨fun _ => h, ?_⟩
    rintro n rfl
    exact h n (by simp [names])
  · rintro ⟨hclosed, hnamed⟩
    cases e with
    | named n => simpa [names] using hnamed n rfl
    | _ => exact hclosed rfl

theorem isClosed_iff_inner {t : SymType} (ht : t.isNamed = false) :
    t.IsClosed ↔ (∀ n ∈ t.ownNames, Closed n.toList) ∧
      ∀ e ∈ t.inner?, e.IsClosed ∧ ∀ n, e = named n → Closed n.toList := by
  constructor
  · intro h
    have hall : ∀ n ∈ t.names, Closed n.toList := h ht
    refine ⟨fun n hn => hall n (mem_names_iff.mpr (.inl hn)), fun e he => ?_⟩
    exact forall_names_closed_iff.mp fun n hn => hall n (mem_names_iff.mpr (.inr ⟨e, he, hn⟩))
  · rintro ⟨hown, hinner⟩ _ n hn
    obtain hn | ⟨e, he, hn⟩ := mem_names_iff.mp hn
    · exact hown n hn
    · exact forall_names_closed_iff.mpr (hinner e he) n hn

/-- A type is read back from its text just in these cases: it is a name that is present and opens no
indirection; or all names in its outermost part are present and whole, and the type inside is read
back from its own text and, being a name, is whole. -/
theorem ofText_text_iff_inner (t : SymType) :
    ofText t.text = .ok t ↔
      (∃ n, t = named n ∧ n ≠ "" ∧ n.toList.head? ≠ some '@') ∨
      (t.isNamed = false ∧ (∀ n ∈ t.ownNames, n ≠ "" ∧ Closed n.toList) ∧
        ∀ e ∈ t.inner?, ofText e.text = .ok e ∧ ∀ n, e = named n → Closed n.toList) := by
  simp only [ofText_text_eq_ok_iff]
  by_cases ht : t.isNamed = true
  · obtain ⟨n, rfl⟩ := exists_eq_named ht
    have hclosed : (named n).IsClosed := fun h => absurd h (by simp [isNamed])
    rw [isEncodable_named_iff]
    simp [hclosed, isNamed]
  · have hn : t.isNamed = false := Bool.eq_false_iff.mpr ht
    rw [isEncodable_iff_inner hn, isClosed_iff_inner hn]
    simp only [ne_named hn, hn, false_and, exists_false, false_or, true_and, forall_and, and_assoc]
    exact and_congr_right fun _ => and_left_comm

end SymbolicTypes.SymType
