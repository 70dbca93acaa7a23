import Mathlib.Data.List.Basic
import SymbolicTypes.SymType.Arguments
import SymbolicTypes.SymType.Text

namespace SymbolicTypes.SymType

/-- With `depth` brackets open before the word, its brackets close all of them and all of their
own, no prefix closes more than was opened, and no comma stands outside brackets. -/
structure ClosedFrom (depth : Nat) (s : List Char) : Prop where
  prefixes : ∀ p, p <+: s → p.countP isClosing ≤ depth + p.countP isOpening
  balanced : s.countP isClosing = depth + s.countP isOpening
  commas : ∀ p, p ++ [','] <+: s → p.countP isClosing ≠ depth + p.countP isOpening

abbrev Closed (s : List Char) : Prop := ClosedFrom 0 s

theorem not_isClosing_of_isOpening {c : Char} (h : isOpening c = true) : isClosing c = false := by
  simp only [isOpening, Bool.or_eq_true, beq_iff_eq] at h
  obtain ((rfl | rfl) | rfl) | rfl := h <;> decide

theorem closedFrom_nil {depth : Nat} : ClosedFrom depth [] ↔ depth = 0 := by
  constructor
  · intro h
    simpa using h.balanced.symm
  · rintro rfl
    refine ⟨?_, rfl, ?_⟩
    · intro p hp
      simp [List.prefix_nil.mp hp]
    · intro p hp
      simp at hp

theorem closedFrom_cons {depth rest : Nat} {c : Char} {s : List Char}
    (hc : rest + [c].countP isClosing = depth + [c].countP isOpening) (h0 : c = ',' → depth ≠ 0) :
    ClosedFrom depth (c :: s) ↔ ClosedFrom rest s := by
  have hcount (p : List Char) : (c :: p).countP isClosing = [c].countP isClosing + p.countP isClosing ∧
      (c :: p).countP isOpening = [c].countP isOpening + p.countP isOpening := by
    rw [← List.singleton_append, List.countP_append, List.countP_append]
    exact ⟨rfl, rfl⟩
  constructor
  · intro h
    refine ⟨?_, ?_, ?_⟩
    · intro p hp
      have := h.prefixes (c :: p) (List.cons_prefix_cons.mpr ⟨rfl, hp⟩)
      have := hcount p
      omega
    · have := h.balanced
      have := hcount s
      omega
    · intro p hp
      have := h.commas (c :: p) (List.cons_prefix_cons.mpr ⟨rfl, hp⟩)
      have := hcount p
      omega
  · intro h
    refine ⟨?_, ?_, ?_⟩
    · intro p hp
      cases p with
      | nil => simp
      | cons d p =>
        obtain ⟨rfl, hps⟩ := List.cons_prefix_cons.mp hp
        have := h.prefixes p hps
        have := hcount p
        omega
    · have := h.balanced
      have := hcount s
      omega
    · intro p hp
      cases p with
      | nil =>
        obtain ⟨hd, -⟩ := List.cons_prefix_cons.mp hp
        have := h0 hd.symm
        simp only [List.countP_nil]
        omega
      | cons d p =>
        obtain ⟨rfl, hps⟩ := List.cons_prefix_cons.mp hp
        have := h.commas p hps
        have := hcount p
        omega

theorem closedFrom_cons_opening {depth : Nat} {c : Char} {s : List Char} (h : isOpening c = true) :
    ClosedFrom depth (c :: s) ↔ ClosedFrom (depth + 1) s := by
  apply closedFrom_cons
  · simp [h, not_isClosing_of_isOpening h]
  · rintro rfl
    exact absurd h (by decide)

theorem closedFrom_cons_closing {depth : Nat} {c : Char} {s : List Char} (ho : isOpening c = false)
    (h : isClosing c = true) : ClosedFrom depth (c :: s) ↔ depth ≠ 0 ∧ ClosedFrom (depth - 1) s := by
  by_cases hd : depth = 0
  · subst hd
    refine iff_of_false (fun hs => ?_) (by simp)
    have := hs.prefixes [c] (by simp)
    simp [h, ho] at this
  · have hstep : ClosedFrom depth (c :: s) ↔ ClosedFrom (depth - 1) s := by
      apply closedFrom_cons
      · simp only [List.countP_singleton, h, ho, if_true, Bool.false_eq_true, if_false]
        omega
      · rintro rfl
        exact absurd h (by decide)
    rw [hstep, and_iff_right hd]

theorem closedFrom_cons_comma {depth : Nat} {s : List Char} :
    ClosedFrom depth (',' :: s) ↔ depth ≠ 0 ∧ ClosedFrom depth s := by
  by_cases hd : depth = 0
  · subst hd
    refine iff_of_false (fun hs => ?_) (by simp)
    exact hs.commas [] (by simp) rfl
  · have hstep : ClosedFrom depth (',' :: s) ↔ ClosedFrom depth s :=
      closedFrom_cons rfl fun _ => hd
    rw [hstep, and_iff_right hd]

theorem closedFrom_cons_other {depth : Nat} {c : Char} {s : List Char} (ho : isOpening c = false)
    (hc : isClosing c = false) (h : c ≠ ',') : ClosedFrom depth (c :: s) ↔ ClosedFrom depth s :=
  closedFrom_cons (by simp [ho, hc]) (fun h' => absurd h' h)

theorem closedFrom_append {d e : Nat} {s t : List Char}
    (hs : ClosedFrom d s) (ht : ClosedFrom e t) : ClosedFrom (d + e) (s ++ t) := by
  induction s generalizing d with
  | nil =>
    rw [closedFrom_nil.mp hs, Nat.zero_add]
    exact ht
  | cons c s ih =>
    rw [List.cons_append]
    by_cases ho : isOpening c = true
    · rw [closedFrom_cons_opening ho] at hs ⊢
      have := ih hs
      rwa [Nat.add_right_comm] at this
    rw [Bool.not_eq_true] at ho
    by_cases hc : isClosing c = true
    · rw [closedFrom_cons_closing ho hc] at hs ⊢
      have := ih hs.2
      refine ⟨by omega, ?_⟩
      rwa [← Nat.sub_add_comm (by omega)] at this
    rw [Bool.not_eq_true] at hc
    by_cases hcomma : c = ','
    · subst hcomma
      rw [closedFrom_cons_comma] at hs ⊢
      exact ⟨by omega, ih hs.2⟩
    · rw [closedFrom_cons_other ho hc hcomma] at hs ⊢
      exact ih hs

theorem closed_of_plain {s : List Char}
    (h : ∀ c ∈ s, isOpening c = false ∧ isClosing c = false ∧ c ≠ ',') : Closed s := by
  induction s with
  | nil => exact closedFrom_nil.mpr rfl
  | cons c s ih =>
    obtain ⟨ho, hc, hcomma⟩ := h c List.mem_cons_self
    exact (closedFrom_cons_other ho hc hcomma).mpr (ih fun d hd => h d (List.mem_cons_of_mem _ hd))

theorem closedFrom_joinArgs {d e : Nat} {t : List Char} {as : List (List Char)}
    (h : ∀ a ∈ as, Closed a) (ht : ClosedFrom d t) (hd : d = e + 1) :
    ClosedFrom d (joinArgs as ++ t) := by
  subst hd
  induction as with
  | nil => exact ht
  | cons a as ih =>
    have ha := h a List.mem_cons_self
    have hj := ih fun b hb => h b (List.mem_cons_of_mem _ hb)
    cases as with
    | nil => simpa [joinArgs] using closedFrom_append ha ht
    | cons b bs =>
      have hc : ClosedFrom (e + 1) (',' :: (joinArgs (b :: bs) ++ t)) :=
        closedFrom_cons_comma.mpr ⟨by omega, hj⟩
      simpa [joinArgs] using closedFrom_append ha hc

theorem closed_tagged {t : Tag} {as : List (List Char)} (h : ∀ a ∈ as, Closed a) :
    Closed (tagged t as) := by
  have hend : ClosedFrom 1 [')'] :=
    (closedFrom_cons_closing rfl rfl).mpr ⟨by omega, closedFrom_nil.mpr rfl⟩
  have hargs : Closed ('(' :: (joinArgs as ++ [')'])) :=
    (closedFrom_cons_opening rfl).mpr (closedFrom_joinArgs h hend rfl)
  have hplain : (('@' :: t.text.toList).all fun c =>
      isOpening c == false && isClosing c == false && c != ',') = true := by
    cases t <;> rfl
  have htag : Closed ('@' :: t.text.toList) := by
    apply closed_of_plain
    simpa [and_assoc] using hplain
  exact closedFrom_append htag hargs

end SymbolicTypes.SymType
