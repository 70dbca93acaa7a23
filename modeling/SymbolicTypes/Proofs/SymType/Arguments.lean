import SymbolicTypes.Proofs.SymType.Closed

namespace SymbolicTypes.SymType

/-- A list is its arguments with commas between them, the first of which closes the brackets that
are open before it. -/
def Cut (depth : Nat) (cs : List Char) (as : List (List Char)) : Prop :=
  ∃ a rest, as = a :: rest ∧ cs = joinArgs as ∧ ClosedFrom depth a ∧ ∀ b ∈ rest, Closed b

theorem joinArgs_cons_cons (c : Char) (a : List Char) (as : List (List Char)) :
    joinArgs ((c :: a) :: as) = c :: joinArgs (a :: as) := by
  cases as <;> rfl

theorem Cut.extendFirst {depth d : Nat} {c : Char} {cs : List Char} {as : List (List Char)}
    (h : Cut d cs as) (hstep : ∀ a, ClosedFrom d a → ClosedFrom depth (c :: a)) :
    Cut depth (c :: cs) (extendFirst c as) := by
  obtain ⟨a, rest, rfl, hcs, ha, hrest⟩ := h
  refine ⟨c :: a, rest, rfl, ?_, hstep a ha, hrest⟩
  rw [SymType.extendFirst, joinArgs_cons_cons, hcs]

theorem Cut.comma {cs : List Char} {as : List (List Char)} (h : Cut 0 cs as) :
    Cut 0 (',' :: cs) ([] :: as) := by
  obtain ⟨a, rest, rfl, hcs, ha, hrest⟩ := h
  refine ⟨[], a :: rest, rfl, ?_, closedFrom_nil.mpr rfl, List.forall_mem_cons.mpr ⟨ha, hrest⟩⟩
  rw [joinArgs, hcs]
  · rfl
  · simp

theorem cut_of_splitArgs {depth : Nat} {cs : List Char} {as : List (List Char)}
    (h : splitArgs depth cs = some as) : Cut depth cs as := by
  induction cs generalizing depth as with
  | nil =>
    rw [splitArgs] at h
    split at h
    · next hd =>
      cases h
      exact ⟨[], [], rfl, rfl, closedFrom_nil.mpr hd, by simp⟩
    · cases h
  | cons c cs ih =>
    rw [splitArgs] at h
    split at h
    · next ho =>
      obtain ⟨bs, hb, rfl⟩ := Option.map_eq_some_iff.mp h
      exact (ih hb).extendFirst fun a ha => (closedFrom_cons_opening ho).mpr ha
    next ho =>
    rw [Bool.not_eq_true] at ho
    split at h
    · next hc =>
      split at h
      · cases h
      · next hd =>
        obtain ⟨bs, hb, rfl⟩ := Option.map_eq_some_iff.mp h
        exact (ih hb).extendFirst fun a ha => (closedFrom_cons_closing ho hc).mpr ⟨hd, ha⟩
    next hc =>
    rw [Bool.not_eq_true] at hc
    split at h
    · next hcut =>
      obtain ⟨rfl, rfl⟩ := hcut
      obtain ⟨bs, hb, rfl⟩ := Option.map_eq_some_iff.mp h
      exact (ih hb).comma
    · next hcut =>
      obtain ⟨bs, hb, rfl⟩ := Option.map_eq_some_iff.mp h
      apply (ih hb).extendFirst
      intro a ha
      by_cases hcomma : c = ','
      · subst hcomma
        exact closedFrom_cons_comma.mpr ⟨fun hd => hcut ⟨rfl, hd⟩, ha⟩
      · exact (closedFrom_cons_other ho hc hcomma).mpr ha

theorem foldr_extendFirst (a b : List Char) (as : List (List Char)) :
    a.foldr extendFirst (b :: as) = (a ++ b) :: as := by
  induction a with
  | nil => rfl
  | cons c a ih => rw [List.foldr_cons, ih, extendFirst, List.cons_append]

theorem splitArgs_append {depth : Nat} {a : List Char} (ha : ClosedFrom depth a) (t : List Char) :
    splitArgs depth (a ++ t) = (splitArgs 0 t).map (a.foldr extendFirst) := by
  induction a generalizing depth with
  | nil =>
    rw [closedFrom_nil.mp ha]
    exact Option.map_id'.symm
  | cons c a ih =>
    have hmap {d : Nat} (h : ClosedFrom d a) : (splitArgs d (a ++ t)).map (extendFirst c) =
        (splitArgs 0 t).map ((c :: a).foldr extendFirst) := by
      rw [ih h, Option.map_map]
      rfl
    rw [List.cons_append, splitArgs]
    by_cases ho : isOpening c = true
    · rw [if_pos ho]
      exact hmap ((closedFrom_cons_opening ho).mp ha)
    rw [if_neg ho]
    rw [Bool.not_eq_true] at ho
    by_cases hc : isClosing c = true
    · obtain ⟨hd, ha⟩ := (closedFrom_cons_closing ho hc).mp ha
      rw [if_pos hc, if_neg hd]
      exact hmap ha
    rw [if_neg hc]
    rw [Bool.not_eq_true] at hc
    by_cases hcomma : c = ','
    · subst hcomma
      obtain ⟨hd, ha⟩ := closedFrom_cons_comma.mp ha
      rw [if_neg (fun h => hd h.2)]
      exact hmap ha
    · rw [if_neg (fun h => hcomma h.1)]
      exact hmap ((closedFrom_cons_other ho hc hcomma).mp ha)

theorem splitArgs_joinArgs {as : List (List Char)} (h : ∀ a ∈ as, Closed a) (hne : as ≠ []) :
    splitArgs 0 (joinArgs as) = some as := by
  induction as with
  | nil => exact absurd rfl hne
  | cons a as ih =>
    obtain ⟨ha, has⟩ := List.forall_mem_cons.mp h
    cases as with
    | nil =>
      have hs := splitArgs_append ha []
      rw [List.append_nil] at hs
      rw [joinArgs, hs, splitArgs, if_pos rfl, Option.map_some, foldr_extendFirst, List.append_nil]
    | cons b bs =>
      have hcomma : splitArgs 0 (',' :: joinArgs (b :: bs)) = some ([] :: b :: bs) := by
        rw [splitArgs, if_neg (by decide), if_neg (by decide), if_pos ⟨rfl, rfl⟩,
          ih has (by simp), Option.map_some]
      rw [joinArgs, splitArgs_append ha, hcomma, Option.map_some, foldr_extendFirst,
        List.append_nil]
      simp

/-- A list splits into the closed words that it is the join of, and into nothing else. -/
theorem splitArgs_eq_some_iff {cs : List Char} {as : List (List Char)} :
    splitArgs 0 cs = some as ↔ cs = joinArgs as ∧ as ≠ [] ∧ ∀ a ∈ as, Closed a := by
  constructor
  · intro h
    obtain ⟨a, rest, rfl, hcs, ha, hrest⟩ := cut_of_splitArgs h
    exact ⟨hcs, by simp, List.forall_mem_cons.mpr ⟨ha, hrest⟩⟩
  · rintro ⟨rfl, hne, has⟩
    exact splitArgs_joinArgs has hne

end SymbolicTypes.SymType
