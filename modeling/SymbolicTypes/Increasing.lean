namespace SymbolicTypes

theorem eq_of_mem_iff_of_increasing {α : Type} {r : α → α → Prop} (irrefl : ∀ a, ¬ r a a)
    (trans : ∀ {a b c}, r a b → r b c → r a c) {l m : List α}
    (hl : l.Pairwise r) (hm : m.Pairwise r) (h : ∀ a, a ∈ l ↔ a ∈ m) : l = m := by
  induction l generalizing m with
  | nil => cases m with
    | nil => rfl
    | cons b m => simpa using h b
  | cons a l ih => cases m with
    | nil => simpa using h a
    | cons b m =>
      obtain ⟨ha, hl'⟩ := List.pairwise_cons.1 hl
      obtain ⟨hb, hm'⟩ := List.pairwise_cons.1 hm
      have hab : a = b := by
        rcases List.mem_cons.1 ((h a).1 (by simp)) with h' | h'
        · exact h'
        · rcases List.mem_cons.1 ((h b).2 (by simp)) with h'' | h''
          · exact h''.symm
          · exact (irrefl b (trans (hb a h') (ha b h''))).elim
      subst hab
      refine congrArg (a :: ·) (ih hl' hm' fun c => ⟨fun hc => ?_, fun hc => ?_⟩)
      · rcases List.mem_cons.1 ((h c).1 (by simp [hc])) with rfl | h'
        · exact (irrefl c (ha c hc)).elim
        · exact h'
      · rcases List.mem_cons.1 ((h c).2 (by simp [hc])) with rfl | h'
        · exact (irrefl c (hb c hc)).elim
        · exact h'

end SymbolicTypes
