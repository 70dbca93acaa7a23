namespace SymbolicTypes.SymType

def isOpening (c : Char) : Bool := c == '(' || c == '<' || c == '\x7b' || c == '['

def isClosing (c : Char) : Bool := c == ')' || c == '>' || c == '\x7d' || c == ']'

def extendFirst (c : Char) : List (List Char) → List (List Char)
  | [] => [[c]]
  | a :: as => (c :: a) :: as

/-- The arguments of a list whose brackets, all kinds alike, balance: it is cut at the commas that
stand outside brackets. The number is how many brackets are open. -/
def splitArgs : Nat → List Char → Option (List (List Char))
  | depth, [] => if depth = 0 then some [[]] else none
  | depth, c :: cs =>
    if isOpening c then (splitArgs (depth + 1) cs).map (extendFirst c)
    else if isClosing c then
      if depth = 0 then none else (splitArgs (depth - 1) cs).map (extendFirst c)
    else if c = ',' ∧ depth = 0 then (splitArgs 0 cs).map ([] :: ·)
    else (splitArgs depth cs).map (extendFirst c)

theorem length_le_of_mem_extendFirst {c : Char} {n : Nat} {as : List (List Char)}
    (h : ∀ a ∈ as, a.length ≤ n) : ∀ a ∈ extendFirst c as, a.length ≤ n + 1 := by
  intro a ha
  cases as with
  | nil =>
    rw [extendFirst, List.mem_singleton] at ha
    simp [ha]
  | cons b as =>
    rcases List.mem_cons.1 ha with rfl | ha
    · have := h b List.mem_cons_self
      simp only [List.length_cons]
      omega
    · have := h a (List.mem_cons_of_mem _ ha)
      omega

theorem length_le_of_mem_splitArgs {depth : Nat} {cs : List Char} {as : List (List Char)}
    (h : splitArgs depth cs = some as) : ∀ a ∈ as, a.length ≤ cs.length := by
  induction cs generalizing depth as with
  | nil =>
    rw [splitArgs] at h
    split at h
    · cases h; simp
    · cases h
  | cons c cs ih =>
    rw [splitArgs] at h
    split at h
    · obtain ⟨bs, hb, rfl⟩ := Option.map_eq_some_iff.1 h
      exact length_le_of_mem_extendFirst (ih hb)
    split at h
    · split at h
      · cases h
      · obtain ⟨bs, hb, rfl⟩ := Option.map_eq_some_iff.1 h
        exact length_le_of_mem_extendFirst (ih hb)
    split at h
    · obtain ⟨bs, hb, rfl⟩ := Option.map_eq_some_iff.1 h
      intro a ha
      rcases List.mem_cons.1 ha with rfl | ha
      · simp
      · have := ih hb a ha
        simp only [List.length_cons]
        omega
    · obtain ⟨bs, hb, rfl⟩ := Option.map_eq_some_iff.1 h
      exact length_le_of_mem_extendFirst (ih hb)

end SymbolicTypes.SymType
