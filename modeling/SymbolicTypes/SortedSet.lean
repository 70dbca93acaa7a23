import SymbolicTypes.Increasing

namespace SymbolicTypes

/-- A finite set, kept as the list of its members in strictly increasing order. -/
structure SortedSet (α : Type) [Ord α] where
  toList : List α
  increasing : toList.Pairwise (fun a b => compare a b = .lt)

namespace SortedSet

variable {α : Type} [Ord α]

def insertInto (a : α) : List α → List α
  | [] => [a]
  | b :: l =>
    match compare a b with
    | .lt => a :: b :: l
    | .eq => b :: l
    | .gt => b :: insertInto a l

instance : EmptyCollection (SortedSet α) := ⟨⟨[], .nil⟩⟩

instance : Inhabited (SortedSet α) := ⟨∅⟩

instance : Membership α (SortedSet α) := ⟨fun s a => a ∈ s.toList⟩

instance [DecidableEq α] : DecidableEq (SortedSet α) := fun s t =>
  decidable_of_iff (s.toList = t.toList) ⟨fun h => by cases s; cases t; simp_all, fun h => h ▸ rfl⟩

def isEmpty (s : SortedSet α) : Bool := s.toList.isEmpty

def size (s : SortedSet α) : Nat := s.toList.length

def contains (s : SortedSet α) (a : α) : Bool := s.toList.any fun b => compare a b == .eq

def erase (s : SortedSet α) (a : α) : SortedSet α :=
  ⟨s.toList.filter fun b => compare a b != .eq, s.increasing.filter _⟩

theorem mem_def {s : SortedSet α} {a : α} : a ∈ s ↔ a ∈ s.toList := Iff.rfl

variable [Std.TransOrd α] [Std.LawfulEqOrd α]

omit [Std.TransOrd α] in
theorem mem_insertInto {a b : α} {l : List α} : b ∈ insertInto a l ↔ b = a ∨ b ∈ l := by
  induction l with
  | nil => simp [insertInto]
  | cons c l ih =>
    rw [insertInto]
    split
    · simp
    · next h => rw [Std.LawfulEqOrd.eq_of_compare h]; simp
    · simp only [List.mem_cons, ih]
      constructor
      · rintro (h | h | h) <;> simp [h]
      · rintro (h | h | h) <;> simp [h]

theorem insertInto_increasing {a : α} {l : List α}
    (h : l.Pairwise (fun a b => compare a b = .lt)) :
    (insertInto a l).Pairwise (fun a b => compare a b = .lt) := by
  induction l with
  | nil => simp [insertInto]
  | cons b l ih =>
    obtain ⟨hb, hl⟩ := List.pairwise_cons.1 h
    rw [insertInto]
    split
    · next hab =>
      refine List.pairwise_cons.2 ⟨fun c hc => ?_, h⟩
      rcases List.mem_cons.1 hc with rfl | hc
      · exact hab
      · exact Std.TransCmp.lt_trans hab (hb c hc)
    · exact h
    · next hab =>
      refine List.pairwise_cons.2 ⟨fun c hc => ?_, ih hl⟩
      rcases mem_insertInto.1 hc with rfl | hc
      · exact Std.OrientedCmp.gt_iff_lt.1 hab
      · exact hb c hc

def insert (s : SortedSet α) (a : α) : SortedSet α :=
  ⟨insertInto a s.toList, insertInto_increasing s.increasing⟩

def ofList (l : List α) : SortedSet α := l.foldl insert ∅

def union (s t : SortedSet α) : SortedSet α := t.toList.foldl insert s

instance : Union (SortedSet α) := ⟨union⟩

omit [Std.TransOrd α] [Std.LawfulEqOrd α] in
@[simp]
theorem not_mem_empty {a : α} : ¬ a ∈ (∅ : SortedSet α) := List.not_mem_nil

@[simp]
theorem mem_insert {s : SortedSet α} {a b : α} : b ∈ s.insert a ↔ b = a ∨ b ∈ s := mem_insertInto

theorem mem_foldl_insert {l : List α} {s : SortedSet α} {a : α} :
    a ∈ l.foldl insert s ↔ a ∈ s ∨ a ∈ l := by
  induction l generalizing s with
  | nil => simp
  | cons b l ih => rw [List.foldl_cons, ih, mem_insert, List.mem_cons, or_comm (a := a = b), or_assoc]

@[simp]
theorem mem_ofList {l : List α} {a : α} : a ∈ ofList l ↔ a ∈ l := by simp [ofList, mem_foldl_insert]

@[simp]
theorem mem_union {s t : SortedSet α} {a : α} : a ∈ s ∪ t ↔ a ∈ s ∨ a ∈ t := mem_foldl_insert

omit [Std.TransOrd α] in
theorem contains_iff {s : SortedSet α} {a : α} : s.contains a = true ↔ a ∈ s := by
  simp only [contains, List.any_eq_true, beq_iff_eq, mem_def]
  constructor
  · rintro ⟨b, hb, h⟩
    exact Std.LawfulEqOrd.eq_of_compare h ▸ hb
  · exact fun h => ⟨a, h, Std.ReflOrd.compare_self⟩

omit [Std.TransOrd α] in
@[simp]
theorem mem_erase {s : SortedSet α} {a b : α} : b ∈ s.erase a ↔ b ≠ a ∧ b ∈ s := by
  simp only [erase, mem_def, List.mem_filter, bne_iff_ne, ne_eq]
  rw [and_comm]
  refine and_congr_left fun _ => not_congr ⟨fun h => (Std.LawfulEqOrd.eq_of_compare h).symm, ?_⟩
  rintro rfl
  exact Std.ReflOrd.compare_self

theorem ext {s t : SortedSet α} (h : ∀ a, a ∈ s ↔ a ∈ t) : s = t := by
  obtain ⟨l, hl⟩ := s
  obtain ⟨m, hm⟩ := t
  obtain rfl : l = m := eq_of_mem_iff_of_increasing
    (fun a => by simp [Std.ReflOrd.compare_self]) Std.TransCmp.lt_trans hl hm h
  rfl

end SortedSet

end SymbolicTypes
