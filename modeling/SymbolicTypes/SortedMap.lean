import SymbolicTypes.Increasing

namespace SymbolicTypes

/-- A finite map, kept as the list of its entries in strictly increasing order of key. -/
structure SortedMap (κ β : Type) [Ord κ] where
  entries : List (κ × β)
  increasing : entries.Pairwise (fun a b => compare a.1 b.1 = .lt)

namespace SortedMap

variable {κ β : Type} [Ord κ]

def insertInto (k : κ) (v : β) : List (κ × β) → List (κ × β)
  | [] => [(k, v)]
  | e :: l =>
    match compare k e.1 with
    | .lt => (k, v) :: e :: l
    | .eq => (k, v) :: l
    | .gt => e :: insertInto k v l

instance : EmptyCollection (SortedMap κ β) := ⟨⟨[], .nil⟩⟩

instance : Inhabited (SortedMap κ β) := ⟨∅⟩

instance [DecidableEq κ] [DecidableEq β] : DecidableEq (SortedMap κ β) := fun s t =>
  decidable_of_iff (s.entries = t.entries)
    ⟨fun h => by cases s; cases t; simp_all, fun h => h ▸ rfl⟩

def lookup (k : κ) (l : List (κ × β)) : Option β :=
  (l.find? fun e => compare k e.1 == .eq).map Prod.snd

def get? (m : SortedMap κ β) (k : κ) : Option β := lookup k m.entries

def keys (m : SortedMap κ β) : List κ := m.entries.map Prod.fst

def values (m : SortedMap κ β) : List β := m.entries.map Prod.snd

variable [Std.TransOrd κ] [Std.LawfulEqOrd κ]

omit [Std.TransOrd κ] [Std.LawfulEqOrd κ] in
theorem mem_insertInto {k : κ} {v : β} {e : κ × β} {l : List (κ × β)}
    (h : e ∈ insertInto k v l) : e = (k, v) ∨ e ∈ l := by
  induction l with
  | nil => simpa [insertInto] using h
  | cons c l ih =>
    rw [insertInto] at h
    split at h
    · simpa using h
    · rcases List.mem_cons.1 h with h | h
      · exact .inl h
      · exact .inr (List.mem_cons_of_mem _ h)
    · rcases List.mem_cons.1 h with h | h
      · exact .inr (h ▸ List.mem_cons_self)
      · exact (ih h).imp_right (List.mem_cons_of_mem _)

theorem insertInto_increasing {k : κ} {v : β} {l : List (κ × β)}
    (h : l.Pairwise (fun a b => compare a.1 b.1 = .lt)) :
    (insertInto k v l).Pairwise (fun a b => compare a.1 b.1 = .lt) := by
  induction l with
  | nil => simp [insertInto]
  | cons b l ih =>
    obtain ⟨hb, hl⟩ := List.pairwise_cons.1 h
    rw [insertInto]
    split
    · next hab =>
      refine List.pairwise_cons.2 ⟨fun c hc => ?_, h⟩
      rcases List.mem_cons.1 hc with rfl | hc
      · exact hab
      · exact Std.TransCmp.lt_trans hab (hb c hc)
    · next hab =>
      refine List.pairwise_cons.2 ⟨fun c hc => ?_, hl⟩
      rw [Std.LawfulEqOrd.eq_of_compare hab]
      exact hb c hc
    · next hab =>
      refine List.pairwise_cons.2 ⟨fun c hc => ?_, ih hl⟩
      rcases mem_insertInto hc with rfl | hc
      · exact Std.OrientedCmp.gt_iff_lt.1 hab
      · exact hb c hc

def insert (m : SortedMap κ β) (k : κ) (v : β) : SortedMap κ β :=
  ⟨insertInto k v m.entries, insertInto_increasing m.increasing⟩

/-- Of two entries with one key the later counts. -/
def ofList (l : List (κ × β)) : SortedMap κ β := l.foldl (fun m e => m.insert e.1 e.2) ∅

omit [Std.TransOrd κ] [Std.LawfulEqOrd κ] in
@[simp]
theorem get?_empty {k : κ} : (∅ : SortedMap κ β).get? k = none := rfl

theorem get?_insert_self {m : SortedMap κ β} {k : κ} {v : β} : (m.insert k v).get? k = some v := by
  have lookup_insertInto (l : List (κ × β)) : lookup k (insertInto k v l) = some v := by
    induction l with
    | nil => simp [insertInto, lookup, Std.ReflOrd.compare_self]
    | cons b l ih =>
      rw [insertInto]
      split
      · simp [lookup, Std.ReflOrd.compare_self]
      · simp [lookup, Std.ReflOrd.compare_self]
      · next h => simpa [lookup, h] using ih
  exact lookup_insertInto m.entries

theorem get?_insert_of_ne {m : SortedMap κ β} {k j : κ} {v : β} (hj : j ≠ k) :
    (m.insert k v).get? j = m.get? j := by
  have hjk : (compare j k == .eq) = false := by
    simpa using fun h => hj (Std.LawfulEqOrd.eq_of_compare h)
  have lookup_insertInto (l : List (κ × β)) : lookup j (insertInto k v l) = lookup j l := by
    induction l with
    | nil => simp [insertInto, lookup, hjk]
    | cons b l ih =>
      rw [insertInto]
      split
      · simp [lookup, hjk]
      · next h =>
        rw [Std.LawfulEqOrd.eq_of_compare h] at hjk
        simp [lookup, hjk, Std.LawfulEqOrd.eq_of_compare h]
      · cases hb : compare j b.1 == .eq with
        | true => simp [lookup, hb]
        | false => simpa [lookup, hb] using ih
  exact lookup_insertInto m.entries

omit [Std.TransOrd κ] in
theorem get?_eq_some_iff {m : SortedMap κ β} {k : κ} {v : β} :
    m.get? k = some v ↔ (k, v) ∈ m.entries := by
  obtain ⟨l, hl⟩ := m
  simp only [get?]
  induction l with
  | nil => simp [lookup]
  | cons b l ih =>
    obtain ⟨hb, hl⟩ := List.pairwise_cons.1 hl
    cases hkb : compare k b.1 == .eq with
    | true =>
      have hk : k = b.1 := Std.LawfulEqOrd.eq_of_compare (by simpa using hkb)
      have hmem : (k, v) ∉ l := fun h => by
        have := hb _ h
        rw [hk, Std.ReflOrd.compare_self] at this
        exact absurd this (by decide)
      simp only [lookup, List.find?_cons, hkb, Option.map_some, Option.some.injEq, List.mem_cons,
        hmem, or_false]
      exact ⟨fun h => by rw [hk, ← h], fun h => by rw [← h]⟩
    | false =>
      have hk : (k, v) ≠ b := by
        rintro rfl
        simp [Std.ReflOrd.compare_self] at hkb
      simpa [lookup, hkb, hk] using ih hl

theorem ext {m n : SortedMap κ β} (h : ∀ k, m.get? k = n.get? k) : m = n := by
  obtain ⟨l, hl⟩ := m
  obtain ⟨r, hr⟩ := n
  have hmem (e : κ × β) : e ∈ l ↔ e ∈ r := by
    rw [← get?_eq_some_iff (m := ⟨l, hl⟩), h, get?_eq_some_iff]
  obtain rfl : l = r := eq_of_mem_iff_of_increasing
    (fun a => by simp [Std.ReflOrd.compare_self]) Std.TransCmp.lt_trans hl hr hmem
  rfl

end SortedMap

end SymbolicTypes
