import SymbolicTypes.Proofs.SymType.Precedence
import SymbolicTypes.Snapshot.Writer

namespace SymbolicTypes.TypeUnion

variable {u v : TypeUnion} {l m : List SymType} {t : SymType}

theorem contains_iff : u.contains t = true ↔ t ∈ u := SortedSet.contains_iff

theorem pairwise_precedes (u : TypeUnion) : u.toList.Pairwise SymType.Precedes :=
  u.members.increasing.imp SymType.compare_eq_lt_iff_precedes.mp

theorem gains_iff : u.gains t = true ↔ t.isEncodable = true ∧ ¬ t ∈ u := by
  rw [gains, Bool.and_eq_true, Bool.not_eq_true', Bool.eq_false_iff, ne_eq, contains_iff]

/-- The ways in which a union is put together, with the types that were inserted on the way. -/
inductive Built : List SymType → TypeUnion → Prop
  | empty : Built [] ∅
  | ofNames (names : List String) : Built (names.map .named) (ofNames names)
  | ofList (l : List SymType) : Built l (ofList l)
  | insert {l : List SymType} {u : TypeUnion} (h : Built l u) (t : SymType) :
      Built (l ++ [t]) (u.insert t)

theorem Built.mem_iff (h : Built l u) : t ∈ u ↔ t.isEncodable = true ∧ t ∈ l := by
  induction h with
  | empty => exact iff_of_false SortedSet.not_mem_empty (by simp)
  | ofNames names => rw [TypeUnion.ofNames, mem_ofList, and_comm]
  | ofList l => rw [mem_ofList, and_comm]
  | @insert l u _ s ih =>
    rw [mem_insert, ih, List.mem_append, List.mem_singleton]
    constructor
    · rintro (⟨rfl, hs⟩ | ⟨ht, hl⟩)
      · exact ⟨hs, .inr rfl⟩
      · exact ⟨ht, .inl hl⟩
    · rintro ⟨ht, hl | rfl⟩
      · exact .inr ⟨ht, hl⟩
      · exact .inl ⟨rfl, ht⟩

theorem Built.eq_of_mem_iff (hu : Built l u) (hv : Built m v) (h : ∀ t, t ∈ l ↔ t ∈ m) : u = v :=
  ext fun t => by rw [hu.mem_iff, hv.mem_iff, h]

/-- A union holds, in their order, just the types inserted that have a text form, whatever the order
in which they came and however often; an insertion adds to it just if it is the first one of such a
type. -/
theorem Built.holds_inserted (h : Built l u) :
    u.toList.Pairwise SymType.Precedes ∧
      (∀ t ∈ u, t.isEncodable = true) ∧
      (∀ t, u.contains t = true ↔ t.isEncodable = true ∧ t ∈ l) ∧
      (∀ t, u.gains t = true ↔ t.isEncodable = true ∧ t ∉ l) ∧
      ∀ m v, Built m v → (∀ t, t ∈ l ↔ t ∈ m) → u = v ∧ u.text = v.text ∧ u.toJson = v.toJson := by
  refine ⟨u.pairwise_precedes, u.encodable, fun t => contains_iff.trans h.mem_iff, fun t => ?_,
    fun m v hv hmem => ?_⟩
  · rw [gains_iff, h.mem_iff]
    refine and_congr_right fun ht => not_congr ?_
    exact and_iff_right ht
  · obtain rfl := h.eq_of_mem_iff hv hmem
    exact ⟨rfl, rfl, rfl⟩

def repeated : TypeUnion :=
  ((ofNames ["string", "", "int", "@oops"]).insert (.arrayOf (.named "Foo"))).insert
    (.arrayOf (.named "Foo"))

def repeatedTypes : List SymType :=
  ["string", "", "int", "@oops"].map SymType.named ++ [.arrayOf (.named "Foo")]
    ++ [.arrayOf (.named "Foo")]

theorem built_repeated : Built repeatedTypes repeated := ((Built.ofNames _).insert _).insert _

theorem holds_inserted_repeated :
    Built repeatedTypes repeated ∧ repeated.text = "int|string|@array(Foo)" ∧
    repeated.toList.Pairwise SymType.Precedes ∧
    (∀ t ∈ repeated, t.isEncodable = true) ∧
    (∀ t, repeated.contains t = true ↔ t.isEncodable = true ∧ t ∈ repeatedTypes) ∧
    (∀ t, repeated.gains t = true ↔ t.isEncodable = true ∧ t ∉ repeatedTypes) ∧
    ∀ m v, Built m v → (∀ t, t ∈ repeatedTypes ↔ t ∈ m) →
      repeated = v ∧ repeated.text = v.text ∧ repeated.toJson = v.toJson :=
  ⟨built_repeated, by decide +kernel, Built.holds_inserted built_repeated⟩

end SymbolicTypes.TypeUnion
