import SymbolicTypes.Proofs.Resolution.Alike

namespace SymbolicTypes

open Query

def TypeUnion.IsPlain (u : TypeUnion) : Prop := ∀ t ∈ u, t.isNamed = true

instance : DecidablePred TypeUnion.IsPlain :=
  fun u => inferInstanceAs (Decidable (∀ t ∈ u.toList, t.isNamed = true))

def TypeUnion.plainNames (u : TypeUnion) : TypeNames :=
  SortedSet.ofList (u.toList.filterMap fun | .named n => some n | _ => none)

def TypeUnion.settledNames (u : TypeUnion) : TypeNames := u.plainNames.settleEmptyArray

theorem TypeUnion.mem_plainNames {u : TypeUnion} {n : String} : n ∈ u.plainNames ↔ .named n ∈ u := by
  rw [plainNames, SortedSet.mem_ofList, List.mem_filterMap]
  constructor
  · rintro ⟨t, ht, hn⟩
    cases t with
    | named m => exact Option.some.inj hn ▸ ht
    | _ => cases hn
  · exact fun h => ⟨_, h, rfl⟩

def TypeNames.unionOf (names : SymType → TypeNames) (l : List SymType) : TypeNames :=
  SortedSet.ofList (l.flatMap fun t => (names t).toList)

@[simp]
theorem TypeNames.mem_unionOf {names : SymType → TypeNames} {l : List SymType} {n : String} :
    n ∈ unionOf names l ↔ ∃ t ∈ l, n ∈ names t := by
  rw [unionOf, SortedSet.mem_ofList, List.mem_flatMap]
  rfl

namespace Resolver

variable {b : Codebase} {settings : ResolverSettings}

theorem exists_returns_gather_named (r : Resolver) {l : List SymType}
    (hl : ∀ t ∈ l, t.isNamed = true) :
    ∃ names, (∀ d context g,
        (gather (fun t => Query.asMember t (r.expand d context t)) l).Returns g names g) ∧
      ∀ n, n ∈ names ↔ .named n ∈ l := by
  induction l with
  | nil => exact ⟨∅, fun _ _ g => returns_pure ∅ g, by simp⟩
  | cons t l ih =>
    obtain ⟨names, h, hnames⟩ := ih fun x hx => hl x (List.mem_cons_of_mem t hx)
    obtain ⟨m, rfl⟩ := SymType.exists_eq_named (hl t List.mem_cons_self)
    refine ⟨SortedSet.ofList [m] ∪ names, fun d context g => ?_, fun n => ?_⟩
    · exact ((returns_pure _ g).asMember _).bind ((h d context g).bind (returns_pure _ g))
    · simp [hnames]

/-- A union of plain names means the same under every class, guard and number of declarations
left to follow. -/
theorem returns_expandUnion_of_plain (r : Resolver) {u : TypeUnion} (hu : u.IsPlain) (depth : Nat)
    (context : String) (g : Guard) :
    (r.expandUnion (depth + 1) context u).Returns g u.settledNames g := by
  obtain ⟨names, h, hnames⟩ := exists_returns_gather_named r hu
  obtain rfl : names = u.plainNames :=
    SortedSet.ext fun n => (hnames n).trans TypeUnion.mem_plainNames.symm
  exact (h (r.expandUnion depth) context g).bind (returns_pure _ g)

theorem knows_expandUnion_of_plain (r : Resolver) {u : TypeUnion} (hu : u.IsPlain) (depth : Nat)
    (context : String) : (r.expandUnion (depth + 1) context u).Knows fun _ => True :=
  ⟨u.settledNames, trivial, returns_expandUnion_of_plain r hu depth context⟩

theorem expandUnion_alike_of_plain (r : Resolver) {R : Guard → Guard → Prop} {u : TypeUnion}
    (hu : u.IsPlain) (depth depth' : Nat) (context : String) :
    Alike R (r.expandUnion (depth + 1) context u) (r.expandUnion (depth' + 1) context u) :=
  fun g g' hg => ⟨u.settledNames, g, g', returns_expandUnion_of_plain r hu depth context g,
    returns_expandUnion_of_plain r hu depth' context g', hg⟩

end Resolver

end SymbolicTypes
