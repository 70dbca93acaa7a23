import SymbolicTypes.Proofs.Inheritance.Properties
import SymbolicTypes.Proofs.Resolution.Depth
import SymbolicTypes.Proofs.Resolution.Plain
import SymbolicTypes.Proofs.Text.ByteOrder

namespace SymbolicTypes

open Query

namespace Codebase

variable {b : Codebase} {settings : ResolverSettings} {property host : String}

structure HasPlainMembers (b : Codebase) : Prop where
  property : ∀ c ∈ b.classLikes, ∀ p ∈ c.properties, p.type.IsPlain
  method : ∀ c ∈ b.classLikes, ∀ m ∈ c.methods, m.returnType.IsPlain

instance (b : Codebase) : Decidable b.HasPlainMembers :=
  decidable_of_iff
    ((∀ c ∈ b.classLikes, ∀ p ∈ c.properties, p.type.IsPlain) ∧
      ∀ c ∈ b.classLikes, ∀ m ∈ c.methods, m.returnType.IsPlain)
    ⟨fun ⟨p, m⟩ => ⟨p, m⟩, fun h => ⟨h.property, h.method⟩⟩

theorem HasPlainMembers.of_findProperty? (hb : b.HasPlainMembers) {p : Located TypedName}
    (hp : b.findProperty? host property = some p) : p.member.type.IsPlain := by
  obtain ⟨c, hc, hown⟩ := SearchPlan.own_of_found? hp
  exact hb.property c hc p.member (List.mem_of_find?_eq_some hown)

theorem HasPlainMembers.of_magicGetter? (hb : b.HasPlainMembers) {m : Located FunctionDecl}
    (hm : b.magicGetter? settings host = some m) : m.member.returnType.IsPlain := by
  unfold magicGetter? at hm
  split at hm
  · cases hm
  · obtain ⟨c, hc, hown⟩ := SearchPlan.own_of_found? hm
    exact hb.method c hc m.member (List.mem_of_find?_eq_some hown)

theorem findProperty?_eq_firstProperty (b : Codebase) (host property : String) :
    b.findProperty? host property = firstProperty property (b.parentChain host) := by
  obtain ⟨_, rfl, hrun⟩ := knows_findProperty? (σ := Unit) b host property
  exact ((hrun ()).unique ((b.byPath_firstProperty property).returns_run host ())).1

/-- A host that declares no such property has this magic getter, which then decides alone. -/
structure Decides (b : Codebase) (settings : ResolverSettings) (property host : String)
    (getter : Located FunctionDecl) : Prop where
  undeclared : ∀ e ∈ b.parentChain host, ∀ q ∈ e.2.properties, q.name ≠ property
  named : settings.magicGetter ≠ ""
  found : b.findMethod? host settings.magicGetter = some getter

def decider? (b : Codebase) (settings : ResolverSettings) (property host : String) :
    Option (Located FunctionDecl) :=
  if (b.findProperty? host property).isSome then none else b.magicGetter? settings host

theorem firstProperty_eq_none_iff {chain : List (String × ClassDecl)} :
    firstProperty property chain = none ↔ ∀ e ∈ chain, ∀ q ∈ e.2.properties, q.name ≠ property := by
  simp [firstProperty]

theorem decider?_eq_some_iff {getter : Located FunctionDecl} :
    b.decider? settings property host = some getter ↔ b.Decides settings property host getter := by
  have hnone : b.findProperty? host property = none ↔
      ∀ e ∈ b.parentChain host, ∀ q ∈ e.2.properties, q.name ≠ property := by
    rw [findProperty?_eq_firstProperty, firstProperty_eq_none_iff]
  rw [decider?, magicGetter?]
  constructor
  · intro h
    split at h
    · cases h
    · next hproperty =>
      split at h
      · cases h
      · next hname => exact ⟨hnone.mp (by simpa using hproperty), by simpa using hname, h⟩
  · intro h
    rw [hnone.mpr h.undeclared, if_neg (by simp), if_neg (by simpa using h.named), h.found]

def fetched (b : Codebase) (settings : ResolverSettings) (property : String) :
    List String → TypeNames → TypeNames
  | [], found => found
  | host :: hosts, found =>
    match b.findProperty? host property with
    | some p => fetched b settings property hosts (found ∪ p.member.type.settledNames)
    | none =>
      match b.magicGetter? settings host with
      | some getter => getter.member.returnType.settledNames
      | none => fetched b settings property hosts found

theorem fetched_of_findSome? {hosts : List String} {found : TypeNames}
    {getter : Located FunctionDecl}
    (h : hosts.findSome? (b.decider? settings property) = some getter) :
    b.fetched settings property hosts found = getter.member.returnType.settledNames := by
  induction hosts generalizing found with
  | nil => cases h
  | cons host hosts ih =>
    rw [List.findSome?_cons, decider?] at h
    rw [fetched]
    cases hp : b.findProperty? host property with
    | some p =>
      rw [hp] at h
      exact ih h
    | none =>
      rw [hp, if_neg (by simp)] at h
      cases hm : b.magicGetter? settings host with
      | some other =>
        rw [hm] at h
        cases h
        rfl
      | none =>
        rw [hm] at h
        exact ih h

theorem mem_fetched_iff {hosts : List String} {found : TypeNames} {n : String}
    (h : hosts.findSome? (b.decider? settings property) = none) :
    n ∈ b.fetched settings property hosts found ↔ n ∈ found ∨
      ∃ host ∈ hosts, ∃ p, b.findProperty? host property = some p ∧
        n ∈ p.member.type.settledNames := by
  induction hosts generalizing found with
  | nil => simp [fetched]
  | cons host hosts ih =>
    rw [List.findSome?_cons, decider?] at h
    rw [fetched, List.exists_mem_cons_iff]
    cases hp : b.findProperty? host property with
    | some p =>
      rw [hp] at h
      simp only [ih h, SortedSet.mem_union, Option.some.injEq, exists_eq_left', or_assoc]
    | none =>
      rw [hp, if_neg (by simp)] at h
      cases hm : b.magicGetter? settings host with
      | some getter =>
        rw [hm] at h
        cases h
      | none =>
        rw [hm] at h
        simp only [ih h, reduceCtorEq, false_and, exists_false, false_or]

end Codebase

namespace Resolver

variable {b : Codebase} {settings : ResolverSettings} {property : String}

theorem returns_fetch (hb : b.HasPlainMembers) (settings : ResolverSettings) (depth : Nat)
    (context property : String) (hosts : List String) (found : TypeNames) (g : Guard) :
    ((b.resolver settings).fetch
      ((b.resolver settings).expandUnion (depth + 1) context) property hosts found).Returns
      g (b.fetched settings property hosts found) g := by
  induction hosts generalizing found with
  | nil => exact returns_pure found g
  | cons host hosts ih =>
    obtain ⟨_, rfl, hproperty⟩ := Codebase.knows_findProperty? (σ := Guard) b host property
    obtain ⟨_, rfl, hgetter⟩ := Codebase.knows_magicGetter (σ := Guard) b settings host
    rw [Codebase.fetched]
    apply (hproperty g).bind
    cases hp : b.findProperty? host property with
    | some p =>
      have hdeclared := returns_expandUnion_of_plain (b.resolver settings)
        (hb.of_findProperty? hp) depth context g
      exact hdeclared.bind (ih _)
    | none =>
      apply (hgetter g).bind
      cases hm : b.magicGetter? settings host with
      | some getter =>
        exact returns_expandUnion_of_plain _ (hb.of_magicGetter? hm) depth context g
      | none => exact ih found

theorem mem_of_bytes_lt_bytes {hosts : TypeNames} {before after : List String} {host other : String}
    (h : hosts.toList = before ++ host :: after) (hother : other ∈ hosts)
    (hlt : Text.bytes other < Text.bytes host) : other ∈ before := by
  have hsorted := hosts.increasing
  rw [h, List.pairwise_append, List.pairwise_cons] at hsorted
  rw [SortedSet.mem_def, h, List.mem_append, List.mem_cons] at hother
  obtain hbefore | rfl | hafter := hother
  · exact hbefore
  · exact absurd hlt (List.lt_irrefl _)
  · have hgt := Text.bytes_lt_bytes (hsorted.2.1.1 other hafter)
    exact absurd hlt (List.lt_asymm hgt)

/-- A property of a receiver, where properties and methods are declared by plain names: the first of
the hosts that the receiver comes to, in the order of their bytes, that does not declare it and has
a magic getter decides alone. If there is none, what the hosts declare adds up. -/
theorem resolve_propertyOf (b : Codebase) (hb : b.HasPlainMembers) (settings : ResolverSettings)
    (receiver : SymType) (property : String) (g : Guard)
    (hg : ¬ ("", .propertyOf receiver property) ∈ g) :
    ∃ hosts names w,
      ((b.resolver settings).resolve receiver).Returns
        (g.insert "" (.propertyOf receiver property)) hosts w ∧
      ((b.resolver settings).resolve (.propertyOf receiver property)).Returns g names w ∧
      ((∃ host ∈ hosts, ∃ getter, b.Decides settings property host getter ∧
          (∀ other ∈ hosts, Text.bytes other < Text.bytes host →
            ∀ getter, ¬ b.Decides settings property other getter) ∧
          names = getter.member.returnType.settledNames) ∨
        (∀ host ∈ hosts, ∀ getter, ¬ b.Decides settings property host getter) ∧
          ∀ n, n ∈ names ↔ ∃ host ∈ hosts, ∃ p,
            Codebase.firstProperty property (b.parentChain host) = some p ∧
              n ∈ p.member.type.settledNames) := by
  let t := SymType.propertyOf receiver property
  have hcard := Guard.card_unbegun_lt_bound b settings t.indirections (g.insert "" t)
  obtain ⟨depth, hdepth⟩ := Nat.exists_eq_add_one_of_ne_zero (Nat.ne_zero_of_lt hcard)
  obtain ⟨hosts, w, hinner, hown⟩ := exists_returns_resolve settings
    (fun x hx => .inl (SymType.mem_indirections_of_inner? (t := t) rfl hx)) (Nat.le_of_lt hcard)
  refine ⟨hosts, b.fetched settings property hosts.toList ∅, w, hown, ?_, ?_⟩
  · rw [resolve, expand_eq_once _ _ rfl]
    refine returns_once_of_not_mem hg (hinner.bind ?_)
    rw [hdepth]
    exact returns_fetch hb settings depth "" property hosts.toList ∅ w
  · cases hdecider : hosts.toList.findSome? (b.decider? settings property) with
    | some getter =>
      obtain ⟨before, host, after, hlist, hhost, hbefore⟩ :=
        List.findSome?_eq_some_iff.mp hdecider
      have hmem : host ∈ hosts := by
        rw [SortedSet.mem_def, hlist]
        exact List.mem_append_right _ List.mem_cons_self
      refine .inl ⟨host, hmem, getter, Codebase.decider?_eq_some_iff.mp hhost, ?_,
        Codebase.fetched_of_findSome? hdecider⟩
      intro other hother hlt getter' hdecides
      have hnone := hbefore other (mem_of_bytes_lt_bytes hlist hother hlt)
      rw [Codebase.decider?_eq_some_iff.mpr hdecides] at hnone
      cases hnone
    | none =>
      refine .inr ⟨fun host hhost getter hdecides => ?_, fun n => ?_⟩
      · have hnone := List.findSome?_eq_none_iff.mp hdecider host hhost
        rw [Codebase.decider?_eq_some_iff.mpr hdecides] at hnone
        cases hnone
      · rw [Codebase.mem_fetched_iff hdecider, or_iff_right SortedSet.not_mem_empty]
        simp only [Codebase.findProperty?_eq_firstProperty]
        rfl

def dynamicHosts : Codebase :=
  ({} : Codebase)
    |>.insertGlobal "v" (TypeUnion.ofNames ["C", "A", "B"])
    |>.insertClass { name := "A", properties := [{ name := "p", type := .ofNames ["int"] }] }
    |>.insertClass { name := "B", parent := some "D" }
    |>.insertClass { name := "C", parent := some "A" }
    |>.insertClass { name := "D", parent := some "B", traits := ["T"] }
    |>.insertTrait
      { name := "T"
        methods := [{ name := "__get", returnType := .ofNames ["string", "empty_array"] }] }

theorem hasPlainMembers_dynamicHosts : dynamicHosts.HasPlainMembers := by decide

theorem resolve_propertyOf_dynamicHosts :
    dynamicHosts.HasPlainMembers ∧ ¬ ("", .propertyOf (.global "v") "p") ∈ (∅ : Guard) ∧
    ((dynamicHosts.resolver {}).resolve (.propertyOf (.global "v") "p") ∅).answer =
      .ok (SortedSet.ofList ["array", "string"]) ∧
    ∃ hosts names w,
      ((dynamicHosts.resolver {}).resolve (.global "v")).Returns
        ((∅ : Guard).insert "" (.propertyOf (.global "v") "p")) hosts w ∧
      ((dynamicHosts.resolver {}).resolve (.propertyOf (.global "v") "p")).Returns ∅ names w ∧
      ((∃ host ∈ hosts, ∃ getter, dynamicHosts.Decides {} "p" host getter ∧
          (∀ other ∈ hosts, Text.bytes other < Text.bytes host →
            ∀ getter, ¬ dynamicHosts.Decides {} "p" other getter) ∧
          names = getter.member.returnType.settledNames) ∨
        (∀ host ∈ hosts, ∀ getter, ¬ dynamicHosts.Decides {} "p" host getter) ∧
          ∀ n, n ∈ names ↔ ∃ host ∈ hosts, ∃ p,
            Codebase.firstProperty "p" (dynamicHosts.parentChain host) = some p ∧
              n ∈ p.member.type.settledNames) :=
  ⟨hasPlainMembers_dynamicHosts, Guard.not_mem_empty _, rfl,
    resolve_propertyOf _ hasPlainMembers_dynamicHosts _ _ _ _ (Guard.not_mem_empty _)⟩

end Resolver

end SymbolicTypes
