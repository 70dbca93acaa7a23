import Mathlib.Logic.Relation
import SymbolicTypes.Proofs.Resolution.Growth
import SymbolicTypes.Proofs.Resolution.Shallow

namespace SymbolicTypes

open Query TypeNames

def SymType.IsFlat (t : SymType) : Prop := t.isShallow = true ∧ t ≠ .named emptyArrayName

instance : DecidablePred SymType.IsFlat :=
  fun t => inferInstanceAs (Decidable (t.isShallow = true ∧ t ≠ .named emptyArrayName))

def TypeUnion.IsFlat (u : TypeUnion) : Prop := ∀ t ∈ u, t.IsFlat

instance : DecidablePred TypeUnion.IsFlat :=
  fun u => inferInstanceAs (Decidable (∀ t ∈ u.toList, t.IsFlat))

namespace Codebase

variable {b : Codebase} {settings : ResolverSettings} {M : TypeUnion → Prop}

def Leads (b : Codebase) (settings : ResolverSettings) (t e : SymType) : Prop :=
  ∃ u, b.target? settings t = some u ∧ e ∈ u

abbrev Reaches (b : Codebase) (settings : ResolverSettings) : SymType → SymType → Prop :=
  Relation.ReflTransGen (b.Leads settings)

theorem Reaches.isFlat (hb : b.Declares TypeUnion.IsFlat M) {t e : SymType}
    (h : b.Reaches settings t e) (ht : t.IsFlat) : e.IsFlat := by
  induction h with
  | refl => exact ht
  | tail _ hlast _ =>
    obtain ⟨u, hu, he⟩ := hlast
    exact hb.of_target? hu _ he

end Codebase

namespace Resolver

variable {b : Codebase} {settings : ResolverSettings} {M : TypeUnion → Prop}
  {g v w : Guard} {t : SymType} {l : List SymType} {names rest : TypeNames}

/-- A plain name is among the names, a reference has begun. -/
structure Covers (names : TypeNames) (w : Guard) (t : SymType) : Prop where
  named : ∀ n, t = .named n → n ∈ names
  begun : t.isNamed = false → ("", t) ∈ w

theorem Covers.mono {names' : TypeNames} (h : Covers names v t) (hnames : ∀ n ∈ names, n ∈ names')
    (hv : ∀ p ∈ v, p ∈ w) : Covers names' w t :=
  ⟨fun n hn => hnames n (h.named n hn), fun hn => hv _ (h.begun hn)⟩

/-- The state of a depth-first search over the references: from the guard `g` it has covered the
types in the list and all that the references begun since then lead to. -/
structure Closes (b : Codebase) (settings : ResolverSettings) (g : Guard) (l : List SymType)
    (names : TypeNames) (w : Guard) : Prop where
  kept : ∀ p ∈ g, p ∈ w
  sound : ∀ n ∈ names, ∃ t ∈ l, b.Reaches settings t (.named n)
  members : ∀ t ∈ l, Covers names w t
  followed : ∀ t, ("", t) ∈ w → ¬ ("", t) ∈ g → ∀ e, b.Leads settings t e → Covers names w e

theorem closes_nil : Closes b settings g [] ∅ g where
  kept _ hp := hp
  sound _ hn := absurd hn SortedSet.not_mem_empty
  members _ ht := absurd ht List.not_mem_nil
  followed _ hw hg := absurd hw hg

theorem closes_named (n : String) : Closes b settings g [.named n] (SortedSet.ofList [n]) g where
  kept _ hp := hp
  sound m hm := by
    obtain rfl : m = n := by simpa using hm
    exact ⟨.named m, List.mem_cons_self, .refl⟩
  members t ht := by
    obtain rfl := List.mem_singleton.mp ht
    refine ⟨fun m hm => ?_, fun h => absurd h (by simp [SymType.isNamed])⟩
    simpa using (SymType.named.inj hm).symm
  followed _ hw hg := absurd hw hg

theorem closes_of_mem (ht : t.isNamed = false) (h : ("", t) ∈ g) : Closes b settings g [t] ∅ g where
  kept _ hp := hp
  sound _ hn := absurd hn SortedSet.not_mem_empty
  members s hs := by
    obtain rfl := List.mem_singleton.mp hs
    exact ⟨fun n hn => absurd hn (SymType.ne_named ht n), fun _ => h⟩
  followed _ hw hg := absurd hw hg

theorem Closes.append (h : Closes b settings g [t] names v) (h' : Closes b settings v l rest w) :
    Closes b settings g (t :: l) (names ∪ rest) w where
  kept p hp := h'.kept p (h.kept p hp)
  sound n hn := by
    obtain hn | hn := SortedSet.mem_union.mp hn
    · obtain ⟨s, hs, hreach⟩ := h.sound n hn
      exact ⟨s, List.mem_cons.mpr (.inl (List.mem_singleton.mp hs)), hreach⟩
    · obtain ⟨s, hs, hreach⟩ := h'.sound n hn
      exact ⟨s, List.mem_cons_of_mem t hs, hreach⟩
  members s hs := by
    obtain rfl | hs := List.mem_cons.mp hs
    · exact (h.members s List.mem_cons_self).mono
        (fun n hn => SortedSet.mem_union.mpr (.inl hn)) h'.kept
    · exact (h'.members s hs).mono (fun n hn => SortedSet.mem_union.mpr (.inr hn)) fun _ => id
  followed s hw hg e he := by
    -- what was begun by the first type was followed by it
    by_cases hv : ("", s) ∈ v
    · exact (h.followed s hv hg e he).mono
        (fun n hn => SortedSet.mem_union.mpr (.inl hn)) h'.kept
    · exact (h'.followed s hw hv e he).mono
        (fun n hn => SortedSet.mem_union.mpr (.inr hn)) fun _ => id

theorem Closes.once (ht : t.isNamed = false)
    (hl : ∀ e, b.Leads settings t e ↔ e ∈ l)
    (h : Closes b settings (g.insert "" t) l names w) : Closes b settings g [t] names w where
  kept p hp := h.kept p (Guard.mem_insert.mpr (.inr hp))
  sound n hn := by
    obtain ⟨e, he, hreach⟩ := h.sound n hn
    exact ⟨t, List.mem_cons_self, .head ((hl e).mpr he) hreach⟩
  members s hs := by
    obtain rfl := List.mem_singleton.mp hs
    exact ⟨fun n hn => absurd hn (SymType.ne_named ht n),
      fun _ => h.kept _ (Guard.mem_insert.mpr (.inl rfl))⟩
  followed s hw hg e he := by
    by_cases hs : s = t
    · subst hs
      exact h.members e ((hl e).mp he)
    · refine h.followed s hw (fun hin => ?_) e he
      obtain heq | hin := Guard.mem_insert.mp hin
      · exact hs (congrArg Prod.snd heq)
      · exact hg hin

theorem Closes.settleEmptyArray (hb : b.Declares TypeUnion.IsFlat M) (hl : ∀ t ∈ l, t.IsFlat)
    (h : Closes b settings g l names w) : names.settleEmptyArray = names := by
  have hnot : ¬ emptyArrayName ∈ names := by
    intro hin
    obtain ⟨t, ht, hreach⟩ := h.sound _ hin
    exact (hreach.isFlat hb (hl t ht)).2 rfl
  unfold TypeNames.settleEmptyArray
  exact if_neg fun hc => hnot (SortedSet.contains_iff.mp hc)

section

variable {query : List SymType} {depth : Nat}

theorem expand_closes (hb : b.Declares TypeUnion.IsFlat M) (ht : t.IsFlat)
    (hwithin : ∀ x ∈ t.indirections, x ∈ query ∨ x ∈ b.indirections)
    (hcard : (g.unbegun b query).card < depth + 1)
    (ih : ∀ {u : TypeUnion} {g : Guard}, u.IsFlat →
      (∀ t ∈ u, ∀ x ∈ t.indirections, x ∈ query ∨ x ∈ b.indirections) →
      (g.unbegun b query).card < depth → ∃ names w,
      ((b.resolver settings).expandUnion depth "" u).Returns g names w ∧
        Closes b settings g u.toList names w) :
    ∃ names w, ((b.resolver settings).expand ((b.resolver settings).expandUnion depth) "" t).Returns
      g names w ∧ Closes b settings g [t] names w := by
  by_cases hnamed : t.isNamed = true
  · obtain ⟨n, rfl⟩ := SymType.exists_eq_named hnamed
    exact ⟨_, g, returns_pure _ g, closes_named n⟩
  have hnamed : t.isNamed = false := Bool.eq_false_iff.mpr hnamed
  rw [expand_reference _ _ _ (SymType.isReference_of_isShallow ht.1 hnamed), SymType.base_empty]
  by_cases hg : ("", t) ∈ g
  · exact ⟨∅, g, returns_once_of_mem hg, closes_of_mem hnamed hg⟩
  obtain ⟨_, rfl, htarget⟩ := b.knows_target (σ := Guard) settings t
  cases hu : b.target? settings t with
  | none =>
    have hleads : ∀ e, b.Leads settings t e ↔ e ∈ [] := by simp [Codebase.Leads, hu]
    refine ⟨∅, _, returns_once_of_not_mem hg ((htarget _).bind ?_), closes_nil.once hnamed hleads⟩
    rw [hu]
    exact returns_pure ∅ _
  | some u =>
    have hleads : ∀ e, b.Leads settings t e ↔ e ∈ u.toList := by
      intro e
      simp only [Codebase.Leads, hu, Option.some.injEq, exists_eq_left']
      exact Iff.rfl
    have hless := Guard.card_unbegun_insert_lt b.isContext_empty
      (hwithin t (SymType.mem_indirections_self hnamed)) hg
    obtain ⟨names, w, hrun, hcloses⟩ := ih (hb.of_target? hu)
      (fun e he x hx => .inr (Codebase.mem_indirections_of_mem_unions
        (b.declares_unions.of_target? hu) he hx)) (Nat.lt_of_lt_of_le hless (Nat.le_of_lt_succ hcard))
    refine ⟨names, w, returns_once_of_not_mem hg ((htarget _).bind ?_), hcloses.once hnamed hleads⟩
    rw [hu]
    exact hrun

/-- The search is closed whatever was begun before, as long as it may go deeper than there are pairs
left to begin. -/
theorem expandUnion_closes (hb : b.Declares TypeUnion.IsFlat M) {u : TypeUnion} (hu : u.IsFlat)
    (hwithin : ∀ t ∈ u, ∀ x ∈ t.indirections, x ∈ query ∨ x ∈ b.indirections)
    (hcard : (g.unbegun b query).card < depth) :
    ∃ names w, ((b.resolver settings).expandUnion depth "" u).Returns g names w ∧
      Closes b settings g u.toList names w := by
  induction depth generalizing u g with
  | zero => exact absurd hcard (Nat.not_lt_zero _)
  | succ depth ih =>
    have hmembers {l : List SymType} (hl : ∀ t ∈ l, t ∈ u) {g : Guard}
        (hcard : (g.unbegun b query).card < depth + 1) :
        ∃ names w, (gather (fun t => Query.asMember t ((b.resolver settings).expand
            ((b.resolver settings).expandUnion depth) "" t)) l).Returns g names w ∧
          Closes b settings g l names w := by
      induction l generalizing g with
      | nil => exact ⟨∅, g, returns_pure ∅ g, closes_nil⟩
      | cons t l ihl =>
        have ht : t ∈ u := hl t List.mem_cons_self
        obtain ⟨names, v, hrun, hfirst⟩ := expand_closes hb (hu t ht) (hwithin t ht) hcard ih
        have hle := Guard.card_unbegun_le b query hfirst.kept
        obtain ⟨rest, w, hrest, hclosed⟩ := ihl (fun s hs => hl s (List.mem_cons_of_mem t hs))
          (Nat.lt_of_le_of_lt hle hcard)
        exact ⟨_, w, (hrun.asMember t).bind (hrest.bind (returns_pure _ w)), hfirst.append hclosed⟩
    obtain ⟨names, w, hrun, hcloses⟩ := hmembers (fun _ => id) hcard
    refine ⟨names, w, ?_, hcloses⟩
    have hsettle := hrun.bind (f := fun names => Pure.pure names.settleEmptyArray)
      (returns_pure _ w)
    rwa [hcloses.settleEmptyArray hb hu] at hsettle

end

/-- In a codebase of flat types the names of a union are the plain names that its members lead to,
however the declarations refer to each other. -/
theorem mem_resolveUnion_iff_reaches (b : Codebase) (settings : ResolverSettings)
    (hb : b.Declares TypeUnion.IsFlat fun _ => True) (u : TypeUnion) (hu : u.IsFlat) :
    ∃ names w, ((b.resolver settings).resolveUnion u).Returns ∅ names w ∧
      ∀ n, n ∈ names ↔ ∃ t ∈ u, b.Reaches settings t (.named n) := by
  obtain ⟨names, w, hrun, hcloses⟩ := expandUnion_closes hb hu
    (fun t ht x hx => .inl (List.mem_flatMap.mpr ⟨t, ht, hx⟩))
    (Guard.card_unbegun_lt_bound b settings (u.toList.flatMap SymType.indirections) ∅)
  refine ⟨names, w, hrun, fun n => ⟨hcloses.sound n, ?_⟩⟩
  rintro ⟨t, ht, hreach⟩
  have hcovers {e : SymType} (h : b.Reaches settings t e) : Covers names w e := by
    induction h with
    | refl => exact hcloses.members t ht
    | tail _ hlast hs =>
      obtain ⟨v, hv, he⟩ := hlast
      have hbegun := hs.begun (SymType.isNamed_of_isReference (Codebase.isReference_of_target? hv))
      exact hcloses.followed _ hbegun (Guard.not_mem_empty _) _ ⟨v, hv, he⟩
  exact (hcovers hreach).named n rfl

def roundabout : Codebase :=
  ({} : Codebase)
    |>.insertGlobal "g" (TypeUnion.ofList [.named "string", .callOf "\\App\\f"])
    |>.insertFunction
      { name := "\\f", returnType := TypeUnion.ofList [.global "g", .staticPropertyOf "C" "p"] }
    |>.insertClass
      { name := "C"
        interfaces := ["I"]
        properties :=
          [{ name := "p", type := TypeUnion.ofList [.named "float", .interfaceParam 0 "C" "m"] }] }
    |>.insertClass
      { name := "I"
        methods :=
          [{ name := "m"
             parameters := [{ name := "x", type := TypeUnion.ofList [.named "bool", .global "g"] }] }] }

theorem declares_roundabout : roundabout.Declares TypeUnion.IsFlat fun _ => True := by decide

theorem mem_resolveUnion_roundabout :
    roundabout.Declares TypeUnion.IsFlat (fun _ => True) ∧
    (TypeUnion.ofList [.named "int", .global "g"]).IsFlat ∧
    ∃ names w, ((roundabout.resolver {}).resolveUnion
        (TypeUnion.ofList [.named "int", .global "g"])).Returns ∅ names w ∧
      ∀ n, n ∈ names ↔ ∃ t ∈ TypeUnion.ofList [.named "int", .global "g"],
        roundabout.Reaches {} t (.named n) :=
  ⟨declares_roundabout, by decide,
    mem_resolveUnion_iff_reaches _ _ declares_roundabout _ (by decide)⟩

example : ((roundabout.resolver {}).resolveUnion
    (TypeUnion.ofList [.named "int", .global "g"]) ∅).answer =
    .ok (SortedSet.ofList ["bool", "float", "int", "string"]) := rfl

end Resolver

end SymbolicTypes
