import Mathlib.Data.List.Basic
import Mathlib.Tactic.Choose
import SymbolicTypes.Proofs.Resolution.Shallow

namespace SymbolicTypes

open Query

/-- Whether one indirection is inside both types. -/
def SymType.meets (s t : SymType) : Bool := s.indirections.any fun e => e ∈ t.indirections

theorem SymType.meets_iff {s t : SymType} :
    s.meets t = true ↔ ∃ e ∈ s.indirections, e ∈ t.indirections := by
  simp [meets]

theorem SymType.lt_iff_mem_of_increasing {ts l : List SymType} {s t : SymType}
    (h : (ts ++ t :: l).Pairwise fun s t => compare s t = .lt) (hs : s ∈ ts ++ t :: l) :
    compare s t = .lt ↔ s ∈ ts := by
  obtain ⟨_, hl, hts⟩ := List.pairwise_append.mp h
  refine ⟨fun hlt => ?_, fun hs => hts s hs t List.mem_cons_self⟩
  obtain hs | hs := List.mem_append.mp hs
  · exact hs
  · exfalso
    obtain rfl | hs := List.mem_cons.mp hs
    · rw [Std.ReflOrd.compare_self] at hlt
      exact absurd hlt (by decide)
    · have hgt : compare t s = .lt := (List.pairwise_cons.mp hl).1 s hs
      rw [Std.OrientedCmp.gt_iff_lt.mpr hgt] at hlt
      exact absurd hlt (by decide)

/-- The members that meet no smaller member. -/
def TypeUnion.apart (u : TypeUnion) : List SymType :=
  u.toList.filter fun t => u.toList.all fun s => !(compare s t == .lt && s.meets t)

theorem TypeUnion.mem_apart {u : TypeUnion} {t : SymType} :
    t ∈ u.apart ↔ t ∈ u.toList ∧ ∀ s ∈ u.toList, compare s t = .lt → s.meets t = false := by
  simp [apart, or_iff_not_imp_left]

namespace Guard

variable {g w : Guard} {ts : List SymType} {t : SymType}

def Records (g : Guard) (ts : List SymType) : Prop :=
  ∀ p, p ∈ g ↔ p.1 = "" ∧ ∃ s ∈ ts, p.2 ∈ s.indirections

theorem records_empty : (∅ : Guard).Records [] := by
  intro p
  simp [not_mem_empty]

theorem Records.append (hg : g.Records ts)
    (hw : ∀ p, p ∈ w ↔ p ∈ g ∨ p.1 = "" ∧ p.2 ∈ t.indirections) : w.Records (ts ++ [t]) := by
  intro p
  rw [hw, hg]
  simp only [List.mem_append, List.mem_singleton, or_and_right, exists_or, exists_eq_left,
    and_or_left]

theorem Records.mem_of_mem_indirections (hg : g.Records ts) {e x : SymType} (he : ("", e) ∈ g)
    (hx : x ∈ e.indirections) : ("", x) ∈ g := by
  obtain ⟨_, s, hs, he⟩ := (hg _).mp he
  exact (hg _).mpr ⟨rfl, s, hs, SymType.mem_indirections_trans he hx⟩

theorem Records.exists_mem_of_meets (hg : g.Records ts) (h : ts.any (·.meets t) = true) :
    ∃ e ∈ t.indirections, ("", e) ∈ g := by
  obtain ⟨s, hs, hst⟩ := List.any_eq_true.mp h
  obtain ⟨e, hes, het⟩ := SymType.meets_iff.mp hst
  exact ⟨e, het, (hg _).mpr ⟨rfl, s, hs, hes⟩⟩

theorem Records.agree_empty (hg : g.Records ts) (h : ¬ ts.any (·.meets t) = true) :
    Agree (fun p => p.1 = "" ∧ p.2 ∈ t.indirections) g ∅ where
  mem p hp := by
    refine iff_of_false (fun hin => h ?_) (not_mem_empty p)
    obtain ⟨_, s, hs, hps⟩ := (hg p).mp hin
    have hst : s.meets t = true := SymType.meets_iff.mpr ⟨p.2, hps, hp.2⟩
    exact List.any_eq_true.mpr ⟨s, hs, hst⟩
  left p hin := by
    obtain ⟨_, s, _, hps⟩ := (hg p).mp hin
    exact SymType.isNamed_of_mem_indirections hps
  right := isProper_empty

end Guard

namespace Resolver

/-- Outside of any class the query begins the types in the list and no others, and comes to nothing
if one of them was begun before. The guards are those that hold a type along with all inside it. -/
def Begins (ts : List SymType) (q : Query Guard TypeNames) : Prop :=
  ∀ g : Guard, (∀ e ∈ ts, ("", e) ∈ g → ∀ x ∈ e.indirections, ("", x) ∈ g) →
    ∃ names w, q.Returns g names w ∧ (∀ p, p ∈ w ↔ p ∈ g ∨ p.1 = "" ∧ p.2 ∈ ts) ∧
      ((∃ e ∈ ts, ("", e) ∈ g) → names = ∅)

theorem begins_nil {q : Query Guard TypeNames} (h : q.Knows fun _ => True) : Begins [] q := by
  intro g _
  obtain ⟨names, _, h⟩ := h
  exact ⟨names, g, h g, by simp, by simp⟩

theorem Begins.bind {ts : List SymType} {q : Query Guard TypeNames}
    {f : TypeNames → Query Guard TypeNames} (hq : Begins ts q)
    (hf : ∀ names, (f names).Knows fun _ => True) (hnone : f ∅ = Pure.pure ∅) :
    Begins ts (q >>= f) := by
  intro g hg
  obtain ⟨names, w, hq, hw, hempty⟩ := hq g hg
  obtain ⟨a, _, hf⟩ := hf names
  refine ⟨a, w, hq.bind (hf w), hw, fun h => ?_⟩
  have hnames := hf w
  rw [hempty h, hnone] at hnames
  exact (hnames.unique (returns_pure ∅ w)).1

theorem Begins.once {t : SymType} {ts : List SymType} {q : Query Guard TypeNames}
    (hq : Begins ts q) (hts : t.indirections = t :: ts) (ht : ¬ t ∈ ts) :
    Begins t.indirections (once "" t q) := by
  intro g hg
  by_cases h : ("", t) ∈ g
  · have hin : ∀ x ∈ t.indirections, ("", x) ∈ g :=
      hg t (hts ▸ List.mem_cons_self) h
    refine ⟨∅, g, returns_once_of_mem h, fun p => ⟨.inl, ?_⟩, fun _ => rfl⟩
    intro hp
    obtain hp | ⟨hp, hx⟩ := hp
    · exact hp
    · have := hin p.2 hx
      rwa [← hp] at this
  · have hclosed : ∀ e ∈ ts, ("", e) ∈ g.insert "" t →
        ∀ x ∈ e.indirections, ("", x) ∈ g.insert "" t := by
      intro e he hin x hx
      obtain heq | hin := Guard.mem_insert.mp hin
      · have heq : e = t := congrArg Prod.snd heq
        exact absurd (heq ▸ he) ht
      · exact Guard.mem_insert.mpr (.inr (hg e (hts ▸ List.mem_cons_of_mem t he) hin x hx))
    obtain ⟨names, w, hq, hw, hempty⟩ := hq _ hclosed
    refine ⟨names, w, returns_once_of_not_mem h hq, fun p => ?_, ?_⟩
    · rw [hw, Guard.mem_insert, hts, List.mem_cons, Prod.ext_iff, and_or_left, or_assoc]
      exact or_left_comm
    · intro hmet
      obtain ⟨e, he, hin⟩ := hmet
      rw [hts, List.mem_cons] at he
      obtain rfl | he := he
      · exact absurd hin h
      · exact hempty ⟨e, he, Guard.mem_insert.mpr (.inr hin)⟩

section

variable {b : Codebase} {V M : TypeUnion → Prop} {settings : ResolverSettings}
  {d : String → TypeUnion → Query Guard TypeNames}

theorem expand_begins {t : SymType} (hb : b.Declares V M)
    (hv : t.isNamed = false → ∀ c u, V u → (d c u).Knows fun _ => True)
    (hm : t.isNamed = false → ∀ c u, M u → (d c u).Knows fun _ => True) :
    Begins t.indirections ((b.resolver settings).expand d "" t) := by
  induction t with
  | named n => exact begins_nil (knows_pure trivial)
  | global | constant | callOf | staticPropertyOf | interfaceParam =>
    rw [expand_reference _ _ _ rfl]
    apply (begins_nil _).once rfl List.not_mem_nil
    apply (Codebase.knows_target b settings _).bind
    rintro o rfl
    cases hu : b.target? settings _ with
    | none => exact knows_pure trivial
    | some u => exact hv rfl _ u (hb.of_target? hu)
  | arrayOf e ih | elementOf e ih =>
    apply Begins.once _ rfl (SymType.not_mem_indirections_of_sizeOf_lt (by simp))
    refine (ih (fun _ => hv rfl) (fun _ => hm rfl)).bind ?_ rfl
    intro names
    exact knows_pure trivial
  | methodOf e m ih =>
    apply Begins.once _ rfl (SymType.not_mem_indirections_of_sizeOf_lt (by simp; omega))
    refine (ih (fun _ => hv rfl) (fun _ => hm rfl)).bind ?_ rfl
    intro hosts
    apply knows_of_alike
    intro R
    apply gather_composes composes_alike
    intro host _
    exact callOn_alike fun m hfound => (hm rfl host _ (hb.of_findMethod? hfound)).alike
  | propertyOf e p ih =>
    apply Begins.once _ rfl (SymType.not_mem_indirections_of_sizeOf_lt (by simp; omega))
    refine (ih (fun _ => hv rfl) (fun _ => hm rfl)).bind ?_ rfl
    intro hosts
    apply knows_of_alike
    intro R
    exact fetch_alike (fun _ _ hfound => (hv rfl "" _ (hb.of_findProperty? hfound)).alike)
      (fun _ _ hfound => (hm rfl "" _ (hb.of_magicGetter? hfound)).alike) _ ∅
  | staticMethodOf c m =>
    apply (begins_nil _).once rfl List.not_mem_nil
    apply knows_of_alike
    intro R
    exact callOn_alike fun m hfound => (hm rfl c _ (hb.of_findMethod? hfound)).alike

end

section

variable {b : Codebase} {settings : ResolverSettings} {names : SymType → TypeNames} {depth : Nat}

theorem expand_of_records (hb : b.Declares TypeUnion.IsPlain TypeUnion.IsPlain) {t : SymType}
    {own : TypeNames} {w : Guard} (hown : ((b.resolver settings).resolve t).Returns ∅ own w)
    (hdepth : t.isNamed = false → 0 < depth) {ts : List SymType} {g : Guard} (hg : g.Records ts) :
    ∃ w, ((b.resolver settings).expand ((b.resolver settings).expandUnion depth) "" t).Returns g
        (if ts.any (·.meets t) then ∅ else own) w ∧
      w.Records (ts ++ [t]) := by
  have hknows (h : t.isNamed = false) (c : String) (u : TypeUnion) (hu : u.IsPlain) :
      ((b.resolver settings).expandUnion depth c u).Knows fun _ => True := by
    obtain ⟨n, rfl⟩ := Nat.exists_eq_add_of_le' (hdepth h)
    exact knows_expandUnion_of_plain _ hu n c
  obtain ⟨found, v, hrun, hv, hempty⟩ := expand_begins hb hknows hknows g
    fun e _ he x hx => hg.mem_of_mem_indirections he hx
  refine ⟨v, ?_, hg.append hv⟩
  by_cases hmeets : ts.any (·.meets t) = true
  · rw [if_pos hmeets]
    exact hempty (hg.exists_mem_of_meets hmeets) ▸ hrun
  · -- nothing inside the type has begun, so the guard is as good as an empty one
    rw [if_neg hmeets]
    have halike (h : t.isNamed = false) (c : String) (u : TypeUnion) (hu : u.IsPlain) :
        Alike (Guard.Agree fun p => p.1 = "" ∧ p.2 ∈ t.indirections)
          ((b.resolver settings).expandUnion depth c u)
          ((b.resolver settings).expandUnion ((b.resolver settings).bound t.indirections) c u) := by
      obtain ⟨n, rfl⟩ := Nat.exists_eq_add_of_le' (hdepth h)
      exact expandUnion_alike_of_plain _ hu n _ c
    obtain ⟨found', _, _, hrun', hfresh, _⟩ := expand_alike hb halike halike
      (fun x hx => ⟨rfl, hx⟩) g ∅ (hg.agree_empty hmeets)
    have hsame : found = found' := (hrun.unique hrun').1
    have hfound : found' = own := (hfresh.unique hown).1
    exact hfound ▸ hsame ▸ hrun

theorem mem_ite_meets_iff {ts l : List SymType} {t : SymType} {own : TypeNames} {n : String}
    (h : (ts ++ t :: l).Pairwise fun s t => compare s t = .lt) :
    n ∈ (if ts.any (·.meets t) then ∅ else own) ↔
      (∀ s ∈ ts ++ t :: l, compare s t = .lt → s.meets t = false) ∧ n ∈ own := by
  by_cases hmeets : ts.any (·.meets t) = true
  · obtain ⟨s, hs, hst⟩ := List.any_eq_true.mp hmeets
    have hin : s ∈ ts ++ t :: l := List.mem_append_left _ hs
    have hlt : compare s t = .lt := (SymType.lt_iff_mem_of_increasing h hin).mpr hs
    rw [if_pos hmeets]
    refine iff_of_false SortedSet.not_mem_empty fun hall => ?_
    exact absurd hst (by simp [hall.1 s hin hlt])
  · rw [if_neg hmeets]
    refine (and_iff_right fun s hs hlt => ?_).symm
    have hst : s ∈ ts := (SymType.lt_iff_mem_of_increasing h hs).mp hlt
    exact Bool.eq_false_iff.mpr fun hmeet => hmeets (List.any_eq_true.mpr ⟨s, hst, hmeet⟩)

theorem gather_of_records (hb : b.Declares TypeUnion.IsPlain TypeUnion.IsPlain)
    (hnames : ∀ t, ∃ w, ((b.resolver settings).resolve t).Returns ∅ (names t) w)
    {ts l : List SymType} (hdepth : ∀ t ∈ l, t.isNamed = false → 0 < depth)
    (hl : (ts ++ l).Pairwise fun s t => compare s t = .lt) {g : Guard} (hg : g.Records ts) :
    ∃ all w, (gather (fun t => Query.asMember t
        ((b.resolver settings).expand ((b.resolver settings).expandUnion depth) "" t)) l).Returns
        g all w ∧
      ∀ n, n ∈ all ↔
        ∃ t ∈ l, (∀ s ∈ ts ++ l, compare s t = .lt → s.meets t = false) ∧ n ∈ names t := by
  induction l generalizing ts g with
  | nil => exact ⟨∅, g, returns_pure ∅ g, by simp⟩
  | cons t l ih =>
    obtain ⟨_, hown⟩ := hnames t
    obtain ⟨v, hrun, hv⟩ := expand_of_records hb hown (hdepth t List.mem_cons_self) hg
    have happend : ts ++ [t] ++ l = ts ++ t :: l := by simp
    obtain ⟨rest, w, hrest, hmem⟩ := ih (fun s hs => hdepth s (List.mem_cons_of_mem t hs))
      (happend ▸ hl) hv
    refine ⟨_, w, (hrun.asMember t).bind (hrest.bind (returns_pure _ w)), fun n => ?_⟩
    rw [SortedSet.mem_union, mem_ite_meets_iff hl, hmem, happend, List.exists_mem_cons_iff]

/-- In a codebase without indirections the members of a union are expanded one by one, except that
a member means nothing where it shares an indirection with a smaller one. -/
theorem resolveUnion_of_plain (b : Codebase) (settings : ResolverSettings)
    (hb : b.Declares TypeUnion.IsPlain TypeUnion.IsPlain) (u : TypeUnion) :
    ∃ names : SymType → TypeNames,
      (∀ t, ((b.resolver settings).resolve t ∅).answer = .ok (names t)) ∧
      ((b.resolver settings).resolveUnion u ∅).answer =
        .ok (TypeNames.unionOf names u.apart).settleEmptyArray := by
  choose names hnames using exists_returns_resolve_of_shallow settings
    (hb.mono fun _ hu => hu.isShallow)
  refine ⟨names, fun t => (hnames t).choose_spec.answer, ?_⟩
  have hdepth : ∀ t ∈ u.toList, t.isNamed = false → 0 < (b.resolver settings).bound
      (u.toList.flatMap SymType.indirections) - 1 := by
    intro t ht hn
    have hne : u.toList.flatMap SymType.indirections ≠ [] :=
      List.ne_nil_of_mem (List.mem_flatMap.mpr ⟨t, ht, SymType.mem_indirections_self hn⟩)
    have := one_lt_bound (b.resolver settings) hne
    omega
  have hincreasing : List.Pairwise (fun s t => compare s t = Ordering.lt) ([] ++ u.toList) :=
    u.members.increasing
  obtain ⟨all, w, hall, hmem⟩ := gather_of_records hb hnames hdepth hincreasing
    Guard.records_empty
  have hunion : all = TypeNames.unionOf names u.apart := by
    apply SortedSet.ext
    intro n
    simp only [hmem, TypeNames.mem_unionOf, TypeUnion.mem_apart, List.nil_append, and_assoc]
  have hsettle := hall.bind (f := fun names => Pure.pure names.settleEmptyArray)
    (returns_pure _ w)
  rw [hunion] at hsettle
  exact hsettle.answer

end

def integerGlobal : Codebase := ({} : Codebase).insertGlobal "g" (TypeUnion.ofNames ["int"])

theorem declares_integerGlobal :
    integerGlobal.Declares TypeUnion.IsPlain TypeUnion.IsPlain := by decide

theorem resolveUnion_integerGlobal :
    integerGlobal.Declares TypeUnion.IsPlain TypeUnion.IsPlain ∧
      ∃ names : SymType → TypeNames,
        (∀ t, ((integerGlobal.resolver {}).resolve t ∅).answer = .ok (names t)) ∧
        ((integerGlobal.resolver {}).resolveUnion
            (TypeUnion.ofList [.global "g", .arrayOf (.global "g")]) ∅).answer =
          .ok (TypeNames.unionOf names
            (TypeUnion.ofList [.global "g", .arrayOf (.global "g")]).apart).settleEmptyArray :=
  ⟨declares_integerGlobal, resolveUnion_of_plain _ _ declares_integerGlobal _⟩

/-- The global is begun as a member in its own right, and the array over it comes to nothing. -/
theorem resolveUnion_loses_array :
    ¬ ∀ (b : Codebase) (settings : ResolverSettings),
      b.Declares TypeUnion.IsPlain TypeUnion.IsPlain → ∀ u : TypeUnion,
      ∃ names : SymType → TypeNames,
        (∀ t, ((b.resolver settings).resolve t ∅).answer = .ok (names t)) ∧
        ((b.resolver settings).resolveUnion u ∅).answer =
          .ok (TypeNames.unionOf names u.toList).settleEmptyArray := by
  intro h
  obtain ⟨names, hnames, hunion⟩ := h integerGlobal {} declares_integerGlobal
    (TypeUnion.ofList [.global "g", .arrayOf (.global "g")])
  have hglobal : names (.global "g") = SortedSet.ofList ["int"] :=
    Except.ok.inj ((hnames (.global "g")).symm.trans rfl)
  have harray : names (.arrayOf (.global "g")) = SortedSet.ofList ["int[]"] :=
    Except.ok.inj ((hnames (.arrayOf (.global "g"))).symm.trans rfl)
  have hint : ((integerGlobal.resolver {}).resolveUnion
      (TypeUnion.ofList [.global "g", .arrayOf (.global "g")]) ∅).answer =
      .ok (SortedSet.ofList ["int"]) := rfl
  have hmembers : (TypeUnion.ofList [.global "g", .arrayOf (.global "g")]).toList =
      [.global "g", .arrayOf (.global "g")] := rfl
  have hsettled := Except.ok.inj (hint.symm.trans hunion)
  rw [hmembers, TypeNames.unionOf, List.flatMap_cons, List.flatMap_cons, List.flatMap_nil, hglobal,
    harray] at hsettled
  exact absurd hsettled (by decide)

end Resolver

end SymbolicTypes
