import Mathlib.Tactic.Choose
import SymbolicTypes.Proofs.Resolution.Plain

namespace SymbolicTypes

open Query

def SymType.isShallow (t : SymType) : Bool := t.isNamed || t.isReference

theorem SymType.isReference_of_isShallow {t : SymType} (h : t.isShallow = true)
    (ht : t.isNamed = false) : t.isReference = true := by
  simpa [isShallow, ht] using h

def TypeUnion.IsShallow (u : TypeUnion) : Prop := ∀ t ∈ u, t.isShallow = true

instance : DecidablePred TypeUnion.IsShallow :=
  fun u => inferInstanceAs (Decidable (∀ t ∈ u.toList, t.isShallow = true))

theorem SortedSet.nodup {α : Type} [Ord α] [Std.ReflOrd α] (s : SortedSet α) : s.toList.Nodup := by
  refine s.increasing.imp fun {x y} hlt heq => ?_
  rw [heq, Std.ReflOrd.compare_self] at hlt
  exact absurd hlt (by decide)

theorem TypeUnion.IsPlain.isShallow {u : TypeUnion} (h : u.IsPlain) : u.IsShallow :=
  fun t ht => by simp [SymType.isShallow, h t ht]

namespace Resolver

variable {b : Codebase} {settings : ResolverSettings} {own names : SymType → TypeNames}

/-- From a proper guard the query answers `names` and begins, for one class, the indirections in
the list. -/
structure Adds (context : String) (ts : List SymType) (q : Query Guard TypeNames) (g : Guard)
    (names : TypeNames) (w : Guard) : Prop where
  returns : q.Returns g names w
  mem : ∀ p, p ∈ w ↔ p ∈ g ∨ p.1 = context ∧ p.2 ∈ ts ∧ p.2.isNamed = false

theorem Adds.isProper {context : String} {ts : List SymType} {q : Query Guard TypeNames}
    {g w : Guard} {names : TypeNames} (h : Adds context ts q g names w) (hg : g.IsProper) :
    w.IsProper := by
  intro p hp
  obtain hp | hp := (h.mem p).mp hp
  · exact hg p hp
  · exact hp.2.2

/-- What shallow types stand for. Only the guard can keep them from it. -/
def Reads (r : Resolver) (own : SymType → TypeNames) : Prop :=
  ∀ t, t.isShallow = true → ∀ depth context g, g.IsProper →
    ∃ w, Adds context [t] (r.expand (r.expandUnion (depth + 1)) context t) g
      (if g.contains context t then ∅ else own t) w

theorem once_adds {context : String} {t : SymType} {q : Query Guard TypeNames} {g : Guard}
    {names : TypeNames} (ht : t.isNamed = false)
    (hq : q.Returns (g.insert context t) names (g.insert context t)) :
    ∃ w, Adds context [t] (once context t q) g (if g.contains context t then ∅ else names) w := by
  by_cases h : g.contains context t = true
  · rw [if_pos h]
    refine ⟨g, returns_once_of_mem (Guard.contains_iff.mp h), fun p => ⟨.inl, ?_⟩⟩
    intro hp
    obtain hp | ⟨hc, hp, _⟩ := hp
    · exact hp
    · have heq : p = (context, t) := Prod.ext hc (List.mem_singleton.mp hp)
      exact heq ▸ Guard.contains_iff.mp h
  · rw [if_neg h]
    have hnot : ¬ (context, t) ∈ g := fun hin => h (Guard.contains_iff.mpr hin)
    refine ⟨_, returns_once_of_not_mem hnot hq, fun p => ?_⟩
    rw [Guard.mem_insert, Prod.ext_iff, List.mem_singleton, or_comm]
    refine or_congr_right (and_congr_right fun _ => ?_)
    refine ⟨fun hp => ⟨hp, ?_⟩, And.left⟩
    rw [hp]
    exact ht

theorem exists_returns_follow (r : Resolver) {o : Option TypeUnion} (ho : ∀ u ∈ o, u.IsPlain) :
    ∃ names, ∀ depth context g, (follow (r.expandUnion (depth + 1) context) o).Returns g names g := by
  cases o with
  | none => exact ⟨∅, fun _ _ g => returns_pure ∅ g⟩
  | some u => exact ⟨u.settledNames, returns_expandUnion_of_plain r (ho u rfl)⟩

theorem exists_adds_expand (settings : ResolverSettings) {M : TypeUnion → Prop}
    (hb : b.Declares TypeUnion.IsPlain M) {t : SymType} (ht : t.isShallow = true) :
    ∃ names : TypeNames, ∀ depth context g, g.IsProper →
      ∃ w, Adds context [t] ((b.resolver settings).expand
          ((b.resolver settings).expandUnion (depth + 1)) context t) g
        (if g.contains context t then ∅ else names) w := by
  by_cases hn : t.isNamed = true
  · obtain ⟨n, rfl⟩ := SymType.exists_eq_named hn
    refine ⟨SortedSet.ofList [n], fun depth context g hg => ⟨g, ?_, fun p => ?_⟩⟩
    · rw [if_neg (by simp [hg.not_contains context hn])]
      exact returns_pure _ g
    · refine ⟨.inl, fun hp => hp.resolve_right fun hp => ?_⟩
      rw [List.mem_singleton.mp hp.2.1] at hp
      exact absurd hp.2.2 (by simp [SymType.isNamed])
  · have hn : t.isNamed = false := Bool.eq_false_iff.mpr hn
    have href := SymType.isReference_of_isShallow ht hn
    obtain ⟨_, rfl, htarget⟩ := Codebase.knows_target (σ := Guard) b settings t
    obtain ⟨names, hnames⟩ := exists_returns_follow (b.resolver settings)
      (o := b.target? settings t) fun u hu => hb.of_target? hu
    refine ⟨names, fun depth context g _ => ?_⟩
    rw [expand_reference _ _ _ href]
    exact once_adds hn ((htarget _).bind (hnames depth _ _))

theorem exists_reads (settings : ResolverSettings) {M : TypeUnion → Prop}
    (hb : b.Declares TypeUnion.IsPlain M) : ∃ own, (b.resolver settings).Reads own := by
  refine ⟨fun t => if ht : t.isShallow = true then (exists_adds_expand settings hb ht).choose
    else ∅, fun t ht => ?_⟩
  simp only [ht, dite_true]
  exact (exists_adds_expand settings hb ht).choose_spec

theorem gather_adds {r : Resolver} (hr : r.Reads own) {l : List SymType}
    (hl : ∀ t ∈ l, t.isShallow = true) (hnodup : l.Nodup) (depth : Nat) (context : String)
    {g : Guard} (hg : g.IsProper) :
    ∃ w, Adds context l
      (gather (fun t => Query.asMember t (r.expand (r.expandUnion (depth + 1)) context t)) l) g
      (TypeNames.unionOf own (l.filter fun t => !g.contains context t)) w := by
  induction l generalizing g with
  | nil => exact ⟨g, returns_pure ∅ g, by simp⟩
  | cons t l ih =>
    obtain ⟨ht, hnodup⟩ := List.nodup_cons.mp hnodup
    obtain ⟨v, hfirst⟩ := hr t (hl t List.mem_cons_self) depth context g hg
    obtain ⟨w, hrest⟩ := ih (fun x hx => hl x (List.mem_cons_of_mem t hx)) hnodup
      (hfirst.isProper hg)
    have hsame : ∀ x ∈ l, v.contains context x = g.contains context x := by
      intro x hx
      apply Guard.contains_congr
      rw [hfirst.mem]
      refine or_iff_left fun hin => ht ?_
      exact List.mem_singleton.mp hin.2.1 ▸ hx
    have hfilter : l.filter (fun x => !v.contains context x) =
        l.filter fun x => !g.contains context x :=
      List.filter_congr fun x hx => by rw [hsame x hx]
    have hunion : (if g.contains context t then ∅ else own t) ∪
        TypeNames.unionOf own (l.filter fun x => !v.contains context x) =
        TypeNames.unionOf own ((t :: l).filter fun x => !g.contains context x) := by
      apply SortedSet.ext
      intro n
      rw [hfilter, SortedSet.mem_union, TypeNames.mem_unionOf, TypeNames.mem_unionOf]
      by_cases hc : g.contains context t = true
      · simp [hc]
      · simp [hc]
    refine ⟨w, ?_, fun p => ?_⟩
    · rw [← hunion]
      exact (hfirst.returns.asMember t).bind (hrest.returns.bind (returns_pure _ w))
    · simp only [hrest.mem, hfirst.mem, List.mem_cons, List.not_mem_nil, or_false, or_and_right,
        and_or_left, or_assoc]

def shallowNames (own : SymType → TypeNames) (g : Guard) (context : String) (u : TypeUnion) :
    TypeNames :=
  (TypeNames.unionOf own (u.toList.filter fun t => !g.contains context t)).settleEmptyArray

theorem expandUnion_adds {r : Resolver} (hr : r.Reads own) {u : TypeUnion} (hu : u.IsShallow)
    (depth : Nat) (context : String) {g : Guard} (hg : g.IsProper) :
    ∃ w, Adds context u.toList (r.expandUnion (depth + 2) context u) g
      (shallowNames own g context u) w := by
  obtain ⟨w, h⟩ := gather_adds hr hu u.members.nodup depth context hg
  exact ⟨w, h.returns.bind (returns_pure _ w), h.mem⟩

theorem shallowNames_congr {g g' : Guard} {context : String} {u : TypeUnion}
    (h : ∀ t ∈ u, (context, t) ∈ g ↔ (context, t) ∈ g') :
    shallowNames own g context u = shallowNames own g' context u := by
  have hfilter : u.toList.filter (fun t => !g.contains context t) =
      u.toList.filter fun t => !g'.contains context t :=
    List.filter_congr fun t ht => by rw [Guard.contains_congr (h t ht)]
  rw [shallowNames, hfilter, shallowNames]

theorem expandUnion_alike_of_shallow {r : Resolver} (hr : r.Reads own)
    {P : String × SymType → Prop} {u : TypeUnion} (hu : u.IsShallow) (depth depth' : Nat)
    {context : String} (hp : ∀ t, t.isShallow = true → P (context, t)) :
    Alike (Guard.Agree P) (r.expandUnion (depth + 2) context u)
      (r.expandUnion (depth' + 2) context u) := by
  intro g g' hg
  obtain ⟨w, h⟩ := expandUnion_adds hr hu depth context hg.left
  obtain ⟨w', h'⟩ := expandUnion_adds hr hu depth' context hg.right
  have hnames : shallowNames own g context u = shallowNames own g' context u :=
    shallowNames_congr fun t ht => hg.mem _ (hp t (hu t ht))
  refine ⟨_, w, w', h.returns, hnames ▸ h'.returns, fun p hpp => ?_, h.isProper hg.left,
    h'.isProper hg.right⟩
  rw [h.mem, h'.mem, hg.mem p hpp]

theorem one_lt_bound (r : Resolver) {query : List SymType} (h : query ≠ []) :
    1 < r.bound query := by
  have hquery : 0 < query.length := List.length_pos_iff.mpr h
  have hlength : 0 < (query ++ r.index.codebase.indirections).length := by
    rw [List.length_append]
    omega
  have hcontexts : 0 < r.index.codebase.contexts.length := Nat.succ_pos _
  have := Nat.mul_pos hcontexts hlength
  rw [bound]
  omega

theorem one_lt_bound_indirections (r : Resolver) (t : SymType) (ht : t.isNamed = false) :
    1 < r.bound t.indirections :=
  one_lt_bound r (List.ne_nil_of_mem (SymType.mem_indirections_self ht))

theorem expand_alike_of_shallow {P : String × SymType → Prop}
    (hb : b.Declares TypeUnion.IsPlain TypeUnion.IsShallow)
    (hr : (b.resolver settings).Reads own) {t : SymType} {context : String} {depth depth' : Nat}
    (hdepth : t.isNamed = false → 1 < depth) (hdepth' : t.isNamed = false → 1 < depth')
    (hp : ∀ x ∈ t.indirections, P (context, x))
    (hshallow : ∀ c x, x.isShallow = true → P (c, x)) :
    Alike (Guard.Agree P)
      ((b.resolver settings).expand ((b.resolver settings).expandUnion depth) context t)
      ((b.resolver settings).expand ((b.resolver settings).expandUnion depth') context t) := by
  apply expand_alike hb _ _ hp
  · intro h c u hu
    obtain ⟨n, rfl⟩ := Nat.exists_eq_add_of_le' (hdepth h)
    obtain ⟨n', rfl⟩ := Nat.exists_eq_add_of_le' (hdepth' h)
    exact expandUnion_alike_of_plain _ hu (n + 1) (n' + 1) c
  · intro h c u hu
    obtain ⟨n, rfl⟩ := Nat.exists_eq_add_of_le' (hdepth h)
    obtain ⟨n', rfl⟩ := Nat.exists_eq_add_of_le' (hdepth' h)
    exact expandUnion_alike_of_shallow hr hu n n' (hshallow c)

theorem exists_returns_resolve_of_shallow (settings : ResolverSettings)
    (hb : b.Declares TypeUnion.IsPlain TypeUnion.IsShallow) (t : SymType) :
    ∃ names w, ((b.resolver settings).resolve t).Returns ∅ names w := by
  obtain ⟨own, hr⟩ := exists_reads settings hb
  have hdepth := one_lt_bound_indirections (b.resolver settings) t
  obtain ⟨names, w, _, h, _, _⟩ := expand_alike_of_shallow (P := fun _ => True) hb hr hdepth hdepth
    (fun _ _ => trivial) (fun _ _ _ => trivial) ∅ ∅ (Guard.agree_refl Guard.isProper_empty)
  exact ⟨names, w, h⟩

theorem reads_of_returns_resolve (hb : b.Declares TypeUnion.IsPlain TypeUnion.IsShallow)
    (hnames : ∀ t, ∃ w, ((b.resolver settings).resolve t).Returns ∅ (names t) w) :
    (b.resolver settings).Reads names := by
  obtain ⟨own, hr⟩ := exists_reads settings hb
  intro t ht depth context g hg
  have hown : names t = own t := by
    obtain ⟨w, h⟩ := hnames t
    obtain ⟨w', h'⟩ := hr t ht _ "" ∅ Guard.isProper_empty
    exact (h.unique h'.returns).1
  rw [hown]
  exact hr t ht depth context g hg

end Resolver

end SymbolicTypes
