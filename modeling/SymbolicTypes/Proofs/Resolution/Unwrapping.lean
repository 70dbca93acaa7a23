import SymbolicTypes.Proofs.Resolution.Depth
import SymbolicTypes.Proofs.Resolution.Lockstep
import SymbolicTypes.Proofs.Resolution.Meaning

namespace SymbolicTypes

open Query TypeNames

namespace TypeNames

theorem unwrapArray_wrapArray (names : TypeNames) (context : String) :
    (names.wrapArray context).unwrapArray = names.bindStatic context := by
  apply SortedSet.ext
  intro n
  have hmixed : ¬ mixedName ∈ names.wrapArray context := by
    intro h
    obtain ⟨m, _, harray⟩ := mem_wrapArray.mp h
    exact arrayOf_ne (by decide) _ harray
  rw [mem_unwrapArray, mem_bindStatic, or_iff_left fun h => hmixed h.2, mem_wrapArray]
  simp only [arrayOf_inj]

theorem bindStatic_eq_self {names : TypeNames} (h : ¬ staticName ∈ names) (host : String) :
    names.bindStatic host = names := by
  apply SortedSet.ext
  intro n
  have hself : ∀ m ∈ names, forStatic host m = m := by
    intro m hm
    apply if_neg
    rintro rfl
    exact h hm
  rw [mem_bindStatic]
  constructor
  · rintro ⟨m, hm, rfl⟩
    rwa [hself m hm]
  · exact fun hn => ⟨n, hn, hself n hn⟩

end TypeNames

namespace Guard

/-- The first guard has begun the type, and the second holds beside it the arrays of it and the
elements of these. -/
structure Wraps (e : SymType) (g g' : Guard) : Prop where
  begun : ("", e) ∈ g
  mem : ∀ p, p ∈ g' ↔ p ∈ g ∨ p = ("", .arrayOf e) ∨ p = ("", .elementOf (.arrayOf e))

variable {e : SymType} {g g' w : Guard}

theorem Wraps.insert (h : Wraps e g g') (context : String) (t : SymType) :
    Wraps e (g.insert context t) (g'.insert context t) where
  begun := mem_insert.mpr (.inr h.begun)
  mem p := by rw [mem_insert, mem_insert, h.mem, or_assoc]

theorem Wraps.catch_up (h : Wraps e g g') (hkept : ∀ p ∈ g, p ∈ w)
    (hadded : ∀ p ∈ w, p ∈ g ∨ p = ("", .arrayOf e) ∨ p = ("", .elementOf (.arrayOf e))) :
    Wraps e w g' where
  begun := hkept _ h.begun
  mem p := by
    rw [h.mem]
    constructor
    · exact Or.imp_left (hkept p)
    · exact fun hp => hp.elim (hadded p) .inr

end Guard

namespace Resolver

variable {r : Resolver} {d : String → TypeUnion → Query Guard TypeNames} {e : SymType} {g : Guard}

theorem returns_arrayOf_of_begun (hn : e.isNamed = false) (he : ("", e) ∈ g) :
    (r.expand d "" (.arrayOf e)).Returns g ∅ (g.insert "" (.arrayOf e)) := by
  by_cases h : ("", .arrayOf e) ∈ g
  · rw [Guard.insert_of_mem h]
    exact returns_once_of_mem h
  · have hinner : (r.expand d "" e).Returns (g.insert "" (.arrayOf e)) ∅ (g.insert "" (.arrayOf e)) := by
      rw [expand_eq_once _ _ hn]
      exact returns_once_of_mem (Guard.mem_insert.mpr (.inr he))
    exact returns_once_of_not_mem h (hinner.bind (returns_pure _ _))

theorem returns_elementOf_of_begun (hn : e.isNamed = false) (he : ("", e) ∈ g) :
    ∃ w, (r.expand d "" (.elementOf (.arrayOf e))).Returns g ∅ w ∧ (∀ p ∈ g, p ∈ w) ∧
      ∀ p ∈ w, p ∈ g ∨ p = ("", .arrayOf e) ∨ p = ("", .elementOf (.arrayOf e)) := by
  by_cases h : ("", .elementOf (.arrayOf e)) ∈ g
  · exact ⟨g, returns_once_of_mem h, fun _ => id, fun _ => .inl⟩
  · have hinner := returns_arrayOf_of_begun (r := r) (d := d) hn
      (Guard.mem_insert.mpr (.inr he) : ("", e) ∈ g.insert "" (.elementOf (.arrayOf e)))
    refine ⟨_, returns_once_of_not_mem h (hinner.bind (returns_pure _ _)), ?_, ?_⟩
    · exact fun p hp => Guard.mem_insert.mpr (.inr (Guard.mem_insert.mpr (.inr hp)))
    · intro p hp
      obtain rfl | hp := Guard.mem_insert.mp hp
      · exact .inr (.inl rfl)
      · exact (Guard.mem_insert.mp hp).elim (fun h => .inr (.inr h)) .inl

/-- The runs stay in step: where one of them meets a wrapped form that it has not begun, it comes to
nothing all the same. -/
theorem inStep_wraps (b : Codebase) (settings : ResolverSettings) (hn : e.isNamed = false) :
    InStep b settings (fun _ _ => True) (Guard.Wraps e) where
  inner _ _ _ _ _ := trivial
  consults _ _ _ _ _ _ _ _ := trivial
  guarded d context t _ ht halike := by
    by_cases harray : (context, t) = ("", .arrayOf e)
    · obtain ⟨rfl, rfl⟩ := Prod.mk.inj harray
      intro g g' hg
      -- only the first run begins it, and comes to nothing since its elements have begun
      refine ⟨∅, _, g', returns_arrayOf_of_begun hn hg.begun, ?_, hg.catch_up ?_ ?_⟩
      · exact returns_once_of_mem ((hg.mem _).mpr (.inr (.inl rfl)))
      · exact fun p hp => Guard.mem_insert.mpr (.inr hp)
      · exact fun p hp => (Guard.mem_insert.mp hp).elim (fun h => .inr (.inl h)) .inl
    by_cases helement : (context, t) = ("", .elementOf (.arrayOf e))
    · obtain ⟨rfl, rfl⟩ := Prod.mk.inj helement
      intro g g' hg
      obtain ⟨w, hrun, hkept, hadded⟩ := returns_elementOf_of_begun hn hg.begun
      refine ⟨∅, w, g', hrun, ?_, hg.catch_up hkept hadded⟩
      exact returns_once_of_mem ((hg.mem _).mpr (.inr (.inr rfl)))
    rw [expand_eq_once _ _ ht]
    refine once_alike_of (fun g g' hg => ?_) (fun _ _ hg _ => hg.insert context t)
      (fun _ _ => id) halike
    rw [hg.mem, or_iff_left (not_or.mpr ⟨harray, helement⟩)]

theorem exists_returns_resolve_wrapped (b : Codebase) (settings : ResolverSettings)
    (he : ¬ ("", e) ∈ g) :
    ∃ names w w', ((b.resolver settings).resolve e).Returns g names w ∧
      ((b.resolver settings).resolve e).Returns
        ((g.insert "" (.elementOf (.arrayOf e))).insert "" (.arrayOf e)) names w' := by
  by_cases hn : e.isNamed = true
  · obtain ⟨n, rfl⟩ := SymType.exists_eq_named hn
    exact ⟨_, g, _, returns_pure _ g, returns_pure _ _⟩
  have hn : e.isNamed = false := Bool.eq_false_iff.mpr hn
  have hstep := inStep_wraps b settings hn
  let d := (b.resolver settings).expandUnion ((b.resolver settings).bound e.indirections)
  have hd (host : String) (u : TypeUnion) : Alike (Guard.Wraps e) (d host u) (d host u) :=
    hstep.expandUnion _ fun _ _ => trivial
  have hbody : Alike (Guard.Wraps e) ((b.resolver settings).unguarded d "" e)
      ((b.resolver settings).unguarded d "" e) := by
    apply unguarded_alike
    · exact fun x _ => hstep.expand (fun host u _ => hd host u) trivial
    · exact fun host u _ => hd host u
  have hstart : Guard.Wraps e (g.insert "" e)
      (((g.insert "" (.elementOf (.arrayOf e))).insert "" (.arrayOf e)).insert "" e) := by
    refine ⟨Guard.mem_insert.mpr (.inl rfl), fun p => ?_⟩
    simp only [Guard.mem_insert]
    tauto
  have hne {t : SymType} (ht : sizeOf e < sizeOf t) : (("", e) : String × SymType) ≠ ("", t) :=
    fun h => absurd (congrArg (fun p => sizeOf p.2) h) (Nat.ne_of_lt ht)
  have hv : ¬ ("", e) ∈ (g.insert "" (.elementOf (.arrayOf e))).insert "" (.arrayOf e) := by
    rwa [Guard.mem_insert_of_ne (hne (by simp)), Guard.mem_insert_of_ne (hne (by simp; omega))]
  obtain ⟨names, w, w', hrun, hrun', _⟩ := hbody _ _ hstart
  refine ⟨names, w, w', ?_, ?_⟩
  · rw [resolve, expand_eq_once _ _ hn]
    exact returns_once_of_not_mem he hrun
  · rw [resolve, expand_eq_once _ _ hn]
    exact returns_once_of_not_mem hv hrun'

/-- To unwrap undoes to wrap, however the type leads back to its wrapped forms. -/
theorem resolve_elementOf_arrayOf (b : Codebase) (settings : ResolverSettings) (e : SymType)
    (g : Guard) (he : ¬ ("", e) ∈ g) (harray : ¬ ("", .arrayOf e) ∈ g)
    (helement : ¬ ("", .elementOf (.arrayOf e)) ∈ g) :
    ∃ names found w w', ((b.resolver settings).resolve e).Returns g names w ∧
      ((b.resolver settings).resolve (.elementOf (.arrayOf e))).Returns g found w' ∧
      (¬ staticName ∈ names → found = names) := by
  have harray' : ¬ ("", .arrayOf e) ∈ g.insert "" (.elementOf (.arrayOf e)) := by
    rwa [Guard.mem_insert_of_ne (by simp)]
  obtain ⟨arrays, w', hwrapped, hunwrapped⟩ := exists_returns_resolve_elementOf b settings helement
  obtain ⟨inner, v, hinner, harrays⟩ := exists_returns_resolve_arrayOf b settings harray'
  obtain ⟨names, w, _, hrun, hrun'⟩ := exists_returns_resolve_wrapped b settings he
  obtain ⟨rfl, -⟩ := hwrapped.unique harrays
  obtain ⟨rfl, -⟩ := hinner.unique hrun'
  refine ⟨inner, _, w, w', hrun, hunwrapped, fun hstatic => ?_⟩
  rw [unwrapArray_wrapArray, bindStatic_eq_self hstatic]

def rewrapped : Codebase :=
  ({} : Codebase).insertGlobal "g"
    (TypeUnion.ofList [.named "int", .elementOf (.arrayOf (.global "g")), .arrayOf (.global "g")])

theorem resolve_elementOf_arrayOf_rewrapped :
    ¬ ("", .global "g") ∈ (∅ : Guard) ∧ ¬ ("", .arrayOf (.global "g")) ∈ (∅ : Guard) ∧
    ¬ ("", .elementOf (.arrayOf (.global "g"))) ∈ (∅ : Guard) ∧
    ((rewrapped.resolver {}).resolve (.global "g") ∅).answer = .ok (SortedSet.ofList ["int"]) ∧
    ∃ names found w w', ((rewrapped.resolver {}).resolve (.global "g")).Returns ∅ names w ∧
      ((rewrapped.resolver {}).resolve (.elementOf (.arrayOf (.global "g")))).Returns ∅ found w' ∧
      (¬ staticName ∈ names → found = names) :=
  ⟨Guard.not_mem_empty _, Guard.not_mem_empty _, Guard.not_mem_empty _, rfl,
    resolve_elementOf_arrayOf _ _ _ _ (Guard.not_mem_empty _) (Guard.not_mem_empty _)
      (Guard.not_mem_empty _)⟩

end Resolver

end SymbolicTypes
