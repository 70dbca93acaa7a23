import SymbolicTypes.Proofs.Query.Returns
import SymbolicTypes.Resolution.Resolver

namespace SymbolicTypes

open Query

variable {P : String × SymType → Prop} {context : String} {t : SymType}

namespace Guard

variable {g g' : Guard}

instance : Inhabited Guard := ⟨∅⟩

theorem not_mem_empty (p : String × SymType) : ¬ p ∈ (∅ : Guard) := List.not_mem_nil

theorem insert_of_mem (h : (context, t) ∈ g) : g.insert context t = g := dif_pos h

theorem mem_insert_of_ne {p : String × SymType} (h : p ≠ (context, t)) :
    p ∈ g.insert context t ↔ p ∈ g :=
  mem_insert.trans (or_iff_right h)

theorem contains_iff : g.contains context t = true ↔ (context, t) ∈ g := decide_eq_true_iff

theorem contains_congr (h : (context, t) ∈ g ↔ (context, t) ∈ g') :
    g.contains context t = g'.contains context t := by
  rw [Bool.eq_iff_iff, contains_iff, contains_iff, h]

def IsProper (g : Guard) : Prop := ∀ p ∈ g, p.2.isNamed = false

theorem isProper_empty : (∅ : Guard).IsProper := fun p h => absurd h (not_mem_empty p)

theorem IsProper.insert (hg : g.IsProper) (context : String) (ht : t.isNamed = false) :
    (g.insert context t).IsProper := by
  intro p hp
  obtain rfl | hp := mem_insert.mp hp
  · exact ht
  · exact hg p hp

theorem IsProper.not_contains (hg : g.IsProper) (context : String) (ht : t.isNamed = true) :
    g.contains context t = false := by
  apply Bool.eq_false_iff.mpr
  intro h
  exact absurd (hg _ (contains_iff.mp h)) (by simp [ht])

structure Agree (P : String × SymType → Prop) (g g' : Guard) : Prop where
  mem : ∀ p, P p → (p ∈ g ↔ p ∈ g')
  left : g.IsProper
  right : g'.IsProper

theorem agree_refl (hg : g.IsProper) : Agree P g g := ⟨fun _ _ => Iff.rfl, hg, hg⟩

theorem Agree.insert (h : Agree P g g') (context : String) (ht : t.isNamed = false) :
    Agree P (g.insert context t) (g'.insert context t) where
  mem p hp := by rw [mem_insert, mem_insert, h.mem p hp]
  left := h.left.insert context ht
  right := h.right.insert context ht

end Guard

namespace Resolver

variable {g g' : Guard} {q q' : Query Guard TypeNames} {names : TypeNames}

theorem returns_once_of_mem (h : (context, t) ∈ g) : (once context t q).Returns g ∅ g := by
  apply (returns_get g).bind
  rw [if_pos (Guard.contains_iff.mpr h)]
  exact (returns_emit _ g).bind (returns_pure ∅ g)

theorem returns_once_of_not_mem (h : ¬ (context, t) ∈ g)
    (hq : q.Returns (g.insert context t) names g') : (once context t q).Returns g names g' := by
  apply (returns_get g).bind
  rw [if_neg (fun hc => h (Guard.contains_iff.mp hc))]
  exact (returns_set g _).bind ((returns_step _ _).bind hq)

theorem once_of_mem (h : (context, t) ∈ g) :
    once context t q g = ⟨.ok ∅, g, [.event (.expansionRepeats context t)]⟩ := by
  have hget : get g = ⟨.ok g, g, []⟩ := rfl
  refine (bind_of_ok hget).trans ?_
  rw [if_pos (Guard.contains_iff.mpr h)]
  rfl

theorem once_of_not_mem (h : ¬ (context, t) ∈ g) :
    once context t q g =
      ⟨(q (g.insert context t)).answer, (q (g.insert context t)).state,
        .begun context t :: (q (g.insert context t)).steps⟩ := by
  have hget : get g = ⟨.ok g, g, []⟩ := rfl
  refine (bind_of_ok hget).trans ?_
  rw [if_neg (fun hc => h (Guard.contains_iff.mp hc))]
  have hset : set (g.insert context t) g = ⟨.ok (), g.insert context t, []⟩ := rfl
  have hstep : step (.begun context t) (g.insert context t) =
      ⟨.ok (), g.insert context t, [.begun context t]⟩ := rfl
  rw [bind_of_ok hset, bind_of_ok hstep]
  rfl

theorem once_alike_of {R S : Guard → Guard → Prop}
    (hmem : ∀ g g', R g g' → ((context, t) ∈ g ↔ (context, t) ∈ g'))
    (hbegin : ∀ g g', R g g' → ¬ (context, t) ∈ g → S (g.insert context t) (g'.insert context t))
    (hend : ∀ g g', S g g' → R g g') (hq : Alike S q q') :
    Alike R (once context t q) (once context t q') := by
  intro g g' hg
  by_cases h : (context, t) ∈ g
  · have h' : (context, t) ∈ g' := (hmem g g' hg).mp h
    exact ⟨∅, g, g', returns_once_of_mem h, returns_once_of_mem h', hg⟩
  · have h' : ¬ (context, t) ∈ g' := fun h' => h ((hmem g g' hg).mpr h')
    obtain ⟨names, w, w', hq, hq', hw⟩ := hq _ _ (hbegin g g' hg h)
    exact ⟨names, w, w', returns_once_of_not_mem h hq, returns_once_of_not_mem h' hq',
      hend w w' hw⟩

theorem once_alike (ht : t.isNamed = false) (hp : P (context, t))
    (hq : Alike (Guard.Agree P) q q') :
    Alike (Guard.Agree P) (once context t q) (once context t q') :=
  once_alike_of (fun _ _ hg => hg.mem _ hp) (fun _ _ hg _ => hg.insert context ht)
    (fun _ _ => id) hq

end Resolver

end SymbolicTypes
