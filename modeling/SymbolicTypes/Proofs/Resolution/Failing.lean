import SymbolicTypes.Proofs.Query.Failing
import SymbolicTypes.Proofs.Resolution.Assembly

namespace SymbolicTypes

open Query

def Codebase.failingResolver (b : Codebase) (settings : ResolverSettings)
    (fails : Lookup → Bool) : Resolver :=
  { index := { codebase := b, fails }, settings }

section

variable {σ M : Type} {fails : Lookup → Bool} {inside : List SymType → Prop}

theorem carries_cutShort (b : Codebase) (hinside : inside []) :
    Carries (σ := σ) { codebase := b, fails } b.index (CutShort fails inside) where
  toComposes := composes_cutShort
  codebase := rfl
  ask := cutShort_ask b hinside

theorem cutShort_run (b : Codebase) (hinside : inside []) (p : SearchPlan M) (host : String) :
    CutShort (σ := σ) fails inside (p.run { codebase := b, fails } host) (p.run b.index host) := by
  apply CutShort.isolated
  exact SearchPlan.search_composes (carries_cutShort b hinside)
    (SearchPlan.meet_composes composes_cutShort cutShort_get cutShort_set) p
    (fun _ => cutShort_step ⟨fun _ => rfl, rfl⟩ (by simp)) b.depth host

end

namespace Resolver

variable {b : Codebase} {settings : ResolverSettings} {fails : Lookup → Bool}

theorem cutShort_once {inside : List SymType → Prop} (context : String) (t : SymType)
    {q q' : Query Guard TypeNames} (hq : CutShort fails inside q q') :
    CutShort fails inside (once context t q) (once context t q') := by
  apply composes_cutShort.bind cutShort_get
  intro g
  cases g.contains context t with
  | true =>
    refine composes_cutShort.bind (cutShort_step ⟨fun _ => rfl, rfl⟩ (by simp)) fun _ => ?_
    exact composes_cutShort.pure ∅
  | false =>
    refine composes_cutShort.bind (cutShort_set _) fun _ => ?_
    exact composes_cutShort.bind (cutShort_step ⟨fun _ => rfl, rfl⟩ (by simp)) fun _ => hq

theorem carries_cutShort (b : Codebase) (settings : ResolverSettings) (fails : Lookup → Bool)
    (inside : List SymType → Prop) (hinside : inside []) :
    Carries (b.failingResolver settings fails) (b.resolver settings) (CutShort fails inside) where
  toCarries := SymbolicTypes.carries_cutShort b hinside
  settings := rfl
  run := cutShort_run b hinside
  once := cutShort_once

theorem cutShort_expandUnion (b : Codebase) (settings : ResolverSettings) (fails : Lookup → Bool)
    (depth : Nat) (context : String) (u : TypeUnion) :
    CutShort fails (fun members => ∃ t ∈ u, members.getLast? = some t)
      ((b.failingResolver settings fails).expandUnion depth context u)
      ((b.resolver settings).expandUnion depth context u) := by
  have hcarries := carries_cutShort b settings fails (fun _ => True) trivial
  cases depth with
  | zero => exact composes_cutShort.pure ∅
  | succ depth =>
    refine composes_cutShort.bind (gather_composes composes_cutShort fun t ht => ?_)
      fun _ => composes_cutShort.pure _
    have hmember := hcarries.expand
      (hcarries.expandUnion (fun _ _ _ h => h.asMember fun _ => id) depth) context t
    exact hmember.asMember fun members _ => ⟨t, ht, List.getLast?_concat⟩

/-- A failing lookup is not taken for a miss. Expansion comes to what it comes to where no lookup
fails if it makes none that does. Else it stops at the first, and an error is reported for each
member whose expansion is in progress, from the innermost to a member of the union. -/
theorem resolveUnion_of_failing (b : Codebase) (settings : ResolverSettings)
    (fails : Lookup → Bool) (u : TypeUnion) (g : Guard) :
    let plain := (b.resolver settings).resolveUnion u g
    let run := (b.failingResolver settings fails).resolveUnion u g
    (∃ names, plain.answer = .ok names) ∧
      ((∀ l, .asked l ∈ plain.steps → fails l = false) ∧ run = plain ∧
          errorReports run.steps = [] ∨
        ∃ before l after, plain.steps = before ++ .asked l :: after ∧
          (∀ l', .asked l' ∈ before → fails l' = false) ∧ fails l = true ∧
          run.answer = .error l ∧
          run.steps = before ++ .asked l ::
            (underway before).map (fun t => .event (.expansionFails t)) ∧
          errorReports run.steps =
            (underway before).map (fun t => ("panic while resolving type", some t.text)) ∧
          ∃ t ∈ u, (underway before).getLast? = some t) := by
  intro plain run
  obtain ⟨names, w, steps, hplain, hleaves, hcut⟩ :=
    cutShort_expandUnion b settings fails
      ((b.resolver settings).bound (u.toList.flatMap SymType.indirections)) "" u g
  have hplain : plain = ⟨.ok names, w, steps⟩ := hplain
  rw [hplain]
  refine ⟨⟨names, rfl⟩, ?_⟩
  obtain ⟨hasked, hsame⟩ | ⟨before, l, members, hinside, hstops⟩ := hcut
  · have hrun : run = ⟨.ok names, w, steps⟩ := hsame.trans hplain
    exact .inl ⟨hasked, hrun, by rw [hrun, hleaves.quiet]⟩
  · obtain ⟨after, rfl⟩ := hstops.reached
    have hrun : run.steps = _ := hstops.steps
    rw [← hstops.leaves.underway_eq] at hrun hinside
    refine .inr ⟨before, l, after, ?_, hstops.unfailing, hstops.failing, hstops.answer, hrun, ?_,
      hinside⟩
    · rw [List.append_assoc, List.singleton_append]
    · rw [hrun, errorReports_append, hstops.leaves.quiet, List.nil_append]
      exact errorReports_expansionFails (underway before)

example :
    let b := ({} : Codebase)
      |>.insertGlobal "a" (TypeUnion.ofList [.named "int", .arrayOf (.global "b")])
      |>.insertGlobal "b" (TypeUnion.ofList [.global "c"])
    let run := (b.failingResolver {} (· == ⟨.global, "c"⟩)).resolveUnion
      (TypeUnion.ofList [.global "a", .callOf "f"]) ∅
    run.answer = .error ⟨.global, "c"⟩ ∧
      (errorReports run.steps).map Prod.snd =
        [some "@global(c)", some "@array(@global(b))", some "@global(a)"] := by
  exact ⟨rfl, rfl⟩

end Resolver

end SymbolicTypes
