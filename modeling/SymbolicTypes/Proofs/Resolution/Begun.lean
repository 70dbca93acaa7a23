import SymbolicTypes.Proofs.Resolution.Failing
import SymbolicTypes.Proofs.Resolution.Guard

namespace SymbolicTypes

open Query

namespace Resolver

/-- The pairs whose expansion begins in the steps, in order. -/
def begun (steps : List Step) : List (String × SymType) :=
  steps.filterMap fun
    | .begun context t => some (context, t)
    | _ => none

theorem begun_append (steps steps' : List Step) :
    begun (steps ++ steps') = begun steps ++ begun steps' :=
  List.filterMap_append

theorem begun_cons_begun (context : String) (t : SymType) (steps : List Step) :
    begun (.begun context t :: steps) = (context, t) :: begun steps := rfl

/-- The guard that a query leaves holds what it held before and what has begun, the latest first. -/
def Tracks {α : Type} (q : Query Guard α) : Prop :=
  ∀ g, (q g).state.pairs = (begun (q g).steps).reverse ++ g.pairs

def BeginsNone {σ α : Type} (q : Query σ α) : Prop := ∀ s, begun (q s).steps = []

theorem composes_beginsNone {σ : Type} : Composes (σ := σ) fun q _ => BeginsNone q where
  pure _ _ := rfl
  bind {α β q _ f _} hq hf s := by
    obtain ⟨⟨o, t, steps⟩, hrun⟩ : ∃ r, q s = r := ⟨_, rfl⟩
    have hsteps : begun steps = [] := by simpa [hrun] using hq s
    cases o with
    | error l => rw [bind_of_error hrun, hsteps]
    | ok a => rw [bind_of_ok hrun, begun_append, hsteps, hf a t, List.nil_append]

theorem composes_tracks : Composes fun q _ => Tracks q where
  pure _ _ := rfl
  bind {α β q _ f _} hq hf g := by
    obtain ⟨⟨o, t, steps⟩, hrun⟩ : ∃ r, q g = r := ⟨_, rfl⟩
    have hpairs : t.pairs = (begun steps).reverse ++ g.pairs := by simpa [hrun] using hq g
    cases o with
    | error l => rw [bind_of_error hrun, hpairs]
    | ok a => rw [bind_of_ok hrun, hf a t, hpairs, begun_append, List.reverse_append,
        List.append_assoc]

theorem beginsNone_search {M : Type} (p : SearchPlan M) (ix : Index) (depth : Nat) (name : String) :
    BeginsNone (p.search ix depth name) := by
  have hcarries : SymbolicTypes.Carries (σ := List String) ix ix fun q _ => BeginsNone q :=
    { composes_beginsNone with codebase := rfl, ask := fun _ _ => rfl }
  exact SearchPlan.search_composes hcarries
    (SearchPlan.meet_composes composes_beginsNone (fun _ => rfl) fun _ _ => rfl) p
    (fun _ _ => rfl) depth name

theorem tracks_once (context : String) (t : SymType) {q : Query Guard TypeNames} (hq : Tracks q) :
    Tracks (once context t q) := by
  intro g
  by_cases h : (context, t) ∈ g
  · rw [once_of_mem h]
    rfl
  · have hpairs : (g.insert context t).pairs = (context, t) :: g.pairs := by
      have hnew : (context, t) ∉ g.pairs := h
      rw [Guard.insert, dif_neg hnew]
    rw [once_of_not_mem h, begun_cons_begun, hq, hpairs, List.reverse_cons, List.append_assoc,
      List.singleton_append]

theorem tracks_asMember (t : SymType) {q : Query Guard TypeNames} (hq : Tracks q) :
    Tracks (asMember t q) := by
  intro g
  obtain ⟨⟨o, w, steps⟩, hrun⟩ : ∃ r, q g = r := ⟨_, rfl⟩
  have hpairs : w.pairs = (begun steps).reverse ++ g.pairs := by simpa [hrun] using hq g
  cases o with
  | error l => simp [asMember, hrun, hpairs, begun]
  | ok a => simp [asMember, hrun, hpairs, begun]

theorem carries_tracks (r : Resolver) : Carries r r fun q _ => Tracks q where
  toComposes := composes_tracks
  codebase := rfl
  ask _ _ := rfl
  settings := rfl
  run p host g := by
    have hbegun : begun (p.run r.index host g).steps = [] := beginsNone_search p r.index _ host []
    rw [hbegun]
    rfl
  once context t _ _ hq := tracks_once context t hq

theorem tracks_resolve (r : Resolver) (t : SymType) : Tracks (r.resolve t) := by
  let d := r.expandUnion (r.bound t.indirections)
  have hunion : ∀ context u, Tracks (d context u) :=
    (carries_tracks r).expandUnion (fun t _ _ hq => tracks_asMember t hq) _
  exact @Carries.expand r r _ d d (carries_tracks r) hunion "" t

theorem cutShort_resolve (b : Codebase) (settings : ResolverSettings) (fails : Lookup → Bool)
    (t : SymType) : CutShort fails (fun _ => True)
      ((b.failingResolver settings fails).resolve t) ((b.resolver settings).resolve t) := by
  have hcarries := carries_cutShort b settings fails (fun _ => True) trivial
  exact hcarries.expand (hcarries.expandUnion (fun _ _ _ h => h.asMember fun _ => id) _) "" t

theorem begun_of_stopsAt {α : Type} {fails : Lookup → Bool} {steps before : List Step} {l : Lookup}
    {members : List SymType} {r : Outcome Guard α}
    (h : StopsAt fails steps before l members r) : begun r.steps = begun before := by
  have hreports : begun (.asked l :: members.map fun t => .event (.expansionFails t)) = [] := by
    simp [begun]
  rw [h.steps, begun_append, hreports, List.append_nil]

theorem exists_begun_of_error {r : Resolver} {t : SymType} {g : Guard} {l : Lookup}
    (h : (r.resolve t g).answer = .error l) :
    t.isNamed = false ∧ ¬ ("", t) ∈ g ∧
      ∃ later, begun (r.resolve t g).steps = ("", t) :: later := by
  cases hn : t.isNamed with
  | true =>
    obtain ⟨n, rfl⟩ := SymType.exists_eq_named hn
    cases h
  | false =>
    have hrun := congrFun (r.expand_eq_once (d := r.expandUnion (r.bound t.indirections)) "" hn) g
    by_cases hg : ("", t) ∈ g
    · rw [resolve, hrun, once_of_mem hg] at h
      cases h
    · rw [once_of_not_mem hg] at hrun
      have hbegun := congrArg (fun r => begun r.steps) hrun
      exact ⟨rfl, hg, _, hbegun⟩

/-- Where a lookup fails in the course of an expansion, the guard keeps the pairs that have begun by
then, in addition to those it held. One of them is the type itself, so that its expansion under the same
guard comes to nothing from then on. -/
theorem resolve_of_failing {b : Codebase} {settings : ResolverSettings} {fails : Lookup → Bool}
    {t : SymType} {g : Guard} {l : Lookup}
    (h : ((b.failingResolver settings fails).resolve t g).answer = .error l) :
    let w := ((b.failingResolver settings fails).resolve t g).state
    ∃ before after later,
      ((b.resolver settings).resolve t g).steps = before ++ .asked l :: after ∧
      (∀ l', .asked l' ∈ before → fails l' = false) ∧ fails l = true ∧
      begun before = ("", t) :: later ∧ ¬ ("", t) ∈ g ∧
      w.pairs = later.reverse ++ ("", t) :: g.pairs ∧
      ((b.resolver settings).resolve t).Returns w ∅ w := by
  intro w
  obtain ⟨hn, hg, later, hlater⟩ := exists_begun_of_error h
  obtain ⟨names, v, steps, hplain, -, hcut⟩ := cutShort_resolve b settings fails t g
  -- a run that makes no lookup that fails comes to an answer
  obtain ⟨-, hsame⟩ | ⟨before, l', members, -, hstops⟩ := hcut
  · rw [hsame, hplain] at h
    cases h
  have hl : l' = l := Except.error.inj (hstops.answer.symm.trans h)
  subst hl
  obtain ⟨after, rfl⟩ := hstops.reached
  have hpairs : w.pairs = later.reverse ++ ("", t) :: g.pairs := by
    rw [tracks_resolve _ t g, hlater, List.reverse_cons, List.append_assoc, List.singleton_append]
  refine ⟨before, after, later, ?_, hstops.unfailing, hstops.failing, ?_, hg, hpairs, ?_⟩
  · rw [hplain, List.append_assoc, List.singleton_append]
  · rw [← begun_of_stopsAt hstops, hlater]
  · have hw : ("", t) ∈ w := by
      show ("", t) ∈ w.pairs
      rw [hpairs]
      exact List.mem_append_right _ List.mem_cons_self
    rw [resolve, expand_eq_once _ _ hn]
    exact returns_once_of_mem hw

def arrayOfGlobal : Codebase :=
  ({} : Codebase)
    |>.insertGlobal "a" (TypeUnion.ofList [.arrayOf (.global "b")])
    |>.insertGlobal "b" (TypeUnion.ofNames ["int"])

def failsOnB (l : Lookup) : Bool := decide (l = ⟨.global, "b"⟩)

theorem resolve_of_failing_arrayOfGlobal :
    ((arrayOfGlobal.failingResolver {} failsOnB).resolve (.global "a")
      ((∅ : Guard).insert "" (.global "c"))).answer = .error ⟨.global, "b"⟩ ∧
    let w := ((arrayOfGlobal.failingResolver {} failsOnB).resolve (.global "a")
      ((∅ : Guard).insert "" (.global "c"))).state
    ∃ before after later,
      ((arrayOfGlobal.resolver {}).resolve (.global "a") ((∅ : Guard).insert "" (.global "c"))).steps =
        before ++ .asked ⟨.global, "b"⟩ :: after ∧
      (∀ l', .asked l' ∈ before → failsOnB l' = false) ∧ failsOnB ⟨.global, "b"⟩ = true ∧
      begun before = ("", .global "a") :: later ∧
      ¬ ("", .global "a") ∈ (∅ : Guard).insert "" (.global "c") ∧
      w.pairs = later.reverse ++ ("", .global "a") :: ((∅ : Guard).insert "" (.global "c")).pairs ∧
      ((arrayOfGlobal.resolver {}).resolve (.global "a")).Returns w ∅ w :=
  ⟨rfl, resolve_of_failing rfl⟩

/-- The guard is not what it was before the failure, and what would be found from there is not found
any more. -/
theorem resolve_of_failing_keeps_begun :
    let run := (arrayOfGlobal.failingResolver {} failsOnB).resolve (.global "a") ∅
    run.answer = .error ⟨.global, "b"⟩ ∧ (¬ ∀ p, p ∈ run.state ↔ p ∈ (∅ : Guard)) ∧
      ((arrayOfGlobal.resolver {}).resolve (.global "a") run.state).answer = .ok ∅ ∧
      ((arrayOfGlobal.resolver {}).resolve (.global "a") ∅).answer =
        .ok (SortedSet.ofList ["int[]"]) := by
  refine ⟨rfl, fun h => ?_, rfl, rfl⟩
  have hbegun : ("", .global "a") ∈ (∅ : Guard) := (h _).mp (Guard.contains_iff.mp rfl)
  exact Guard.not_mem_empty _ hbegun

end Resolver

end SymbolicTypes
