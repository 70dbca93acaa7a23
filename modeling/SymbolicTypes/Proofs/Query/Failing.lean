import SymbolicTypes.Proofs.Query.Composes

namespace SymbolicTypes

def Step.advance (members : List SymType) : Step → List SymType
  | .opened t => t :: members
  | .closed _ => members.tail
  | _ => members

/-- The members of unions whose expansion is in progress after the steps, the innermost first. -/
def underway (steps : List Step) : List SymType := steps.foldl Step.advance []

def Event.typeText? : Event → Option String
  | .expansionRepeats _ t | .expansionFails t => some t.text
  | _ => none

def errorReports (steps : List Step) : List (String × Option String) :=
  steps.filterMap fun
    | .event e => if e.level = .error then some (e.message, e.typeText?) else none
    | _ => none

theorem errorReports_append (steps steps' : List Step) :
    errorReports (steps ++ steps') = errorReports steps ++ errorReports steps' :=
  List.filterMap_append

theorem errorReports_expansionFails (members : List SymType) :
    errorReports (members.map fun t => .event (.expansionFails t)) =
      members.map fun t => ("panic while resolving type", some t.text) := by
  rw [errorReports, List.filterMap_map]
  exact congrFun List.filterMap_eq_map members

/-- The steps report no error and leave the expansions of the members in progress, beside those that
were so before. -/
structure Leaves (steps : List Step) (members : List SymType) : Prop where
  advance : ∀ outer, steps.foldl Step.advance outer = members ++ outer
  quiet : errorReports steps = []

namespace Leaves

variable {steps steps' : List Step} {members : List SymType} {t : SymType}

theorem nil : Leaves [] [] := ⟨fun _ => rfl, rfl⟩

theorem underway_eq (h : Leaves steps members) : underway steps = members := by
  rw [underway, h.advance, List.append_nil]

theorem append (h : Leaves steps []) (h' : Leaves steps' members) :
    Leaves (steps ++ steps') members where
  advance outer := by rw [List.foldl_append, h.advance, List.nil_append, h'.advance]
  quiet := by rw [errorReports_append, h.quiet, h'.quiet, List.append_nil]

theorem opened (h : Leaves steps members) (t : SymType) :
    Leaves (.opened t :: steps) (members ++ [t]) where
  advance outer := by
    rw [List.foldl_cons, h.advance, List.append_assoc, List.singleton_append]
    rfl
  quiet := h.quiet

theorem closed (h : Leaves steps []) (t : SymType) :
    Leaves (.opened t :: steps ++ [.closed t]) [] where
  advance outer := by
    rw [List.foldl_append, (h.opened t).advance]
    rfl
  quiet := by
    rw [errorReports_append, (h.opened t).quiet]
    rfl

end Leaves

namespace Query

variable {σ τ α β : Type}

/-- What the query does where lookups fail: it stops at the first that does, and then the members in
progress are reported, the innermost first. -/
structure StopsAt (fails : Lookup → Bool) (steps before : List Step) (l : Lookup)
    (members : List SymType) (r : Outcome σ α) : Prop where
  reached : before ++ [.asked l] <+: steps
  unfailing : ∀ l', .asked l' ∈ before → fails l' = false
  failing : fails l = true
  leaves : Leaves before members
  answer : r.answer = .error l
  steps : r.steps = before ++ .asked l :: members.map fun t => .event (.expansionFails t)

/-- The second query comes to an answer. The first does the same unless one of the lookups fails, and
stops at the first that does otherwise; `inside` holds of the members in progress then. -/
def CutShort (fails : Lookup → Bool) (inside : List SymType → Prop) (q q' : Query σ α) : Prop :=
  ∀ s, ∃ a t steps, q' s = ⟨.ok a, t, steps⟩ ∧ Leaves steps [] ∧
    ((∀ l, .asked l ∈ steps → fails l = false) ∧ q s = q' s ∨
      ∃ before l members, inside members ∧ StopsAt fails steps before l members (q s))

variable {fails : Lookup → Bool} {inside : List SymType → Prop}

theorem cutShort_of_runs {q : Query σ α}
    (h : ∀ s, ∃ a t steps, q s = ⟨.ok a, t, steps⟩ ∧ Leaves steps [] ∧ ∀ l, .asked l ∉ steps) :
    CutShort fails inside q q := by
  intro s
  obtain ⟨a, t, steps, hrun, hleaves, hasked⟩ := h s
  exact ⟨a, t, steps, hrun, hleaves, .inl ⟨fun l hl => absurd hl (hasked l), rfl⟩⟩

theorem cutShort_get : CutShort (σ := σ) fails inside get get :=
  cutShort_of_runs fun s => ⟨s, s, [], rfl, .nil, by simp⟩

theorem cutShort_set (s : σ) : CutShort fails inside (set s) (set s) :=
  cutShort_of_runs fun _ => ⟨(), s, [], rfl, .nil, by simp⟩

theorem cutShort_step {e : Step} (hleaves : Leaves [e] []) (hasked : ∀ l, .asked l ≠ e) :
    CutShort (σ := σ) fails inside (step e) (step e) :=
  cutShort_of_runs fun s => ⟨(), s, [e], rfl, hleaves, by simpa using hasked⟩

theorem cutShort_ask (b : Codebase) (hinside : inside []) (l : Lookup) :
    CutShort (σ := σ) fails inside (Index.ask ⟨b, fails⟩ l) (Index.ask { codebase := b } l) := by
  intro s
  have hleaves : Leaves [.asked l] [] := ⟨fun _ => rfl, rfl⟩
  refine ⟨(), s, _, rfl, hleaves, ?_⟩
  cases hl : fails l with
  | false =>
    refine .inl ⟨by simpa using hl, ?_⟩
    simp [Index.ask, hl]
  | true =>
    refine .inr ⟨[], l, [], hinside, List.prefix_rfl, by simp, hl, .nil, ?_, rfl⟩
    simp [Index.ask, hl]

theorem StopsAt.bind {q : Query σ α} {s : σ} {steps before : List Step} {l : Lookup}
    {members : List SymType} (h : StopsAt fails steps before l members (q s)) (f : α → Query σ β)
    (rest : List Step) : StopsAt fails (steps ++ rest) before l members ((q >>= f) s) := by
  have hrun : (q >>= f) s = ⟨.error l, (q s).state, (q s).steps⟩ := by
    apply bind_of_error
    rw [← h.answer]
  exact { h with
    reached := h.reached.trans (List.prefix_append steps rest)
    answer := by rw [hrun]
    steps := by rw [hrun, h.steps] }

theorem composes_cutShort : Composes (σ := σ) (CutShort fails inside) where
  pure a := cutShort_of_runs fun s => ⟨a, s, [], rfl, .nil, by simp⟩
  bind {α β q q' f f'} hq hf s := by
    obtain ⟨a, t, steps, hrun, hleaves, hq⟩ := hq s
    obtain ⟨b, u, steps', hrun', hleaves', hf⟩ := hf a t
    refine ⟨b, u, steps ++ steps', ?_, hleaves.append hleaves', ?_⟩
    · rw [bind_of_ok hrun, hrun']
    obtain ⟨hasked, hsame⟩ | ⟨before, l, members, hinside, hstops⟩ := hq
    · have hbind := bind_of_ok (f := f) (hsame.trans hrun)
      obtain ⟨hasked', hsame'⟩ | ⟨before, l, members, hinside, hstops⟩ := hf
      · refine .inl ⟨fun l hl => (List.mem_append.mp hl).elim (hasked l) (hasked' l), ?_⟩
        rw [hbind, bind_of_ok hrun, hsame']
      · refine .inr ⟨steps ++ before, l, members, hinside, ?_⟩
        rw [hbind]
        exact {
          reached := by
            rw [List.append_assoc]
            exact (List.prefix_append_right_inj steps).mpr hstops.reached
          unfailing := fun l hl => (List.mem_append.mp hl).elim (hasked l) (hstops.unfailing l)
          failing := hstops.failing
          leaves := hleaves.append hstops.leaves
          answer := hstops.answer
          steps := by rw [hstops.steps, List.append_assoc] }
    · exact .inr ⟨before, l, members, hinside, hstops.bind f steps'⟩

theorem CutShort.isolated {q q' : Query τ α} (h : CutShort fails inside q q') (t : τ) :
    CutShort (σ := σ) fails inside (Query.isolated t q) (Query.isolated t q') := by
  intro s
  obtain ⟨a, u, steps, hrun, hleaves, hcut⟩ := h t
  refine ⟨a, s, steps, by rw [Query.isolated, hrun], hleaves, ?_⟩
  obtain ⟨hasked, hsame⟩ | ⟨before, l, members, hinside, hstops⟩ := hcut
  · exact .inl ⟨hasked, by rw [Query.isolated, Query.isolated, hsame]⟩
  · exact .inr ⟨before, l, members, hinside, { hstops with }⟩

theorem CutShort.asMember {inside' : List SymType → Prop} {q q' : Query σ α}
    (h : CutShort fails inside q q') {t : SymType}
    (hinside : ∀ members, inside members → inside' (members ++ [t])) :
    CutShort fails inside' (Query.asMember t q) (Query.asMember t q') := by
  intro s
  obtain ⟨a, u, steps, hrun, hleaves, hcut⟩ := h s
  refine ⟨a, u, .opened t :: steps ++ [.closed t], by rw [Query.asMember, hrun],
    hleaves.closed t, ?_⟩
  obtain ⟨hasked, hsame⟩ | ⟨before, l, members, hin, hstops⟩ := hcut
  · refine .inl ⟨fun l hl => hasked l (by simpa using hl), ?_⟩
    rw [Query.asMember, Query.asMember, hsame]
  · obtain ⟨⟨o, w, taken⟩, hq⟩ : ∃ r, q s = r := ⟨_, rfl⟩
    obtain rfl : o = .error l := by rw [← hstops.answer, hq]
    -- the member itself is in progress, outside of all that are so within it
    refine .inr ⟨.opened t :: before, l, members ++ [t], hinside members hin, {
      reached := ?_
      unfailing := fun l' hl => hstops.unfailing l' (by simpa using hl)
      failing := hstops.failing
      leaves := hstops.leaves.opened t
      answer := by rw [Query.asMember, hq]
      steps := ?_ }⟩
    · exact (List.cons_prefix_cons.mpr ⟨rfl, hstops.reached⟩).trans (List.prefix_append _ _)
    · obtain rfl : taken = before ++ .asked l :: members.map fun t => .event (.expansionFails t) := by
        rw [← hstops.steps, hq]
      rw [Query.asMember, hq]
      simp

end Query

end SymbolicTypes
