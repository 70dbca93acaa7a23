import SymbolicTypes.Proofs.Inheritance.Assembly
import SymbolicTypes.Proofs.Inheritance.Termination
import SymbolicTypes.Proofs.Query.Logging

namespace SymbolicTypes

open Query Naming

namespace Codebase

/-- The class or trait that a step looks up and finds, by its normalized name: it is scanned then. -/
def scanned? (b : Codebase) : Step → Option String
  | .asked ⟨.classLike, name⟩ => (b.class? name).map fun _ => normalize name
  | .asked ⟨.trait, name⟩ => (b.trait? name).map fun _ => normalize name
  | _ => none

def scanned (b : Codebase) (steps : List Step) : List String := steps.filterMap b.scanned?

/-- The names that were met: none stands twice, and there are fewer than `k` classes and traits
left. -/
structure Roster (b : Codebase) (k : Nat) (seen : List String) : Prop where
  nodup : seen.Nodup
  card : (b.unmet seen).card < k

namespace Roster

variable {b : Codebase} {k : Nat} {seen : List String} {name : String}

theorem start (b : Codebase) : b.Roster b.depth [] := ⟨.nil, b.card_unmet_lt_depth⟩

theorem succ (h : b.Roster k seen) : b.Roster (k + 1) seen := ⟨h.nodup, Nat.lt_succ_of_lt h.card⟩

theorem enter (h : b.Roster (k + 1) seen) (hname : name ∈ b.classes.keys ∨ name ∈ b.traits.keys)
    (hnew : name ∉ seen) : b.Roster k (name :: seen) where
  nodup := List.nodup_cons.mpr ⟨hnew, h.nodup⟩
  card := Nat.lt_of_lt_of_le (card_unmet_cons_lt hname hnew) (Nat.le_of_lt_succ h.card)

theorem skip (h : b.Roster k seen) (hnew : name ∉ seen) : b.Roster k (name :: seen) where
  nodup := List.nodup_cons.mpr ⟨hnew, h.nodup⟩
  card := Nat.lt_of_le_of_lt (b.card_unmet_le (List.subset_cons_self name seen)) h.card

end Roster

def LooksUp {σ : Type} (b : Codebase) (name : String) (q : Query σ (Option ClassDecl))
    (o : Option ClassDecl) : Prop :=
  ∃ asks, (∀ s, q s = ⟨.ok o, s, asks⟩) ∧ b.scanned asks = (o.map fun _ => normalize name).toList

variable {σ : Type}

theorem looksUp_class? (b : Codebase) (name : String) :
    b.LooksUp (σ := σ) name (b.index.class? name) (b.class? name) := by
  refine ⟨[.asked ⟨.classLike, name⟩], fun _ => rfl, ?_⟩
  cases hc : b.class? name <;> simp [scanned, scanned?, hc]

theorem looksUp_trait? (b : Codebase) (name : String) :
    b.LooksUp (σ := σ) name (b.index.trait? name) (b.trait? name) := by
  refine ⟨[.asked ⟨.trait, name⟩], fun _ => rfl, ?_⟩
  cases hc : b.trait? name <;> simp [scanned, scanned?, hc]

theorem looksUp_classOrTrait? (b : Codebase) (name : String) :
    b.LooksUp (σ := σ) name (b.index.classOrTrait? name) (b.classOrTrait? name) := by
  obtain ⟨asks, hclass, hscanned⟩ := b.looksUp_class? (σ := σ) name
  cases hc : b.class? name with
  | some c =>
    rw [hc] at hclass hscanned
    refine ⟨asks ++ [], fun s => ?_, ?_⟩
    · rw [Index.classOrTrait?, bind_of_ok (hclass s), classOrTrait?, hc]
      rfl
    · rw [List.append_nil, hscanned, classOrTrait?, hc, Option.some_or]
  | none =>
    obtain ⟨asks', htrait, hscanned'⟩ := b.looksUp_trait? (σ := σ) name
    rw [hc] at hclass hscanned
    refine ⟨asks ++ asks', fun s => ?_, ?_⟩
    · rw [Index.classOrTrait?, bind_of_ok (hclass s), classOrTrait?, hc, Option.none_or]
      change (⟨(b.index.trait? name s).answer, (b.index.trait? name s).state,
        asks ++ (b.index.trait? name s).steps⟩ : Outcome σ (Option ClassDecl)) = _
      rw [htrait s]
    · have hnone : b.scanned asks = [] := hscanned
      have hboth : b.scanned (asks ++ asks') = b.scanned asks ++ b.scanned asks' :=
        List.filterMap_append
      rw [hboth, hnone, hscanned', classOrTrait?, hc, Option.none_or, List.nil_append]

theorem isSome_class?_iff {b : Codebase} {name : String} :
    (b.class? name).isSome = true ↔ normalize name ∈ b.classes.keys :=
  SortedMap.isSome_get?_iff

theorem filter_cons_of_isSome_iff {keys : List String} {key : String} {o : Option ClassDecl}
    (h : o.isSome = true ↔ key ∈ keys) (seen : List String) :
    (key :: seen).filter (· ∈ keys) =
      (o.map fun _ => key).toList ++ seen.filter (· ∈ keys) := by
  cases o with
  | none => exact List.filter_cons_of_neg (by simpa using h)
  | some c => exact List.filter_cons_of_pos (by simpa using h)

theorem length_filter_mem_le {seen : List String} (h : seen.Nodup) (keys : List String) :
    (seen.filter (· ∈ keys)).length ≤ keys.toFinset.card := by
  rw [← List.toFinset_card_of_nodup (h.filter _)]
  apply Finset.card_le_card
  intro n hn
  exact List.mem_toFinset.mpr (by simpa using (List.mem_filter.mp (List.mem_toFinset.mp hn)).2)

theorem logs_scan {β : Type} {b : Codebase} {view : σ → List String} {inv inv' met : σ → Prop}
    [DecidablePred met] {add : σ → σ} {name : String} {lookup : Query σ (Option ClassDecl)}
    {o : Option ClassDecl} {missing repeated : Query σ β} {body body' : ClassDecl → Query σ β}
    (hlookup : b.LooksUp name lookup o)
    (hview : ∀ s, (view (add s)).Perm ((o.map fun _ => normalize name).toList ++ view s))
    (hskip : ∀ s, inv s → ¬ met s → inv (add s))
    (henter : ∀ c, o = some c → ∀ s, inv s → ¬ met s → inv' (add s))
    (hinv : ∀ s, inv' s → inv s) (hmissing : Logs b.scanned? view inv missing missing)
    (hbody : ∀ c, o = some c → Logs b.scanned? view inv' (body c) (body' c))
    (hrepeated : Logs b.scanned? view inv repeated repeated) :
    Logs b.scanned? view inv
      (do if ← note met add then (do match ← lookup with
          | none => missing
          | some c => body c) else repeated)
      (do if ← note met add then (do match ← lookup with
          | none => missing
          | some c => body' c) else repeated) := by
  obtain ⟨asks, hrun, hscanned⟩ := hlookup
  rw [← hscanned] at hview
  intro s hs
  by_cases hmet : met s
  · exact LogsAt.bind (note_of_met hmet) rfl (.refl _) (hrepeated s hs)
  · refine LogsAt.bind (note_of_not_met hmet) rfl (.refl _) ?_
    refine LogsAt.bind (hrun (add s)) rfl (hview s) ?_
    -- only a class that is there uses up a key, so only then is the invariant a stronger one
    cases o with
    | none => exact hmissing (add s) (hskip s hs hmet)
    | some c => exact (hbody c rfl (add s) (henter c rfl s hs hmet)).imp hinv

end Codebase

namespace SearchPlan

variable {σ M : Type} {b : Codebase} {p : SearchPlan M}

def keys (p : SearchPlan M) (b : Codebase) : List String :=
  if p.throughTraits then b.classes.keys ++ b.traits.keys else b.classes.keys

theorem isSome_described?_iff {name : String} :
    (p.described? b name).isSome = true ↔ normalize name ∈ p.keys b := by
  unfold described? keys
  split
  · simp only [Codebase.classOrTrait?, Codebase.class?, Codebase.trait?, Option.isSome_or,
      Bool.or_eq_true, SortedMap.isSome_get?_iff, List.mem_append]
  · exact Codebase.isSome_class?_iff

theorem looksUp_describe (p : SearchPlan M) (b : Codebase) (name : String) :
    b.LooksUp (σ := σ) name (p.describe b.index name) (p.described? b name) := by
  unfold describe described?
  split
  · exact b.looksUp_classOrTrait? name
  · exact b.looksUp_class? name

def keysMet (p : SearchPlan M) (b : Codebase) (seen : List String) : List String :=
  seen.filter (· ∈ p.keys b)

theorem visit_logs (p : SearchPlan M) (b : Codebase) (k : Nat)
    (next next' : String → Query (List String) (Option (Located M)))
    (h : ∀ n, Logs b.scanned? (p.keysMet b) (b.Roster k) (next n) (next' n)) (name : String) :
    Logs b.scanned? (p.keysMet b) (b.Roster (k + 1)) (p.visit b.index next name)
      (p.visit b.index next' name) :=
  Codebase.logs_scan (p.looksUp_describe b name)
    (fun seen => .of_eq (Codebase.filter_cons_of_isSome_iff isSome_described?_iff seen))
    (fun _ hseen hmet => hseen.skip hmet)
    (fun _ hc _ hseen hmet => hseen.enter (mem_keys_of_described? hc) hmet)
    (fun _ => Codebase.Roster.succ) (composes_logs.pure none)
    (fun c _ => explore_composes composes_logs p h name c)
    (fun seen hseen => ⟨none, seen, _, rfl, rfl, hseen, .refl _⟩)

/-- A search comes to an end before it is as deep as a codebase can be: what would go on from there
has no part in it. It scans the keys among the names it has met. -/
theorem exists_outcome_iterate_visit (p : SearchPlan M) (b : Codebase) (host : String) :
    ∃ o seen steps, (∀ depth, b.depth ≤ depth → ∀ rest,
      (p.visit b.index)^[depth] rest host [] = ⟨.ok o, seen, steps⟩) ∧ b.Roster b.depth seen ∧
      (p.keysMet b seen).Perm (b.scanned steps) := by
  have hout (seen : List String) (h : b.Roster 0 seen) : False := Nat.not_lt_zero _ h.card
  obtain ⟨o, seen, steps, hrun, hseen, hkeys⟩ := exists_outcome_of_logs
    (fun i : Nat × _ => (p.visit b.index)^[i.1] i.2 host) (fun i => b.depth ≤ i.1)
    (fun i j hi hj => logs_iterate b.Roster hout (p.visit_logs b) hi hj i.2 j.2 host)
    (Codebase.Roster.start b) rfl (b.depth, fun _ => return none) (Nat.le_refl _)
  exact ⟨o, seen, steps, fun depth hdepth rest => hrun (depth, rest) hdepth, hseen, hkeys⟩

theorem returns_iterate_visit (p : SearchPlan M) (b : Codebase) (host : String) :
    ∃ seen, ∀ depth, b.depth ≤ depth → ∀ rest,
      ((p.visit b.index)^[depth] rest host).Returns [] (p.found? b host) seen := by
  obtain ⟨o, seen, steps, hrun, -, -⟩ := p.exists_outcome_iterate_visit b host
  have hsearch := hrun b.depth (Nat.le_refl _) fun _ => return none
  rw [← search_eq_iterate] at hsearch
  have hfound : p.found? b host = o := found?_eq (congrArg Outcome.answer hsearch)
  rw [hfound]
  exact ⟨seen, fun depth hdepth rest =>
    ⟨congrArg Outcome.answer (hrun depth hdepth rest),
      congrArg Outcome.state (hrun depth hdepth rest)⟩⟩

/-- A search comes to an answer, whatever it would do deeper than classes can lie, and scans none of
the keys twice. -/
structure ScansOnce (p : SearchPlan M) (b : Codebase) (keys : List String) (host : String) (s : σ)
    (r : Outcome σ (Option (Located M))) : Prop where
  answers : ∃ o, r.answer = .ok o
  ends : ∀ depth, b.depth ≤ depth → ∀ rest,
    Query.isolated [] ((p.visit b.index)^[depth] rest host) s = r
  nodup : (b.scanned r.steps).Nodup
  length_le : (b.scanned r.steps).length ≤ keys.toFinset.card

theorem scansOnce_run (p : SearchPlan M) (b : Codebase) (host : String) (s : σ) :
    p.ScansOnce b (p.keys b) host s (p.run b.index host s) := by
  obtain ⟨o, seen, steps, hrun, hroster, hkeys⟩ := p.exists_outcome_iterate_visit b host
  have hsearch : p.run b.index host s = ⟨.ok o, s, steps⟩ := by
    rw [run, search_eq_iterate]
    exact isolated_eq (hrun _ (Nat.le_refl _) _) s
  rw [hsearch]
  refine ⟨⟨o, rfl⟩, fun depth hdepth rest => ?_, ?_, ?_⟩
  · exact isolated_eq (hrun depth hdepth rest) s
  · exact hkeys.nodup_iff.mp (hroster.nodup.filter _)
  · rw [← hkeys.length_eq]
    exact Codebase.length_filter_mem_le hroster.nodup _

end SearchPlan

end SymbolicTypes
