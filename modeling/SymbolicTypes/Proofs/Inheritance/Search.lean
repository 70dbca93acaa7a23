import SymbolicTypes.Proofs.Inheritance.Declared

namespace SymbolicTypes

open Query

namespace SearchPlan

variable {σ M : Type} {b : Codebase} {p : SearchPlan M}

theorem meet_eq_note (name : String) :
    meet name =
      note (Naming.normalize name ∈ ·) (Naming.normalize name :: ·) := rfl

theorem returns_meet_of_mem {name : String} {seen : List String}
    (h : Naming.normalize name ∈ seen) : (meet name).Returns seen false seen := by
  rw [meet_eq_note]
  exact returns_note_of_met h

theorem returns_meet_of_not_mem {name : String} {seen : List String}
    (h : Naming.normalize name ∉ seen) :
    (meet name).Returns seen true (Naming.normalize name :: seen) := by
  rw [meet_eq_note]
  exact returns_note_of_not_met h

/-- The search at a class that is known; `next` goes on to the classes it leads to. -/
def explore (p : SearchPlan M) (next : String → Query σ (Option (Located M))) (name : String)
    (c : ClassDecl) : Query σ (Option (Located M)) := do
  match ← Query.firstSome next (p.before c) with
  | some found => return some found
  | none =>
    match p.own c with
    | some m => return some ⟨m, name⟩
    | none => Query.firstSome next (p.after c)

def visit (p : SearchPlan M) (ix : Index)
    (next : String → Query (List String) (Option (Located M))) (name : String) :
    Query (List String) (Option (Located M)) := do
  if ← meet name then
    match ← p.describe ix name with
    | none => return none
    | some c => p.explore next name c
  else
    Query.emit (.inheritanceRepeats p.kind name p.member)
    return none

section

variable {next : String → Query (List String) (Option (Located M))} {name : String}
  {seen w : List String} {o : Option (Located M)}

theorem returns_visit_of_mem (h : Naming.normalize name ∈ seen) :
    (p.visit b.index next name).Returns seen none seen := by
  apply (returns_meet_of_mem h).bind
  exact (returns_emit _ seen).bind (returns_pure none seen)

theorem returns_visit_of_none (h : Naming.normalize name ∉ seen)
    (hc : p.described? b name = none) :
    (p.visit b.index next name).Returns seen none (Naming.normalize name :: seen) := by
  obtain ⟨_, rfl, hdescribe⟩ := knows_describe (σ := List String) p b name
  apply (returns_meet_of_not_mem h).bind
  apply (hdescribe _).bind
  rw [hc]
  exact returns_pure none _

theorem returns_visit_of_some (h : Naming.normalize name ∉ seen) {c : ClassDecl}
    (hc : p.described? b name = some c)
    (hexplore : (p.explore next name c).Returns (Naming.normalize name :: seen) o w) :
    (p.visit b.index next name).Returns seen o w := by
  obtain ⟨_, rfl, hdescribe⟩ := knows_describe (σ := List String) p b name
  apply (returns_meet_of_not_mem h).bind
  apply (hdescribe _).bind
  rw [hc]
  exact hexplore

end

theorem search_succ (p : SearchPlan M) (ix : Index) (depth : Nat) :
    p.search ix (depth + 1) = p.visit ix (p.search ix depth) := by
  funext name
  rfl

theorem explore_answers {next : String → Query σ (Option (Located M))} {P : M → Prop}
    {c : ClassDecl} (hown : ∀ m, p.own c = some m → P m)
    (hnext : ∀ name, (next name).Answers fun o => ∀ found ∈ o, P found.member) (name : String) :
    (p.explore next name c).Answers fun o => ∀ found ∈ o, P found.member := by
  apply (Answers.firstSome hnext).bind
  intro before hbefore
  cases before with
  | some found => exact answers_pure hbefore
  | none =>
    cases hm : p.own c with
    | some m => exact answers_pure (by simpa using hown m hm)
    | none => exact Answers.firstSome hnext

theorem answers_search (p : SearchPlan M) (b : Codebase) (depth : Nat) (name : String) :
    (p.search b.index depth name).Answers
      fun o => ∀ found ∈ o, ∃ c ∈ b.classLikes, p.own c = some found.member := by
  induction depth generalizing name with
  | zero => exact answers_pure (by simp)
  | succ depth ih =>
    rw [search_succ]
    intro seen
    by_cases hmet : Naming.normalize name ∈ seen
    · exact ⟨none, seen, returns_visit_of_mem hmet, by simp⟩
    cases hc : p.described? b name with
    | none => exact ⟨none, _, returns_visit_of_none hmet hc, by simp⟩
    | some c =>
      have hown : ∀ m, p.own c = some m → ∃ c ∈ b.classLikes, p.own c = some m :=
        fun m hm => ⟨c, mem_classLikes_of_described? hc, hm⟩
      obtain ⟨o, w, hexplore, ho⟩ := explore_answers hown ih name (Naming.normalize name :: seen)
      exact ⟨o, w, returns_visit_of_some hmet hc hexplore, ho⟩

def found? (p : SearchPlan M) (b : Codebase) (host : String) : Option (Located M) :=
  (p.run b.index host ()).answer.toOption.join

theorem found?_eq {host : String} {o : Option (Located M)}
    (h : (p.run b.index host ()).answer = .ok o) : p.found? b host = o := by
  rw [found?, h]
  cases o <;> rfl

theorem knows_run (p : SearchPlan M) (b : Codebase) (host : String) :
    Knows (σ := σ) (p.run b.index host) (· = p.found? b host) := by
  obtain ⟨o, _, hrun⟩ := (answers_search p b b.depth host).isolated (σ := Unit) []
  have ho : p.found? b host = o := found?_eq (hrun ()).answer
  -- the search has a state of its own, so its answer is the same beside any other state
  exact ⟨o, ho.symm, fun s => ⟨(hrun ()).answer, rfl⟩⟩

theorem own_of_found? {host : String} {found : Located M} (h : p.found? b host = some found) :
    ∃ c ∈ b.classLikes, p.own c = some found.member := by
  obtain ⟨o, ho, hrun⟩ := (answers_search p b b.depth host).isolated (σ := Unit) []
  have hfound : o = some found := (found?_eq (hrun ()).answer).symm.trans h
  exact ho found hfound

theorem mem_keys_of_found? {host : String} {found : Located M} (h : p.found? b host = some found) :
    Naming.normalize host ∈ b.classes.keys ∨ Naming.normalize host ∈ b.traits.keys := by
  cases hc : p.described? b host with
  | some c => exact mem_keys_of_described? hc
  | none =>
    have hsearch : (p.search b.index b.depth host).Returns [] none [Naming.normalize host] :=
      returns_visit_of_none List.not_mem_nil hc
    have hnone : p.found? b host = none := found?_eq (hsearch.isolated ()).answer
    exact absurd (hnone.symm.trans h) (by simp)

end SearchPlan

namespace Codebase

variable {σ : Type}

def findMethod? (b : Codebase) (host name : String) : Option (Located FunctionDecl) :=
  (SearchPlan.method name).found? b host

def findProperty? (b : Codebase) (host name : String) : Option (Located TypedName) :=
  (SearchPlan.property name).found? b host

theorem knows_findMethod? (b : Codebase) (host name : String) :
    Knows (σ := σ) (b.index.findMethod host name) (· = b.findMethod? host name) :=
  SearchPlan.knows_run _ b host

theorem knows_findProperty? (b : Codebase) (host name : String) :
    Knows (σ := σ) (b.index.findProperty host name) (· = b.findProperty? host name) :=
  SearchPlan.knows_run _ b host

end Codebase

end SymbolicTypes
