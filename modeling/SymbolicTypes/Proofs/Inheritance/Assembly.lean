import SymbolicTypes.Proofs.Inheritance.Search
import SymbolicTypes.Proofs.Query.Composes

namespace SymbolicTypes

open Query

/-- A relation that composes and that lookups in two indexes of one codebase keep. -/
structure Carries {σ : Type} (ix ix' : Index) (A : ∀ {α : Type}, Query σ α → Query σ α → Prop) :
    Prop extends Composes A where
  codebase : ix.codebase = ix'.codebase
  ask : ∀ l, A (ix.ask l) (ix'.ask l)

namespace Carries

variable {σ M : Type} {A : ∀ {α : Type}, Query σ α → Query σ α → Prop} {ix ix' : Index}

theorem class? (h : Carries ix ix' A) (name : String) : A (ix.class? name) (ix'.class? name) := by
  apply h.bind (h.ask _)
  intro _
  rw [h.codebase]
  exact h.pure _

theorem trait? (h : Carries ix ix' A) (name : String) : A (ix.trait? name) (ix'.trait? name) := by
  apply h.bind (h.ask _)
  intro _
  rw [h.codebase]
  exact h.pure _

theorem function? (h : Carries ix ix' A) (name : String) :
    A (ix.function? name) (ix'.function? name) := by
  apply h.bind (h.ask _)
  intro _
  rw [h.codebase]
  exact h.pure _

theorem global? (h : Carries ix ix' A) (name : String) :
    A (ix.global? name) (ix'.global? name) := by
  apply h.bind (h.ask _)
  intro _
  rw [h.codebase]
  exact h.pure _

theorem constant? (h : Carries ix ix' A) (name : String) :
    A (ix.constant? name) (ix'.constant? name) := by
  apply h.bind (h.ask _)
  intro _
  rw [h.codebase]
  exact h.pure _

theorem classOrTrait? (h : Carries ix ix' A) (name : String) :
    A (ix.classOrTrait? name) (ix'.classOrTrait? name) := by
  apply h.bind (h.class? name)
  intro o
  cases o with
  | some c => exact h.pure (some c)
  | none => exact h.trait? name

theorem describe (h : Carries ix ix' A) (p : SearchPlan M) (name : String) :
    A (p.describe ix name) (p.describe ix' name) := by
  unfold SearchPlan.describe
  split
  · exact h.classOrTrait? name
  · exact h.class? name

end Carries

namespace SearchPlan

variable {σ M : Type}

theorem explore_composes {A : ∀ {α : Type}, Query σ α → Query σ α → Prop} (h : Composes A)
    (p : SearchPlan M) {next next' : String → Query σ (Option (Located M))}
    (hnext : ∀ n, A (next n) (next' n)) (name : String) (c : ClassDecl) :
    A (p.explore next name c) (p.explore next' name c) := by
  apply h.bind (h.firstSome hnext (p.before c))
  intro before
  cases before with
  | some found => exact h.pure (some found)
  | none =>
    cases p.own c with
    | some m => exact h.pure _
    | none => exact h.firstSome hnext (p.after c)

variable {A : ∀ {α : Type}, Query (List String) α → Query (List String) α → Prop} {ix ix' : Index}

theorem meet_composes (h : Composes A) (hget : A get get) (hset : ∀ seen, A (set seen) (set seen))
    (name : String) : A (meet name) (meet name) := by
  apply h.bind hget
  intro seen
  split
  · exact h.pure false
  · exact h.bind (hset _) fun _ => h.pure true

theorem visit_composes (h : Carries ix ix' A) (hmeet : ∀ n, A (meet n) (meet n))
    (p : SearchPlan M)
    (hrepeat : ∀ host, A (emit (.inheritanceRepeats p.kind host p.member))
      (emit (.inheritanceRepeats p.kind host p.member)))
    {next next' : String → Query (List String) (Option (Located M))}
    (hnext : ∀ n, A (next n) (next' n)) (name : String) :
    A (p.visit ix next name) (p.visit ix' next' name) := by
  apply h.bind (hmeet name)
  intro new
  cases new with
  | false => exact h.bind (hrepeat name) fun _ => h.pure none
  | true =>
    apply h.bind (h.describe p name)
    intro o
    cases o with
    | none => exact h.pure none
    | some c => exact explore_composes h.toComposes p hnext name c

theorem search_composes (h : Carries ix ix' A) (hmeet : ∀ n, A (meet n) (meet n))
    (p : SearchPlan M)
    (hrepeat : ∀ host, A (emit (.inheritanceRepeats p.kind host p.member))
      (emit (.inheritanceRepeats p.kind host p.member)))
    (depth : Nat) (name : String) : A (p.search ix depth name) (p.search ix' depth name) := by
  induction depth generalizing name with
  | zero => exact h.pure none
  | succ depth ih =>
    rw [search_succ, search_succ]
    exact visit_composes h hmeet p hrepeat ih name

end SearchPlan

end SymbolicTypes
