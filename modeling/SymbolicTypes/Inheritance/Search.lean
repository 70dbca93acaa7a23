import SymbolicTypes.Query

namespace SymbolicTypes

open Naming

/-- A member and the class it was found in, as that class was named on the way. -/
structure Located (M : Type) where
  member : M
  host : String
  deriving DecidableEq

structure SearchPlan (M : Type) where
  kind : MemberKind
  member : String
  /-- Whether a name that is no class may be a trait. -/
  throughTraits : Bool
  own : ClassDecl → Option M
  /-- The classes that go before the members of the class itself. -/
  before : ClassDecl → List String
  /-- The classes to turn to when the class itself has no such member. -/
  after : ClassDecl → List String

def meet (name : String) : Query (List String) Bool := do
  let seen ← Query.get
  if normalize name ∈ seen then return false
  Query.set (normalize name :: seen)
  return true

namespace SearchPlan

variable {M σ : Type}

def describe (p : SearchPlan M) (ix : Index) (name : String) : Query σ (Option ClassDecl) :=
  if p.throughTraits then ix.classOrTrait? name else ix.class? name

/-- Depth-first search. A class that was met before is not looked at again, and the number bounds
how deep classes lie. -/
def search (p : SearchPlan M) (ix : Index) : Nat → String → Query (List String) (Option (Located M))
  | 0, _ => return none
  | depth + 1, name => do
    if ← meet name then
      match ← p.describe ix name with
      | none => return none
      | some c =>
        match ← Query.firstSome (p.search ix depth) (p.before c) with
        | some found => return some found
        | none =>
          match p.own c with
          | some m => return some ⟨m, name⟩
          | none => Query.firstSome (p.search ix depth) (p.after c)
    else
      Query.emit (.inheritanceRepeats p.kind name p.member)
      return none

end SearchPlan

/-- How many classes can lie one above the other, and one more. -/
def Codebase.depth (b : Codebase) : Nat := b.classes.entries.length + b.traits.entries.length + 1

def SearchPlan.run {M σ : Type} (p : SearchPlan M) (ix : Index) (host : String) :
    Query σ (Option (Located M)) :=
  Query.isolated [] (p.search ix ix.codebase.depth host)

end SymbolicTypes
