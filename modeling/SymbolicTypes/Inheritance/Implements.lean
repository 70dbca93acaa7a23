import SymbolicTypes.Inheritance.Search

namespace SymbolicTypes

open Naming

/-- The normalized names met so far, as classes and as interfaces. -/
structure Ancestry where
  classes : List String := []
  interfaces : List String := []

namespace Ancestry

def meetClass (name : String) : Query Ancestry Bool := do
  let a ← Query.get
  if normalize name ∈ a.classes then return false
  Query.set { a with classes := normalize name :: a.classes }
  return true

def meetInterface (name : String) : Query Ancestry Bool := do
  let a ← Query.get
  if normalize name ∈ a.interfaces then return false
  Query.set { a with interfaces := normalize name :: a.interfaces }
  return true

def extendsFrom (ix : Index) (target : String) : Nat → String → Query Ancestry Bool
  | 0, _ => return false
  | depth + 1, name => do
    if ← meetInterface name then
      match ← ix.class? name with
      | none => return false
      | some c =>
        Query.anyOf
          (fun p => if same p target then pure true else extendsFrom ix target depth p)
          c.parentInterfaces
    else return false

/-- Whether a class or one of its parents names the target among its interfaces, or an interface
that extends it. -/
def implementsFrom (ix : Index) (target : String) : Nat → String → Query Ancestry Bool
  | 0, _ => return false
  | depth + 1, name => do
    if ← meetClass name then
      match ← ix.class? name with
      | none => return false
      | some c =>
        if c.interfaces.any fun i => same i target then return true
        if ← Query.anyOf (extendsFrom ix target ix.codebase.depth) c.interfaces then return true
        Query.anyOf (implementsFrom ix target depth) c.parents
    else return false

end Ancestry

def Index.implements {σ : Type} (ix : Index) (host interface : String) : Query σ Bool :=
  Query.isolated {} (Ancestry.implementsFrom ix interface ix.codebase.depth host)

end SymbolicTypes
