import SymbolicTypes.Inheritance.Search

namespace SymbolicTypes

namespace SearchPlan

/-- A class's own methods come first, then those of its traits, of the interfaces it extends and of
its parent. -/
def method (name : String) : SearchPlan FunctionDecl where
  kind := .method
  member := name
  throughTraits := true
  own c := c.method? name
  before _ := []
  after c := c.traits ++ c.parentInterfaces ++ c.parents

/-- Properties are looked for along the parent classes alone. -/
def property (name : String) : SearchPlan TypedName where
  kind := .property
  member := name
  throughTraits := false
  own c := c.property? name
  before _ := []
  after c := c.parents

/-- The interfaces of a class come before its own constants, the interfaces it extends and its
parent after them. -/
def constant (name : String) : SearchPlan TypedName where
  kind := .constant
  member := name
  throughTraits := false
  own c := c.constant? name
  before c := c.interfaces
  after c := c.parentInterfaces ++ c.parents

end SearchPlan

namespace Index

variable {σ : Type}

def findMethod (ix : Index) (host name : String) : Query σ (Option (Located FunctionDecl)) :=
  (SearchPlan.method name).run ix host

def findProperty (ix : Index) (host name : String) : Query σ (Option (Located TypedName)) :=
  (SearchPlan.property name).run ix host

def findConstant (ix : Index) (host name : String) : Query σ (Option (Located TypedName)) :=
  (SearchPlan.constant name).run ix host

end Index

end SymbolicTypes
