import SymbolicTypes.TypeUnion

namespace SymbolicTypes

/-- A parameter, a property or a constant: a name and its declared type. -/
structure TypedName where
  name : String
  type : TypeUnion := ∅
  deriving DecidableEq, Inhabited

structure FunctionDecl where
  name : String
  parameters : List TypedName := []
  returnType : TypeUnion := ∅
  deriving DecidableEq, Inhabited

/-- A class, an interface or a trait. -/
structure ClassDecl where
  name : String
  parent : Option String := none
  traits : List String := []
  interfaces : List String := []
  /-- The interfaces that an interface extends. -/
  parentInterfaces : List String := []
  methods : List FunctionDecl := []
  properties : List TypedName := []
  constants : List TypedName := []
  deriving DecidableEq, Inhabited

namespace ClassDecl

def method? (c : ClassDecl) (name : String) : Option FunctionDecl :=
  c.methods.find? fun m => m.name == name

def property? (c : ClassDecl) (name : String) : Option TypedName :=
  c.properties.find? fun p => p.name == name

def constant? (c : ClassDecl) (name : String) : Option TypedName :=
  c.constants.find? fun k => k.name == name

/-- The parent class, as a list of at most one name: an empty name is no parent. -/
def parents (c : ClassDecl) : List String := c.parent.toList.filter fun p => !p.isEmpty

end ClassDecl

end SymbolicTypes
