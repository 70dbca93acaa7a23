namespace SymbolicTypes

/-- The type of a program symbol as its declaration gives it: a name, or an indirection through
another declaration that is followed once the whole program is known. -/
inductive SymType
  /-- A type by its name: `int`, `\App\User`, `Foo[]`, `static`. -/
  | named (name : String)
  | global (name : String)
  | constant (name : String)
  | arrayOf (element : SymType)
  | elementOf (array : SymType)
  | callOf (function : String)
  /-- What a method returns when called on a receiver. -/
  | methodOf (receiver : SymType) (method : String)
  /-- The type of a property fetched from a receiver. -/
  | propertyOf (receiver : SymType) (property : String)
  /-- What a method returns when called on a class. -/
  | staticMethodOf (host method : String)
  /-- The type of a property fetched from a class. -/
  | staticPropertyOf (host property : String)
  /-- The parameter of a method at a position, as an interface of the host class declares it. -/
  | interfaceParam (index : UInt64) (host method : String)
  deriving DecidableEq, Inhabited

namespace SymType

def isNamed : SymType → Bool
  | named _ => true
  | _ => false

/-- A type that may stand in a union: every name in it is present, and no plain name begins with
the character that opens an indirection. -/
def isEncodable : SymType → Bool
  | named name => !name.isEmpty && name.toList.head? != some '@'
  | global name | constant name | callOf name => !name.isEmpty
  | arrayOf e | elementOf e => e.isEncodable
  | methodOf r name | propertyOf r name => r.isEncodable && !name.isEmpty
  | staticMethodOf c name | staticPropertyOf c name | interfaceParam _ c name =>
    !c.isEmpty && !name.isEmpty

def parts : SymType → List SymType
  | e@(arrayOf i) | e@(elementOf i) => e :: i.parts
  | e@(methodOf r _) | e@(propertyOf r _) => e :: r.parts
  | e => [e]

def indirections (t : SymType) : List SymType := t.parts.filter fun s => !s.isNamed

end SymType

end SymbolicTypes
