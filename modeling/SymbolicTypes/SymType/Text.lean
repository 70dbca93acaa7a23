import SymbolicTypes.SymType.Basic

namespace SymbolicTypes.SymType

inductive Tag
  | global
  | constant
  | arrayOf
  | elementOf
  | call
  | method
  | property
  | staticMethod
  | staticProperty
  | interfaceParam
  deriving DecidableEq

namespace Tag

def text : Tag → String
  | global => "global"
  | constant => "const"
  | arrayOf => "array"
  | elementOf => "elem"
  | call => "call"
  | method => "method"
  | property => "prop"
  | staticMethod => "static_call"
  | staticProperty => "static_prop"
  | interfaceParam => "base_param"

def all : List Tag :=
  [global, constant, arrayOf, elementOf, call, method, property, staticMethod, staticProperty,
    interfaceParam]

def ofText? (word : List Char) : Option Tag := all.find? fun t => t.text.toList == word

def arity : Tag → Nat
  | global | constant | arrayOf | elementOf | call => 1
  | method | property | staticMethod | staticProperty => 2
  | interfaceParam => 3

end Tag

def joinArgs : List (List Char) → List Char
  | [] => []
  | [a] => a
  | a :: as => a ++ ',' :: joinArgs as

def tagged (t : Tag) (args : List (List Char)) : List Char :=
  '@' :: (t.text.toList ++ '(' :: (joinArgs args ++ [')']))

/-- A plain name stands for itself; an indirection is `@tag(argument,…)`, and the types inside it
are written the same way. -/
def encode : SymType → List Char
  | named name => name.toList
  | global name => tagged .global [name.toList]
  | constant name => tagged .constant [name.toList]
  | arrayOf e => tagged .arrayOf [e.encode]
  | elementOf e => tagged .elementOf [e.encode]
  | callOf name => tagged .call [name.toList]
  | methodOf r m => tagged .method [r.encode, m.toList]
  | propertyOf r p => tagged .property [r.encode, p.toList]
  | staticMethodOf c m => tagged .staticMethod [c.toList, m.toList]
  | staticPropertyOf c p => tagged .staticProperty [c.toList, p.toList]
  | interfaceParam i c m =>
    tagged .interfaceParam [Nat.toDigits 10 i.toNat, c.toList, m.toList]

def text (t : SymType) : String := String.ofList t.encode

instance : ToString SymType := ⟨text⟩

end SymbolicTypes.SymType
