import SymbolicTypes.SortedSet

namespace SymbolicTypes

abbrev TypeNames := SortedSet String

namespace TypeNames

def staticName : String := "static"

/-- Anything at all. Its elements may be anything too. -/
def mixedName : String := "mixed"

def arrayName : String := "array"

/-- An array of which no element was seen. -/
def emptyArrayName : String := "empty_array"

def arrayOf (name : String) : String := name ++ "[]"

def element? (name : String) : Option String :=
  match name.toList.reverse with
  | ']' :: '[' :: rest => some (String.ofList rest.reverse)
  | _ => none

def isArray (name : String) : Bool := (element? name).isSome

/-- The arrays over the names, where `static` stands for the class `context`. -/
def wrapArray (context : String) (names : TypeNames) : TypeNames :=
  SortedSet.ofList
    (names.toList.map fun n => if n = staticName then arrayOf context else arrayOf n)

def unwrapArray (names : TypeNames) : TypeNames :=
  SortedSet.ofList
    (names.toList.filterMap fun n => (element? n).or (if n = mixedName then some n else none))

def bindStatic (host : String) (names : TypeNames) : TypeNames :=
  SortedSet.ofList (names.toList.map fun n => if n = staticName then host else n)

/-- An array of which no element was seen is just an array, and adds nothing to a known one. -/
def settleEmptyArray (names : TypeNames) : TypeNames :=
  if names.contains emptyArrayName then
    let rest := names.erase emptyArrayName
    if rest.toList.any isArray then rest else rest.insert arrayName
  else names

end TypeNames

end SymbolicTypes
