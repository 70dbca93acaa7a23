namespace SymbolicTypes.Naming

def separator : Char := '\\'

def dropLeading (c : Char) (name : String) : String :=
  match name.toList with
  | d :: rest => if d = c then String.ofList rest else name
  | [] => name

/-- The spelling under which a class, function or constant is filed: one leading separator is
dropped, so that a name means the same with and without it. -/
def normalize (name : String) : String := dropLeading separator name

/-- The spelling under which a variable is filed: one leading `$` is dropped. -/
def normalizeVariable (name : String) : String := dropLeading '$' name

def shortName (name : String) : String :=
  String.ofList (name.toList.reverse.takeWhile (· ≠ separator)).reverse

def depth (name : String) : Nat := name.toList.count separator

/-- The name in the root namespace that stands in for a function missing from its own: a name with
a single separator is in the root namespace already. -/
def rootFallback (name : String) : Option String :=
  if 1 < depth name then some (separator.toString ++ shortName name) else none

def same (a b : String) : Bool := normalize a == normalize b

end SymbolicTypes.Naming
