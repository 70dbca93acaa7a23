import SymbolicTypes.Codebase
import SymbolicTypes.Json.Parser
import SymbolicTypes.Snapshot.Schema

namespace SymbolicTypes.Snapshot

variable {α ρ : Type}

def field (key : String) (read : Json → Except ReadError α) (put : ρ → α → ρ) : Field ρ where
  key := key
  read j r := (read j).map (put r)

def nameField (put : ρ → String → ρ) : Field ρ :=
  { field "name" readString put with required := true }

def readType (j : Json) : Except ReadError SymType := do
  match SymType.ofText (← readString j) with
  | .ok t => .ok t
  | .error e => .error (.badType e)

def readUnion (j : Json) : Except ReadError TypeUnion := do
  return TypeUnion.ofList (← readList readType j)

def typedNameSchema (label : String) : Schema TypedName where
  label := label
  blank := { name := "" }
  fields :=
    [nameField fun r name => { r with name },
     field "type" readUnion fun r type => { r with type }]

def functionSchema : Schema FunctionDecl where
  label := "FunctionInfo"
  blank := { name := "" }
  fields :=
    [nameField fun r name => { r with name },
     field "parameters" (readList (typedNameSchema "ParameterInfo").read)
       fun r parameters => { r with parameters },
     field "return_type" readUnion fun r returnType => { r with returnType }]

def classSchema : Schema ClassDecl where
  label := "ClassInfo"
  blank := { name := "" }
  fields :=
    [nameField fun r name => { r with name },
     field "parent_class" (readOptional readString) fun r parent => { r with parent },
     field "used_traits" (readList readString) fun r traits => { r with traits },
     field "interfaces" (readList readString) fun r interfaces => { r with interfaces },
     field "parent_interfaces" (readList readString)
       fun r parentInterfaces => { r with parentInterfaces },
     field "methods" (readList functionSchema.read) fun r methods => { r with methods },
     field "properties" (readList (typedNameSchema "PropertyInfo").read)
       fun r properties => { r with properties },
     field "constants" (readList (typedNameSchema "ConstantInfo").read)
       fun r constants => { r with constants }]

def schema : Schema Snapshot where
  label := "IndexSnapshot"
  strict := true
  blank := {}
  fields :=
    [field "classes" (readList classSchema.read) fun r classes => { r with classes },
     field "traits" (readList classSchema.read) fun r traits => { r with traits },
     field "functions" (readList functionSchema.read) fun r functions => { r with functions },
     field "global_vars" (readMap readUnion)
       fun r globals => { r with globals := SortedMap.ofList globals },
     field "constants" (readList (typedNameSchema "ConstantInfo").read)
       fun r constants => { r with constants },
     field "indexing_complete" readBool fun r complete => { r with complete }]

/-- Reads a stored snapshot. What stands in the text first is judged first. -/
def ofText (text : String) : Except ReadError Snapshot := do
  let (value, alone) := Json.parse text
  let s ← schema.read value
  closing alone s

end SymbolicTypes.Snapshot
