import SymbolicTypes.Json.Number
import SymbolicTypes.SymType.Decode
import SymbolicTypes.Text.Escaped

namespace SymbolicTypes.Snapshot

inductive ReadError
  | notJson
  | missingField (key : String)
  | duplicateField (key : String)
  | unknownField (key : String) (known : List String)
  | wrongKind (found wanted : String)
  | tooShort (length : Nat) (label : String) (fields : Nat)
  | badType (error : SymType.DecodeError)
  deriving DecidableEq

namespace ReadError

def ticked (s : String) : String := "\x60" ++ s ++ "\x60"

def message : ReadError → String
  | notJson => "not a JSON text"
  | missingField key => "missing field " ++ ticked key
  | duplicateField key => "duplicate field " ++ ticked key
  | unknownField key known =>
    "unknown field " ++ ticked key ++ ", expected one of " ++ ", ".intercalate (known.map ticked)
  | wrongKind found wanted => "invalid type: " ++ found ++ ", expected " ++ wanted
  | tooShort length label fields =>
    "invalid length " ++ toString length ++ ", expected struct " ++ label ++ " with "
      ++ toString fields ++ " elements"
  | badType error => error.message

end ReadError

/-- The error of a value of another kind than wanted. A value that is not there as such is an error
of the text. -/
def mismatch (j : Json) (wanted : String) : ReadError :=
  match j with
  | .null => .wrongKind "null" wanted
  | .bool b => .wrongKind ("boolean " ++ ReadError.ticked (if b then "true" else "false")) wanted
  | .number n =>
    match n.describe with
    | some found => .wrongKind found wanted
    | none => .notJson
  | .string (some s) => .wrongKind ("string " ++ Text.escaped s) wanted
  | .array _ _ => .wrongKind "sequence" wanted
  | .object _ _ => .wrongKind "map" wanted
  | .string none | .broken => .notJson

end SymbolicTypes.Snapshot
