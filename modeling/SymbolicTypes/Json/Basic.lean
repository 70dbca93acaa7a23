namespace SymbolicTypes

structure Json.Number where
  negative : Bool := false
  whole : List Char
  fraction : List Char := []
  exponentNegative : Bool := false
  exponent : List Char := []
  deriving DecidableEq

/-- A document as far as it can be read. A text that breaks off, or goes on in some way that is no
JSON, leaves a value that is broken or not closed, and nothing after it. -/
inductive Json
  | null
  | bool (b : Bool)
  | number (n : Json.Number)
  /-- The escapes of a string may form no text. -/
  | string (s : Option String)
  | array (items : List Json) (closed : Bool)
  | object (members : List (Option String × Json)) (closed : Bool)
  | broken

namespace Json

mutual

def isWhole : Json → Bool
  | array items closed => allWhole items && closed
  | object members closed => membersWhole members && closed
  | broken => false
  | _ => true

def allWhole : List Json → Bool
  | [] => true
  | j :: js => j.isWhole && allWhole js

def membersWhole : List (Option String × Json) → Bool
  | [] => true
  | (_, j) :: ms => j.isWhole && membersWhole ms

end

def ofString (s : String) : Json := string (some s)

def ofList (items : List Json) : Json := array items true

def ofFields (members : List (String × Json)) : Json :=
  object (members.map fun m => (some m.1, m.2)) true

end Json

end SymbolicTypes
