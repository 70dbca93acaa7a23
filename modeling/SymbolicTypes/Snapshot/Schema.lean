import SymbolicTypes.Snapshot.Error

namespace SymbolicTypes.Snapshot

structure Field (ρ : Type) where
  key : String
  required : Bool := false
  read : Json → ρ → Except ReadError ρ

structure Schema (ρ : Type) where
  label : String
  strict : Bool := false
  /-- The record all of whose fields are absent. -/
  blank : ρ
  fields : List (Field ρ)

variable {α ρ : Type}

def readString : Json → Except ReadError String
  | .string (some s) => .ok s
  | j => .error (mismatch j "a string")

def readBool : Json → Except ReadError Bool
  | .bool b => .ok b
  | j => .error (mismatch j "a boolean")

def readOptional (read : Json → Except ReadError α) : Json → Except ReadError (Option α)
  | .null => .ok none
  | j => (read j).map some

def closing (closed : Bool) (a : α) : Except ReadError α := if closed then .ok a else .error .notJson

def readList (read : Json → Except ReadError α) : Json → Except ReadError (List α)
  | .array items closed => do closing closed (← items.mapM read)
  | j => .error (mismatch j "a sequence")

def readEntry (read : Json → Except ReadError α) :
    Option String × Json → Except ReadError (String × α)
  | (some key, j) => do return (key, ← read j)
  | (none, _) => .error .notJson

def readMap (read : Json → Except ReadError α) : Json → Except ReadError (List (String × α))
  | .object members closed => do closing closed (← members.mapM (readEntry read))
  | j => .error (mismatch j "a map")

namespace Schema

def missing (s : Schema ρ) (seen : List String) : Option String :=
  (s.fields.find? fun f => f.required && !seen.contains f.key).map Field.key

def readMembers (s : Schema ρ) (closed : Bool) :
    List (Option String × Json) → List String → ρ → Except ReadError ρ
  | [], seen, r => do
    closing closed ()
    match s.missing seen with
    | some key => .error (.missingField key)
    | none => .ok r
  | (none, _) :: _, _, _ => .error .notJson
  | (some key, j) :: members, seen, r =>
    match s.fields.find? fun f => f.key == key with
    | some f =>
      if seen.contains key then .error (.duplicateField key)
      else do readMembers s closed members (key :: seen) (← f.read j r)
    | none =>
      if s.strict then .error (.unknownField key (s.fields.map Field.key))
      else if j.isWhole then readMembers s closed members seen r
      else .error .notJson

/-- Reads the fields in their order; those at the end may be left out unless they are required. The
number counts those before. -/
def readFields (s : Schema ρ) (closed : Bool) :
    List (Field ρ) → List Json → Nat → ρ → Except ReadError ρ
  | [], [], _, r => closing closed r
  | [], _ :: _, _, _ => .error .notJson
  | f :: fields, j :: items, n, r => do readFields s closed fields items (n + 1) (← f.read j r)
  | f :: fields, [], n, r => do
    closing closed ()
    if f.required then .error (.tooShort n s.label s.fields.length)
    else readFields s closed fields [] (n + 1) r

def read (s : Schema ρ) : Json → Except ReadError ρ
  | .object members closed => s.readMembers closed members [] s.blank
  | .array items closed => s.readFields closed s.fields items 0 s.blank
  | j => .error (mismatch j ("struct " ++ s.label))

end Schema

end SymbolicTypes.Snapshot
