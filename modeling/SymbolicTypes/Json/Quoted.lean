import SymbolicTypes.Text.Escaped

namespace SymbolicTypes.Json

def hexDigit (n : Nat) : Char := Nat.digitChar n

/-- The quote, the backslash and the control characters are escaped and nothing else is. -/
def escapeChar (c : Char) : List Char :=
  if c = '"' then ['\\', '"']
  else if c = '\\' then ['\\', '\\']
  else if c = '\x08' then ['\\', 'b']
  else if c = '\x0c' then ['\\', 'f']
  else if c = '\n' then ['\\', 'n']
  else if c = '\r' then ['\\', 'r']
  else if c = '\t' then ['\\', 't']
  else if c.toNat < 32 then
    ['\\', 'u', '0', '0', hexDigit (c.toNat / 16), hexDigit (c.toNat % 16)]
  else [c]

def quote (s : String) : List Char := '"' :: (s.toList.flatMap escapeChar ++ ['"'])

def unescape : Char → Option Char
  | '"' => some '"'
  | '\\' => some '\\'
  | '/' => some '/'
  | 'b' => some '\x08'
  | 'f' => some '\x0c'
  | 'n' => some '\n'
  | 'r' => some '\r'
  | 't' => some '\t'
  | _ => none

/-- The code points and code units of a string up to its closing quote, and what follows that. -/
def scanUnits : List Char → Option (List Nat × List Char)
  | [] => none
  | '"' :: rest => some ([], rest)
  | '\\' :: 'u' :: a :: b :: c :: d :: rest => do
    let a ← Text.hexValue a
    let b ← Text.hexValue b
    let c ← Text.hexValue c
    let d ← Text.hexValue d
    let (units, rest) ← scanUnits rest
    return ((((a * 16 + b) * 16 + c) * 16 + d) :: units, rest)
  | '\\' :: c :: rest => do
    let c ← unescape c
    let (units, rest) ← scanUnits rest
    return (c.toNat :: units, rest)
  | c :: rest => do
    if c.toNat < 32 ∨ c = '\\' then none
    let (units, rest) ← scanUnits rest
    return (c.toNat :: units, rest)

def isHighSurrogate (u : Nat) : Bool := 0xd800 ≤ u && u < 0xdc00

def isLowSurrogate (u : Nat) : Bool := 0xdc00 ≤ u && u < 0xe000

/-- Joins the halves of surrogate pairs. A half that stands alone is no character. -/
def joinUnits : List Nat → Option (List Char)
  | [] => some []
  | u :: us =>
    if isHighSurrogate u then
      match us with
      | v :: vs =>
        if isLowSurrogate v then
          (joinUnits vs).map (Char.ofNat ((u - 0xd800) * 0x400 + (v - 0xdc00) + 0x10000) :: ·)
        else none
      | [] => none
    else if isLowSurrogate u then none
    else (joinUnits us).map (Char.ofNat u :: ·)

def scanString (cs : List Char) : Option (Option String × List Char) :=
  (scanUnits cs).map fun p => ((joinUnits p.1).map String.ofList, p.2)

end SymbolicTypes.Json
