import SymbolicTypes.Json.Basic
import SymbolicTypes.Json.Quoted

namespace SymbolicTypes.Json

def isBlank (c : Char) : Bool := c == ' ' || c == '\n' || c == '\t' || c == '\r'

def skipBlanks (cs : List Char) : List Char := cs.dropWhile isBlank

def scanDigits (cs : List Char) : List Char × List Char :=
  (cs.takeWhile Char.isDigit, cs.dropWhile Char.isDigit)

def scanWhole (cs : List Char) : Option (List Char × List Char) :=
  match scanDigits cs with
  | ([], _) | ('0' :: _ :: _, _) => none
  | p => some p

def scanFraction : List Char → Option (List Char × List Char)
  | '.' :: cs =>
    match scanDigits cs with
    | ([], _) => none
    | p => some p
  | cs => some ([], cs)

def scanExponent : List Char → Option (Bool × List Char × List Char)
  | c :: cs =>
    if c = 'e' ∨ c = 'E' then
      match scanDigits (if cs.head? = some '+' ∨ cs.head? = some '-' then cs.tail else cs) with
      | ([], _) => none
      | (ds, rest) => some (cs.head? = some '-', ds, rest)
    else some (false, [], c :: cs)
  | [] => some (false, [], [])

def scanNumber (cs : List Char) : Option (Number × List Char) := do
  let (whole, rest) ← scanWhole (if cs.head? = some '-' then cs.tail else cs)
  let (fraction, rest) ← scanFraction rest
  let (exponentNegative, exponent, rest) ← scanExponent rest
  return ({ negative := cs.head? = some '-', whole, fraction, exponentNegative, exponent }, rest)

mutual

/-- Reads a value and tells what follows it. The number bounds how far the text is followed. -/
def scanValue : Nat → List Char → Json × List Char
  | 0, _ => (broken, [])
  | n + 1, cs =>
    match skipBlanks cs with
    | 'n' :: 'u' :: 'l' :: 'l' :: rest => (null, rest)
    | 't' :: 'r' :: 'u' :: 'e' :: rest => (bool true, rest)
    | 'f' :: 'a' :: 'l' :: 's' :: 'e' :: rest => (bool false, rest)
    | '"' :: rest =>
      match scanString rest with
      | some (s, rest) => (string s, rest)
      | none => (broken, [])
    | '[' :: rest =>
      match skipBlanks rest with
      | ']' :: rest => (array [] true, rest)
      | rest =>
        let (items, closed, rest) := scanItems n rest
        (array items closed, rest)
    | '\x7b' :: rest =>
      match skipBlanks rest with
      | '\x7d' :: rest => (object [] true, rest)
      | rest =>
        let (members, closed, rest) := scanMembers n rest
        (object members closed, rest)
    | rest =>
      match scanNumber rest with
      | some (x, rest) => (number x, rest)
      | none => (broken, [])

def scanItems : Nat → List Char → List Json × Bool × List Char
  | 0, _ => ([], false, [])
  | n + 1, cs =>
    let (item, rest) := scanValue n cs
    match skipBlanks rest with
    | ',' :: rest =>
      let (items, closed, rest) := scanItems n rest
      (item :: items, closed, rest)
    | ']' :: rest => ([item], true, rest)
    | _ => ([item], false, [])

def scanMembers : Nat → List Char → List (Option String × Json) × Bool × List Char
  | 0, _ => ([], false, [])
  | n + 1, cs =>
    match skipBlanks cs with
    | '"' :: rest =>
      match scanString rest with
      | none => ([], false, [])
      | some (key, rest) =>
        match skipBlanks rest with
        | ':' :: rest =>
          let (value, rest) := scanValue n rest
          match skipBlanks rest with
          | ',' :: rest =>
            let (members, closed, rest) := scanMembers n rest
            ((key, value) :: members, closed, rest)
          | '\x7d' :: rest => ([(key, value)], true, rest)
          | _ => ([(key, value)], false, [])
        | _ => ([(key, broken)], false, [])
    | _ => ([], false, [])

end

/-- The value a text holds, and whether nothing but blanks follows it. -/
def parse (text : String) : Json × Bool :=
  let cs := text.toList
  let (value, rest) := scanValue (2 * cs.length + 2) cs
  (value, (skipBlanks rest).isEmpty)

end SymbolicTypes.Json
