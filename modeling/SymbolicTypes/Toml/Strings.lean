import SymbolicTypes.Text.Escaped

namespace SymbolicTypes.Toml

def isControl (c : Char) : Bool := (c.toNat < 32 && c ≠ '\t') || c.toNat = 127

def isBlank (c : Char) : Bool := c == ' ' || c == '\t'

def skipBlanks (cs : List Char) : List Char := cs.dropWhile isBlank

def scanCode (count : Nat) (cs : List Char) : Option (Char × List Char) := do
  let digits := cs.take count
  if digits.length < count then none
  let code ← digits.foldlM (fun n c => (Text.hexValue c).map (16 * n + ·)) 0
  if h : code.isValidChar then return (Char.ofNatAux code h, cs.drop count) else none

def scanEscape : List Char → Option (Char × List Char)
  | 'b' :: cs => some ('\x08', cs)
  | 't' :: cs => some ('\t', cs)
  | 'n' :: cs => some ('\n', cs)
  | 'f' :: cs => some ('\x0c', cs)
  | 'r' :: cs => some ('\r', cs)
  | 'e' :: cs => some ('\x1b', cs)
  | '"' :: cs => some ('"', cs)
  | '\\' :: cs => some ('\\', cs)
  | 'x' :: cs => scanCode 2 cs
  | 'u' :: cs => scanCode 4 cs
  | 'U' :: cs => scanCode 8 cs
  | _ => none

def scanBasic : Nat → List Char → Option (List Char × List Char)
  | 0, _ => none
  | n + 1, cs =>
    match cs with
    | [] => none
    | '"' :: rest => some ([], rest)
    | '\\' :: rest => do
      let (c, rest) ← scanEscape rest
      let (s, rest) ← scanBasic n rest
      return (c :: s, rest)
    | c :: rest => do
      if isControl c then none
      let (s, rest) ← scanBasic n rest
      return (c :: s, rest)

def scanLiteral : List Char → Option (List Char × List Char)
  | [] => none
  | c :: rest => do
    if c = '\x27' then return ([], rest)
    if isControl c then none
    let (s, rest) ← scanLiteral rest
    return (c :: s, rest)

def newline? : List Char → Option (List Char)
  | '\n' :: rest | '\r' :: '\n' :: rest => some rest
  | _ => none

/-- The quotes that end a string of several lines: up to two more than three belong to it. -/
def closingQuotes (quote : Char) (cs : List Char) : Option (List Char × List Char) :=
  let run := min (cs.takeWhile (· = quote)).length 5
  if run < 3 then none else some (List.replicate (run - 3) quote, cs.drop run)

def skipIndent : List Char → List Char
  | '\r' :: '\n' :: cs => skipIndent cs
  | c :: cs => if c = '\n' ∨ isBlank c then skipIndent cs else c :: cs
  | [] => []

def joinLines (cs : List Char) : Option (List Char) := (newline? (skipBlanks cs)).map skipIndent

/-- The content of a string of several lines. Its line ends are kept as they are written. -/
def scanLines (quote : Char) (escapes : Bool) : Nat → List Char → Option (List Char × List Char)
  | 0, _ => none
  | n + 1, cs =>
    match closingQuotes quote cs, cs with
    | some p, _ => some p
    | none, [] => none
    | none, c :: rest =>
      if c = '\\' ∧ escapes then
        match joinLines rest with
        | some rest => scanLines quote escapes n rest
        | none => do
          let (c, rest) ← scanEscape rest
          let (s, rest) ← scanLines quote escapes n rest
          return (c :: s, rest)
      else do
        if isControl c ∧ newline? cs = none then none
        let (s, rest) ← scanLines quote escapes n rest
        return (c :: s, rest)

def afterOpening (cs : List Char) : List Char := (newline? cs).getD cs

def scanString (cs : List Char) : Option (String × List Char) :=
  let content : Option (List Char × List Char) :=
    match cs with
    | '"' :: '"' :: '"' :: rest => scanLines '"' true (rest.length + 1) (afterOpening rest)
    | '\x27' :: '\x27' :: '\x27' :: rest =>
      scanLines '\x27' false (rest.length + 1) (afterOpening rest)
    | '"' :: rest => scanBasic (rest.length + 1) rest
    | '\x27' :: rest => scanLiteral rest
    | _ => none
  content.map fun p => (String.ofList p.1, p.2)

end SymbolicTypes.Toml
