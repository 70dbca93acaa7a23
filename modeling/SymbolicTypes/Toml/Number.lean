import SymbolicTypes.Toml.Strings

namespace SymbolicTypes.Toml

def isHexDigit (c : Char) : Bool := (Text.hexValue c).isSome

/-- Underscores part a number into groups. A group that follows one begins with a digit, and a group
of several characters that comes before one ends with a digit. -/
def areGroups (isDigit : Char → Bool) (cs : List Char) : Bool :=
  match cs.splitOn '_' with
  | [] | [_] => true
  | first :: others =>
    !first.isEmpty && others.all (fun g => g.head?.any isDigit)
      && (first :: others).dropLast.all fun g => g.length ≤ 1 || g.getLast?.any isDigit

def isOfRadix (isDigit : Char → Bool) (cs : List Char) : Bool :=
  cs.all (fun c => isDigit c || c == '_') && areGroups isHexDigit cs

def dropSign : List Char → List Char
  | '+' :: cs | '-' :: cs => cs
  | cs => cs

def isSpacedDigit (c : Char) : Bool := c.isDigit || c == '_'

def skipDigits (cs : List Char) : Option (List Char) :=
  if (cs.takeWhile isSpacedDigit).any Char.isDigit then some (cs.dropWhile isSpacedDigit) else none

def skipFraction : List Char → Option (List Char)
  | '.' :: cs => skipDigits cs
  | cs => some cs

def skipExponent : List Char → Option (List Char)
  | [] => some []
  | c :: cs => if c = 'e' ∨ c = 'E' then skipDigits (dropSign cs) else some (c :: cs)

def isFloat (cs : List Char) : Bool :=
  (((cs.takeWhile isSpacedDigit).countP Char.isDigit ≤ 1) || cs.head? ≠ some '0')
    && (((skipDigits cs).bind skipFraction).bind skipExponent).any List.isEmpty

/-- In a whole number only the digits before the first underscore must be decimal, and what follows
the last one need only begin with a digit. There may be tabs in it, but no space. -/
def isWhole (body : List Char) : Bool :=
  match body.dropWhile Char.isDigit with
  | [] => body = ['0'] || body.head?.any (· ≠ '0')
  | c :: _ => c = '_' && body.head? ≠ some '0' && !body.contains ' '

def isNumber (word : List Char) : Bool :=
  match word with
  | '0' :: 'x' :: ds => isOfRadix isHexDigit ds
  | '0' :: 'o' :: ds => isOfRadix (fun c => c.isDigit && c < '8') ds
  | '0' :: 'b' :: ds => isOfRadix (fun c => c == '0' || c == '1') ds
  | _ =>
    let body := dropSign word
    if body = "inf".toList || body = "nan".toList then true
    else if !body.head?.any Char.isDigit then false
    else if body.any fun c => c = '.' || c = 'e' || c = 'E' then
      isFloat body && areGroups Char.isDigit word
    else isWhole body && areGroups isHexDigit word

end SymbolicTypes.Toml
