import SymbolicTypes.Json.Basic
import SymbolicTypes.Json.Quoted

namespace SymbolicTypes.Json

def Number.print (n : Number) : List Char :=
  (if n.negative then ['-'] else []) ++ n.whole
    ++ (if n.fraction = [] then [] else '.' :: n.fraction)
    ++ (if n.exponent = [] then []
        else 'e' :: ((if n.exponentNegative then ['-'] else []) ++ n.exponent))

def newLine (level : Nat) : List Char := '\n' :: List.replicate (2 * level) ' '

mutual

/-- Writes a value over several lines: every item and every member begins a line of its own, one
level deeper than what holds it. -/
def print (level : Nat) : Json → List Char
  | null => "null".toList
  | bool b => (if b then "true" else "false").toList
  | number n => n.print
  | string s => (s.map quote).getD []
  | array [] _ => ['[', ']']
  | array (j :: js) _ =>
    '[' :: newLine (level + 1) ++ j.print (level + 1) ++ printItems (level + 1) js
      ++ newLine level ++ [']']
  | object [] _ => ['\x7b', '\x7d']
  | object ((k, j) :: ms) _ =>
    '\x7b' :: newLine (level + 1) ++ (k.map quote).getD [] ++ ':' :: ' ' :: j.print (level + 1)
      ++ printMembers (level + 1) ms ++ newLine level ++ ['\x7d']
  | broken => []

def printItems (level : Nat) : List Json → List Char
  | [] => []
  | j :: js => ',' :: newLine level ++ j.print level ++ printItems level js

def printMembers (level : Nat) : List (Option String × Json) → List Char
  | [] => []
  | (k, j) :: ms =>
    ',' :: newLine level ++ (k.map quote).getD [] ++ ':' :: ' ' :: j.print level
      ++ printMembers level ms

end

def render (j : Json) : String := String.ofList (j.print 0)

end SymbolicTypes.Json
