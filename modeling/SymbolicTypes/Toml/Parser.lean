import SymbolicTypes.Toml.Moment
import SymbolicTypes.Toml.Number
import SymbolicTypes.Toml.Value

namespace SymbolicTypes.Toml

def skipComment : List Char → Option (List Char)
  | '#' :: cs =>
    let rest := cs.dropWhile fun c => !isControl c
    if rest = [] ∨ (newline? rest).isSome then some rest else none
  | cs => some cs

def skipSpace : Nat → List Char → Option (List Char)
  | 0, cs => some cs
  | n + 1, cs => do
    let rest ← skipComment (skipBlanks cs)
    match newline? rest with
    | some rest => skipSpace n rest
    | none => return rest

def skipLines (cs : List Char) : Option (List Char) := skipSpace cs.length cs

def isBare (c : Char) : Bool := c.isAlphanum || c == '_' || c == '-'

def scanPart (cs : List Char) : Option (String × List Char) :=
  match cs with
  | '"' :: rest => (scanBasic (rest.length + 1) rest).map fun p => (String.ofList p.1, p.2)
  | '\x27' :: rest => (scanLiteral rest).map fun p => (String.ofList p.1, p.2)
  | _ =>
    match cs.takeWhile isBare with
    | [] => none
    | word => some (String.ofList word, cs.dropWhile isBare)

def scanParts : Nat → List Char → Option (List String × String × List Char)
  | 0, _ => none
  | n + 1, cs => do
    let (part, rest) ← scanPart (skipBlanks cs)
    match skipBlanks rest with
    | '.' :: rest => do
      let (path, key, rest) ← scanParts n rest
      return (part :: path, key, rest)
    | rest => return ([], part, rest)

/-- How deep collections may lie inside each other, and keys inside tables. -/
def maxDepth : Nat := 80

def scanKey (cs : List Char) : Option (List String × String × List Char) :=
  (scanParts (cs.length + 1) cs).filter fun p => p.1.length < maxDepth

def isPlain (c : Char) : Bool :=
  !((['\r', '\n', '#', '=', ',', '[', ']', '\x7b', '\x7d'] : List Char).contains c)

def dropLastBlanks (cs : List Char) : List Char := (cs.reverse.dropWhile isBlank).reverse

def isUnquoted (cs : List Char) : Bool :=
  (cs.zip cs.tail).all fun p => !(isBlank p.1 && (p.2 == '"' || p.2 == '\x27'))

def scanPlain (cs : List Char) : Option (Value × List Char) :=
  let text := dropLastBlanks (cs.takeWhile isPlain)
  let rest := cs.dropWhile isPlain
  if text = "true".toList then some (.bool true, rest)
  else if text = "false".toList then some (.bool false, rest)
  else if isUnquoted text && isNumber text then some (.number, rest)
  else if isMoment text then some (.moment, rest)
  else none

mutual

/-- Reads a value. The first number bounds the steps, the second how many collections may still be
opened inside each other. -/
def scanValue : Nat → Nat → List Char → Option (Value × List Char)
  | 0, _, _ => none
  | n + 1, depth, cs =>
    match depth, cs with
    | depth + 1, '[' :: rest => do
      let (items, rest) ← scanItems n depth rest
      return (.array items, rest)
    | depth + 1, '\x7b' :: rest => do
      let (entries, rest) ← scanEntries n depth [] rest
      return (.table .inline entries, rest)
    | _, c :: _ =>
      if c = '"' ∨ c = '\x27' then (scanString cs).map fun p => (.string p.1, p.2)
      else scanPlain cs
    | _, [] => none

def scanItems : Nat → Nat → List Char → Option (List Value × List Char)
  | 0, _, _ => none
  | n + 1, depth, cs => do
    match ← skipLines cs with
    | ']' :: rest => return ([], rest)
    | rest => do
      let (item, rest) ← scanValue n depth rest
      match ← skipLines rest with
      | ',' :: rest => do
        let (items, rest) ← scanItems n depth rest
        return (item :: items, rest)
      | ']' :: rest => return ([item], rest)
      | _ => none

/-- The entries of an inline table up to its closing brace. A key, its sign and its value may be on
lines of their own. -/
def scanEntries : Nat → Nat → Entries → List Char → Option (Entries × List Char)
  | 0, _, _, _ => none
  | n + 1, depth, es, cs => do
    match ← skipLines cs with
    | '\x7d' :: rest => return (es, rest)
    | rest => do
      let (path, key, rest) ← scanKey rest
      match ← skipLines rest with
      | '=' :: rest => do
        let (v, rest) ← scanValue n depth (← skipLines rest)
        let es ← Entries.put key v path es
        match ← skipLines rest with
        | ',' :: rest => scanEntries n depth es rest
        | '\x7d' :: rest => return (es, rest)
        | _ => none
      | _ => none

end

inductive Line
  | blank
  | header (path : List String) (key : String)
  | listHeader (path : List String) (key : String)
  | entry (path : List String) (key : String) (value : Value)

def scanLine (cs : List Char) : Option (Line × List Char) :=
  match cs with
  | '[' :: '[' :: rest => do
    let (path, key, rest) ← scanKey rest
    match rest with
    | ']' :: ']' :: rest => return (.listHeader path key, rest)
    | _ => none
  | '[' :: rest => do
    let (path, key, rest) ← scanKey rest
    match rest with
    | ']' :: rest => return (.header path key, rest)
    | _ => none
  | [] => some (.blank, [])
  | c :: _ =>
    if c = '#' ∨ (newline? cs).isSome then some (.blank, cs)
    else do
      let (path, key, rest) ← scanKey cs
      match rest with
      | '=' :: rest => do
        let (v, rest) ← scanValue (2 * rest.length + 2) maxDepth (skipBlanks rest)
        return (.entry path key v, rest)
      | _ => none

def endLine (cs : List Char) : Option (List Char) := do
  let rest ← skipComment (skipBlanks cs)
  if rest = [] then return [] else newline? rest

/-- Reads the lines one after the other into the document, the path being that of the table the
latest header has opened. -/
def scanLineList : Nat → List String → Entries → List Char → Option Entries
  | 0, _, es, _ => some es
  | n + 1, here, es, cs => do
    if cs = [] then return es
    let (line, rest) ← scanLine (skipBlanks cs)
    let rest ← endLine rest
    match line with
    | .blank => scanLineList n here es rest
    | .header path key => do
      scanLineList n (path ++ [key]) (← es.update (Entries.openTable key) path) rest
    | .listHeader path key => do
      scanLineList n (path ++ [key]) (← es.update (Entries.addTable key) path) rest
    | .entry path key v => do
      scanLineList n here (← es.update (Entries.put key v path) here) rest

def parse (text : String) : Option Entries :=
  let cs := if text.toList.head? = some '\ufeff' then text.toList.tail else text.toList
  scanLineList (cs.length + 1) [] [] cs

end SymbolicTypes.Toml
