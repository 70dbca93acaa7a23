namespace SymbolicTypes.Toml

/-- How a table came to be, which decides what may be added to it later. -/
inductive Origin
  | header
  /-- Lies on the way to a table named in a header. -/
  | implied
  /-- Lies on the way of a dotted key. -/
  | dotted
  | inline
  deriving DecidableEq

inductive Value
  | bool (b : Bool)
  | string (s : String)
  | number
  | moment
  | array (items : List Value)
  | table (origin : Origin) (entries : List (String × Value))
  | tables (elements : List Value)

abbrev Entries := List (String × Value)

namespace Entries

def replace (es : Entries) (key : String) (v : Value) : Entries :=
  es.map fun e => if e.1 = key then (key, v) else e

/-- Sets a key, dotted or plain, that must be new. Tables on its way may be added to if a header
or a dotted key implied them, and the last one only if a dotted key did. -/
def put (key : String) (v : Value) : List String → Entries → Option Entries
  | [], es => if (es.lookup key).isSome then none else some (es ++ [(key, v)])
  | p :: ps, es =>
    match es.lookup p with
    | none => do return es ++ [(p, .table .dotted (← put key v ps []))]
    | some (.table origin sub) =>
      if origin = .dotted ∨ (origin = .implied ∧ ps ≠ []) then do
        return es.replace p (.table origin (← put key v ps sub))
      else none
    | some _ => none

def update (f : Entries → Option Entries) : List String → Entries → Option Entries
  | [], es => f es
  | p :: ps, es =>
    match es.lookup p with
    | none => do return es ++ [(p, .table .implied (← update f ps []))]
    | some (.table .inline _) => none
    | some (.table origin sub) => do return es.replace p (.table origin (← update f ps sub))
    | some (.tables elements) =>
      match elements.getLast? with
      | some (.table origin sub) => do
        return es.replace p (.tables (elements.dropLast ++ [.table origin (← update f ps sub)]))
      | _ => none
    | some _ => none

/-- Opens the table of a header. Only a table that other headers implied may exist already. -/
def openTable (key : String) (es : Entries) : Option Entries :=
  match es.lookup key with
  | none => some (es ++ [(key, .table .header [])])
  | some (.table .implied sub) => some (es.replace key (.table .header sub))
  | some _ => none

def addTable (key : String) (es : Entries) : Option Entries :=
  match es.lookup key with
  | none => some (es ++ [(key, .tables [.table .header []])])
  | some (.tables elements) => some (es.replace key (.tables (elements ++ [.table .header []])))
  | some _ => none

end Entries

end SymbolicTypes.Toml
