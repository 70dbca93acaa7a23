import SymbolicTypes.SymType.Basic

namespace SymbolicTypes

inductive MemberKind
  | method
  | property
  | constant
  deriving DecidableEq

inductive Event
  /-- A type is met again under the class it is already being expanded for. -/
  | expansionRepeats (context : String) (type : SymType)
  | expansionFails (type : SymType)
  /-- The search for a member comes to a class for the second time. -/
  | inheritanceRepeats (kind : MemberKind) (host member : String)
  | codebaseIncomplete
  | typeDropped
  | snapshotLoaded (classes traits functions : Nat)
  deriving DecidableEq

inductive Event.Level
  | trace
  | debug
  | error
  deriving DecidableEq

namespace Event

def level : Event → Level
  | expansionRepeats _ _ | inheritanceRepeats _ _ _ => .trace
  | expansionFails _ => .error
  | codebaseIncomplete | typeDropped | snapshotLoaded _ _ _ => .debug

def message : Event → String
  | expansionRepeats _ _ => "type already being expanded"
  | expansionFails _ => "panic while resolving type"
  | inheritanceRepeats .method _ _ => "inheritance cycle in method lookup"
  | inheritanceRepeats .property _ _ => "inheritance cycle in property lookup"
  | inheritanceRepeats .constant _ _ => "inheritance cycle in constant lookup"
  | codebaseIncomplete => "indexing incomplete, skipping variable classification"
  | typeDropped => "dropping type expression without a text form"
  | snapshotLoaded _ _ _ => "loaded index snapshot"

def ofOffered (types : List SymType) : List Event :=
  (types.filter fun t => !t.isEncodable).map fun _ => typeDropped

end Event

end SymbolicTypes
