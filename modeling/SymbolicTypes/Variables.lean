import SymbolicTypes.Event
import SymbolicTypes.Settings.Basic
import SymbolicTypes.SortedSet
import SymbolicTypes.Tree.Walk

namespace SymbolicTypes

structure VariableUse where
  reads : SortedSet String := ∅
  writes : SortedSet String := ∅
  deriving DecidableEq, Inhabited

namespace VariableUse

structure MisplacedChild where
  role : Role
  deriving DecidableEq

/-- What holds below a place from entering it to leaving it: whether variables are written there. The
place is told by its role and by what its parent is. -/
structure Context where
  parent : Head
  role : Role
  isWrite : Bool

/-- The use found so far, and the contexts of the enclosing places, innermost first. Nothing more is
looked at once a child was misplaced. -/
structure State where
  use : VariableUse := {}
  contexts : List Context := []
  misplaced : Option MisplacedChild := none

namespace State

def isWrite (s : State) : Bool := s.contexts.head?.any Context.isWrite

def namesVariable (s : State) : Bool := s.contexts.head?.any fun c => c.parent = .var

def record (s : State) (name : String) : State :=
  if s.isWrite then { s with use.writes := s.use.writes.insert name }
  else { s with use.reads := s.use.reads.insert name }

def push (s : State) (role : Role) (parent : Node) (isWrite : Bool) : State :=
  { s with contexts := ⟨parent.head, role, isWrite⟩ :: s.contexts }

/-- Drops the innermost context if it is that of the place. -/
def popIf (s : State) (role : Role) (parent : Node) : State :=
  match s.contexts with
  | c :: contexts => if c.parent = parent.head ∧ c.role = role then { s with contexts } else s
  | [] => s

def result (s : State) : Except MisplacedChild VariableUse :=
  match s.misplaced with
  | some e => .error e
  | none => .ok s.use

end State

/-- Whether variables are written in the place of a child, if that place has a context of its own. A
target is written and what selects a member or an element is read; a plain name is used as its
variable is, and an expression that computes the name is read. -/
def writesIn (isWrite : Bool) (role : Role) : Node → Option Bool
  | .assign _ _ _ => some (role = .base)
  | .property _ _ | .staticProperty _ _ => if role = .property then some false else none
  | .methodCall _ _ _ | .staticCall _ _ _ => if role = .method then some false else none
  | .element _ _ => if role = .index then some false else none
  | .item _ _ => if role = .key then some false else none
  | .var (.identifier _) => some isWrite
  | .var _ => some false
  | _ => none

/-- Collects the use of variables. Declarations are passed over: the names in them are no
occurrences. -/
def collector : Visitor State where
  enter n s :=
    if s.misplaced.isSome then (false, s)
    else match n with
      | .identifier name => (true, if s.namesVariable then s.record name else s)
      | .parameter _ _ | .propertyDecl _ _ => (false, s)
      | _ => (true, s)
  enterChild role parent s :=
    if s.misplaced.isSome then s
    else if parent.head = .var ∧ role ≠ .variableName then { s with misplaced := some ⟨role⟩ }
    else match writesIn s.isWrite role parent with
      | some isWrite => s.push role parent isWrite
      | none => s
  leaveChild role parent s := s.popIf role parent
  enterList role parent s :=
    if role = .arguments ∧ s.misplaced.isNone then s.push role parent false else s
  leaveList role parent s := s.popIf role parent

def ofNode (n : Node) : Except MisplacedChild VariableUse := (n.walk collector {}).result

/-- The use of variables in a tree. As long as the program is not known as a whole nothing is told,
if so set, and that is reported. -/
def classify? (settings : ClassifierSettings) (complete : Bool) (n : Node) :
    Except MisplacedChild VariableUse × List Event :=
  if settings.requireComplete && !complete then (.ok {}, [.codebaseIncomplete]) else (ofNode n, [])

/-- The use of variables in a tree, for callers that cannot be told of a misplaced child. -/
def classify (settings : ClassifierSettings) (complete : Bool) (n : Node) :
    VariableUse × List Event :=
  let told := classify? settings complete n
  (told.1.toOption.getD {}, told.2)

end VariableUse

end SymbolicTypes
