import SymbolicTypes.Tree.Walk

namespace SymbolicTypes

inductive Callback
  | enter (node : Head)
  /-- The node is entered and its children are passed over. -/
  | pass (node : Head)
  | leave (node : Head)
  | enterChild (role : Role) (parent : Head)
  | leaveChild (role : Role) (parent : Head)
  | enterList (role : Role) (parent : Head)
  | leaveList (role : Role) (parent : Head)
  deriving DecidableEq

def recorder (skip : Node → Bool) : Visitor (List Callback) where
  enter n s := if skip n then (false, .pass n.head :: s) else (true, .enter n.head :: s)
  leave n s := .leave n.head :: s
  enterChild role n s := .enterChild role n.head :: s
  leaveChild role n s := .leaveChild role n.head :: s
  enterList role n s := .enterList role n.head :: s
  leaveList role n s := .leaveList role n.head :: s

def Node.trace (skip : Node → Bool) (n : Node) : List Callback :=
  (n.walk (recorder skip) []).reverse

end SymbolicTypes
