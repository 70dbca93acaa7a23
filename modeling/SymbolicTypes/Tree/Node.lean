namespace SymbolicTypes

inductive AssignOp
  /-- `=` -/
  | plain
  /-- `=&` -/
  | reference
  /-- `+=`, `.=`, `??=` and the like. -/
  | compound
  deriving DecidableEq

inductive Node
  | identifier (text : String)
  | name (text : String)
  | scalar (text : String)
  /-- `$name`. The name is an identifier, or an expression that computes it. -/
  | var (name : Node)
  | assign (op : AssignOp) (target value : Node)
  | list (items : List Node)
  | array (items : List Node)
  /-- An entry of a list or an array. A list may leave an entry out. -/
  | item (key value : Option Node)
  | element (base : Node) (index : Option Node)
  | property (receiver property : Node)
  | staticProperty (host property : Node)
  | call (function : Node) (arguments : List Node)
  | methodCall (receiver method : Node) (arguments : List Node)
  | staticCall (host method : Node) (arguments : List Node)
  | binary (op : String) (left right : Node)
  | parameter (var : Node) (default : Option Node)
  | propertyDecl (var : Node) (default : Option Node)
  | expression (expr : Node)
  | ret (expr : Option Node)
  | echo (exprs : List Node)
  | block (statements : List Node)

inductive Role
  | base
  | expr
  | variableName
  | property
  | index
  | items
  | key
  | value
  | host
  | function
  | method
  | arguments
  | left
  | right
  | default
  | statements
  | exprs
  deriving DecidableEq

/-- What a node is by itself, without its children. -/
inductive Head
  | identifier (text : String)
  | name (text : String)
  | scalar (text : String)
  | var
  | assign (op : AssignOp)
  | list
  | array
  | item
  | element
  | property
  | staticProperty
  | call
  | methodCall
  | staticCall
  | binary (op : String)
  | parameter
  | propertyDecl
  | expression
  | ret
  | echo
  | block
  deriving DecidableEq

def Node.head : Node → Head
  | identifier text => .identifier text
  | name text => .name text
  | scalar text => .scalar text
  | var _ => .var
  | assign op _ _ => .assign op
  | list _ => .list
  | array _ => .array
  | item _ _ => .item
  | element _ _ => .element
  | property _ _ => .property
  | staticProperty _ _ => .staticProperty
  | call _ _ => .call
  | methodCall _ _ _ => .methodCall
  | staticCall _ _ _ => .staticCall
  | binary op _ _ => .binary op
  | parameter _ _ => .parameter
  | propertyDecl _ _ => .propertyDecl
  | expression _ => .expression
  | ret _ => .ret
  | echo _ => .echo
  | block _ => .block

end SymbolicTypes
