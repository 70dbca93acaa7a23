import SymbolicTypes.Tree.Node

namespace SymbolicTypes

/-- What is done on the way through a tree. Entering a node decides whether its children are
visited; a node whose children are passed over is not left either. -/
structure Visitor (σ : Type) where
  enter : Node → σ → Bool × σ := fun _ s => (true, s)
  leave : Node → σ → σ := fun _ s => s
  enterChild : Role → Node → σ → σ := fun _ _ s => s
  leaveChild : Role → Node → σ → σ := fun _ _ s => s
  enterList : Role → Node → σ → σ := fun _ _ s => s
  leaveList : Role → Node → σ → σ := fun _ _ s => s

variable {σ : Type}

namespace Visitor

def atNode (v : Visitor σ) (n : Node) (inside : σ → σ) (s : σ) : σ :=
  match v.enter n s with
  | (true, s) => v.leave n (inside s)
  | (false, s) => s

def atChild (v : Visitor σ) (role : Role) (parent : Node) (inside : σ → σ) (s : σ) : σ :=
  v.leaveChild role parent (inside (v.enterChild role parent s))

def atList (v : Visitor σ) (role : Role) (parent : Node) (inside : σ → σ) (s : σ) : σ :=
  v.leaveList role parent (inside (v.enterList role parent s))

end Visitor

open Node

mutual

def Node.walk (v : Visitor σ) : Node → σ → σ
  | n@(identifier _) | n@(name _) | n@(scalar _) => v.atNode n id
  | n@(var a) => v.atNode n (v.atChild .variableName n (a.walk v))
  | n@(assign _ a b) =>
    v.atNode n fun s => v.atChild .expr n (b.walk v) (v.atChild .base n (a.walk v) s)
  | n@(list as) | n@(array as) => v.atNode n (v.atList .items n (walkAll v as))
  | n@(item a b) => v.atNode n fun s => walkOptional v .value n b (walkOptional v .key n a s)
  | n@(element a b) =>
    v.atNode n fun s => walkOptional v .index n b (v.atChild .base n (a.walk v) s)
  | n@(Node.property a b) =>
    v.atNode n fun s => v.atChild .property n (b.walk v) (v.atChild .base n (a.walk v) s)
  | n@(staticProperty a b) =>
    v.atNode n fun s => v.atChild .property n (b.walk v) (v.atChild .host n (a.walk v) s)
  | n@(call a as) =>
    v.atNode n fun s => v.atList .arguments n (walkAll v as) (v.atChild .function n (a.walk v) s)
  | n@(methodCall a b as) =>
    v.atNode n fun s => v.atList .arguments n (walkAll v as)
      (v.atChild .method n (b.walk v) (v.atChild .base n (a.walk v) s))
  | n@(staticCall a b as) =>
    v.atNode n fun s => v.atList .arguments n (walkAll v as)
      (v.atChild .method n (b.walk v) (v.atChild .host n (a.walk v) s))
  | n@(binary _ a b) =>
    v.atNode n fun s => v.atChild .right n (b.walk v) (v.atChild .left n (a.walk v) s)
  | n@(parameter a b) | n@(propertyDecl a b) =>
    v.atNode n fun s => walkOptional v .default n b (v.atChild .base n (a.walk v) s)
  | n@(expression a) => v.atNode n (v.atChild .expr n (a.walk v))
  | n@(ret a) => v.atNode n (walkOptional v .expr n a)
  | n@(echo as) => v.atNode n (v.atList .exprs n (walkAll v as))
  | n@(block as) => v.atNode n (v.atList .statements n (walkAll v as))

def Node.walkAll (v : Visitor σ) : List Node → σ → σ
  | [] => id
  | a :: as => fun s => walkAll v as (a.walk v s)

def Node.walkOptional (v : Visitor σ) (role : Role) (parent : Node) : Option Node → σ → σ
  | none => id
  | some a => v.atChild role parent (a.walk v)

end

def Node.count (n : Node) : Nat := n.walk { leave := fun _ k => k + 1 } 0

end SymbolicTypes
