import SymbolicTypes.Tree.Walk

namespace SymbolicTypes

inductive Branch
  | child (role : Role) (node : Node)
  | list (role : Role) (nodes : List Node)

namespace Branch

def optional (role : Role) (o : Option Node) : List Branch := (o.map (child role)).toList

def nodes : Branch → List Node
  | child _ a => [a]
  | list _ as => as

end Branch

namespace Node

open Branch (optional)

def branches : Node → List Branch
  | identifier _ | name _ | scalar _ => []
  | var a => [.child .variableName a]
  | assign _ a b => [.child .base a, .child .expr b]
  | list as | array as => [.list .items as]
  | item a b => optional .key a ++ optional .value b
  | element a b => .child .base a :: optional .index b
  | Node.property a b => [.child .base a, .child .property b]
  | staticProperty a b => [.child .host a, .child .property b]
  | call a as => [.child .function a, .list .arguments as]
  | methodCall a b as => [.child .base a, .child .method b, .list .arguments as]
  | staticCall a b as => [.child .host a, .child .method b, .list .arguments as]
  | binary _ a b => [.child .left a, .child .right b]
  | parameter a b | propertyDecl a b => .child .base a :: optional .default b
  | expression a => [.child .expr a]
  | ret a => optional .expr a
  | echo as => [.list .exprs as]
  | block as => [.list .statements as]

theorem sizeOf_lt_of_mem_branches {n a : Node} {b : Branch} (hb : b ∈ n.branches)
    (ha : a ∈ b.nodes) : sizeOf a < sizeOf n := by
  have hchild : ∀ role c, b = .child role c → sizeOf a = sizeOf c := by
    rintro role c rfl
    rw [List.mem_singleton.mp ha]
  have hlist : ∀ role cs, b = .list role cs → sizeOf a < sizeOf cs := by
    rintro role cs rfl
    exact List.sizeOf_lt_of_mem ha
  have hoptional : ∀ role o, b ∈ optional role o → sizeOf a < sizeOf o := by
    intro role o ho
    cases o with
    | none => exact absurd ho List.not_mem_nil
    | some c =>
      have := hchild role c (List.mem_singleton.mp ho)
      simp
      omega
  clear ha
  cases n <;> simp [branches] at hb ⊢ <;> grind

/-- What holds of a node as soon as it holds of all nodes in its branches holds of every tree. -/
@[elab_as_elim]
theorem induction {P : Node → Prop} (node : ∀ n, (∀ b ∈ n.branches, ∀ a ∈ b.nodes, P a) → P n)
    (n : Node) : P n :=
  node n fun _ hb a ha =>
    have := sizeOf_lt_of_mem_branches hb ha
    induction node a
termination_by n

end Node

namespace Branch

def child? (bs : List Branch) (role : Role) : Option Node :=
  bs.findSome? fun
    | child r a => if r = role then some a else none
    | list _ _ => none

def list? (bs : List Branch) (role : Role) : Option (List Node) :=
  bs.findSome? fun
    | child _ _ => none
    | list r as => if r = role then some as else none

end Branch

open Branch in
/-- Puts a node together again from its head and its branches. -/
def Head.build (bs : List Branch) : Head → Option Node
  | identifier text => some (.identifier text)
  | name text => some (.name text)
  | scalar text => some (.scalar text)
  | var => return .var (← child? bs .variableName)
  | assign op => return .assign op (← child? bs .base) (← child? bs .expr)
  | .list => return .list (← list? bs .items)
  | array => return .array (← list? bs .items)
  | item => some (.item (child? bs .key) (child? bs .value))
  | element => return .element (← child? bs .base) (child? bs .index)
  | Head.property => return .property (← child? bs .base) (← child? bs .property)
  | staticProperty => return .staticProperty (← child? bs .host) (← child? bs .property)
  | call => return .call (← child? bs .function) (← list? bs .arguments)
  | methodCall =>
    return .methodCall (← child? bs .base) (← child? bs .method) (← list? bs .arguments)
  | staticCall =>
    return .staticCall (← child? bs .host) (← child? bs .method) (← list? bs .arguments)
  | binary op => return .binary op (← child? bs .left) (← child? bs .right)
  | parameter => return .parameter (← child? bs .base) (child? bs .default)
  | propertyDecl => return .propertyDecl (← child? bs .base) (child? bs .default)
  | expression => return .expression (← child? bs .expr)
  | ret => some (.ret (child? bs .expr))
  | echo => return .echo (← list? bs .exprs)
  | block => return .block (← list? bs .statements)

namespace Node

theorem build_branches (n : Node) : n.head.build n.branches = some n := by
  cases n with
  | item a b => cases a <;> cases b <;> rfl
  | element a b | parameter a b | propertyDecl a b => cases b <;> rfl
  | ret a => cases a <;> rfl
  | _ => rfl

theorem ext_branches {n m : Node} (hhead : n.head = m.head) (hbranches : n.branches = m.branches) :
    n = m := by
  have hm := m.build_branches
  rw [← hhead, ← hbranches, build_branches] at hm
  exact Option.some.inj hm

end Node

variable {σ τ : Type}

namespace Branch

def visit (v : Visitor σ) (parent : Node) : Branch → σ → σ
  | child role a => v.atChild role parent (a.walk v)
  | list role as => v.atList role parent fun s => as.foldl (fun s a => a.walk v s) s

end Branch

namespace Node

theorem walkAll_eq_foldl (v : Visitor σ) (as : List Node) (s : σ) :
    walkAll v as s = as.foldl (fun s a => a.walk v s) s := by
  induction as generalizing s with
  | nil => rfl
  | cons a as ih => exact ih (a.walk v s)

theorem walk_eq_foldl (v : Visitor σ) (n : Node) :
    n.walk v = v.atNode n fun s => n.branches.foldl (fun s b => b.visit v n s) s := by
  have hall (as : List Node) : walkAll v as = fun s => as.foldl (fun s a => a.walk v s) s :=
    funext (walkAll_eq_foldl v as)
  cases n with
  | item a b => cases a <;> cases b <;> rfl
  | element a b | parameter a b | propertyDecl a b => cases b <;> rfl
  | ret a => cases a <;> rfl
  | list as | array as | echo as | block as | call _ as | methodCall _ _ as | staticCall _ _ as =>
    rw [walk, hall]
    rfl
  | _ => rfl

end Node

/-- What one visitor does is the image of what another does. -/
structure Visitor.Maps (v : Visitor σ) (f : σ → τ) (w : Visitor τ) : Prop where
  enter : ∀ n s, w.enter n (f s) = ((v.enter n s).1, f (v.enter n s).2)
  leave : ∀ n s, w.leave n (f s) = f (v.leave n s)
  enterChild : ∀ role n s, w.enterChild role n (f s) = f (v.enterChild role n s)
  leaveChild : ∀ role n s, w.leaveChild role n (f s) = f (v.leaveChild role n s)
  enterList : ∀ role n s, w.enterList role n (f s) = f (v.enterList role n s)
  leaveList : ∀ role n s, w.leaveList role n (f s) = f (v.leaveList role n s)

theorem foldl_eq_of_forall_mem {ι : Type} {f : σ → τ} {g : σ → ι → σ} {k : τ → ι → τ} {l : List ι}
    (h : ∀ i ∈ l, ∀ s, k (f s) i = f (g s i)) (s : σ) : l.foldl k (f s) = f (l.foldl g s) := by
  induction l generalizing s with
  | nil => rfl
  | cons i l ih =>
    rw [List.foldl_cons, List.foldl_cons, h i List.mem_cons_self]
    exact ih (fun j hj => h j (List.mem_cons_of_mem i hj)) _

namespace Visitor.Maps

variable {v : Visitor σ} {f : σ → τ} {w : Visitor τ}

theorem atNode (h : v.Maps f w) {n : Node} {inside : σ → σ} {inside' : τ → τ}
    (hinside : ∀ s, inside' (f s) = f (inside s)) (s : σ) :
    w.atNode n inside' (f s) = f (v.atNode n inside s) := by
  rw [Visitor.atNode, Visitor.atNode, h.enter]
  obtain ⟨isEntered, s⟩ := v.enter n s
  cases isEntered with
  | true => exact (congrArg (w.leave n) (hinside s)).trans (h.leave n _)
  | false => rfl

theorem visit (h : v.Maps f w) {n : Node} {b : Branch}
    (hnodes : ∀ a ∈ b.nodes, ∀ s, a.walk w (f s) = f (a.walk v s)) (s : σ) :
    b.visit w n (f s) = f (b.visit v n s) := by
  cases b with
  | child role a =>
    have ha := hnodes a List.mem_cons_self
    simp only [Branch.visit, atChild, h.enterChild, ha, h.leaveChild]
  | list role as =>
    have has (s : σ) :
        as.foldl (fun t a => a.walk w t) (f s) = f (as.foldl (fun s a => a.walk v s) s) :=
      foldl_eq_of_forall_mem hnodes s
    simp only [Branch.visit, atList, h.enterList, has, h.leaveList]

theorem walk (h : v.Maps f w) (n : Node) : ∀ s, n.walk w (f s) = f (n.walk v s) := by
  induction n using Node.induction with
  | node n ih =>
    rw [Node.walk_eq_foldl, Node.walk_eq_foldl]
    exact h.atNode (foldl_eq_of_forall_mem fun b hb => h.visit (ih b hb))

end Visitor.Maps

end SymbolicTypes
