import SymbolicTypes.Proofs.Tree.Branches
import SymbolicTypes.Tree.Trace

namespace SymbolicTypes

inductive WalkStep
  | enter (node : Node)
  | pass (node : Node)
  | leave (node : Node)
  | enterChild (role : Role) (parent : Node)
  | leaveChild (role : Role) (parent : Node)
  | enterList (role : Role) (parent : Node)
  | leaveList (role : Role) (parent : Node)

namespace WalkStep

def callback : WalkStep → Callback
  | enter n => .enter n.head
  | pass n => .pass n.head
  | leave n => .leave n.head
  | enterChild role n => .enterChild role n.head
  | leaveChild role n => .leaveChild role n.head
  | enterList role n => .enterList role n.head
  | leaveList role n => .leaveList role n.head

def closing? : WalkStep → Option WalkStep
  | enter n => some (leave n)
  | enterChild role n => some (leaveChild role n)
  | enterList role n => some (leaveList role n)
  | _ => none

def recorder (skip : Node → Bool) : Visitor (List WalkStep) where
  enter n s := if skip n then (false, pass n :: s) else (true, enter n :: s)
  leave n s := leave n :: s
  enterChild role n s := enterChild role n :: s
  leaveChild role n s := leaveChild role n :: s
  enterList role n s := enterList role n :: s
  leaveList role n s := leaveList role n :: s

theorem recorder_maps_append (skip : Node → Bool) (s : List WalkStep) :
    (recorder skip).Maps (· ++ s) (recorder skip) where
  enter n t := by
    simp only [recorder]
    split <;> rfl
  leave _ _ := rfl
  enterChild _ _ _ := rfl
  leaveChild _ _ _ := rfl
  enterList _ _ _ := rfl
  leaveList _ _ _ := rfl

theorem recorder_maps_callback (skip : Node → Bool) :
    (recorder skip).Maps (List.map callback) (SymbolicTypes.recorder skip) where
  enter n t := by
    simp only [recorder, SymbolicTypes.recorder]
    split <;> rfl
  leave _ _ := rfl
  enterChild _ _ _ := rfl
  leaveChild _ _ _ := rfl
  enterList _ _ _ := rfl
  leaveList _ _ _ := rfl

end WalkStep

variable {skip : Node → Bool}

namespace Node

def steps (skip : Node → Bool) (n : Node) : List WalkStep :=
  (n.walk (WalkStep.recorder skip) []).reverse

theorem walk_recorder (n : Node) (s : List WalkStep) :
    n.walk (WalkStep.recorder skip) s = (n.steps skip).reverse ++ s := by
  rw [steps, List.reverse_reverse]
  exact (WalkStep.recorder_maps_append skip s).walk n []

theorem map_callback_steps (n : Node) : (n.steps skip).map WalkStep.callback = n.trace skip := by
  rw [steps, trace, List.map_reverse, ← (WalkStep.recorder_maps_callback skip).walk]
  rfl

end Node

namespace Branch

def steps (skip : Node → Bool) (parent : Node) : Branch → List WalkStep
  | child role a => .enterChild role parent :: (a.steps skip ++ [.leaveChild role parent])
  | list role as =>
    .enterList role parent :: (as.flatMap (Node.steps skip) ++ [.leaveList role parent])

end Branch

theorem foldl_eq_reverse_flatMap {ι α : Type} {f : List α → ι → List α} {g : ι → List α}
    (h : ∀ s i, f s i = (g i).reverse ++ s) (l : List ι) (s : List α) :
    l.foldl f s = (l.flatMap g).reverse ++ s := by
  induction l generalizing s with
  | nil => rfl
  | cons i l ih => rw [List.foldl_cons, h, ih]; simp

theorem Branch.visit_recorder (parent : Node) (b : Branch) (s : List WalkStep) :
    b.visit (WalkStep.recorder skip) parent s = (b.steps skip parent).reverse ++ s := by
  cases b with
  | child role a =>
    change WalkStep.leaveChild role parent :: a.walk _ (WalkStep.enterChild role parent :: s) = _
    rw [Node.walk_recorder, steps]
    simp
  | list role as =>
    change WalkStep.leaveList role parent :: as.foldl _ (WalkStep.enterList role parent :: s) = _
    rw [foldl_eq_reverse_flatMap fun s a => Node.walk_recorder a s, steps]
    simp

theorem Node.steps_eq (n : Node) :
    n.steps skip =
      if skip n then [.pass n]
      else .enter n :: (n.branches.flatMap (Branch.steps skip n) ++ [.leave n]) := by
  have hinside (s : List WalkStep) :
      n.branches.foldl (fun s b => b.visit (WalkStep.recorder skip) n s) s =
        (n.branches.flatMap (Branch.steps skip n)).reverse ++ s :=
    foldl_eq_reverse_flatMap (fun s b => b.visit_recorder n s) n.branches s
  rw [steps, walk_eq_foldl, Visitor.atNode]
  cases h : skip n with
  | true =>
    have henter : (WalkStep.recorder skip).enter n [] = (false, [.pass n]) := by
      simp [WalkStep.recorder, h]
    rw [henter]
    rfl
  | false =>
    have henter : (WalkStep.recorder skip).enter n [] = (true, [.enter n]) := by
      simp [WalkStep.recorder, h]
    simp only [henter, hinside]
    simp [WalkStep.recorder]

/-- Whatever is opened is closed by its own closing step, after all that was opened in between. -/
inductive Nested : List WalkStep → Prop
  | nil : Nested []
  | cons {opening closing : WalkStep} {inner rest : List WalkStep} :
    opening.closing? = some closing → Nested inner → Nested rest →
      Nested (opening :: (inner ++ closing :: rest))

namespace Nested

theorem append {l m : List WalkStep} (hl : Nested l) (hm : Nested m) : Nested (l ++ m) := by
  induction hl with
  | nil => exact hm
  | cons hclosing hinner _ _ ih =>
    rw [List.cons_append, List.append_assoc, List.cons_append]
    exact .cons hclosing hinner ih

theorem flatMap {ι : Type} {f : ι → List WalkStep} {l : List ι} (h : ∀ i ∈ l, Nested (f i)) :
    Nested (l.flatMap f) := by
  induction l with
  | nil => exact .nil
  | cons i l ih =>
    rw [List.flatMap_cons]
    exact (h i List.mem_cons_self).append (ih fun j hj => h j (List.mem_cons_of_mem i hj))

theorem branch {parent : Node} {b : Branch} (h : ∀ a ∈ b.nodes, Nested (a.steps fun _ => false)) :
    Nested (b.steps (fun _ => false) parent) := by
  cases b with
  | child role a => exact .cons rfl (h a List.mem_cons_self) .nil
  | list role as => exact .cons rfl (flatMap h) .nil

theorem steps (n : Node) : Nested (n.steps fun _ => false) := by
  induction n using Node.induction with
  | node n ih =>
    rw [Node.steps_eq, if_neg Bool.false_ne_true]
    exact .cons rfl (flatMap fun b hb => branch (ih b hb)) .nil

end Nested

end SymbolicTypes
