import SymbolicTypes.Proofs.Tree.Steps

namespace SymbolicTypes

variable {σ : Type} {skip : Node → Bool}

namespace Visitor

/-- Makes the callback of a step. To enter a node and to pass over it is one callback, answered in
two ways. -/
def perform (v : Visitor σ) (s : σ) : WalkStep → σ
  | .enter n | .pass n => (v.enter n s).2
  | .leave n => v.leave n s
  | .enterChild role n => v.enterChild role n s
  | .leaveChild role n => v.leaveChild role n s
  | .enterList role n => v.enterList role n s
  | .leaveList role n => v.leaveList role n s

def Skips (v : Visitor σ) (skip : Node → Bool) : Prop := ∀ n s, (v.enter n s).1 = !skip n

variable {v : Visitor σ}

theorem Skips.recorder_maps (hv : v.Skips skip) (s : σ) :
    (WalkStep.recorder skip).Maps (List.foldr (fun step s => v.perform s step) s) v where
  enter n steps := by
    refine Prod.ext ?_ ?_
    · rw [hv]
      cases h : skip n <;> simp [WalkStep.recorder, h]
    · cases h : skip n <;> simp [WalkStep.recorder, h, perform]
  leave _ _ := rfl
  enterChild _ _ _ := rfl
  leaveChild _ _ _ := rfl
  enterList _ _ _ := rfl
  leaveList _ _ _ := rfl

/-- A walk makes the callbacks of its steps, one after the other. -/
theorem Skips.walk_eq_foldl (hv : v.Skips skip) (n : Node) (s : σ) :
    n.walk v s = (n.steps skip).foldl v.perform s := by
  rw [Node.steps, List.foldl_reverse]
  exact (hv.recorder_maps s).walk n []

end Visitor

namespace WalkStep

def isPass : WalkStep → Bool
  | pass _ => true
  | _ => false

/-- Puts a single step in place of all those from the one that enters a chosen node to the one that
leaves it. The number counts the nodes that are open from there on: none as long as no chosen node
is. -/
def collapse (skip : Node → Bool) : Nat → List WalkStep → List WalkStep
  | _, [] => []
  | 0, enter n :: rest =>
    if skip n then pass n :: collapse skip 1 rest else enter n :: collapse skip 0 rest
  | 0, step :: rest => step :: collapse skip 0 rest
  | depth + 1, enter _ :: rest => collapse skip (depth + 2) rest
  | depth + 1, leave _ :: rest => collapse skip depth rest
  | depth + 1, _ :: rest => collapse skip (depth + 1) rest

end WalkStep

open WalkStep (collapse)

theorem Nested.collapse_append {inner : List WalkStep} (h : Nested inner) (depth : Nat)
    (rest : List WalkStep) :
    collapse skip (depth + 1) (inner ++ rest) = collapse skip (depth + 1) rest := by
  induction h generalizing depth rest with
  | nil => rfl
  | @cons opening closing inner after hclosing _ _ ihinner ihafter =>
    rw [List.cons_append, List.append_assoc, List.cons_append]
    cases opening with
    | enter n =>
      -- a node inside is counted when it is entered and again when it is left
      obtain rfl := Option.some.inj hclosing
      rw [collapse, ihinner, collapse, ihafter]
    | enterChild role n | enterList role n =>
      obtain rfl := Option.some.inj hclosing
      rw [collapse, ihinner, collapse, ihafter]
      all_goals simp
    | _ => cases hclosing

/-- Outside of the chosen nodes the first steps collapse to the second ones, whatever follows. -/
def CollapsesTo (skip : Node → Bool) (steps kept : List WalkStep) : Prop :=
  ∀ rest, collapse skip 0 (steps ++ rest) = kept ++ collapse skip 0 rest

namespace CollapsesTo

theorem append {steps steps' kept kept' : List WalkStep} (h : CollapsesTo skip steps kept)
    (h' : CollapsesTo skip steps' kept') : CollapsesTo skip (steps ++ steps') (kept ++ kept') := by
  intro rest
  rw [List.append_assoc, h, h', List.append_assoc]

theorem flatMap {ι : Type} {steps kept : ι → List WalkStep} {l : List ι}
    (h : ∀ i ∈ l, CollapsesTo skip (steps i) (kept i)) :
    CollapsesTo skip (l.flatMap steps) (l.flatMap kept) := by
  induction l with
  | nil => exact fun _ => rfl
  | cons i l ih =>
    rw [List.flatMap_cons, List.flatMap_cons]
    exact (h i List.mem_cons_self).append (ih fun j hj => h j (List.mem_cons_of_mem i hj))

theorem branch {parent : Node} {b : Branch}
    (h : ∀ a ∈ b.nodes, CollapsesTo skip (a.steps fun _ => false) (a.steps skip)) :
    CollapsesTo skip (b.steps (fun _ => false) parent) (b.steps skip parent) := by
  have hopen (step : WalkStep) (hstep : ∀ n, step ≠ .enter n) : CollapsesTo skip [step] [step] := by
    intro rest
    cases step with
    | enter n => exact absurd rfl (hstep n)
    | _ => rfl
  cases b with
  | child role a =>
    exact (hopen _ (by simp)).append ((h a List.mem_cons_self).append (hopen _ (by simp)))
  | list role as => exact (hopen _ (by simp)).append ((flatMap h).append (hopen _ (by simp)))

theorem node (n : Node) : CollapsesTo skip (n.steps fun _ => false) (n.steps skip) := by
  induction n using Node.induction with
  | node n ih =>
    intro rest
    rw [n.steps_eq, n.steps_eq, if_neg Bool.false_ne_true, List.cons_append, List.append_assoc,
      collapse]
    cases hn : skip n with
    | true =>
      have hinner : Nested (n.branches.flatMap (Branch.steps (fun _ => false) n)) :=
        .flatMap fun _ _ => .branch fun a _ => .steps a
      rw [if_pos rfl, if_pos rfl, hinner.collapse_append]
      rfl
    | false =>
      have hbranches : CollapsesTo skip (n.branches.flatMap (Branch.steps (fun _ => false) n))
          (n.branches.flatMap (Branch.steps skip n)) := flatMap fun b hb => branch (ih b hb)
      rw [if_neg Bool.false_ne_true, if_neg Bool.false_ne_true, hbranches]
      simp [collapse]

end CollapsesTo

namespace Nested

theorem filter_branch {parent : Node} {b : Branch}
    (h : ∀ a ∈ b.nodes, Nested ((a.steps skip).filter fun step => !step.isPass)) :
    Nested ((b.steps skip parent).filter fun step => !step.isPass) := by
  cases b with
  | child role a =>
    have hinner := h a List.mem_cons_self
    simpa [Branch.steps, WalkStep.isPass] using Nested.cons rfl hinner .nil
  | list role as =>
    have hinner : Nested ((as.flatMap (Node.steps skip)).filter fun step => !step.isPass) := by
      rw [List.filter_flatMap]
      exact flatMap h
    simpa [Branch.steps, WalkStep.isPass] using Nested.cons rfl hinner .nil

theorem filter_steps (n : Node) : Nested ((n.steps skip).filter fun step => !step.isPass) := by
  induction n using Node.induction with
  | node n ih =>
    rw [Node.steps_eq]
    split
    · exact .nil
    · have hinner : Nested ((n.branches.flatMap (Branch.steps skip n)).filter
          fun step => !step.isPass) := by
        rw [List.filter_flatMap]
        exact flatMap fun b hb => filter_branch (ih b hb)
      simpa [WalkStep.isPass] using Nested.cons rfl hinner .nil

end Nested

/-- A visitor that passes over the chosen nodes makes the callbacks of a walk in which nothing is
passed over, except that of each chosen node that is in no other chosen one it makes only the first.
All else that is opened is closed. -/
theorem Node.walk_of_skips {v : Visitor σ} (hv : v.Skips skip) (n : Node) :
    (∀ s, n.walk v s = (collapse skip 0 (n.steps fun _ => false)).foldl v.perform s) ∧
      n.steps skip = collapse skip 0 (n.steps fun _ => false) ∧
      Nested ((n.steps skip).filter fun step => !step.isPass) := by
  have hsteps : n.steps skip = collapse skip 0 (n.steps fun _ => false) := by
    have h : CollapsesTo skip (n.steps fun _ => false) (n.steps skip) := .node n
    have hend := h []
    rw [List.append_nil] at hend
    simpa [collapse] using hend.symm
  refine ⟨fun s => ?_, hsteps, .filter_steps n⟩
  rw [← hsteps]
  exact hv.walk_eq_foldl n s

theorem skips_recorder (skip : Node → Bool) : (recorder skip).Skips skip := by
  intro n s
  cases h : skip n <;> simp [recorder, h]

def nestedParameters : Node :=
  .call (.name "f")
    [.parameter (.var (.identifier "x")) (some (.parameter (.var (.identifier "y")) none)),
     .var (.identifier "z")]

def Node.isParameter (n : Node) : Bool := n.head = .parameter

theorem walk_of_skips_nestedParameters :
    (recorder Node.isParameter).Skips Node.isParameter ∧
    nestedParameters.trace Node.isParameter =
      [.enter .call, .enterChild .function .call, .enter (.name "f"), .leave (.name "f"),
       .leaveChild .function .call, .enterList .arguments .call, .pass .parameter, .enter .var,
       .enterChild .variableName .var, .enter (.identifier "z"), .leave (.identifier "z"),
       .leaveChild .variableName .var, .leave .var, .leaveList .arguments .call, .leave .call] ∧
    (∀ s, nestedParameters.walk (recorder Node.isParameter) s =
      (collapse Node.isParameter 0 (nestedParameters.steps fun _ => false)).foldl
        (recorder Node.isParameter).perform s) ∧
    nestedParameters.steps Node.isParameter =
      collapse Node.isParameter 0 (nestedParameters.steps fun _ => false) ∧
    Nested ((nestedParameters.steps Node.isParameter).filter fun step => !step.isPass) :=
  ⟨skips_recorder _, rfl, Node.walk_of_skips (skips_recorder _) _⟩

end SymbolicTypes
