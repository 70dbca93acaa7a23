import Mathlib.Algebra.Ring.Nat
import SymbolicTypes.Proofs.Tree.Steps

namespace SymbolicTypes

/-- What is written of `i` is written of nothing else, whatever follows, and tells where it ends. -/
def Delimits {ι α : Type} (write : ι → List α) (i : ι) : Prop :=
  ∀ j rest rest', write i ++ rest = write j ++ rest' → i = j ∧ rest = rest'

/-- A list is read item by item up to a mark that no item begins with. -/
theorem eq_of_flatMap_append {ι α : Type} {write : ι → List α} {mark : α}
    (hmark : ∀ i rest rest', write i ++ rest ≠ mark :: rest') {l m : List ι}
    (hl : ∀ i ∈ l, Delimits write i) {rest rest' : List α}
    (h : l.flatMap write ++ mark :: rest = m.flatMap write ++ mark :: rest') :
    l = m ∧ rest = rest' := by
  induction l generalizing m with
  | nil =>
    cases m with
    | nil => exact ⟨rfl, List.tail_eq_of_cons_eq h⟩
    | cons j m =>
      rw [List.flatMap_cons, List.append_assoc] at h
      exact absurd h.symm (hmark j _ _)
  | cons i l ih =>
    rw [List.flatMap_cons, List.append_assoc] at h
    cases m with
    | nil => exact absurd h (hmark i _ _)
    | cons j m =>
      rw [List.flatMap_cons, List.append_assoc] at h
      obtain ⟨rfl, htail⟩ := hl i List.mem_cons_self _ _ _ h
      obtain ⟨rfl, hrest⟩ := ih (fun k hk => hl k (List.mem_cons_of_mem i hk)) htail
      exact ⟨rfl, hrest⟩

namespace Branch

def trace (parent : Head) : Branch → List Callback
  | child role a =>
    .enterChild role parent :: (a.trace (fun _ => false) ++ [.leaveChild role parent])
  | list role as =>
    .enterList role parent ::
      (as.flatMap (Node.trace fun _ => false) ++ [.leaveList role parent])

theorem map_callback_steps (parent : Node) (b : Branch) :
    (b.steps (fun _ => false) parent).map WalkStep.callback = b.trace parent.head := by
  cases b with
  | child role a => simp [steps, trace, WalkStep.callback, Node.map_callback_steps]
  | list role as =>
    simp [steps, trace, WalkStep.callback, List.map_flatMap, Node.map_callback_steps]

end Branch

namespace Node

theorem trace_eq (n : Node) :
    n.trace (fun _ => false) =
      .enter n.head :: (n.branches.flatMap (Branch.trace n.head) ++ [.leave n.head]) := by
  rw [← map_callback_steps, steps_eq, if_neg Bool.false_ne_true]
  simp [WalkStep.callback, List.map_flatMap, Branch.map_callback_steps]

end Node

theorem Branch.delimits_trace {parent : Head} {b : Branch}
    (h : ∀ a ∈ b.nodes, Delimits (Node.trace fun _ => false) a) : Delimits (trace parent) b := by
  have hmark (role : Role) (a : Node) (rest rest' : List Callback) :
      a.trace (fun _ => false) ++ rest ≠ .leaveList role parent :: rest' := by
    rw [Node.trace_eq, List.cons_append]
    exact fun heq => Callback.noConfusion (List.head_eq_of_cons_eq heq)
  intro c rest rest' heq
  -- The opening callback tells a child from a list, and its role.
  cases b with
  | child role a =>
    cases c with
    | child role' a' =>
      simp only [trace, List.cons_append, List.append_assoc, List.nil_append, List.cons.injEq,
        Callback.enterChild.injEq, and_true] at heq
      obtain ⟨rfl, htail⟩ := heq
      obtain ⟨rfl, hclosing⟩ := h a List.mem_cons_self _ _ _ htail
      exact ⟨rfl, List.tail_eq_of_cons_eq hclosing⟩
    | list role' as => simp [trace] at heq
  | list role as =>
    cases c with
    | child role' a => simp [trace] at heq
    | list role' as' =>
      simp only [trace, List.cons_append, List.append_assoc, List.nil_append, List.cons.injEq,
        Callback.enterList.injEq, and_true] at heq
      obtain ⟨rfl, htail⟩ := heq
      obtain ⟨rfl, hrest⟩ := eq_of_flatMap_append (hmark role) h htail
      exact ⟨rfl, hrest⟩

/-- The callbacks of a tree are those of no other tree, and tell where they end. -/
theorem Node.delimits_trace (n : Node) : Delimits (Node.trace fun _ => false) n := by
  induction n using Node.induction with
  | node n ih =>
    intro m rest rest' heq
    have hmark (b : Branch) (rest rest' : List Callback) :
        b.trace n.head ++ rest ≠ .leave n.head :: rest' := by
      cases b <;> simp [Branch.trace]
    simp only [trace_eq, List.cons_append, List.append_assoc, List.nil_append, List.cons.injEq,
      Callback.enter.injEq] at heq
    obtain ⟨hhead, htail⟩ := heq
    rw [← hhead] at htail
    obtain ⟨hbranches, hrest⟩ :=
      eq_of_flatMap_append hmark (fun b hb => Branch.delimits_trace (ih b hb)) htail
    exact ⟨ext_branches hhead hbranches, hrest⟩

namespace Node

mutual

def size : Node → Nat
  | identifier _ | name _ | scalar _ => 1
  | var a | expression a => a.size + 1
  | assign _ a b | Node.property a b | staticProperty a b | binary _ a b => a.size + b.size + 1
  | list as | array as | echo as | block as => sizeAll as + 1
  | item a b => sizeOptional a + sizeOptional b + 1
  | element a b | parameter a b | propertyDecl a b => a.size + sizeOptional b + 1
  | call a as => a.size + sizeAll as + 1
  | methodCall a b as | staticCall a b as => a.size + b.size + sizeAll as + 1
  | ret a => sizeOptional a + 1

def sizeAll : List Node → Nat
  | [] => 0
  | a :: as => a.size + sizeAll as

def sizeOptional : Option Node → Nat
  | none => 0
  | some a => a.size

end

theorem sizeAll_eq_sum (as : List Node) : sizeAll as = (as.map size).sum := by
  induction as with
  | nil => rfl
  | cons a as ih => rw [sizeAll, ih, List.map_cons, List.sum_cons]

end Node

namespace Branch

def size (b : Branch) : Nat := (b.nodes.map Node.size).sum

theorem size_child (role : Role) (a : Node) : (child role a).size = a.size := by simp [size, nodes]

theorem size_list (role : Role) (as : List Node) : (list role as).size = Node.sizeAll as :=
  (Node.sizeAll_eq_sum as).symm

theorem sum_size_optional (role : Role) (o : Option Node) :
    ((optional role o).map size).sum = Node.sizeOptional o := by
  cases o <;> simp [optional, size_child, Node.sizeOptional]

end Branch

theorem Node.size_eq_sum (n : Node) : n.size = (n.branches.map Branch.size).sum + 1 := by
  cases n <;>
    simp [size, branches, Branch.size_child, Branch.size_list, Branch.sum_size_optional,
      Nat.add_assoc]

def Callback.isLeave : Callback → Bool
  | leave _ => true
  | _ => false

theorem Branch.countP_isLeave_trace (b : Branch) (parent : Head)
    (h : ∀ a ∈ b.nodes, (a.trace fun _ => false).countP Callback.isLeave = a.size) :
    (b.trace parent).countP Callback.isLeave = b.size := by
  rw [size, ← List.map_congr_left h]
  cases b with
  | child role a => simp [trace, Callback.isLeave, nodes]
  | list role as => simp [trace, Callback.isLeave, nodes, List.countP_flatMap, Function.comp_def]

namespace Node

theorem countP_isLeave_trace (n : Node) :
    (n.trace fun _ => false).countP Callback.isLeave = n.size := by
  induction n using Node.induction with
  | node n ih =>
    have hbranches : n.branches.map (fun b => (b.trace n.head).countP Callback.isLeave) =
        n.branches.map Branch.size :=
      List.map_congr_left fun b hb => b.countP_isLeave_trace n.head (ih b hb)
    rw [trace_eq, size_eq_sum, ← hbranches]
    simp [Callback.isLeave, List.countP_flatMap, Function.comp_def]

theorem recorder_maps_count :
    (recorder fun _ => false).Maps (List.countP Callback.isLeave)
      { leave := fun _ k => k + 1 } where
  enter _ _ := rfl
  leave n _ := (List.countP_cons_of_pos (p := Callback.isLeave) (a := .leave n.head) rfl).symm
  enterChild _ _ _ := rfl
  leaveChild _ _ _ := rfl
  enterList _ _ _ := rfl
  leaveList _ _ _ := rfl

theorem count_eq_size (n : Node) : n.count = n.size := by
  rw [← countP_isLeave_trace, trace, List.countP_reverse]
  exact recorder_maps_count.walk n []

/-- The steps of a walk in which nothing is passed over say all of a tree. They are nested, and
there is a last step for every node. -/
theorem trace_injective :
    (∀ n m : Node, n.trace (fun _ => false) = m.trace (fun _ => false) → n = m) ∧
      ∀ n : Node, (n.steps fun _ => false).map WalkStep.callback = n.trace (fun _ => false) ∧
        Nested (n.steps fun _ => false) ∧
        (n.trace fun _ => false).countP Callback.isLeave = n.size := by
  refine ⟨fun n m h => ?_, fun n => ⟨map_callback_steps n, .steps n, countP_isLeave_trace n⟩⟩
  exact (delimits_trace n m [] [] (congrArg (· ++ []) h)).1

end Node

end SymbolicTypes
