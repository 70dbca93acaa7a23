import Mathlib.Logic.Relation
import SymbolicTypes.Proofs.Variables.Accesses

namespace SymbolicTypes

open Relation

namespace Node

def visible : Node → List Node
  | identifier _ | name _ | scalar _ | parameter _ _ | propertyDecl _ _ => []
  | var a | expression a => [a]
  | assign _ a b | Node.property a b | staticProperty a b | binary _ a b => [a, b]
  | list as | array as | echo as | block as => as
  | item a b => a.toList ++ b.toList
  | element a b => a :: b.toList
  | call a as => a :: as
  | methodCall a b as | staticCall a b as => a :: b :: as
  | ret a => a.toList

/-- The children at the same place as their parent. -/
def inheriting : Node → List Node
  | list as | array as | echo as | block as => as
  | item _ a | ret a => a.toList
  | element a _ | Node.property a _ | staticProperty a _ | call a _ | methodCall a _ _
  | staticCall a _ _ | expression a => [a]
  | binary _ a b => [a, b]
  | _ => []

/-- One tree is in another, but not inside a declaration there. -/
def IsIn (m n : Node) : Prop := ReflTransGen (fun n m => m ∈ n.visible) n m

def HasVariable (n : Node) (x : String) : Prop := (var (identifier x)).IsIn n

/-- An identifier is at the same place as the tree that it is in. -/
def Exposes (n : Node) (x : String) : Prop :=
  ReflTransGen (fun n m => m ∈ n.inheriting) n (identifier x)

/-- An identifier is exposed in an expression that computes the name of a variable. -/
def Leaks (n : Node) (x : String) : Prop :=
  ∃ a, (var a).IsIn n ∧ a ≠ identifier x ∧ a.Exposes x

theorem hasVariable_iff {n : Node} {x : String} :
    n.HasVariable x ↔ n = var (identifier x) ∨ ∃ m ∈ n.visible, m.HasVariable x :=
  ReflTransGen.cases_head_iff

def placed (p : Place) : Node → List (Place × Node)
  | identifier _ | name _ | scalar _ | parameter _ _ | propertyDecl _ _ => []
  | var a => [(a.namePlace p, a)]
  | assign _ a b => [({ isWrite := true }, a), ({}, b)]
  | list as | array as | echo as | block as => as.map (p, ·)
  | item a b => a.toList.map ({}, ·) ++ b.toList.map (p, ·)
  | element a b => (p, a) :: b.toList.map ({}, ·)
  | Node.property a b | staticProperty a b => [(p, a), ({}, b)]
  | call a as => (p, a) :: as.map ({}, ·)
  | methodCall a b as | staticCall a b as => (p, a) :: ({}, b) :: as.map ({}, ·)
  | binary _ a b => [(p, a), (p, b)]
  | expression a => [(p, a)]
  | ret a => a.toList.map (p, ·)

variable {m n : Node} {p q : Place} {x : String}

theorem map_snd_placed (p : Place) (n : Node) : (n.placed p).map Prod.snd = n.visible := by
  cases n <;> simp [placed, visible, Function.comp_def]

theorem mem_placed_of_mem_inheriting (h : m ∈ n.inheriting) : (p, m) ∈ n.placed p := by
  cases n <;> simp_all [placed, inheriting]

/-- Only the name of a variable comes to be in a name, and what is at the place of its parent. -/
theorem eq_var_or_mem_inheriting (h : (q, m) ∈ n.placed p) (hq : q.inName = true) :
    n = var m ∨ p.inName = true ∧ m ∈ n.inheriting := by
  cases n <;> grind [placed, inheriting]

theorem accessesAll_eq (p : Place) (as : List Node) :
    accessesAll p as = as.flatMap (accesses p) := by
  induction as with
  | nil => rfl
  | cons a as ih => rw [accessesAll, ih, List.flatMap_cons]

theorem accessesOptional_eq (p : Place) (o : Option Node) :
    accessesOptional p o = o.toList.flatMap (accesses p) := by
  cases o with
  | none => rfl
  | some a => simp [accessesOptional]

theorem accesses_eq (hn : ∀ x, n ≠ identifier x) :
    n.accesses p = (n.placed p).flatMap fun c => c.2.accesses c.1 := by
  cases n with
  | identifier x => exact absurd rfl (hn x)
  | _ => simp [accesses, placed, accessesAll_eq, accessesOptional_eq, List.flatMap_map]

theorem sizeOf_lt_of_mem_visible (h : m ∈ n.visible) : sizeOf m < sizeOf n := by
  have hlist (l : List Node) (h : m ∈ l) : sizeOf m < sizeOf l := List.sizeOf_lt_of_mem h
  have hoption (o : Option Node) (h : m ∈ o.toList) : sizeOf m < sizeOf o := by
    rw [Option.mem_toList.mp h, Option.some.sizeOf_spec]
    omega
  cases n <;> grind [visible]

theorem visible_induction {motive : Node → Prop}
    (h : ∀ n, (∀ m ∈ n.visible, motive m) → motive n) (n : Node) : motive n :=
  h n fun m _ => visible_induction h m
termination_by sizeOf n
decreasing_by exact sizeOf_lt_of_mem_visible ‹_›

theorem mem_accesses_of_mem_placed {a : Access} (hm : (q, m) ∈ n.placed p)
    (ha : a ∈ m.accesses q) : a ∈ n.accesses p := by
  have hn (y : String) : n ≠ identifier y := by
    rintro rfl
    exact absurd hm List.not_mem_nil
  rw [accesses_eq hn]
  exact List.mem_flatMap.mpr ⟨(q, m), hm, ha⟩

theorem Exposes.exists_mem_accesses (h : n.Exposes x) (hp : p.inName = true) :
    ∃ isWrite, ⟨x, isWrite⟩ ∈ n.accesses p := by
  induction h using ReflTransGen.head_induction_on with
  | refl => exact ⟨p.isWrite, by simp [accesses, hp]⟩
  | head hm _ ih =>
    obtain ⟨isWrite, ha⟩ := ih
    exact ⟨isWrite, mem_accesses_of_mem_placed (mem_placed_of_mem_inheriting hm) ha⟩

theorem IsIn.exists_mem_accesses {a : Node} (h : (var a).IsIn n) (ha : a.Exposes x) (p : Place) :
    ∃ isWrite, ⟨x, isWrite⟩ ∈ n.accesses p := by
  induction h using ReflTransGen.head_induction_on generalizing p with
  | refl => exact ha.exists_mem_accesses (by cases a <;> rfl)
  | head hm _ ih =>
    rw [← map_snd_placed p, List.mem_map] at hm
    obtain ⟨⟨q, m⟩, hm, rfl⟩ := hm
    obtain ⟨isWrite, hx⟩ := ih q
    exact ⟨isWrite, mem_accesses_of_mem_placed hm hx⟩

/-- An access in a tree is either to what the tree exposes, if the tree itself is in a name, or to
what is exposed in the name of a variable in the tree. -/
theorem exposes_or_isIn_of_mem_accesses {isWrite : Bool} (h : ⟨x, isWrite⟩ ∈ n.accesses p) :
    p.inName = true ∧ n.Exposes x ∨ ∃ a, (var a).IsIn n ∧ a.Exposes x := by
  induction n using visible_induction generalizing p with | h n ih =>
  by_cases hn : ∃ y, n = identifier y
  · obtain ⟨y, rfl⟩ := hn
    rw [accesses] at h
    split at h
    · next hp =>
      obtain ⟨rfl, -⟩ := Access.mk.inj (List.mem_singleton.mp h)
      exact .inl ⟨hp, .refl⟩
    · exact absurd h List.not_mem_nil
  · rw [accesses_eq (not_exists.mp hn), List.mem_flatMap] at h
    obtain ⟨⟨q, m⟩, hm, hx⟩ := h
    have hvisible : m ∈ n.visible := by
      rw [← map_snd_placed p]
      exact List.mem_map_of_mem hm
    obtain ⟨hq, hexposes⟩ | ⟨a, ha, hexposes⟩ := ih m hvisible hx
    · obtain rfl | ⟨hp, hinheriting⟩ := eq_var_or_mem_inheriting hm hq
      · exact .inr ⟨m, .refl, hexposes⟩
      · exact .inl ⟨hp, .head hinheriting hexposes⟩
    · exact .inr ⟨a, .head hvisible ha, hexposes⟩

theorem mem_accesses_iff :
    (∃ isWrite, ⟨x, isWrite⟩ ∈ n.accesses {}) ↔ n.HasVariable x ∨ n.Leaks x := by
  constructor
  · rintro ⟨isWrite, h⟩
    obtain ⟨hp, -⟩ | ⟨a, ha, hx⟩ := exposes_or_isIn_of_mem_accesses h
    · exact absurd hp Bool.false_ne_true
    · by_cases hax : a = identifier x
      · subst hax
        exact .inl ha
      · exact .inr ⟨a, ha, hax, hx⟩
  · rintro (h | ⟨a, ha, -, hx⟩)
    · exact h.exists_mem_accesses .refl {}
    · exact ha.exists_mem_accesses hx {}

end Node

namespace VariableUse

/-- In every tree the plain names of the variables are found, and what leaks: an identifier is taken
for a name where the innermost context is that of a name, even if it is not the name itself. -/
theorem mem_classify_iff (settings : ClassifierSettings) (n : Node) :
    ∃ u : VariableUse, classify? settings true n = (.ok u, []) ∧
      ∀ x, x ∈ u.reads ∨ x ∈ u.writes ↔ n.HasVariable x ∨ n.Leaks x := by
  refine ⟨(n.accesses {}).foldl add {}, ?_, fun x => ?_⟩
  · rw [classify?, ofNode_eq, Bool.not_true, Bool.and_false]
    rfl
  · rw [← Node.mem_accesses_iff, mem_foldl_add.1, mem_foldl_add.2, Bool.exists_bool]
    simp

/-- A variable whose name is made of `a` and `b` has neither of them for its name. -/
theorem classify_leaks_operand :
    let n : Node := .var (.binary "." (.identifier "a") (.identifier "b"))
    ∃ u : VariableUse, classify? {} true n = (.ok u, []) ∧
      ¬(("a" ∈ u.reads ∨ "a" ∈ u.writes) ↔ n.HasVariable "a") := by
  intro n
  have hidentifier (y : String) : ¬(Node.identifier y).HasVariable "a" := by
    rw [Node.hasVariable_iff]
    simp [Node.visible]
  have hbinary : ¬(Node.binary "." (.identifier "a") (.identifier "b")).HasVariable "a" := by
    rw [Node.hasVariable_iff]
    simp [Node.visible, hidentifier]
  have hvariable : ¬n.HasVariable "a" := by
    rw [Node.hasVariable_iff]
    simp [n, Node.visible, hbinary]
  refine ⟨⟨.ofList ["a", "b"], ∅⟩, rfl, fun h => ?_⟩
  exact hvariable (h.mp (.inl (SortedSet.mem_ofList.mpr List.mem_cons_self)))

end VariableUse

end SymbolicTypes
