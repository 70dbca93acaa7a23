import Mathlib.Data.List.Basic
import SymbolicTypes.Resolution.Bound

namespace SymbolicTypes

theorem map_eq_self_iff {α : Type} {f : α → α} {l : List α} :
    l.map f = l ↔ ∀ a ∈ l, f a = a := by
  induction l with
  | nil => simp
  | cons a l ih => simp [ih]

namespace SortedMap

variable {κ β γ : Type} [Ord κ]

def mapValues (f : β → γ) (m : SortedMap κ β) : SortedMap κ γ :=
  ⟨m.entries.map fun e => (e.1, f e.2), List.pairwise_map.mpr m.increasing⟩

theorem values_mapValues (f : β → γ) (m : SortedMap κ β) :
    (m.mapValues f).values = m.values.map f := by
  simp [values, mapValues]

theorem mapValues_eq_self_iff {f : β → β} {m : SortedMap κ β} :
    m.mapValues f = m ↔ ∀ v ∈ m.values, f v = v := by
  obtain ⟨l, hl⟩ := m
  simp only [mapValues, values, SortedMap.mk.injEq, map_eq_self_iff]
  constructor
  · intro h v hv
    obtain ⟨e, he, rfl⟩ := List.mem_map.mp hv
    exact congrArg Prod.snd (h e he)
  · intro h e he
    rw [h e.2 (List.mem_map_of_mem he)]

variable [Std.TransOrd κ] [Std.LawfulEqOrd κ]

theorem insert_mapValues (f : β → γ) (m : SortedMap κ β) (k : κ) (v : β) :
    (m.mapValues f).insert k (f v) = (m.insert k v).mapValues f := by
  have hinto (l : List (κ × β)) : insertInto k (f v) (l.map fun e => (e.1, f e.2)) =
      (insertInto k v l).map fun e => (e.1, f e.2) := by
    induction l with
    | nil => rfl
    | cons e l ih =>
      rw [List.map_cons, insertInto, insertInto]
      cases compare k e.1 <;> simp [ih]
  obtain ⟨l, hl⟩ := m
  simp only [mapValues, insert, SortedMap.mk.injEq]
  exact hinto l

theorem ofList_entries (m : SortedMap κ β) : ofList m.entries = m := by
  have hlast (k : κ) (v : β) (l : List (κ × β)) (h : ∀ e ∈ l, compare e.1 k = .lt) :
      insertInto k v l = l ++ [(k, v)] := by
    induction l with
    | nil => rfl
    | cons e l ih =>
      have he : compare k e.1 = .gt := Std.OrientedCmp.gt_iff_lt.mpr (h e List.mem_cons_self)
      rw [insertInto, he]
      exact congrArg (e :: ·) (ih fun d hd => h d (List.mem_cons_of_mem _ hd))
  have hfold (l : List (κ × β)) (n : SortedMap κ β)
      (h : (n.entries ++ l).Pairwise (fun a b => compare a.1 b.1 = .lt)) :
      (l.foldl (fun m e => m.insert e.1 e.2) n).entries = n.entries ++ l := by
    induction l generalizing n with
    | nil => simp
    | cons e l ih =>
      have hn : (n.insert e.1 e.2).entries = n.entries ++ [e] := by
        apply hlast
        intro d hd
        exact (List.pairwise_append.mp h).2.2 d hd e List.mem_cons_self
      rw [List.foldl_cons, ih, hn, List.append_assoc, List.singleton_append]
      rw [hn, List.append_assoc, List.singleton_append]
      exact h
  have := hfold m.entries ∅ m.increasing
  obtain ⟨l, hl⟩ := m
  have hof : (ofList l).entries = l := this
  cases hm : ofList l with
  | mk r hr =>
    rw [hm] at hof
    subst hof
    rfl

end SortedMap

def TypedName.retype (f : TypeUnion → TypeUnion) (n : TypedName) : TypedName :=
  { n with type := f n.type }

def FunctionDecl.retype (f : TypeUnion → TypeUnion) (d : FunctionDecl) : FunctionDecl :=
  { d with parameters := d.parameters.map (TypedName.retype f), returnType := f d.returnType }

def ClassDecl.retype (f : TypeUnion → TypeUnion) (c : ClassDecl) : ClassDecl :=
  { c with
    methods := c.methods.map (FunctionDecl.retype f)
    properties := c.properties.map (TypedName.retype f)
    constants := c.constants.map (TypedName.retype f) }

namespace Snapshot

def retype (f : TypeUnion → TypeUnion) (s : Snapshot) : Snapshot where
  classes := s.classes.map (ClassDecl.retype f)
  traits := s.traits.map (ClassDecl.retype f)
  functions := s.functions.map (FunctionDecl.retype f)
  globals := s.globals.mapValues f
  constants := s.constants.map (TypedName.retype f)
  complete := s.complete

def unions (s : Snapshot) : List TypeUnion :=
  s.classes.flatMap ClassDecl.unions ++ s.traits.flatMap ClassDecl.unions
    ++ s.functions.flatMap FunctionDecl.unions ++ s.globals.values
    ++ s.constants.map TypedName.type

end Snapshot

namespace Codebase

def retype (f : TypeUnion → TypeUnion) (b : Codebase) : Codebase where
  classes := b.classes.mapValues (ClassDecl.retype f)
  traits := b.traits.mapValues (ClassDecl.retype f)
  functions := b.functions.mapValues (FunctionDecl.retype f)
  globals := b.globals.mapValues f
  constants := b.constants.mapValues (TypedName.retype f)
  complete := b.complete

theorem unions_snapshot (b : Codebase) : b.snapshot.unions = b.unions := rfl

theorem snapshot_retype (f : TypeUnion → TypeUnion) (b : Codebase) :
    (b.retype f).snapshot = b.snapshot.retype f := by
  simp [snapshot, retype, Snapshot.retype, SortedMap.values_mapValues]

end Codebase

theorem TypedName.retype_eq_self_iff {f : TypeUnion → TypeUnion} {n : TypedName} :
    n.retype f = n ↔ f n.type = n.type := by
  cases n
  simp [TypedName.retype]

theorem FunctionDecl.forall_unions {p : TypeUnion → Prop} {d : FunctionDecl} :
    (∀ u ∈ d.unions, p u) ↔ (∀ n ∈ d.parameters, p n.type) ∧ p d.returnType := by
  rw [unions, List.forall_mem_cons, List.forall_mem_map]
  exact and_comm

theorem ClassDecl.forall_unions {p : TypeUnion → Prop} {c : ClassDecl} :
    (∀ u ∈ c.unions, p u) ↔ (∀ d ∈ c.methods, ∀ u ∈ d.unions, p u) ∧
      (∀ n ∈ c.properties, p n.type) ∧ ∀ n ∈ c.constants, p n.type := by
  simp only [unions, List.forall_mem_append, List.forall_mem_flatMap, List.forall_mem_map,
    and_assoc]

theorem Snapshot.forall_unions {p : TypeUnion → Prop} {s : Snapshot} :
    (∀ u ∈ s.unions, p u) ↔ (∀ c ∈ s.classes, ∀ u ∈ c.unions, p u) ∧
      (∀ c ∈ s.traits, ∀ u ∈ c.unions, p u) ∧ (∀ d ∈ s.functions, ∀ u ∈ d.unions, p u) ∧
      (∀ u ∈ s.globals.values, p u) ∧ ∀ n ∈ s.constants, p n.type := by
  simp only [unions, List.forall_mem_append, List.forall_mem_flatMap, List.forall_mem_map,
    and_assoc]

theorem FunctionDecl.retype_eq_self_iff {f : TypeUnion → TypeUnion} {d : FunctionDecl} :
    d.retype f = d ↔ ∀ u ∈ d.unions, f u = u := by
  rw [forall_unions]
  cases d
  simp [FunctionDecl.retype, map_eq_self_iff, TypedName.retype_eq_self_iff]

theorem ClassDecl.retype_eq_self_iff {f : TypeUnion → TypeUnion} {c : ClassDecl} :
    c.retype f = c ↔ ∀ u ∈ c.unions, f u = u := by
  rw [forall_unions]
  cases c
  simp [ClassDecl.retype, map_eq_self_iff, TypedName.retype_eq_self_iff,
    FunctionDecl.retype_eq_self_iff]

theorem Snapshot.retype_eq_self_iff {f : TypeUnion → TypeUnion} {s : Snapshot} :
    s.retype f = s ↔ ∀ u ∈ s.unions, f u = u := by
  rw [forall_unions]
  cases s
  simp [Snapshot.retype, map_eq_self_iff, TypedName.retype_eq_self_iff,
    FunctionDecl.retype_eq_self_iff, ClassDecl.retype_eq_self_iff,
    SortedMap.mapValues_eq_self_iff]

namespace Codebase

open Naming

theorem foldl_retype {α : Type} (f : TypeUnion → TypeUnion) (g : α → α)
    (step : Codebase → α → Codebase) (h : ∀ b a, step (b.retype f) (g a) = (step b a).retype f)
    (l : List α) (b : Codebase) :
    (l.map g).foldl step (b.retype f) = (l.foldl step b).retype f := by
  induction l generalizing b with
  | nil => rfl
  | cons a l ih => rw [List.map_cons, List.foldl_cons, h, ih, List.foldl_cons]

theorem ofSnapshot_retype (f : TypeUnion → TypeUnion) (s : Snapshot) :
    ofSnapshot (s.retype f) = (ofSnapshot s).retype f := by
  have hclasses := foldl_retype f (ClassDecl.retype f) insertClass (fun b c => by
    simp [insertClass, retype, ClassDecl.retype, ← SortedMap.insert_mapValues]) s.classes {}
  have htraits := foldl_retype f (ClassDecl.retype f) insertTrait (fun b c => by
    simp [insertTrait, retype, ClassDecl.retype, ← SortedMap.insert_mapValues]) s.traits
  have hfunctions := foldl_retype f (FunctionDecl.retype f) insertFunction (fun b c => by
    simp [insertFunction, retype, FunctionDecl.retype, ← SortedMap.insert_mapValues]) s.functions
  have hglobals := foldl_retype f (fun e : String × TypeUnion => (e.1, f e.2))
    (fun b e => b.insertGlobal e.1 e.2) (fun b e => by
      simp [insertGlobal, retype, ← SortedMap.insert_mapValues]) s.globals.entries
  have hconstants := foldl_retype f (TypedName.retype f) insertConstant (fun b c => by
    simp [insertConstant, retype, TypedName.retype, ← SortedMap.insert_mapValues]) s.constants
  have hempty : ({} : Codebase).retype f = {} := rfl
  rw [hempty] at hclasses
  simp only [ofSnapshot, Snapshot.retype, SortedMap.mapValues, hclasses, htraits, hfunctions,
    hglobals, hconstants]
  split <;> rfl

theorem forall_unions_ofSnapshot {P : TypeUnion → Prop} (hempty : P ∅) {s : Snapshot}
    (h : ∀ u ∈ s.unions, P u) : ∀ u ∈ (ofSnapshot s).unions, P u := by
  classical
  -- emptying all unions without the property changes nothing before the filing, so nothing after it
  let f (u : TypeUnion) : TypeUnion := if P u then u else ∅
  have hs : s.retype f = s := Snapshot.retype_eq_self_iff.mpr fun u hu => if_pos (h u hu)
  have hfiled : (ofSnapshot s).snapshot.retype f = (ofSnapshot s).snapshot := by
    rw [← snapshot_retype, ← ofSnapshot_retype, hs]
  intro u hu
  have hfu : f u = u := Snapshot.retype_eq_self_iff.mp hfiled u hu
  by_cases hP : P u
  · exact hP
  · rw [← hfu, show f u = ∅ from if_neg hP]
    exact hempty

end Codebase

end SymbolicTypes
