import Mathlib.Data.List.Forall2
import SymbolicTypes.Proofs.Inheritance.Declared

namespace SymbolicTypes

open Naming

/-- Two spellings of one name. A name of which nothing is left without its separator has one spelling
alone. -/
def Naming.Respells (n n' : String) : Prop := n = n' ∨ normalize n = normalize n' ∧ normalize n ≠ ""

instance (n n' : String) : Decidable (Naming.Respells n n') := inferInstanceAs (Decidable (_ ∨ _))

theorem Naming.Respells.normalize_eq {n n' : String} (h : Respells n n') :
    normalize n = normalize n' :=
  h.elim (congrArg normalize) And.left

theorem Naming.Respells.isEmpty_eq {n n' : String} (h : Respells n n') : n.isEmpty = n'.isEmpty := by
  obtain rfl | ⟨heq, hne⟩ := h
  · rfl
  · have hn : n ≠ "" := fun hn => hne (by rw [hn]; rfl)
    have hn' : n' ≠ "" := fun hn => hne (by rw [heq, hn]; rfl)
    rw [Bool.eq_iff_iff, String.isEmpty_iff, String.isEmpty_iff]
    exact iff_of_false hn hn'

/-- One declaration, but for the spelling of the names of classes in it. -/
structure ClassDecl.Respells (c c' : ClassDecl) : Prop where
  name : Naming.Respells c.name c'.name
  parent : Option.Rel Naming.Respells c.parent c'.parent
  traits : List.Forall₂ Naming.Respells c.traits c'.traits
  interfaces : List.Forall₂ Naming.Respells c.interfaces c'.interfaces
  parentInterfaces : List.Forall₂ Naming.Respells c.parentInterfaces c'.parentInterfaces
  methods : c.methods = c'.methods
  properties : c.properties = c'.properties
  constants : c.constants = c'.constants

theorem ClassDecl.Respells.parents {c c' : ClassDecl} (h : c.Respells c') :
    List.Forall₂ Naming.Respells c.parents c'.parents := by
  have hlist : List.Forall₂ Naming.Respells c.parent.toList c'.parent.toList := by
    have hparent := h.parent
    generalize c.parent = o, c'.parent = o' at hparent
    cases hparent with
    | none => exact .nil
    | some hn => exact .cons hn .nil
  refine List.rel_filter (fun n n' hn => ?_) hlist
  simp only [hn.isEmpty_eq]

/-- Under every key the two codebases hold the same class and the same trait, but for the spelling of
the names of classes. -/
structure Codebase.Respells (b b' : Codebase) : Prop where
  classes : ∀ k, Option.Rel ClassDecl.Respells (b.classes.get? k) (b'.classes.get? k)
  traits : ∀ k, Option.Rel ClassDecl.Respells (b.traits.get? k) (b'.traits.get? k)

variable {b b' : Codebase}

theorem SortedMap.get?_rel_insert {κ β : Type} [Ord κ] [Std.TransOrd κ] [Std.LawfulEqOrd κ]
    {R : β → β → Prop} {m m' : SortedMap κ β} {v v' : β}
    (h : ∀ j, Option.Rel R (m.get? j) (m'.get? j)) (hv : R v v') (k j : κ) :
    Option.Rel R ((m.insert k v).get? j) ((m'.insert k v').get? j) := by
  by_cases hj : j = k
  · subst hj
    rw [get?_insert_self, get?_insert_self]
    exact .some hv
  · rw [get?_insert_of_ne hj, get?_insert_of_ne hj]
    exact h j

theorem Codebase.respells_empty : Codebase.Respells {} {} := ⟨fun _ => .none, fun _ => .none⟩

theorem Codebase.Respells.insertClass (h : b.Respells b') {c c' : ClassDecl} (hc : c.Respells c') :
    (b.insertClass c).Respells (b'.insertClass c') where
  classes := by
    rw [Codebase.insertClass, Codebase.insertClass, hc.name.normalize_eq]
    exact SortedMap.get?_rel_insert h.classes hc _
  traits := h.traits

theorem Codebase.Respells.insertTrait (h : b.Respells b') {c c' : ClassDecl} (hc : c.Respells c') :
    (b.insertTrait c).Respells (b'.insertTrait c') where
  classes := h.classes
  traits := by
    rw [Codebase.insertTrait, Codebase.insertTrait, hc.name.normalize_eq]
    exact SortedMap.get?_rel_insert h.traits hc _

theorem Codebase.Respells.class? (h : b.Respells b') {n n' : String}
    (hn : normalize n = normalize n') : Option.Rel ClassDecl.Respells (b.class? n) (b'.class? n') := by
  rw [Codebase.class?, Codebase.class?, hn]
  exact h.classes _

theorem Codebase.Respells.trait? (h : b.Respells b') {n n' : String}
    (hn : normalize n = normalize n') : Option.Rel ClassDecl.Respells (b.trait? n) (b'.trait? n') := by
  rw [Codebase.trait?, Codebase.trait?, hn]
  exact h.traits _

theorem isSome_eq_of_rel {α β : Type} {R : α → β → Prop} {o : Option α} {o' : Option β}
    (h : Option.Rel R o o') : o.isSome = o'.isSome := by
  cases h <;> rfl

theorem SortedMap.keys_eq {κ β : Type} [Ord κ] [Std.TransOrd κ] [Std.LawfulEqOrd κ]
    {R : β → β → Prop} {m m' : SortedMap κ β}
    (h : ∀ k, Option.Rel R (m.get? k) (m'.get? k)) : m.keys = m'.keys := by
  have hmem (k : κ) : k ∈ m.keys ↔ k ∈ m'.keys := by
    rw [← isSome_get?_iff, ← isSome_get?_iff, isSome_eq_of_rel (h k)]
  have hincreasing : m.keys.Pairwise (compare · · = .lt) := List.pairwise_map.mpr m.increasing
  have hincreasing' : m'.keys.Pairwise (compare · · = .lt) := List.pairwise_map.mpr m'.increasing
  have hirrefl (k : κ) : ¬ compare k k = .lt := by simp [Std.ReflOrd.compare_self]
  exact eq_of_mem_iff_of_increasing hirrefl Std.TransCmp.lt_trans hincreasing hincreasing' hmem

theorem Codebase.Respells.depth_eq (h : b.Respells b') : b.depth = b'.depth := by
  have hclasses := congrArg List.length (SortedMap.keys_eq h.classes)
  have htraits := congrArg List.length (SortedMap.keys_eq h.traits)
  simp only [SortedMap.keys, List.length_map] at hclasses htraits
  rw [Codebase.depth, Codebase.depth, hclasses, htraits]

end SymbolicTypes
