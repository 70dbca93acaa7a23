import SymbolicTypes.Inheritance.Members
import SymbolicTypes.Proofs.Query.Returns

namespace SymbolicTypes

open Query

theorem SortedMap.mem_values {κ β : Type} [Ord κ] {m : SortedMap κ β} {k : κ} {v : β}
    (h : m.get? k = some v) : v ∈ m.values := by
  obtain ⟨e, he, rfl⟩ := Option.map_eq_some_iff.mp h
  exact List.mem_map_of_mem (List.mem_of_find?_eq_some he)

theorem SortedMap.mem_keys {κ β : Type} [Ord κ] [Std.LawfulEqOrd κ] {m : SortedMap κ β} {k : κ}
    {v : β} (h : m.get? k = some v) : k ∈ m.keys :=
  List.mem_map_of_mem (f := Prod.fst) (SortedMap.get?_eq_some_iff.mp h)

theorem SortedMap.isSome_get?_iff {κ β : Type} [Ord κ] [Std.LawfulEqOrd κ] {m : SortedMap κ β}
    {k : κ} : (m.get? k).isSome = true ↔ k ∈ m.keys := by
  constructor
  · intro h
    obtain ⟨v, hv⟩ := Option.isSome_iff_exists.mp h
    exact SortedMap.mem_keys hv
  · intro h
    obtain ⟨⟨_, v⟩, he, rfl⟩ := List.mem_map.mp h
    exact Option.isSome_of_eq_some (SortedMap.get?_eq_some_iff.mpr he)

namespace Codebase

variable {σ α : Type} {b : Codebase}

def index (b : Codebase) : Index := { codebase := b }

def classLikes (b : Codebase) : List ClassDecl := b.classes.values ++ b.traits.values

theorem mem_classLikes_of_class? {name : String} {c : ClassDecl} (h : b.class? name = some c) :
    c ∈ b.classLikes :=
  List.mem_append_left _ (SortedMap.mem_values h)

theorem mem_classLikes_of_trait? {name : String} {c : ClassDecl} (h : b.trait? name = some c) :
    c ∈ b.classLikes :=
  List.mem_append_right _ (SortedMap.mem_values h)

theorem knows_ask (b : Codebase) (l : Lookup) (a : α) :
    Knows (σ := σ) (b.index.ask l >>= fun _ => Pure.pure a) (· = a) :=
  ⟨a, rfl, fun s => Returns.bind (t := s) (a := ()) ⟨rfl, rfl⟩ (returns_pure a s)⟩

theorem knows_class? (b : Codebase) (name : String) :
    Knows (σ := σ) (b.index.class? name) (· = b.class? name) := knows_ask b _ _

theorem knows_trait? (b : Codebase) (name : String) :
    Knows (σ := σ) (b.index.trait? name) (· = b.trait? name) := knows_ask b _ _

theorem knows_function? (b : Codebase) (name : String) :
    Knows (σ := σ) (b.index.function? name) (· = b.function? name) := knows_ask b _ _

theorem knows_global? (b : Codebase) (name : String) :
    Knows (σ := σ) (b.index.global? name) (· = b.global? name) := knows_ask b _ _

theorem knows_constant? (b : Codebase) (name : String) :
    Knows (σ := σ) (b.index.constant? name) (· = b.constant? name) := knows_ask b _ _

def classOrTrait? (b : Codebase) (name : String) : Option ClassDecl :=
  (b.class? name).or (b.trait? name)

theorem knows_classOrTrait? (b : Codebase) (name : String) :
    Knows (σ := σ) (b.index.classOrTrait? name) (· = b.classOrTrait? name) := by
  apply (knows_class? b name).bind
  rintro o rfl
  cases hc : b.class? name with
  | some c => exact knows_pure (by rw [classOrTrait?, hc, Option.some_or])
  | none =>
    rw [classOrTrait?, hc, Option.none_or]
    exact knows_trait? b name

/-- What `static` can stand for: no class, or a class or trait by any spelling of its name. -/
def IsContext (b : Codebase) (name : String) : Prop :=
  name = "" ∨ Naming.normalize name ∈ b.classes.keys ∨ Naming.normalize name ∈ b.traits.keys

theorem isContext_empty (b : Codebase) : b.IsContext "" := .inl rfl

end Codebase

namespace SearchPlan

variable {σ M : Type} {b : Codebase} {p : SearchPlan M}

def described? (p : SearchPlan M) (b : Codebase) (name : String) : Option ClassDecl :=
  if p.throughTraits then b.classOrTrait? name else b.class? name

theorem knows_describe (p : SearchPlan M) (b : Codebase) (name : String) :
    Knows (σ := σ) (p.describe b.index name) (· = p.described? b name) := by
  cases ht : p.throughTraits with
  | true =>
    simp only [describe, described?, ht, if_true]
    exact Codebase.knows_classOrTrait? b name
  | false =>
    simp only [describe, described?, ht, Bool.false_eq_true, if_false]
    exact Codebase.knows_class? b name

theorem class?_or_trait?_of_described? {name : String} {c : ClassDecl}
    (h : p.described? b name = some c) : b.class? name = some c ∨ b.trait? name = some c := by
  unfold described? at h
  split at h
  · obtain h | ⟨-, h⟩ := Option.or_eq_some_iff.mp h
    · exact .inl h
    · exact .inr h
  · exact .inl h

theorem mem_classLikes_of_described? {name : String} {c : ClassDecl}
    (h : p.described? b name = some c) : c ∈ b.classLikes :=
  (class?_or_trait?_of_described? h).elim Codebase.mem_classLikes_of_class?
    Codebase.mem_classLikes_of_trait?

theorem mem_keys_of_described? {name : String} {c : ClassDecl} (h : p.described? b name = some c) :
    Naming.normalize name ∈ b.classes.keys ∨ Naming.normalize name ∈ b.traits.keys :=
  (class?_or_trait?_of_described? h).imp SortedMap.mem_keys SortedMap.mem_keys

end SearchPlan

end SymbolicTypes
