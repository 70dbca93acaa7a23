import Mathlib.Data.List.Induction
import SymbolicTypes.Proofs.Codebase.Filing
import SymbolicTypes.Proofs.Text.ByteOrder
import SymbolicTypes.Snapshot.File

namespace SymbolicTypes

open Naming Text

variable {β : Type}

theorem SortedMap.get?_ofList {l : List (String × β)} {k : String} :
    (ofList l).get? k = l.reverse.lookup k := by
  induction l using List.reverseRecOn with
  | nil => rfl
  | append_singleton l e ih =>
    have hlast : ofList (l ++ [e]) = (ofList l).insert e.1 e.2 := by
      rw [ofList, List.foldl_append]
      rfl
    rw [hlast, List.reverse_append, List.reverse_singleton, List.singleton_append, List.lookup_cons]
    cases hk : k == e.1 with
    | true => rw [eq_of_beq hk, get?_insert_self]
    | false => rw [get?_insert_of_ne (ne_of_beq_false hk), ih]

/-- Of all that was given for a key the entries hold the last, each key once, in the order of their
bytes. -/
structure HoldsLast (given entries : List (String × β)) : Prop where
  increasing : (entries.map Prod.fst).Pairwise fun j k => bytes j < bytes k
  mem_keys_iff : ∀ k, k ∈ entries.map Prod.fst ↔ k ∈ given.map Prod.fst
  last : ∀ e ∈ entries, given.reverse.lookup e.1 = some e.2

theorem holdsLast_ofList (given : List (String × β)) :
    HoldsLast given (SortedMap.ofList given).entries where
  increasing := by
    rw [List.pairwise_map]
    exact (SortedMap.ofList given).increasing.imp bytes_lt_bytes
  mem_keys_iff k := by
    constructor
    · intro hk
      obtain ⟨e, he, rfl⟩ := List.mem_map.mp hk
      exact List.mem_map_of_mem (SortedMap.mem_of_mem_entries_ofList he)
    · intro hk
      obtain ⟨e, he, rfl⟩ := List.mem_map.mp hk
      have hsome : (given.reverse.lookup e.1).isSome :=
        List.lookup_isSome_iff.mpr ⟨e, List.mem_reverse.mpr he, beq_self_eq_true e.1⟩
      obtain ⟨v, hv⟩ := Option.isSome_iff_exists.mp hsome
      rw [← SortedMap.get?_ofList, SortedMap.get?_eq_some_iff] at hv
      exact List.mem_map.mpr ⟨(e.1, v), hv, rfl⟩
  last e he := by
    rw [← SortedMap.get?_ofList]
    exact SortedMap.get?_eq_some_iff.mpr he

namespace Filing

def class? : Filing → Option (String × ClassDecl)
  | classLike c => some (normalize c.name, c)
  | _ => none

def trait? : Filing → Option (String × ClassDecl)
  | trait c => some (normalize c.name, c)
  | _ => none

def function? : Filing → Option (String × FunctionDecl)
  | function f => some (normalize f.name, f)
  | _ => none

def global? : Filing → Option (String × TypeUnion)
  | global name type => some (normalizeVariable name, type)
  | _ => none

def constant? : Filing → Option (String × TypedName)
  | constant c => some (normalize c.name, c)
  | _ => none

end Filing

/-- What filings say of a kind of things under a key: the last of them to do so. -/
def lastOf (kind : Filing → Option (String × β)) (l : List Filing) (key : String) : Option β :=
  (l.filterMap kind).reverse.lookup key

structure SameLast (l m : List Filing) : Prop where
  classes : ∀ key, lastOf Filing.class? l key = lastOf Filing.class? m key
  traits : ∀ key, lastOf Filing.trait? l key = lastOf Filing.trait? m key
  functions : ∀ key, lastOf Filing.function? l key = lastOf Filing.function? m key
  globals : ∀ key, lastOf Filing.global? l key = lastOf Filing.global? m key
  constants : ∀ key, lastOf Filing.constant? l key = lastOf Filing.constant? m key
  complete : .complete ∈ l ↔ .complete ∈ m

/-- The snapshot holds what filings said last of each kind and each normalized name, and nothing
else. A declaration stands in it as it was given. -/
structure Snapshot.IsLastOf (s : Snapshot) (l : List Filing) : Prop where
  classes : HoldsLast (l.filterMap Filing.class?) (s.classes.map fun c => (normalize c.name, c))
  traits : HoldsLast (l.filterMap Filing.trait?) (s.traits.map fun c => (normalize c.name, c))
  functions :
    HoldsLast (l.filterMap Filing.function?) (s.functions.map fun f => (normalize f.name, f))
  globals : HoldsLast (l.filterMap Filing.global?) s.globals.entries
  constants :
    HoldsLast (l.filterMap Filing.constant?) (s.constants.map fun c => (normalize c.name, c))
  complete : s.complete = true ↔ .complete ∈ l

namespace Codebase

theorem map_ofFilings {map : Codebase → SortedMap String β} {kind : Filing → Option (String × β)}
    (hempty : map {} = ∅)
    (hfile : ∀ b f, map (file b f) = (kind f).elim (map b) fun e => (map b).insert e.1 e.2)
    (l : List Filing) : map (ofFilings l) = .ofList (l.filterMap kind) := by
  induction l using List.reverseRecOn with
  | nil => exact hempty
  | append_singleton l f ih =>
    have hlast : ofFilings (l ++ [f]) = file (ofFilings l) f := by
      rw [ofFilings, List.foldl_append]
      rfl
    rw [hlast, hfile, ih, List.filterMap_append, SortedMap.ofList, SortedMap.ofList,
      List.foldl_append]
    cases hf : kind f with
    | none => simp [hf]
    | some e => simp [hf]

theorem classes_ofFilings (l : List Filing) :
    (ofFilings l).classes = .ofList (l.filterMap Filing.class?) :=
  map_ofFilings rfl (fun b f => by cases f <;> rfl) l

theorem traits_ofFilings (l : List Filing) :
    (ofFilings l).traits = .ofList (l.filterMap Filing.trait?) :=
  map_ofFilings rfl (fun b f => by cases f <;> rfl) l

theorem functions_ofFilings (l : List Filing) :
    (ofFilings l).functions = .ofList (l.filterMap Filing.function?) :=
  map_ofFilings rfl (fun b f => by cases f <;> rfl) l

theorem globals_ofFilings (l : List Filing) :
    (ofFilings l).globals = .ofList (l.filterMap Filing.global?) :=
  map_ofFilings rfl (fun b f => by cases f <;> rfl) l

theorem constants_ofFilings (l : List Filing) :
    (ofFilings l).constants = .ofList (l.filterMap Filing.constant?) :=
  map_ofFilings rfl (fun b f => by cases f <;> rfl) l

theorem complete_ofFilings (l : List Filing) :
    (ofFilings l).complete = true ↔ .complete ∈ l := by
  have hfold (b : Codebase) :
      (l.foldl file b).complete = true ↔ b.complete = true ∨ .complete ∈ l := by
    induction l generalizing b with
    | nil => simp
    | cons f l ih =>
      rw [List.foldl_cons, ih, List.mem_cons]
      cases f <;> simp [file, insertClass, insertTrait, insertFunction, insertGlobal,
        insertConstant, markComplete]
  rw [ofFilings, hfold]
  exact or_iff_right Bool.false_ne_true

attribute [ext] Codebase

theorem ofFilings_eq_of_sameLast {l m : List Filing} (h : SameLast l m) :
    ofFilings l = ofFilings m := by
  have hmap {β : Type} {kind : Filing → Option (String × β)}
      (h : ∀ key, lastOf kind l key = lastOf kind m key) :
      SortedMap.ofList (l.filterMap kind) = .ofList (m.filterMap kind) := by
    apply SortedMap.ext
    intro key
    rw [SortedMap.get?_ofList, SortedMap.get?_ofList]
    exact h key
  apply Codebase.ext
  · rw [classes_ofFilings, classes_ofFilings, hmap h.classes]
  · rw [traits_ofFilings, traits_ofFilings, hmap h.traits]
  · rw [functions_ofFilings, functions_ofFilings, hmap h.functions]
  · rw [globals_ofFilings, globals_ofFilings, hmap h.globals]
  · rw [constants_ofFilings, constants_ofFilings, hmap h.constants]
  · rw [Bool.eq_iff_iff, complete_ofFilings, complete_ofFilings, h.complete]

theorem snapshot_isLastOf (l : List Filing) : (ofFilings l).snapshot.IsLastOf l where
  classes := by
    rw [snapshot, (isFiled_ofFilings l).classes.map_values, classes_ofFilings]
    exact holdsLast_ofList _
  traits := by
    rw [snapshot, (isFiled_ofFilings l).traits.map_values, traits_ofFilings]
    exact holdsLast_ofList _
  functions := by
    rw [snapshot, (isFiled_ofFilings l).functions.map_values, functions_ofFilings]
    exact holdsLast_ofList _
  globals := by
    rw [snapshot, globals_ofFilings]
    exact holdsLast_ofList _
  constants := by
    rw [snapshot, (isFiled_ofFilings l).constants.map_values, constants_ofFilings]
    exact holdsLast_ofList _
  complete := complete_ofFilings l

/-- Whatever a codebase is told and in whatever order, for each kind and each normalized name the
last word counts: it is found under every spelling, the snapshot holds it as it was given and
nothing else, in the order of the names, and the stored text depends on nothing else. -/
theorem ofFilings_holds_last (l : List Filing) :
    (∀ name,
      (ofFilings l).class? name = lastOf Filing.class? l (normalize name) ∧
      (ofFilings l).trait? name = lastOf Filing.trait? l (normalize name) ∧
      (ofFilings l).function? name = lastOf Filing.function? l (normalize name) ∧
      (ofFilings l).global? name = lastOf Filing.global? l (normalizeVariable name) ∧
      (ofFilings l).constant? name = lastOf Filing.constant? l (normalize name)) ∧
    (ofFilings l).snapshot.IsLastOf l ∧
    ∀ m, SameLast l m → (ofFilings l).toText = (ofFilings m).toText := by
  refine ⟨fun name => ?_, snapshot_isLastOf l, fun m hm => by rw [ofFilings_eq_of_sameLast hm]⟩
  rw [class?, trait?, function?, global?, constant?, classes_ofFilings, traits_ofFilings,
    functions_ofFilings, globals_ofFilings, constants_ofFilings]
  simp only [SortedMap.get?_ofList]
  exact ⟨rfl, rfl, rfl, rfl, rfl⟩

theorem ofFilings_holds_last_respelled :
    let l : List Filing := [.classLike { name := "\\A" }, .complete,
      .global "$x" (TypeUnion.ofNames ["int"]), .classLike { name := "A" }]
    let m : List Filing := [.global "x" (TypeUnion.ofNames ["int"]), .classLike { name := "A" },
      .complete]
    SameLast l m ∧ (ofFilings l).toText = (ofFilings m).toText := by
  intro l m
  have hlast : SameLast l m := by
    have hclasses : l.filterMap Filing.class? =
        [("A", { name := "\\A" }), ("A", { name := "A" })] := rfl
    have hclass : m.filterMap Filing.class? = [("A", { name := "A" })] := rfl
    have hglobals : l.filterMap Filing.global? = m.filterMap Filing.global? := rfl
    refine ⟨fun key => ?_, fun key => rfl, fun key => rfl, fun key => ?_, fun key => rfl, ?_⟩
    · rw [lastOf, lastOf, hclasses, hclass]
      cases hkey : key == "A" <;> simp [List.lookup_cons, hkey]
    · rw [lastOf, lastOf, hglobals]
    · simp [l, m]
  exact ⟨hlast, (ofFilings_holds_last l).2.2 m hlast⟩

end Codebase

end SymbolicTypes
