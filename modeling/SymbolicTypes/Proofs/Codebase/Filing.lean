import Mathlib.Data.Finset.Max
import SymbolicTypes.Proofs.Codebase.Retype
import SymbolicTypes.Proofs.Naming

namespace SymbolicTypes

open Naming

namespace SortedMap

variable {κ β : Type} [Ord κ]

def KeyedBy (m : SortedMap κ β) (key : β → κ) : Prop := ∀ e ∈ m.entries, e.1 = key e.2

theorem keyedBy_empty (key : β → κ) : (∅ : SortedMap κ β).KeyedBy key :=
  fun _ he => absurd he List.not_mem_nil

theorem values_empty : (∅ : SortedMap κ β).values = [] := rfl

variable [Std.TransOrd κ] [Std.LawfulEqOrd κ]

theorem KeyedBy.insert {m : SortedMap κ β} {key : β → κ} (h : m.KeyedBy key) (v : β) :
    (m.insert (key v) v).KeyedBy key := by
  intro e he
  obtain rfl | he := mem_insertInto he
  · rfl
  · exact h e he

omit [Std.TransOrd κ] [Std.LawfulEqOrd κ] in
theorem KeyedBy.map_values {m : SortedMap κ β} {key : β → κ} (h : m.KeyedBy key) :
    (m.values.map fun v => (key v, v)) = m.entries := by
  rw [values, List.map_map, map_eq_self_iff]
  exact fun e he => Prod.ext (h e he).symm rfl

theorem KeyedBy.ofList_values {m : SortedMap κ β} {key : β → κ} (h : m.KeyedBy key) :
    ofList (m.values.map fun v => (key v, v)) = m := by
  rw [h.map_values, ofList_entries]

theorem mem_of_mem_entries_ofList {l : List (κ × β)} {e : κ × β} (h : e ∈ (ofList l).entries) :
    e ∈ l := by
  have hfold (l : List (κ × β)) (m : SortedMap κ β)
      (h : e ∈ (l.foldl (fun m e => m.insert e.1 e.2) m).entries) : e ∈ m.entries ∨ e ∈ l := by
    induction l generalizing m with
    | nil => exact .inl h
    | cons d l ih =>
      obtain h | h := ih _ h
      · obtain rfl | h := mem_insertInto h
        · exact .inr List.mem_cons_self
        · exact .inl h
      · exact .inr (List.mem_cons_of_mem d h)
  exact (hfold l ∅ h).resolve_left List.not_mem_nil

theorem forall_values_ofList {l : List (κ × β)} {P : β → Prop} (h : ∀ e ∈ l, P e.2) :
    ∀ v ∈ (ofList l).values, P v := by
  intro v hv
  obtain ⟨e, he, rfl⟩ := List.mem_map.mp hv
  exact h e (mem_of_mem_entries_ofList he)

end SortedMap

inductive Filing
  | classLike (c : ClassDecl)
  | trait (c : ClassDecl)
  | function (f : FunctionDecl)
  | global (name : String) (type : TypeUnion)
  | constant (c : TypedName)
  | complete

namespace Codebase

def file (b : Codebase) : Filing → Codebase
  | .classLike c => b.insertClass c
  | .trait c => b.insertTrait c
  | .function f => b.insertFunction f
  | .global name type => b.insertGlobal name type
  | .constant c => b.insertConstant c
  | .complete => b.markComplete

def ofFilings (l : List Filing) : Codebase := l.foldl file {}

/-- Every declaration is filed under its normalized name. The name of a global is not kept beside
its type, so that nothing is said about it. -/
structure IsFiled (b : Codebase) : Prop where
  classes : b.classes.KeyedBy fun c => normalize c.name
  traits : b.traits.KeyedBy fun c => normalize c.name
  functions : b.functions.KeyedBy fun f => normalize f.name
  constants : b.constants.KeyedBy fun c => normalize c.name

theorem isFiled_empty : IsFiled {} where
  classes := SortedMap.keyedBy_empty _
  traits := SortedMap.keyedBy_empty _
  functions := SortedMap.keyedBy_empty _
  constants := SortedMap.keyedBy_empty _

theorem IsFiled.file {b : Codebase} (h : b.IsFiled) (f : Filing) : (b.file f).IsFiled := by
  cases f with
  | classLike c => exact { h with classes := h.classes.insert c }
  | trait c => exact { h with traits := h.traits.insert c }
  | function f => exact { h with functions := h.functions.insert f }
  | global name type => exact { h with }
  | constant c => exact { h with constants := h.constants.insert c }
  | complete => exact { h with }

theorem isFiled_ofFilings (l : List Filing) : (ofFilings l).IsFiled := by
  have hfold (b : Codebase) (hb : b.IsFiled) : (l.foldl file b).IsFiled := by
    induction l generalizing b with
    | nil => exact hb
    | cons f l ih => exact ih _ (hb.file f)
  exact hfold {} isFiled_empty

theorem exists_filings_ofSnapshot (s : Snapshot) : ∃ l, ofSnapshot s = ofFilings l := by
  refine ⟨s.classes.map .classLike ++ s.traits.map .trait ++ s.functions.map .function ++
    s.globals.entries.map (fun e => .global e.1 e.2) ++ s.constants.map .constant ++
    if s.complete then [.complete] else [], ?_⟩
  simp only [ofFilings, List.foldl_append, List.foldl_map, file, ofSnapshot]
  split <;> rfl

theorem ofSnapshot_eq (s : Snapshot) : ofSnapshot s =
    { classes := .ofList (s.classes.map fun c => (normalize c.name, c))
      traits := .ofList (s.traits.map fun c => (normalize c.name, c))
      functions := .ofList (s.functions.map fun f => (normalize f.name, f))
      globals := .ofList (s.globals.entries.map fun e => (normalizeVariable e.1, e.2))
      constants := .ofList (s.constants.map fun c => (normalize c.name, c))
      complete := s.complete } := by
  have hclasses (b : Codebase) : s.classes.foldl insertClass b =
      { b with classes := s.classes.foldl (fun m c => m.insert (normalize c.name) c) b.classes } :=
    List.foldl_hom (fun m => { b with classes := m }) fun _ _ => rfl
  have htraits (b : Codebase) : s.traits.foldl insertTrait b =
      { b with traits := s.traits.foldl (fun m c => m.insert (normalize c.name) c) b.traits } :=
    List.foldl_hom (fun m => { b with traits := m }) fun _ _ => rfl
  have hfunctions (b : Codebase) : s.functions.foldl insertFunction b =
      { b with
        functions := s.functions.foldl (fun m f => m.insert (normalize f.name) f) b.functions } :=
    List.foldl_hom (fun m => { b with functions := m }) fun _ _ => rfl
  have hglobals (b : Codebase) :
      s.globals.entries.foldl (fun b e => b.insertGlobal e.1 e.2) b =
        { b with
          globals := s.globals.entries.foldl (fun m e => m.insert (normalizeVariable e.1) e.2)
            b.globals } :=
    List.foldl_hom (fun m => { b with globals := m }) fun _ _ => rfl
  have hconstants (b : Codebase) : s.constants.foldl insertConstant b =
      { b with
        constants := s.constants.foldl (fun m c => m.insert (normalize c.name) c) b.constants } :=
    List.foldl_hom (fun m => { b with constants := m }) fun _ _ => rfl
  simp only [ofSnapshot, hclasses, htraits, hfunctions, hglobals, hconstants, SortedMap.ofList,
    List.foldl_map]
  cases s.complete <;> rfl

/-- A snapshot that is loaded files everything where it was, but that a `$` in front of the key of a
global is dropped once more. -/
theorem IsFiled.ofSnapshot_snapshot {b : Codebase} (h : b.IsFiled) : ofSnapshot b.snapshot =
    { b with globals := .ofList (b.globals.entries.map fun e => (normalizeVariable e.1, e.2)) } := by
  simp only [ofSnapshot_eq, snapshot, h.classes.ofList_values, h.traits.ofList_values,
    h.functions.ofList_values, h.constants.ofList_values]

theorem ofList_map_normalizeVariable {m : SortedMap String TypeUnion}
    (h : ∀ key ∈ m.keys, key.toList.head? ≠ some '$') :
    SortedMap.ofList (m.entries.map fun e => (normalizeVariable e.1, e.2)) = m := by
  have hentries : (m.entries.map fun e => (normalizeVariable e.1, e.2)) = m.entries := by
    rw [map_eq_self_iff]
    intro e he
    rw [normalizeVariable, dropLeading_eq_self_iff.mpr (h e.1 (List.mem_map_of_mem he))]
  rw [hentries, SortedMap.ofList_entries]

/-- Of the keys with a `$` in front the longest has no spelling with one more. -/
theorem exists_key_of_head?_eq {m : SortedMap String TypeUnion} {key : String} (h : key ∈ m.keys)
    (hkey : key.toList.head? = some '$') :
    ∃ k ∈ m.keys, k.toList.head? = some '$' ∧ String.singleton '$' ++ k ∉ m.keys := by
  classical
  have hnonempty : (m.keys.toFinset.filter fun k => k.toList.head? = some '$').Nonempty :=
    ⟨key, by simp [h, hkey]⟩
  obtain ⟨k, hk, hlongest⟩ := Finset.exists_max_image _ (fun k => k.toList.length) hnonempty
  obtain ⟨hk, hhead⟩ : k ∈ m.keys ∧ k.toList.head? = some '$' := by simpa using hk
  refine ⟨k, hk, hhead, fun hmore => ?_⟩
  have hlist : (String.singleton '$' ++ k).toList = '$' :: k.toList := by simp
  have hlonger := hlongest (String.singleton '$' ++ k)
    (Finset.mem_filter.mpr ⟨List.mem_toFinset.mpr hmore, by rw [hlist, List.head?_cons]⟩)
  rw [hlist, List.length_cons] at hlonger
  omega

/-- What is told to a codebase can be looked up in its loaded snapshot as before, the types of
globals just if no key of a global begins with a `$`. -/
theorem ofSnapshot_snapshot_lookups (l : List Filing) :
    let b := ofFilings l
    let c := ofSnapshot b.snapshot
    (∀ name, c.class? name = b.class? name ∧ c.trait? name = b.trait? name ∧
      c.function? name = b.function? name ∧ c.constant? name = b.constant? name) ∧
    c.complete = b.complete ∧
    ((∀ name, c.global? name = b.global? name) ↔
      ∀ key ∈ b.globals.keys, key.toList.head? ≠ some '$') := by
  intro b c
  have hc : c = { b with
      globals := .ofList (b.globals.entries.map fun e => (normalizeVariable e.1, e.2)) } :=
    (isFiled_ofFilings l).ofSnapshot_snapshot
  rw [hc]
  refine ⟨fun name => ⟨rfl, rfl, rfl, rfl⟩, rfl, fun h key hkey hhead => ?_, fun h name => ?_⟩
  · obtain ⟨k, hk, hhead, hmore⟩ := exists_key_of_head?_eq hkey hhead
    -- under this spelling the codebase itself finds what is filed under `k`
    have hspelling := h (String.singleton '$' ++ k)
    obtain ⟨e, he, rfl⟩ := List.mem_map.mp hk
    rw [global?, global?, normalizeVariable, dropLeading_append,
      SortedMap.get?_eq_some_iff.mpr he, SortedMap.get?_eq_some_iff] at hspelling
    obtain ⟨d, hd, heq⟩ := List.mem_map.mp (SortedMap.mem_of_mem_entries_ofList hspelling)
    have hdrop : dropLeading '$' d.1 = e.1 := (Prod.mk.inj heq).1
    obtain hkey | hkey := eq_dropLeading_or '$' d.1
    · exact dropLeading_eq_self_iff.mp hkey.symm (by rw [hkey, hdrop, hhead])
    · rw [hdrop] at hkey
      exact hmore (hkey ▸ List.mem_map_of_mem hd)
  · rw [global?, global?, ofList_map_normalizeVariable h]

/-- A global with two `$` in front of its name is lost. -/
theorem ofSnapshot_snapshot_loses_global :
    let b := ofFilings [.global "$$a" (TypeUnion.ofNames ["int"])]
    b.global? "$$a" = some (TypeUnion.ofNames ["int"]) ∧
      (ofSnapshot b.snapshot).global? "$$a" = none := by
  exact ⟨rfl, rfl⟩

end Codebase

end SymbolicTypes
