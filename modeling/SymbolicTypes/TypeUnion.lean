import SymbolicTypes.SortedSet
import SymbolicTypes.SymType.Order
import SymbolicTypes.SymType.Text

namespace SymbolicTypes

/-- The declared type of a symbol: any of the members, all of which have a text form. -/
structure TypeUnion where
  members : SortedSet SymType
  encodable : ∀ t ∈ members, t.isEncodable = true
  deriving DecidableEq

namespace TypeUnion

instance : EmptyCollection TypeUnion := ⟨⟨∅, fun _ h => absurd h SortedSet.not_mem_empty⟩⟩

instance : Inhabited TypeUnion := ⟨∅⟩

instance : Membership SymType TypeUnion := ⟨fun u t => t ∈ u.members⟩

def toList (u : TypeUnion) : List SymType := u.members.toList

instance (u : TypeUnion) (P : SymType → Prop) [DecidablePred P] : Decidable (∀ t ∈ u, P t) :=
  inferInstanceAs (Decidable (∀ t ∈ u.toList, P t))

def contains (u : TypeUnion) (t : SymType) : Bool := u.members.contains t

/-- A type without a text form says nothing and is left out. -/
def insert (u : TypeUnion) (t : SymType) : TypeUnion :=
  if h : t.isEncodable then
    ⟨u.members.insert t, fun s hs => (SortedSet.mem_insert.1 hs).elim (· ▸ h) (u.encodable s)⟩
  else u

def gains (u : TypeUnion) (t : SymType) : Bool := t.isEncodable && !u.contains t

def ofList (l : List SymType) : TypeUnion := l.foldl insert ∅

def ofNames (l : List String) : TypeUnion := ofList (l.map .named)

def text (u : TypeUnion) : String := "|".intercalate (u.toList.map SymType.text)

theorem mem_insert {u : TypeUnion} {s t : SymType} :
    s ∈ u.insert t ↔ (s = t ∧ t.isEncodable = true) ∨ s ∈ u := by
  unfold insert
  split
  · next h => exact SortedSet.mem_insert.trans (by simp [h]; rfl)
  · next h => simp [h]

theorem mem_ofList {l : List SymType} {t : SymType} :
    t ∈ ofList l ↔ t ∈ l ∧ t.isEncodable = true := by
  have hfold (u : TypeUnion) : t ∈ l.foldl insert u ↔ t ∈ u ∨ t ∈ l ∧ t.isEncodable = true := by
    induction l generalizing u with
    | nil => simp
    | cons s l ih =>
      rw [List.foldl_cons, ih, mem_insert, List.mem_cons, or_and_right, ← or_assoc]
      refine or_congr_left ?_
      rw [or_comm]
      refine or_congr_right (and_congr_right ?_)
      rintro rfl
      rfl
  rw [ofList, hfold]
  exact or_iff_right SortedSet.not_mem_empty

theorem ext {u v : TypeUnion} (h : ∀ t, t ∈ u ↔ t ∈ v) : u = v := by
  obtain ⟨s, hs⟩ := u
  obtain ⟨t, ht⟩ := v
  obtain rfl : s = t := SortedSet.ext h
  rfl

end TypeUnion

end SymbolicTypes
