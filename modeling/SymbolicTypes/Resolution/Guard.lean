import SymbolicTypes.SymType.Basic

namespace SymbolicTypes

/-- The expansions that have begun: each type with the class that `static` stood for, which is
empty outside of any class. -/
structure Guard where
  pairs : List (String × SymType) := []
  nodup : pairs.Nodup := by simp

namespace Guard

instance : EmptyCollection Guard := ⟨{}⟩

instance : Membership (String × SymType) Guard := ⟨fun g p => p ∈ g.pairs⟩

def contains (g : Guard) (context : String) (t : SymType) : Bool := (context, t) ∈ g.pairs

def insert (g : Guard) (context : String) (t : SymType) : Guard :=
  if h : (context, t) ∈ g.pairs then g
  else ⟨(context, t) :: g.pairs, List.nodup_cons.2 ⟨h, g.nodup⟩⟩

def size (g : Guard) : Nat := g.pairs.length

theorem mem_insert {g : Guard} {context : String} {t : SymType} {p : String × SymType} :
    p ∈ g.insert context t ↔ p = (context, t) ∨ p ∈ g := by
  unfold insert
  split
  · next h => exact ⟨.inr, fun hp => hp.elim (fun e => e ▸ h) id⟩
  · exact List.mem_cons

end Guard

end SymbolicTypes
