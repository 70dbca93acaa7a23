import Mathlib.Data.Finset.Card
import Mathlib.Logic.Function.Iterate
import SymbolicTypes.Proofs.Inheritance.Search

namespace SymbolicTypes

open Query

theorem card_sdiff_insert_lt {α : Type} [DecidableEq α] {all seen : Finset α} {a : α}
    (ha : a ∈ all) (hseen : a ∉ seen) : (all \ insert a seen).card < (all \ seen).card := by
  have hleft : a ∈ all \ seen := Finset.mem_sdiff.mpr ⟨ha, hseen⟩
  rw [Finset.sdiff_insert]
  exact Finset.card_erase_lt_of_mem hleft

def Codebase.unmet (b : Codebase) (seen : List String) : Finset String :=
  (b.classes.keys ++ b.traits.keys).toFinset \ seen.toFinset

theorem Codebase.card_unmet_cons_lt {b : Codebase} {seen : List String} {name : String}
    (h : name ∈ b.classes.keys ∨ name ∈ b.traits.keys) (hseen : name ∉ seen) :
    (b.unmet (name :: seen)).card < (b.unmet seen).card := by
  rw [unmet, List.toFinset_cons]
  apply card_sdiff_insert_lt
  · exact List.mem_toFinset.mpr (List.mem_append.mpr h)
  · exact fun hin => hseen (List.mem_toFinset.mp hin)

theorem Codebase.card_unmet_le (b : Codebase) {seen seen' : List String} (h : seen ⊆ seen') :
    (b.unmet seen').card ≤ (b.unmet seen).card := by
  apply Finset.card_le_card
  apply Finset.sdiff_subset_sdiff subset_rfl
  intro n hn
  exact List.mem_toFinset.mpr (h (List.mem_toFinset.mp hn))

theorem Codebase.card_unmet_lt_depth (b : Codebase) : (b.unmet []).card < b.depth := by
  have hcard : (b.unmet []).card ≤ (b.classes.keys ++ b.traits.keys).length :=
    (Finset.card_le_card Finset.sdiff_subset).trans (List.toFinset_card_le _)
  rw [List.length_append, SortedMap.keys, SortedMap.keys, List.length_map, List.length_map] at hcard
  exact Nat.lt_succ_of_le hcard

namespace SearchPlan

variable {M : Type}

theorem search_eq_iterate (p : SearchPlan M) (ix : Index) (depth : Nat) :
    p.search ix depth = (p.visit ix)^[depth] fun _ => return none := by
  induction depth with
  | zero =>
    funext name
    rfl
  | succ depth ih =>
    rw [Function.iterate_succ_apply', ← ih, search_succ]

end SearchPlan

end SymbolicTypes
