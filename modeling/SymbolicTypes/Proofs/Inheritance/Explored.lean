import Mathlib.Logic.Relation
import SymbolicTypes.Proofs.Inheritance.Termination

namespace SymbolicTypes

open Query Naming

/-- The names that were met are on the path or done: what is done is clear and leads to names that
were met. -/
def Explored (describe : String → Option ClassDecl) (clear : ClassDecl → Prop)
    (next : ClassDecl → List String) (path seen : List String) : Prop :=
  ∀ name c, normalize name ∈ seen → normalize name ∉ path → describe name = some c →
    clear c ∧ ∀ n ∈ next c, normalize n ∈ seen

namespace Explored

variable {describe : String → Option ClassDecl} {clear : ClassDecl → Prop}
  {next : ClassDecl → List String} {path seen : List String}

theorem mono {path' : List String} (h : Explored describe clear next path seen)
    (hpath : path ⊆ path') : Explored describe clear next path' seen :=
  fun name c hseen hname hc => h name c hseen (fun hin => hname (hpath hin)) hc

theorem enter (h : Explored describe clear next path seen) (k : String) :
    Explored describe clear next (k :: path) (k :: seen) := by
  intro name c hname hpath hc
  obtain ⟨hne, hpath⟩ := not_or.mp (mt List.mem_cons.mpr hpath)
  obtain ⟨hclear, hnext⟩ := h name c ((List.mem_cons.mp hname).resolve_left hne) hpath hc
  exact ⟨hclear, fun n hn => List.mem_cons_of_mem _ (hnext n hn)⟩

theorem leave {name : String}
    (hdescribe : ∀ name', normalize name' = normalize name → describe name' = describe name)
    (h : Explored describe clear next (normalize name :: path) seen)
    (hname : ∀ c, describe name = some c → clear c ∧ ∀ n ∈ next c, normalize n ∈ seen) :
    Explored describe clear next path seen := by
  intro name' c hseen hpath hc
  by_cases heq : normalize name' = normalize name
  · rw [hdescribe name' heq] at hc
    exact hname c hc
  · exact h name' c hseen (by simpa [heq] using hpath) hc

/-- With no path left, all that was met is done, so that it is closed under what names lead to. -/
theorem clear_of_reaches (h : Explored describe clear next [] seen) {host name : String}
    {c : ClassDecl} (hhost : normalize host ∈ seen)
    (hreach : Relation.ReflTransGen (fun a b => ∃ c, describe a = some c ∧ b ∈ next c) host name)
    (hc : describe name = some c) : clear c := by
  have hmet {n : String}
      (hreach : Relation.ReflTransGen (fun a b => ∃ c, describe a = some c ∧ b ∈ next c) host n) :
      normalize n ∈ seen := by
    induction hreach with
    | refl => exact hhost
    | tail _ hlast ih =>
      obtain ⟨d, hd, hn⟩ := hlast
      exact (h _ d ih List.not_mem_nil hd).2 _ hn
  exact (h name c (hmet hreach) List.not_mem_nil hc).1

end Explored

end SymbolicTypes
