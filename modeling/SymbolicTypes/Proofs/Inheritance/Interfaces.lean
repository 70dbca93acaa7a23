import SymbolicTypes.Inheritance.Implements
import SymbolicTypes.Proofs.Inheritance.PathSearch
import SymbolicTypes.Proofs.Inheritance.Visit

namespace SymbolicTypes

open Query Naming

namespace Codebase

def Extends (b : Codebase) (name next : String) : Prop :=
  ∃ c, b.class? name = some c ∧ next ∈ c.parentInterfaces

def Descends (b : Codebase) (name next : String) : Prop :=
  ∃ c, b.class? name = some c ∧ c.parent = some next ∧ next ≠ ""

/-- An interface is the target or extends it at some distance, by any spelling of its name. -/
def IsOrExtends (b : Codebase) (target name : String) : Prop :=
  ∃ last, Relation.ReflTransGen b.Extends name last ∧ normalize last = normalize target

def Implements (b : Codebase) (target name : String) : Prop :=
  ∃ d c, Relation.ReflTransGen b.Descends name d ∧ b.class? d = some c ∧
    ∃ i ∈ c.interfaces, b.IsOrExtends target i

end Codebase

namespace Ancestry

variable {b : Codebase} {target : String}

def ExtendsOther (target : String) (c : ClassDecl) : Prop :=
  ∀ n ∈ c.parentInterfaces, normalize n ≠ normalize target

def toward (ix : Index) (target : String) (depth : Nat) (name : String) : Query Ancestry Bool :=
  if same name target then Pure.pure true else extendsFrom ix target depth name

theorem extendsFrom_succ (ix : Index) (target : String) (depth : Nat) (name : String) :
    extendsFrom ix target (depth + 1) name =
      Query.visit Ancestry.interfaces
        (fun a => { a with interfaces := normalize name :: a.interfaces }) ix name
        fun c => Query.anyOf (toward ix target depth) c.parentInterfaces := rfl

theorem toward_tells (classes : List String) (depth : Nat) (path : List String) (name : String) :
    Tells Ancestry.interfaces
      (fun a => Underway b (ExtendsOther target) ClassDecl.parentInterfaces depth path a.interfaces ∧
        a.classes = classes)
      (toward b.index target depth name) (b.IsOrExtends target name)
      (normalize name ≠ normalize target) [name] := by
  induction depth generalizing path name with
  | zero => exact fun a ha => absurd ha.1.card (Nat.not_lt_zero _)
  | succ depth ih =>
    by_cases htarget : normalize name = normalize target
    · rw [toward, same, if_pos (by simpa using htarget)]
      exact tells_true ⟨name, .refl, htarget⟩ _
    rw [toward, same, if_neg (by simpa using htarget), extendsFrom_succ]
    -- the search tests the names that a class leads to, so the one it starts from is not tested
    refine Tells.imp (tells_visit (fun _ => rfl) (fun _ => id) fun c hc => ?_) id fun _ => htarget
    refine (Tells.anyOf (ih (normalize name :: path)) c.parentInterfaces).imp ?_ id
    rintro ⟨n, hn, last, hreach, hlast⟩
    exact ⟨last, .head ⟨c, hc, hn⟩ hreach, hlast⟩

theorem not_isOrExtends {seen : List String} {name : String}
    (h : Explored b.class? (ExtendsOther target) ClassDecl.parentInterfaces [] seen)
    (hname : normalize name ∈ seen) (htarget : normalize name ≠ normalize target) :
    ¬ b.IsOrExtends target name := by
  rintro ⟨last, hreach, hlast⟩
  cases hreach with
  | refl => exact htarget hlast
  | tail hreach hstep =>
    obtain ⟨c, hc, hn⟩ := hstep
    exact h.clear_of_reaches hname hreach hc _ hn hlast

def ImplementsOther (b : Codebase) (target : String) (c : ClassDecl) : Prop :=
  ∀ i ∈ c.interfaces, ¬ b.IsOrExtends target i

theorem interfaces_tell {inv : List String → Prop} {c : ClassDecl}
    (hother : ∀ i ∈ c.interfaces, normalize i ≠ normalize target) :
    Tells Ancestry.classes
      (fun a => inv a.classes ∧
        Explored b.class? (ExtendsOther target) ClassDecl.parentInterfaces [] a.interfaces)
      (Query.anyOf (extendsFrom b.index target b.depth) c.interfaces)
      (∃ i ∈ c.interfaces, b.IsOrExtends target i) (ImplementsOther b target c) [] := by
  rintro a ⟨hinv, hexplored⟩
  have htoward : Query.anyOf (extendsFrom b.index target b.depth) c.interfaces =
      Query.anyOf (toward b.index target b.depth) c.interfaces := by
    refine anyOf_congr fun i hi => ?_
    rw [toward, same, if_neg (by simpa using hother i hi)]
  have hcard : (b.unmet a.interfaces).card < b.depth :=
    Nat.lt_of_le_of_lt (b.card_unmet_le (List.nil_subset _)) b.card_unmet_lt_depth
  obtain ⟨r, t, hrun, hyes, hno⟩ := Tells.anyOf (toward_tells a.classes b.depth []) c.interfaces a
    ⟨⟨hexplored, hcard⟩, rfl⟩
  rw [← htoward] at hrun
  refine ⟨r, t, hrun, hyes, fun hr => ?_⟩
  obtain ⟨-, ⟨hunderway, hclasses⟩, -, hmet⟩ := hno hr
  have hnot : ImplementsOther b target c :=
    fun i hi => not_isOrExtends hunderway.explored (hmet i hi) (hother i hi)
  exact ⟨hnot, ⟨hclasses ▸ hinv, hunderway.explored⟩, hclasses ▸ List.Subset.refl _, by simp⟩

theorem implementsFrom_succ (ix : Index) (target : String) (depth : Nat) (name : String) :
    implementsFrom ix target (depth + 1) name =
      Query.visit Ancestry.classes (fun a => { a with classes := normalize name :: a.classes }) ix
        name fun c =>
        if c.interfaces.any fun i => same i target then Pure.pure true
        else (do
          if ← Query.anyOf (extendsFrom ix target ix.codebase.depth) c.interfaces then
            Pure.pure true
          else Query.anyOf (implementsFrom ix target depth) c.parents) := rfl

theorem implementsFrom_tells (depth : Nat) (path : List String) (name : String) :
    Tells Ancestry.classes
      (fun a => Underway b (ImplementsOther b target) ClassDecl.parents depth path a.classes ∧
        Explored b.class? (ExtendsOther target) ClassDecl.parentInterfaces [] a.interfaces)
      (implementsFrom b.index target depth name) (b.Implements target name) True [name] := by
  induction depth generalizing path name with
  | zero => exact fun a ha => absurd ha.1.card (Nat.not_lt_zero _)
  | succ depth ih =>
    rw [implementsFrom_succ]
    refine tells_visit (fun _ => rfl) (fun _ => id) fun c hc => ?_
    have hself (h : ∃ i ∈ c.interfaces, b.IsOrExtends target i) : b.Implements target name :=
      ⟨name, c, .refl, hc, h⟩
    by_cases hany : ∃ i ∈ c.interfaces, normalize i = normalize target
    · obtain ⟨i, hi, htarget⟩ := hany
      rw [if_pos (List.any_eq_true.mpr ⟨i, hi, by simpa [same] using htarget⟩)]
      exact tells_true (hself ⟨i, hi, i, .refl, htarget⟩) _
    · rw [if_neg (by simpa [same] using hany)]
      refine ((interfaces_tell (by simpa using hany)).orElse
        (Tells.anyOf (ih (normalize name :: path)) c.parents)).imp ?_ And.left
      rintro (h | ⟨n, hn, d, e, hreach, he, h⟩)
      · exact hself h
      · exact ⟨d, e, .head ⟨c, hc, ClassDecl.mem_parents_iff.mp hn⟩ hreach, he, h⟩

theorem not_implements {seen : List String} {host : String}
    (h : Explored b.class? (ImplementsOther b target) ClassDecl.parents [] seen)
    (hhost : normalize host ∈ seen) : ¬ b.Implements target host := by
  rintro ⟨name, c, hreach, hc, i, hi, hi'⟩
  have hparents : Relation.ReflTransGen (fun a n => ∃ c, b.class? a = some c ∧ n ∈ c.parents)
      host name :=
    Relation.ReflTransGen.mono
      (fun _ _ ⟨d, hd, hn⟩ => ⟨d, hd, ClassDecl.mem_parents_iff.mpr hn⟩) host name hreach
  exact h.clear_of_reaches hhost hparents hc i hi hi'

theorem exists_returns_implementsFrom (b : Codebase) (target host : String) :
    ∃ r a, (implementsFrom b.index target b.depth host).Returns {} r a ∧
      (r = true ↔ b.Implements target host) := by
  have hstart := Underway.start b (ImplementsOther b target) ClassDecl.parents
  have hinterfaces := Underway.start b (ExtendsOther target) ClassDecl.parentInterfaces
  obtain ⟨r, a, hrun, hyes, hno⟩ := implementsFrom_tells b.depth [] host {}
    ⟨hstart, hinterfaces.explored⟩
  refine ⟨r, a, hrun, hyes, fun himplements => ?_⟩
  cases r with
  | true => rfl
  | false =>
    obtain ⟨-, ⟨hunderway, -⟩, -, hhost⟩ := hno rfl
    exact absurd himplements (not_implements hunderway.explored (hhost host List.mem_cons_self))

end Ancestry

namespace Codebase

theorem isOrExtends_iff {b : Codebase} {target name : String} :
    b.IsOrExtends target name ↔ normalize name = normalize target ∨
      ∃ last, Relation.TransGen b.Extends name last ∧ normalize last = normalize target := by
  simp only [IsOrExtends, Relation.reflTransGen_iff_eq_or_transGen, or_and_right, exists_or,
    exists_eq_left]

/-- A class implements an interface just if the class or one of its parents names it among its
interfaces, or an interface from which it is reached by what interfaces extend. -/
theorem implements_eq_true_iff (b : Codebase) (host interface : String) :
    ∃ r, (∀ (σ : Type) (s : σ), (b.index.implements host interface).Returns s r s) ∧
      (r = true ↔ ∃ name c, Relation.ReflTransGen b.Descends host name ∧ b.class? name = some c ∧
        ∃ i ∈ c.interfaces, normalize i = normalize interface ∨
          ∃ last, Relation.TransGen b.Extends i last ∧ normalize last = normalize interface) := by
  obtain ⟨r, a, hrun, hr⟩ := Ancestry.exists_returns_implementsFrom b interface host
  refine ⟨r, fun σ s => hrun.isolated s, hr.trans ?_⟩
  simp only [Implements, isOrExtends_iff]

example :
    let b := ({} : Codebase)
      |>.insertClass { name := "A", parent := some "B" }
      |>.insertClass { name := "B", parent := some "\\A", interfaces := ["I"] }
      |>.insertClass { name := "I", parentInterfaces := ["\\J"] }
      |>.insertClass { name := "J", parentInterfaces := ["I", "K"] }
    (b.index.implements "A" "\\K" ()).answer = .ok true ∧
      (b.index.implements "I" "J" ()).answer = .ok false := by
  exact ⟨rfl, rfl⟩

end Codebase

end SymbolicTypes
