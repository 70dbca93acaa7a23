import SymbolicTypes.Proofs.Inheritance.Interfaces
import SymbolicTypes.Proofs.Inheritance.Scanning

namespace SymbolicTypes

open Query Naming

namespace Ancestry

variable {σ : Type} {b : Codebase} {target : String}

/-- The search through interfaces at one name; `next` goes on to the interfaces it extends. -/
def extendStep (ix : Index) (target : String) (next : String → Query Ancestry Bool)
    (name : String) : Query Ancestry Bool :=
  Query.visit Ancestry.interfaces
    (fun a => { a with interfaces := normalize name :: a.interfaces }) ix name fun c =>
      Query.anyOf (fun p => if same p target then Pure.pure true else next p) c.parentInterfaces

/-- The search along the parents at one name; `next` goes on to its parent, and
`extendsTarget` to its interfaces. -/
def implementStep (ix : Index) (target : String) (extendsTarget next : String → Query Ancestry Bool)
    (name : String) : Query Ancestry Bool :=
  Query.visit Ancestry.classes (fun a => { a with classes := normalize name :: a.classes }) ix name
    fun c =>
      if c.interfaces.any fun i => same i target then Pure.pure true
      else (do
        if ← Query.anyOf extendsTarget c.interfaces then Pure.pure true
        else Query.anyOf next c.parents)

theorem extendsFrom_eq_iterate (ix : Index) (target : String) (depth : Nat) :
    extendsFrom ix target depth = (extendStep ix target)^[depth] fun _ => return false := by
  induction depth with
  | zero => rfl
  | succ depth ih =>
    rw [Function.iterate_succ_apply', ← ih]
    rfl

theorem implementsFrom_eq_iterate (ix : Index) (target : String) (depth : Nat) :
    implementsFrom ix target depth =
      (implementStep ix target (extendsFrom ix target ix.codebase.depth))^[depth]
        fun _ => return false := by
  induction depth with
  | zero => rfl
  | succ depth ih =>
    rw [Function.iterate_succ_apply', ← ih]
    rfl

structure Rosters (b : Codebase) (j k : Nat) (a : Ancestry) : Prop where
  interfaces : b.Roster j a.interfaces
  classes : b.Roster k a.classes

def keysMet (b : Codebase) (a : Ancestry) : List String :=
  a.classes.filter (· ∈ b.classes.keys) ++ a.interfaces.filter (· ∈ b.classes.keys)

variable {j k : Nat} {extendsTarget extendsTarget' next next' : String → Query Ancestry Bool}

theorem extendStep_logs
    (h : ∀ n, Logs b.scanned? (keysMet b) (Rosters b j k) (next n) (next' n)) (name : String) :
    Logs b.scanned? (keysMet b) (Rosters b (j + 1) k) (extendStep b.index target next name)
      (extendStep b.index target next' name) := by
  have hless (a : Ancestry) (ha : Rosters b j k a) : Rosters b (j + 1) k a :=
    ⟨ha.interfaces.succ, ha.classes⟩
  refine Codebase.logs_scan (b.looksUp_class? name) (fun a => ?_)
    (fun _ ha hmet => ⟨ha.interfaces.skip hmet, ha.classes⟩)
    (fun _ hc _ ha hmet => ⟨ha.interfaces.enter (.inl (SortedMap.mem_keys hc)) hmet, ha.classes⟩)
    hless (composes_logs.pure false) (fun c _ => composes_logs.anyOf (fun n => ?_) _)
    (composes_logs.pure false)
  · -- what is shown begins with the classes, so the new interface stands after them
    rw [keysMet, Codebase.filter_cons_of_isSome_iff Codebase.isSome_class?_iff]
    exact List.perm_append_comm_assoc _ _ _
  · split
    · exact composes_logs.pure true
    · exact h n

theorem implementStep_logs
    (hextends : ∀ n, Logs b.scanned? (keysMet b) (Rosters b j k) (extendsTarget n) (extendsTarget' n))
    (h : ∀ n, Logs b.scanned? (keysMet b) (Rosters b j k) (next n) (next' n)) (name : String) :
    Logs b.scanned? (keysMet b) (Rosters b j (k + 1))
      (implementStep b.index target extendsTarget next name)
      (implementStep b.index target extendsTarget' next' name) := by
  have hless (a : Ancestry) (ha : Rosters b j k a) : Rosters b j (k + 1) a :=
    ⟨ha.interfaces, ha.classes.succ⟩
  refine Codebase.logs_scan (b.looksUp_class? name) (fun a => ?_)
    (fun _ ha hmet => ⟨ha.interfaces, ha.classes.skip hmet⟩)
    (fun _ hc _ ha hmet => ⟨ha.interfaces, ha.classes.enter (.inl (SortedMap.mem_keys hc)) hmet⟩)
    hless (composes_logs.pure false) (fun c _ => ?_) (composes_logs.pure false)
  · rw [keysMet, Codebase.filter_cons_of_isSome_iff Codebase.isSome_class?_iff, List.append_assoc]
    exact .refl _
  · split
    · exact composes_logs.pure true
    · refine composes_logs.bind (composes_logs.anyOf hextends _) fun yes => ?_
      cases yes with
      | true => exact composes_logs.pure true
      | false => exact composes_logs.anyOf h _

theorem iterate_implementStep_logs (b : Codebase) (target : String) {inner inner' outer outer' : Nat}
    (hinner : b.depth ≤ inner) (hinner' : b.depth ≤ inner') (houter : b.depth ≤ outer)
    (houter' : b.depth ≤ outer') (bottom bottom' rest rest' : String → Query Ancestry Bool)
    (host : String) :
    Logs b.scanned? (keysMet b) (Rosters b b.depth b.depth)
      ((implementStep b.index target ((extendStep b.index target)^[inner] bottom))^[outer] rest host)
      ((implementStep b.index target ((extendStep b.index target)^[inner'] bottom'))^[outer'] rest'
        host) := by
  have hextends (k : Nat) (n : String) : Logs b.scanned? (keysMet b) (Rosters b b.depth k)
      ((extendStep b.index target)^[inner] bottom n)
      ((extendStep b.index target)^[inner'] bottom' n) :=
    logs_iterate (fun j => Rosters b j k) (fun _ h => Nat.not_lt_zero _ h.interfaces.card)
      (fun _ _ _ h => extendStep_logs h) hinner hinner' bottom bottom' n
  exact logs_iterate (Rosters b b.depth) (fun _ h => Nat.not_lt_zero _ h.classes.card)
    (fun k _ _ h => implementStep_logs (hextends k) h) houter houter' rest rest' host

theorem exists_outcome_iterate_implementStep (b : Codebase) (target host : String) :
    ∃ yes a steps, (∀ inner outer, b.depth ≤ inner → b.depth ≤ outer → ∀ bottom rest,
      (implementStep b.index target ((extendStep b.index target)^[inner] bottom))^[outer] rest host {} =
        ⟨.ok yes, a, steps⟩) ∧ Rosters b b.depth b.depth a ∧
      (keysMet b a).Perm (b.scanned steps) := by
  have hstart : Rosters b b.depth b.depth {} := ⟨.start b, .start b⟩
  obtain ⟨yes, a, steps, hrun, ha, hkeys⟩ := exists_outcome_of_logs
    (fun i : (Nat × _) × Nat × _ => (implementStep b.index target
      ((extendStep b.index target)^[i.1.1] i.1.2))^[i.2.1] i.2.2 host)
    (fun i => b.depth ≤ i.1.1 ∧ b.depth ≤ i.2.1)
    (fun i j hi hj => iterate_implementStep_logs b target hi.1 hj.1 hi.2 hj.2 i.1.2 j.1.2 i.2.2 j.2.2
      host) hstart rfl
    ((b.depth, fun _ => return false), b.depth, fun _ => return false) ⟨Nat.le_refl _, Nat.le_refl _⟩
  exact ⟨yes, a, steps, fun inner outer hinner houter bottom rest =>
    hrun ((inner, bottom), outer, rest) ⟨hinner, houter⟩, ha, hkeys⟩

/-- The search for an interface comes to an answer, whatever it would do deeper than classes can lie.
The keys that it scans are those it has met as classes and those it has met as interfaces, and none is
met in one way twice. -/
structure ScansOnce (b : Codebase) (target host : String) (a : Ancestry) (s : σ)
    (r : Outcome σ Bool) : Prop where
  answers : ∃ yes, r.answer = .ok yes
  ends : ∀ inner outer, b.depth ≤ inner → b.depth ≤ outer → ∀ bottom rest,
    Query.isolated {} ((implementStep b.index target
      ((extendStep b.index target)^[inner] bottom))^[outer] rest host) s = r
  scanned : (b.scanned r.steps).Perm
    (a.classes.filter (· ∈ b.classes.keys) ++ a.interfaces.filter (· ∈ b.classes.keys))
  classes_nodup : a.classes.Nodup
  classes_le : (a.classes.filter (· ∈ b.classes.keys)).length ≤ b.classes.keys.toFinset.card
  interfaces_nodup : a.interfaces.Nodup
  interfaces_le : (a.interfaces.filter (· ∈ b.classes.keys)).length ≤ b.classes.keys.toFinset.card

theorem scansOnce_implements (b : Codebase) (target host : String) (s : σ) :
    ScansOnce b target host (implementsFrom b.index target b.depth host {}).state s
      (b.index.implements host target s) := by
  obtain ⟨yes, a, steps, hrun, ha, hkeys⟩ := exists_outcome_iterate_implementStep b target host
  have himplements : implementsFrom b.index target b.depth host {} = ⟨.ok yes, a, steps⟩ := by
    rw [implementsFrom_eq_iterate, extendsFrom_eq_iterate]
    exact hrun _ _ (Nat.le_refl _) (Nat.le_refl _) _ _
  have hsearch : b.index.implements host target s = ⟨.ok yes, s, steps⟩ :=
    isolated_eq himplements s
  rw [himplements, hsearch]
  refine ⟨⟨yes, rfl⟩, fun inner outer hinner houter bottom rest => ?_, hkeys.symm,
    ha.classes.nodup, Codebase.length_filter_mem_le ha.classes.nodup _,
    ha.interfaces.nodup, Codebase.length_filter_mem_le ha.interfaces.nodup _⟩
  exact isolated_eq (hrun inner outer hinner houter bottom rest) s

end Ancestry

namespace Codebase

variable {σ : Type}

/-- Whatever the ways from class to class are, every search comes to an end and scans a key once at
most, and the search for an interface once as a class and once as an interface. -/
theorem scans_once (b : Codebase) (host name : String) (s : σ) :
    (SearchPlan.method name).ScansOnce b (b.classes.keys ++ b.traits.keys) host s
      (b.index.findMethod host name s) ∧
    (SearchPlan.property name).ScansOnce b b.classes.keys host s
      (b.index.findProperty host name s) ∧
    (SearchPlan.constant name).ScansOnce b b.classes.keys host s
      (b.index.findConstant host name s) ∧
    Ancestry.ScansOnce b name host (Ancestry.implementsFrom b.index name b.depth host {}).state s
      (b.index.implements host name s) :=
  ⟨SearchPlan.scansOnce_run _ b host s, SearchPlan.scansOnce_run _ b host s,
    SearchPlan.scansOnce_run _ b host s, Ancestry.scansOnce_implements b name host s⟩

example :
    let b := ({} : Codebase)
      |>.insertClass { name := "A", parent := some "B", interfaces := ["A"] }
      |>.insertClass { name := "B", parent := some "\\A", traits := ["T", "none", "\\T"] }
      |>.insertTrait { name := "T", traits := ["T", "B"] }
    b.scanned (b.index.findMethod "A" "m" ()).steps = ["A", "B", "T"] ∧
      b.scanned (b.index.implements "A" "I" ()).steps = ["A", "A", "B"] := by
  exact ⟨rfl, rfl⟩

end Codebase

end SymbolicTypes
