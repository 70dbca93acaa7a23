import SymbolicTypes.Proofs.Inheritance.PathSearch

namespace SymbolicTypes

open Query Naming

namespace Codebase

variable {b : Codebase} {path : List String} {host name : String} {c : ClassDecl}

def parent? (b : Codebase) (name : String) : Option String :=
  (b.class? name).bind fun c => c.parent.filter (· ≠ "")

/-- The names from a class upwards by their distance, each as its child spells it. -/
def ancestor? (b : Codebase) (host : String) : Nat → Option String
  | 0 => some host
  | i + 1 => (b.ancestor? host i).bind b.parent?

/-- The classes from a name upwards, each with its name as its child spells it. They end where a name
is met again, which may be one on the path that led here, and where a name is no class. -/
def chainFrom (b : Codebase) (path : List String) (name : String) : List (String × ClassDecl) :=
  if _hmet : normalize name ∈ path then []
  else
    match _hc : b.class? name with
    | none => []
    | some c =>
      (name, c) :: (c.parent.filter (· ≠ "")).elim [] fun parent =>
        chainFrom b (normalize name :: path) parent
termination_by (b.unmet path).card
decreasing_by exact card_unmet_cons_lt (.inl (SortedMap.mem_keys _hc)) _hmet

def parentChain (b : Codebase) (host : String) : List (String × ClassDecl) := b.chainFrom [] host

def firstProperty (property : String) (chain : List (String × ClassDecl)) :
    Option (Located TypedName) :=
  chain.findSome? fun e =>
    (e.2.properties.find? fun q => q.name == property).map fun q => ⟨q, e.1⟩

theorem chainFrom_of_mem (h : normalize name ∈ path) : b.chainFrom path name = [] := by
  rw [chainFrom, dif_pos h]

theorem chainFrom_of_none (h : normalize name ∉ path) (hc : b.class? name = none) :
    b.chainFrom path name = [] := by
  rw [chainFrom, dif_neg h]
  split
  · rfl
  · next hd => rw [hc] at hd; cases hd

theorem chainFrom_of_some (h : normalize name ∉ path) (hc : b.class? name = some c) :
    b.chainFrom path name =
      (name, c) :: (b.parent? name).elim [] (b.chainFrom (normalize name :: path)) := by
  have hparent : b.parent? name = c.parent.filter (· ≠ "") := by rw [parent?, hc, Option.bind_some]
  rw [chainFrom, dif_neg h, hparent]
  split
  · next hd => rw [hc] at hd; cases hd
  · next hd =>
    rw [hc] at hd
    cases hd
    rfl

theorem byPath_firstProperty (b : Codebase) (property : String) :
    (SearchPlan.property property).ByPath b
      fun path name => firstProperty property (b.chainFrom path name) where
  of_mem path name h := by
    rw [chainFrom_of_mem h]
    rfl
  of_none path name h hc := by
    rw [chainFrom_of_none h hc]
    rfl
  of_some path name c h hc := by
    have hc : b.class? name = some c := hc
    rw [chainFrom_of_some h hc, parent?, hc]
    simp only [SearchPlan.turn, SearchPlan.property, ClassDecl.property?, List.findSome?_nil,
      Option.none_or, ClassDecl.findSome?_parents]
    rw [Option.bind_some, firstProperty, List.findSome?_cons]
    cases c.properties.find? fun q => q.name == property with
    | some q => rfl
    | none => cases c.parent.filter (· ≠ "") <;> rfl

@[simp]
theorem ancestor?_zero (b : Codebase) (host : String) : b.ancestor? host 0 = some host := rfl

theorem ancestor?_succ (b : Codebase) (host : String) (i : Nat) :
    b.ancestor? host (i + 1) = (b.parent? host).bind fun parent => b.ancestor? parent i := by
  induction i with
  | zero => simp [ancestor?]
  | succ i ih =>
    rw [ancestor?, ih, Option.bind_assoc]
    rfl

def IsNewAt (b : Codebase) (path : List String) (host : String) (i : Nat) : Prop :=
  ∀ name ∈ b.ancestor? host i, normalize name ∉ path ∧
    ∀ j < i, ∀ nearer ∈ b.ancestor? host j, normalize nearer ≠ normalize name

theorem isNewAt_zero : b.IsNewAt path host 0 ↔ normalize host ∉ path := by
  simp [IsNewAt]

theorem isNewAt_succ {parent : String} (hparent : b.parent? host = some parent) {i : Nat} :
    b.IsNewAt path host (i + 1) ↔ b.IsNewAt (normalize host :: path) parent i := by
  have hsucc (i : Nat) : b.ancestor? host (i + 1) = b.ancestor? parent i := by
    rw [ancestor?_succ, hparent, Option.bind_some]
  simp only [IsNewAt, hsucc, Nat.forall_lt_succ_left, ancestor?_zero, Option.mem_some_iff,
    forall_eq', List.mem_cons, not_or]
  refine forall₂_congr fun n _ => ?_
  rw [ne_comm (a := normalize host), and_left_comm, and_assoc]

theorem getElem?_chainFrom {i : Nat} :
    (b.chainFrom path host)[i]? = some (name, c) ↔
      b.ancestor? host i = some name ∧ b.class? name = some c ∧ ∀ j ≤ i, b.IsNewAt path host j := by
  induction path, host using (SearchPlan.property "").pathInduction b generalizing i with
  | of_mem path host hmet =>
    rw [chainFrom_of_mem hmet]
    simp only [List.getElem?_nil, reduceCtorEq, false_iff]
    exact fun h => isNewAt_zero.mp (h.2.2 0 (Nat.zero_le i)) hmet
  | of_none path host hmet hc =>
    have hc : b.class? host = none := hc
    rw [chainFrom_of_none hmet hc]
    simp only [List.getElem?_nil, reduceCtorEq, false_iff]
    rintro ⟨hname, hclass, -⟩
    cases i with
    | zero =>
      obtain rfl : host = name := Option.some.inj hname
      rw [hc] at hclass
      cases hclass
    | succ i =>
      rw [ancestor?_succ, parent?, hc] at hname
      cases hname
  | of_some path host d hmet hc ih =>
    have hc : b.class? host = some d := hc
    rw [chainFrom_of_some hmet hc]
    cases i with
    | zero =>
      simp only [List.getElem?_cons_zero, Option.some.injEq, Prod.mk.injEq, ancestor?_zero,
        Nat.le_zero, forall_eq, isNewAt_zero, hmet, not_false_eq_true, and_true]
      refine and_congr_right fun hname => ?_
      rw [← hname, hc, Option.some.injEq]
    | succ i =>
      rw [List.getElem?_cons_succ, ancestor?_succ]
      cases hparent : b.parent? host with
      | none => simp
      | some parent =>
        rw [Option.elim_some, ih, Option.bind_some]
        refine and_congr_right fun _ => and_congr_right fun _ => ?_
        simp only [← Nat.lt_succ_iff, Nat.forall_lt_succ_left (n := i + 1), isNewAt_zero, hmet,
          not_false_eq_true, true_and, isNewAt_succ hparent]

/-- A property is found just where a class on the parent chain declares one: it is the first of that
name in the first such class, which goes by the name that its child gives it. The chain holds the
classes from parent to parent as far as names are those of classes and none is met again. -/
theorem findProperty_eq_firstProperty (b : Codebase) (host property : String) :
    (∀ (σ : Type) (s : σ), (b.index.findProperty host property).Returns s
      (firstProperty property (b.parentChain host)) s) ∧
    ((firstProperty property (b.parentChain host)).isSome = true ↔
      ∃ e ∈ b.parentChain host, ∃ q ∈ e.2.properties, q.name = property) ∧
    ∀ i name c, (b.parentChain host)[i]? = some (name, c) ↔
      b.ancestor? host i = some name ∧ b.class? name = some c ∧
        ∀ j ≤ i, ∀ m ∈ b.ancestor? host j, ∀ k < j, ∀ n ∈ b.ancestor? host k,
          normalize n ≠ normalize m := by
  refine ⟨fun σ s => (b.byPath_firstProperty property).returns_run host s, ?_, fun i name c => ?_⟩
  · simp [firstProperty]
  · rw [parentChain, getElem?_chainFrom]
    simp only [IsNewAt, List.not_mem_nil, not_false_eq_true, true_and]

example :
    let b := ({} : Codebase)
      |>.insertClass { name := "A", parent := some "\\B", properties := [{ name := "p" }] }
      |>.insertClass { name := "B", parent := some "\\A", traits := ["T"] }
      |>.insertTrait { name := "T", properties := [{ name := "q" }] }
    (b.index.findProperty "B" "p" ()).answer = .ok (some ⟨{ name := "p" }, "\\A"⟩) ∧
      (b.index.findProperty "B" "q" ()).answer = .ok none :=
  ⟨rfl, rfl⟩

end Codebase

end SymbolicTypes
