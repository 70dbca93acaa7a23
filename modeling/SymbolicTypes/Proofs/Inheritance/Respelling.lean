import SymbolicTypes.Proofs.Codebase.Respelling
import SymbolicTypes.Proofs.Inheritance.Interfaces

namespace SymbolicTypes

open Query Naming

structure Located.Respells {M : Type} (found found' : Located M) : Prop where
  member : found.member = found'.member
  host : normalize found.host = normalize found'.host

namespace Query

variable {σ α α' β β' : Type}

/-- From every state the two queries come to related answers and to one state. -/
def Mirrors (V : α → α' → Prop) (q : Query σ α) (q' : Query σ α') : Prop :=
  ∀ s, ∃ a a' t, q.Returns s a t ∧ q'.Returns s a' t ∧ V a a'

variable {V : α → α' → Prop} {W : β → β' → Prop} {N : String → String → Prop}

theorem mirrors_pure {a : α} {a' : α'} (h : V a a') :
    Mirrors (σ := σ) V (Pure.pure a) (Pure.pure a') :=
  fun s => ⟨a, a', s, returns_pure a s, returns_pure a' s, h⟩

theorem Mirrors.bind {q : Query σ α} {q' : Query σ α'} {f : α → Query σ β} {f' : α' → Query σ β'}
    (hq : Mirrors V q q') (hf : ∀ a a', V a a' → Mirrors W (f a) (f' a')) :
    Mirrors W (q >>= f) (q' >>= f') := by
  intro s
  obtain ⟨a, a', t, hq, hq', ha⟩ := hq s
  obtain ⟨b, b', u, hf, hf', hb⟩ := hf a a' ha t
  exact ⟨b, b', u, hq.bind hf, hq'.bind hf', hb⟩

theorem mirrors_note (met : σ → Prop) [DecidablePred met] (add : σ → σ) :
    Mirrors Eq (note met add) (note met add) := by
  intro s
  by_cases h : met s
  · exact ⟨false, false, s, returns_note_of_met h, returns_note_of_met h, rfl⟩
  · exact ⟨true, true, add s, returns_note_of_not_met h, returns_note_of_not_met h, rfl⟩

theorem mirrors_firstSome {f : String → Query σ (Option β)} {f' : String → Query σ (Option β')}
    (h : ∀ n n', N n n' → Mirrors (Option.Rel W) (f n) (f' n')) {names names' : List String}
    (hnames : List.Forall₂ N names names') :
    Mirrors (Option.Rel W) (firstSome f names) (firstSome f' names') := by
  induction hnames with
  | nil => exact mirrors_pure .none
  | cons hn _ ih =>
    apply (h _ _ hn).bind
    intro o o' ho
    cases ho with
    | some hb => exact mirrors_pure (.some hb)
    | none => exact ih

theorem mirrors_anyOf {f f' : String → Query σ Bool}
    (h : ∀ n n', N n n' → Mirrors Eq (f n) (f' n')) {names names' : List String}
    (hnames : List.Forall₂ N names names') : Mirrors Eq (anyOf f names) (anyOf f' names') := by
  induction hnames with
  | nil => exact mirrors_pure rfl
  | cons hn _ ih =>
    apply (h _ _ hn).bind
    rintro r _ rfl
    cases r with
    | true => exact mirrors_pure rfl
    | false => exact ih

end Query

namespace Codebase.Respells

variable {σ M : Type} {b b' : Codebase}

theorem mirrors_class? (h : b.Respells b') {n n' : String}
    (hn : normalize n = normalize n') :
    Mirrors (σ := σ) (Option.Rel ClassDecl.Respells) (b.index.class? n) (b'.index.class? n') := by
  obtain ⟨_, rfl, hclass⟩ := b.knows_class? (σ := σ) n
  obtain ⟨_, rfl, hclass'⟩ := b'.knows_class? (σ := σ) n'
  exact fun s => ⟨_, _, s, hclass s, hclass' s, h.class? hn⟩

theorem mirrors_classOrTrait? (h : b.Respells b') {n n' : String}
    (hn : normalize n = normalize n') :
    Mirrors (σ := σ) (Option.Rel ClassDecl.Respells) (b.index.classOrTrait? n)
      (b'.index.classOrTrait? n') := by
  apply (h.mirrors_class? hn).bind
  intro o o' ho
  cases ho with
  | some hc => exact mirrors_pure (.some hc)
  | none =>
    obtain ⟨_, rfl, htrait⟩ := b.knows_trait? (σ := σ) n
    obtain ⟨_, rfl, htrait'⟩ := b'.knows_trait? (σ := σ) n'
    exact fun s => ⟨_, _, s, htrait s, htrait' s, h.trait? hn⟩

theorem mirrors_describe (h : b.Respells b') (p : SearchPlan M) {n n' : String}
    (hn : normalize n = normalize n') :
    Mirrors (σ := σ) (Option.Rel ClassDecl.Respells) (p.describe b.index n)
      (p.describe b'.index n') := by
  unfold SearchPlan.describe
  split
  · exact h.mirrors_classOrTrait? hn
  · exact h.mirrors_class? hn

end Codebase.Respells

namespace SearchPlan

variable {M : Type} {b b' : Codebase} {p : SearchPlan M}

structure IgnoresSpelling (p : SearchPlan M) : Prop where
  own {c c' : ClassDecl} : c.Respells c' → p.own c = p.own c'
  before {c c' : ClassDecl} : c.Respells c' → List.Forall₂ Naming.Respells (p.before c) (p.before c')
  after {c c' : ClassDecl} : c.Respells c' → List.Forall₂ Naming.Respells (p.after c) (p.after c')

theorem ignoresSpelling_method (name : String) : (method name).IgnoresSpelling where
  own h := by simp only [method, ClassDecl.method?, h.methods]
  before _ := .nil
  after h := List.rel_append (List.rel_append h.traits h.parentInterfaces) h.parents

theorem ignoresSpelling_property (name : String) : (property name).IgnoresSpelling where
  own h := by simp only [property, ClassDecl.property?, h.properties]
  before _ := .nil
  after h := h.parents

theorem ignoresSpelling_constant (name : String) : (constant name).IgnoresSpelling where
  own h := by simp only [constant, ClassDecl.constant?, h.constants]
  before h := h.interfaces
  after h := List.rel_append h.parentInterfaces h.parents

theorem explore_mirrors {σ : Type} (hp : p.IgnoresSpelling)
    {next next' : String → Query σ (Option (Located M))}
    (h : ∀ n n', Naming.Respells n n' → Mirrors (Option.Rel Located.Respells) (next n) (next' n'))
    {n n' : String} (hn : normalize n = normalize n') {c c' : ClassDecl} (hc : c.Respells c') :
    Mirrors (Option.Rel Located.Respells) (p.explore next n c) (p.explore next' n' c') := by
  apply (mirrors_firstSome h (hp.before hc)).bind
  intro o o' ho
  cases ho with
  | some hfound => exact mirrors_pure (.some hfound)
  | none =>
    rw [hp.own hc]
    cases p.own c' with
    | some m => exact mirrors_pure (.some ⟨rfl, hn⟩)
    | none => exact mirrors_firstSome h (hp.after hc)

theorem visit_mirrors (hb : b.Respells b') (hp : p.IgnoresSpelling)
    {next next' : String → Query (List String) (Option (Located M))}
    (h : ∀ n n', Naming.Respells n n' → Mirrors (Option.Rel Located.Respells) (next n) (next' n'))
    {n n' : String} (hn : normalize n = normalize n') :
    Mirrors (Option.Rel Located.Respells) (p.visit b.index next n) (p.visit b'.index next' n') := by
  have hmeet : Mirrors Eq (meet n) (meet n') := by
    rw [meet_eq_note, meet_eq_note, hn]
    exact mirrors_note _ _
  apply hmeet.bind
  rintro new _ rfl
  cases new with
  | false => exact fun seen => ⟨none, none, seen, ⟨rfl, rfl⟩, ⟨rfl, rfl⟩, .none⟩
  | true =>
    apply (hb.mirrors_describe p hn).bind
    intro o o' ho
    cases ho with
    | none => exact mirrors_pure .none
    | some hc => exact explore_mirrors hp h hn hc

theorem search_mirrors (hb : b.Respells b') (hp : p.IgnoresSpelling) (depth : Nat) {n n' : String}
    (hn : normalize n = normalize n') :
    Mirrors (Option.Rel Located.Respells) (p.search b.index depth n) (p.search b'.index depth n') := by
  induction depth generalizing n n' with
  | zero => exact mirrors_pure .none
  | succ depth ih =>
    rw [search_succ, search_succ]
    exact visit_mirrors hb hp (fun _ _ h => ih h.normalize_eq) hn

theorem run_mirrors {σ : Type} (hb : b.Respells b') (hp : p.IgnoresSpelling) {host host' : String}
    (hhost : normalize host = normalize host') :
    Mirrors (σ := σ) (Option.Rel Located.Respells) (p.run b.index host) (p.run b'.index host') := by
  obtain ⟨o, o', seen, hrun, hrun', ho⟩ := search_mirrors hb hp b.depth hhost []
  rw [hb.depth_eq] at hrun'
  exact fun s => ⟨o, o', s, hrun.isolated s, hrun'.isolated s, ho⟩

end SearchPlan

namespace Query

variable {σ : Type}

theorem visit_mirrors {b b' : Codebase} (hb : b.Respells b') {seen : σ → List String}
    {add add' : σ → σ} (hadd : add = add') {n n' : String} (hn : normalize n = normalize n')
    {body body' : ClassDecl → Query σ Bool}
    (hbody : ∀ c c', c.Respells c' → Mirrors Eq (body c) (body' c')) :
    Mirrors Eq (visit seen add b.index n body) (visit seen add' b'.index n' body') := by
  subst hadd
  have hnote : Mirrors Eq (note (normalize n ∈ seen ·) add) (note (normalize n' ∈ seen ·) add) := by
    rw [hn]
    exact mirrors_note _ _
  apply hnote.bind
  rintro new _ rfl
  cases new with
  | false => exact mirrors_pure rfl
  | true =>
    apply (hb.mirrors_class? hn).bind
    intro o o' ho
    cases ho with
    | none => exact mirrors_pure rfl
    | some hc => exact hbody _ _ hc

end Query

namespace Ancestry

variable {b b' : Codebase} {target target' : String}

theorem extendsFrom_mirrors (hb : b.Respells b') (htarget : normalize target = normalize target')
    (depth : Nat) {n n' : String} (hn : normalize n = normalize n') :
    Mirrors Eq (extendsFrom b.index target depth n) (extendsFrom b'.index target' depth n') := by
  induction depth generalizing n n' with
  | zero => exact mirrors_pure rfl
  | succ depth ih =>
    rw [extendsFrom_succ, extendsFrom_succ]
    refine Query.visit_mirrors hb (by rw [hn]) hn fun c c' hc => ?_
    refine mirrors_anyOf (fun m m' hm => ?_) hc.parentInterfaces
    rw [toward, toward, same, same, hm.normalize_eq, htarget]
    split
    · exact mirrors_pure rfl
    · exact ih hm.normalize_eq

theorem any_same_eq {names names' : List String}
    (hnames : List.Forall₂ Naming.Respells names names')
    (htarget : normalize target = normalize target') :
    (names.any fun n => same n target) = names'.any fun n => same n target' := by
  induction hnames with
  | nil => rfl
  | cons hn _ ih =>
    rw [List.any_cons, List.any_cons, ih, same, same, hn.normalize_eq, htarget]

theorem implementsFrom_mirrors (hb : b.Respells b') (htarget : normalize target = normalize target')
    (depth : Nat) {n n' : String} (hn : normalize n = normalize n') :
    Mirrors Eq (implementsFrom b.index target depth n) (implementsFrom b'.index target' depth n') := by
  induction depth generalizing n n' with
  | zero => exact mirrors_pure rfl
  | succ depth ih =>
    rw [implementsFrom_succ, implementsFrom_succ]
    refine Query.visit_mirrors hb (by rw [hn]) hn fun c c' hc => ?_
    rw [any_same_eq hc.interfaces htarget]
    split
    · exact mirrors_pure rfl
    · have hextends : Mirrors Eq
          (Query.anyOf (extendsFrom b.index target b.depth) c.interfaces)
          (Query.anyOf (extendsFrom b'.index target' b'.depth) c'.interfaces) := by
        -- spelling leaves the number of keys as it is, and so the depth of the search
        rw [← hb.depth_eq]
        exact mirrors_anyOf (fun _ _ hm => extendsFrom_mirrors hb htarget _ hm.normalize_eq)
          hc.interfaces
      refine hextends.bind ?_
      rintro yes _ rfl
      cases yes with
      | true => exact mirrors_pure rfl
      | false => exact mirrors_anyOf (fun _ _ hm => ih hm.normalize_eq) hc.parents

theorem implements_mirrors {σ : Type} (hb : b.Respells b')
    (htarget : normalize target = normalize target') {host host' : String}
    (hhost : normalize host = normalize host') :
    Mirrors (σ := σ) Eq (b.index.implements host target) (b'.index.implements host' target') := by
  obtain ⟨yes, yes', a, hrun, hrun', h⟩ := implementsFrom_mirrors hb htarget b.depth hhost {}
  rw [hb.depth_eq] at hrun'
  exact fun s => ⟨yes, yes', s, hrun.isolated s, hrun'.isolated s, h⟩

end Ancestry

namespace Codebase

/-- What is found along the ways from class to class is the same, by whatever spelling names are asked
for, filed and referred to. -/
theorem searches_respell {b b' : Codebase} (h : b.Respells b') {host host' : String}
    (hhost : normalize host = normalize host') {interface interface' : String}
    (hinterface : normalize interface = normalize interface') (σ : Type) (name : String) :
    Mirrors (σ := σ) (Option.Rel Located.Respells) (b.index.findMethod host name)
      (b'.index.findMethod host' name) ∧
    Mirrors (σ := σ) (Option.Rel Located.Respells) (b.index.findProperty host name)
      (b'.index.findProperty host' name) ∧
    Mirrors (σ := σ) (Option.Rel Located.Respells) (b.index.findConstant host name)
      (b'.index.findConstant host' name) ∧
    Mirrors (σ := σ) Eq (b.index.implements host interface)
      (b'.index.implements host' interface') :=
  ⟨SearchPlan.run_mirrors h (SearchPlan.ignoresSpelling_method name) hhost,
    SearchPlan.run_mirrors h (SearchPlan.ignoresSpelling_property name) hhost,
    SearchPlan.run_mirrors h (SearchPlan.ignoresSpelling_constant name) hhost,
    Ancestry.implements_mirrors h hinterface hhost⟩

def cycle (root : String) : Codebase :=
  ({} : Codebase)
    |>.insertClass {
      name := root ++ "A"
      parent := some (root ++ "A")
      traits := [root ++ "T", "\\T"]
      interfaces := ["", root ++ "I"] }
    |>.insertClass { name := "I", parentInterfaces := [root ++ "I", "\\J"] }
    |>.insertTrait { name := root ++ "T", traits := ["\\A"], methods := [{ name := "m" }] }

theorem cycle_respells : (cycle "").Respells (cycle "\\") := by
  unfold cycle
  refine .insertTrait (.insertClass (.insertClass respells_empty ?_) ?_) ?_
  · exact ⟨by decide, .some (by decide), by decide, by decide, by decide, rfl, rfl, rfl⟩
  · exact ⟨by decide, .none, by decide, by decide, by decide, rfl, rfl, rfl⟩
  · exact ⟨by decide, .none, by decide, by decide, by decide, rfl, rfl, rfl⟩

theorem searches_respell_cycle :
    ((cycle "").Respells (cycle "\\") ∧ normalize "A" = normalize "\\A" ∧
      normalize "\\J" = normalize "J") ∧
    Mirrors (σ := Unit) (Option.Rel Located.Respells) ((cycle "").index.findMethod "A" "m")
      ((cycle "\\").index.findMethod "\\A" "m") ∧
    Mirrors (σ := Unit) (Option.Rel Located.Respells) ((cycle "").index.findProperty "A" "m")
      ((cycle "\\").index.findProperty "\\A" "m") ∧
    Mirrors (σ := Unit) (Option.Rel Located.Respells) ((cycle "").index.findConstant "A" "m")
      ((cycle "\\").index.findConstant "\\A" "m") ∧
    Mirrors (σ := Unit) Eq ((cycle "").index.implements "A" "\\J")
      ((cycle "\\").index.implements "\\A" "J") :=
  ⟨⟨cycle_respells, by decide, by decide⟩,
    searches_respell cycle_respells (by decide) (by decide) Unit "m"⟩

example :
    ((cycle "").index.findMethod "A" "m" ()).answer = .ok (some ⟨{ name := "m" }, "T"⟩) ∧
      ((cycle "\\").index.findMethod "\\A" "m" ()).answer = .ok (some ⟨{ name := "m" }, "\\T"⟩) ∧
      ((cycle "\\").index.implements "\\A" "J" ()).answer = .ok true := by
  exact ⟨rfl, rfl, rfl⟩

end Codebase

end SymbolicTypes
