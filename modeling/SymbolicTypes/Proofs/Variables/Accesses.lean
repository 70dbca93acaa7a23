import SymbolicTypes.Proofs.Text.ByteOrder
import SymbolicTypes.Variables

namespace SymbolicTypes

open Visitor

/-- What the way down to a place says about it: whether it is in the name of a variable, and whether
variables are written there. -/
structure Place where
  inName : Bool := false
  isWrite : Bool := false

structure Access where
  name : String
  isWrite : Bool

namespace Node

def namePlace (p : Place) : Node → Place
  | identifier _ => { inName := true, isWrite := p.isWrite }
  | _ => { inName := true }

mutual

/-- The accesses in a tree that stands at a place. A child is at the place of its parent unless it
is a target, a value, the name of a variable, an argument or what selects a member or an element. -/
def accesses (p : Place) : Node → List Access
  | identifier x => if p.inName then [⟨x, p.isWrite⟩] else []
  | name _ | scalar _ => []
  | var a => a.accesses (a.namePlace p)
  | assign _ a b => a.accesses { isWrite := true } ++ b.accesses {}
  | list as | array as | echo as | block as => accessesAll p as
  | item a b => accessesOptional {} a ++ accessesOptional p b
  | element a b => a.accesses p ++ accessesOptional {} b
  | Node.property a b | staticProperty a b => a.accesses p ++ b.accesses {}
  | call a as => a.accesses p ++ accessesAll {} as
  | methodCall a b as | staticCall a b as =>
    a.accesses p ++ b.accesses {} ++ accessesAll {} as
  | binary _ a b => a.accesses p ++ b.accesses p
  | parameter _ _ | propertyDecl _ _ => []
  | expression a => a.accesses p
  | ret a => accessesOptional p a

def accessesAll (p : Place) : List Node → List Access
  | [] => []
  | a :: as => a.accesses p ++ accessesAll p as

def accessesOptional (p : Place) : Option Node → List Access
  | none => []
  | some a => a.accesses p

end

end Node

def Head.hasContext (role : Role) : Head → Bool
  | .assign _ | .var => true
  | .property | .staticProperty => role = .property
  | .methodCall | .staticCall => role = .method ∨ role = .arguments
  | .call => role = .arguments
  | .element => role = .index
  | .item => role = .key
  | _ => false

def Head.isPlain : Head → Bool
  | .identifier _ | .parameter | .propertyDecl => false
  | _ => true

def Place.child (p : Place) (role : Role) (parent : Node) : Place :=
  match VariableUse.writesIn p.isWrite role parent with
  | some isWrite => ⟨parent.head = .var, isWrite⟩
  | none => p

namespace VariableUse

def add (u : VariableUse) (a : Access) : VariableUse :=
  if a.isWrite then { u with writes := u.writes.insert a.name }
  else { u with reads := u.reads.insert a.name }

theorem isSome_writesIn (isWrite : Bool) {role : Role} (hrole : role ≠ .arguments) (parent : Node) :
    (writesIn isWrite role parent).isSome = parent.head.hasContext role := by
  cases parent with
  | var a => cases a <;> rfl
  | _ => cases role <;> first | rfl | exact absurd rfl hrole

theorem enter_of_isPlain {n : Node} {s : State} (hn : n.head.isPlain = true)
    (hs : s.misplaced = none) : collector.enter n s = (true, s) := by
  cases n with
  | identifier | parameter | propertyDecl => exact absurd hn Bool.false_ne_true
  | _ => simp [collector, hs]

theorem enter_declaration {n : Node} {s : State} (hn : n.head = .parameter ∨ n.head = .propertyDecl)
    (hs : s.misplaced = none) : collector.enter n s = (false, s) := by
  cases n with
  | parameter | propertyDecl => simp [collector, hs]
  | _ => simp [Node.head] at hn

namespace State

def place (s : State) : Place := ⟨s.namesVariable, s.isWrite⟩

def addAll (s : State) (l : List Access) : State := { s with use := l.foldl add s.use }

theorem addAll_append (s : State) (l m : List Access) :
    s.addAll (l ++ m) = (s.addAll l).addAll m := by
  rw [addAll, List.foldl_append]
  rfl

/-- No child was misplaced so far, and every context is that of a place that has one. -/
structure Proper (s : State) : Prop where
  hasContext : ∀ c ∈ s.contexts, c.parent.hasContext c.role = true
  misplaced : s.misplaced = none

variable {s : State} {role : Role} {parent : Node}

theorem Proper.addAll (h : s.Proper) (l : List Access) : (s.addAll l).Proper :=
  ⟨h.hasContext, h.misplaced⟩

theorem Proper.push (h : s.Proper) (hrole : parent.head.hasContext role = true) (isWrite : Bool) :
    (s.push role parent isWrite).Proper where
  hasContext := List.forall_mem_cons.mpr ⟨hrole, h.hasContext⟩
  misplaced := h.misplaced

theorem popIf_push (s : State) (role : Role) (parent : Node) (isWrite : Bool) :
    (s.push role parent isWrite).popIf role parent = s := by
  simp [push, popIf]

theorem Proper.popIf_eq (h : s.Proper) (hrole : parent.head.hasContext role = false) :
    s.popIf role parent = s := by
  rw [popIf]
  split
  · next c contexts hc =>
    have hhas := h.hasContext c (by rw [hc]; exact List.mem_cons_self)
    refine if_neg ?_
    rintro ⟨hparent, rfl⟩
    rw [hparent, hrole] at hhas
    exact Bool.false_ne_true hhas
  · rfl

end State

/-- A stretch of the walk that from proper states does nothing but to add accesses, which depend on
the place where it starts. -/
def Adds (f : State → State) (accesses : Place → List Access) : Prop :=
  ∀ s, s.Proper → f s = s.addAll (accesses s.place)

namespace Adds

variable {f g : State → State} {k l : Place → List Access} {role : Role} {parent n : Node}

protected theorem id : Adds id fun _ => [] := fun _ _ => rfl

theorem comp (hf : Adds f k) (hg : Adds g l) : Adds (fun s => g (f s)) fun p => k p ++ l p := by
  intro s hs
  calc g (f s) = (s.addAll (k s.place)).addAll (l s.place) := by
        rw [hf s hs]
        exact hg _ (hs.addAll _)
    _ = s.addAll (k s.place ++ l s.place) := (s.addAll_append _ _).symm

theorem popIf_push (hf : Adds f k) (hrole : parent.head.hasContext role = true) {s : State}
    (hs : s.Proper) (isWrite : Bool) :
    (f (s.push role parent isWrite)).popIf role parent =
      s.addAll (k ⟨parent.head = .var, isWrite⟩) := by
  rw [hf _ (hs.push hrole isWrite)]
  exact State.popIf_push (s.addAll _) role parent isWrite

theorem popIf (hf : Adds f k) (hrole : parent.head.hasContext role = false) {s : State}
    (hs : s.Proper) : (f s).popIf role parent = s.addAll (k s.place) := by
  rw [hf s hs]
  exact (hs.addAll _).popIf_eq hrole

theorem child (hf : Adds f k) (role : Role) (parent : Node) (hrole : role ≠ .arguments)
    (hvar : parent.head = .var → role = .variableName) :
    Adds (collector.atChild role parent f) fun p => k (p.child role parent) := by
  intro s hs
  have hplaced : ¬(parent.head = .var ∧ role ≠ .variableName) := fun h => h.2 (hvar h.1)
  have hhas := isSome_writesIn s.isWrite hrole parent
  simp only [atChild, collector, hs.misplaced, Option.isSome_none, Bool.false_eq_true, if_false,
    if_neg hplaced]
  cases hwrites : writesIn s.isWrite role parent with
  | some isWrite =>
    rw [hwrites] at hhas
    rw [hf.popIf_push hhas.symm hs]
    simp only [Place.child, State.place, hwrites]
  | none =>
    rw [hwrites] at hhas
    rw [hf.popIf hhas.symm hs]
    simp only [Place.child, State.place, hwrites]

theorem arguments (hf : Adds f k) (parent : Node) (hrole : parent.head.hasContext .arguments = true)
    (hvar : parent.head ≠ .var) : Adds (collector.atList .arguments parent f) fun _ => k {} := by
  intro s hs
  simp only [atList, collector, hs.misplaced, Option.isNone_none, and_self, if_true]
  rw [hf.popIf_push hrole hs, decide_eq_false hvar]

theorem list (hf : Adds f k) (role : Role) (parent : Node) (hrole : role ≠ .arguments)
    (hhas : parent.head.hasContext role = false) : Adds (collector.atList role parent f) k := by
  intro s hs
  simp only [atList, collector, hrole, false_and, if_false]
  exact hf.popIf hhas hs

theorem node (hf : Adds f k) (n : Node) (hn : n.head.isPlain = true) :
    Adds (collector.atNode n f) k := by
  intro s hs
  rw [atNode, enter_of_isPlain hn hs.misplaced]
  exact hf s hs

theorem declaration (n : Node) (hn : n.head = .parameter ∨ n.head = .propertyDecl)
    (f : State → State) : Adds (collector.atNode n f) fun _ => [] := by
  intro s hs
  rw [atNode, enter_declaration hn hs.misplaced]
  rfl

end Adds

theorem State.record_eq (s : State) (x : String) : s.record x = s.addAll [⟨x, s.isWrite⟩] := by
  rw [record, addAll, List.foldl_cons, List.foldl_nil, add]
  split <;> rfl

theorem adds_identifier (x : String) :
    Adds (Node.walk collector (.identifier x)) fun p => Node.accesses p (.identifier x) := by
  intro s hs
  have henter : Node.walk collector (.identifier x) s =
      if s.namesVariable then s.record x else s := by
    simp [Node.walk, atNode, collector, hs.misplaced]
  rw [henter, State.record_eq]
  obtain hname | hname := Bool.eq_false_or_eq_true s.namesVariable
  · simp [State.place, Node.accesses, hname]
  · simp [State.place, State.addAll, Node.accesses, hname]

theorem child_variableName (p : Place) (a : Node) :
    p.child .variableName (.var a) = a.namePlace p := by
  cases a <;> rfl

mutual

/-- The walk through a tree adds the accesses in it and leaves the contexts as it met them. -/
theorem adds_walk : (n : Node) → Adds (n.walk collector) fun p => n.accesses p
  | .identifier x => adds_identifier x
  | .name x => Adds.id.node (.name x) rfl
  | .scalar x => Adds.id.node (.scalar x) rfl
  | .var a => by
    have ha := (adds_walk a).child .variableName (.var a) Role.noConfusion fun _ => rfl
    -- the only place that depends on what stands there
    simp only [child_variableName] at ha
    exact ha.node (.var a) rfl
  | .assign op a b => by
    have ha := (adds_walk a).child .base (.assign op a b) Role.noConfusion Head.noConfusion
    have hb := (adds_walk b).child .expr (.assign op a b) Role.noConfusion Head.noConfusion
    exact (ha.comp hb).node (.assign op a b) rfl
  | .list as => ((adds_walkAll as).list .items (.list as) Role.noConfusion rfl).node (.list as) rfl
  | .array as =>
    ((adds_walkAll as).list .items (.array as) Role.noConfusion rfl).node (.array as) rfl
  | .item a b => by
    have ha := adds_walkOptional .key (.item a b) Role.noConfusion Head.noConfusion a
    have hb := adds_walkOptional .value (.item a b) Role.noConfusion Head.noConfusion b
    exact (ha.comp hb).node (.item a b) rfl
  | .element a b => by
    have ha := (adds_walk a).child .base (.element a b) Role.noConfusion Head.noConfusion
    have hb := adds_walkOptional .index (.element a b) Role.noConfusion Head.noConfusion b
    exact (ha.comp hb).node (.element a b) rfl
  | .property a b => by
    have ha := (adds_walk a).child .base (.property a b) Role.noConfusion Head.noConfusion
    have hb := (adds_walk b).child .property (.property a b) Role.noConfusion Head.noConfusion
    exact (ha.comp hb).node (.property a b) rfl
  | .staticProperty a b => by
    have ha := (adds_walk a).child .host (.staticProperty a b) Role.noConfusion Head.noConfusion
    have hb := (adds_walk b).child .property (.staticProperty a b) Role.noConfusion
      Head.noConfusion
    exact (ha.comp hb).node (.staticProperty a b) rfl
  | .call a as => by
    have ha := (adds_walk a).child .function (.call a as) Role.noConfusion Head.noConfusion
    have has := (adds_walkAll as).arguments (.call a as) rfl Head.noConfusion
    exact (ha.comp has).node (.call a as) rfl
  | .methodCall a b as => by
    have ha := (adds_walk a).child .base (.methodCall a b as) Role.noConfusion Head.noConfusion
    have hb := (adds_walk b).child .method (.methodCall a b as) Role.noConfusion Head.noConfusion
    have has := (adds_walkAll as).arguments (.methodCall a b as) rfl Head.noConfusion
    exact ((ha.comp hb).comp has).node (.methodCall a b as) rfl
  | .staticCall a b as => by
    have ha := (adds_walk a).child .host (.staticCall a b as) Role.noConfusion Head.noConfusion
    have hb := (adds_walk b).child .method (.staticCall a b as) Role.noConfusion Head.noConfusion
    have has := (adds_walkAll as).arguments (.staticCall a b as) rfl Head.noConfusion
    exact ((ha.comp hb).comp has).node (.staticCall a b as) rfl
  | .binary op a b => by
    have ha := (adds_walk a).child .left (.binary op a b) Role.noConfusion Head.noConfusion
    have hb := (adds_walk b).child .right (.binary op a b) Role.noConfusion Head.noConfusion
    exact (ha.comp hb).node (.binary op a b) rfl
  | .parameter a b => .declaration (.parameter a b) (.inl rfl) _
  | .propertyDecl a b => .declaration (.propertyDecl a b) (.inr rfl) _
  | .expression a => by
    have ha := (adds_walk a).child .expr (.expression a) Role.noConfusion Head.noConfusion
    exact ha.node (.expression a) rfl
  | .ret a => by
    have ha := adds_walkOptional .expr (.ret a) Role.noConfusion Head.noConfusion a
    exact ha.node (.ret a) rfl
  | .echo as => ((adds_walkAll as).list .exprs (.echo as) Role.noConfusion rfl).node (.echo as) rfl
  | .block as =>
    ((adds_walkAll as).list .statements (.block as) Role.noConfusion rfl).node (.block as) rfl

theorem adds_walkAll : (as : List Node) →
    Adds (Node.walkAll collector as) fun p => Node.accessesAll p as
  | [] => .id
  | a :: as => (adds_walk a).comp (adds_walkAll as)

theorem adds_walkOptional (role : Role) (parent : Node) (hrole : role ≠ .arguments)
    (hvar : parent.head = .var → role = .variableName) : (a : Option Node) →
    Adds (Node.walkOptional collector role parent a)
      fun p => Node.accessesOptional (p.child role parent) a
  | none => .id
  | some a => (adds_walk a).child role parent hrole hvar

end

theorem ofNode_eq (n : Node) : ofNode n = .ok ((n.accesses {}).foldl add {}) := by
  have hwalk : n.walk collector {} = State.addAll {} (n.accesses {}) :=
    adds_walk n {} ⟨fun c hc => absurd hc List.not_mem_nil, rfl⟩
  rw [ofNode, hwalk]
  rfl

theorem mem_foldl_add {x : String} {l : List Access} {u : VariableUse} :
    (x ∈ (l.foldl add u).reads ↔ x ∈ u.reads ∨ ⟨x, false⟩ ∈ l) ∧
      (x ∈ (l.foldl add u).writes ↔ x ∈ u.writes ∨ ⟨x, true⟩ ∈ l) := by
  induction l generalizing u with
  | nil => simp
  | cons a l ih =>
    obtain ⟨y, isWrite⟩ := a
    rw [List.foldl_cons, ih.1, ih.2]
    cases isWrite <;> simp [add, or_assoc, or_left_comm]

/-- Unless nothing is told because the program is not known as a whole, the classifier has an answer
for every tree: the names read and the names written, each once and in the order of their bytes. -/
theorem classify_holds_accesses {settings : ClassifierSettings} {complete : Bool}
    (h : (settings.requireComplete && !complete) = false) (n : Node) :
    ∃ u : VariableUse, classify? settings complete n = (.ok u, []) ∧
      classify settings complete n = (u, []) ∧
      u.reads.toList.Pairwise (fun x y => Text.bytes x < Text.bytes y) ∧
      u.writes.toList.Pairwise (fun x y => Text.bytes x < Text.bytes y) ∧
      ∀ x, (x ∈ u.reads.toList ↔ ⟨x, false⟩ ∈ n.accesses {}) ∧
        (x ∈ u.writes.toList ↔ ⟨x, true⟩ ∈ n.accesses {}) := by
  have hclassify : classify? settings complete n =
      (.ok ((n.accesses {}).foldl add {}), []) := by
    rw [classify?, h, ofNode_eq]
    rfl
  refine ⟨_, hclassify, by rw [classify, hclassify]; rfl, ?_, ?_, fun x => ?_⟩
  · exact (SortedSet.increasing _).imp Text.bytes_lt_bytes
  · exact (SortedSet.increasing _).imp Text.bytes_lt_bytes
  · have hmem := mem_foldl_add (x := x) (l := n.accesses {}) (u := {})
    simp only [SortedSet.not_mem_empty, false_or] at hmem
    exact hmem

theorem classify_holds_accesses_list :
    let n : Node := .assign .plain
      (.list [.item (some (.var (.identifier "k"))) (some (.var (.identifier "v")))])
      (.var (.var (.identifier "w")))
    n.accesses {} = [⟨"k", false⟩, ⟨"v", true⟩, ⟨"w", false⟩] ∧
    ∃ u : VariableUse, classify? {} true n = (.ok u, []) ∧ classify {} true n = (u, []) ∧
      u.reads.toList.Pairwise (fun x y => Text.bytes x < Text.bytes y) ∧
      u.writes.toList.Pairwise (fun x y => Text.bytes x < Text.bytes y) ∧
      ∀ x, (x ∈ u.reads.toList ↔ ⟨x, false⟩ ∈ n.accesses {}) ∧
        (x ∈ u.writes.toList ↔ ⟨x, true⟩ ∈ n.accesses {}) :=
  ⟨rfl, classify_holds_accesses rfl _⟩

end VariableUse

end SymbolicTypes
