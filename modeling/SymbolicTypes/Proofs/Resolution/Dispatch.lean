import SymbolicTypes.Proofs.Resolution.Growth
import SymbolicTypes.Proofs.Resolution.Lockstep

namespace SymbolicTypes

open Query

/-- Where the declared type of a parameter stands in, which is looked up outside of any class. -/
def SymType.isInterfaceParam : SymType → Bool
  | interfaceParam _ _ _ => true
  | _ => false

structure SymType.IsInClass (context : String) (t : SymType) : Prop where
  context : context ≠ ""
  parts : ∀ x ∈ t.parts, x.isInterfaceParam = false

theorem SymType.IsInClass.inner {context : String} {t : SymType} (h : t.IsInClass context)
    {e : SymType} (he : e ∈ t.inner?) : e.IsInClass context :=
  ⟨h.context, fun x hx => h.parts x (mem_parts_of_inner? he hx)⟩

namespace Codebase

variable {b : Codebase} {settings : ResolverSettings} {context host name : String} {t : SymType}
  {u : TypeUnion}

/-- No declared type leads out of the class that it is expanded for: parameters do not occur, and no
class or trait is filed under the empty name, which stands for no class. -/
structure StaysInClass (b : Codebase) : Prop where
  declared : ∀ u ∈ b.unions, ∀ t ∈ u, ∀ x ∈ t.parts, x.isInterfaceParam = false
  key : ¬ "" ∈ b.classes.keys ++ b.traits.keys

instance (b : Codebase) : Decidable b.StaysInClass :=
  decidable_of_iff
    ((∀ u ∈ b.unions, ∀ t ∈ u, ∀ x ∈ t.parts, x.isInterfaceParam = false) ∧
      ¬ "" ∈ b.classes.keys ++ b.traits.keys)
    ⟨fun ⟨declared, key⟩ => ⟨declared, key⟩, fun h => ⟨h.declared, h.key⟩⟩

theorem StaysInClass.ne_empty (hb : b.StaysInClass) {m : Located FunctionDecl}
    (hm : b.findMethod? host name = some m) : host ≠ "" := by
  rintro rfl
  exact hb.key (List.mem_append.mpr (SearchPlan.mem_keys_of_found? hm))

theorem StaysInClass.consults (hb : b.StaysInClass) (h : t.IsInClass context)
    (hu : b.Consults settings context t host u) {e : SymType} (he : e ∈ u) :
    e.IsInClass host := by
  have hunion : u ∈ b.unions := (hu.declared b.declares_unions).elim id id
  refine ⟨?_, hb.declared u hunion e he⟩
  cases hu with
  | reference hu =>
    cases t with
    | interfaceParam => exact absurd (h.parts _ List.mem_cons_self) (by simp [SymType.isInterfaceParam])
    | _ => exact h.context
  | methodOf hm | staticMethodOf hm => exact hb.ne_empty hm
  | propertyOf | getterOf => exact h.context

end Codebase

namespace Guard

/-- Guards that agree on the pairs of each class. Those outside of any class are what they were. -/
structure AgreeInClass (start start' g g' : Guard) : Prop where
  inside : ∀ p, p.1 ≠ "" → (p ∈ g ↔ p ∈ g')
  left : ∀ p, p.1 = "" → (p ∈ g ↔ p ∈ start)
  right : ∀ p, p.1 = "" → (p ∈ g' ↔ p ∈ start')

theorem AgreeInClass.insert {start start' g g' : Guard} (h : AgreeInClass start start' g g')
    {context : String} (hcontext : context ≠ "") (t : SymType) :
    AgreeInClass start start' (g.insert context t) (g'.insert context t) := by
  have hne {p : String × SymType} (hp : p.1 = "") : p ≠ (context, t) :=
    fun heq => hcontext ((congrArg Prod.fst heq).symm.trans hp)
  constructor
  · intro p hp
    rw [mem_insert, mem_insert, h.inside p hp]
  · intro p hp
    rw [mem_insert_of_ne (hne hp), h.left p hp]
  · intro p hp
    rw [mem_insert_of_ne (hne hp), h.right p hp]

theorem agreeInClass_insert (g : Guard) (t t' : SymType) :
    AgreeInClass (g.insert "" t) (g.insert "" t') (g.insert "" t) (g.insert "" t') where
  inside p hp := by
    have hne (t : SymType) : p ≠ ("", t) := fun heq => hp (congrArg Prod.fst heq)
    rw [mem_insert_of_ne (hne t), mem_insert_of_ne (hne t')]
  left _ _ := Iff.rfl
  right _ _ := Iff.rfl

structure DifferIn (p p' : String × SymType) (g g' : Guard) : Prop where
  left : p ∈ g ∧ ¬ p ∈ g'
  right : ¬ p' ∈ g ∧ p' ∈ g'
  rest : ∀ q, q ≠ p → q ≠ p' → (q ∈ g ↔ q ∈ g')

theorem AgreeInClass.differIn {g w w' : Guard} {t t' : SymType}
    (h : AgreeInClass (g.insert "" t) (g.insert "" t') w w') (hne : t ≠ t')
    (ht : ¬ ("", t) ∈ g) (ht' : ¬ ("", t') ∈ g) : DifferIn ("", t) ("", t') w w' := by
  have hpairs : (("", t) : String × SymType) ≠ ("", t') := fun heq => hne (congrArg Prod.snd heq)
  constructor
  · rw [h.left _ rfl, h.right _ rfl, mem_insert_of_ne hpairs]
    exact ⟨mem_insert.mpr (.inl rfl), ht⟩
  · rw [h.left _ rfl, h.right _ rfl, mem_insert_of_ne hpairs.symm]
    exact ⟨ht', mem_insert.mpr (.inl rfl)⟩
  · intro q hq hq'
    by_cases hclass : q.1 = ""
    · rw [h.left q hclass, h.right q hclass, mem_insert_of_ne hq, mem_insert_of_ne hq']
    · exact h.inside q hclass

end Guard

namespace Resolver

variable {b : Codebase}

theorem inStep_of_staysInClass (hb : b.StaysInClass) (settings : ResolverSettings)
    (start start' : Guard) :
    InStep b settings SymType.IsInClass (Guard.AgreeInClass start start') where
  inner _ _ ht _ he := ht.inner he
  consults _ _ _ _ ht hu _ he := hb.consults ht hu he
  guarded d context t ht hn halike := by
    rw [expand_eq_once _ _ hn]
    exact once_alike_of (fun _ _ hg => hg.inside _ ht.context)
      (fun _ _ hg _ => hg.insert ht.context t) (fun _ _ => id) halike

/-- A call on an instance of a class and the same call on the class itself come to the same names, and
leave the same behind but for the calls themselves. -/
theorem resolve_methodOf_named (b : Codebase) (hb : b.StaysInClass) (settings : ResolverSettings)
    (host method : String) (g : Guard) (hinstance : ¬ ("", .methodOf (.named host) method) ∈ g)
    (hstatic : ¬ ("", .staticMethodOf host method) ∈ g) :
    ∃ names w w',
      ((b.resolver settings).resolve (.methodOf (.named host) method)).Returns g names w ∧
      ((b.resolver settings).resolve (.staticMethodOf host method)).Returns g names w' ∧
      Guard.DifferIn ("", .methodOf (.named host) method) ("", .staticMethodOf host method) w w' := by
  let depth := (b.resolver settings).bound [.staticMethodOf host method]
  have hcall : Alike (Guard.AgreeInClass (g.insert "" (.methodOf (.named host) method))
        (g.insert "" (.staticMethodOf host method)))
      ((b.resolver settings).callOn ((b.resolver settings).expandUnion depth) method host)
      ((b.resolver settings).callOn ((b.resolver settings).expandUnion depth) method host) := by
    apply callOn_alike
    intro m hm
    apply (inStep_of_staysInClass hb settings _ _).expandUnion
    intro t ht
    exact ⟨hb.ne_empty hm, hb.declared _ (b.declares_unions.of_findMethod? hm) t ht⟩
  obtain ⟨names, w, w', hrun, hrun', hw⟩ := hcall _ _ (Guard.agreeInClass_insert g _ _)
  refine ⟨names, w, w', ?_, ?_, hw.differIn (by simp) hinstance hstatic⟩
  · have hhosts : (gather ((b.resolver settings).callOn ((b.resolver settings).expandUnion depth)
        method) [host]).Returns (g.insert "" (.methodOf (.named host) method)) names w :=
      hrun.bind ((returns_pure ∅ w).bind (returns_pure names w))
    exact returns_once_of_not_mem hinstance ((returns_pure _ _).bind hhosts)
  · exact returns_once_of_not_mem hstatic hrun'

def linkedNodes : Codebase :=
  ({} : Codebase)
    |>.insertGlobal "root"
      (TypeUnion.ofList [.named "null", .staticMethodOf "Node" "next"])
    |>.insertClass
      { name := "Node"
        methods :=
          [{ name := "next"
             returnType := TypeUnion.ofList
               [.named "static", .global "root", .methodOf (.named "Node") "next"] }] }

theorem staysInClass_linkedNodes : linkedNodes.StaysInClass := by decide

theorem resolve_methodOf_named_linkedNodes :
    linkedNodes.StaysInClass ∧
    ¬ ("", .methodOf (.named "Node") "next") ∈ (∅ : Guard) ∧
    ¬ ("", .staticMethodOf "Node" "next") ∈ (∅ : Guard) ∧
    ((linkedNodes.resolver {}).resolve (.methodOf (.named "Node") "next") ∅).answer =
      .ok (SortedSet.ofList ["Node", "null"]) ∧
    ∃ names w w',
      ((linkedNodes.resolver {}).resolve (.methodOf (.named "Node") "next")).Returns ∅ names w ∧
      ((linkedNodes.resolver {}).resolve (.staticMethodOf "Node" "next")).Returns ∅ names w' ∧
      Guard.DifferIn ("", .methodOf (.named "Node") "next") ("", .staticMethodOf "Node" "next")
        w w' :=
  ⟨staysInClass_linkedNodes, Guard.not_mem_empty _, Guard.not_mem_empty _, rfl,
    resolve_methodOf_named _ staysInClass_linkedNodes _ _ _ _ (Guard.not_mem_empty _)
      (Guard.not_mem_empty _)⟩

end Resolver

end SymbolicTypes
