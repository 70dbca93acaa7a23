import SymbolicTypes.Proofs.Naming
import SymbolicTypes.Proofs.Resolution.Growth
import SymbolicTypes.Proofs.Resolution.Soundness
import SymbolicTypes.Proofs.SymType.Parts

namespace SymbolicTypes

open Query TypeNames

namespace TypeNames

variable {host n : String}

def staticArray (k : Nat) : String := arrayOf^[k] staticName

theorem staticArray_succ (k : Nat) : staticArray (k + 1) = arrayOf (staticArray k) :=
  Function.iterate_succ_apply' arrayOf k staticName

theorem ne_staticArray (harray : element? n = none) (hn : n ≠ staticName) (k : Nat) :
    n ≠ staticArray k := by
  cases k with
  | zero => exact hn
  | succ k =>
    rw [staticArray_succ]
    exact (arrayOf_ne harray _).symm

theorem settled_ne_staticArray {k : Nat} (h : n ≠ staticArray k) : settled n ≠ staticArray k := by
  unfold settled
  split
  · exact ne_staticArray (by decide) (by decide) k
  · exact h

theorem forStatic_ne_staticArray (hhost : ∀ k, host ≠ staticArray k)
    (h : ∀ k, n ≠ staticArray (k + 1)) (k : Nat) : forStatic host n ≠ staticArray k := by
  unfold forStatic
  split
  · exact hhost k
  · next hn =>
    cases k with
    | zero => exact hn
    | succ k => exact h k

theorem normalize_staticArray (k : Nat) : Naming.normalize (staticArray k) = staticArray k := by
  have hhead : (staticArray k).toList.head? = some 's' := by
    induction k with
    | zero => rfl
    | succ k ih => rw [staticArray_succ, arrayOf, String.toList_append, List.head?_append, ih,
        Option.some_or]
  rw [Naming.normalize, Naming.dropLeading_eq_self_iff, hhead]
  decide

end TypeNames

namespace Codebase

variable {b : Codebase} {settings : ResolverSettings} {context n : String} {t : SymType}

/-- No literal in the declared types is an array of `static`, and no class or trait is called
`static` or like an array of it. -/
structure LeavesStatic (b : Codebase) : Prop where
  literal : ∀ u ∈ b.unions, ∀ t ∈ u, ∀ k, .named (staticArray (k + 1)) ∉ t.parts
  host : ∀ name ∈ b.classes.keys ++ b.traits.keys, ∀ k, name ≠ staticArray k

theorem LeavesStatic.ne_staticArray (hb : b.LeavesStatic) (h : b.IsContext n) (k : Nat) :
    n ≠ staticArray k := by
  rintro rfl
  rw [IsContext, normalize_staticArray, ← List.mem_append] at h
  obtain h | h := h
  · exact TypeNames.ne_staticArray (by decide) (by decide) k h.symm
  · exact hb.host _ h k rfl

theorem LeavesStatic.forStatic_ne_staticArray (hb : b.LeavesStatic) {host method : String}
    {m : Located FunctionDecl} (hm : b.findMethod? host method = some m)
    (he : t ∈ m.member.returnType)
    (hn : (∀ k, host ≠ staticArray k) → (∀ k, .named (staticArray (k + 1)) ∉ t.parts) →
      ∀ k, n ≠ staticArray (k + 1)) (k : Nat) :
    forStatic host (settled n) ≠ staticArray k := by
  have hhost := hb.ne_staticArray (isContext_of_findMethod? hm)
  have hunion := b.declares_unions.of_findMethod? hm
  apply TypeNames.forStatic_ne_staticArray hhost
  intro j
  exact settled_ne_staticArray (hn hhost (hb.literal _ hunion t he) j)

theorem Means.ne_staticArray_succ (hb : b.LeavesStatic) (h : b.Means settings context t n)
    (hcontext : ∀ k, context ≠ staticArray k) (ht : ∀ k, .named (staticArray (k + 1)) ∉ t.parts) :
    ∀ k, n ≠ staticArray (k + 1) := by
  have hunions := b.declares_unions
  induction h with
  | named =>
    rintro k rfl
    exact ht k List.mem_cons_self
  | @reference context t _ e _ hu he _ ih =>
    have hbase : ∀ k, t.base context ≠ staticArray k := by
      obtain h | h := t.base_eq_or b context
      · rwa [h]
      · exact hb.ne_staticArray h
    intro k
    exact settled_ne_staticArray (ih hbase (hb.literal _ (hunions.of_target? hu) e he) k)
  | arrayOf _ ih =>
    intro k
    -- inside an array `static` is bound at once
    rw [staticArray_succ, ne_eq, arrayOf_inj]
    exact TypeNames.forStatic_ne_staticArray hcontext
      (ih hcontext fun k hk => ht k (List.mem_cons_of_mem _ hk)) k
  | elementOf _ ih =>
    intro k
    have harray := ih hcontext (fun k hk => ht k (List.mem_cons_of_mem _ hk)) (k + 1)
    rwa [staticArray_succ, ne_eq, arrayOf_inj] at harray
  | elementOf_mixed => exact fun k => TypeNames.ne_staticArray (by decide) (by decide) (k + 1)
  | methodOf _ hm he _ _ ih => exact fun k => hb.forStatic_ne_staticArray hm he ih (k + 1)
  | propertyOf _ hp he _ _ ih =>
    intro k
    exact settled_ne_staticArray (ih hcontext (hb.literal _ (hunions.of_findProperty? hp) _ he) k)
  | getterOf _ _ hm he _ _ ih =>
    intro k
    exact settled_ne_staticArray (ih hcontext (hb.literal _ (hunions.of_magicGetter? hm) _ he) k)
  | staticMethodOf hm he _ ih => exact fun k => hb.forStatic_ne_staticArray hm he ih (k + 1)

end Codebase

namespace Resolver

/-- A call comes to neither `static` nor an array of it, on whatever it is made and whatever was
begun before. -/
theorem resolve_call_ne_static (b : Codebase) (hb : b.LeavesStatic) (settings : ResolverSettings)
    (g : Guard) (method : String) :
    (∀ t, ∃ names w, ((b.resolver settings).resolve (.methodOf t method)).Returns g names w ∧
      ∀ k, staticArray k ∉ names) ∧
    ∀ host, ∃ names w,
      ((b.resolver settings).resolve (.staticMethodOf host method)).Returns g names w ∧
      ∀ k, staticArray k ∉ names := by
  have hcall {t : SymType} (h : ∀ n, b.Means settings "" t n → ∀ k, n ≠ staticArray k) :
      ∃ names w, ((b.resolver settings).resolve t).Returns g names w ∧
        ∀ k, staticArray k ∉ names := by
    obtain ⟨names, w, hrun, hnames⟩ := expand_answersIn (expandUnion_answersIn b settings _) "" t g
    exact ⟨names, w, hrun, fun k hk => h _ (hnames _ hk) k rfl⟩
  constructor
  · intro t
    apply hcall
    intro n hn
    cases hn with
    | methodOf _ hm he hmeans =>
      exact hb.forStatic_ne_staticArray hm he (hmeans.ne_staticArray_succ hb)
    | reference hu => cases Codebase.isReference_of_target? hu
  · intro host
    apply hcall
    intro n hn
    cases hn with
    | staticMethodOf hm he hmeans =>
      exact hb.forStatic_ne_staticArray hm he (hmeans.ne_staticArray_succ hb)
    | reference hu => cases Codebase.isReference_of_target? hu

def factories : Codebase :=
  ({} : Codebase)
    |>.insertGlobal "made" (TypeUnion.ofNames ["static"])
    |>.insertClass
      { name := "Base"
        methods :=
          [{ name := "make", returnType := TypeUnion.ofList [.global "made"] },
           { name := "all", returnType := TypeUnion.ofList [.arrayOf (.global "made")] }] }
    |>.insertClass { name := "Derived", parent := some "Base" }

theorem leavesStatic_factories : factories.LeavesStatic where
  literal := by
    have hparts : ∀ u ∈ factories.unions, ∀ t ∈ u, ∀ p ∈ t.parts,
        p ∈ [SymType.named "static", .global "made", .arrayOf (.global "made")] := by decide
    intro u hu t ht k hk
    have hstatic : staticArray (k + 1) = "static" := by simpa using hparts u hu t ht _ hk
    rw [staticArray_succ, eq_comm, ← element?_eq_some_iff] at hstatic
    cases hstatic
  host := by
    have hkeys : factories.classes.keys ++ factories.traits.keys = ["Base", "Derived"] := rfl
    rw [hkeys]
    simp only [List.forall_mem_cons]
    refine ⟨?_, ?_, by simp⟩
    · exact ne_staticArray (by decide) (by decide)
    · exact ne_staticArray (by decide) (by decide)

theorem resolve_call_ne_static_factories :
    factories.LeavesStatic ∧
    ((factories.resolver {}).resolve (.staticMethodOf "Derived" "all") ∅).answer =
      .ok (SortedSet.ofList ["Derived[]"]) ∧
    (∀ t, ∃ names w, ((factories.resolver {}).resolve (.methodOf t "all")).Returns ∅ names w ∧
      ∀ k, staticArray k ∉ names) ∧
    ∀ host, ∃ names w,
      ((factories.resolver {}).resolve (.staticMethodOf host "all")).Returns ∅ names w ∧
      ∀ k, staticArray k ∉ names :=
  ⟨leavesStatic_factories, rfl, resolve_call_ne_static _ leavesStatic_factories _ _ _⟩

end Resolver

end SymbolicTypes
