import SymbolicTypes.Proofs.Resolution.Growth
import SymbolicTypes.Proofs.Resolution.Lockstep

namespace SymbolicTypes

open Naming Query

def SymType.isCall : SymType → Bool
  | callOf _ => true
  | _ => false

namespace Codebase

variable {b : Codebase} {settings : ResolverSettings} {n m : String}

/-- No declared type contains the call of a function. -/
def CallsNoFunction (b : Codebase) : Prop := ∀ x ∈ b.indirections, x.isCall = false

instance (b : Codebase) : Decidable b.CallsNoFunction :=
  inferInstanceAs (Decidable (∀ x ∈ b.indirections, _))

/-- There is no function of the name, and the one in the root namespace stands in for it where the
name has two separators. Where it has one, as in its other spelling, nothing does. -/
structure RetriesOnly (b : Codebase) (settings : ResolverSettings) (n m : String) : Prop where
  allowed : settings.rootFallback = true
  missing : b.function? n = none
  declared : (b.function? ("\\" ++ shortName n)).isSome = true
  two : Naming.depth n = 2
  one : Naming.depth m = 1

theorem function?_congr (h : normalize n = normalize m) : b.function? n = b.function? m := by
  rw [function?, function?, h]

theorem callee?_of_isSome (h : (b.function? n).isSome = true) :
    b.callee? settings n = b.function? n := by
  obtain ⟨f, hf⟩ := Option.isSome_iff_exists.mp h
  rw [callee?, hf, Option.some_or]

theorem callee?_of_one_separator (hfree : b.function? n = none) (hone : Naming.depth n = 1) :
    b.callee? settings n = none := by
  have hdepth : ¬ 1 < Naming.depth n := by omega
  rw [callee?, hfree, rootFallback, if_neg hdepth, Option.bind_none, ite_self, Option.none_or]

theorem callee?_of_two_separators (hallowed : settings.rootFallback = true)
    (hfree : b.function? n = none) (htwo : Naming.depth n = 2) :
    b.callee? settings n = b.function? ("\\" ++ shortName n) := by
  have hdepth : 1 < Naming.depth n := by omega
  rw [callee?, hfree, if_pos hallowed, rootFallback, if_pos hdepth]
  rfl

namespace RetriesOnly

theorem callee?_eq (h : b.RetriesOnly settings n m) :
    b.callee? settings n = b.callee? settings ("\\" ++ shortName n) := by
  rw [callee?_of_two_separators h.allowed h.missing h.two, callee?_of_isSome h.declared]

theorem callee?_eq_none (h : b.RetriesOnly settings n m) (hnm : normalize n = normalize m) :
    b.callee? settings m = none :=
  callee?_of_one_separator (function?_congr hnm ▸ h.missing) h.one

theorem of_callee?_ne (h : b.callee? settings n ≠ b.callee? settings m)
    (hnm : normalize n = normalize m) (htwo : Naming.depth n = 2) (hone : Naming.depth m = 1) :
    b.RetriesOnly settings n m := by
  have hfree : b.function? n = none := by
    by_contra hn
    have hn := Option.isSome_iff_ne_none.mpr hn
    apply h
    rw [callee?_of_isSome hn, callee?_of_isSome (function?_congr hnm ▸ hn), function?_congr hnm]
  have hallowed : settings.rootFallback = true := by
    by_contra hs
    apply h
    rw [callee?, callee?, if_neg hs, if_neg hs, function?_congr hnm]
  rw [callee?_of_one_separator (function?_congr hnm ▸ hfree) hone,
    callee?_of_two_separators hallowed hfree htwo] at h
  exact ⟨hallowed, hfree, Option.isSome_iff_ne_none.mpr h, htwo, hone⟩

end RetriesOnly

theorem callee?_eq_or (b : Codebase) (settings : ResolverSettings)
    (h : normalize n = normalize m) :
    b.callee? settings n = b.callee? settings m ∨
      b.RetriesOnly settings n m ∨ b.RetriesOnly settings m n := by
  rw [or_iff_not_imp_left]
  intro hne
  obtain hroot | ⟨hn, hm⟩ | ⟨hn, hm⟩ := rootFallback_eq_or h
  · refine absurd ?_ hne
    rw [callee?, callee?, function?_congr h, hroot]
  · exact .inl (.of_callee?_ne hne h hn hm)
  · exact .inr (.of_callee?_ne (Ne.symm hne) h.symm hm hn)

theorem CallsNoFunction.inStep (hb : b.CallsNoFunction) (settings : ResolverSettings) :
    InStep b settings (fun _ t => ∀ x ∈ t.indirections, x.isCall = false)
      (Guard.Agree fun p => p.2.isCall = false) where
  inner _ _ ht _ he x hx := ht x (SymType.mem_indirections_of_inner? he hx)
  consults _ _ _ _ _ hc e he x hx := by
    have hu := (hc.declared b.declares_unions).elim id id
    exact hb x (mem_indirections_of_mem_unions hu he hx)
  guarded d context t ht hn hq := by
    rw [Resolver.expand_eq_once _ _ hn]
    exact Resolver.once_alike hn (ht t (SymType.mem_indirections_self hn)) hq

end Codebase

namespace Resolver

variable {b : Codebase} {settings : ResolverSettings} {n m : String}

theorem agree_insert_callOf (n m : String) :
    Guard.Agree (fun p => p.2.isCall = false) ((∅ : Guard).insert "" (.callOf n))
      ((∅ : Guard).insert "" (.callOf m)) where
  mem p hp := by
    have hcall (name : String) : p ≠ ("", .callOf name) := by
      rintro rfl
      cases hp
    rw [Guard.mem_insert_of_ne (hcall n), Guard.mem_insert_of_ne (hcall m)]
  left := Guard.isProper_empty.insert "" rfl
  right := Guard.isProper_empty.insert "" rfl

theorem returns_resolve_callOf {names : TypeNames} {w : Guard}
    (h : (follow ((b.resolver settings).expandUnion ((b.resolver settings).bound [.callOf n]) "")
      (b.target? settings (.callOf n))).Returns ((∅ : Guard).insert "" (.callOf n)) names w) :
    ((b.resolver settings).resolve (.callOf n)).Returns ∅ names w := by
  obtain ⟨_, rfl, htarget⟩ := Codebase.knows_target b settings (.callOf n)
  rw [resolve, expand_eq_once _ _ rfl]
  exact returns_once_of_not_mem (Guard.not_mem_empty _) ((htarget _).bind h)

theorem returns_resolve_callOf_of_none (h : b.callee? settings n = none) :
    ((b.resolver settings).resolve (.callOf n)).Returns ∅ ∅
      ((∅ : Guard).insert "" (.callOf n)) := by
  apply returns_resolve_callOf
  rw [Codebase.target?, h]
  exact returns_pure ∅ _

theorem follow_target_alike (hb : b.CallsNoFunction) (settings : ResolverSettings) (depth : Nat)
    (context : String) (t : SymType) :
    Alike (Guard.Agree fun p => p.2.isCall = false)
      (follow ((b.resolver settings).expandUnion depth context) (b.target? settings t))
      (follow ((b.resolver settings).expandUnion depth context) (b.target? settings t)) := by
  cases hu : b.target? settings t with
  | none => exact alike_pure ∅
  | some u =>
    apply (hb.inStep settings).expandUnion depth
    intro e he x hx
    have hdeclared : u ∈ b.unions := b.declares_unions.of_target? hu
    exact hb x (Codebase.mem_indirections_of_mem_unions hdeclared he hx)

theorem exists_returns_resolve_callOf (hb : b.CallsNoFunction)
    (h : b.callee? settings n = b.callee? settings m) :
    ∃ names w w', ((b.resolver settings).resolve (.callOf n)).Returns ∅ names w ∧
      ((b.resolver settings).resolve (.callOf m)).Returns ∅ names w' := by
  have htarget : b.target? settings (.callOf n) = b.target? settings (.callOf m) := by
    rw [Codebase.target?, Codebase.target?, h]
  -- the bound counts the types that are asked for, whatever they are
  have hbound : (b.resolver settings).bound [.callOf n] = (b.resolver settings).bound [.callOf m] :=
    rfl
  obtain ⟨names, w, w', hn, hm, -⟩ :=
    follow_target_alike hb settings ((b.resolver settings).bound [.callOf n]) "" (.callOf n) _ _
      (agree_insert_callOf n m)
  rw [htarget, hbound] at hm
  exact ⟨names, w, w', returns_resolve_callOf hn, returns_resolve_callOf hm⟩

/-- Where no declared type contains the call of a function, both spellings of a function's name come
to one type, unless one of them alone is retried in the root namespace. That one has the type of the
function there, and the other has none. -/
theorem resolve_callOf_respelled (hb : b.CallsNoFunction) (h : normalize n = normalize m) :
    ∃ names names' w w', ((b.resolver settings).resolve (.callOf n)).Returns ∅ names w ∧
      ((b.resolver settings).resolve (.callOf m)).Returns ∅ names' w' ∧
      (names = names' ∨ b.RetriesOnly settings n m ∨ b.RetriesOnly settings m n) ∧
      (b.RetriesOnly settings n m → names' = ∅ ∧ ∃ v,
        ((b.resolver settings).resolve (.callOf ("\\" ++ shortName n))).Returns ∅ names v) := by
  obtain ⟨names, w, -, hn, -⟩ :=
    exists_returns_resolve_callOf hb (Eq.refl (b.callee? settings n))
  obtain ⟨names', w', -, hm, -⟩ :=
    exists_returns_resolve_callOf hb (Eq.refl (b.callee? settings m))
  refine ⟨names, names', w, w', hn, hm, ?_, fun hretries => ⟨?_, ?_⟩⟩
  · apply (b.callee?_eq_or settings h).imp_left
    intro heq
    obtain ⟨both, v, v', hn', hm'⟩ := exists_returns_resolve_callOf hb heq
    rw [(hn.unique hn').1, (hm.unique hm').1]
  · exact (hm.unique (returns_resolve_callOf_of_none (hretries.callee?_eq_none h))).1
  · obtain ⟨root, v, v', hn', hroot⟩ := exists_returns_resolve_callOf hb hretries.callee?_eq
    obtain ⟨rfl, -⟩ := hn.unique hn'
    exact ⟨v', hroot⟩

def rootFunction : Codebase :=
  ({} : Codebase)
    |>.insertGlobal "lengths" (TypeUnion.ofNames ["float[]"])
    |>.insertFunction
      { name := "\\size"
        returnType := TypeUnion.ofList [.named "int", .elementOf (.global "lengths")] }

theorem resolve_callOf_respelled_rootFunction :
    let n := "\\App\\Models\\size"
    let m := "App\\Models\\size"
    rootFunction.CallsNoFunction ∧ normalize n = normalize m ∧
    ((rootFunction.resolver {}).resolve (.callOf n) ∅).answer =
      .ok (SortedSet.ofList ["float", "int"]) ∧
    ((rootFunction.resolver {}).resolve (.callOf m) ∅).answer =
      .ok (SortedSet.ofList ["float", "int"]) ∧
    ∃ names names' w w', ((rootFunction.resolver {}).resolve (.callOf n)).Returns ∅ names w ∧
      ((rootFunction.resolver {}).resolve (.callOf m)).Returns ∅ names' w' ∧
      (names = names' ∨ rootFunction.RetriesOnly {} n m ∨ rootFunction.RetriesOnly {} m n) ∧
      (rootFunction.RetriesOnly {} n m → names' = ∅ ∧ ∃ v,
        ((rootFunction.resolver {}).resolve (.callOf ("\\" ++ shortName n))).Returns ∅ names v) :=
  ⟨by decide, rfl, rfl, rfl, resolve_callOf_respelled (by decide) rfl⟩

/-- With a separator in front the name has two, so that the call is retried, and without it the name
has one. -/
theorem resolve_callOf_rootFunction_ne :
    rootFunction.CallsNoFunction ∧ normalize "\\App\\size" = normalize "App\\size" ∧
    rootFunction.RetriesOnly {} "\\App\\size" "App\\size" ∧
    ¬ ∃ names,
      ((rootFunction.resolver {}).resolve (.callOf "\\App\\size") ∅).answer = .ok names ∧
      ((rootFunction.resolver {}).resolve (.callOf "App\\size") ∅).answer = .ok names := by
  refine ⟨by decide, rfl, ⟨rfl, rfl, rfl, rfl, rfl⟩, ?_⟩
  rintro ⟨names, hn, hm⟩
  have hretried : names = SortedSet.ofList ["float", "int"] :=
    Except.ok.inj (hn.symm.trans rfl)
  have hmissing : names = ∅ := Except.ok.inj (hm.symm.trans rfl)
  exact absurd (hretried.symm.trans hmissing) (by decide)

end Resolver

end SymbolicTypes
