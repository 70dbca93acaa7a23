import Mathlib.Data.List.Basic
import Mathlib.Tactic.Choose
import SymbolicTypes.Proofs.Resolution.Shallow

namespace SymbolicTypes

open Query

namespace Resolver

variable {b : Codebase} {settings : ResolverSettings} {names : SymType → TypeNames}

/-- What a method found for a host returns, where the members of its return type that have begun
for the host are left out. -/
def callNames (names : SymType → TypeNames) (g : Guard) (host : String) :
    Option (Located FunctionDecl) → TypeNames
  | some m => (shallowNames names g host m.member.returnType).bindStatic host
  | none => ∅

theorem callNames_congr {g g' : Guard} {host : String} {o : Option (Located FunctionDecl)}
    (h : ∀ m ∈ o, ∀ t ∈ m.member.returnType, (host, t) ∈ g ↔ (host, t) ∈ g') :
    callNames names g host o = callNames names g' host o := by
  cases o with
  | none => rfl
  | some m => rw [callNames, shallowNames_congr (h m rfl), callNames]

structure Finds (b : Codebase) (method host : String) (o : Option (Located FunctionDecl)) :
    Prop where
  returns : ∀ g : Guard, (b.index.findMethod host method).Returns g o g
  shallow : ∀ m ∈ o, m.member.returnType.IsShallow

theorem exists_finds {V : TypeUnion → Prop} (hb : b.Declares V TypeUnion.IsShallow)
    (method host : String) : ∃ o, Finds b method host o := by
  obtain ⟨_, rfl, h⟩ := Codebase.knows_findMethod? (σ := Guard) b host method
  exact ⟨_, h, fun m hm => hb.of_findMethod? hm⟩

theorem callOn_adds (hr : (b.resolver settings).Reads names) {method host : String}
    {o : Option (Located FunctionDecl)} (ho : Finds b method host o) (depth : Nat) {g : Guard}
    (hg : g.IsProper) :
    ∃ ts w, Adds host ts ((b.resolver settings).callOn
      ((b.resolver settings).expandUnion (depth + 2)) method host) g (callNames names g host o) w := by
  cases o with
  | none => exact ⟨[], g, (ho.returns g).bind (returns_pure ∅ g), by simp⟩
  | some m =>
    obtain ⟨w, h⟩ := expandUnion_adds hr (ho.shallow m rfl) depth host hg
    exact ⟨_, w, (ho.returns g).bind (h.returns.bind (returns_pure _ w)), h.mem⟩

theorem gather_callOn (hr : (b.resolver settings).Reads names) {method : String}
    {found : String → Option (Located FunctionDecl)} (hfound : ∀ c, Finds b method c (found c))
    (depth : Nat) {hosts : List String} (hnodup : hosts.Nodup) {g : Guard} (hg : g.IsProper) :
    ∃ all w, (gather ((b.resolver settings).callOn
        ((b.resolver settings).expandUnion (depth + 2)) method) hosts).Returns g all w ∧
      ∀ n, n ∈ all ↔ ∃ c ∈ hosts, n ∈ callNames names g c (found c) := by
  induction hosts generalizing g with
  | nil => exact ⟨∅, g, returns_pure ∅ g, by simp⟩
  | cons host hosts ih =>
    obtain ⟨hhost, hnodup⟩ := List.nodup_cons.mp hnodup
    obtain ⟨ts, v, hfirst⟩ := callOn_adds hr (hfound host) depth hg
    obtain ⟨rest, w, hrest, hmem⟩ := ih hnodup (hfirst.isProper hg)
    have hsame : ∀ c ∈ hosts, callNames names v c (found c) = callNames names g c (found c) := by
      intro c hc
      apply callNames_congr
      intro m _ t _
      rw [hfirst.mem]
      refine or_iff_left fun hin => hhost ?_
      have heq : c = host := hin.1
      exact heq ▸ hc
    refine ⟨_, w, hfirst.returns.bind (hrest.bind (returns_pure _ w)), fun n => ?_⟩
    rw [SortedSet.mem_union, hmem, List.exists_mem_cons_iff]
    refine or_congr_right (exists_congr fun c => and_congr_right fun hc => ?_)
    rw [hsame c hc]

theorem resolve_staticMethodOf (hr : (b.resolver settings).Reads names)
    (hnames : ∀ t, ∃ w, ((b.resolver settings).resolve t).Returns ∅ (names t) w)
    {host method : String} {o : Option (Located FunctionDecl)} (ho : Finds b method host o)
    {g : Guard} (hg : ∀ m ∈ o, ∀ t ∈ m.member.returnType, ¬ (host, t) ∈ g) :
    callNames names g host o = names (.staticMethodOf host method) := by
  obtain ⟨n, hn⟩ := Nat.exists_eq_add_of_le'
    (one_lt_bound_indirections (b.resolver settings) (.staticMethodOf host method) rfl)
  obtain ⟨ts, w, h⟩ := callOn_adds hr ho n
    (Guard.isProper_empty.insert "" (t := .staticMethodOf host method) rfl)
  have hrun : ((b.resolver settings).resolve (.staticMethodOf host method)).Returns ∅
      (callNames names ((∅ : Guard).insert "" (.staticMethodOf host method)) host o) w := by
    rw [resolve, hn]
    exact returns_once_of_not_mem (Guard.not_mem_empty _) h.returns
  obtain ⟨v, hstatic⟩ := hnames (.staticMethodOf host method)
  rw [← (hrun.unique hstatic).1]
  apply callNames_congr
  intro m hm t ht
  refine iff_of_false (hg m hm t ht) fun hin => ?_
  obtain heq | hin := Guard.mem_insert.mp hin
  · have hshallow : t.isShallow = true := ho.shallow m hm t ht
    have heq : t = .staticMethodOf host method := congrArg Prod.snd heq
    rw [heq] at hshallow
    exact Bool.false_ne_true hshallow
  · exact Guard.not_mem_empty _ hin

theorem agree_begun_call (receiver : SymType) (method : String) :
    Guard.Agree (fun p => p.2 ∈ receiver.indirections ∨ p.2.isShallow = true)
      ((∅ : Guard).insert "" (.methodOf receiver method)) ∅ where
  mem p hp := by
    refine iff_of_false (fun hin => ?_) (Guard.not_mem_empty p)
    obtain rfl | hin := Guard.mem_insert.mp hin
    · -- the call is larger than anything in its receiver
      obtain hp | hp := hp
      · exact SymType.not_mem_indirections_of_sizeOf_lt (by simp; omega) hp
      · exact Bool.false_ne_true hp
    · exact Guard.not_mem_empty p hin
  left := Guard.isProper_empty.insert "" rfl
  right := Guard.isProper_empty

theorem mem_resolve_methodOf (hb : b.Declares TypeUnion.IsPlain TypeUnion.IsShallow)
    (hr : (b.resolver settings).Reads names)
    (hnames : ∀ t, ∃ w, ((b.resolver settings).resolve t).Returns ∅ (names t) w)
    {receiver : SymType} {method : String} {found : String → Option (Located FunctionDecl)}
    (hfound : ∀ c, Finds b method c (found c)) (n : String) :
    n ∈ names (.methodOf receiver method) ↔ ∃ c ∈ names receiver,
      n ∈ callNames names ((b.resolver settings).resolve receiver ∅).state c (found c) := by
  obtain ⟨k, hk⟩ := Nat.exists_eq_add_of_le'
    (one_lt_bound_indirections (b.resolver settings) (.methodOf receiver method) rfl)
  have hdepth : 1 < k + 2 := by omega
  obtain ⟨hosts, v, w, hcall, hreceiver, hvw⟩ := expand_alike_of_shallow hb hr (fun _ => hdepth)
    (one_lt_bound_indirections (b.resolver settings) receiver) (fun x hx => .inl hx)
    (fun c x hx => .inr hx) _ _ (agree_begun_call receiver method)
  obtain ⟨all, u, hall, hmem⟩ := gather_callOn hr hfound k hosts.nodup hvw.left
  have hrun : ((b.resolver settings).resolve (.methodOf receiver method)).Returns ∅ all u := by
    rw [resolve, hk]
    exact returns_once_of_not_mem (Guard.not_mem_empty _) (hcall.bind hall)
  obtain ⟨_, hmethod⟩ := hnames (.methodOf receiver method)
  obtain ⟨_, hown⟩ := hnames receiver
  have hhosts : hosts = names receiver := (Returns.unique hreceiver hown).1
  have hstate : ((b.resolver settings).resolve receiver ∅).state = w := hreceiver.state
  rw [← (hrun.unique hmethod).1, hmem, hhosts, hstate]
  refine exists_congr fun c => and_congr_right fun _ => ?_
  rw [callNames_congr fun m hm t ht => hvw.mem (c, t) (.inr ((hfound c).shallow m hm t ht))]

/-- A method call on a receiver is the call on each class that the receiver stands for, where the
members of a return type that the receiver has begun for that class are left out. -/
theorem resolve_methodOf (b : Codebase) (settings : ResolverSettings)
    (hb : b.Declares TypeUnion.IsPlain TypeUnion.IsShallow) (receiver : SymType) (method : String) :
    ∃ (names : SymType → TypeNames) (found : String → Option (Located FunctionDecl)),
      (∀ t, ((b.resolver settings).resolve t ∅).answer = .ok (names t)) ∧
      (∀ c, (b.index.findMethod c method (∅ : Guard)).answer = .ok (found c)) ∧
      (∀ n, n ∈ names (.methodOf receiver method) ↔ ∃ c ∈ names receiver,
        n ∈ callNames names ((b.resolver settings).resolve receiver ∅).state c (found c)) ∧
      ∀ c, (∀ m ∈ found c, ∀ t ∈ m.member.returnType,
          ¬ (c, t) ∈ ((b.resolver settings).resolve receiver ∅).state) →
        callNames names ((b.resolver settings).resolve receiver ∅).state c (found c) =
          names (.staticMethodOf c method) := by
  choose names hnames using exists_returns_resolve_of_shallow settings hb
  choose found hfound using exists_finds hb method
  have hr := reads_of_returns_resolve hb hnames
  exact ⟨names, found, fun t => (hnames t).choose_spec.answer,
    fun c => ((hfound c).returns ∅).answer, mem_resolve_methodOf hb hr hnames hfound,
    fun c => resolve_staticMethodOf hr hnames (hfound c)⟩

def fluentClass : Codebase :=
  (({} : Codebase).insertGlobal "g" (TypeUnion.ofNames ["int"])).insertClass
    { name := "A"
      methods := [{ name := "m", returnType := TypeUnion.ofList [.named "A", .global "g"] }] }

theorem declares_fluentClass : fluentClass.Declares TypeUnion.IsPlain TypeUnion.IsShallow := by
  decide

theorem resolve_methodOf_fluentClass :
    fluentClass.Declares TypeUnion.IsPlain TypeUnion.IsShallow ∧
    ∃ (names : SymType → TypeNames) (found : String → Option (Located FunctionDecl)),
      (∀ t, ((fluentClass.resolver {}).resolve t ∅).answer = .ok (names t)) ∧
      (∀ c, (fluentClass.index.findMethod c "m" (∅ : Guard)).answer = .ok (found c)) ∧
      (∀ n, n ∈ names (.methodOf (.methodOf (.named "A") "m") "m") ↔
        ∃ c ∈ names (.methodOf (.named "A") "m"), n ∈ callNames names
          ((fluentClass.resolver {}).resolve (.methodOf (.named "A") "m") ∅).state c (found c)) ∧
      ∀ c, (∀ m ∈ found c, ∀ t ∈ m.member.returnType,
          ¬ (c, t) ∈ ((fluentClass.resolver {}).resolve (.methodOf (.named "A") "m") ∅).state) →
        callNames names ((fluentClass.resolver {}).resolve (.methodOf (.named "A") "m") ∅).state c
            (found c) =
          names (.staticMethodOf c "m") :=
  ⟨declares_fluentClass, resolve_methodOf _ _ declares_fluentClass _ _⟩

/-- The second call finds the global begun for the class by the first. -/
theorem resolve_methodOf_loses_global :
    fluentClass.Declares TypeUnion.IsPlain TypeUnion.IsShallow ∧
    ¬ ∃ names : SymType → TypeNames,
      (∀ t, ((fluentClass.resolver {}).resolve t ∅).answer = .ok (names t)) ∧
      ∀ n, n ∈ names (.methodOf (.methodOf (.named "A") "m") "m") ↔
        ∃ c ∈ names (.methodOf (.named "A") "m"), n ∈ names (.staticMethodOf c "m") := by
  refine ⟨declares_fluentClass, fun h => ?_⟩
  obtain ⟨names, hnames, hcompose⟩ := h
  have hfirst : names (.methodOf (.named "A") "m") = SortedSet.ofList ["A", "int"] :=
    Except.ok.inj ((hnames _).symm.trans rfl)
  have hsecond : names (.methodOf (.methodOf (.named "A") "m") "m") = SortedSet.ofList ["A"] :=
    Except.ok.inj ((hnames _).symm.trans rfl)
  have hstatic : names (.staticMethodOf "A" "m") = SortedSet.ofList ["A", "int"] :=
    Except.ok.inj ((hnames _).symm.trans rfl)
  have hint := (hcompose "int").mpr
    ⟨"A", by rw [hfirst, SortedSet.mem_ofList]; simp, by rw [hstatic, SortedSet.mem_ofList]; simp⟩
  rw [hsecond, SortedSet.mem_ofList] at hint
  exact absurd hint (by decide)

end Resolver

end SymbolicTypes
