import SymbolicTypes.Proofs.Resolution.Guard
import SymbolicTypes.Proofs.Resolution.Meaning

namespace SymbolicTypes

open Query TypeNames

namespace Resolver

variable {σ α : Type} {b : Codebase} {settings : ResolverSettings} {context : String} {t : SymType}

abbrev AnswersIn (q : Query σ TypeNames) (P : String → Prop) : Prop :=
  q.Answers fun names => ∀ n ∈ names, P n

theorem answersIn_empty {P : String → Prop} : AnswersIn (σ := σ) (Pure.pure ∅) P :=
  answers_pure fun _ h => absurd h SortedSet.not_mem_empty

theorem AnswersIn.imp {q : Query σ TypeNames} {P Q : String → Prop} (h : AnswersIn q P)
    (hPQ : ∀ n, P n → Q n) : AnswersIn q Q := by
  intro s
  obtain ⟨names, t, hrun, hnames⟩ := h s
  exact ⟨names, t, hrun, fun n hn => hPQ n (hnames n hn)⟩

theorem once_answersIn {q : Query Guard TypeNames} {P : String → Prop} (hq : AnswersIn q P) :
    AnswersIn (once context t q) P := by
  intro g
  by_cases h : (context, t) ∈ g
  · exact ⟨∅, g, returns_once_of_mem h, fun _ hn => absurd hn SortedSet.not_mem_empty⟩
  · obtain ⟨names, w, hq, hnames⟩ := hq (g.insert context t)
    exact ⟨names, w, returns_once_of_not_mem h hq, hnames⟩

theorem gather_answersIn {f : α → Query σ TypeNames} {l : List α} {P : String → Prop}
    (h : ∀ a ∈ l, AnswersIn (f a) P) : AnswersIn (gather f l) P := by
  induction l with
  | nil => exact answersIn_empty
  | cons a l ih =>
    apply (h a List.mem_cons_self).bind
    intro names hnames
    apply (ih fun x hx => h x (List.mem_cons_of_mem a hx)).bind
    intro rest hrest
    exact answers_pure fun n hn => (SortedSet.mem_union.mp hn).elim (hnames n) (hrest n)

section

variable {d : String → TypeUnion → Query Guard TypeNames}

theorem callOn_answersIn (hd : ∀ c u, AnswersIn (d c u) (b.UnionMeans settings c u))
    (method host : String) :
    AnswersIn ((b.resolver settings).callOn d method host) fun n =>
      ∃ m, b.findMethod? host method = some m ∧
        ∃ k, b.UnionMeans settings host m.member.returnType k ∧ forStatic host k = n := by
  apply (b.knows_findMethod? host method).answers.bind
  rintro o rfl
  cases hm : b.findMethod? host method with
  | none => exact answersIn_empty
  | some m =>
    apply (hd host m.member.returnType).bind
    intro names hnames
    apply answers_pure
    intro n hn
    obtain ⟨k, hk, rfl⟩ := mem_bindStatic.mp hn
    exact ⟨m, rfl, k, hnames k hk, rfl⟩

theorem fetch_answersIn (hd : ∀ u, AnswersIn (d context u) (b.UnionMeans settings context u))
    (property : String) {hosts : List String} (hhosts : ∀ h ∈ hosts, b.Means settings context t h)
    {found : TypeNames} (hfound : ∀ n ∈ found, b.Means settings context (.propertyOf t property) n) :
    AnswersIn ((b.resolver settings).fetch (d context) property hosts found)
      (b.Means settings context (.propertyOf t property)) := by
  induction hosts generalizing found with
  | nil => exact answers_pure hfound
  | cons host hosts ih =>
    have hhost := hhosts host List.mem_cons_self
    have hrest : ∀ h ∈ hosts, b.Means settings context t h :=
      fun h hh => hhosts h (List.mem_cons_of_mem host hh)
    apply (b.knows_findProperty? host property).answers.bind
    rintro o rfl
    cases hp : b.findProperty? host property with
    | some p =>
      apply (hd p.member.type).bind
      intro names hnames
      apply ih hrest
      intro n hn
      obtain hn | hn := SortedSet.mem_union.mp hn
      · exact hfound n hn
      · obtain ⟨e, he, m, hm, rfl⟩ := hnames n hn
        exact .propertyOf hhost hp he hm
    | none =>
      apply (b.knows_magicGetter settings host).answers.bind
      rintro o rfl
      cases hgetter : b.magicGetter? settings host with
      | some getter =>
        apply (hd getter.member.returnType).imp
        rintro _ ⟨e, he, m, hm, rfl⟩
        exact .getterOf hhost hp hgetter he hm
      | none => exact ih hrest hfound

theorem expand_answersIn (hd : ∀ c u, AnswersIn (d c u) (b.UnionMeans settings c u))
    (context : String) (t : SymType) :
    AnswersIn ((b.resolver settings).expand d context t) (b.Means settings context t) := by
  induction t with
  | named n =>
    apply answers_pure
    intro m hm
    obtain rfl : m = n := by simpa using hm
    exact .named
  | global | constant | callOf | staticPropertyOf | interfaceParam =>
    rw [expand_reference _ _ _ rfl]
    apply once_answersIn
    apply (b.knows_target settings _).answers.bind
    rintro o rfl
    cases hu : b.target? settings _ with
    | none => exact answersIn_empty
    | some u =>
      apply (hd _ u).imp
      rintro _ ⟨e, he, m, hm, rfl⟩
      exact .reference hu he hm
  | arrayOf e ih =>
    apply once_answersIn
    apply ih.bind
    intro names hnames
    apply answers_pure
    intro n hn
    obtain ⟨m, hm, rfl⟩ := mem_wrapArray.mp hn
    exact .arrayOf (hnames m hm)
  | elementOf e ih =>
    apply once_answersIn
    apply ih.bind
    intro names hnames
    apply answers_pure
    intro n hn
    obtain harray | ⟨rfl, hmixed⟩ := mem_unwrapArray.mp hn
    · exact .elementOf (hnames _ harray)
    · exact .elementOf_mixed (hnames _ hmixed)
  | methodOf e method ih =>
    apply once_answersIn
    apply ih.bind
    intro hosts hhosts
    apply gather_answersIn
    intro host hhost
    apply (callOn_answersIn hd method host).imp
    rintro _ ⟨m, hm, _, ⟨e, he, k, hk, rfl⟩, rfl⟩
    exact .methodOf (hhosts host hhost) hm he hk
  | propertyOf e property ih =>
    apply once_answersIn
    apply ih.bind
    intro hosts hhosts
    exact fetch_answersIn (hd context) property hhosts
      fun _ hn => absurd hn SortedSet.not_mem_empty
  | staticMethodOf host method =>
    apply once_answersIn
    apply (callOn_answersIn hd method host).imp
    rintro _ ⟨m, hm, _, ⟨e, he, k, hk, rfl⟩, rfl⟩
    exact .staticMethodOf hm he hk

end

theorem expandUnion_answersIn (b : Codebase) (settings : ResolverSettings) (depth : Nat)
    (context : String) (u : TypeUnion) :
    AnswersIn ((b.resolver settings).expandUnion depth context u)
      (b.UnionMeans settings context u) := by
  induction depth generalizing context u with
  | zero => exact answersIn_empty
  | succ depth ih =>
    have hmembers : AnswersIn
        (gather (fun t => Query.asMember t ((b.resolver settings).expand
          ((b.resolver settings).expandUnion depth) context t)) u.toList)
        fun n => ∃ e ∈ u, b.Means settings context e n := by
      apply gather_answersIn
      intro e he
      have hmember := (expand_answersIn ih context e).asMember e
      exact AnswersIn.imp hmember fun n hn => ⟨e, he, hn⟩
    apply hmembers.bind
    intro names hnames
    apply answers_pure
    intro n hn
    obtain ⟨m, hm, hsettled⟩ := exists_settled_of_mem hn
    obtain ⟨e, he, hmeans⟩ := hnames m hm
    exact ⟨e, he, m, hmeans, hsettled⟩

/-- Expansion invents no names: from any guard there is an answer, and everything in it can be
derived by following declarations alone. -/
theorem resolve_sound (b : Codebase) (settings : ResolverSettings) (g : Guard) :
    (∀ t, ∃ names w, ((b.resolver settings).resolve t).Returns g names w ∧
      ∀ n ∈ names, b.Means settings "" t n) ∧
    ∀ u, ∃ names w, ((b.resolver settings).resolveUnion u).Returns g names w ∧
      ∀ n ∈ names, b.UnionMeans settings "" u n := by
  constructor
  · intro t
    exact expand_answersIn (expandUnion_answersIn b settings _) "" t g
  · intro u
    exact expandUnion_answersIn b settings _ "" u g

end Resolver

end SymbolicTypes
