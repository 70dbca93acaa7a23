import SymbolicTypes.Proofs.Inheritance.Explored

namespace SymbolicTypes

open Query Naming

theorem ClassDecl.mem_parents_iff {c : ClassDecl} {name : String} :
    name ∈ c.parents ↔ c.parent = some name ∧ name ≠ "" := by
  simp [parents]

theorem ClassDecl.findSome?_parents {α : Type} (c : ClassDecl) (find : String → Option α) :
    c.parents.findSome? find = (c.parent.filter (· ≠ "")).bind find := by
  unfold parents
  cases c.parent with
  | none => rfl
  | some name =>
    by_cases hname : name = ""
    · simp [Option.filter, hname]
    · simp [Option.filter, hname]

namespace SearchPlan

variable {σ M : Type} {b : Codebase} {p : SearchPlan M}

theorem described?_congr {name name' : String} (h : normalize name = normalize name') :
    p.described? b name = p.described? b name' := by
  simp only [described?, Codebase.classOrTrait?, Codebase.class?, Codebase.trait?, h]

def Leads (p : SearchPlan M) (b : Codebase) (name next : String) : Prop :=
  ∃ c, p.described? b name = some c ∧ next ∈ p.before c ++ p.after c

abbrev Reaches (p : SearchPlan M) (b : Codebase) : String → String → Prop :=
  Relation.ReflTransGen (p.Leads b)

/-- What there is to find at a class, given what there is at the names it leads to. -/
def turn (p : SearchPlan M) (find : String → Option (Located M)) (name : String) (c : ClassDecl) :
    Option (Located M) :=
  ((p.before c).findSome? find).or
    (((p.own c).map fun m => ⟨m, name⟩).or ((p.after c).findSome? find))

/-- A search that knows the way it has come and nothing else: it gives a name up only if the name
stands on that way already. -/
structure ByPath (p : SearchPlan M) (b : Codebase)
    (find : List String → String → Option (Located M)) : Prop where
  of_mem : ∀ path name, normalize name ∈ path → find path name = none
  of_none : ∀ path name, normalize name ∉ path → p.described? b name = none → find path name = none
  of_some : ∀ path name c, normalize name ∉ path → p.described? b name = some c →
    find path name = p.turn (find (normalize name :: path)) name c

/-- The names that were met are on the path or done: what is done has no such member of its own and
leads to names that were met. -/
def Done (p : SearchPlan M) (b : Codebase) (path seen : List String) : Prop :=
  ∀ name c, normalize name ∈ seen → normalize name ∉ path → p.described? b name = some c →
    p.own c = none ∧ ∀ n ∈ p.before c ++ p.after c, normalize n ∈ seen

theorem turn_eq_none_iff {find : String → Option (Located M)} {name : String} {c : ClassDecl} :
    p.turn find name c = none ↔ p.own c = none ∧ ∀ n ∈ p.before c ++ p.after c, find n = none := by
  simp only [turn, Option.or_eq_none_iff, List.findSome?_eq_none_iff, Option.map_eq_none_iff,
    List.forall_mem_append]
  exact and_left_comm

variable {path seen : List String} {find : List String → String → Option (Located M)}

theorem done_iff_explored : p.Done b path seen ↔
    Explored (p.described? b) (fun c => p.own c = none) (fun c => p.before c ++ p.after c) path seen :=
  Iff.rfl

theorem Done.mono {path' : List String} (h : p.Done b path seen) (hpath : path ⊆ path') :
    p.Done b path' seen :=
  (done_iff_explored.mp h).mono hpath

theorem Done.enter (h : p.Done b path seen) (k : String) :
    p.Done b (k :: path) (k :: seen) :=
  (done_iff_explored.mp h).enter k

theorem Done.leave {name : String} (h : p.Done b (normalize name :: path) seen)
    (hname : ∀ c, p.described? b name = some c →
      p.own c = none ∧ ∀ n ∈ p.before c ++ p.after c, normalize n ∈ seen) :
    p.Done b path seen :=
  (done_iff_explored.mp h).leave (fun _ => described?_congr) hname

/-- Along a path the classes that are left become fewer, so that a search by path comes to an
end. -/
theorem pathInduction (p : SearchPlan M) (b : Codebase) {motive : List String → String → Prop}
    (of_mem : ∀ path name, normalize name ∈ path → motive path name)
    (of_none : ∀ path name, normalize name ∉ path → p.described? b name = none → motive path name)
    (of_some : ∀ path name c, normalize name ∉ path → p.described? b name = some c →
      (∀ n, motive (normalize name :: path) n) → motive path name)
    (path : List String) (name : String) : motive path name := by
  induction hcard : (b.unmet path).card using Nat.strongRecOn generalizing path name with
  | ind k ih =>
    by_cases hpath : normalize name ∈ path
    · exact of_mem path name hpath
    cases hc : p.described? b name with
    | none => exact of_none path name hpath hc
    | some c =>
      have hless := Codebase.card_unmet_cons_lt (mem_keys_of_described? hc) hpath
      exact of_some path name c hpath hc fun n => ih _ (hcard ▸ hless) _ n rfl

theorem ByPath.eq_none_of_done (hfind : p.ByPath b find) (h : p.Done b path seen) {name : String}
    (hname : normalize name ∈ seen) : find path name = none := by
  induction path, name using pathInduction p b with
  | of_mem path name hpath => exact hfind.of_mem path name hpath
  | of_none path name hpath hc => exact hfind.of_none path name hpath hc
  | of_some path name c hpath hc ih =>
    obtain ⟨hown, hnext⟩ := h name c hname hpath hc
    rw [hfind.of_some path name c hpath hc, turn_eq_none_iff]
    exact ⟨hown, fun n hn => ih n (h.mono (List.subset_cons_self _ path)) (hnext n hn)⟩

theorem ByPath.found_cases (hfind : p.ByPath b find) {name : String} {found : Located M}
    (h : find path name = some found) :
    ∃ c, normalize name ∉ path ∧ p.described? b name = some c ∧
      ((found.host = name ∧ p.own c = some found.member ∧
          ∀ n ∈ p.before c, find (normalize name :: path) n = none) ∨
        ∃ n ∈ p.before c ++ p.after c, find (normalize name :: path) n = some found) := by
  by_cases hpath : normalize name ∈ path
  · exact absurd ((hfind.of_mem path name hpath).symm.trans h) (by simp)
  cases hc : p.described? b name with
  | none => exact absurd ((hfind.of_none path name hpath hc).symm.trans h) (by simp)
  | some c =>
    refine ⟨c, hpath, rfl, ?_⟩
    rw [hfind.of_some path name c hpath hc, turn, Option.or_eq_some_iff] at h
    obtain h | ⟨hbefore, h⟩ := h
    · obtain ⟨n, hn, hfound⟩ := List.exists_of_findSome?_eq_some h
      exact .inr ⟨n, List.mem_append_left _ hn, hfound⟩
    obtain h | ⟨-, h⟩ := Option.or_eq_some_iff.mp h
    · obtain ⟨m, hm, rfl⟩ := Option.map_eq_some_iff.mp h
      exact .inl ⟨rfl, hm, List.findSome?_eq_none_iff.mp hbefore⟩
    · obtain ⟨n, hn, hfound⟩ := List.exists_of_findSome?_eq_some h
      exact .inr ⟨n, List.mem_append_right _ hn, hfound⟩

/-- Induction on the way to what is found, from its host back to the start. -/
theorem ByPath.foundInduction (hfind : p.ByPath b find) {found : Located M}
    {motive : List String → String → Prop}
    (own : ∀ path c, normalize found.host ∉ path → p.described? b found.host = some c →
      p.own c = some found.member → motive path found.host)
    (next : ∀ path name n, p.Leads b name n → motive (normalize name :: path) n →
      motive path name)
    {name : String} (h : find path name = some found) : motive path name := by
  induction path, name using pathInduction p b with
  | of_mem path name hpath => exact absurd ((hfind.of_mem path name hpath).symm.trans h) (by simp)
  | of_none path name hpath hc =>
    exact absurd ((hfind.of_none path name hpath hc).symm.trans h) (by simp)
  | of_some path name c hpath hc ih =>
    obtain ⟨d, -, hd, ⟨rfl, hm, -⟩ | ⟨n, hn, hfound⟩⟩ := hfind.found_cases h
    · exact own path d hpath hd hm
    · exact next path name n ⟨d, hd, hn⟩ (ih n hfound)

theorem ByPath.sound (hfind : p.ByPath b find) {name : String} {found : Located M}
    (h : find path name = some found) :
    p.Reaches b name found.host ∧
      ∃ c, p.described? b found.host = some c ∧ p.own c = some found.member := by
  refine hfind.foundInduction (motive := fun _ name => p.Reaches b name found.host ∧
    ∃ c, p.described? b found.host = some c ∧ p.own c = some found.member) ?own ?next h
  case own => exact fun _ c _ hc hm => ⟨.refl, c, hc, hm⟩
  case next => exact fun _ _ _ hleads ih => ⟨.head hleads ih.1, ih.2⟩

theorem ByPath.not_mem_path (hfind : p.ByPath b find) {name : String} {found : Located M}
    (h : find path name = some found) : normalize found.host ∉ path := by
  refine hfind.foundInduction (motive := fun path _ => normalize found.host ∉ path) ?own ?next h
  case own => exact fun _ _ hpath _ _ => hpath
  case next => exact fun _ _ _ _ ih hin => ih (List.mem_cons_of_mem _ hin)

theorem ByPath.own_of_host_eq (hfind : p.ByPath b find) {name : String} {c : ClassDecl}
    {found : Located M} (hc : p.described? b name = some c) (h : find path name = some found)
    (hhost : normalize found.host = normalize name) :
    p.own c = some found.member ∧ ∀ n ∈ p.before c, find (normalize name :: path) n = none := by
  obtain ⟨d, -, hd, ⟨-, hown⟩ | ⟨n, -, hfound⟩⟩ := hfind.found_cases h
  · rw [hc] at hd
    cases hd
    exact hown
  · -- further on the name of the class stands on the path, so that it is no host any more
    exact absurd (hhost ▸ List.mem_cons_self) (hfind.not_mem_path hfound)

/-- From a state in which all that was met is on the path or done, and with fewer than `k` classes
to meet, the query answers `o`; where that is nothing it has met the names as well, and they are
done. -/
def Follows (p : SearchPlan M) (b : Codebase) (k : Nat) (path : List String)
    (q : Query (List String) (Option (Located M))) (o : Option (Located M)) (names : List String) :
    Prop :=
  ∀ seen, path ⊆ seen → p.Done b path seen → (b.unmet seen).card < k →
    ∃ w, q.Returns seen o w ∧
      (o = none → seen ⊆ w ∧ p.Done b path w ∧ ∀ n ∈ names, normalize n ∈ w)

variable {k : Nat}

theorem follows_pure_some (found : Located M) (names : List String) :
    Follows p b k path (Pure.pure (some found)) (some found) names :=
  fun seen _ _ _ => ⟨seen, returns_pure _ seen, fun h => absurd h (by simp)⟩

theorem Follows.orElse {q : Query (List String) (Option (Located M))}
    {rest : Option (Located M) → Query (List String) (Option (Located M))}
    {o o' : Option (Located M)} {names names' : List String} (hq : Follows p b k path q o names)
    (hsome : ∀ found, rest (some found) = Pure.pure (some found))
    (hrest : Follows p b k path (rest none) o' names') :
    Follows p b k path (q >>= rest) (o.or o') (names ++ names') := by
  intro seen hpath hdone hcard
  obtain ⟨v, hrun, hv⟩ := hq seen hpath hdone hcard
  cases o with
  | some found =>
    refine ⟨v, hrun.bind ?_, fun h => absurd h (by simp)⟩
    rw [hsome]
    exact returns_pure _ v
  | none =>
    obtain ⟨hseen, hdone, hnames⟩ := hv rfl
    obtain ⟨w, hrun', hw⟩ := hrest v (List.Subset.trans hpath hseen) hdone
      (Nat.lt_of_le_of_lt (b.card_unmet_le hseen) hcard)
    refine ⟨w, hrun.bind hrun', fun ho => ?_⟩
    obtain ⟨hvw, hdone, hnames'⟩ := hw ho
    refine ⟨List.Subset.trans hseen hvw, hdone, ?_⟩
    exact List.forall_mem_append.mpr ⟨fun n hn => hvw (hnames n hn), hnames'⟩

theorem follows_firstSome {f : String → Query (List String) (Option (Located M))}
    {find : String → Option (Located M)} (h : ∀ n, Follows p b k path (f n) (find n) [n])
    (names : List String) :
    Follows p b k path (Query.firstSome f names) (names.findSome? find) names := by
  induction names with
  | nil =>
    intro seen _ hdone _
    exact ⟨seen, returns_pure none seen, fun _ => ⟨List.Subset.refl seen, hdone, by simp⟩⟩
  | cons n names ih =>
    have hor : (n :: names).findSome? find = (find n).or (names.findSome? find) := by
      rw [List.findSome?_cons]
      cases find n <;> rfl
    rw [hor]
    exact (h n).orElse (fun _ => rfl) ih

theorem follows_explore {next : String → Query (List String) (Option (Located M))}
    {find : String → Option (Located M)} (h : ∀ n, Follows p b k path (next n) (find n) [n])
    (name : String) (c : ClassDecl) :
    Follows p b k path (p.explore next name c) (p.turn find name c) (p.before c ++ p.after c) := by
  unfold explore turn
  apply Follows.orElse (follows_firstSome h (p.before c))
  · exact fun _ => rfl
  · cases p.own c with
    | some m => exact follows_pure_some ⟨m, name⟩ (p.after c)
    | none => exact follows_firstSome h (p.after c)

/-- The search that shares what it has met follows the one that knows its path alone. -/
theorem follows_search (hfind : p.ByPath b find) (depth : Nat) (path : List String)
    (name : String) :
    Follows p b depth path (p.search b.index depth name) (find path name) [name] := by
  induction depth generalizing path name with
  -- the depth cannot run out while a class is left to meet
  | zero => exact fun seen _ _ hcard => absurd hcard (Nat.not_lt_zero _)
  | succ depth ih =>
    intro seen hpath hdone hcard
    rw [search_succ]
    by_cases hmet : normalize name ∈ seen
    · rw [hfind.eq_none_of_done hdone hmet]
      exact ⟨seen, returns_visit_of_mem hmet,
        fun _ => ⟨List.Subset.refl seen, hdone, by simpa using hmet⟩⟩
    have hnew : normalize name ∉ path := fun hin => hmet (hpath hin)
    have henter := hdone.enter (normalize name)
    cases hc : p.described? b name with
    | none =>
      rw [hfind.of_none path name hnew hc]
      refine ⟨_, returns_visit_of_none hmet hc, fun _ =>
        ⟨List.subset_cons_self _ seen, ?_, by simp⟩⟩
      exact henter.leave (by simp [hc])
    | some c =>
      have hless := Codebase.card_unmet_cons_lt (mem_keys_of_described? hc) hmet
      obtain ⟨w, hrun, hw⟩ := follows_explore (ih (normalize name :: path)) name c _
        (List.cons_subset_cons _ hpath) henter (Nat.lt_of_lt_of_le hless (Nat.le_of_lt_succ hcard))
      rw [hfind.of_some path name c hnew hc]
      refine ⟨w, returns_visit_of_some hmet hc hrun, fun hnone => ?_⟩
      obtain ⟨hseen, hdone, hnames⟩ := hw hnone
      obtain ⟨hname, hseen⟩ := List.cons_subset.mp hseen
      refine ⟨hseen, hdone.leave ?_, by simpa using hname⟩
      intro d hd
      rw [hc] at hd
      cases hd
      exact ⟨(turn_eq_none_iff.mp hnone).1, hnames⟩

theorem ByPath.exists_returns_search (hfind : p.ByPath b find) (host : String) :
    ∃ w, (p.search b.index b.depth host).Returns [] (find [] host) w ∧
      (find [] host = none → p.Done b [] w ∧ normalize host ∈ w) := by
  have hdone : p.Done b [] [] := fun _ _ h => absurd h List.not_mem_nil
  obtain ⟨w, hrun, hw⟩ := follows_search hfind b.depth [] host [] (List.Subset.refl [])
    hdone b.card_unmet_lt_depth
  refine ⟨w, hrun, fun hnone => ?_⟩
  obtain ⟨-, hdone, hhost⟩ := hw hnone
  exact ⟨hdone, hhost host List.mem_cons_self⟩

/-- Sharing what was met changes nothing in what is found. -/
theorem ByPath.returns_run (hfind : p.ByPath b find) (host : String) (s : σ) :
    (p.run b.index host).Returns s (find [] host) s := by
  obtain ⟨_, hrun, -⟩ := hfind.exists_returns_search host
  exact hrun.isolated s

theorem ByPath.complete (hfind : p.ByPath b find) {host name : String} {c : ClassDecl}
    (h : find [] host = none) (hreach : p.Reaches b host name)
    (hc : p.described? b name = some c) : p.own c = none := by
  obtain ⟨w, -, hw⟩ := hfind.exists_returns_search host
  obtain ⟨hdone, hhost⟩ := hw h
  exact (done_iff_explored.mp hdone).clear_of_reaches hhost hreach hc

end SearchPlan

end SymbolicTypes
