import SymbolicTypes.Proofs.Inheritance.Explored

namespace SymbolicTypes

open Query Naming

/-- The search so far, with fewer than `k` classes to meet. -/
structure Underway (b : Codebase) (clear : ClassDecl → Prop) (next : ClassDecl → List String)
    (k : Nat) (path seen : List String) : Prop where
  explored : Explored b.class? clear next path seen
  card : (b.unmet seen).card < k

namespace Underway

variable {b : Codebase} {clear : ClassDecl → Prop} {next : ClassDecl → List String} {k : Nat}
  {path seen : List String} {name : String}

theorem start (b : Codebase) (clear : ClassDecl → Prop) (next : ClassDecl → List String) :
    Underway b clear next b.depth [] [] :=
  ⟨fun _ _ h => absurd h List.not_mem_nil, b.card_unmet_lt_depth⟩

theorem enter (h : Underway b clear next (k + 1) path seen) {c : ClassDecl}
    (hc : b.class? name = some c) (hmet : normalize name ∉ seen) :
    Underway b clear next k (normalize name :: path) (normalize name :: seen) where
  explored := h.explored.enter _
  card := by
    have hless := Codebase.card_unmet_cons_lt (.inl (SortedMap.mem_keys hc)) hmet
    exact Nat.lt_of_lt_of_le hless (Nat.le_of_lt_succ h.card)

theorem leave (h : Underway b clear next k (normalize name :: path) seen)
    (hname : ∀ c, b.class? name = some c → clear c ∧ ∀ n ∈ next c, normalize n ∈ seen) :
    Underway b clear next (k + 1) path seen where
  explored := h.explored.leave (fun _ heq => by simp only [Codebase.class?, heq]) hname
  card := Nat.lt_succ_of_lt h.card

theorem skip (h : Underway b clear next k path seen) (hc : b.class? name = none) :
    Underway b clear next k path (normalize name :: seen) where
  explored := (h.explored.enter _).leave (fun _ heq => by simp only [Codebase.class?, heq])
    (by simp [hc])
  card := Nat.lt_of_le_of_lt (b.card_unmet_le (List.subset_cons_self _ seen)) h.card

end Underway

namespace Query

variable {σ : Type} {seen : σ → List String} {inv : σ → Prop}

/-- From a state with the invariant the query says yes only if `yes` and no only if `no`. Where it
says no it keeps the invariant and what was met, and has met the names. -/
def Tells (seen : σ → List String) (inv : σ → Prop) (q : Query σ Bool) (yes no : Prop)
    (names : List String) : Prop :=
  ∀ s, inv s → ∃ r t, q.Returns s r t ∧ (r = true → yes) ∧
    (r = false → no ∧ inv t ∧ seen s ⊆ seen t ∧ ∀ n ∈ names, normalize n ∈ seen t)

theorem tells_true {yes no : Prop} (h : yes) (names : List String) :
    Tells seen inv (Pure.pure true) yes no names :=
  fun s _ => ⟨true, s, returns_pure true s, fun _ => h, by simp⟩

theorem Tells.imp {q : Query σ Bool} {yes yes' no no' : Prop} {names : List String}
    (h : Tells seen inv q yes no names) (hyes : yes → yes') (hno : no → no') :
    Tells seen inv q yes' no' names := by
  intro s hs
  obtain ⟨r, t, hq, hy, hn⟩ := h s hs
  exact ⟨r, t, hq, fun hr => hyes (hy hr), fun hr => (hn hr).imp_left hno⟩

theorem Tells.orElse {q q' : Query σ Bool} {yes yes' no no' : Prop} {names names' : List String}
    (h : Tells seen inv q yes no names) (h' : Tells seen inv q' yes' no' names') :
    Tells seen inv (do if ← q then Pure.pure true else q') (yes ∨ yes') (no ∧ no')
      (names ++ names') := by
  intro s hs
  obtain ⟨r, t, hq, hyes, hno⟩ := h s hs
  cases r with
  | true => exact ⟨true, t, hq.bind (returns_pure true t), fun _ => .inl (hyes rfl), by simp⟩
  | false =>
    obtain ⟨hno, ht, hseen, hnames⟩ := hno rfl
    obtain ⟨r', u, hq', hyes', hno'⟩ := h' t ht
    refine ⟨r', u, hq.bind hq', fun hr => .inr (hyes' hr), fun hr => ?_⟩
    obtain ⟨hno', hu, hseen', hnames'⟩ := hno' hr
    refine ⟨⟨hno, hno'⟩, hu, List.Subset.trans hseen hseen', ?_⟩
    exact List.forall_mem_append.mpr ⟨fun n hn => hseen' (hnames n hn), hnames'⟩

theorem Tells.anyOf {f : String → Query σ Bool} {yes no : String → Prop}
    (h : ∀ n, Tells seen inv (f n) (yes n) (no n) [n]) (names : List String) :
    Tells seen inv (Query.anyOf f names) (∃ n ∈ names, yes n) (∀ n ∈ names, no n) names := by
  induction names with
  | nil =>
    exact fun s hs => ⟨false, s, returns_pure false s, by simp, fun _ => ⟨by simp, hs, by simp⟩⟩
  | cons n names ih =>
    rw [List.exists_mem_cons_iff, List.forall_mem_cons]
    exact (h n).orElse ih

theorem anyOf_congr {f f' : String → Query σ Bool} {names : List String}
    (h : ∀ n ∈ names, f n = f' n) : Query.anyOf f names = Query.anyOf f' names := by
  induction names with
  | nil => rfl
  | cons n names ih =>
    rw [List.forall_mem_cons] at h
    rw [Query.anyOf, Query.anyOf, h.1, ih h.2]

def visit (seen : σ → List String) (add : σ → σ) (ix : Index) (name : String)
    (body : ClassDecl → Query σ Bool) : Query σ Bool := do
  if ← note (normalize name ∈ seen ·) add then
    match ← ix.class? name with
    | none => return false
    | some c => body c
  else return false

theorem tells_visit {b : Codebase} {clear : ClassDecl → Prop} {next : ClassDecl → List String}
    {k : Nat} {path : List String} {name : String} {rest : σ → Prop} {add : σ → σ}
    {body : ClassDecl → Query σ Bool} {yes : Prop}
    (hadd : ∀ s, seen (add s) = normalize name :: seen s) (hrest : ∀ s, rest s → rest (add s))
    (hbody : ∀ c, b.class? name = some c →
      Tells seen (fun s => Underway b clear next k (normalize name :: path) (seen s) ∧ rest s)
        (body c) yes (clear c) (next c)) :
    Tells seen (fun s => Underway b clear next (k + 1) path (seen s) ∧ rest s)
      (visit seen add b.index name body) yes True [name] := by
  rintro s ⟨hs, hs'⟩
  by_cases hmet : normalize name ∈ seen s
  · have hnote : (note (normalize name ∈ seen ·) add).Returns s false s := returns_note_of_met hmet
    refine ⟨false, s, hnote.bind (returns_pure false s), by simp, fun _ => ?_⟩
    exact ⟨trivial, ⟨hs, hs'⟩, List.Subset.refl _, by simpa using hmet⟩
  have hnote : (note (normalize name ∈ seen ·) add).Returns s true (add s) :=
    returns_note_of_not_met hmet
  obtain ⟨_, rfl, hdescribe⟩ := b.knows_class? (σ := σ) name
  cases hc : b.class? name with
  | none =>
    refine ⟨false, add s, hnote.bind ((hdescribe _).bind ?_), by simp, fun _ => ?_⟩
    · rw [hc]
      exact returns_pure false _
    · have hskip := hs.skip hc
      rw [← hadd] at hskip
      refine ⟨trivial, ⟨hskip, hrest s hs'⟩, ?_, by simp [hadd]⟩
      rw [hadd]
      exact List.subset_cons_self _ _
  | some c =>
    obtain ⟨r, t, hrun, hyes, hno⟩ := hbody c hc (add s)
      ⟨hadd s ▸ hs.enter hc hmet, hrest s hs'⟩
    refine ⟨r, t, hnote.bind ((hdescribe _).bind ?_), hyes, fun hr => ?_⟩
    · rw [hc]
      exact hrun
    · obtain ⟨hclear, ⟨ht, ht'⟩, hseen, hnext⟩ := hno hr
      rw [hadd, List.cons_subset] at hseen
      refine ⟨trivial, ⟨ht.leave fun d hd => ?_, ht'⟩, hseen.2, by simpa using hseen.1⟩
      rw [hc] at hd
      cases hd
      exact ⟨hclear, hnext⟩

end Query

end SymbolicTypes
