import SymbolicTypes.Query

namespace SymbolicTypes.Query

variable {σ τ α β : Type}

/-- From the state `s` the query answers `a` and leaves the state `t`. -/
structure Returns (q : Query σ α) (s : σ) (a : α) (t : σ) : Prop where
  answer : (q s).answer = .ok a
  state : (q s).state = t

theorem Returns.unique {q : Query σ α} {s t u : σ} {a b : α} (h : q.Returns s a t)
    (h' : q.Returns s b u) : a = b ∧ t = u := by
  have hab : Except.ok (ε := Lookup) a = .ok b := h.answer.symm.trans h'.answer
  exact ⟨Except.ok.inj hab, h.state.symm.trans h'.state⟩

theorem returns_pure (a : α) (s : σ) : Returns (Pure.pure a) s a s := ⟨rfl, rfl⟩

theorem returns_get (s : σ) : Returns get s s s := ⟨rfl, rfl⟩

theorem returns_set (s t : σ) : Returns (set t) s () t := ⟨rfl, rfl⟩

theorem returns_step (e : Step) (s : σ) : Returns (step e) s () s := ⟨rfl, rfl⟩

theorem returns_emit (e : Event) (s : σ) : Returns (emit e) s () s := ⟨rfl, rfl⟩

theorem bind_of_ok {q : Query σ α} {f : α → Query σ β} {s t : σ} {a : α} {steps : List Step}
    (h : q s = ⟨.ok a, t, steps⟩) :
    (q >>= f) s = ⟨(f a t).answer, (f a t).state, steps ++ (f a t).steps⟩ := by
  change Query.bind q f s = _
  simp only [Query.bind, h]

theorem Returns.bind {q : Query σ α} {f : α → Query σ β} {s t u : σ} {a : α} {b : β}
    (hq : q.Returns s a t) (hf : (f a).Returns t b u) : Returns (q >>= f) s b u := by
  have hqs : q s = ⟨.ok a, t, (q s).steps⟩ := by rw [← hq.answer, ← hq.state]
  constructor
  · rw [bind_of_ok hqs]
    exact hf.answer
  · rw [bind_of_ok hqs]
    exact hf.state

theorem Returns.isolated {q : Query τ α} {t u : τ} {a : α} (h : q.Returns t a u) (s : σ) :
    Returns (Query.isolated t q) s a s :=
  ⟨h.answer, rfl⟩

theorem Returns.asMember {q : Query σ α} {s t : σ} {a : α} (h : q.Returns s a t) (e : SymType) :
    (Query.asMember e q).Returns s a t := by
  have hqs : q s = ⟨.ok a, t, (q s).steps⟩ := by rw [← h.answer, ← h.state]
  have hrun : Query.asMember e q s = ⟨.ok a, t, .opened e :: (q s).steps ++ [.closed e]⟩ := by
    rw [Query.asMember, hqs]
  exact ⟨by rw [hrun], by rw [hrun]⟩

/-- Adds to the state unless it is met already, and tells whether it did. -/
def note (met : σ → Prop) [DecidablePred met] (add : σ → σ) : Query σ Bool := do
  let s ← get
  if met s then return false
  set (add s)
  return true

section

variable {met : σ → Prop} [DecidablePred met] {add : σ → σ} {s : σ}

theorem returns_note_of_met (h : met s) : (note met add).Returns s false s := by
  apply (returns_get s).bind
  rw [if_pos h]
  exact returns_pure _ _

theorem returns_note_of_not_met (h : ¬ met s) : (note met add).Returns s true (add s) := by
  apply (returns_get s).bind
  rw [if_neg h]
  exact (returns_set _ _).bind (returns_pure _ _)

end

def Answers (q : Query σ α) (P : α → Prop) : Prop := ∀ s, ∃ a t, q.Returns s a t ∧ P a

/-- The answer is the same from every state and has the property, and the state stays. -/
def Knows (q : Query σ α) (P : α → Prop) : Prop := ∃ a, P a ∧ ∀ s, q.Returns s a s

section

variable {q : Query σ α} {f g : α → Query σ β} {P : α → Prop} {Q : β → Prop}

theorem answers_pure {a : α} (h : P a) : Answers (σ := σ) (Pure.pure a) P :=
  fun s => ⟨a, s, returns_pure a s, h⟩

theorem Answers.bind (hq : q.Answers P) (hf : ∀ a, P a → (f a).Answers Q) :
    Answers (q >>= f) Q := by
  intro s
  obtain ⟨a, t, hq, ha⟩ := hq s
  obtain ⟨b, u, hf, hb⟩ := hf a ha t
  exact ⟨b, u, hq.bind hf, hb⟩

theorem Answers.firstSome {f : String → Query σ (Option β)} {as : List String}
    (h : ∀ a, (f a).Answers fun o => ∀ b ∈ o, Q b) :
    (Query.firstSome f as).Answers fun o => ∀ b ∈ o, Q b := by
  induction as with
  | nil => exact answers_pure (by simp)
  | cons a as ih =>
    apply (h a).bind
    intro o ho
    cases o with
    | none => exact ih
    | some b => exact answers_pure ho

theorem Answers.asMember (h : q.Answers P) (e : SymType) : (Query.asMember e q).Answers P := by
  intro s
  obtain ⟨a, t, hq, ha⟩ := h s
  exact ⟨a, t, hq.asMember e, ha⟩

theorem Answers.isolated {q : Query τ α} (h : q.Answers P) (t : τ) :
    Knows (σ := σ) (Query.isolated t q) P := by
  obtain ⟨a, u, hq, ha⟩ := h t
  exact ⟨a, ha, hq.isolated⟩

theorem knows_pure {a : α} (h : P a) : Knows (σ := σ) (Pure.pure a) P :=
  ⟨a, h, returns_pure a⟩

theorem Knows.bind (hq : q.Knows P) (hf : ∀ a, P a → (f a).Knows Q) : Knows (q >>= f) Q := by
  obtain ⟨a, ha, hq⟩ := hq
  obtain ⟨b, hb, hf⟩ := hf a ha
  exact ⟨b, hb, fun s => (hq s).bind (hf s)⟩

theorem Knows.answers (h : q.Knows P) : q.Answers P := by
  obtain ⟨a, ha, h⟩ := h
  exact fun s => ⟨a, s, h s, ha⟩

theorem knows_firstSome {f : String → Query σ (Option β)} {find : String → Option β}
    (h : ∀ a, (f a).Knows (· = find a)) (as : List String) :
    (Query.firstSome f as).Knows (· = as.findSome? find) := by
  induction as with
  | nil => exact knows_pure rfl
  | cons a as ih =>
    apply (h a).bind
    rintro o rfl
    cases ha : find a with
    | some b => exact knows_pure (by rw [List.findSome?_cons, ha])
    | none =>
      rw [List.findSome?_cons, ha]
      exact ih

end

/-- Run from related states, the two queries give one answer and leave related states behind. -/
def Alike (R : σ → σ → Prop) (q q' : Query σ α) : Prop :=
  ∀ s s', R s s' → ∃ a t t', q.Returns s a t ∧ q'.Returns s' a t' ∧ R t t'

section

variable {R : σ → σ → Prop} {q q' : Query σ α} {f f' : α → Query σ β} {P : α → Prop}

theorem alike_pure (a : α) : Alike R (Pure.pure a) (Pure.pure a) :=
  fun s s' hs => ⟨a, s, s', returns_pure a s, returns_pure a s', hs⟩

theorem Alike.bind (hq : Alike R q q') (hf : ∀ a, Alike R (f a) (f' a)) :
    Alike R (q >>= f) (q' >>= f') := by
  intro s s' hs
  obtain ⟨a, t, t', hq, hq', ht⟩ := hq s s' hs
  obtain ⟨b, u, u', hf, hf', hu⟩ := hf a t t' ht
  exact ⟨b, u, u', hq.bind hf, hq'.bind hf', hu⟩

theorem Knows.alike (h : q.Knows P) : Alike R q q := by
  obtain ⟨a, _, h⟩ := h
  exact fun s s' hs => ⟨a, s, s', h s, h s', hs⟩

theorem knows_of_alike [Inhabited σ] (h : ∀ R, Alike R q q) : q.Knows fun _ => True := by
  obtain ⟨a, _, _, ha, _⟩ := h (fun _ _ => True) default default trivial
  refine ⟨a, trivial, fun s => ?_⟩
  -- a relation to the state `s` alone is kept as well
  obtain ⟨b, _, u, hb, hs, hu⟩ := h (fun _ u => u = s) default s rfl
  have hab : a = b := (ha.unique hb).1
  exact hab ▸ hu ▸ hs

theorem Alike.asMember (h : Alike R q q') (e : SymType) :
    Alike R (Query.asMember e q) (Query.asMember e q') := by
  intro s s' hs
  obtain ⟨a, t, t', hq, hq', ht⟩ := h s s' hs
  exact ⟨a, t, t', hq.asMember e, hq'.asMember e, ht⟩

theorem exists_returns_of_alike {ι : Type} (run : ι → Query σ α) (within : ι → Prop)
    (h : ∀ i j, within i → within j → Alike R (run i) (run j)) (hR : ∀ s s', R s s' → s = s')
    {s : σ} (hs : R s s) (i : ι) (hi : within i) :
    ∃ a t, R t t ∧ ∀ j, within j → (run j).Returns s a t := by
  obtain ⟨a, t, t', hrun, _, ht⟩ := h i i hi hi s s hs
  obtain rfl := hR t t' ht
  refine ⟨a, t, ht, fun j hj => ?_⟩
  obtain ⟨_, _, u, hrun', hrunj, hu⟩ := h i j hi hj s s hs
  obtain ⟨rfl, rfl⟩ := hrun'.unique hrun
  rwa [hR _ u hu]

theorem Knows.bind_alike (hq : q.Knows P) (hf : ∀ a, P a → Alike R (f a) (f' a)) :
    Alike R (q >>= f) (q >>= f') := by
  intro s s' hs
  obtain ⟨a, ha, hq⟩ := hq
  obtain ⟨b, t, t', hf, hf', ht⟩ := hf a ha s s' hs
  exact ⟨b, t, t', (hq s).bind hf, (hq s').bind hf', ht⟩

end

end SymbolicTypes.Query
