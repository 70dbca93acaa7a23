import SymbolicTypes.Proofs.Query.Returns

namespace SymbolicTypes.Query

variable {σ τ α β : Type}

theorem bind_of_error {q : Query σ α} {f : α → Query σ β} {s t : σ} {l : Lookup}
    {steps : List Step} (h : q s = ⟨.error l, t, steps⟩) : (q >>= f) s = ⟨.error l, t, steps⟩ := by
  change Query.bind q f s = _
  simp only [Query.bind, h]

theorem isolated_eq {q : Query τ α} {t u : τ} {answer : Except Lookup α} {steps : List Step}
    (h : q t = ⟨answer, u, steps⟩) (s : σ) : isolated t q s = ⟨answer, s, steps⟩ := by
  rw [isolated, h]

/-- A relation between queries that holds of answers given at once, and of queries that go on in
related ways from related beginnings. -/
structure Composes (A : ∀ {α : Type}, Query σ α → Query σ α → Prop) : Prop where
  pure {α : Type} (a : α) : A (Pure.pure a) (Pure.pure a)
  bind {α β : Type} {q q' : Query σ α} {f f' : α → Query σ β} (hq : A q q')
    (hf : ∀ a, A (f a) (f' a)) : A (q >>= f) (q' >>= f')

namespace Composes

variable {A : ∀ {α : Type}, Query σ α → Query σ α → Prop}

theorem firstSome (h : Composes A) {f f' : String → Query σ (Option β)}
    (hf : ∀ n, A (f n) (f' n)) (names : List String) :
    A (Query.firstSome f names) (Query.firstSome f' names) := by
  induction names with
  | nil => exact h.pure none
  | cons n names ih =>
    apply h.bind (hf n)
    intro o
    cases o with
    | some b => exact h.pure (some b)
    | none => exact ih

theorem anyOf (h : Composes A) {f f' : String → Query σ Bool} (hf : ∀ n, A (f n) (f' n))
    (names : List String) : A (Query.anyOf f names) (Query.anyOf f' names) := by
  induction names with
  | nil => exact h.pure false
  | cons n names ih =>
    apply h.bind (hf n)
    intro r
    cases r with
    | true => exact h.pure true
    | false => exact ih

end Composes

theorem composes_alike {R : σ → σ → Prop} : Composes (Alike R) where
  pure := alike_pure
  bind := Alike.bind

end SymbolicTypes.Query
