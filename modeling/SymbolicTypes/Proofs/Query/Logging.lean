import Mathlib.Logic.Function.Iterate
import SymbolicTypes.Proofs.Query.Composes

namespace SymbolicTypes.Query

variable {σ α β κ : Type} {log : Step → Option κ} {view : σ → List κ} {inv : σ → Prop}

/-- From the state `s` the two queries take the same steps to the same answer and leave the invariant
behind. What the state shows then is what was shown and what the steps log. -/
def LogsAt (log : Step → Option κ) (view : σ → List κ) (inv : σ → Prop) (shown : List κ)
    (q q' : Query σ α) (s : σ) : Prop :=
  ∃ a t steps, q s = ⟨.ok a, t, steps⟩ ∧ q' s = q s ∧ inv t ∧
    (view t).Perm (steps.filterMap log ++ shown)

/-- Wherever the invariant holds, the two queries do the same and keep it, and what the state shows
grows by what the steps log. -/
def Logs (log : Step → Option κ) (view : σ → List κ) (inv : σ → Prop) (q q' : Query σ α) : Prop :=
  ∀ s, inv s → LogsAt log view inv (view s) q q' s

theorem LogsAt.imp {inv' : σ → Prop} {shown : List κ} {q q' : Query σ α} {s : σ}
    (h : LogsAt log view inv shown q q' s) (hinv : ∀ t, inv t → inv' t) :
    LogsAt log view inv' shown q q' s := by
  obtain ⟨a, t, steps, hrun, hsame, ht, hview⟩ := h
  exact ⟨a, t, steps, hrun, hsame, hinv t ht, hview⟩

theorem LogsAt.bind {q q' : Query σ α} {f f' : α → Query σ β} {s t : σ} {a : α}
    {steps : List Step} {shown shown' : List κ} (hrun : q s = ⟨.ok a, t, steps⟩)
    (hsame : q' s = q s) (hshown : shown'.Perm (steps.filterMap log ++ shown))
    (hf : LogsAt log view inv shown' (f a) (f' a) t) :
    LogsAt log view inv shown (q >>= f) (q' >>= f') s := by
  obtain ⟨b, u, steps', hrun', hsame', hu, hview⟩ := hf
  refine ⟨b, u, steps ++ steps', ?_, ?_, hu, ?_⟩
  · rw [bind_of_ok hrun, hrun']
  · rw [bind_of_ok (hsame.trans hrun), bind_of_ok hrun, hsame']
  · rw [List.filterMap_append, List.append_assoc]
    have hlogged := hview.trans (hshown.append_left (steps'.filterMap log))
    exact hlogged.trans (List.perm_append_comm_assoc _ _ _)

theorem composes_logs : Composes (Logs log view inv) where
  pure a s hs := ⟨a, s, [], rfl, rfl, hs, .refl _⟩
  bind hq hf s hs := by
    obtain ⟨a, t, steps, hrun, hsame, ht, hview⟩ := hq s hs
    exact LogsAt.bind hrun hsame hview (hf a t ht)

theorem note_of_met {met : σ → Prop} [DecidablePred met] {add : σ → σ} {s : σ} (h : met s) :
    note met add s = ⟨.ok false, s, []⟩ := by
  have hget : get s = ⟨.ok s, s, []⟩ := rfl
  rw [note, bind_of_ok hget, if_pos h]
  rfl

theorem note_of_not_met {met : σ → Prop} [DecidablePred met] {add : σ → σ} {s : σ} (h : ¬ met s) :
    note met add s = ⟨.ok true, add s, []⟩ := by
  have hget : get s = ⟨.ok s, s, []⟩ := rfl
  rw [note, bind_of_ok hget, if_neg h]
  rfl

/-- Recursions in which something runs out at the same depth never get to their bottom. -/
theorem logs_iterate (inv : Nat → σ → Prop)
    {step step' : (String → Query σ α) → String → Query σ α} (hout : ∀ s, ¬ inv 0 s)
    (hstep : ∀ k (next next' : String → Query σ α),
      (∀ n, Logs log view (inv k) (next n) (next' n)) →
      ∀ n, Logs log view (inv (k + 1)) (step next n) (step' next' n))
    {k depth depth' : Nat} (hdepth : k ≤ depth) (hdepth' : k ≤ depth')
    (rest rest' : String → Query σ α) (name : String) :
    Logs log view (inv k) (step^[depth] rest name) (step'^[depth'] rest' name) := by
  induction k generalizing depth depth' name with
  | zero => exact fun s hs => absurd hs (hout s)
  | succ k ih =>
    obtain ⟨n, rfl⟩ := Nat.exists_eq_add_of_le' hdepth
    obtain ⟨n', rfl⟩ := Nat.exists_eq_add_of_le' hdepth'
    rw [← Nat.add_assoc, ← Nat.add_assoc, Function.iterate_succ_apply', Function.iterate_succ_apply']
    exact hstep k _ _ (ih (Nat.le_add_left k n) (Nat.le_add_left k n')) name

theorem exists_outcome_of_logs {ι : Type} (run : ι → Query σ α) (within : ι → Prop)
    (h : ∀ i j, within i → within j → Logs log view inv (run i) (run j)) {s : σ} (hs : inv s)
    (hview : view s = []) (i : ι) (hi : within i) :
    ∃ a t steps, (∀ j, within j → run j s = ⟨.ok a, t, steps⟩) ∧ inv t ∧
      (view t).Perm (steps.filterMap log) := by
  obtain ⟨a, t, steps, hrun, -, ht, hlogged⟩ := h i i hi hi s hs
  rw [hview, List.append_nil] at hlogged
  refine ⟨a, t, steps, fun j hj => ?_, ht, hlogged⟩
  obtain ⟨-, -, -, -, hsame, -, -⟩ := h i j hi hj s hs
  rw [hsame, hrun]

end SymbolicTypes.Query
