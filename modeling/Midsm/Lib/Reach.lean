import Mathlib.Init

/-!
# Guarded runs of a labelled transition system

A system is a partial step function on states and labels. `Reach step ok s t`
says that some run leads from `s` to `t`, every step of which meets the guard
`ok`; a guard may speak of the state before the step, of the label and of
nothing else. An invariant of such runs needs one induction, `Reach.invariant`,
and a run given by its labels is turned into a `Reach` by evaluation.

A quantity that the state does not hold (how often something happened, what
was written last) rides along as a ghost: `withGhost` runs the system and the
ghost side by side.
-/

namespace Midsm.Lib

variable {σ ε γ : Type}

inductive Reach (step : σ → ε → Option σ) (ok : σ → ε → Prop) (s : σ) : σ → Prop
  | refl : Reach step ok s s
  | tail {t u : σ} {e : ε} : Reach step ok s t → ok t e → step t e = some u →
      Reach step ok s u

/-- The guard that asks for nothing. -/
def anyStep : σ → ε → Prop := fun _ _ => True

namespace Reach

variable {step : σ → ε → Option σ} {ok : σ → ε → Prop} {s t u : σ}

/-- What holds at the start and survives every guarded step holds at the end. -/
theorem invariant {P : σ → Prop} (h : Reach step ok s t) (hinit : P s)
    (hstep : ∀ {t u : σ} {e : ε}, P t → ok t e → step t e = some u → P u) :
    P t := by
  induction h with
  | refl => exact hinit
  | tail _ hok hs ih => exact hstep ih hok hs

theorem trans (h₁ : Reach step ok s t) (h₂ : Reach step ok t u) :
    Reach step ok s u := by
  induction h₂ with
  | refl => exact h₁
  | tail _ hok hs ih => exact ih.tail hok hs

end Reach

/-- The state a list of labels leads to, if every step is enabled and passes
the check. -/
def runFrom (step : σ → ε → Option σ) (check : σ → ε → Bool) (s : σ) :
    List ε → Option σ
  | [] => some s
  | e :: es =>
      if check s e then (step s e).bind fun t => runFrom step check t es else none

theorem reach_of_runFrom {step : σ → ε → Option σ} {check : σ → ε → Bool}
    {ok : σ → ε → Prop} (hok : ∀ s e, check s e = true → ok s e) {es : List ε} :
    ∀ {s t : σ}, runFrom step check s es = some t → Reach step ok s t := by
  induction es with
  | nil =>
      intro s t h
      rw [runFrom, Option.some.injEq] at h
      subst h
      exact .refl
  | cons e es ih =>
      intro s t h
      rw [runFrom] at h
      split at h
      · next hc =>
          cases hs : step s e with
          | none => rw [hs] at h; cases h
          | some u =>
              rw [hs, Option.bind_some] at h
              exact (Reach.refl.tail (hok s e hc) hs).trans (ih h)
      · cases h

/-- A run given by its labels, and what its last state looks like. -/
theorem exists_reach (step : σ → ε → Option σ) (check : σ → ε → Bool)
    {ok : σ → ε → Prop} (hok : ∀ s e, check s e = true → ok s e) (s : σ) (es : List ε)
    (p : σ → Bool) (h : (runFrom step check s es).any p = true) :
    ∃ t, Reach step ok s t ∧ p t = true := by
  obtain ⟨t, ht, hp⟩ := (Option.any_eq_true ..).mp h
  exact ⟨t, reach_of_runFrom hok ht, hp⟩

theorem exists_reach_any (step : σ → ε → Option σ) (s : σ) (es : List ε) (p : σ → Bool)
    (h : (runFrom step (fun _ _ => true) s es).any p = true) :
    ∃ t, Reach step anyStep s t ∧ p t = true :=
  exists_reach step _ (fun _ _ _ => trivial) s es p h

/-- The system with a ghost that reads each step. -/
def withGhost (step : σ → ε → Option σ) (next : γ → σ → ε → σ → γ) :
    σ × γ → ε → Option (σ × γ) :=
  fun s e => (step s.1 e).map fun t => (t, next s.2 s.1 e t)

theorem withGhost_eq_some {step : σ → ε → Option σ} {next : γ → σ → ε → σ → γ}
    {s t : σ × γ} {e : ε} :
    withGhost step next s e = some t ↔
      step s.1 e = some t.1 ∧ t.2 = next s.2 s.1 e t.1 := by
  rw [withGhost, Option.map_eq_some_iff]
  constructor
  · rintro ⟨u, hu, rfl⟩
    exact ⟨hu, rfl⟩
  · rintro ⟨hu, hg⟩
    exact ⟨t.1, hu, Prod.ext rfl hg.symm⟩

end Midsm.Lib
