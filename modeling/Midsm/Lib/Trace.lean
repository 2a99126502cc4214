import Mathlib.Init

/-!
# Runs and what is seen of them

A step may let things be seen: messages it sends, say. `Trace step s os t` says that some
run leads from `s` to `t` and shows `os`, in order. A system refines another one along a
map of states if every step of it is a run of the other one that shows the same
(`Trace.refines`); such a run may take several steps, or none.
-/

namespace Midsm.Lib

variable {σ τ ε δ ω : Type}

inductive Trace (step : σ → ε → Option (σ × List ω)) : σ → List ω → σ → Prop
  | done (s : σ) : Trace step s [] s
  | next {s t u : σ} {e : ε} {o os : List ω} : step s e = some (t, o) →
      Trace step t os u → Trace step s (o ++ os) u

namespace Trace

variable {step : σ → ε → Option (σ × List ω)} {s t u : σ} {o os : List ω}

theorem single {e : ε} (h : step s e = some (t, o)) : Trace step s o t := by
  have hone := Trace.next h (.done t)
  rwa [List.append_nil] at hone

/-- A step that shows nothing. -/
theorem silent {e : ε} (h : step s e = some (t, [])) (hr : Trace step t os u) :
    Trace step s os u := .next h hr

theorem trans (h₁ : Trace step s o t) (h₂ : Trace step t os u) : Trace step s (o ++ os) u := by
  induction h₁ with
  | done => exact h₂
  | next he _ ih =>
      rw [List.append_assoc]
      exact .next he (ih h₂)

/-- Steps that are runs of another system make runs that are. -/
theorem refines {step' : τ → δ → Option (τ × List ω)} {f : σ → τ}
    (hstep : ∀ {s t e o}, step s e = some (t, o) → Trace step' (f s) o (f t))
    (h : Trace step s os t) : Trace step' (f s) os (f t) := by
  induction h with
  | done s => exact .done (f s)
  | next he _ ih => exact (hstep he).trans ih

end Trace

end Midsm.Lib
