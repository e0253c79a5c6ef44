import Conrt.Base.Run

/-! Simulations: what one machine does, seen through a map, another does too. -/
namespace Conrt.Base

variable {σ τ ε δ : Type*}

/-- While the invariant holds, a step is nothing or one permitted step of the other machine, seen
through `f`. -/
structure Simulates (step : σ → ε → Option σ) (ok : σ → ε → Prop) (step' : τ → δ → Option τ)
    (ok' : τ → δ → Prop) (I : σ → Prop) (f : σ → τ) : Prop where
  keeps : ∀ s e t, I s → ok s e → step s e = some t → I t
  moves : ∀ s e t, I s → ok s e → step s e = some t →
    f t = f s ∨ ∃ d, ok' (f s) d ∧ step' (f s) d = some (f t)

variable {step : σ → ε → Option σ} {ok : σ → ε → Prop} {step' : τ → δ → Option τ}
  {ok' : τ → δ → Prop} {I : σ → Prop} {f : σ → τ} {s₀ s : σ}

namespace Simulates

theorem invariant (h : Simulates step ok step' ok' I f) (h0 : I s₀) (hr : Reaches step ok s₀ s) : I s :=
  hr.invariant h0 h.keeps

/-- Every state reached is mapped to one the other machine reaches. -/
theorem reaches (h : Simulates step ok step' ok' I f) (h0 : I s₀) (hr : Reaches step ok s₀ s) :
    Reaches step' ok' (f s₀) (f s) := by
  induction hr with
  | start => exact .start
  | next hr hok hst ih =>
    have hI := h.invariant h0 hr
    rcases h.moves _ _ _ hI hok hst with heq | ⟨d, hok', hst'⟩
    · rw [heq]
      exact ih
    · exact ih.next hok' hst'

end Simulates

end Conrt.Base
