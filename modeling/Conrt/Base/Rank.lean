import Mathlib.Algebra.Order.Ring.Nat
import Conrt.Base.Run

/-! What a run can cost, when every step is paid for by a rank that falls or by a credit of its own. -/
namespace Conrt.Base

variable {σ ε : Type*} {step : σ → ε → Option σ} {rank : σ → ℕ} {cost credit : ε → ℕ} {P : σ → Prop}
  {s t : σ} {es : List ε}

/-- A run whose steps keep `P`, and pay for what they cost, pays for it as a whole. -/
theorem run_cost (hs : ∀ s e t, P s → step s e = some t → P t ∧ cost e + rank t ≤ rank s + credit e)
    (h0 : P s) (h : run step s es = some t) :
    P t ∧ (es.map cost).sum + rank t ≤ rank s + (es.map credit).sum := by
  induction es generalizing s with
  | nil =>
    obtain rfl := Option.some.inj h
    exact ⟨h0, by simp⟩
  | cons e es ih =>
    obtain ⟨u, hu, hrest⟩ := Option.bind_eq_some_iff.mp h
    obtain ⟨hP, hpaid⟩ := hs s e u h0 hu
    obtain ⟨ht, hle⟩ := ih hP hrest
    refine ⟨ht, ?_⟩
    simp only [List.map_cons, List.sum_cons]
    omega

/-- Without credit a run is no longer than the rank it uses up. -/
theorem run_rank (hs : ∀ s e t, P s → step s e = some t → P t ∧ rank t < rank s) (h0 : P s)
    (h : run step s es = some t) : P t ∧ es.length + rank t ≤ rank s := by
  have hcost := @run_cost σ ε step rank (fun _ => 1) (fun _ => 0) P s t es (fun s e t hP hst =>
    ⟨(hs s e t hP hst).1, by have := (hs s e t hP hst).2; omega⟩) h0 h
  simpa using hcost

/-- The sum of a list in which one entry is replaced. -/
theorem sum_map_set {α : Type*} {l : List α} {f : α → ℕ} {k : ℕ} {a b : α} (h : l[k]? = some a) :
    ((l.set k b).map f).sum + f a = (l.map f).sum + f b := by
  induction l generalizing k with
  | nil => cases h
  | cons c l ih =>
    cases k with
    | zero =>
      obtain rfl := Option.some.inj h
      simp only [List.set_cons_zero, List.map_cons, List.sum_cons]
      omega
    | succ k =>
      have hrest := ih (k := k) h
      simp only [List.set_cons_succ, List.map_cons, List.sum_cons]
      omega

end Conrt.Base
