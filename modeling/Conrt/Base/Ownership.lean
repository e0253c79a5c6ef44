import Mathlib.Data.Nat.Notation
import Mathlib.Logic.Function.Basic
import Mathlib.Order.Basic
import Mathlib.Tactic.SplitIfs

/-! Names that are handed out, reused after they are freed, and held by whoever is to free them. -/
namespace Conrt.Base

variable {ν φ : Type} {look : ν → Option φ} {held held' : ν × φ → ℕ} {d e : ν × φ} {n : ν} {f : φ}

/-- What is held, and how often: each name held still stands for what it was handed out as, and is
held once. -/
structure Owns (look : ν → Option φ) (held : ν × φ → ℕ) : Prop where
  current : ∀ d, 0 < held d → look d.1 = some d.2
  single : ∀ d, held d ≤ 1

namespace Owns

theorem none : Owns look fun _ => 0 :=
  ⟨fun _ hd => absurd hd (Nat.lt_irrefl 0), fun _ => Nat.zero_le 1⟩

theorem anti (h : Owns look held) (hle : ∀ d, held' d ≤ held d) : Owns look held' :=
  ⟨fun d hd => h.current d (Nat.lt_of_lt_of_le hd (hle d)), fun d => Nat.le_trans (hle d) (h.single d)⟩

/-- A name is held as one thing only. -/
theorem eq_of_name (h : Owns look held) (hd : 0 < held d) (he : 0 < held e) (hn : d.1 = e.1) :
    d = e := by
  have hd' := h.current d hd
  have he' := h.current e he
  rw [hn, he'] at hd'
  exact Prod.ext hn (Option.some.inj hd').symm

variable [DecidableEq ν] [DecidableEq φ]

/-- A free name is handed out. -/
theorem acquire (h : Owns look held) (hn : look n = Option.none)
    (hle : ∀ d, held' d ≤ held d + if d = (n, f) then 1 else 0) :
    Owns (Function.update look n (some f)) held' := by
  have hfree : ∀ d, 0 < held d → d.1 ≠ n := by
    intro d hd hdn
    have hcur := h.current d hd
    rw [hdn, hn] at hcur
    cases hcur
  constructor
  · intro d hd
    have hd' := hle d
    split_ifs at hd' with hdf
    · rw [hdf, Function.update_self]
    · have hpos : 0 < held d := by omega
      rw [Function.update_of_ne (hfree d hpos)]
      exact h.current d hpos
  · intro d
    have hd' := hle d
    have hone := h.single d
    split_ifs at hd' with hdf
    · by_contra hlt
      exact hfree d (by omega) (hdf ▸ rfl)
    · omega

/-- A name is freed by the one who holds it. -/
theorem release (h : Owns look held) (hle : ∀ e, held' e + (if e = d then 1 else 0) ≤ held e) :
    Owns (Function.update look d.1 Option.none) held' := by
  have hd : 0 < held d := by
    have hd' := hle d
    rw [if_pos rfl] at hd'
    omega
  refine ⟨fun e he => ?_, fun e => Nat.le_trans (Nat.le_of_add_right_le (hle e)) (h.single e)⟩
  have he' := hle e
  have hne : e.1 ≠ d.1 := by
    intro hn
    obtain rfl : e = d := h.eq_of_name (by omega) hd hn
    have hone := h.single e
    rw [if_pos rfl] at he'
    omega
  rw [Function.update_of_ne hne]
  exact h.current e (by omega)

end Owns

end Conrt.Base
