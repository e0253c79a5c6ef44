import Mathlib.Data.Nat.Notation

/-! Names that a counter gives out, each for one thing only. -/
namespace Conrt.Base

variable {α : Type} {names names' : ℕ → α → Prop} {next next' : ℕ} {a b : α} {x : ℕ}

/-- What the names in use stand for: each is below the counter and stands for one thing. -/
structure Issued (names : ℕ → α → Prop) (next : ℕ) : Prop where
  below : ∀ x a, names x a → x < next
  single : ∀ x a b, names x a → names x b → a = b

namespace Issued

theorem none (hno : ∀ x a, ¬ names x a) : Issued names next := by
  constructor
  · intro x a ha
    exact (hno x a ha).elim
  · intro x a b ha
    exact (hno x a ha).elim

/-- Names may go out of use. -/
theorem mono (hi : Issued names next) (hsub : ∀ x a, names' x a → names x a) (hle : next ≤ next') :
    Issued names' next' := by
  constructor
  · intro x a ha
    have hlt := hi.below x a (hsub x a ha)
    exact Nat.lt_of_lt_of_le hlt hle
  · intro x a b ha hb
    exact hi.single x a b (hsub x a ha) (hsub x b hb)

/-- The counter gives out its name. -/
theorem issue (hi : Issued names next) (hnew : ∀ y b, names' y b → names y b ∨ y = next ∧ b = a) :
    Issued names' (next + 1) := by
  have hfresh : ∀ b, ¬ names next b := fun b hb => Nat.lt_irrefl next (hi.below next b hb)
  constructor
  · intro y b hb
    rcases hnew y b hb with hold | ⟨hy, -⟩
    · exact Nat.lt_succ_of_lt (hi.below y b hold)
    · rw [hy]
      exact Nat.lt_succ_self next
  · intro y b c hb hc
    rcases hnew y b hb with hb' | ⟨hy, hb'⟩
    · rcases hnew y c hc with hc' | ⟨hy, -⟩
      · exact hi.single y b c hb' hc'
      · rw [hy] at hb'
        exact (hfresh b hb').elim
    · rcases hnew y c hc with hc' | ⟨-, hc'⟩
      · rw [hy] at hc'
        exact (hfresh c hc').elim
      · rw [hb', hc']

end Issued

end Conrt.Base
