import Conrt.Base.Hoare
import Mathlib.Logic.Relation

/-! Programs whose effect is a sequence of moves on their state and on a ghost value beside it. -/
namespace Conrt.Base

variable {ε σ γ α β : Type}

/-- The program is in state `s`, and moves have led to `b`; when it returns, further moves have led
to its state and a ghost where `Q` holds. -/
def Trail (R : γ × σ → γ × σ → Prop) (b : γ × σ) (s : σ) (m : EStateM ε σ α)
    (Q : α → γ → σ → Prop) : Prop :=
  Triple (· = s) m (fun a s' => ∃ g, Relation.ReflTransGen R b (g, s') ∧ Q a g s') fun _ => True

variable {R : γ × σ → γ × σ → Prop} {b b' : γ × σ} {g : γ} {s s' : σ} {m : EStateM ε σ α}
  {f : α → EStateM ε σ β} {Q Q' : α → γ → σ → Prop} {P : β → γ → σ → Prop}

namespace Trail

theorem pure {a : α} (h : Q a g s) : Trail R (g, s) s (Pure.pure a : EStateM ε σ α) Q := by
  rintro _ rfl
  exact ⟨g, .refl, h⟩

theorem throw {e : ε} : Trail R b s (throw e : EStateM ε σ α) Q := fun _ _ => trivial

theorem post (h : Trail R b s m Q) (hQ : ∀ a g s', Q a g s' → Q' a g s') : Trail R b s m Q' := by
  refine Triple.post h fun a s' hs => ?_
  obtain ⟨g, hp, hq⟩ := hs
  exact ⟨g, hp, hQ _ _ _ hq⟩

/-- Moves the program has made by now. -/
theorem moves (hp : Relation.ReflTransGen R b b') (h : Trail R b' s m Q) : Trail R b s m Q := by
  refine Triple.post h fun a s' hs => ?_
  obtain ⟨g, hp', hq⟩ := hs
  exact ⟨g, hp.trans hp', hq⟩

theorem move (hm : R b b') (h : Trail R b' s m Q) : Trail R b s m Q := h.moves (.single hm)

/-- A move that has led to where the program is. -/
theorem commit (hm : R b (g, s)) (h : Trail R (g, s) s m Q) : Trail R b s m Q := h.move hm

theorem bind (hm : Trail R b s m Q)
    (hf : ∀ a g s', Q a g s' → Trail R (g, s') s' (f a) P) : Trail R b s (m >>= f) P := by
  refine Triple.bind_eq hm fun a s' hs => ?_
  obtain ⟨g, hp, hq⟩ := hs
  exact (hf a g s' hq).moves hp

theorem exec {E : α → σ → Prop} (hm : Triple (· = s) m E fun _ => True)
    (hf : ∀ a s', E a s' → Trail R b s' (f a) P) : Trail R b s (m >>= f) P :=
  Triple.bind_eq hm hf

theorem get_bind {f : σ → EStateM ε σ β} (h : Trail R b s (f s) P) :
    Trail R b s (get >>= f) P := Triple.get_bind h

theorem modify_bind {u : σ → σ} {f : Unit → EStateM ε σ β} (h : Trail R b (u s) (f ()) P) :
    Trail R b s (modify u >>= f) P := Triple.modify_bind h

theorem ofOption_bind {e : ε} {o : Option α} (h : ∀ a, o = some a → Trail R b s (f a) P) :
    Trail R b s (ofOption e o >>= f) P := by
  cases o with
  | none => exact fun _ _ => trivial
  | some a => exact h a rfl

theorem ite {p : Prop} [Decidable p] {m n : EStateM ε σ α} (ht : p → Trail R b s m Q)
    (hf : ¬ p → Trail R b s n Q) : Trail R b s (if p then m else n) Q := by
  split_ifs with h
  · exact ht h
  · exact hf h

/-- A last update. -/
theorem update {u : σ → σ} {Q : Unit → γ → σ → Prop} (hm : R b (g, u s)) (hQ : Q () g (u s)) :
    Trail R b s (modify u : EStateM ε σ Unit) Q := by
  rintro _ rfl
  exact ⟨g, .single hm, hQ⟩

/-- The loop rule: every turn keeps `I`. -/
theorem forEach {I : γ → σ → Prop} {body : α → EStateM ε σ Unit} {as : List α}
    (h : ∀ a ∈ as, ∀ g s, I g s → Trail R (g, s) s (body a) fun _ => I) (hI : I g s) :
    Trail R (g, s) s (Base.forEach body as) fun _ => I := by
  induction as generalizing g s with
  | nil => exact pure hI
  | cons a as ih =>
    have ha := h a List.mem_cons_self g s hI
    exact ha.bind fun _ g s hs => ih (fun c hc => h c (List.mem_cons_of_mem a hc)) hs

/-- What a program that returned has done. -/
theorem path (h : Trail R b s m Q) {a : α} (hr : m s = .ok a s') :
    ∃ g, Relation.ReflTransGen R b (g, s') ∧ Q a g s' := Triple.ok h rfl hr

end Trail

end Conrt.Base
