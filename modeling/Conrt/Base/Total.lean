import Conrt.Base.Hoare

/-! Triples that also say where a program may fail. -/
namespace Conrt.Base

variable {ε σ α β : Type}

/-- From a state meeting `P`, the program returns into `Q`, unless it fails in a state meeting `F`. -/
def Ends (P : σ → Prop) (m : EStateM ε σ α) (Q : α → σ → Prop) (F : σ → Prop) : Prop :=
  ∀ s, P s → match m s with
    | .ok a s' => Q a s'
    | .error _ s' => F s'

variable {P P' : σ → Prop} {Q Q' : α → σ → Prop} {R : β → σ → Prop} {F : σ → Prop}
  {m : EStateM ε σ α} {f : α → EStateM ε σ β}

namespace Ends

theorem conseq (h : Ends P m Q F) (hP : ∀ s, P' s → P s) (hQ : ∀ a s, Q a s → Q' a s) :
    Ends P' m Q' F := by
  intro s hs
  have hm := h s (hP s hs)
  cases hr : m s with
  | ok a s' =>
    rw [hr] at hm
    exact hQ a s' hm
  | error e s' =>
    rw [hr] at hm
    exact hm

theorem pre (h : Ends P m Q F) (hP : ∀ s, P' s → P s) : Ends P' m Q F := h.conseq hP fun _ _ hq => hq

theorem post (h : Ends P m Q F) (hQ : ∀ a s, Q a s → Q' a s) : Ends P m Q' F :=
  h.conseq (fun _ hp => hp) hQ

theorem weaken {F' : σ → Prop} (h : Ends P m Q F) (hF : ∀ s, F s → F' s) : Ends P m Q F' := by
  intro s hs
  have hm := h s hs
  cases hr : m s with
  | ok a s' =>
    rw [hr] at hm
    exact hm
  | error e s' =>
    rw [hr] at hm
    exact hF s' hm

theorem pure {a : α} (h : ∀ s, P s → Q a s) : Ends P (Pure.pure a : EStateM ε σ α) Q F :=
  fun s hs => h s hs

theorem bind (hm : Ends P m Q F) (hf : ∀ a, Ends (Q a) (f a) R F) : Ends P (m >>= f) R F := by
  intro s hs
  have h := hm s hs
  change match EStateM.bind m f s with
    | .ok b s' => R b s'
    | .error _ s' => F s'
  unfold EStateM.bind
  cases hr : m s with
  | ok a s' =>
    rw [hr] at h
    exact hf a s' h
  | error e s' =>
    rw [hr] at h
    exact h

theorem update {g : σ → σ} {Q : Unit → σ → Prop} (h : ∀ s, P s → Q () (g s)) :
    Ends P (modify g : EStateM ε σ Unit) Q F := fun s hs => h s hs

theorem throw {e : ε} (h : ∀ s, P s → F s) : Ends P (throw e : EStateM ε σ α) Q F :=
  fun s hs => h s hs

theorem of_eq (h : ∀ s, P s → Ends (· = s) m Q F) : Ends P m Q F := fun s hs => h s hs s rfl

theorem ite {p : Prop} [Decidable p] {m n : EStateM ε σ α} (ht : p → Ends P m Q F)
    (hf : ¬ p → Ends P n Q F) : Ends P (if p then m else n) Q F := by
  split_ifs with h
  · exact ht h
  · exact hf h

/-- What is known of the state a run returns in may be added to where it ends. -/
theorem and {E : ε → Prop} (h : Ends P m Q F) (h' : Triple P m Q' E) :
    Ends P m (fun a s => Q a s ∧ Q' a s) F := by
  intro s hs
  have hm := h s hs
  have hm' := h' s hs
  cases hr : m s with
  | ok a s' =>
    rw [hr] at hm hm'
    exact ⟨hm, hm'⟩
  | error e s' =>
    rw [hr] at hm
    exact hm

/-- The loop rule: what every iteration keeps, the loop keeps. -/
theorem forEach {I : σ → Prop} {g : α → EStateM ε σ Unit} {as : List α}
    (h : ∀ a ∈ as, Ends I (g a) (fun _ => I) F) : Ends I (Base.forEach g as) (fun _ => I) F := by
  induction as with
  | nil => exact pure fun _ hs => hs
  | cons a as ih =>
    have ha := h a List.mem_cons_self
    have has := ih fun b hb => h b (List.mem_cons_of_mem a hb)
    exact ha.bind fun _ => has

section

variable {s₀ : σ}

theorem get_bind {f : σ → EStateM ε σ β} (h : Ends (· = s₀) (f s₀) R F) :
    Ends (· = s₀) (get >>= f) R F := by
  rintro s rfl
  exact h s rfl

theorem modify_bind {g : σ → σ} {f : Unit → EStateM ε σ β} (h : Ends (· = g s₀) (f ()) R F) :
    Ends (· = s₀) (modify g >>= f) R F := by
  rintro s rfl
  exact h (g s) rfl

theorem ofOption_bind {e : ε} {o : Option α} {a : α} (ho : o = some a) (h : Ends P (f a) R F) :
    Ends P (ofOption e o >>= f) R F := by
  subst ho
  exact fun s hs => h s hs

theorem ofExcept_bind {x : Except ε α} {a : α} (hx : x = .ok a) (h : Ends P (f a) R F) :
    Ends P (MonadExcept.ofExcept x >>= f) R F := by
  subst hx
  exact fun s hs => h s hs

/-- Sequencing through the state the first program leaves. -/
theorem bind_eq (hm : Ends P m Q F) (hf : ∀ a s, Q a s → Ends (· = s) (f a) R F) :
    Ends P (m >>= f) R F :=
  hm.bind fun a => of_eq fun s hs => hf a s hs

end

/-- A program that has no state to fail in returns. -/
theorem returns (h : Ends P m Q fun _ => False) {s : σ} (hs : P s) : ∃ a s', m s = .ok a s' ∧ Q a s' := by
  have hm := h s hs
  cases hr : m s with
  | ok a s' =>
    rw [hr] at hm
    exact ⟨a, s', rfl, hm⟩
  | error e s' =>
    rw [hr] at hm
    exact hm.elim

theorem ok (h : Ends P m Q F) {s s' : σ} {a : α} (hs : P s) (hr : m s = .ok a s') : Q a s' := by
  have hm := h s hs
  rwa [hr] at hm

theorem error (h : Ends P m Q F) {s s' : σ} {e : ε} (hs : P s) (hr : m s = .error e s') : F s' := by
  have hm := h s hs
  rwa [hr] at hm

/-- Where the program fails is forgotten. -/
theorem triple (h : Ends P m Q F) : Triple P m Q fun _ => True := by
  intro s hs
  have hm := h s hs
  cases hr : m s with
  | ok a s' =>
    rw [hr] at hm
    exact hm
  | error e s' => trivial

end Ends

theorem bind_of_ok {s s' : σ} {a : α} (h : m s = .ok a s') : (m >>= f) s = f a s' := by
  change EStateM.bind m f s = f a s'
  unfold EStateM.bind
  rw [h]

theorem bind_of_error {s s' : σ} {e : ε} (h : m s = .error e s') : (m >>= f) s = .error e s' := by
  change EStateM.bind m f s = .error e s'
  unfold EStateM.bind
  rw [h]

end Conrt.Base
