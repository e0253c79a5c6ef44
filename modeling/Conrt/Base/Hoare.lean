import Mathlib.Logic.Basic
import Mathlib.Order.Defs.Unbundled
import Mathlib.Tactic.SplitIfs

/-! Partial-correctness triples for programs with state and failure. -/
namespace Conrt.Base

variable {ε σ α β : Type}

/-- From a state meeting `P`, the program returns into `Q` or fails as `E` permits. -/
def Triple (P : σ → Prop) (m : EStateM ε σ α) (Q : α → σ → Prop) (E : ε → Prop) : Prop :=
  ∀ s, P s → match m s with
    | .ok a s' => Q a s'
    | .error e _ => E e

variable {P P' : σ → Prop} {Q Q' : α → σ → Prop} {R : β → σ → Prop} {E E' : ε → Prop}
  {m : EStateM ε σ α} {f : α → EStateM ε σ β}

theorem Triple.conseq (h : Triple P m Q E) (hP : ∀ s, P' s → P s) (hQ : ∀ a s, Q a s → Q' a s)
    (hE : ∀ e, E e → E' e) : Triple P' m Q' E' := by
  intro s hs
  have hm := h s (hP s hs)
  cases hr : m s with
  | ok a s' =>
    rw [hr] at hm
    exact hQ a s' hm
  | error e s' =>
    rw [hr] at hm
    exact hE e hm

theorem Triple.post (h : Triple P m Q E) (hQ : ∀ a s, Q a s → Q' a s) : Triple P m Q' E :=
  h.conseq (fun _ hs => hs) hQ fun _ he => he

theorem Triple.pure {a : α} (h : ∀ s, P s → Q a s) : Triple P (Pure.pure a : EStateM ε σ α) Q E :=
  fun s hs => h s hs

theorem Triple.bind (hm : Triple P m Q E) (hf : ∀ a, Triple (Q a) (f a) R E) :
    Triple P (m >>= f) R E := by
  intro s hs
  have h := hm s hs
  change match EStateM.bind m f s with
    | .ok b s' => R b s'
    | .error e _ => E e
  unfold EStateM.bind
  cases hr : m s with
  | ok a s' =>
    rw [hr] at h
    exact hf a s' h
  | error e s' =>
    rw [hr] at h
    exact h

theorem Triple.update {g : σ → σ} {Q : Unit → σ → Prop} (h : ∀ s, P s → Q () (g s)) :
    Triple P (modify g : EStateM ε σ Unit) Q E := fun s hs => h s hs

theorem Triple.throw {e : ε} (h : ∀ s, P s → E e) :
    Triple P (throw e : EStateM ε σ α) Q E := fun s hs => h s hs

/-- A checked value: `none` fails with `e`. -/
def ofOption (e : ε) : Option α → EStateM ε σ α
  | some a => Pure.pure a
  | none => throw e

/-- Starting from one known state is enough. -/
theorem Triple.of_eq (h : ∀ s, P s → Triple (· = s) m Q E) : Triple P m Q E :=
  fun s hs => h s hs s rfl

/-- Sequencing through the state the first program leaves. -/
theorem Triple.bind_eq (hm : Triple P m Q E) (hf : ∀ a s, Q a s → Triple (· = s) (f a) R E) :
    Triple P (m >>= f) R E :=
  hm.bind fun a => .of_eq fun s hs => hf a s hs

theorem Triple.ite {p : Prop} [Decidable p] {m n : EStateM ε σ α}
    (ht : p → Triple P m Q E) (hf : ¬ p → Triple P n Q E) :
    Triple P (if p then m else n) Q E := by
  split_ifs with h
  · exact ht h
  · exact hf h

/-- A sequence returns when both its parts do. -/
theorem bind_eq_ok {s s' : σ} {b : β} :
    (m >>= f) s = .ok b s' ↔ ∃ a s₁, m s = .ok a s₁ ∧ f a s₁ = .ok b s' := by
  change EStateM.bind m f s = _ ↔ _
  unfold EStateM.bind
  cases m s with
  | ok a s₁ =>
    constructor
    · intro h
      exact ⟨a, s₁, rfl, h⟩
    · rintro ⟨_, _, hm, h⟩
      cases hm
      exact h
  | error e s₁ =>
    constructor
    · intro h
      cases h
    · rintro ⟨_, _, hm, _⟩
      cases hm

theorem ofOption_eq_ok {e : ε} {o : Option α} {a : α} {s s' : σ} (h : ofOption e o s = .ok a s') :
    o = some a ∧ s = s' := by
  cases o with
  | none => cases h
  | some b =>
    cases h
    exact ⟨rfl, rfl⟩

/-- The state a program leaves, whether it returns or fails. -/
def finalState (m : EStateM ε σ α) (s : σ) : σ :=
  match m s with
  | .ok _ s' | .error _ s' => s'

theorem finalState_ok {s s' : σ} {a : α} (h : m s = .ok a s') : finalState m s = s' := by
  unfold finalState
  rw [h]

/-- A sequence ends where its first part fails, or where the second part ends. -/
theorem finalState_bind (s : σ) : finalState (m >>= f) s =
    match m s with
    | .ok a s' => finalState (f a) s'
    | .error _ s' => s' := by
  unfold finalState
  change (match EStateM.bind m f s with
    | .ok _ s' | .error _ s' => s') = _
  unfold EStateM.bind
  cases m s <;> rfl

/-- Wherever the program starts, `R` holds between that state and the one it leaves. -/
def Through (R : σ → σ → Prop) (m : EStateM ε σ α) : Prop := ∀ s, R s (finalState m s)

/-- Runs the program once for each element, in order. -/
def forEach (g : α → EStateM ε σ Unit) : List α → EStateM ε σ Unit
  | [] => Pure.pure ()
  | a :: as => do
    g a
    forEach g as

namespace Through

variable {R : σ → σ → Prop}

/-- What a program that returns has done. -/
theorem ok (hm : Through R m) {a : α} {s s' : σ} (h : m s = .ok a s') : R s s' :=
  finalState_ok h ▸ hm s

theorem update {g : σ → σ} (h : ∀ s, R s (g s)) : Through R (modify g : EStateM ε σ PUnit) := h

theorem bind [IsTrans σ R] (hm : Through R m) (hf : ∀ a, Through R (f a)) : Through R (m >>= f) := by
  intro s
  have h := hm s
  rw [finalState_bind]
  unfold finalState at h
  cases hr : m s with
  | ok a s' =>
    rw [hr] at h
    exact IsTrans.trans _ _ _ h (hf a s')
  | error e s' =>
    rw [hr] at h
    exact h

theorem ite {p : Prop} [Decidable p] {n : EStateM ε σ α} (hm : Through R m) (hn : Through R n) :
    Through R (if p then m else n) := by
  split_ifs
  · exact hm
  · exact hn

variable [Std.Refl R]

theorem pure {a : α} : Through R (Pure.pure a : EStateM ε σ α) := fun s => Std.Refl.refl s

theorem throw {e : ε} : Through R (MonadExceptOf.throw e : EStateM ε σ α) := fun s => Std.Refl.refl s

theorem get : Through R (get : EStateM ε σ σ) := fun s => Std.Refl.refl s

theorem ofOption {e : ε} {o : Option α} : Through R (Base.ofOption e o) := by
  cases o with
  | none => exact throw
  | some a => exact pure

variable [IsTrans σ R]

theorem discard (hm : Through R m) : Through R (discard m) := hm.bind fun _ => pure

theorem forEach {g : α → EStateM ε σ Unit} {as : List α} (h : ∀ a, Through R (g a)) :
    Through R (Base.forEach g as) := by
  induction as with
  | nil => exact pure
  | cons a as ih => exact (h a).bind fun _ => ih

end Through

/-- What can be seen of the state stays the same. -/
def Same {τ : Type} (view : σ → τ) (s s' : σ) : Prop := view s' = view s

instance {τ : Type} (view : σ → τ) : IsPreorder σ (Same view) where
  refl _ := rfl
  trans _ _ _ h h' := h'.trans h

/-- The loop rule: what every iteration keeps, the loop keeps. -/
theorem Triple.forEach {I : σ → Prop} {g : α → EStateM ε σ Unit} {as : List α}
    (h : ∀ a ∈ as, Triple I (g a) (fun _ => I) E) :
    Triple I (Base.forEach g as) (fun _ => I) E := by
  induction as with
  | nil => exact .pure fun _ hs => hs
  | cons a as ih =>
    have ha := h a List.mem_cons_self
    have has := ih fun b hb => h b (List.mem_cons_of_mem a hb)
    exact ha.bind fun _ => has

section

variable {s₀ : σ}

theorem get_bind_apply (f : σ → EStateM ε σ β) (s : σ) : (get >>= f) s = f s s := rfl

theorem Triple.get_bind {f : σ → EStateM ε σ β} (h : Triple (· = s₀) (f s₀) R E) :
    Triple (· = s₀) (get >>= f) R E := by
  rintro s rfl
  exact h s rfl

theorem Triple.modify_bind {g : σ → σ} {f : Unit → EStateM ε σ β}
    (h : Triple (· = g s₀) (f ()) R E) : Triple (· = s₀) (modify g >>= f) R E := by
  rintro s rfl
  exact h (g s) rfl

theorem Triple.ofOption_bind {e : ε} {o : Option α}
    (hs : ∀ a, o = some a → Triple P (f a) R E) (he : o = none → E e) :
    Triple P (ofOption e o >>= f) R E := by
  cases o with
  | some a => exact fun s hp => hs a rfl s hp
  | none => exact fun _ _ => he rfl

theorem Triple.ofExcept_bind {x : Except ε α} (hs : ∀ a, x = .ok a → Triple P (f a) R E)
    (he : ∀ e, x = .error e → E e) : Triple P (MonadExcept.ofExcept x >>= f) R E := by
  cases x with
  | ok a => exact fun s hp => hs a rfl s hp
  | error e => exact fun _ _ => he e rfl

end

/-- A program of which nothing is asked. -/
theorem Triple.any (m : EStateM ε σ α) : Triple P m (fun _ _ => True) fun _ => True := by
  intro s _
  cases m s <;> trivial

theorem Triple.and (h : Triple P m Q E) (h' : Triple P m Q' E) :
    Triple P m (fun a s => Q a s ∧ Q' a s) E := by
  intro s hs
  have hm := h s hs
  have hm' := h' s hs
  cases hr : m s with
  | ok a s' =>
    rw [hr] at hm hm'
    exact ⟨hm, hm'⟩
  | error e s' =>
    rw [hr] at hm
    exact hm

/-- A fact that is not about the state. -/
theorem Triple.assume {φ : Prop} (h : φ → Triple P m Q E) : Triple (fun s => P s ∧ φ) m Q E :=
  fun s hs => h hs.2 s hs.1

/-- What a triple says of a run that returned. -/
theorem Triple.ok (h : Triple P m Q E) {s s' : σ} {a : α} (hs : P s) (hr : m s = .ok a s') :
    Q a s' := by
  have hm := h s hs
  rwa [hr] at hm

theorem Triple.error (h : Triple P m Q E) {s s' : σ} {e : ε} (hs : P s) (hr : m s = .error e s') :
    E e := by
  have hm := h s hs
  rwa [hr] at hm

end Conrt.Base
