import Mathlib.Data.List.Basic

/-! Runs of a partial step function, and the induction every safety result uses. -/
namespace Conrt.Base

variable {σ ε : Type*}

/-- States reached from `s₀` by steps that all meet `ok` in the state they leave. -/
inductive Reaches (step : σ → ε → Option σ) (ok : σ → ε → Prop) (s₀ : σ) : σ → Prop
  | start : Reaches step ok s₀ s₀
  | next {s t : σ} {e : ε} : Reaches step ok s₀ s → ok s e → step s e = some t →
      Reaches step ok s₀ t

/-- Executes the events in order; `none` as soon as one of them cannot be taken. -/
def run (step : σ → ε → Option σ) (s : σ) (es : List ε) : Option σ := es.foldlM step s

/-- Every event of the run meets `ok` in the state it is taken in. -/
def Meets (step : σ → ε → Option σ) (ok : σ → ε → Prop) : σ → List ε → Prop
  | _, [] => True
  | s, e :: es => ok s e ∧ ∀ t, step s e = some t → Meets step ok t es

variable {step : σ → ε → Option σ} {ok ok' : σ → ε → Prop} {s₀ s t : σ}

@[simp] theorem run_nil : run step s [] = some s := rfl

@[simp] theorem run_cons (e : ε) (es : List ε) :
    run step s (e :: es) = (step s e).bind fun u => run step u es := rfl

theorem run_append (es fs : List ε) :
    run step s (es ++ fs) = (run step s es).bind fun u => run step u fs := by
  simp only [run, List.foldlM_append]
  rfl

/-- An invariant holds initially, survives every permitted step, hence holds throughout. -/
theorem Reaches.invariant {P : σ → Prop} (h0 : P s₀)
    (hs : ∀ s e t, P s → ok s e → step s e = some t → P t) (h : Reaches step ok s₀ t) : P t := by
  induction h with
  | start => exact h0
  | next _ hok hst ih => exact hs _ _ _ ih hok hst

theorem Reaches.mono (hok : ∀ s e, ok s e → ok' s e) (h : Reaches step ok s₀ t) :
    Reaches step ok' s₀ t := by
  induction h with
  | start => exact .start
  | next _ hk hst ih => exact ih.next (hok _ _ hk) hst

/-- What is known of every state reached may be relied on at every step. -/
theorem Reaches.along {P : σ → Prop} (hP : ∀ s, Reaches step ok s₀ s → P s)
    (h : Reaches step ok s₀ t) : Reaches step (fun s e => ok s e ∧ P s) s₀ t := by
  induction h with
  | start => exact .start
  | next hr hk hst ih => exact ih.next ⟨hk, hP _ hr⟩ hst

theorem Reaches.trans (h : Reaches step ok s₀ s) (h' : Reaches step ok s t) :
    Reaches step ok s₀ t := by
  induction h' with
  | start => exact h
  | next _ hk hst ih => exact ih.next hk hst

/-- An executed event list is a run. -/
theorem reaches_of_run {es : List ε} (hm : Meets step ok s es) (h : run step s es = some t) :
    Reaches step ok s t := by
  induction es generalizing s with
  | nil =>
    obtain rfl : s = t := by simpa using h
    exact .start
  | cons e es ih =>
    obtain ⟨u, hu, hr⟩ := Option.bind_eq_some_iff.mp h
    exact (Reaches.start.next hm.1 hu).trans (ih (hm.2 u hu) hr)

/-- A condition on events alone is met when every event of the list meets it. -/
theorem meets_of_forall {p : ε → Prop} {es : List ε} (h : ∀ e ∈ es, p e) :
    Meets step (fun _ e => p e) s es := by
  induction es generalizing s with
  | nil => trivial
  | cons e es ih =>
    exact ⟨h e List.mem_cons_self, fun _ _ => ih fun x hx => h x (List.mem_cons_of_mem e hx)⟩

/-- Whether a run meets a condition is found by executing it. -/
instance decidableMeets [∀ s e, Decidable (ok s e)] :
    (s : σ) → (es : List ε) → Decidable (Meets step ok s es)
  | _, [] => .isTrue trivial
  | s, e :: es =>
    have : Decidable (∀ t, step s e = some t → Meets step ok t es) :=
      match h : step s e with
      | none => .isTrue fun _ ht => by cases ht
      | some t => match decidableMeets t es with
        | .isTrue hm => .isTrue fun u hu => Option.some.inj hu ▸ hm
        | .isFalse hm => .isFalse fun hall => hm (hall t rfl)
    inferInstanceAs (Decidable (ok s e ∧ ∀ t, step s e = some t → Meets step ok t es))

/-- Executes the events from a state, if there is one, and tests the ends of the run. -/
def executes (step : σ → ε → Option σ) (ok : σ → ε → Prop) [∀ s e, Decidable (ok s e)]
    (start : Option σ) (es : List ε) (test : σ → σ → Bool) : Bool :=
  start.any fun s => decide (Meets step ok s es) && (run step s es).any (test s)

/-- A run found by executing it. -/
theorem run_of_executes (step : σ → ε → Option σ) (ok : σ → ε → Prop)
    [∀ s e, Decidable (ok s e)] (start : Option σ) (es : List ε) (test : σ → σ → Bool)
    (h : executes step ok start es test = true) :
    ∃ s t, start = some s ∧ Meets step ok s es ∧ run step s es = some t ∧ test s t = true := by
  obtain ⟨s, hs, hrun⟩ := (Option.any_eq_true _ _).mp h
  obtain ⟨hm, ht⟩ := Bool.and_eq_true_iff.mp hrun
  obtain ⟨t, hst, htest⟩ := (Option.any_eq_true _ _).mp ht
  exact ⟨s, t, hs, of_decide_eq_true hm, hst, htest⟩

theorem exists_of_executes (step : σ → ε → Option σ) (ok : σ → ε → Prop)
    [∀ s e, Decidable (ok s e)] (start : Option σ) (es : List ε) (test : σ → σ → Bool)
    (h : executes step ok start es test = true) :
    ∃ s t, start = some s ∧ Reaches step ok s t ∧ test s t = true := by
  obtain ⟨s, t, hs, hm, hst, ht⟩ := run_of_executes step ok start es test h
  exact ⟨s, t, hs, reaches_of_run hm hst, ht⟩

/-- A property holds in every state of a run exactly when every step meets `ok`: steps that do keep an
invariant with the property, and any other step loses the property. -/
theorem forall_prefix_iff_meets {I P : σ → Prop} {es : List ε} (hP : ∀ s, I s → P s)
    (hkeep : ∀ s e t, I s → ok s e → step s e = some t → I t)
    (hlose : ∀ s e, I s → ¬ ok s e → ∃ t, step s e = some t ∧ ¬ P t) (h0 : I s) :
    (∀ done u, done <+: es → run step s done = some u → P u) ↔ Meets step ok s es := by
  induction es generalizing s with
  | nil =>
    constructor
    · intro _
      trivial
    · intro _ done u hd hu
      obtain rfl := List.prefix_nil.mp hd
      obtain rfl := Option.some.inj hu
      exact hP s h0
  | cons e es ih =>
    constructor
    · intro hall
      have hok : ok s e := by
        by_contra hno
        obtain ⟨t, ht, hlost⟩ := hlose s e h0 hno
        apply hlost
        apply hall [e] t (List.prefix_append [e] es)
        simp [ht]
      refine ⟨hok, ?_⟩
      intro t ht
      apply (ih (hkeep s e t h0 hok ht)).mp
      intro done u hd hu
      apply hall (e :: done) u (List.cons_prefix_cons.mpr ⟨rfl, hd⟩)
      rw [run_cons, ht]
      exact hu
    · intro hm done u hd hu
      cases done with
      | nil =>
        obtain rfl := Option.some.inj hu
        exact hP s h0
      | cons f done =>
        obtain ⟨rfl, hdone⟩ := List.cons_prefix_cons.mp hd
        obtain ⟨t, ht, hrest⟩ := Option.bind_eq_some_iff.mp hu
        exact (ih (hkeep s f t h0 hm.1 ht)).mpr (hm.2 t ht) done u hdone hrest

/-- The same induction on an executed list, for properties of its last state. -/
theorem run_invariant {P : σ → Prop} {es : List ε}
    (hs : ∀ s e t, P s → ok s e → step s e = some t → P t)
    (h0 : P s) (hm : Meets step ok s es) (h : run step s es = some t) : P t :=
  (reaches_of_run hm h).invariant h0 hs

/-- What a checked continuation says once it has produced a value. -/
theorem guard_bind {α : Type} {p : Prop} [Decidable p] {f : Unit → Option α} {a : α}
    (h : (guard p >>= f) = some a) : p ∧ f () = some a := by
  by_cases hp : p
  · simpa [guard, hp] using h
  · simp [guard, hp] at h

end Conrt.Base
