import Conrt.Base.Run
import Conrt.Coio.Sane

/-! What the log says of each cancel call: how often its callback ran, how often its local was
dropped, and which callback follows. -/
namespace Conrt.Coio

variable {L : Type}

namespace Entry

def isRan (k : ℕ) : Entry L → Bool
  | .cancelRan call .. => call == k
  | _ => false

def isDropped (k : ℕ) : Entry L → Bool
  | .cancelDropped call => call == k
  | _ => false

def isCallback : Entry L → Bool
  | .cancelRan .. | .shim .. => true
  | _ => false

def call? : Entry L → Option ℕ
  | .cancelCall call .. | .cancelRan call .. | .cancelDropped call => some call
  | _ => none

end Entry

def ranCount (k : ℕ) (log : List (Entry L)) : ℕ := log.countP (·.isRan k)

def droppedCount (k : ℕ) (log : List (Entry L)) : ℕ := log.countP (·.isDropped k)

/-- The next callback of the log is the shim of op `t`, cancelled, over the local `l`. -/
def Answered (t : ℕ) (l : L) : List (Entry L) → Prop
  | [] => False
  | .cancelRan .. :: _ => False
  | .shim id _ args :: _ => id = t ∧ args.outcome = .cancelled ∧ args.loc = l
  | _ :: rest => Answered t l rest

/-- Every cancel callback is followed, with no callback in between, by its target's own shim, which
sees the cancellation and the local as the cancel callback left it. -/
def Paired : List (Entry L) → Prop
  | [] => True
  | .cancelRan _ t _ _ after :: rest => Answered t after rest ∧ Paired rest
  | _ :: rest => Paired rest

/-- The last callback of the log is a cancel callback of op `t` that left `l` behind. -/
def Awaits (t : ℕ) (l : L) (log : List (Entry L)) : Prop :=
  ∃ done k before call rest, log = done ++ .cancelRan k t call before l :: rest ∧ Paired done ∧
    ∀ e ∈ rest, e.isCallback = false

variable {k t : ℕ} {l : L} {log log' : List (Entry L)} {entry : Entry L}

@[simp] theorem ranCount_append :
    ranCount k (log ++ log') = ranCount k log + ranCount k log' := List.countP_append

@[simp] theorem droppedCount_append :
    droppedCount k (log ++ log') = droppedCount k log + droppedCount k log' := List.countP_append

theorem ranCount_one (entry : Entry L) : ranCount k [entry] = if entry.isRan k then 1 else 0 :=
  List.countP_singleton

theorem droppedCount_one (entry : Entry L) :
    droppedCount k [entry] = if entry.isDropped k then 1 else 0 := List.countP_singleton

theorem Entry.call_of_isRan (h : entry.isRan k = true) : entry.call? = some k := by
  cases entry <;> simp_all [Entry.isRan, Entry.call?]

theorem Entry.call_of_isDropped (h : entry.isDropped k = true) : entry.call? = some k := by
  cases entry <;> simp_all [Entry.isDropped, Entry.call?]

/-- An entry about another call, or about none, counts for nothing. -/
theorem counts_append_other (h : entry.call? ≠ some k) :
    ranCount k (log ++ [entry]) = ranCount k log ∧
      droppedCount k (log ++ [entry]) = droppedCount k log := by
  have hr : entry.isRan k = false := by
    by_contra hne
    exact h (Entry.call_of_isRan (by simpa using hne))
  have hd : entry.isDropped k = false := by
    by_contra hne
    exact h (Entry.call_of_isDropped (by simpa using hne))
  simp [ranCount_one, droppedCount_one, hr, hd]

/-- A call no entry is about has neither run nor been dropped. -/
theorem counts_fresh (h : ∀ e ∈ log, e.call? ≠ some k) :
    ranCount k log = 0 ∧ droppedCount k log = 0 := by
  constructor
  · exact List.countP_eq_zero.mpr fun e he hk => h e he (Entry.call_of_isRan hk)
  · exact List.countP_eq_zero.mpr fun e he hk => h e he (Entry.call_of_isDropped hk)

theorem Answered.append (h : Answered t l log) : Answered t l (log ++ log') := by
  induction log with
  | nil => exact h.elim
  | cons e log ih =>
    cases e <;> first
      | exact h
      | exact ih h

theorem Paired.append (h : Paired log) (h' : Paired log') : Paired (log ++ log') := by
  induction log with
  | nil => exact h'
  | cons e log ih =>
    cases e with
    | cancelRan => exact ⟨h.1.append, ih h.2⟩
    | _ => exact ih h

/-- Only a cancel callback leaves something to answer. -/
theorem paired_of_quiet (h : ∀ e ∈ log, e.isCallback = false) : Paired log := by
  induction log with
  | nil => trivial
  | cons e log ih =>
    have hrest := ih fun x hx => h x (List.mem_cons_of_mem e hx)
    have he := h e List.mem_cons_self
    cases e <;> first
      | exact hrest
      | cases he

theorem Awaits.start (h : Paired log) (k call : ℕ) (before : L) :
    Awaits t l (log ++ [.cancelRan k t call before l]) :=
  ⟨log, k, before, call, [], rfl, h, by simp⟩

theorem Awaits.append (h : Awaits t l log) (hn : ∀ e ∈ log', e.isCallback = false) :
    Awaits t l (log ++ log') := by
  obtain ⟨done, k, before, call, rest, rfl, hp, hr⟩ := h
  refine ⟨done, k, before, call, rest ++ log', by simp, hp, fun e he => ?_⟩
  exact (List.mem_append.mp he).elim (hr e) (hn e)

private theorem answered_quiet (shim : ℕ) (args : OpShimArgs L)
    (ho : args.outcome = .cancelled) (hr : ∀ e ∈ log, e.isCallback = false) :
    Answered t args.loc (log ++ [.shim t shim args]) ∧ Paired (log ++ [.shim t shim args]) := by
  induction log with
  | nil => exact ⟨⟨rfl, ho, rfl⟩, trivial⟩
  | cons e log ih =>
    have hrest := ih fun x hx => hr x (List.mem_cons_of_mem e hx)
    have he := hr e List.mem_cons_self
    cases e <;> first
      | exact hrest
      | cases he

/-- The shim of the target answers its cancel callback. -/
theorem Awaits.answer {shim : ℕ} {args : OpShimArgs L} (h : Awaits t args.loc log)
    (ho : args.outcome = .cancelled) : Paired (log ++ [.shim t shim args]) := by
  obtain ⟨done, k, before, call, rest, rfl, hp, hr⟩ := h
  rw [List.append_assoc]
  exact hp.append (answered_quiet shim args ho hr)

end Conrt.Coio
