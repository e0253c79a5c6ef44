import Conrt.Base.Run
import Conrt.Coio.Slabs

/-! A thread and the runtimes it runs one after another, in steps between which user code is in
control. -/
namespace Conrt.Coio

open Conrt.Base

variable {L : Type}

/-- Whose code runs: that outside any callback, a cancel's callback while the op's local is lent to
it, or an op's callback while the arena is moved aside. -/
inductive Control (L : Type)
  | outside
  | done (index : ℕ) (completion : CompletedOp) (b : Begun L) (loc : L)
  | shim (saved : BufArena) (run : Option (ℕ × ℕ))

/-- A completed op's slot is freed and its callback entered. -/
def enterShim (index : ℕ) (completion : CompletedOp) (b : Begun L) (loc : L) : M L (Control L) := do
  freeOpSlotTaken index
  let outcome := if b.pending && completion.cancelled then .cancelled
    else .completed completion.result completion.flags
  let rt ← get
  runShim b.id b.shim b.run outcome b.done loc completion.cls []
  pure (.shim rt.bufArena b.run)

/-- An op completion, up to the first callback it leads to. `left` is what the cancel's callback
leaves of the op's local. -/
def deliver (slot id : ℕ) (completion : CompletedOp) (left : L → L → L) : M L (Control L) := do
  modify fun rt => { rt with
    backend.armed := rt.backend.armed.erase (slot, id)
    backend.verdicts := (id, completion.cancelled) :: rt.backend.verdicts }
  assertNamesLive slot
  match ← beginOp slot completion.cancelled with
  | none => pure .outside
  | some b =>
    if b.pending && completion.cancelled then
      let loc ← dispatchCancelOf slot b.loc ⟨left, [], []⟩
      pure (.done slot completion b loc)
    else
      let loc ← settleCancel slot b.pending false b.loc ⟨left, [], []⟩
      enterShim slot completion b loc

/-- The callback in control returns. -/
def leave : Control L → M L (Control L)
  | .outside => throw .assertion
  | .done index completion b loc => do
    clearPending index
    enterShim index completion b loc
  | .shim saved run => do
    modify fun rt => { rt with bufArena := saved }
    releaseRun run
    pure .outside

def Call.invoke : Call L → M L (Option Op)
  | .register shim done loc cls bufs accepted => registerOp shim done loc cls bufs accepted
  | .cancel op loc done accepted => do
    Coio.cancel op loc done accepted
    pure none

/-- The thread: its current runtime, the op-id counter's value when that was started, and every
handle returned so far with the runtime it came from. -/
structure Thread (L : Type) where
  rt : Runtime L
  control : Control L
  generation : ℕ
  first : ℕ
  handles : List (ℕ × Op)

def Thread.start : Thread L := ⟨.new, .outside, 0, 1, []⟩

inductive Move (L : Type)
  | call (c : Call L)
  | op (slot id : ℕ) (completion : CompletedOp) (left : L → L → L)
  | cancel (slot id targetId : ℕ) (result : ℤ)
  | leave
  | restart (counter : NonZeroU64)

def Thread.after (t : Thread L) : EStateM.Result Panic (Runtime L) (Control L) → Option (Thread L)
  | .ok control rt => some { t with rt := rt, control := control }
  | .error _ _ => none

/-- One move over a backend that delivers only what `may` admits; `none` where it cannot be taken or
panics. A runtime that has ended or panicked is followed by one that goes on with the thread's counter,
which never goes back. -/
def Thread.stepUnder (may : Ledger → Event L → Bool) (t : Thread L) : Move L → Option (Thread L)
  | .call c =>
    match c.invoke t.rt with
    | .ok op rt => some { t with rt := rt, handles := t.handles ++ op.toList.map (t.generation, ·) }
    | .error _ _ => none
  | .op slot id completion left =>
    match t.control with
    | .outside =>
      if may t.rt.backend (.op slot id completion ⟨left, [], []⟩) then
        t.after (deliver slot id completion left t.rt)
      else none
    | _ => none
  | .cancel slot id targetId result =>
    match t.control with
    | .outside =>
      (Coio.stepUnder may t.rt (.cancel slot id targetId result)).map fun rt => { t with rt := rt }
    | _ => none
  | .leave => t.after (leave t.control t.rt)
  | .restart counter =>
    if t.rt.nextOpId.val ≤ counter.val then
      some ⟨{ Runtime.new with nextOpId := counter }, .outside, t.generation + 1, counter, t.handles⟩
    else none

def Thread.step : Thread L → Move L → Option (Thread L) := Thread.stepUnder Ledger.allows

def Thread.owedStep : Thread L → Move L → Option (Thread L) := Thread.stepUnder Ledger.owes

/-- The handle's op has completed, or belonged to an earlier runtime. -/
def Thread.Stale (t : Thread L) (handle : ℕ × Op) : Prop :=
  handle ∈ t.handles ∧
    (handle.1 < t.generation ∨ ∃ cancelled, .completed handle.2.id cancelled ∈ t.rt.log)

/-- Whether a completion may come does not depend on what the callbacks will do. -/
def Blind (may : Ledger → Event L → Bool) : Prop :=
  ∀ b slot id completion r r', may b (.op slot id completion r) = may b (.op slot id completion r')

section

variable {may : Ledger → Event L → Bool} {s s' : Runtime L} {t : Thread L}

private theorem Call.exec_invoke {c : Call L} (h : c.exec s = .ok () s') : ∃ op, c.invoke s = .ok op s' := by
  cases c with
  | register shim done loc cls bufs accepted =>
    obtain ⟨op, s₁, hop, hpure⟩ := bind_eq_ok.mp h
    cases hpure
    exact ⟨op, hop⟩
  | cancel op loc done accepted => exact ⟨none, bind_eq_ok.mpr ⟨_, _, h, rfl⟩⟩

theorem run_calls {calls : List (Call L)} (h : forEach Call.exec calls t.rt = .ok () s') :
    ∃ hs, run (Thread.stepUnder may) t (calls.map .call) = some { t with rt := s', handles := hs } := by
  induction calls generalizing t with
  | nil =>
    cases h
    exact ⟨t.handles, rfl⟩
  | cons c calls ih =>
    obtain ⟨_, s₁, hc, hrest⟩ := bind_eq_ok.mp h
    obtain ⟨op, hinvoke⟩ := Call.exec_invoke hc
    obtain ⟨hs, hrun⟩ :=
      ih (t := { t with rt := s₁, handles := t.handles ++ op.toList.map (t.generation, ·) }) hrest
    exact ⟨hs, by simpa only [List.map_cons, run_cons, Thread.stepUnder, hinvoke, Option.bind_some] using hrun⟩

theorem dispatchCancelOf_ok {index : ℕ} {victim l : L} {r : Reaction L}
    (h : dispatchCancelOf index victim r s = .ok l s') :
    ∃ s₁ calls, dispatchCancelOf index victim ⟨r.left, [], []⟩ s = .ok l s₁ ∧
      forEach Call.exec calls s₁ = .ok () s' := by
  unfold dispatchCancelOf at h ⊢
  obtain ⟨_, _, hget, h⟩ := bind_eq_ok.mp h
  cases hget
  cases hfind : s.findCancelOf index with
  | none =>
    simp only [hfind] at h
    cases h
    exact ⟨s, [], bind_eq_ok.mpr ⟨s, s, rfl, by simp only [hfind]; rfl⟩, rfl⟩
  | some j =>
    simp only [hfind] at h
    obtain ⟨slot, s₁, hslot, h⟩ := bind_eq_ok.mp h
    cases hbody : slot.body with
    | free _ =>
      simp only [hbody] at h
      cases h
    | live done =>
      simp only [hbody] at h
      obtain ⟨loc, s₂, hloc, h⟩ := bind_eq_ok.mp h
      obtain ⟨_, s₃, hfree, h⟩ := bind_eq_ok.mp h
      obtain ⟨_, s₄, hrecord, h⟩ := bind_eq_ok.mp h
      obtain ⟨_, s₅, hcalls, hpure⟩ := bind_eq_ok.mp h
      cases hpure
      refine ⟨s₄, r.doneCalls, bind_eq_ok.mpr ⟨s, s, rfl, ?_⟩, hcalls⟩
      simp only [hfind]
      refine bind_eq_ok.mpr ⟨slot, s₁, hslot, ?_⟩
      simp only [hbody]
      refine bind_eq_ok.mpr ⟨loc, s₂, hloc, bind_eq_ok.mpr ⟨_, s₃, hfree, ?_⟩⟩
      exact bind_eq_ok.mpr ⟨_, s₄, hrecord, rfl⟩

private theorem runShim_split (id shim : ℕ) (bufs : Option (ℕ × ℕ)) (outcome : OpOutcome) (done : ℕ) (loc : L)
    (cls : ℕ) (calls : List (Call L)) :
    runShim id shim bufs outcome done loc cls calls = (do
      runShim id shim bufs outcome done loc cls []
      forEach Call.exec calls) := by
  simp only [runShim, forEach, bind_assoc, pure_bind]

theorem finishOp_ok {index : ℕ} {completion : CompletedOp} {r : Reaction L} {b : Begun L} {loc : L}
    (h : finishOp index completion r b loc s = .ok () s') :
    ∃ saved s₁ s₂, enterShim index completion b loc s = .ok (.shim saved b.run) s₁ ∧
      forEach Call.exec r.shimCalls s₁ = .ok () s₂ ∧
      leave (.shim saved b.run) s₂ = .ok .outside s' := by
  unfold finishOp at h
  rw [dispatchShim_eq, runShim_split] at h
  obtain ⟨_, s₁, hfree, h⟩ := bind_eq_ok.mp h
  obtain ⟨_, _, hget, h⟩ := bind_eq_ok.mp h
  cases hget
  rw [bind_assoc] at h
  obtain ⟨_, s₂, hshim, h⟩ := bind_eq_ok.mp h
  obtain ⟨_, s₃, hcalls, h⟩ := bind_eq_ok.mp h
  obtain ⟨_, s₄, hmodify, hrelease⟩ := bind_eq_ok.mp h
  refine ⟨s₁.bufArena, s₂, s₃, ?_, hcalls, ?_⟩
  · exact bind_eq_ok.mpr ⟨_, s₁, hfree, bind_eq_ok.mpr ⟨s₁, s₁, rfl,
      bind_eq_ok.mpr ⟨_, s₂, hshim, rfl⟩⟩⟩
  · exact bind_eq_ok.mpr ⟨_, s₄, hmodify, bind_eq_ok.mpr ⟨_, s', hrelease, rfl⟩⟩

/-- An op's callback, from where it is entered to where it returns. -/
theorem run_finish {index : ℕ} {completion : CompletedOp} {r : Reaction L} {b : Begun L} {loc : L}
    (h : finishOp index completion r b loc s = .ok () s') :
    ∃ control s₁, enterShim index completion b loc s = .ok control s₁ ∧
      ∀ t : Thread L, ∃ ms hs, run (Thread.stepUnder may) { t with rt := s₁, control := control } ms =
        some { t with rt := s', control := .outside, handles := hs } := by
  obtain ⟨saved, s₁, s₂, henter, hcalls, hleave⟩ := finishOp_ok h
  refine ⟨_, s₁, henter, ?_⟩
  intro t
  obtain ⟨hs, hrun⟩ := run_calls (t := { t with rt := s₁, control := .shim saved b.run }) hcalls
  refine ⟨r.shimCalls.map .call ++ [.leave], hs, ?_⟩
  rw [run_append, hrun]
  simp only [Option.bind_some, run_cons, run_nil, Thread.stepUnder, hleave, Thread.after]

/-- Losing cancellations run no callback. -/
theorem settleCancel_lost {index : ℕ} {pending : Bool} {loc : L} (r r' : Reaction L) :
    settleCancel index pending false loc r = settleCancel index pending false loc r' := by
  cases pending <;> rfl

/-- What an op completion does, callbacks included, is done by single steps. -/
theorem run_op {slot id : ℕ} {completion : CompletedOp} {r : Reaction L}
    (hblind : Blind may) (ha : may t.rt.backend (.op slot id completion r) = true)
    (h : (Event.op slot id completion r).exec t.rt = .ok () s') (hc : t.control = .outside) :
    ∃ ms hs, run (Thread.stepUnder may) t ms =
      some { t with rt := s', control := .outside, handles := hs } := by
  have hfirst : Thread.stepUnder may t (.op slot id completion r.left) =
      t.after (deliver slot id completion r.left t.rt) := by
    simp only [Thread.stepUnder, hc]
    exact if_pos ((hblind ..).trans ha)
  obtain ⟨_, s₀, hbooks, h⟩ := bind_eq_ok.mp h
  obtain ⟨_, s₁, hlive, h⟩ := bind_eq_ok.mp h
  rw [completeOp_eq] at h
  obtain ⟨settled, s₂, hsettle, h⟩ := bind_eq_ok.mp h
  obtain ⟨begun, s₃, hbegin, hsettle⟩ := bind_eq_ok.mp hsettle
  have hdeliver : ∀ control s₄, (match begun with
      | none => pure .outside
      | some b =>
        if b.pending && completion.cancelled then do
          let loc ← dispatchCancelOf slot b.loc ⟨r.left, [], []⟩
          pure (.done slot completion b loc)
        else do
          let loc ← settleCancel slot b.pending false b.loc ⟨r.left, [], []⟩
          enterShim slot completion b loc : M L (Control L)) s₃ = .ok control s₄ →
      Thread.stepUnder may t (.op slot id completion r.left) =
        some { t with rt := s₄, control := control } := by
    intro control s₄ hrest
    have hall : deliver slot id completion r.left t.rt = .ok control s₄ :=
      bind_eq_ok.mpr ⟨_, s₀, hbooks, bind_eq_ok.mpr ⟨_, s₁, hlive, bind_eq_ok.mpr
        ⟨begun, s₃, hbegin, hrest⟩⟩⟩
    rw [hfirst, hall]
    rfl
  cases begun with
  | none =>
    cases hsettle
    cases h
    refine ⟨[.op slot id completion r.left], t.handles, ?_⟩
    rw [run_cons, hdeliver .outside _ rfl]
    rfl
  | some b =>
    obtain ⟨loc, s₄, hcancel, hpure⟩ := bind_eq_ok.mp hsettle
    cases hpure
    obtain ⟨control, s₅, henter, hfinish⟩ := run_finish h
    by_cases hwon : (b.pending && completion.cancelled) = true
    · have hpending : b.pending = true := (Bool.and_eq_true_iff.mp hwon).1
      rw [hwon, hpending] at hcancel
      obtain ⟨_, s₆, hdispatch, hcancel⟩ := bind_eq_ok.mp hcancel
      obtain ⟨_, s₇, hclear, hpure⟩ := bind_eq_ok.mp hcancel
      cases hpure
      obtain ⟨s₈, calls, hdone, hcalls⟩ := dispatchCancelOf_ok hdispatch
      have hop := hdeliver (.done slot completion b loc) s₈ (by
        simp only [hwon, if_true]
        exact bind_eq_ok.mpr ⟨_, _, hdone, rfl⟩)
      obtain ⟨hs, hrun⟩ :=
        run_calls (t := { t with rt := s₈, control := .done slot completion b loc }) hcalls
      have hleave : leave (.done slot completion b loc) s₆ = .ok control s₅ :=
        bind_eq_ok.mpr ⟨_, _, hclear, henter⟩
      obtain ⟨ms, hs', hrest⟩ := hfinish { t with handles := hs }
      refine ⟨.op slot id completion r.left :: (calls.map .call ++ .leave :: ms), hs', ?_⟩
      rw [run_cons, hop, Option.bind_some, run_append, hrun, Option.bind_some, run_cons]
      simp only [Thread.stepUnder, hleave, Thread.after, Option.bind_some]
      exact hrest
    · have hlost : (b.pending && completion.cancelled) = false := Bool.eq_false_of_not_eq_true hwon
      rw [hlost, settleCancel_lost r ⟨r.left, [], []⟩] at hcancel
      have hop := hdeliver control s₅ (by
        simp only [hlost, Bool.false_eq_true, if_false]
        exact bind_eq_ok.mpr ⟨_, _, hcancel, henter⟩)
      obtain ⟨ms, hs, hrest⟩ := hfinish t
      exact ⟨.op slot id completion r.left :: ms, hs, by rw [run_cons, hop, Option.bind_some, hrest]⟩

/-- Every event of the runtime is a run of the thread. -/
theorem run_stepUnder {e : Event L} (hblind : Blind may) (h : Coio.stepUnder may t.rt e = some s')
    (hc : t.control = .outside) : ∃ ms hs, run (Thread.stepUnder may) t ms =
      some { t with rt := s', control := .outside, handles := hs } := by
  obtain ⟨ha, hexec⟩ := exec_of_stepUnder h
  cases e with
  | outside calls =>
    obtain ⟨hs, hrun⟩ := run_calls hexec
    rw [← hc]
    exact ⟨_, hs, hrun⟩
  | op slot id completion r => exact run_op hblind ha hexec hc
  | cancel slot id targetId result =>
    refine ⟨[.cancel slot id targetId result], t.handles, ?_⟩
    simp only [run_cons, Thread.stepUnder, hc, h, Option.map_some, Option.bind_some, run_nil]

theorem run_event {e : Event L} (h : Coio.step t.rt e = some s') (hc : t.control = .outside) :
    ∃ ms hs, run Thread.step t ms = some { t with rt := s', control := .outside, handles := hs } :=
  run_stepUnder (fun _ _ _ _ _ _ => rfl) h hc

theorem run_owedEvent {e : Event L} (h : Coio.owedStep t.rt e = some s') (hc : t.control = .outside) :
    ∃ ms hs, run Thread.owedStep t ms =
      some { t with rt := s', control := .outside, handles := hs } :=
  run_stepUnder (fun _ _ _ _ _ _ => rfl) h hc

end

end Conrt.Coio
