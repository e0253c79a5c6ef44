import Conrt.Base.Rank
import Conrt.Base.Simulate
import Conrt.Uring.Requests

/-! The callback runtime over the ring: whatever the kernel does, the runtime gets the completions it
waits for, and a cancel reaches the op it was meant for. -/
namespace Conrt.Uring

open Conrt.Base
open Conrt.Coio (Thread Control View LiveOp Op IoBufErased deliver busy_ne call_ok nextOpSlot_eq
  nextCancelSlot_eq slot_of_view hasInflight_iff isFree)

variable {L : Type}

structure Joint (L : Type) where
  thread : Thread L
  ring : Ring

namespace Joint

/-- What happens next: a call of user code, a flush of the submission queue or the loop's wait, with how
much of it the kernel takes; one completion popped, with what a cancel's callback leaves of its op's
local; the return of a callback; or a move of the kernel. -/
inductive Move (L : Type)
  | register (shim done : ℕ) (loc : L) (cls : ℕ) (bufs : List IoBufErased)
  | cancel (op : Op) (loc : L) (done : ℕ)
  | submit (n : ℕ)
  | wait (entered : Except Errno ℕ)
  | next (left : L → L → L)
  | leave
  | kernel (k : Kernel)

def start (entries : ℕ) : Joint L := ⟨.start, .new entries⟩

def handed (j : Joint L) (op : Op) : Prop := (j.thread.generation, op) ∈ j.thread.handles

instance (j : Joint L) (op : Op) : Decidable (j.handed op) :=
  inferInstanceAs (Decidable (_ ∈ _))

def register (j : Joint L) (shim done : ℕ) (loc : L) (cls : ℕ) (bufs : List IoBufErased) :
    Option (Joint L) :=
  match j.ring.arm j.thread.rt.nextOpSlot cls j.thread.rt.nextOpId.val with
  | none => none
  | some (.ok ring) =>
    (j.thread.step (.call (.register shim done loc cls bufs true))).map (⟨·, ring⟩)
  | some (.error _) =>
    (j.thread.step (.call (.register shim done loc cls bufs false))).map (⟨·, j.ring⟩)

/-- `cancel`: the backend is asked only about a handle that names a cancellable op. -/
def cancel (j : Joint L) (op : Op) (loc : L) (done : ℕ) : Option (Joint L) :=
  if j.thread.rt.cancellable op then
    match j.ring.cancel j.thread.rt.nextCancelSlot op.slot op.cls j.thread.rt.nextOpId.val op.id.val with
    | none => none
    | some (.ok ring) => (j.thread.step (.call (.cancel op loc done true))).map (⟨·, ring⟩)
    | some (.error _) => (j.thread.step (.call (.cancel op loc done false))).map (⟨·, j.ring⟩)
  else (j.thread.step (.call (.cancel op loc done false))).map (⟨·, j.ring⟩)

/-- `take_completion`; the ids only keep the books. -/
def takeCompletion (t : Thread L) (cqe : Cqe) (left : L → L → L) : Option (Thread L) :=
  let c := cqe.completion
  if c.cancel then
    match (Coio.Event.cancel c.slot cqe.id cqe.target c.result).exec t.rt with
    | .ok _ rt => some { t with rt := rt }
    | .error _ _ => none
  else t.after (deliver c.slot cqe.id ⟨c.result, c.flags, c.cls, c.cancelled⟩ left t.rt)

/-- An `Op` is only ever made by `register_op`, so no other handle is cancelled. -/
def step (j : Joint L) : Move L → Option (Joint L)
  | .register shim done loc cls bufs => j.register shim done loc cls bufs
  | .cancel op loc done => if j.handed op then j.cancel op loc done else none
  | .submit n => some { j with ring := j.ring.submit n }
  | .wait entered =>
    match j.thread.control, j.ring.wait entered with
    | .outside, .ok ring => some { j with ring := ring }
    | _, _ => none
  | .next left =>
    match j.thread.control, j.ring.next with
    | .outside, some (cqe, ring) => (takeCompletion j.thread cqe left).map (⟨·, ring⟩)
    | _, _ => none
  | .leave => (j.thread.step .leave).map (⟨·, j.ring⟩)
  | .kernel k => (j.ring.kernel k).map fun ring => { j with ring := ring }

/-- The completion about to be popped reports the failure of a cancel whose slot holds another cancel by
now. -/
def strikes (j : Joint L) : Move L → Bool
  | .next _ => j.ring.next.any fun (c, _) => c.completion.cancel &&
      j.thread.rt.strikesOther (.cancel c.completion.slot c.id c.target c.completion.result)
  | _ => false

structure Holds (j : Joint L) : Prop where
  thread : j.thread.control.Holds j.thread.rt
  serves : Serves j.handed j.thread.control.busy j.thread.rt.view j.ring

end Joint

section

variable {j j' : Joint L} {rt rt' : Coio.Runtime L} {r r' : Ring} {slot cls id target : ℕ}

theorem Ring.arm_ok (h : r.arm slot cls id = some (.ok r')) :
    cls ≤ classMask ∧ r.push (.op (UserData.toU64 ⟨slot, cls⟩) id) = .ok r' := by
  obtain ⟨ud, hud, hp⟩ := Option.map_eq_some_iff.mp h
  obtain ⟨hcls, rfl⟩ := opUserData_eq hud
  exact ⟨hcls, hp⟩

theorem Ring.cancel_ok {cancelSlot : ℕ} (h : r.cancel cancelSlot slot cls id target = some (.ok r')) :
    r.push (.asyncCancel (cancelUserData cancelSlot) (UserData.toU64 ⟨slot, cls⟩) id target) =
      .ok r' := by
  obtain ⟨ud, hud, hp⟩ := Option.map_eq_some_iff.mp h
  obtain ⟨-, rfl⟩ := opUserData_eq hud
  exact hp

/-- The slabs are indexed by a `u32`. -/
theorem slot_lt {control : Control L} {i : ℕ} {o : LiveOp L} (h : control.Holds rt)
    (ho : rt.view.op i = some o) : i < 2 ^ 32 := by
  obtain ⟨slot, hs, -⟩ := slot_of_view ho
  exact (h.slabs.ops.lt_room hs).trans (by decide)

private theorem cancelSlot_lt {control : Control L} {i : ℕ} {c : Coio.LiveCancel L} (h : control.Holds rt)
    (hc : rt.view.cancel i = some c) : i < 2 ^ 32 := by
  obtain ⟨slot, hs, -⟩ := Option.bind_eq_some_iff.mp hc
  exact (h.slabs.cancels.lt_room hs).trans (by decide)

/-- A step that hands nothing out. -/
theorem Joint.Holds.of_handed {t : Thread L} {ring : Ring} (hgen : t.generation = j.thread.generation)
    (hhandles : t.handles = j.thread.handles) (hthread : t.control.Holds t.rt)
    (hserves : Serves j.handed t.control.busy t.rt.view ring) : (⟨t, ring⟩ : Joint L).Holds := by
  have hhanded : (⟨t, ring⟩ : Joint L).handed = j.handed := by
    funext op
    change ((t.generation, op) ∈ t.handles) = _
    rw [hgen, hhandles]
    rfl
  exact ⟨hthread, hhanded ▸ hserves⟩

theorem Joint.Holds.register (h : j.Holds) {shim done : ℕ} {loc : L} {bufs : List IoBufErased}
    (hr : j.register shim done loc cls bufs = some j') :
    j'.Holds ∧ ∃ m, j.thread.step m = some j'.thread := by
  unfold Joint.register at hr
  split at hr
  · cases hr
  · rename_i ring ha
    obtain ⟨hcls, hpush⟩ := Ring.arm_ok ha
    obtain ⟨t, ht, rfl⟩ := Option.map_eq_some_iff.mp hr
    obtain ⟨op, hinvoke, hcontrol, hgen, hhandles⟩ := call_ok ht
    obtain ⟨hthread, heffect⟩ := h.thread.call hinvoke
    obtain ⟨run, arena, -, -, ⟨-, i, hi, hv⟩ | ⟨hno, -⟩⟩ := heffect
    rotate_left
    · cases hno
    obtain ⟨hop, hasked⟩ := Coio.registerOp_asks.ok rfl hinvoke
    have hslot := nextOpSlot_eq h.thread.sane hv (hasked rfl)
    rw [if_pos rfl, hslot] at hop
    subst hop
    rw [hslot] at hpush
    have hlive := j.thread.rt.view.register_op i shim done loc bufs run arena i
    rw [if_pos rfl, ← hv] at hlive
    refine ⟨⟨hcontrol ▸ hthread, ?_⟩, _, ht⟩
    change Serves _ t.control.busy t.rt.view ring
    rw [hcontrol, hv]
    refine h.serves.register (n := ⟨i, cls, j.thread.rt.nextOpId⟩) (slot_lt hthread hlive) hcls rfl
      hpush (fun op => ?_) shim done loc bufs run arena
    change (t.generation, op) ∈ t.handles ↔ _
    rw [hgen, hhandles]
    simp [Joint.handed]
  · obtain ⟨t, ht, rfl⟩ := Option.map_eq_some_iff.mp hr
    obtain ⟨op, hinvoke, hcontrol, hgen, hhandles⟩ := call_ok ht
    obtain ⟨hthread, heffect⟩ := h.thread.call hinvoke
    obtain ⟨run, arena, -, -, ⟨hno, -⟩ | ⟨-, arena', -, hv⟩⟩ := heffect
    · cases hno
    obtain ⟨hop, -⟩ := Coio.registerOp_asks.ok rfl hinvoke
    rw [if_neg Bool.false_ne_true] at hop
    subst hop
    refine ⟨.of_handed hgen (hhandles.trans (List.append_nil _)) (hcontrol ▸ hthread) ?_, _, ht⟩
    rw [hcontrol, hv]
    exact h.serves.congr rfl rfl (Nat.le_succ _)

/-- A call that nothing was queued for leaves the ring as it was. -/
theorem Joint.Holds.turnedDown (h : j.Holds) {op : Op} {loc : L} {done : ℕ} {t : Thread L}
    (ht : j.thread.step (.call (.cancel op loc done false)) = some t) :
    (⟨t, j.ring⟩ : Joint L).Holds := by
  obtain ⟨_, hinvoke, hcontrol, hgen, hhandles⟩ := call_ok ht
  obtain ⟨hthread, heffect⟩ := h.thread.call hinvoke
  obtain ⟨_, _, -, hpure⟩ := Base.bind_eq_ok.mp hinvoke
  cases hpure
  apply Joint.Holds.of_handed hgen (hhandles.trans (List.append_nil _)) (hcontrol ▸ hthread)
  rw [hcontrol]
  obtain ⟨-, hv⟩ | ⟨-, hv⟩ | ⟨hno, -⟩ := heffect
  · rw [hv]
    exact h.serves.congr rfl rfl le_rfl
  · rw [hv]
    exact h.serves.congr rfl rfl (Nat.le_succ _)
  · cases hno

theorem Joint.Holds.cancel (h : j.Holds) {op : Op} {loc : L} {done : ℕ} (hhanded : j.handed op)
    (hr : j.cancel op loc done = some j') : j'.Holds ∧ ∃ m, j.thread.step m = some j'.thread := by
  unfold Joint.cancel at hr
  split_ifs at hr with hc
  · split at hr
    · cases hr
    · rename_i ring ha
      have hpush := Ring.cancel_ok ha
      obtain ⟨t, ht, rfl⟩ := Option.map_eq_some_iff.mp hr
      obtain ⟨_, hinvoke, hcontrol, hgen, hhandles⟩ := call_ok ht
      obtain ⟨hthread, heffect⟩ := h.thread.call hinvoke
      obtain ⟨o, ho, hid, hp⟩ := Coio.cancellable_iff.mp hc
      have hbusy := busy_ne h.thread.settles ho hp
      obtain ⟨hno, -⟩ | ⟨hno, -⟩ | ⟨-, k, o', ho', -, -, -, -, hv⟩ := heffect
      · have hpending := hno o ho hid
        rw [hp] at hpending
        cases hpending
      · cases hno
      obtain ⟨_, _, hcall, hpure⟩ := Base.bind_eq_ok.mp hinvoke
      cases hpure
      have hslot := nextCancelSlot_eq h.thread.protocol.marks hv ((Coio.cancel_asks hc).ok rfl hcall)
      rw [hslot] at hpush
      rw [ho] at ho'
      obtain rfl := Option.some.inj ho'
      have hlive : t.rt.view.cancel k =
          some ⟨j.thread.rt.view.nextOpId, op.slot, op.id, .live done, some (j.thread.rt.view.calls, loc)⟩ := by
        rw [hv]
        exact Function.update_self ..
      refine ⟨.of_handed hgen (hhandles.trans (List.append_nil _)) (hcontrol ▸ hthread) ?_, _, ht⟩
      rw [hcontrol, hv]
      exact h.serves.acceptCancel h.thread.sane hhanded ho hid hp hbusy (cancelSlot_lt hthread hlive)
        hpush done loc
    · obtain ⟨t, ht, rfl⟩ := Option.map_eq_some_iff.mp hr
      exact ⟨h.turnedDown ht, _, ht⟩
  · obtain ⟨t, ht, rfl⟩ := Option.map_eq_some_iff.mp hr
    exact ⟨h.turnedDown ht, _, ht⟩

/-- A completion is that of an op in a live slot, or of a cancel. -/
theorem Joint.Holds.popped (h : j.Holds) {c : Cqe} (hn : j.ring.next = some (c, r')) :
    if c.completion.cancel then
      (c.completion.slot, c.id, c.target) ∈ j.thread.rt.view.backend.cancels ∧
        (c.target, decide (c.result = 0)) ∈ j.ring.told
    else (c.completion.slot, c.id) ∈ j.thread.rt.view.backend.armed ∧
      (c.id, c.completion.cancelled) ∈ j.ring.told ∧
      ∃ op, j.handed op ∧ op.slot = c.completion.slot ∧ op.cls = c.completion.cls ∧ op.id.val = c.id := by
  have hmem : c ∈ j.ring.done := (Ring.next_ok hn).1.mem_iff.mpr List.mem_cons_self
  have hreq := h.serves.requests
  split_ifs with hc
  · refine ⟨hreq.cancels.mem_iff.mp (List.mem_append_right _ ?_), h.serves.decides.cancels c hmem hc⟩
    refine List.mem_filterMap.mpr ⟨c, hmem, ?_⟩
    unfold Cqe.cancel?
    rw [if_pos hc]
  · refine ⟨hreq.ops.mem_iff.mp (List.mem_append_right _ (List.mem_append_right _ ?_)),
      h.serves.decides.ops c hmem (Bool.eq_false_of_not_eq_true hc), ?_⟩
    · refine List.mem_filterMap.mpr ⟨c, hmem, ?_⟩
      unfold Cqe.op?
      rw [if_neg hc]
    · rcases hreq.done c hmem with ⟨op, hop, hud, hid⟩ | ⟨slot, hs, hud⟩
      · obtain ⟨ud, result, flags, id, target⟩ := c
        obtain rfl : ud = _ := hud
        rw [completion_op h.serves.handles hop]
        exact ⟨op, hop, rfl, rfl, hid⟩
      · obtain ⟨ud, result, flags, id, target⟩ := c
        obtain rfl : ud = _ := hud
        rw [completion_cancel hs] at hc
        exact (hc rfl).elim

theorem Joint.Holds.takeOp (h : j.Holds) (hout : j.thread.control = .outside) {c : Cqe} {ring : Ring}
    (hn : j.ring.next = some (c, ring)) (hc : c.completion.cancel = false) {left : L → L → L}
    {t : Thread L} (ht : Joint.takeCompletion j.thread c left = some t) :
    (⟨t, ring⟩ : Joint L).Holds ∧ ∃ m, j.thread.step m = some t := by
  have hpopped := h.popped hn
  rw [hc, if_neg Bool.false_ne_true] at hpopped
  obtain ⟨harmed, htold, -⟩ := hpopped
  have hthread := h.thread
  have hserves := h.serves
  rw [hout] at hthread hserves
  obtain ⟨o, ho, hid⟩ := hthread.sane.armed _ _ harmed
  have hagree : ∀ b, (c.id, b) ∈ j.thread.rt.view.backend.verdicts → b = c.completion.cancelled :=
    fun b hm => hserves.decides.agree _ _ _ (hserves.decides.verdicts _ hm) htold
  simp only [Joint.takeCompletion, hc, Bool.false_eq_true, if_false] at ht
  cases hx : deliver c.completion.slot c.id ⟨c.completion.result, c.completion.flags, c.completion.cls,
      c.completion.cancelled⟩ left j.thread.rt with
  | error e rt => rw [hx] at ht; cases ht
  | ok control rt =>
    rw [hx] at ht
    obtain rfl := Option.some.inj ht
    obtain ⟨hkept, hbusy, hreceived⟩ := hthread.deliver ho hid hagree hx
    constructor
    · refine .of_handed (j := j) rfl rfl hkept ?_
      change Serves _ control.busy rt.view ring
      rw [hbusy]
      exact hserves.received hn hc hid hreceived
    · refine ⟨.op c.completion.slot c.id ⟨c.completion.result, c.completion.flags, c.completion.cls,
        c.completion.cancelled⟩ left, ?_⟩
      have hallows : j.thread.rt.backend.allows (.op c.completion.slot c.id ⟨c.completion.result,
          c.completion.flags, c.completion.cls, c.completion.cancelled⟩ ⟨left, [], []⟩) = true := by
        simp only [Coio.Ledger.allows, Bool.and_eq_true, decide_eq_true_eq, List.all_eq_true]
        refine ⟨harmed, ?_⟩
        rintro ⟨id, b⟩ hm
        by_cases heq : id = c.id
        · have hsame := hagree b (heq ▸ hm)
          simp [hsame]
        · simp [heq]
      simp only [Thread.step, Thread.stepUnder, hout, hallows, if_true, hx, Thread.after]

/-- A cancel that failed and is still in its slot is the one the completion is of. -/
theorem Joint.Holds.takeCancel (h : j.Holds) (hout : j.thread.control = .outside) {c : Cqe} {ring : Ring}
    (hn : j.ring.next = some (c, ring)) (hc : c.completion.cancel = true) {left : L → L → L}
    (hno : j.strikes (.next left) = false) {t : Thread L}
    (ht : Joint.takeCompletion j.thread c left = some t) :
    (⟨t, ring⟩ : Joint L).Holds ∧ ∃ m, j.thread.step m = some t := by
  have hpopped := h.popped hn
  rw [if_pos hc] at hpopped
  obtain ⟨hasked, htold⟩ := hpopped
  have hthread := h.thread
  have hserves := h.serves
  rw [hout] at hthread hserves
  have hmiss : j.thread.rt.strikesOther (.cancel c.completion.slot c.id c.target c.completion.result) =
      false := by
    simpa only [Joint.strikes, hn, Option.any_some, hc, Bool.true_and] using hno
  simp only [Joint.takeCompletion, hc, if_true] at ht
  cases hx : (Coio.Event.cancel c.completion.slot c.id c.target c.completion.result).exec
      j.thread.rt with
  | error e rt => rw [hx] at ht; cases ht
  | ok _ rt =>
    rw [hx] at ht
    obtain rfl := Option.some.inj ht
    have hallows : j.thread.rt.backend.allows (.cancel c.completion.slot c.id c.target
        c.completion.result : Coio.Event L) = true := by
      simp only [Coio.Ledger.allows, Bool.and_eq_true, decide_eq_true_eq, List.all_eq_true]
      refine ⟨hasked, ?_⟩
      rintro ⟨id, b⟩ hm
      by_cases heq : id = c.target
      · have hsame := hserves.decides.agree _ _ _ (hserves.decides.verdicts _ (heq ▸ hm)) htold
        simp only [hsame, Cqe.completion, bne_iff_ne, beq_iff_eq, Bool.or_eq_true]
        exact .inr rfl
      · simp [heq]
    constructor
    · have hkept : j.thread.control.Holds rt := by
        rw [hout]
        exact hthread.cancelled hallows hmiss hx
      refine .of_handed (j := j) rfl rfl hkept ?_
      change Serves _ j.thread.control.busy rt.view ring
      rw [hout]
      have hanswered := hserves.answered hn hc
      rcases Coio.cancel_view.ok rfl hx with ⟨-, hv⟩ | ⟨k, loc, v, hk, hr, hv, hrest⟩
      · rw [hv]
        exact hanswered
      · have hid := Coio.strikesOther_cancel hmiss hr hk
        have hkt : k.targetId = c.target :=
          (hthread.protocol.marks.requests _ _ _ hasked).2 k hk hid
        obtain ⟨o, ho, hoid, hpending⟩ := hthread.protocol.marks.target _ k hk
        obtain ⟨o', ho', -, -, hview⟩ | ⟨hnone, -⟩ := hrest
        · rw [ho] at ho'
          obtain rfl := Option.some.inj ho'
          have hmem : c ∈ j.ring.done := (Ring.next_ok hn).1.mem_iff.mpr List.mem_cons_self
          obtain ⟨hclear, hnot⟩ := hserves.failed hmem hc hr
          have hsame : c.target = o.id := (hoid.trans hkt).symm
          rw [hview, hv]
          refine hanswered.unmark (o := o) (i := k.target) ho ?_ ?_ (fun i => ?_) rfl rfl
          · rw [← hsame]
            exact hclear
          · rw [← hsame, (Ring.next_ok hn).2.2.2]
            exact hnot
          · exact Function.update_apply ..
        · exact absurd hoid (hnone o ho hpending)
    · refine ⟨.cancel c.completion.slot c.id c.target c.completion.result, ?_⟩
      simp only [Thread.step, Thread.stepUnder, hout, Coio.stepUnder, hallows, if_true, hx, Option.map_some]

theorem Joint.Holds.leave (h : j.Holds) {t : Thread L} (ht : j.thread.step .leave = some t) :
    (⟨t, j.ring⟩ : Joint L).Holds := by
  cases hx : Coio.leave j.thread.control j.thread.rt with
  | error e rt => simp only [Thread.step, Thread.stepUnder, hx, Thread.after] at ht; cases ht
  | ok control rt =>
    simp only [Thread.step, Thread.stepUnder, hx, Thread.after] at ht
    obtain rfl := Option.some.inj ht
    obtain ⟨hkept, hbusy, hleaves⟩ := h.thread.leave hx
    have hserves := h.serves
    refine .of_handed (j := j) rfl rfl hkept ?_
    change Serves _ control.busy rt.view j.ring
    rw [hbusy]
    cases hcontrol : j.thread.control with
    | outside =>
      rw [hcontrol] at hx
      cases hx
    | done index completion b loc =>
      rw [hcontrol] at hleaves hserves
      exact hserves.freed hleaves.1 hleaves.2
    | shim saved run =>
      rw [hcontrol] at hleaves hserves
      obtain ⟨arena, hv⟩ := hleaves
      rw [hv]
      exact hserves.congr rfl rfl le_rfl

theorem Joint.Holds.worked (h : j.Holds) {ring : Ring} (hw : j.ring.Worked ring) :
    (⟨j.thread, ring⟩ : Joint L).Holds := ⟨h.thread, h.serves.worked h.thread.sane hw⟩

theorem Joint.Holds.start (entries : ℕ) : (Joint.start entries : Joint L).Holds := by
  refine ⟨.start, ?_⟩
  have hnone : (Joint.start entries : Joint L).handed = fun _ => False := by
    funext op
    exact propext (List.mem_nil_iff _)
  rw [hnone]
  exact .start entries

/-- The runtime takes each move by one of its own steps, under the contract of its backend. -/
theorem Joint.Holds.step (h : j.Holds) {move : Joint.Move L} (hno : j.strikes move = false)
    (hs : j.step move = some j') :
    j'.Holds ∧ (j'.thread = j.thread ∨ ∃ m, j.thread.step m = some j'.thread) := by
  cases move with
  | register shim done loc cls bufs =>
    obtain ⟨hkept, hmove⟩ := h.register hs
    exact ⟨hkept, .inr hmove⟩
  | cancel op loc done =>
    simp only [Joint.step] at hs
    split_ifs at hs with hhanded
    obtain ⟨hkept, hmove⟩ := h.cancel hhanded hs
    exact ⟨hkept, .inr hmove⟩
  | submit n =>
    obtain rfl := Option.some.inj hs
    exact ⟨h.worked (Ring.submit_worked n), .inl rfl⟩
  | wait entered =>
    simp only [Joint.step] at hs
    split at hs
    · rename_i ring hout hw
      obtain rfl := Option.some.inj hs
      refine ⟨h.worked ?_, .inl rfl⟩
      unfold Ring.wait at hw
      split at hw
      · cases hw
        exact Ring.submit_worked _
      · split_ifs at hw
        cases hw
        exact .passed rfl rfl .rfl rfl
    · cases hs
  | next left =>
    simp only [Joint.step] at hs
    split at hs
    · rename_i c ring hout hn
      obtain ⟨t, ht, rfl⟩ := Option.map_eq_some_iff.mp hs
      cases hc : c.completion.cancel with
      | false =>
        obtain ⟨hkept, hmove⟩ := h.takeOp hout hn hc ht
        exact ⟨hkept, .inr hmove⟩
      | true =>
        obtain ⟨hkept, hmove⟩ := h.takeCancel hout hn hc hno ht
        exact ⟨hkept, .inr hmove⟩
    · cases hs
  | leave =>
    obtain ⟨t, ht, rfl⟩ := Option.map_eq_some_iff.mp hs
    exact ⟨h.leave ht, .inr ⟨.leave, ht⟩⟩
  | kernel k =>
    obtain ⟨ring, hk, rfl⟩ := Option.map_eq_some_iff.mp hs
    exact ⟨h.worked (Ring.kernel_worked hk), .inl rfl⟩

end

/-- What `take_completion` finds: the slot of the cancel in range, or a live op's, under the class its
handle carries. -/
def Finds (t : Thread L) (c : Completion) (id : ℕ) : Prop :=
  if c.cancel then c.slot < t.rt.cancelSlab.length
  else (∃ slot, t.rt.ioSlab[c.slot]? = some slot ∧ isFree slot.id = false ∧ Coio.idBits slot.id = id) ∧
    ∃ op, (t.generation, op) ∈ t.handles ∧ op.slot = c.slot ∧ op.cls = c.cls ∧ op.id.val = id

section

variable {j : Joint L} {entries : ℕ}

theorem simulates_thread : Base.Simulates (Joint.step (L := L)) (fun j move => j.strikes move = false)
    Thread.step (fun _ _ => True) Joint.Holds Joint.thread where
  keeps _ _ _ h hno hs := (h.step hno hs).1
  moves _ _ _ h hno hs := (h.step hno hs).2.imp_right fun ⟨m, hm⟩ => ⟨m, trivial, hm⟩

theorem Joint.Holds.finds (h : j.Holds) {c : Cqe} {ring : Ring} (hn : j.ring.next = some (c, ring)) :
    Finds j.thread c.completion c.id := by
  have hpopped := h.popped hn
  unfold Finds
  split_ifs at hpopped ⊢ with hc
  · exact h.thread.slabs.asked _ _ _ hpopped.1
  · obtain ⟨harmed, -, hhanded⟩ := hpopped
    obtain ⟨o, ho, hid⟩ := h.thread.sane.armed _ _ harmed
    obtain ⟨slot, hs, hlive⟩ := slot_of_view ho
    exact ⟨⟨slot, hs, hlive, (Coio.live_slot hs ho).symm.trans hid⟩, hhanded⟩

/-- As long as no late failure of a cancel strikes another, the ring keeps the contract the runtime rests
on: it is a run of the thread, every completion popped is that of a live op under the class it was armed
with or names a cancel slot, and between callbacks the accepted cancellations are settled. -/
theorem run_ring_serves (h : Reaches Joint.step (fun j move => j.strikes move = false) (.start entries) j) :
    Reaches Thread.step (fun _ _ => True) .start j.thread ∧
    (∀ c ring, j.ring.next = some (c, ring) → Finds j.thread c.completion c.id) ∧
    (j.thread.control = .outside → j.thread.rt.CancelsSettle) := by
  have hj := simulates_thread.invariant (.start entries) h
  refine ⟨simulates_thread.reaches (.start entries) h, fun c ring hn => hj.finds hn, ?_⟩
  intro hout
  have hsettles := hj.thread.settles
  rw [hout] at hsettles
  exact Coio.Abides.cancelsSettle hsettles

/-- The kernel looks a cancel's target up by its `user_data`, and that is the op the cancel was asked
for: no later op in the slot is hit, and an op that is not found has been decided, and not as
cancelled. -/
theorem run_cancel_aims (h : Reaches Joint.step (fun j move => j.strikes move = false) (.start entries) j)
    {ud td id t : ℕ} {rest : List Sqe} (hq : j.ring.submitted = .asyncCancel ud td id t :: rest) :
    (j.ring.flight.find? fun f => f.userData == td) = (j.ring.flight.find? fun f => f.id == t) ∧
    ((∀ f ∈ j.ring.flight, f.userData ≠ td) → (t, false) ∈ j.ring.told ∧ (t, true) ∉ j.ring.told) := by
  have hserves := (simulates_thread.invariant (.start entries) h).serves
  have hqueue : j.ring.queue = .asyncCancel ud td id t :: (rest ++ j.ring.sq) := by
    rw [Ring.queue, hq]
    rfl
  have hmem : .asyncCancel ud td id t ∈ j.ring.queue := hqueue ▸ List.mem_cons_self
  obtain ⟨-, hnames, hlt, -⟩ := hserves.requests.aimed ud td id t hmem
  have hsame : ∀ f ∈ j.ring.flight, (f.userData = td ↔ f.id = t) := by
    intro f hf
    constructor
    · rintro rfl
      exact hserves.requests.aims hqueue hf
    · rintro rfl
      exact (hserves.requests.working f hf).unique hserves.handles hnames
  constructor
  · apply List.find?_congr
    intro f hf
    rw [Bool.eq_iff_iff, beq_iff_eq, beq_iff_eq]
    exact hsame f hf
  · intro hnone
    have hnot : (t, true) ∉ j.ring.told := fun hm => hserves.marked.won t hm ud td id hmem
    refine ⟨?_, hnot⟩
    rcases hserves.decides.settled ud td id t hmem with ⟨ud', hqueued⟩ | ⟨f, hf, hft⟩ | ⟨b, hb⟩
    · -- its target went in before it, and it is the next one the kernel takes
      have horder := hserves.requests.order
      rw [hqueue] at hqueued
      rw [hqueue, List.pairwise_cons] at horder
      rcases List.mem_cons.mp hqueued with heq | hlater
      · cases heq
      · exact absurd (horder.1 _ hlater) (Nat.lt_asymm hlt)
    · exact absurd ((hsame f hf).mpr hft) (hnone f hf)
    · cases b with
      | false => exact hb
      | true => exact absurd hb hnot

theorem Joint.Holds.hasInflight_eq (hj : j.Holds) (hout : j.thread.control = .outside) :
    j.thread.rt.hasInflight = !j.ring.ops.isEmpty := by
  have hserves := hj.serves
  rw [hout] at hserves
  rw [Bool.eq_iff_iff, hasInflight_iff hj.thread.inflight, Bool.not_eq_true',
    List.isEmpty_eq_false_iff_exists_mem]
  constructor
  · intro hlive
    have hop : ∃ i o, j.thread.rt.view.op i = some o := by
      rcases hlive with hop | ⟨i, k, hk⟩
      · exact hop
      · obtain ⟨o, ho, -⟩ := hj.thread.protocol.marks.target i k hk
        exact ⟨_, o, ho⟩
    obtain ⟨i, o, ho⟩ := hop
    have harmed := hserves.marked.armed i o ho (by simp [Control.busy])
    exact ⟨_, hserves.requests.ops.mem_iff.mpr harmed⟩
  · rintro ⟨⟨i, id⟩, hm⟩
    obtain ⟨o, ho, -⟩ := hj.thread.sane.armed i id (hserves.requests.ops.mem_iff.mp hm)
    exact .inl ⟨i, o, ho⟩

/-- Outside callbacks the runtime waits exactly while the kernel has an op of its, or its completion. -/
theorem run_ring_waits_iff
    (h : Reaches Joint.step (fun j move => j.strikes move = false) (.start entries) j)
    (hout : j.thread.control = .outside) : j.thread.rt.hasInflight = !j.ring.ops.isEmpty :=
  (simulates_thread.invariant (.start entries) h).hasInflight_eq hout

private theorem reaches_kernel {ks : List Kernel} {r : Ring}
    (h : Reaches Joint.step (fun j move => j.strikes move = false) (.start entries) j)
    (hr : run Ring.kernel j.ring ks = some r) :
    Reaches Joint.step (fun j move => j.strikes move = false) (.start entries) ⟨j.thread, r⟩ := by
  induction ks generalizing j with
  | nil =>
    obtain rfl := Option.some.inj hr
    exact h
  | cons k ks ih =>
    obtain ⟨u, hk, hrest⟩ := Option.bind_eq_some_iff.mp hr
    have hstep : j.step (.kernel k) = some ⟨j.thread, u⟩ := by
      simp only [Joint.step, hk, Option.map_some]
    exact ih (j := ⟨j.thread, u⟩) (h.next rfl hstep) hrest

/-- The loop never sleeps for good. Whatever the kernel does once the queue is flushed, it has at most
`weight` moves, and when it has none left a completion waits to be popped. -/
theorem run_ring_wakes (h : Reaches Joint.step (fun j move => j.strikes move = false) (.start entries) j)
    (hout : j.thread.control = .outside) (hwaits : j.thread.rt.hasInflight = true) {n : ℕ}
    (hn : j.ring.sq.length ≤ n) {ks : List Kernel} {r : Ring}
    (hr : run Ring.kernel (j.ring.submit n) ks = some r) :
    ks.length ≤ (j.ring.submit n).weight ∧ ((∀ k, r.kernel k = none) → r.cq ≠ [] ∧
      ∀ e ∈ r.ops, ∃ c ∈ r.cq, c.op? = some e) := by
  obtain ⟨hsq, hle⟩ : r.sq = (j.ring.submit n).sq ∧ ks.length + r.weight ≤ (j.ring.submit n).weight :=
    run_rank (P := fun r => r.sq = (j.ring.submit n).sq)
      (fun _ _ _ hsq hk => ⟨(Ring.kernel_weight hk).2.trans hsq, (Ring.kernel_weight hk).1⟩) rfl hr
  refine ⟨by omega, fun hstuck => ?_⟩
  have hflushed : Reaches Joint.step (fun j move => j.strikes move = false) (.start entries)
      ⟨j.thread, j.ring.submit n⟩ := h.next (e := .submit n) rfl rfl
  have hreach := reaches_kernel hflushed hr
  have hops := (simulates_thread.invariant (.start entries) hreach).hasInflight_eq hout
  obtain ⟨hsubmitted, hflight, hdue⟩ := Ring.kernel_stuck hstuck
  have hempty : r.sq = [] := hsq.trans (List.drop_eq_nil_of_le hn)
  have hposted : r.ops = r.cq.filterMap Cqe.op? := by
    simp only [Ring.ops, Ring.queue, Ring.done, hsubmitted, hflight, hdue, hempty, List.append_nil,
      List.filterMap_nil, List.map_nil, List.nil_append]
  constructor
  · intro hnone
    simp only [hwaits, hposted, hnone, List.filterMap_nil, List.isEmpty_nil, Bool.not_true,
      Bool.true_eq_false] at hops
  · intro e he
    rw [hposted] at he
    exact List.mem_filterMap.mp he

end

/-- A read is cancelled before the kernel has begun it, and its own completion is posted first; another
op goes on. -/
def cancelledOp : List (Joint.Move Unit) :=
  [.register 1 0 () 0 [], .register 2 0 () 3 [], .cancel ⟨0, 0, Coio.idAfter 0⟩ () 7, .wait (.ok 3),
    .kernel (.take true), .kernel (.take true), .kernel (.take true),
    .kernel (.post ⟨0, -125, 0, 1, 0⟩), .kernel (.post ⟨cancelUserData 0, 0, 0, 3, 1⟩),
    .next fun l _ => l, .leave, .leave]

theorem cancelledOp_ends : ∃ j : Joint Unit, run Joint.step (.start 8) cancelledOp = some j ∧
    j.thread.control = .outside ∧ j.ring.ops = [(1, 2)] ∧ j.ring.sq = [] ∧
    j.thread.rt.hasInflight = true ∧
    Reaches Joint.step (fun j move => j.strikes move = false) (.start 8) j := by
  obtain ⟨s, j, hs, hmeets, hrun, htest⟩ := run_of_executes Joint.step
    (fun (j : Joint Unit) move => j.strikes move = false) (some (.start 8)) cancelledOp
    (fun _ j => j.thread.control.isOutside && (j.ring.ops == [(1, 2)] && (j.ring.sq == [] &&
      j.thread.rt.hasInflight))) (by decide +kernel)
  obtain rfl := Option.some.inj hs
  obtain ⟨hout, hrest⟩ := Bool.and_eq_true_iff.mp htest
  obtain ⟨hops, hrest⟩ := Bool.and_eq_true_iff.mp hrest
  obtain ⟨hsq, hwaits⟩ := Bool.and_eq_true_iff.mp hrest
  exact ⟨j, hrun, Coio.Control.eq_outside hout, beq_iff_eq.mp hops, beq_iff_eq.mp hsq, hwaits,
    reaches_of_run hmeets hrun⟩

theorem run_ring_serves_cancelled : ∃ j, run Joint.step (.start 8) cancelledOp = some j ∧
    Reaches Thread.step (fun _ _ => True) .start j.thread ∧ j.thread.rt.CancelsSettle := by
  obtain ⟨j, hj, hout, -, -, -, hreach⟩ := cancelledOp_ends
  obtain ⟨hthread, -, hsettles⟩ := run_ring_serves hreach
  exact ⟨j, hj, hthread, hsettles hout⟩

theorem run_ring_waits_iff_cancelled : ∃ j, run Joint.step (.start 8) cancelledOp = some j ∧
    j.ring.ops = [(1, 2)] ∧ j.thread.rt.hasInflight = !j.ring.ops.isEmpty := by
  obtain ⟨j, hj, hout, hops, -, -, hreach⟩ := cancelledOp_ends
  exact ⟨j, hj, hops, run_ring_waits_iff hreach hout⟩

theorem run_ring_wakes_cancelled : ∃ j, run Joint.step (.start 8) cancelledOp = some j ∧
    ∃ r, run Ring.kernel (j.ring.submit 0) [.finish ⟨3 <<< 32 ||| 1, 2, false⟩ 9 0,
      .post ⟨3 <<< 32 ||| 1, 9, 0, 2, 0⟩] = some r ∧ 2 ≤ (j.ring.submit 0).weight := by
  have hrun : ((run Joint.step (.start 8) cancelledOp).bind fun j => run Ring.kernel (j.ring.submit 0)
      [.finish ⟨3 <<< 32 ||| 1, 2, false⟩ 9 0, .post ⟨3 <<< 32 ||| 1, 9, 0, 2, 0⟩]).isSome = true := by
    decide +kernel
  obtain ⟨j, hj, hout, -, hsq, hwaits, hreach⟩ := cancelledOp_ends
  rw [hj] at hrun
  obtain ⟨r, hr⟩ := Option.isSome_iff_exists.mp hrun
  have hflushed : j.ring.sq.length ≤ 0 := by
    rw [hsq]
    rfl
  exact ⟨j, hj, r, hr, (run_ring_wakes hreach hout hwaits hflushed hr).1⟩

/-- Op 1 completes while its cancel is queued, and op 3 takes its slot and with it its `user_data`. -/
def reusedSlot : List (Joint.Move Unit) :=
  [.register 1 0 () 0 [], .wait (.ok 1), .kernel (.take true), .cancel ⟨0, 0, Coio.idAfter 0⟩ () 7,
    .kernel (.finish ⟨0, 1, false⟩ 5 0), .kernel (.post ⟨0, 5, 0, 1, 0⟩), .next fun l _ => l,
    .register 1 0 () 0 [], .leave, .wait (.ok 2)]

theorem run_cancel_aims_reused : ∃ j : Joint Unit, run Joint.step (.start 8) reusedSlot = some j ∧
    j.ring.submitted = [.asyncCancel (cancelUserData 0) 0 2 1, .op 0 3] ∧
    (1, false) ∈ j.ring.told ∧ (1, true) ∉ j.ring.told := by
  obtain ⟨s, j, hs, hmeets, hrun, htest⟩ := run_of_executes Joint.step
    (fun (j : Joint Unit) move => j.strikes move = false) (some (.start 8)) reusedSlot
    (fun _ j => j.ring.submitted == [.asyncCancel (cancelUserData 0) 0 2 1, .op 0 3] &&
      j.ring.flight.isEmpty) (by decide +kernel)
  obtain rfl := Option.some.inj hs
  obtain ⟨hq, hidle⟩ := Bool.and_eq_true_iff.mp htest
  have hsubmitted := beq_iff_eq.mp hq
  refine ⟨j, hrun, hsubmitted, (run_cancel_aims (reaches_of_run hmeets hrun) hsubmitted).2 ?_⟩
  rw [List.isEmpty_iff.mp hidle]
  simp

/-- As above, but op 3 is cancelled too, through the same cancel slot, before the failure of the first
cancel is popped. -/
example : ((run Joint.step (.start 8) (reusedSlot.take 8 ++
    [.cancel ⟨0, 0, Coio.idAfter 2⟩ () 7, .leave, .wait (.ok 3), .kernel (.take true),
      .kernel (.post ⟨cancelUserData 0, -2, 0, 2, 1⟩)])).any fun j =>
    j.strikes (.next fun l _ => l)) = true := by decide +kernel

end Conrt.Uring
