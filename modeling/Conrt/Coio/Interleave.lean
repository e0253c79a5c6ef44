import Conrt.Coio.CancelProtocol
import Conrt.Coio.Drive
import Conrt.Coio.Thread

/-! The cancel protocol between any two turns of user code, and what a completion changes besides its
own slot. -/
namespace Conrt.Coio

open Conrt.Base

variable {L : Type}

/-- Nothing has changed but the slot `i`, the cancels of it, and the callbacks entered. -/
structure Touches (i : ℕ) (v v' : View L) : Prop where
  op : ∀ k, k ≠ i → v'.op k = v.op k
  cancel : ∀ k, v'.cancel k = v.cancel k ∨ (v'.cancel k = none ∧ ∃ c, v.cancel k = some c ∧ c.target = i)
  backend : v'.backend = v.backend
  nextOpId : v'.nextOpId = v.nextOpId
  calls : ∀ k t done a, .cancelCall k t done a ∈ v'.log ↔ .cancelCall k t done a ∈ v.log
  completed : ∀ id b, .completed id b ∈ v'.log ↔ .completed id b ∈ v.log

namespace Touches

variable {i j : ℕ} {v v' v'' : View L} {c : LiveCancel L}

theorem refl (i : ℕ) (v : View L) : Touches i v v :=
  ⟨fun _ _ => rfl, fun _ => .inl rfl, rfl, rfl, fun _ _ _ _ => .rfl, fun _ _ => .rfl⟩

theorem trans (h : Touches i v v') (h' : Touches i v' v'') : Touches i v v'' := by
  constructor
  case op =>
    intro k hk
    exact (h'.op k hk).trans (h.op k hk)
  case cancel =>
    intro k
    rcases h'.cancel k with heq | ⟨hnone, c, hc, ht⟩
    · rw [heq]
      exact h.cancel k
    · rcases h.cancel k with heq | ⟨hgone, -⟩
      · exact .inr ⟨hnone, c, heq ▸ hc, ht⟩
      · rw [hgone] at hc
        cases hc
  case backend => exact h'.backend.trans h.backend
  case nextOpId => exact h'.nextOpId.trans h.nextOpId
  case calls =>
    intro k t done a
    exact (h'.calls k t done a).trans (h.calls k t done a)
  case completed =>
    intro id b
    exact (h'.completed id b).trans (h.completed id b)

theorem setOp (h : Touches i v v') (o : Option (LiveOp L)) : Touches i v (v'.setOp i o) := by
  refine h.trans ⟨fun k hk => ?_, fun _ => .inl rfl, rfl, rfl, fun _ _ _ _ => .rfl, fun _ _ => .rfl⟩
  rw [View.setOp_op, if_neg hk]

theorem arena (h : Touches i v v') (arena : BufArena) : Touches i v { v' with arena := arena } :=
  h.trans ⟨fun _ _ => rfl, fun _ => .inl rfl, rfl, rfl, fun _ _ _ _ => .rfl, fun _ _ => .rfl⟩

theorem push (h : Touches i v v') {entry : Entry L} (hcall : ∀ k t done a, entry ≠ .cancelCall k t done a)
    (hdone : ∀ id b, entry ≠ .completed id b) : Touches i v (v'.push entry) := by
  refine h.trans ⟨fun _ _ => rfl, fun _ => .inl rfl, rfl, rfl, fun k t done a => ?_, fun id b => ?_⟩
  · rw [mem_push, or_iff_left (hcall k t done a).symm]
  · rw [mem_push, or_iff_left (hdone id b).symm]

theorem freeCancel (h : Touches i v v') (hc : v'.cancel j = some c) (ht : c.target = i) :
    Touches i v (v'.setCancel j none) := by
  refine h.trans ⟨fun _ _ => rfl, fun k => ?_, rfl, rfl, fun _ _ _ _ => .rfl, fun _ _ => .rfl⟩
  rw [View.setCancel_cancel]
  split_ifs with hk
  · exact .inr ⟨rfl, c, hk ▸ hc, ht⟩
  · exact .inl rfl

end Touches

/-- The op in slot `i` completes: its request is off the books and what the completion says is on
them, its slot keeps the op while a cancel callback runs, and no cancel of it is left. -/
structure Received (i : ℕ) (o : LiveOp L) (cancelled : Bool) (v v' : View L) : Prop where
  op : ∀ k, k ≠ i → v'.op k = v.op k
  slot : if o.pending && cancelled then ∃ o', v'.op i = some o' ∧ o'.id = o.id ∧ o'.pending = true
    else v'.op i = none
  cancel : ∀ k, v'.cancel k = v.cancel k ∨ (v'.cancel k = none ∧ ∃ c, v.cancel k = some c ∧ c.target = i)
  clear : ∀ k c, v'.cancel k = some c → c.target ≠ i
  backend : v'.backend = ⟨v.backend.armed.erase (i, o.id), v.backend.cancels,
    (o.id, cancelled) :: v.backend.verdicts⟩
  nextOpId : v'.nextOpId = v.nextOpId
  calls : ∀ k t done a, .cancelCall k t done a ∈ v'.log ↔ .cancelCall k t done a ∈ v.log
  completed : ∀ id b, .completed id b ∈ v'.log →
    .completed id b ∈ v.log ∨ (id = o.id ∧ b = cancelled)

/-- The slot whose completion is being settled while user code runs. -/
def Control.busy : Control L → Option ℕ
  | .done index .. => some index
  | _ => none

def Control.isOutside : Control L → Bool
  | .outside => true
  | _ => false

/-- What the return of a callback changes: after a cancel's the op leaves its slot, after an op's the
arena is put back. -/
def Control.Leaves (v v' : View L) : Control L → Prop
  | .done index .. => Touches index v v' ∧ v'.op index = none
  | _ => ∃ arena, v' = { v with arena := arena }

/-- While user code is in control the protocol holds; in a cancel's callback its own cancel is spent and
the op's callback comes next. -/
def Control.Settles (v : View L) : Control L → Prop
  | .done index completion b loc => Settled index b.id true loc v ∧
      (b.pending && completion.cancelled) = true ∧ ∃ o, v.Busy index o
  | _ => Abides v

/-- What is kept between two turns of user code; only the local of the op being settled is out of its
slot. -/
structure Control.Holds (control : Control L) (rt : Runtime L) : Prop where
  settles : control.Settles rt.view
  slabs : Slabs False [] control.busy.toList [] [] rt

def Runtime.nextOpSlot (rt : Runtime L) : ℕ :=
  if rt.freeSlotsHead ≠ freeNone then rt.freeSlotsHead else toU32 rt.ioSlab.length

def Runtime.nextCancelSlot (rt : Runtime L) : ℕ :=
  if rt.freeCancelsHead ≠ freeNone then rt.freeCancelsHead else toU32 rt.cancelSlab.length

section

variable {rt : Runtime L} {i : ℕ} {o : LiveOp L} {control : Control L} {completion : CompletedOp}
  {left : L → L → L} {b : Begun L} {loc : L}

theorem Control.eq_outside (h : control.isOutside = true) : control = .outside := by
  cases control with
  | outside => rfl
  | done _ _ _ _ => cases h
  | shim _ _ => cases h

theorem Control.Holds.protocol (h : control.Holds rt) : Protocol control.busy rt.view := by
  have hsettles := h.settles
  cases control with
  | outside => exact Abides.protocol hsettles
  | shim _ _ => exact Abides.protocol hsettles
  | done _ _ _ _ => exact hsettles.1.protocol

theorem Control.Holds.sane (h : control.Holds rt) : rt.view.Sane := h.protocol.sane

/-- Both slabs count what is in use. -/
theorem Control.Holds.inflight (h : control.Holds rt) :
    rt.inflightOps = rt.liveOps ∧ rt.inflightCancels = rt.liveCancels :=
  ⟨h.slabs.liveOps_eq, h.slabs.liveCancels_eq⟩

theorem invoke_ends {out : List ℕ} (h : Slabs False [] out [] [] rt) (call : Call L) :
    Ends (· = rt) call.invoke (fun _ rt' => Slabs False [] out [] [] rt') fun _ => True := by
  cases call with
  | register shim done loc cls bufs accepted =>
    exact registerOp_ends h shim done loc cls False.elim accepted fun _ _ _ _ _ => trivial
  | cancel op loc done accepted =>
    refine (cancel_ends h op loc done accepted fun _ _ _ _ _ => trivial).bind_eq fun _ rt₁ h₁ =>
      Ends.pure ?_
    rintro _ rfl
    exact h₁

theorem invoke_effect (call : Call L) :
    Triple (· = rt) call.invoke (fun _ rt' => call.Effect rt.view rt'.view) fun _ => True := by
  have harena : ArenaSafe (fun _ => True) rt.view.arena := fun _ =>
    ⟨fun _ _ => trivial, fun _ _ _ _ _ => trivial⟩
  cases call with
  | register shim done loc cls bufs accepted =>
    exact registerOp_spec (fun _ _ => trivial) (harena bufs).1 (harena bufs).2
  | cancel op loc done accepted =>
    refine (cancel_spec (fun _ _ => trivial) op loc done accepted).bind_eq fun _ rt₁ h => Triple.pure ?_
    rintro _ rfl
    exact h

/-- Whoever is in control keeps all of it in every call. -/
theorem Control.Holds.call {rt' : Runtime L} {call : Call L} {op : Option Op} (h : control.Holds rt)
    (hc : call.invoke rt = .ok op rt') : control.Holds rt' ∧ call.Effect rt.view rt'.view := by
  have heffect : call.Effect rt.view rt'.view := (invoke_effect call).ok rfl hc
  refine ⟨⟨?_, (invoke_ends h.slabs call).ok rfl hc⟩, heffect⟩
  have hsettles := h.settles
  cases control with
  | outside => exact Abides.effect hsettles heffect
  | shim _ _ => exact Abides.effect hsettles heffect
  | done _ _ _ _ =>
    obtain ⟨hsettled, hwon, o, hbusy⟩ := hsettles
    exact ⟨hsettled.effect hbusy heffect, hwon, o, hbusy.effect heffect⟩

private theorem allocOpSlot_slot : Triple (· = rt) (allocOpSlot : M L ℕ) (fun i _ => i = rt.nextOpSlot)
    fun _ => True := by
  unfold allocOpSlot
  refine Triple.get_bind (incr_bind trivial (Triple.modify_bind ?_))
  refine Triple.ite (fun hhead => ?_) fun hhead => ?_
  · refine ioSlot_bind trivial fun slot _ => Triple.ofExcept_bind (fun next _ => ?_) fun _ _ => trivial
    refine Triple.modify_bind (Triple.pure ?_)
    rintro _ rfl
    rw [Runtime.nextOpSlot, if_pos hhead]
  · refine Triple.modify_bind (Triple.pure ?_)
    rintro _ rfl
    rw [Runtime.nextOpSlot, if_neg hhead]

private theorem allocCancelSlot_slot : Triple (· = rt) (allocCancelSlot : M L ℕ)
    (fun i _ => i = rt.nextCancelSlot) fun _ => True := by
  unfold allocCancelSlot
  refine Triple.get_bind (incr_bind trivial (Triple.modify_bind ?_))
  refine Triple.ite (fun hhead => ?_) fun hhead => ?_
  · refine cancelSlot_bind trivial fun slot _ =>
      Triple.ofExcept_bind (fun next _ => ?_) fun _ _ => trivial
    refine Triple.modify_bind (Triple.pure ?_)
    rintro _ rfl
    rw [Runtime.nextCancelSlot, if_pos hhead]
  · refine Triple.modify_bind (Triple.pure ?_)
    rintro _ rfl
    rw [Runtime.nextCancelSlot, if_neg hhead]

/-- An accepted registration arms the slot handed out, under the id its handle carries. -/
theorem registerOp_asks {shim done cls : ℕ} {loc : L} {bufs : List IoBufErased} {accepted : Bool} :
    Triple (· = rt) (registerOp shim done loc cls bufs accepted) (fun op rt' =>
      op = (if accepted then some ⟨rt.nextOpSlot, cls, rt.nextOpId⟩ else none) ∧
      (accepted = true → (rt.nextOpSlot, rt.nextOpId.val) ∈ rt'.backend.armed)) fun _ => True := by
  unfold registerOp
  refine ((allocOpSlot_spec fun _ _ => trivial).and allocOpSlot_slot).bind_eq fun i rt₁ h₁ => ?_
  obtain ⟨hv₁, rfl⟩ := h₁
  refine (nextOpId_spec fun _ _ => trivial).bind_eq fun id rt₂ h₂ => ?_
  obtain ⟨rfl, -, -⟩ := h₂
  have hnext : rt₁.nextOpId = rt.nextOpId := Subtype.ext (congrArg View.nextOpId hv₁)
  rw [hnext]
  refine (Triple.any _).bind fun _ => (Triple.any _).bind fun carved => (Triple.any _).bind fun _ =>
    (Triple.any _).bind fun _ => ?_
  cases accepted with
  | true =>
    refine Triple.of_eq fun rt₃ _ => Triple.modify_bind ((record_spec _).bind_eq fun _ rt₄ h₄ =>
      Triple.pure ?_)
    rintro rt₅ rfl
    refine ⟨rfl, fun _ => ?_⟩
    rw [show rt₅.backend = _ from congrArg View.backend h₄]
    exact List.mem_cons_self
  | false =>
    refine (Triple.any _).bind fun _ => (Triple.any _).bind fun _ => (Triple.any _).bind fun _ =>
      (Triple.any _).bind fun _ => Triple.pure ?_
    rintro _ _
    exact ⟨rfl, by simp⟩

/-- An accepted cancellation is asked for in the cancel slot handed out. -/
theorem cancel_asks {op : Op} {loc : L} {done : ℕ} (hc : rt.cancellable op = true) :
    Triple (· = rt) (Coio.cancel op loc done true) (fun _ rt' =>
      (rt.nextCancelSlot, rt.nextOpId.val, op.id.val) ∈ rt'.backend.cancels) fun _ => True := by
  unfold Coio.cancel submitCancel
  refine Triple.get_bind (Triple.modify_bind (Triple.ite (fun _ => ?_) fun hno => (hno hc).elim))
  simp only [bind_assoc]
  refine ((allocCancelSlot_spec fun _ _ => trivial).and allocCancelSlot_slot).bind_eq
    fun j rt₁ h₁ => ?_
  obtain ⟨hv₁, rfl⟩ := h₁
  refine (nextOpId_spec fun _ _ => trivial).bind_eq fun id rt₂ h₂ => ?_
  obtain ⟨rfl, -, -⟩ := h₂
  have hnext : rt₁.nextOpId.val = rt.nextOpId.val := congrArg View.nextOpId hv₁
  refine (Triple.any _).bind fun slot => (Triple.any _).bind fun slot' => (Triple.any _).bind fun _ => ?_
  refine Triple.of_eq fun rt₃ _ => ?_
  simp only [if_true, bind_assoc, pure_bind]
  refine Triple.modify_bind ((record_spec _).bind_eq fun _ rt₄ h₄ => ?_)
  refine ioSlot_bind trivial fun slot _ => Triple.update ?_
  rintro rt₅ rfl
  change _ ∈ rt₅.backend.cancels
  rw [show rt₅.backend = _ from congrArg View.backend h₄, ← hnext]
  exact List.mem_cons_self

private theorem beginOp_view (ho : rt.view.op i = some o) (c : Bool) :
    Triple (· = rt) (beginOp i c) (fun begun rt' => ∃ b, begun = some b ∧ b.id = o.id ∧
      b.pending = o.pending ∧ o.loc = some b.loc ∧
      rt'.view = (rt.view.setOp i (some { o with loc := none, run := none })).push (.completed o.id c))
      fun _ => True := by
  obtain ⟨slot, hs, hslot⟩ := Option.bind_eq_some_iff.mp ho
  unfold IoSlot.view at hslot
  split_ifs at hslot with hf
  obtain rfl := Option.some.inj hslot
  unfold beginOp
  refine Triple.get_bind ?_
  simp only [hs, hf, Bool.false_eq_true, if_false]
  cases hbody : slot.body with
  | free _ => exact Triple.throw fun _ _ => trivial
  | live shim done =>
    refine (takeBufRun_spec (fun _ _ => trivial) ho).bind_eq fun run rt₁ h₁ => ?_
    obtain ⟨-, hv₁⟩ := h₁
    have ho₁ : rt₁.view.op i = some ⟨idBits slot.id, isCancelPending slot.id, slot.body, slot.loc,
        none⟩ := by
      rw [hv₁]
      exact Function.update_self ..
    refine (takeLocal_spec (fun _ _ => trivial) ho₁).bind_eq fun loc rt₂ h₂ => ?_
    obtain ⟨hloc, hv₂⟩ := h₂
    refine (record_spec _).bind_eq fun _ rt₃ hv₃ => Triple.pure ?_
    rintro _ rfl
    rw [hv₂, hv₁, View.setOp_setOp, hbody] at hv₃
    exact ⟨_, rfl, rfl, rfl, hloc, hv₃⟩

/-- An op whose completion has come, with what it says on the books. -/
theorem Abides.opened {v : View L} (h : Abides v) (ho : v.op i = some o) {c : Bool} {l : L}
    (hu : ∀ id, (i, id) ∉ v.backend.armed) (hb : (o.id, c) ∈ v.backend.verdicts)
    (hl : o.loc = some l) : Opened i { o with loc := none, run := none } c l
      ((v.setOp i (some { o with loc := none, run := none })).push (.completed o.id c)) := by
  obtain ⟨shim, done, bufs, hreg⟩ := h.protocol.facts.locals i o l ho hl
  constructor
  case protocol => exact h.protocol.complete ho hb
  case live => rw [View.push_op, View.setOp_op, if_pos rfl]
  case unarmed => exact hu
  case said => exact mem_push.mpr (.inr rfl)
  case marked =>
    intro hp
    exact h.protocol.marks.marked i o ho hp (by simp)
  case loc => exact ⟨shim, done, bufs, mem_push.mpr (.inl hreg)⟩
  case paired => exact h.paired.append trivial

/-- The cancel's callback is entered with its own cancel spent. -/
theorem dispatchCancelOf_entered {l : L} (h : Opened i o true l rt.view) (hp : o.pending = true) :
    Triple (· = rt) (dispatchCancelOf i l ⟨left, [], []⟩) (fun l' rt' =>
      Settled i o.id true l' rt'.view ∧ rt'.view.Busy i o ∧ Touches i rt.view rt'.view)
      fun _ => True := by
  apply (dispatchCancelOf_rule (fun _ _ => trivial) h.live l (I := fun l' v =>
    Settled i o.id true l' v ∧ v.Busy i o ∧ Touches i rt.view v) ?_ ?_).post
  · rintro l' rt' (⟨-, -, hno⟩ | h')
    · obtain ⟨j, c, hj, ht, hid⟩ := h.marked hp
      exact absurd ⟨ht, hid⟩ (hno j c hj)
    · exact h'
  · intro j c cloc done hj ht hid hbody hcloc
    obtain ⟨shim, done', bufs, hreg⟩ := h.loc
    have hcalled := h.protocol.close hj ht hcloc
      (.inl ⟨done, l, left l cloc.2, rfl, hbody, hid ▸ h.said, shim, done', bufs, hid ▸ hreg⟩)
    rw [hid] at hcalled
    obtain ⟨hproto, hclear⟩ := hcalled
    refine ⟨⟨hproto, h.unarmed, hclear, ?_⟩, ⟨h.live, h.unarmed, hp⟩, ?_⟩
    · rw [if_pos rfl]
      exact Awaits.start h.paired cloc.1 done l
    · exact ((Touches.refl i rt.view).freeCancel hj ht).push (fun _ _ _ _ => by simp) fun _ _ => by simp
  · intro l' call hcall
    cases hcall

/-- A cancellation that lost, or that there never was. -/
theorem settleCancel_lost_settles {c : Bool} {l : L} {r : Reaction L} (h : Opened i o c l rt.view)
    (hlost : (o.pending && c) = false) :
    Triple (· = rt) (settleCancel i o.pending false l r) (fun l' rt' =>
      Settled i o.id false l' rt'.view ∧ Touches i rt.view rt'.view) fun _ => True := by
  have hsettles := settleCancel_settles (r := r) h
  rw [hlost] at hsettles
  apply hsettles.and
  unfold settleCancel
  refine Triple.ite (fun _ => ?_) fun _ => Triple.pure ?_
  · simp only [Bool.false_eq_true, if_false]
    have h0 : o.id ≠ 0 := Nat.pos_iff_ne_zero.mp (h.protocol.sane.ids i o h.live).1
    have hdropped : Triple (· = rt) (dropCancelOf i : M L Unit) (fun _ rt' =>
        rt'.view.op i = some o ∧ Touches i rt.view rt'.view) fun _ => True := by
      apply (dropCancelOf_spec (fun _ _ => trivial) h.live).post
      rintro _ rt' (⟨rfl, -⟩ | ⟨j, k, cloc, hj, ht, -, -, hv⟩)
      · exact ⟨h.live, .refl i _⟩
      · rw [hv]
        exact ⟨h.live, ((Touches.refl i rt.view).freeCancel hj ht).push (fun _ _ _ _ => by simp)
          fun _ _ => by simp⟩
    refine hdropped.bind_eq fun _ rt₁ h₁ => ?_
    refine (clearPending_spec (fun _ _ => trivial) h₁.1 h0).bind_eq fun _ rt₂ h₂ => Triple.pure ?_
    rintro _ rfl
    rw [h₂]
    exact h₁.2.setOp _
  · rintro _ rfl
    exact .refl i _

/-- The op's callback is entered with its slot free. -/
theorem enterShim_abides (h : Settled i b.id (b.pending && completion.cancelled) loc rt.view) :
    Triple (· = rt) (enterShim i completion b loc) (fun control rt' =>
      (∃ saved, control = .shim saved b.run) ∧ Abides rt'.view ∧ Touches i rt.view rt'.view ∧
        rt'.view.op i = none) fun _ => True := by
  unfold enterShim runShim
  refine (freeOpSlotTaken_spec (fun _ _ => trivial) i).bind_eq fun _ rt₁ h₁ => Triple.get_bind ?_
  have hfree : Protocol none rt₁.view := h₁ ▸ h.protocol.free h.clear h.unarmed
  rw [bind_assoc]
  refine Triple.get_bind ?_
  simp only [bind_assoc]
  refine Triple.modify_bind (Triple.ofOption_bind (fun bufs _ => ?_) fun _ => trivial)
  refine (record_spec _).bind_eq fun _ rt₂ h₂ => Triple.pure ?_
  rintro _ rfl
  refine ⟨⟨_, rfl⟩, ⟨?_, ?_⟩, ?_, ?_⟩
  · rw [h₂]
    exact (hfree.arena .new).shim b.id b.shim _
  · have hlog : rt₁.view.log = rt.view.log := by rw [h₁]; rfl
    have hnext := h.next
    rw [← hlog] at hnext
    rw [h₂]
    by_cases hwon : (b.pending && completion.cancelled) = true
    · rw [if_pos hwon] at hnext
      rw [if_pos hwon]
      exact Awaits.answer hnext rfl
    · rw [if_neg hwon] at hnext
      exact hnext.append trivial
  · rw [h₂]
    have hfreed : Touches i rt.view rt₁.view := by
      rw [h₁]
      exact (Touches.refl i rt.view).setOp none
    exact (hfreed.arena .new).push (fun _ _ _ _ => by simp) fun _ _ => by simp
  · rw [h₂]
    change rt₁.view.op i = none
    rw [h₁, View.setOp_op, if_pos rfl]

theorem enterShim_slabs (h : Slabs False [] [i] [] [] rt) :
    Triple (· = rt) (enterShim i completion b loc)
      (fun control rt' => Slabs False [] control.busy.toList [] [] rt') fun _ => True := by
  have hends : Ends (· = rt) (enterShim i completion b loc)
      (fun control rt' => Slabs False [] control.busy.toList [] [] rt') fun _ => True := by
    unfold enterShim
    refine (freeOpSlotTaken_ends h).bind_eq fun _ rt₁ h₁ => Ends.get_bind ?_
    refine (runShim_ends (I := fun _ => True) h₁ b.id b.shim _ b.done loc completion.cls
      False.elim (fun _ _ => trivial) (fun _ _ _ _ _ _ => trivial) (fun _ => trivial)
      fun _ _ _ _ _ _ _ _ => trivial).bind_eq fun _ rt₂ h₂ => Ends.pure ?_
    rintro _ rfl
    exact h₂.1
  exact hends.triple

/-- A completion leads into a callback, and so much is done by then. -/
theorem deliver_settles {id : ℕ} (h : Abides rt.view) (ho : rt.view.op i = some o) (hid : o.id = id)
    (hagree : ∀ b, (id, b) ∈ rt.view.backend.verdicts → b = completion.cancelled) :
    Triple (· = rt) (deliver i id completion left) (fun control rt' => control.Settles rt'.view ∧
      control.busy = (if o.pending && completion.cancelled then some i else none) ∧
      Received i o completion.cancelled rt.view rt'.view) fun _ => True := by
  subst hid
  unfold deliver
  refine Triple.modify_bind (Triple.of_eq fun rt₀ h₀ => assertNamesLive_bind (fun _ _ => trivial) ?_)
  have hv₀ : rt₀.view = { rt.view with backend :=
      ⟨rt.view.backend.armed.erase (i, o.id), rt.view.backend.cancels,
        (o.id, completion.cancelled) :: rt.view.backend.verdicts⟩ } := by rw [h₀]; rfl
  have habides : Abides rt₀.view := hv₀ ▸ ⟨h.protocol.settle i o.id hagree, h.paired⟩
  have ho₀ : rt₀.view.op i = some o := hv₀ ▸ ho
  have hun₀ : ∀ id', (i, id') ∉ rt₀.view.backend.armed := hv₀ ▸ h.protocol.sane.unarmed ho
  have hsaid : (o.id, completion.cancelled) ∈ rt₀.view.backend.verdicts := hv₀ ▸ List.mem_cons_self
  refine (beginOp_view ho₀ completion.cancelled).bind_eq fun begun rt₁ h₁ => ?_
  obtain ⟨b, rfl, hbid, hpending, hloc, hv₁⟩ := h₁
  have hopened := habides.opened ho₀ hun₀ hsaid hloc
  rw [← hv₁] at hopened
  -- what is left of the slot and of the cancels of it is all that later steps change
  have hreceived : ∀ v', Touches i rt₁.view v' → (∀ k c, v'.cancel k = some c → c.target ≠ i) →
      (if o.pending && completion.cancelled then ∃ o', v'.op i = some o' ∧ o'.id = o.id ∧
        o'.pending = true else v'.op i = none) → Received i o completion.cancelled rt.view v' := by
    intro v' ht hclear hslot
    constructor
    case op =>
      intro k hk
      rw [ht.op k hk, hv₁, View.push_op, View.setOp_op, if_neg hk, hv₀]
    case slot => exact hslot
    case cancel =>
      intro k
      have hc := ht.cancel k
      rw [hv₁, hv₀] at hc
      exact hc
    case clear => exact hclear
    case backend => rw [ht.backend, hv₁, hv₀]; rfl
    case nextOpId => rw [ht.nextOpId, hv₁, hv₀]; rfl
    case calls =>
      intro k t done a
      rw [ht.calls, hv₁, mem_push, or_iff_left (by simp), hv₀]
      rfl
    case completed =>
      intro id' c hm
      rw [ht.completed, hv₁, mem_push] at hm
      rcases hm with hm | heq
      · exact .inl (by rw [hv₀] at hm; exact hm)
      · exact .inr (Entry.completed.inj heq)
  refine Triple.ite (fun hwon => ?_) fun hlost => ?_
  · obtain ⟨hbp, hcancelled⟩ := Bool.and_eq_true_iff.mp hwon
    rw [hpending] at hbp
    rw [hcancelled] at hopened
    refine (dispatchCancelOf_entered hopened hbp).bind_eq fun loc rt₂ h₂ => Triple.pure ?_
    rintro _ rfl
    obtain ⟨hsettled, hbusy, htouches⟩ := h₂
    rw [if_pos (by rw [hbp, hcancelled]; rfl)]
    refine ⟨⟨by rw [hbid]; exact hsettled, hwon, _, hbusy⟩, rfl, hreceived _ htouches hsettled.clear ?_⟩
    rw [if_pos (by rw [hbp, hcancelled]; rfl)]
    exact ⟨_, hbusy.live, rfl, hbp⟩
  · have hlost : (o.pending && completion.cancelled) = false := by
      rw [← hpending]
      exact Bool.eq_false_of_not_eq_true hlost
    rw [hpending]
    refine (settleCancel_lost_settles hopened hlost).bind_eq fun loc rt₂ h₂ => ?_
    obtain ⟨hsettled, htouches⟩ := h₂
    have hentered : Settled i b.id (b.pending && completion.cancelled) loc rt₂.view := by
      rw [hbid, hpending, hlost]
      exact hsettled
    apply (enterShim_abides hentered).post
    rintro control rt₃ ⟨⟨saved, rfl⟩, habides₃, htouches₃, hnone⟩
    have hboth := htouches.trans htouches₃
    rw [if_neg (by rw [hlost]; exact Bool.false_ne_true)]
    refine ⟨habides₃, rfl, hreceived _ hboth ?_ (by rw [hlost]; exact hnone)⟩
    intro k c hc
    rcases htouches₃.cancel k with heq | ⟨hgone, -⟩
    · exact hsettled.clear k c (heq ▸ hc)
    · rw [hgone] at hc
      cases hc

theorem deliver_slabs {id : ℕ} (h : Slabs False [] [] [] [] rt) :
    Triple (· = rt) (deliver i id completion left)
      (fun control rt' => Slabs False [] control.busy.toList [] [] rt') fun _ => True := by
  unfold deliver
  refine Triple.modify_bind (Triple.of_eq fun rt₀ h₀ => assertNamesLive_bind (fun _ _ => trivial) ?_)
  have hbooks : Slabs False [] [] [] [] rt₀ := h₀ ▸ ⟨h.ops, h.cancels, h.asked⟩
  refine (beginOp_ends (F := fun _ => True) hbooks _).triple.bind_eq fun begun rt₁ h₁ => ?_
  cases begun with
  | none =>
    apply Triple.pure
    rintro _ rfl
    exact h₁
  | some b =>
    obtain ⟨-, h₁⟩ := h₁
    refine Triple.ite (fun _ => ?_) fun _ => ?_
    · refine (dispatchCancelOf_ends (I := fun _ => True) (F := fun _ => True) h₁ b.loc False.elim
        (fun _ _ _ _ _ _ => trivial) (fun _ _ _ _ _ _ => trivial)
        fun _ _ _ _ _ _ _ _ => trivial).triple.bind_eq fun loc rt₂ h₂ => Triple.pure ?_
      rintro _ rfl
      exact h₂
    · refine (settleCancel_ends (I := fun _ => True) (F := fun _ => True) h₁ List.mem_cons_self _ _ _
        False.elim (fun _ _ _ _ _ _ => trivial) (fun _ _ _ _ _ _ => trivial)
        fun _ _ _ _ _ _ _ _ => trivial).triple.bind_eq fun loc rt₂ h₂ => ?_
      exact enterShim_slabs h₂

/-- A callback returns: that of a cancel into its op's own, an op's to the loop. -/
theorem leave_settles (h : control.Settles rt.view) :
    Triple (· = rt) (leave control) (fun control' rt' => control'.Settles rt'.view ∧
      control'.busy = none ∧ control.Leaves rt.view rt'.view) fun _ => True := by
  cases control with
  | outside => exact Triple.throw fun _ _ => trivial
  | done index completion b loc =>
    obtain ⟨hsettled, hwon, o, hbusy⟩ := h
    have h0 : o.id ≠ 0 := Nat.pos_iff_ne_zero.mp (hsettled.protocol.sane.ids index o hbusy.live).1
    have hcleared : Triple (· = rt) (clearPending index) (fun _ rt' =>
        Settled index b.id true loc rt'.view ∧ Touches index rt.view rt'.view) fun _ => True := by
      apply (settled_unmark hsettled hbusy.live).and
      apply (clearPending_spec (fun _ _ => trivial) hbusy.live h0).post
      intro _ rt' hv
      rw [hv]
      exact (Touches.refl index rt.view).setOp _
    refine hcleared.bind_eq fun _ rt₁ h₁ => ?_
    rw [← hwon] at h₁
    apply (enterShim_abides h₁.1).post
    rintro control' rt₂ ⟨⟨saved, rfl⟩, habides, htouches, hnone⟩
    exact ⟨habides, rfl, h₁.2.trans htouches, hnone⟩
  | shim saved run =>
    have habides : Abides rt.view := h
    refine Triple.modify_bind ((releaseRun_spec fun _ _ => trivial).bind_eq fun _ rt₁ h₁ =>
      Triple.pure ?_)
    rintro _ rfl
    obtain ⟨arena, -, hv⟩ := h₁
    refine ⟨?_, rfl, arena, hv⟩
    change Abides _
    rw [hv]
    exact ⟨habides.protocol.arena arena, habides.paired⟩

theorem leave_slabs (h : Slabs False [] control.busy.toList [] [] rt) :
    Triple (· = rt) (leave control)
      (fun control' rt' => Slabs False [] control'.busy.toList [] [] rt') fun _ => True := by
  cases control with
  | outside => exact Triple.throw fun _ _ => trivial
  | done index completion b loc =>
    exact (clearPending_ends (F := fun _ => True) h List.mem_cons_self).triple.bind_eq
      fun _ rt₁ h₁ => enterShim_slabs h₁
  | shim saved run =>
    refine Triple.modify_bind (Triple.of_eq fun rt₀ h₀ => ?_)
    have hback : Slabs False [] [] [] [] rt₀ := h₀ ▸ ⟨h.ops, h.cancels, h.asked⟩
    refine (releaseRun_ends (F := fun _ => True) hback fun _ _ => trivial).triple.bind_eq
      fun _ rt₁ h₁ => Triple.pure ?_
    rintro _ rfl
    exact h₁.1

variable {rt' : Runtime L} {control' : Control L}

theorem Control.Holds.start : Control.outside.Holds (Runtime.new : Runtime L) := ⟨Abides.start, .new⟩

theorem Control.Holds.deliver {id : ℕ} (h : Control.outside.Holds rt) (ho : rt.view.op i = some o)
    (hid : o.id = id) (hagree : ∀ b, (id, b) ∈ rt.view.backend.verdicts → b = completion.cancelled)
    (hd : Coio.deliver i id completion left rt = .ok control rt') :
    control.Holds rt' ∧ control.busy = (if o.pending && completion.cancelled then some i else none) ∧
      Received i o completion.cancelled rt.view rt'.view := by
  obtain ⟨hsettles, hbusy, hreceived⟩ := (deliver_settles h.settles ho hid hagree).ok rfl hd
  exact ⟨⟨hsettles, (deliver_slabs h.slabs).ok rfl hd⟩, hbusy, hreceived⟩

theorem Control.Holds.leave (h : control.Holds rt) (hl : Coio.leave control rt = .ok control' rt') :
    control'.Holds rt' ∧ control'.busy = none ∧ control.Leaves rt.view rt'.view := by
  obtain ⟨hsettles, hrest⟩ := (leave_settles h.settles).ok rfl hl
  exact ⟨⟨hsettles, (leave_slabs h.slabs).ok rfl hl⟩, hrest⟩

/-- A cancel's own completion, that of the cancel its slot holds or of one that is settled. -/
theorem Control.Holds.cancelled {j id t : ℕ} {result : ℤ} (h : Control.outside.Holds rt)
    (ha : rt.backend.allows (.cancel j id t result : Event L) = true)
    (hn : rt.strikesOther (.cancel j id t result) = false)
    (hx : (Event.cancel j id t result).exec rt = .ok () rt') : Control.outside.Holds rt' := by
  refine ⟨(exec_abides h.settles ha hn).ok rfl hx, ?_⟩
  obtain ⟨_, rt₀, hbooks, hx⟩ := bind_eq_ok.mp hx
  obtain ⟨_, rt₁, hslot, hx⟩ := bind_eq_ok.mp hx
  have hslabs : Slabs False [] [] [] [] rt₀ := by
    cases hbooks
    exact ⟨h.slabs.ops, h.slabs.cancels, fun k id' t' hk =>
      h.slabs.asked k id' t' (List.mem_of_mem_erase hk)⟩
  have hsame : rt₁ = rt₀ := by
    obtain ⟨_, _, hget, hslot⟩ := bind_eq_ok.mp hslot
    cases hget
    cases hs : rt₀.cancelSlab[j]? with
    | none =>
      rw [hs] at hslot
      cases hslot
    | some slot =>
      rw [hs] at hslot
      cases hslot
      rfl
  rw [hsame] at hx
  exact (completeCancel_ends (F := fun _ => True) hslabs result).ok rfl hx

/-- The books once the completion of a cancel has come. -/
def View.answered (v : View L) (j id t : ℕ) (won : Bool) : View L :=
  { v with backend := ⟨v.backend.armed, v.backend.cancels.erase (j, id, t), (t, won) :: v.backend.verdicts⟩ }

/-- What the completion of a cancel changes: the books, and where the cancel failed and is still in its
slot, the slot and the mark of its target. -/
theorem cancel_view {j id t : ℕ} {result : ℤ} : Triple (· = rt) (Event.cancel j id t result).exec
    (fun _ rt' => ((rt.view.cancel j = none ∨ result = 0) ∧
        rt'.view = rt.view.answered j id t (decide (result = 0))) ∨
      ∃ c loc v, rt.view.cancel j = some c ∧ result ≠ 0 ∧
        v = ((rt.view.answered j id t (decide (result = 0))).setCancel j none).push (.cancelDropped loc) ∧
        ((∃ o, rt.view.op c.target = some o ∧ o.pending = true ∧ o.id = c.targetId ∧
            rt'.view = v.setOp c.target (some { o with pending := false })) ∨
          ((∀ o, rt.view.op c.target = some o → o.pending = true → o.id ≠ c.targetId) ∧
            rt'.view = v))) fun _ => True := by
  unfold Event.exec
  refine Triple.modify_bind (cancelSlot_bind trivial fun _ _ => Triple.of_eq fun rt₀ h₀ => ?_)
  have hview : rt₀.view = rt.view.answered j id t (decide (result = 0)) := by
    rw [h₀]
    rfl
  apply (completeCancel_spec fun _ _ => trivial).post
  rintro _ rt₁ hspec
  rw [hview] at hspec
  rcases hspec with h | ⟨c, loc, v, hc, hr, -, hv, hrest⟩
  · exact .inl h
  · exact .inr ⟨c, loc.1, v, hc, hr, hv, hrest⟩

variable {busy : Option ℕ}

/-- The slot being settled holds a marked op, so no op that may be cancelled is in it. -/
theorem busy_ne (h : control.Settles rt.view) (ho : rt.view.op i = some o) (hp : o.pending = false) :
    control.busy ≠ some i := by
  cases control with
  | outside => simp [Control.busy]
  | shim saved run => simp [Control.busy]
  | done index completion b loc =>
    rintro heq
    obtain ⟨-, -, p, hbusy⟩ := h
    obtain rfl := Option.some.inj heq
    have hlive := hbusy.live
    rw [ho] at hlive
    obtain rfl := Option.some.inj hlive
    have hpending := hbusy.pending
    rw [hp] at hpending
    cases hpending

theorem call_ok {t t' : Thread L} {call : Call L} (h : t.step (.call call) = some t') :
    ∃ op, call.invoke t.rt = .ok op t'.rt ∧ t'.control = t.control ∧ t'.generation = t.generation ∧
      t'.handles = t.handles ++ op.toList.map (t.generation, ·) := by
  cases hc : call.invoke t.rt with
  | error e rt =>
    simp only [Thread.step, Thread.stepUnder, hc] at h
    cases h
  | ok op rt =>
    simp only [Thread.step, Thread.stepUnder, hc] at h
    obtain rfl := Option.some.inj h
    exact ⟨op, rfl, rfl, rfl, rfl⟩

/-- The slot handed out to a new op was free. -/
theorem nextOpSlot_eq (hs : rt.view.Sane) {shim done : ℕ} {loc : L} {bufs : List IoBufErased}
    {run : Option (ℕ × ℕ)} {arena : BufArena}
    (hv : rt'.view = rt.view.register i shim done loc bufs run arena)
    (hasked : (rt.nextOpSlot, rt.nextOpId.val) ∈ rt'.backend.armed) : rt.nextOpSlot = i := by
  have harmed : rt'.backend.armed = (i, rt.nextOpId.val) :: rt.backend.armed :=
    congrArg (·.backend.armed) hv
  rw [harmed] at hasked
  rcases List.mem_cons.mp hasked with heq | hold
  · exact (Prod.mk.inj heq).1
  · obtain ⟨o, ho, hid⟩ := hs.armed _ _ hold
    exact absurd (hid ▸ (hs.ids _ o ho).2) (lt_irrefl _)

/-- So was the cancel slot. -/
theorem nextCancelSlot_eq (hm : Marks busy rt.view) {k done : ℕ} {op : Op} {loc : L}
    (hv : rt'.view = rt.view.acceptCancel k op done loc o)
    (hasked : (rt.nextCancelSlot, rt.nextOpId.val, op.id.val) ∈ rt'.backend.cancels) :
    rt.nextCancelSlot = k := by
  have hcancels : rt'.backend.cancels = (k, rt.nextOpId.val, op.id.val) :: rt.backend.cancels :=
    congrArg (·.backend.cancels) hv
  rw [hcancels] at hasked
  rcases List.mem_cons.mp hasked with heq | hold
  · exact (Prod.mk.inj heq).1
  · exact absurd (hm.requests _ _ _ hold).1 (lt_irrefl _)

/-- A live slot of the slab, as the view has it. -/
theorem live_slot {slot : IoSlot L} (hs : rt.ioSlab[i]? = some slot) (ho : rt.view.op i = some o) :
    o.id = idBits slot.id := by
  rw [view_op hs, IoSlot.view] at ho
  split_ifs at ho
  exact congrArg LiveOp.id (Option.some.inj ho).symm

theorem slot_of_view (ho : rt.view.op i = some o) :
    ∃ slot, rt.ioSlab[i]? = some slot ∧ isFree slot.id = false := by
  obtain ⟨slot, hs, hview⟩ := Option.bind_eq_some_iff.mp ho
  unfold IoSlot.view at hview
  split_ifs at hview with hf
  exact ⟨slot, hs, Bool.eq_false_of_not_eq_true hf⟩

/-- What is counted is what is live. -/
theorem hasInflight_iff (h : rt.inflightOps = rt.liveOps ∧ rt.inflightCancels = rt.liveCancels) :
    rt.hasInflight = true ↔
      (∃ i o, rt.view.op i = some o) ∨ ∃ i c, rt.view.cancel i = some c := by
  unfold Runtime.hasInflight
  rw [Bool.or_eq_true, bne_iff_ne, bne_iff_ne, h.1, h.2, ← Nat.pos_iff_ne_zero,
    ← Nat.pos_iff_ne_zero]
  apply or_congr
  · rw [Runtime.liveOps, List.countP_pos_iff]
    constructor
    · rintro ⟨slot, hm, hlive⟩
      obtain ⟨i, hi⟩ := List.getElem?_of_mem hm
      refine ⟨i, ?_⟩
      rw [view_op hi, IoSlot.view, if_neg (by simpa using hlive)]
      exact ⟨_, rfl⟩
    · rintro ⟨i, o, ho⟩
      obtain ⟨slot, hs, hlive⟩ := slot_of_view ho
      exact ⟨slot, List.mem_of_getElem? hs, by simp [hlive]⟩
  · rw [Runtime.liveCancels, List.countP_pos_iff]
    constructor
    · rintro ⟨slot, hm, hlive⟩
      obtain ⟨i, hi⟩ := List.getElem?_of_mem hm
      refine ⟨i, ?_⟩
      rw [view_cancel hi, CancelSlot.view, if_neg (by simpa using hlive)]
      exact ⟨_, rfl⟩
    · rintro ⟨i, c, hc⟩
      obtain ⟨slot, hs, hview⟩ := Option.bind_eq_some_iff.mp hc
      unfold CancelSlot.view at hview
      split_ifs at hview with hf
      exact ⟨slot, List.mem_of_getElem? hs, by simpa using hf⟩

end

end Conrt.Coio
