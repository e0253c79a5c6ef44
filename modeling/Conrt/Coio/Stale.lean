import Conrt.Coio.Sane
import Conrt.Coio.Thread

/-! Handles whose op is gone: no op in a slot has their id, so cancelling through them does nothing. -/
namespace Conrt.Coio

open Conrt.Base

variable {L : Type}

/-- Live ops are of this runtime, whose ids begin at `first`, and only the one in slot `spared` may
have completed. The counter has passed `known`. -/
structure View.Retired (v : View L) (first known : ℕ) (spared : Option ℕ) : Prop where
  sane : v.Sane
  first_le : first ≤ known
  known_le : known ≤ v.nextOpId
  floor : ∀ i o, v.op i = some o → first ≤ o.id
  ended : ∀ i o c, v.op i = some o → .completed o.id c ∈ v.log → spared = some i
  past : ∀ id c, .completed id c ∈ v.log → id < v.nextOpId

def Entry.isCompleted : Entry L → Bool
  | .completed .. => true
  | _ => false

theorem completed_push {v : View L} {entry : Entry L} (h : entry.isCompleted = false) {id : ℕ}
    {c : Bool} : .completed id c ∈ (v.push entry).log ↔ .completed id c ∈ v.log := by
  rw [mem_push]
  constructor
  · intro hm
    refine hm.resolve_right ?_
    rintro rfl
    cases h
  · exact .inl

namespace View.Retired

variable {v v' : View L} {first known i : ℕ} {spared : Option ℕ} {o : LiveOp L}

/-- A fresh op takes a fresh id; of the others only the ids are read. -/
theorem congr (h : v.Retired first known spared) (hs : v'.Sane) (hnext : v.nextOpId ≤ v'.nextOpId)
    (hop : ∀ i o', v'.op i = some o' → v.nextOpId ≤ o'.id ∨ ∃ o, v.op i = some o ∧ o.id = o'.id)
    (hlog : ∀ id c, .completed id c ∈ v'.log → .completed id c ∈ v.log) :
    v'.Retired first known spared := by
  constructor
  case sane => exact hs
  case first_le => exact h.first_le
  case known_le => exact h.known_le.trans hnext
  case floor =>
    intro i o' ho'
    rcases hop i o' ho' with hfresh | ⟨o, ho, hid⟩
    · exact (h.first_le.trans h.known_le).trans hfresh
    · exact hid ▸ h.floor i o ho
  case ended =>
    intro i o' c ho' hm
    have hm := hlog _ _ hm
    rcases hop i o' ho' with hfresh | ⟨o, ho, hid⟩
    · exact absurd (h.past _ _ hm) (Nat.not_lt.mpr hfresh)
    · exact h.ended i o c ho (hid ▸ hm)
  case past =>
    intro id c hm
    exact (h.past id c (hlog id c hm)).trans_le hnext

theorem push (h : v.Retired first known spared) {entry : Entry L} (he : entry.isCompleted = false)
    (hr : entry.isRegistered = false) : (v.push entry).Retired first known spared :=
  h.congr (h.sane.push hr) le_rfl (fun _ o ho => .inr ⟨o, ho, rfl⟩) fun _ _ => (completed_push he).mp

theorem setOp (h : v.Retired first known spared) (ho : v.op i = some o) {o' : LiveOp L}
    (hid : o'.id = o.id) : (v.setOp i (some o')).Retired first known spared := by
  refine h.congr (h.sane.setOp ho hid) le_rfl ?_ fun _ _ hm => hm
  intro j p hp
  rw [View.setOp_op] at hp
  split_ifs at hp with hj
  · exact .inr ⟨o, hj ▸ ho, Option.some.inj hp ▸ hid.symm⟩
  · exact .inr ⟨p, hp, rfl⟩

theorem effect (h : v.Retired first known spared) {call : Call L} (he : call.Effect v v') :
    v'.Retired first known spared := by
  have hop : ∀ i o', v'.op i = some o' → v.nextOpId ≤ o'.id ∨ ∃ o, v.op i = some o ∧ o.id = o'.id :=
    fun i o' ho' => (he.grows.origin i o' ho').imp_left And.left
  refine h.congr (h.sane.effect he) he.grows.next hop fun id c hm => ?_
  cases call with
  | register shim done loc cls bufs accepted =>
    obtain ⟨run, arena, -, -, ⟨-, i, -, rfl⟩ | ⟨-, arena', -, rfl⟩⟩ := he
    · exact (completed_push rfl).mp hm
    · exact (completed_push rfl).mp hm
  | cancel op loc done accepted =>
    rcases he with ⟨-, rfl⟩ | ⟨-, rfl⟩ | ⟨-, j, o, -, -, -, -, -, rfl⟩
    · exact (completed_push rfl).mp ((completed_push rfl).mp hm)
    · exact (completed_push rfl).mp ((completed_push rfl).mp hm)
    · exact (completed_push rfl).mp hm

/-- An op's completion is logged while its slot still holds it. -/
theorem complete (h : v.Retired first known none) (ho : v.op i = some o) {o' : LiveOp L}
    (hid : o'.id = o.id) (c : Bool) :
    ((v.setOp i (some o')).push (.completed o.id c)).Retired first known (some i) := by
  have hset := h.setOp ho hid
  constructor
  case sane => exact hset.sane.push rfl
  case first_le => exact h.first_le
  case known_le => exact h.known_le
  case floor => exact hset.floor
  case ended =>
    intro j p c' hp hm
    rcases mem_push.mp hm with hm | hm
    · cases hset.ended j p c' hp hm
    · have hpid : p.id = o'.id := by
        rw [hid]
        exact (Entry.completed.inj hm).1
      have hi : (v.setOp i (some o')).op i = some o' := Function.update_self ..
      rw [hset.sane.inj j i p o' hp hi hpid]
  case past =>
    intro id c' hm
    rcases mem_push.mp hm with hm | hm
    · exact h.past id c' hm
    · rw [(Entry.completed.inj hm).1]
      exact (h.sane.ids i o ho).2

/-- Freeing the slot of the completed op leaves no completed one. -/
theorem free (h : v.Retired first known (some i)) (hun : ∀ id, (i, id) ∉ v.backend.armed) :
    (v.setOp i none).Retired first known none := by
  have hop : ∀ j p, (v.setOp i none).op j = some p → j ≠ i ∧ v.op j = some p := by
    intro j p hp
    rw [View.setOp_op] at hp
    split_ifs at hp with hj
    exact ⟨hj, hp⟩
  constructor
  case sane => exact h.sane.freeOp hun
  case first_le => exact h.first_le
  case known_le => exact h.known_le
  case floor =>
    intro j p hp
    exact h.floor j p (hop j p hp).2
  case ended =>
    intro j p c hp hm
    obtain ⟨hj, hp⟩ := hop j p hp
    exact absurd (Option.some.inj (h.ended j p c hp hm)).symm hj
  case past => exact h.past

end View.Retired

section

variable {rt : Runtime L} {first known i : ℕ} {spared : Option ℕ} {o : LiveOp L}

/-- Nothing is excluded: these triples speak of the steps that return. -/
theorem stale_safe (arena : BufArena) : ArenaSafe (fun _ => True) arena :=
  fun _ => ⟨fun _ _ => trivial, fun _ _ _ _ _ => trivial⟩

/-- A registered op carries the id the counter stood at. -/
theorem registerOp_handle {shim done cls : ℕ} {loc : L} {bufs : List IoBufErased} {accepted : Bool} :
    Triple (· = rt) (registerOp shim done loc cls bufs accepted)
      (fun op _ => ∀ handle, op = some handle → handle.id.val = rt.view.nextOpId) fun _ => True := by
  unfold registerOp
  refine (allocOpSlot_spec fun _ _ => trivial).bind_eq fun i rt₁ h₁ => ?_
  refine (nextOpId_spec fun _ _ => trivial).bind_eq fun id rt₂ h₂ => ?_
  obtain ⟨rfl, -, -⟩ := h₂
  have hnext : rt₁.nextOpId.val = rt.view.nextOpId := congrArg View.nextOpId h₁
  refine (Triple.any _).bind fun _ => (Triple.any _).bind fun carved => (Triple.any _).bind fun _ => ?_
  refine (Triple.any _).bind fun _ => Triple.ite (fun _ => ?_) fun _ => ?_
  · refine (Triple.any _).bind fun _ => (Triple.any _).bind fun _ => Triple.pure ?_
    rintro _ _ _ ⟨⟩
    exact hnext
  · refine (Triple.any _).bind fun _ => (Triple.any _).bind fun _ => (Triple.any _).bind fun _ =>
      (Triple.any _).bind fun _ => Triple.pure ?_
    rintro _ _ _ ⟨⟩

/-- A call has its effect, and the handle it returns is below the counter. -/
theorem invoke_spec (call : Call L) :
    Triple (· = rt) call.invoke (fun op rt' => call.Effect rt.view rt'.view ∧
      ∀ handle, op = some handle → handle.id.val < rt'.view.nextOpId) fun _ => True := by
  cases call with
  | register shim done loc cls bufs accepted =>
    change Triple (· = rt) (registerOp shim done loc cls bufs accepted) _ _
    apply ((registerOp_spec (fun _ _ => trivial) (stale_safe rt.view.arena bufs).1
      (stale_safe rt.view.arena bufs).2).and registerOp_handle).post
    intro op rt' ⟨heffect, hop⟩
    refine ⟨heffect, ?_⟩
    intro handle hhandle
    rw [hop handle hhandle]
    obtain ⟨_, _, _, _, ⟨_, _, _, hv⟩ | ⟨_, _, _, hv⟩⟩ := heffect
    · rw [hv]
      exact Nat.lt_succ_self _
    · rw [hv]
      exact Nat.lt_succ_self _
  | cancel op loc done accepted =>
    refine (cancel_spec (fun _ _ => trivial) op loc done accepted).bind_eq fun _ rt₁ h => Triple.pure ?_
    rintro _ rfl
    exact ⟨h, by simp⟩

theorem enterShim_spec {completion : CompletedOp} {b : Begun L} {loc : L}
    (h : rt.view.Retired first known (some i)) (hun : ∀ id, (i, id) ∉ rt.view.backend.armed) :
    Triple (· = rt) (enterShim i completion b loc) (fun control rt' =>
      rt'.view.Retired first known none ∧ ∃ saved run, control = .shim saved run) fun _ => True := by
  unfold enterShim runShim
  refine (freeOpSlotTaken_spec (fun _ _ => trivial) i).bind_eq fun _ rt₁ h₁ => Triple.get_bind ?_
  have hfree : rt₁.view.Retired first known none := h₁ ▸ h.free hun
  rw [bind_assoc]
  refine Triple.get_bind ?_
  simp only [bind_assoc]
  refine Triple.modify_bind (Triple.ofOption_bind (fun bufs _ => ?_) fun _ => trivial)
  refine (record_spec _).bind_eq fun _ rt₂ h₂ => Triple.pure ?_
  rintro _ rfl
  refine ⟨?_, _, _, rfl⟩
  rw [h₂]
  have hmoved : View.Retired { rt₁.view with arena := .new } first known none :=
    hfree.congr (hfree.sane.congr (fun _ o ho => ⟨o, ho, rfl⟩) rfl hfree.sane.armed le_rfl
      fun _ _ _ _ _ hm => hm) le_rfl (fun _ o ho => .inr ⟨o, ho, rfl⟩) fun _ _ hm => hm
  exact hmoved.push rfl rfl

/-- The op's completion has been logged; its slot still holds it. -/
theorem beginOp_spec {c : Bool} (h : rt.view.Retired first known none) (ho : rt.view.op i = some o)
    (hun : ∀ id, (i, id) ∉ rt.view.backend.armed) :
    Triple (· = rt) (beginOp i c) (fun begun rt' => ∃ b, begun = some b ∧ b.pending = o.pending ∧
      rt'.view.Retired first known (some i) ∧ (∀ id, (i, id) ∉ rt'.view.backend.armed) ∧
      ∃ o', rt'.view.op i = some o' ∧ o'.pending = o.pending) fun _ => True := by
  obtain ⟨slot, hs, hslot⟩ := Option.bind_eq_some_iff.mp ho
  unfold IoSlot.view at hslot
  split_ifs at hslot with hf
  obtain rfl := Option.some.inj hslot
  unfold beginOp
  refine Triple.get_bind ?_
  simp only [hs, hf, Bool.false_eq_true, if_false]
  cases hbody : slot.body with
  | free _ => exact Triple.throw fun _ _ => trivial
  | live shim done =>
    refine (takeBufRun_spec (fun _ _ => trivial) ho).bind_eq fun run rt₁ h₁ => ?_
    obtain ⟨-, hv₁⟩ := h₁
    have ho₁ : rt₁.view.op i = some ⟨idBits slot.id, isCancelPending slot.id, slot.body, slot.loc,
        none⟩ := by
      rw [hv₁]
      exact Function.update_self ..
    refine (takeLocal_spec (fun _ _ => trivial) ho₁).bind_eq fun loc rt₂ h₂ => ?_
    obtain ⟨-, hv₂⟩ := h₂
    refine (record_spec _).bind_eq fun _ rt₃ hv₃ => Triple.pure ?_
    rintro _ rfl
    rw [hv₂, hv₁, View.setOp_setOp] at hv₃
    refine ⟨_, rfl, rfl, ?_, ?_, ?_⟩
    · rw [hv₃]
      exact h.complete ho (Eq.refl (idBits slot.id)) c
    · rw [hv₃]
      exact hun
    · rw [hv₃]
      exact ⟨_, Function.update_self .., rfl⟩

/-- A cancellation that lost, or that there never was, is settled without a callback. -/
theorem settleCancel_retired {pending : Bool} {loc : L} {r : Reaction L}
    (h : rt.view.Retired first known (some i)) (hun : ∀ id, (i, id) ∉ rt.view.backend.armed)
    (ho : rt.view.op i = some o) :
    Triple (· = rt) (settleCancel i pending false loc r) (fun _ rt' =>
      rt'.view.Retired first known (some i) ∧ ∀ id, (i, id) ∉ rt'.view.backend.armed) fun _ => True := by
  have h0 : o.id ≠ 0 := Nat.pos_iff_ne_zero.mp (h.sane.ids i o ho).1
  unfold settleCancel
  refine Triple.ite (fun _ => ?_) fun _ => Triple.pure ?_
  · simp only [Bool.false_eq_true, if_false]
    have hdropped : Triple (· = rt) (dropCancelOf i : M L Unit) (fun _ rt' =>
        rt'.view.Retired first known (some i) ∧ (∀ id, (i, id) ∉ rt'.view.backend.armed) ∧
          rt'.view.op i = some o) fun _ => True := by
      apply (dropCancelOf_spec (fun _ _ => trivial) ho).post
      rintro _ rt' (⟨rfl, -⟩ | ⟨j, c, cl, -, -, -, -, hv⟩)
      · exact ⟨h, hun, ho⟩
      · rw [hv]
        have hfreed : (rt.view.setCancel j none).Retired first known (some i) :=
          h.congr (h.sane.congr (fun _ o ho => ⟨o, ho, rfl⟩) rfl h.sane.armed le_rfl
            fun _ _ _ _ _ hm => hm) le_rfl (fun _ o ho => .inr ⟨o, ho, rfl⟩) fun _ _ hm => hm
        exact ⟨hfreed.push rfl rfl, hun, ho⟩
    refine hdropped.bind_eq fun _ rt₁ h₁ => ?_
    obtain ⟨hr, hun₁, ho₁⟩ := h₁
    refine (clearPending_spec (fun _ _ => trivial) ho₁ h0).bind_eq fun _ rt₂ h₂ => Triple.pure ?_
    rintro _ rfl
    rw [h₂]
    exact ⟨hr.setOp ho₁ rfl, hun₁⟩
  · rintro _ rfl
    exact ⟨h, hun⟩

end

def Control.Keeps (first known : ℕ) (v : View L) : Control L → Prop
  | .done index _ _ _ => v.Retired first known (some index) ∧ ∃ o, v.Busy index o
  | _ => v.Retired first known none

structure Thread.Sound (t : Thread L) : Prop where
  control : t.control.Keeps t.first t.rt.view.nextOpId t.rt.view
  issued : ∀ handle ∈ t.handles, handle.2.id.val < t.rt.view.nextOpId
  past : ∀ handle ∈ t.handles, handle.1 < t.generation → handle.2.id.val < t.first

section

variable {t t' : Thread L} {first known : ℕ} {v : View L} {control : Control L}

theorem View.Retired.raise {spared : Option ℕ} (h : v.Retired first known spared) :
    v.Retired first v.nextOpId spared where
  sane := h.sane
  first_le := h.first_le.trans h.known_le
  known_le := le_rfl
  floor := h.floor
  ended := h.ended
  past := h.past

theorem Control.Keeps.raise (h : control.Keeps first known v) :
    known ≤ v.nextOpId ∧ control.Keeps first v.nextOpId v := by
  cases control with
  | outside => exact ⟨View.Retired.known_le h, View.Retired.raise h⟩
  | shim _ _ => exact ⟨View.Retired.known_le h, View.Retired.raise h⟩
  | done _ _ _ _ => exact ⟨h.1.known_le, h.1.raise, h.2⟩

/-- An op completion leads into a callback or back outside. -/
theorem deliver_keeps {rt : Runtime L} {slot id : ℕ} {completion : CompletedOp} {left : L → L → L}
    (h : rt.view.Retired first known none) (ha : (slot, id) ∈ rt.backend.armed) :
    Triple (· = rt) (deliver slot id completion left)
      (fun control rt' => control.Keeps first known rt'.view) fun _ => True := by
  unfold deliver
  obtain ⟨o, ho, hid⟩ := h.sane.armed slot id ha
  refine Triple.modify_bind (Triple.of_eq fun rt₀ h₀ => assertNamesLive_bind (fun _ _ => trivial) ?_)
  have ho₀ : rt₀.view.op slot = some o := by
    rw [h₀]
    exact ho
  have hun₀ : ∀ id', (slot, id') ∉ rt₀.view.backend.armed := by
    rw [h₀]
    exact fun id' => hid ▸ h.sane.unarmed ho id'
  have hr₀ : rt₀.view.Retired first known none := by
    rw [h₀]
    exact h.congr (h.sane.settle slot id ((id, completion.cancelled) :: rt.backend.verdicts)) le_rfl
      (fun _ o ho => .inr ⟨o, ho, rfl⟩) fun _ _ hm => hm
  refine (beginOp_spec hr₀ ho₀ hun₀).bind_eq fun begun rt₁ h₁ => ?_
  obtain ⟨b, rfl, hpending, hr, hun₁, o₁, ho₁, ho₁p⟩ := h₁
  refine Triple.ite (fun hwon => ?_) fun _ => ?_
  · have hp : o₁.pending = true := by
      rw [ho₁p, ← hpending]
      exact (Bool.and_eq_true_iff.mp hwon).1
    have hbusy : rt₁.view.Busy slot o₁ := ⟨ho₁, hun₁, hp⟩
    have hran : Triple (· = rt₁) (dispatchCancelOf slot b.loc ⟨left, [], []⟩) (fun _ rt' =>
        rt'.view.Retired first known (some slot) ∧ ∃ o, rt'.view.Busy slot o) fun _ => True := by
      apply (dispatchCancelOf_rule (fun _ _ => trivial) ho₁ b.loc (I := fun _ v =>
        v.Retired first known (some slot) ∧ ∃ o, v.Busy slot o) ?_ ?_).post
      · rintro l rt' (⟨-, rfl, -⟩ | h')
        · exact ⟨hr, o₁, hbusy⟩
        · exact h'
      · intro j c cl done _ _ _ _ _
        have hfreed : (rt₁.view.setCancel j none).Retired first known (some slot) :=
          hr.congr (hr.sane.congr (fun _ o ho => ⟨o, ho, rfl⟩) rfl hr.sane.armed le_rfl
            fun _ _ _ _ _ hm => hm) le_rfl (fun _ o ho => .inr ⟨o, ho, rfl⟩) fun _ _ hm => hm
        exact ⟨hfreed.push rfl rfl, o₁, ⟨hbusy.live, hbusy.unarmed, hbusy.pending⟩⟩
      · intro l call hcall
        cases hcall
    refine hran.bind_eq fun loc rt₂ h₂ => Triple.pure ?_
    rintro _ rfl
    exact h₂
  · refine (settleCancel_retired hr hun₁ ho₁).bind_eq fun loc rt₂ h₂ => ?_
    apply (enterShim_spec h₂.1 h₂.2).post
    rintro control rt' ⟨hr', _, _, rfl⟩
    exact hr'

theorem leave_keeps {rt : Runtime L} (h : control.Keeps first known rt.view) :
    Triple (· = rt) (leave control) (fun control rt' => control.Keeps first known rt'.view)
      fun _ => True := by
  cases control with
  | outside => exact Triple.throw fun _ _ => trivial
  | done index completion b loc =>
    obtain ⟨hr, o, hbusy⟩ := h
    have h0 : o.id ≠ 0 := Nat.pos_iff_ne_zero.mp (hr.sane.ids index o hbusy.live).1
    refine (clearPending_spec (fun _ _ => trivial) hbusy.live h0).bind_eq fun _ rt₁ h₁ => ?_
    have hr₁ : rt₁.view.Retired first known (some index) := h₁ ▸ hr.setOp hbusy.live rfl
    have hun₁ : ∀ id, (index, id) ∉ rt₁.view.backend.armed := h₁ ▸ hbusy.unarmed
    apply (enterShim_spec hr₁ hun₁).post
    rintro control rt' ⟨hr', _, _, rfl⟩
    exact hr'
  | shim saved run =>
    have hr : rt.view.Retired first known none := h
    refine Triple.modify_bind ((releaseRun_spec fun _ _ => trivial).bind_eq fun _ rt₁ h₁ =>
      Triple.pure ?_)
    rintro _ rfl
    obtain ⟨arena, -, hv⟩ := h₁
    change View.Retired _ _ _ _
    rw [hv]
    exact hr.congr (hr.sane.congr (fun _ o ho => ⟨o, ho, rfl⟩) rfl hr.sane.armed le_rfl
      fun _ _ _ _ _ hm => hm) le_rfl (fun _ o ho => .inr ⟨o, ho, rfl⟩) fun _ _ hm => hm

/-- After a step of the runtime between two points where user code is in control. -/
theorem Thread.Sound.after {m : M L (Control L)} (h : t.Sound)
    (hm : Triple (· = t.rt) m (fun control rt => control.Keeps t.first t.rt.view.nextOpId rt.view)
      fun _ => True)
    (hst : t.after (m t.rt) = some t') : t'.Sound := by
  cases hr : m t.rt with
  | error _ _ =>
    rw [hr] at hst
    cases hst
  | ok control rt =>
    rw [hr] at hst
    obtain rfl := Option.some.inj hst
    obtain ⟨hnext, hcontrol⟩ := (hm.ok rfl hr).raise
    constructor
    case control => exact hcontrol
    case issued =>
      intro handle hh
      exact (h.issued handle hh).trans_le hnext
    case past => exact h.past

/-- A cancel completion may clear the mark of an op that has not completed. -/
theorem completeCancel_keeps {rt : Runtime L} {j : ℕ} {result : ℤ}
    (h : rt.view.Retired first known none) :
    Triple (· = rt) (completeCancel j result) (fun _ rt' => rt'.view.Retired first known none)
      fun _ => True := by
  apply (completeCancel_spec fun _ _ => trivial).post
  rintro _ rt' (⟨-, hv⟩ | ⟨c, loc, v, -, -, -, rfl, hv⟩)
  · rw [hv]
    exact h
  · have hfreed : (rt.view.setCancel j none).Retired first known none :=
      h.congr (h.sane.congr (fun _ o ho => ⟨o, ho, rfl⟩) rfl h.sane.armed le_rfl
        fun _ _ _ _ _ hm => hm) le_rfl (fun _ o ho => .inr ⟨o, ho, rfl⟩) fun _ _ hm => hm
    have hdropped : (((rt.view.setCancel j none).push (.cancelDropped loc.1))).Retired first known none :=
      hfreed.push rfl rfl
    rcases hv with ⟨o, ho, -, -, hv⟩ | ⟨-, hv⟩
    · rw [hv]
      exact hdropped.setOp ho rfl
    · rw [hv]
      exact hdropped

theorem cancelEvent_keeps {rt : Runtime L} {slot id targetId : ℕ} {result : ℤ}
    (h : rt.view.Retired first known none) :
    Triple (· = rt) (Event.exec (.cancel slot id targetId result))
      (fun _ rt' => rt'.view.Retired first known none) fun _ => True := by
  change Triple (· = rt) (do
    modify _
    let _ ← cancelSlot slot
    completeCancel slot result) _ _
  refine Triple.modify_bind (Triple.of_eq fun rt₀ h₀ => cancelSlot_bind trivial fun _ _ => ?_)
  apply completeCancel_keeps
  rw [h₀]
  exact h.congr (h.sane.congr (fun _ o ho => ⟨o, ho, rfl⟩) rfl h.sane.armed le_rfl
    fun _ _ _ _ _ hm => hm) le_rfl (fun _ o ho => .inr ⟨o, ho, rfl⟩) fun _ _ hm => hm

/-- A runtime that starts at the thread's counter. -/
theorem View.Retired.fresh (counter : NonZeroU64) :
    (Runtime.view { (Runtime.new : Runtime L) with nextOpId := counter }).Retired counter counter
      none := by
  have hs : (Runtime.view { (Runtime.new : Runtime L) with nextOpId := counter }).Sane := by
    refine ⟨Nat.pos_of_ne_zero counter.2, ?_, ?_, ?_, List.nodup_nil, ?_, ?_⟩ <;>
      simp [Runtime.view, Runtime.new]
  refine ⟨hs, le_rfl, le_rfl, ?_, ?_, ?_⟩ <;> simp [Runtime.view, Runtime.new]

/-- User code keeps what its control promises. -/
theorem Control.Keeps.effect {v' : View L} {call : Call L} (h : control.Keeps first known v)
    (he : call.Effect v v') : control.Keeps first known v' := by
  cases control with
  | outside => exact View.Retired.effect h he
  | shim _ _ => exact View.Retired.effect h he
  | done _ _ _ _ =>
    obtain ⟨hr, o, hbusy⟩ := h
    exact ⟨hr.effect he, o, hbusy.effect he⟩

theorem owedStep_sound {m : Move L} (h : t.Sound) (hst : Thread.owedStep t m = some t') : t'.Sound := by
  cases m with
  | call c =>
    simp only [Thread.owedStep, Thread.stepUnder] at hst
    cases hr : c.invoke t.rt with
    | error _ _ =>
      rw [hr] at hst
      cases hst
    | ok op rt =>
      rw [hr] at hst
      obtain rfl := Option.some.inj hst
      obtain ⟨heffect, hop⟩ := (invoke_spec c).ok rfl hr
      have hcontrol := h.control.effect heffect
      obtain ⟨hnext, hraised⟩ := hcontrol.raise
      constructor
      case control => exact hraised
      case issued =>
        intro handle hh
        rcases List.mem_append.mp hh with hh | hh
        · exact (h.issued handle hh).trans_le hnext
        · obtain ⟨o, ho, rfl⟩ := List.mem_map.mp hh
          exact hop o (Option.mem_toList.mp ho)
      case past =>
        intro handle hh hlt
        rcases List.mem_append.mp hh with hh | hh
        · exact h.past handle hh hlt
        · obtain ⟨o, _, rfl⟩ := List.mem_map.mp hh
          exact absurd hlt (lt_irrefl _)
  | op slot id completion left =>
    simp only [Thread.owedStep, Thread.stepUnder] at hst
    cases hc : t.control with
    | outside =>
      simp only [hc] at hst
      split_ifs at hst with ha
      have hr : t.rt.view.Retired t.first t.rt.view.nextOpId none := by
        have hkeeps := h.control
        rw [hc] at hkeeps
        exact hkeeps
      have harmed : (slot, id) ∈ t.rt.backend.armed :=
        of_decide_eq_true ha
      exact h.after (deliver_keeps hr harmed) hst
    | done _ _ _ _ =>
      simp only [hc] at hst
      cases hst
    | shim _ _ =>
      simp only [hc] at hst
      cases hst
  | cancel slot id targetId result =>
    simp only [Thread.owedStep, Thread.stepUnder] at hst
    cases hc : t.control with
    | outside =>
      simp only [hc] at hst
      obtain ⟨rt, hstep, rfl⟩ := Option.map_eq_some_iff.mp hst
      have hr : t.rt.view.Retired t.first t.rt.view.nextOpId none := by
        have hkeeps := h.control
        rw [hc] at hkeeps
        exact hkeeps
      have hr' := (cancelEvent_keeps hr).ok rfl (exec_of_owedStep hstep).2
      constructor
      case control => exact hr'.raise
      case issued =>
        intro handle hh
        exact (h.issued handle hh).trans_le hr'.known_le
      case past => exact h.past
    | done _ _ _ _ =>
      simp only [hc] at hst
      cases hst
    | shim _ _ =>
      simp only [hc] at hst
      cases hst
  | leave => exact h.after (leave_keeps h.control) hst
  | restart counter =>
    simp only [Thread.owedStep, Thread.stepUnder] at hst
    split_ifs at hst with hle
    obtain rfl := Option.some.inj hst
    constructor
    case control => exact View.Retired.fresh counter
    case issued =>
      intro handle hh
      exact (h.issued handle hh).trans_le hle
    case past =>
      intro handle hh _
      exact (h.issued handle hh).trans_le hle

theorem reaches_sound (h : Reaches Thread.owedStep (fun _ _ => True) Thread.start t) : t.Sound := by
  apply h.invariant
  · constructor
    case control => exact View.Retired.fresh ⟨1, one_ne_zero⟩
    case issued => simp [Thread.start]
    case past => simp [Thread.start]
  · intro _ _ _ hsound _ hst
    exact owedStep_sound hsound hst

/-- A stale handle names no op that could be cancelled. -/
theorem Thread.Sound.not_cancellable {handle : ℕ × Op} (h : t.Sound) (hs : t.Stale handle) :
    t.rt.cancellable handle.2 = false := by
  rw [Bool.eq_false_iff, ne_eq, cancellable_iff]
  rintro ⟨o, ho, hid, hpending⟩
  have hfloor : t.first ≤ o.id ∧ ∀ c, .completed o.id c ∈ t.rt.log → o.pending = true := by
    have hkeeps := h.control
    cases hc : t.control with
    | outside | shim _ _ =>
      rw [hc] at hkeeps
      have hr : t.rt.view.Retired t.first t.rt.view.nextOpId none := hkeeps
      refine ⟨hr.floor _ o ho, ?_⟩
      intro c hm
      cases hr.ended _ o c ho hm
    | done index _ _ _ =>
      rw [hc] at hkeeps
      obtain ⟨hr, o', hbusy⟩ := hkeeps
      refine ⟨hr.floor _ o ho, ?_⟩
      intro c hm
      have hindex := Option.some.inj (hr.ended _ o c ho hm)
      rw [← hindex, hbusy.live] at ho
      rw [← Option.some.inj ho]
      exact hbusy.pending
  rcases hs.2 with hold | ⟨c, hm⟩
  · have hlt := h.past handle hs.1 hold
    omega
  · have hp := hfloor.2 c (hid ▸ hm)
    rw [hpending] at hp
    cases hp

private theorem cancel_of_not_cancellable {rt : Runtime L} {op : Op} (h : rt.cancellable op = false) (loc : L)
    (done : ℕ) (accepted : Bool) :
    cancel op loc done accepted rt = .ok () { rt with
      calls := rt.calls + 1
      log := rt.log ++ [.cancelCall rt.calls op.id done false, .cancelDropped rt.calls] } := by
  have hcancel : cancel op loc done accepted rt = (do
      record (.cancelCall rt.calls op.id done false)
      record (.cancelDropped rt.calls) : M L Unit) { rt with calls := rt.calls + 1 } := by
    change (if rt.cancellable op = true then _ else _ : M L Unit) _ = _
    rw [h]
    rfl
  rw [hcancel]
  change EStateM.Result.ok () _ = _
  simp only [List.append_assoc, List.singleton_append]

/-- Whenever user code is in control, in any of the thread's runtimes, a cancel through a handle
whose op is gone leaves the backend, every slot and every counter as they are: its local is dropped
and its callback kept nowhere. -/
theorem run_stale_inert {handle : ℕ × Op}
    (h : Reaches Thread.owedStep (fun _ _ => True) Thread.start t) (hs : t.Stale handle) (loc : L)
    (done : ℕ) (accepted : Bool) :
    cancel handle.2 loc done accepted t.rt = .ok () { t.rt with
      calls := t.rt.calls + 1
      log := t.rt.log ++
        [.cancelCall t.rt.calls handle.2.id done false, .cancelDropped t.rt.calls] } :=
  cancel_of_not_cancellable ((reaches_sound h).not_cancellable hs) loc done accepted

end

/-- An op completes, its slot goes to the next op, and a second runtime begins with its first op. -/
def recycledSlot : List (Move Unit) :=
  [.call (.register 0 0 () 0 [] true), .op 0 1 ⟨0, 0, 0, false⟩ fun _ l => l, .leave,
    .call (.register 0 0 () 0 [] true), .restart (idAfter 2), .call (.register 0 0 () 0 [] true)]

/-- Both handles of the first runtime name the slot that the second one's op is in. -/
theorem run_stale_inert_recycled : ∃ t, run Thread.owedStep .start recycledSlot = some t ∧
    t.handles.map (·.2.slot) = [0, 0, 0] ∧
    ∀ handle ∈ [(0, ⟨0, 0, ⟨1, by decide⟩⟩), (0, ⟨0, 0, ⟨2, by decide⟩⟩)],
      cancel (L := Unit) (Prod.snd handle) () 5 true t.rt = .ok () { t.rt with
        calls := t.rt.calls + 1
        log := t.rt.log ++
          [.cancelCall t.rt.calls handle.2.id 5 false, .cancelDropped t.rt.calls] } := by
  have hany : (run Thread.owedStep .start recycledSlot).any (fun t =>
      decide (t.generation = 1 ∧ t.handles =
        [(0, ⟨0, 0, ⟨1, by decide⟩⟩), (0, ⟨0, 0, ⟨2, by decide⟩⟩), (1, ⟨0, 0, ⟨3, by decide⟩⟩)])) =
      true := by decide +kernel
  obtain ⟨t, hrun, ht⟩ := (Option.any_eq_true _ _).mp hany
  obtain ⟨hgen, hhandles⟩ := of_decide_eq_true ht
  refine ⟨t, hrun, by rw [hhandles]; rfl, ?_⟩
  have hreach : Reaches Thread.owedStep (fun _ _ => True) Thread.start t :=
    reaches_of_run (meets_of_forall fun _ _ => trivial) hrun
  intro handle hh
  have hstale : t.Stale handle := by
    constructor
    · rw [hhandles]
      exact List.mem_append_left [(1, ⟨0, 0, ⟨3, by decide⟩⟩)] hh
    · left
      rw [hgen]
      fin_cases hh <;> decide
  exact run_stale_inert hreach hstale () 5 true

end Conrt.Coio
