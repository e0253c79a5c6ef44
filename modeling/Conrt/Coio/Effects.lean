import Conrt.Coio.View

/-! What each runtime call does to the view. -/
namespace Conrt.Coio

open Conrt.Base

variable {L : Type}

namespace View

def register (v : View L) (i shim done : ℕ) (loc : L) (bufs : List IoBufErased)
    (run : Option (ℕ × ℕ)) (arena : BufArena) : View L :=
  ({ v with
      arena := arena
      nextOpId := v.nextOpId + 1
      backend.armed := (i, v.nextOpId) :: v.backend.armed }.setOp i
    (some ⟨v.nextOpId, false, .live shim done, some loc, run⟩)).push
    (.registered v.nextOpId shim done loc bufs)

def refuse (v : View L) (bufs : List IoBufErased) (arena : BufArena) : View L :=
  { v with arena := arena, nextOpId := v.nextOpId + 1 }.push (.refused v.nextOpId bufs)

theorem register_op (v : View L) (i shim done : ℕ) (loc : L) (bufs : List IoBufErased)
    (run : Option (ℕ × ℕ)) (arena : BufArena) (j : ℕ) :
    (v.register i shim done loc bufs run arena).op j =
      if j = i then some ⟨v.nextOpId, false, .live shim done, some loc, run⟩ else v.op j :=
  Function.update_apply ..

end View

/-- A claimed slot decodes to what was claimed. -/
theorem view_claimed {arena arena' : BufArena} {bufs : List IoBufErased} {run : Option (ℕ × ℕ)}
    {id : NonZeroU64} {shim done : ℕ} {loc : L}
    (hr : arena.allocBufRun bufs = .ok (run, arena')) (hid : id < maxOpId)
    (hb : (run.getD (bufNone, 0)).1 ≠ bufNone ∨ (run.getD (bufNone, 0)).2 = 0) :
    IoSlot.view ⟨id, some loc, (run.getD (bufNone, 0)).1, (run.getD (bufNone, 0)).2,
      .live shim done⟩ = some ⟨id, false, .live shim done, some loc, run⟩ := by
  have hf : isFree id = false := by simpa [isFree] using id.2
  have hrun : (if (run.getD (bufNone, 0)).1 ≠ bufNone then some ((run.getD (bufNone, 0)).1,
      (run.getD (bufNone, 0)).2) else none) = run := by
    cases run with
    | none => simp
    | some r =>
      have hlen := BufArena.allocBufRun_len hr
      have hne : r.1 ≠ bufNone := hb.resolve_right hlen
      simp [hne]
  unfold IoSlot.view IoSlot.takeBufRun
  simp only [hf, idBits_of_lt hid, isCancelPending_of_lt hid, hrun, Bool.false_eq_true, if_false]

section

variable {E : Panic → Prop} (hE : ∀ e, e ≠ .arena → E e) {rt : Runtime L}

include hE

theorem claimOpSlot_spec {arena arena' : BufArena} {bufs : List IoBufErased}
    {run : Option (ℕ × ℕ)} (hr : arena.allocBufRun bufs = .ok (run, arena')) {id : NonZeroU64}
    (hid : id < maxOpId) (i shim done : ℕ) (loc : L) :
    Triple (· = rt) (claimOpSlot i id shim done loc run)
      (fun _ rt' => rt.view.op i = none ∧
        rt'.view = rt.view.setOp i (some ⟨id, false, .live shim done, some loc, run⟩)) E := by
  unfold claimOpSlot
  refine ioSlot_bind (hE _ (by simp)) fun slot hs => ?_
  refine Triple.ofExcept_bind (fun slot' hslot => ?_) fun e he => hE e ?_
  · obtain ⟨hfree, hbuf, rfl⟩ := IoSlot.claim_eq hslot
    refine Triple.update ?_
    rintro _ rfl
    refine ⟨?_, ?_⟩
    · rw [view_op hs, IoSlot.view, if_pos hfree]
    · rw [view_setIoSlot hs, view_claimed hr hid hbuf]
  · rintro rfl
    exact IoSlot.claim_ne he

theorem takeBufRun_spec {i : ℕ} {o : LiveOp L} (ho : rt.view.op i = some o) :
    Triple (· = rt) (takeBufRun i) (fun run rt' => run = o.run ∧
      rt'.view = rt.view.setOp i (some { o with run := none })) E := by
  unfold takeBufRun
  refine ioSlot_bind (hE _ (by simp)) fun slot hs => Triple.modify_bind (Triple.pure ?_)
  rintro _ rfl
  rw [view_op hs] at ho
  unfold IoSlot.view at ho
  split_ifs at ho with hf
  obtain rfl := Option.some.inj ho
  refine ⟨rfl, ?_⟩
  rw [view_setIoSlot hs]
  simp [IoSlot.view, IoSlot.takeBufRun, hf]

theorem takeLocal_spec {i : ℕ} {o : LiveOp L} (ho : rt.view.op i = some o) :
    Triple (· = rt) (takeLocal i) (fun loc rt' => o.loc = some loc ∧
      rt'.view = rt.view.setOp i (some { o with loc := none })) E := by
  unfold takeLocal
  refine ioSlot_bind (hE _ (by simp)) fun slot hs => ?_
  refine Triple.ofExcept_bind (fun taken ht => ?_) fun e he => hE e ?_
  · refine Triple.modify_bind (Triple.pure ?_)
    rintro _ rfl
    rw [view_op hs] at ho
    unfold IoSlot.view at ho
    split_ifs at ho with hf
    obtain rfl := Option.some.inj ho
    obtain ⟨hl, ht⟩ := IoSlot.takeLocal_eq ht
    refine ⟨hl, ?_⟩
    rw [view_setIoSlot hs, ht]
    simp [IoSlot.view, IoSlot.takeBufRun, hf]
  · rintro rfl
    exact IoSlot.takeLocal_ne he

theorem clearPending_spec {i : ℕ} {o : LiveOp L} (ho : rt.view.op i = some o) (h0 : o.id ≠ 0) :
    Triple (· = rt) (clearPending i)
      (fun _ rt' => rt'.view = rt.view.setOp i (some { o with pending := false })) E := by
  unfold clearPending
  refine ioSlot_bind (hE _ (by simp)) fun slot hs => Triple.update ?_
  rintro _ rfl
  rw [view_op hs] at ho
  unfold IoSlot.view at ho
  split_ifs at ho with hf
  obtain rfl := Option.some.inj ho
  have hf' : isFree (idBits slot.id) = false := by simpa [isFree] using h0
  rw [view_setIoSlot hs]
  simp [IoSlot.view, IoSlot.takeBufRun, hf']

omit hE in
theorem releaseRun_spec {run : Option (ℕ × ℕ)}
    (hR : ∀ e, rt.view.arena.giveBack run = .error e → E e) :
    Triple (· = rt) (releaseRun run : M L Unit) (fun _ rt' => ∃ arena,
      rt.view.arena.giveBack run = .ok arena ∧ rt'.view = { rt.view with arena := arena }) E := by
  unfold releaseRun
  refine Triple.get_bind (Triple.ofExcept_bind (fun arena ha => Triple.update ?_) hR)
  rintro _ rfl
  exact ⟨arena, ha, rfl⟩

theorem registerOp_spec {shim done cls : ℕ} {loc : L} {bufs : List IoBufErased} {accepted : Bool}
    (hA : ∀ e, rt.view.arena.allocBufRun bufs = .error e → E e)
    (hR : ∀ run arena e, rt.view.arena.allocBufRun bufs = .ok (run, arena) →
      arena.giveBack run = .error e → E e) :
    Triple (· = rt) (registerOp shim done loc cls bufs accepted)
      (fun _ rt' => ∃ run arena, rt.view.arena.allocBufRun bufs = .ok (run, arena) ∧
        rt.view.nextOpId < maxOpId ∧
        ((accepted = true ∧ ∃ i, rt.view.op i = none ∧
            rt'.view = rt.view.register i shim done loc bufs run arena) ∨
          (accepted = false ∧ ∃ arena', arena.giveBack run = .ok arena' ∧
            rt'.view = rt.view.refuse bufs arena'))) E := by
  unfold registerOp
  refine (allocOpSlot_spec hE).bind_eq fun i rt₁ h₁ => ?_
  refine (nextOpId_spec hE).bind_eq fun id rt₂ h₂ => ?_
  obtain ⟨rfl, hlt, hv₂⟩ := h₂
  have hnext : (rt₁.nextOpId : ℕ) = rt.view.nextOpId := congrArg View.nextOpId h₁
  rw [h₁, hnext] at hv₂
  have harena : rt₂.bufArena = rt.view.arena := congrArg View.arena hv₂
  refine Triple.get_bind (Triple.ofExcept_bind (fun r hr => ?_) fun e he => hA e (harena ▸ he))
  obtain ⟨run, arena⟩ := r
  rw [harena] at hr
  refine Triple.modify_bind ((claimOpSlot_spec hE hr hlt i shim done loc).bind_eq fun _ rt₃ h₃ => ?_)
  obtain ⟨hi, hv₃⟩ := h₃
  rw [hnext] at hlt hv₃
  have hv₂' : Runtime.view { rt₂ with bufArena := arena } =
      { rt.view with arena := arena, nextOpId := rt.view.nextOpId + 1 } := by
    change { rt₂.view with arena := arena } = _
    rw [hv₂]
  have hi' : rt.view.op i = none := by rwa [hv₂'] at hi
  rw [hv₂'] at hv₃
  cases accepted with
  | true =>
    refine Triple.modify_bind ((record_spec _).bind_eq fun _ rt₄ h₄ => Triple.pure ?_)
    rintro _ rfl
    refine ⟨run, arena, hr, hlt, .inl ⟨rfl, i, hi', ?_⟩⟩
    rw [h₄]
    change { rt₃.view with
      backend.armed := (i, rt₁.nextOpId.val) :: rt₃.view.backend.armed }.push _ = _
    rw [hv₃, hnext]
    rfl
  | false =>
    have ho : rt₃.view.op i =
        some ⟨rt.view.nextOpId, false, .live shim done, some loc, run⟩ := by
      rw [hv₃]
      exact Function.update_self ..
    refine (takeBufRun_spec hE ho).bind_eq fun run' rt₄ h₄ => ?_
    obtain ⟨rfl, hv₄⟩ := h₄
    have ha₄ : rt₄.view.arena = arena := by
      rw [hv₄, hv₃]
      rfl
    refine (releaseRun_spec (ha₄ ▸ fun e he => hR _ _ e hr he)).bind_eq fun _ rt₅ h₅ => ?_
    obtain ⟨arena', hrel, hv₅⟩ := h₅
    refine (freeOpSlot_spec hE i).bind_eq fun _ rt₆ h₆ => ?_
    refine (record_spec _).bind_eq fun _ rt₇ h₇ => Triple.pure ?_
    rintro _ rfl
    refine ⟨_, arena, hr, hlt, .inr ⟨rfl, arena', ha₄ ▸ hrel, ?_⟩⟩
    have hop : Function.update rt.view.op i none = rt.view.op := Function.update_eq_self_iff.mpr hi'.symm
    rw [h₇, h₆, hv₅, hv₄, hv₃]
    simp only [View.setOp, Function.update_idem, hop, hnext, View.refuse]

end

namespace View

/-- After a cancel call whose handle names nothing cancellable. -/
def rejectCancel (v : View L) (target done : ℕ) : View L :=
  ({ v with calls := v.calls + 1 }.push (.cancelCall v.calls target done false)).push
    (.cancelDropped v.calls)

def refuseCancel (v : View L) (target done : ℕ) : View L :=
  ({ v with calls := v.calls + 1, nextOpId := v.nextOpId + 1 }.push
    (.cancelDropped v.calls)).push (.cancelCall v.calls target done false)

def acceptCancel (v : View L) (j : ℕ) (op : Op) (done : ℕ) (loc : L) (o : LiveOp L) : View L :=
  (({ v with
      calls := v.calls + 1
      nextOpId := v.nextOpId + 1
      backend.cancels := (j, v.nextOpId, op.id.val) :: v.backend.cancels }.setCancel j
    (some ⟨v.nextOpId, op.slot, op.id, .live done, some (v.calls, loc)⟩)).push
    (.cancelCall v.calls op.id done true)).setOp op.slot (some { o with pending := true })

end View

section

variable {E : Panic → Prop} (hE : ∀ e, e ≠ .arena → E e) {rt : Runtime L}

include hE

theorem submitCancel_spec {victim : Op} {done : ℕ} {loc : ℕ × L} {accepted : Bool} :
    Triple (· = rt) (submitCancel victim done loc accepted)
      (fun submitted rt' => submitted = accepted ∧ rt.view.nextOpId < maxOpId ∧
        ((accepted = true ∧ ∃ j, rt.view.cancel j = none ∧ rt'.view = { rt.view with
            nextOpId := rt.view.nextOpId + 1
            backend.cancels := (j, rt.view.nextOpId, victim.id.val) ::
              rt.view.backend.cancels }.setCancel j
              (some ⟨rt.view.nextOpId, victim.slot, victim.id, .live done, some loc⟩)) ∨
          (accepted = false ∧ rt'.view = { rt.view with
            nextOpId := rt.view.nextOpId + 1 }.push (.cancelDropped loc.1)))) E := by
  unfold submitCancel
  refine (allocCancelSlot_spec hE).bind_eq fun j rt₁ h₁ => ?_
  refine (nextOpId_spec hE).bind_eq fun id rt₂ h₂ => ?_
  obtain ⟨rfl, hlt, hv₂⟩ := h₂
  have hnext : (rt₁.nextOpId : ℕ) = rt.view.nextOpId := congrArg View.nextOpId h₁
  rw [h₁, hnext] at hv₂
  rw [hnext] at hlt
  refine cancelSlot_bind (hE _ (by simp)) fun slot hs => ?_
  refine Triple.ofExcept_bind (fun slot' hslot => ?_) fun e he => hE e ?_
  rotate_left
  · rintro rfl
    exact CancelSlot.claim_ne he
  obtain ⟨hfree, hslot⟩ := CancelSlot.claim_eq hslot
  have hj : rt.view.cancel j = none := by
    have h := view_cancel hs
    rw [hv₂, CancelSlot.view, if_pos hfree] at h
    exact h
  have hslotview : slot'.view =
      some ⟨rt.view.nextOpId, victim.slot, victim.id, .live done, some loc⟩ := by
    have hf : isFree rt₁.nextOpId = false := by simpa [isFree] using rt₁.nextOpId.2
    rw [hslot, CancelSlot.view, hf, hnext]
    rfl
  refine Triple.modify_bind ?_
  have hv₃ := view_setCancelSlot hs slot'
  rw [hslotview, hv₂] at hv₃
  generalize ({ rt₂ with cancelSlab := rt₂.cancelSlab.set j slot' } : Runtime L) = rt₃ at hv₃ ⊢
  cases accepted with
  | true =>
    refine Triple.modify_bind (Triple.pure ?_)
    rintro _ rfl
    refine ⟨rfl, hlt, .inl ⟨rfl, j, hj, ?_⟩⟩
    change { rt₃.view with
      backend.cancels := (j, rt₁.nextOpId.val, victim.id.val) :: rt₃.view.backend.cancels } = _
    rw [hv₃, hnext]
    rfl
  | false =>
    have hc : rt₃.view.cancel j =
        some ⟨rt.view.nextOpId, victim.slot, victim.id, .live done, some loc⟩ := by
      rw [hv₃]
      exact Function.update_self ..
    refine (freeCancelSlotDroppingLocal_spec hE hc).bind_eq fun _ rt₄ h₄ => Triple.pure ?_
    rintro _ rfl
    obtain ⟨loc', hloc, h₄⟩ := h₄
    obtain rfl := Option.some.inj hloc
    refine ⟨rfl, hlt, .inr ⟨rfl, ?_⟩⟩
    have hcancel : Function.update rt.view.cancel j none = rt.view.cancel :=
      Function.update_eq_self_iff.mpr hj.symm
    rw [h₄, hv₃]
    simp only [View.setCancel, Function.update_idem, hcancel]

omit hE in
/-- A handle is cancellable when it names a live op with no cancellation pending. -/
theorem cancellable_iff {op : Op} : rt.cancellable op = true ↔
    ∃ o, rt.view.op op.slot = some o ∧ o.id = op.id ∧ o.pending = false := by
  unfold Runtime.cancellable
  cases hs : rt.ioSlab[op.slot]? with
  | none => simp [Runtime.view, hs]
  | some slot =>
    rw [view_op hs, IoSlot.view]
    by_cases hf : isFree slot.id = true
    · have h0 : idBits slot.id = 0 := by
        have hz : slot.id = 0 := by simpa [isFree] using hf
        rw [hz]
        rfl
      have hne : (0 : ℕ) ≠ op.id := op.id.2.symm
      simp [hf, h0, hne]
    · simp [hf]

theorem cancel_spec (op : Op) (loc : L) (done : ℕ) (accepted : Bool) :
    Triple (· = rt) (cancel op loc done accepted)
      (fun _ rt' =>
        ((∀ o, rt.view.op op.slot = some o → o.id = op.id → o.pending = true) ∧
            rt'.view = rt.view.rejectCancel op.id done) ∨
        (accepted = false ∧ rt'.view = rt.view.refuseCancel op.id done) ∨
        (accepted = true ∧ ∃ j o, rt.view.op op.slot = some o ∧ o.id = op.id ∧
          o.pending = false ∧ rt.view.cancel j = none ∧ rt.view.nextOpId < maxOpId ∧
          rt'.view = rt.view.acceptCancel j op done loc o)) E := by
  unfold cancel
  refine Triple.get_bind (Triple.modify_bind (Triple.ite (fun hc => ?_) fun hc => ?_))
  · obtain ⟨o, ho, hid, hpend⟩ := cancellable_iff.mp hc
    refine (submitCancel_spec hE).bind_eq fun submitted rt₁ h₁ => ?_
    obtain ⟨rfl, hlt, h₁⟩ := h₁
    refine (record_spec _).bind_eq fun _ rt₂ hv₂ => ?_
    rcases h₁ with ⟨rfl, j, hj, hv₁⟩ | ⟨rfl, hv₁⟩
    · refine ioSlot_bind (hE _ (by simp)) fun slot hs => Triple.update ?_
      rintro rt₃ rfl
      refine .inr (.inr ⟨rfl, j, o, ho, hid, hpend, hj, hlt, ?_⟩)
      have ho₂ : rt₃.view.op op.slot = some o := by
        rw [hv₂, hv₁]
        exact ho
      have hslot := ho₂
      rw [view_op hs, IoSlot.view] at hslot
      split_ifs at hslot
      obtain rfl := Option.some.inj hslot
      rw [view_setIoSlot hs, hv₂, hv₁]
      simp only [IoSlot.view, isFree_or, idBits_or, isCancelPending_or]
      rfl
    · refine Triple.pure ?_
      rintro _ rfl
      refine .inr (.inl ⟨rfl, ?_⟩)
      rw [hv₂, hv₁]
      rfl
  · refine (record_spec _).bind_eq fun _ rt₁ hv₁ => (record_spec _).post fun _ rt₂ hv₂ => ?_
    refine .inl ⟨fun o ho hid => ?_, ?_⟩
    · by_contra hne
      exact hc (cancellable_iff.mpr ⟨o, ho, hid, by simpa using hne⟩)
    · rw [hv₂, hv₁]
      rfl

end

end Conrt.Coio
