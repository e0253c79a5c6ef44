import Conrt.Coio.Runtime

/-! What a runtime state means: slots as finite maps, with the free stacks and counters forgotten. -/
namespace Conrt.Coio

open Conrt.Base

/-- A live op. `loc` and `run` are gone once its completion has taken them. -/
structure LiveOp (L : Type) where
  id : ℕ
  pending : Bool
  body : SlotBody
  loc : Option L
  run : Option (ℕ × ℕ)

structure LiveCancel (L : Type) where
  id : ℕ
  target : ℕ
  targetId : ℕ
  body : CancelBody
  loc : Option (ℕ × L)

structure View (L : Type) where
  op : ℕ → Option (LiveOp L)
  cancel : ℕ → Option (LiveCancel L)
  arena : BufArena
  nextOpId : ℕ
  backend : Ledger
  calls : ℕ
  log : List (Entry L)

variable {L : Type}

def IoSlot.view (slot : IoSlot L) : Option (LiveOp L) :=
  if isFree slot.id then none
  else some ⟨idBits slot.id, isCancelPending slot.id, slot.body, slot.loc, slot.takeBufRun.1⟩

def CancelSlot.view (slot : CancelSlot L) : Option (LiveCancel L) :=
  if isFree slot.id then none
  else some ⟨slot.id, slot.target, slot.targetId, slot.body, slot.loc⟩

def Runtime.view (rt : Runtime L) : View L :=
  { op := fun i => rt.ioSlab[i]?.bind (·.view)
    cancel := fun i => rt.cancelSlab[i]?.bind (·.view)
    arena := rt.bufArena
    nextOpId := rt.nextOpId
    backend := rt.backend
    calls := rt.calls
    log := rt.log }

namespace View

def setOp (v : View L) (i : ℕ) (o : Option (LiveOp L)) : View L :=
  { v with op := Function.update v.op i o }

def setCancel (v : View L) (i : ℕ) (c : Option (LiveCancel L)) : View L :=
  { v with cancel := Function.update v.cancel i c }

def push (v : View L) (entry : Entry L) : View L := { v with log := v.log ++ [entry] }

section fields

variable (v : View L) (i : ℕ) (o : Option (LiveOp L)) (c : Option (LiveCancel L)) (entry : Entry L)

theorem setOp_op (j : ℕ) : (v.setOp i o).op j = if j = i then o else v.op j :=
  Function.update_apply ..

theorem setCancel_cancel (j : ℕ) : (v.setCancel i c).cancel j = if j = i then c else v.cancel j :=
  Function.update_apply ..

@[simp] theorem setOp_log : (v.setOp i o).log = v.log := rfl
@[simp] theorem setCancel_log : (v.setCancel i c).log = v.log := rfl
@[simp] theorem push_op : (v.push entry).op = v.op := rfl
@[simp] theorem push_cancel : (v.push entry).cancel = v.cancel := rfl
@[simp] theorem push_log : (v.push entry).log = v.log ++ [entry] := rfl

end fields

@[simp] theorem setOp_setOp (v : View L) (i : ℕ) (o o' : Option (LiveOp L)) :
    (v.setOp i o).setOp i o' = v.setOp i o' := by
  simp [setOp]

@[simp] theorem setCancel_setCancel (v : View L) (i : ℕ) (c c' : Option (LiveCancel L)) :
    (v.setCancel i c).setCancel i c' = v.setCancel i c' := by
  simp [setCancel]

end View

theorem view_op {rt : Runtime L} {i : ℕ} {slot : IoSlot L} (h : rt.ioSlab[i]? = some slot) :
    rt.view.op i = slot.view := by
  simp [Runtime.view, h]

theorem view_op_none {rt : Runtime L} {i : ℕ} (h : rt.ioSlab[i]? = none) :
    rt.view.op i = none := by
  simp [Runtime.view, h]

theorem view_cancel {rt : Runtime L} {i : ℕ} {slot : CancelSlot L}
    (h : rt.cancelSlab[i]? = some slot) : rt.view.cancel i = slot.view := by
  simp [Runtime.view, h]

theorem view_setIoSlot {rt : Runtime L} {i : ℕ} {old : IoSlot L} (h : rt.ioSlab[i]? = some old)
    (slot : IoSlot L) :
    Runtime.view { rt with ioSlab := rt.ioSlab.set i slot } = rt.view.setOp i slot.view := by
  have hlt : i < rt.ioSlab.length := (List.getElem?_eq_some_iff.mp h).1
  have hop : (fun j => (rt.ioSlab.set i slot)[j]?.bind (·.view)) =
      Function.update (fun j => rt.ioSlab[j]?.bind (·.view)) i slot.view := by
    funext j
    by_cases hj : j = i
    · subst hj
      simp [hlt]
    · rw [Function.update_of_ne hj, List.getElem?_set_ne (Ne.symm hj)]
  simp only [Runtime.view, View.setOp, hop]

theorem view_setCancelSlot {rt : Runtime L} {i : ℕ} {old : CancelSlot L}
    (h : rt.cancelSlab[i]? = some old) (slot : CancelSlot L) :
    Runtime.view { rt with cancelSlab := rt.cancelSlab.set i slot } =
      rt.view.setCancel i slot.view := by
  have hlt : i < rt.cancelSlab.length := (List.getElem?_eq_some_iff.mp h).1
  have hc : (fun j => (rt.cancelSlab.set i slot)[j]?.bind (·.view)) =
      Function.update (fun j => rt.cancelSlab[j]?.bind (·.view)) i slot.view := by
    funext j
    by_cases hj : j = i
    · subst hj
      simp [hlt]
    · rw [Function.update_of_ne hj, List.getElem?_set_ne (Ne.symm hj)]
  simp only [Runtime.view, View.setCancel, hc]

private theorem bind_append_none {α β : Type} {f : α → Option β} {x : α} (hx : f x = none)
    (l : List α) (i : ℕ) : (l ++ [x])[i]?.bind f = l[i]?.bind f := by
  rcases lt_trichotomy i l.length with hi | hi | hi
  · rw [List.getElem?_append_left hi]
  · subst hi
    simp [hx]
  · have h1 : l.length + 1 ≤ i := hi
    rw [List.getElem?_eq_none (by simpa using h1), List.getElem?_eq_none hi.le]

private theorem view_pushIoSlot (rt : Runtime L) (next : ℕ) :
    Runtime.view { rt with ioSlab := rt.ioSlab ++ [.initFree next] } = rt.view := by
  have hf : (IoSlot.initFree next : IoSlot L).view = none := rfl
  simp only [Runtime.view, bind_append_none hf]

private theorem view_pushCancelSlot (rt : Runtime L) (next : ℕ) :
    Runtime.view { rt with cancelSlab := rt.cancelSlab ++ [.initFree next] } = rt.view := by
  have hf : (CancelSlot.initFree next : CancelSlot L).view = none := rfl
  simp only [Runtime.view, bind_append_none hf]

section

variable {β : Type} {E : Panic → Prop} {R : β → Runtime L → Prop} {rt : Runtime L}

theorem ioSlot_bind {i : ℕ} {f : IoSlot L → M L β} (hE : E .slab)
    (h : ∀ slot, rt.ioSlab[i]? = some slot → Triple (· = rt) (f slot) R E) :
    Triple (· = rt) (ioSlot i >>= f) R E := by
  unfold ioSlot
  rw [bind_assoc]
  exact Triple.get_bind (Triple.ofOption_bind h fun _ => hE)

theorem cancelSlot_bind {i : ℕ} {f : CancelSlot L → M L β} (hE : E .slab)
    (h : ∀ slot, rt.cancelSlab[i]? = some slot → Triple (· = rt) (f slot) R E) :
    Triple (· = rt) (cancelSlot i >>= f) R E := by
  unfold cancelSlot
  rw [bind_assoc]
  exact Triple.get_bind (Triple.ofOption_bind h fun _ => hE)

theorem incr_bind {n : ℕ} {f : ℕ → M L β} (hE : E .overflow)
    (h : Triple (· = rt) (f (n + 1)) R E) : Triple (· = rt) (incr n >>= f) R E := by
  refine Triple.ofOption_bind (fun a ha => ?_) fun _ => hE
  split_ifs at ha
  exact Option.some.inj ha ▸ h

theorem decr_bind {n : ℕ} {f : ℕ → M L β} (hE : E .overflow)
    (h : Triple (· = rt) (f (n - 1)) R E) : Triple (· = rt) (decr n >>= f) R E := by
  refine Triple.ofOption_bind (fun a ha => ?_) fun _ => hE
  split_ifs at ha
  exact Option.some.inj ha ▸ h

theorem record_spec (entry : Entry L) : Triple (· = rt) (record entry)
    (fun _ rt' => rt'.view = rt.view.push entry) E := by
  refine Triple.update ?_
  rintro _ rfl
  rfl

end

section

variable {E : Panic → Prop} (hE : ∀ e, e ≠ .arena → E e) {rt : Runtime L}

include hE

theorem nextOpId_spec : Triple (· = rt) (nextOpId : M L NonZeroU64)
    (fun id rt' => id = rt.nextOpId ∧ rt.nextOpId < maxOpId ∧
      rt'.view = { rt.view with nextOpId := rt.nextOpId + 1 }) E := by
  unfold nextOpId
  refine Triple.get_bind (Triple.ite (fun h => ?_) fun _ => Triple.throw fun _ _ => hE _ (by simp))
  refine Triple.modify_bind (Triple.pure ?_)
  rintro _ rfl
  exact ⟨rfl, h, rfl⟩

theorem allocOpSlot_spec : Triple (· = rt) (allocOpSlot : M L ℕ)
    (fun _ rt' => rt'.view = rt.view) E := by
  unfold allocOpSlot
  refine Triple.get_bind (incr_bind (hE _ (by simp)) (Triple.modify_bind ?_))
  refine Triple.ite (fun _ => ?_) fun _ => ?_
  · refine ioSlot_bind (hE _ (by simp)) fun slot _ => ?_
    refine Triple.ofExcept_bind (fun next _ => ?_) fun e he => hE e ?_
    · refine Triple.modify_bind (Triple.pure ?_)
      rintro _ rfl
      rfl
    · rintro rfl
      exact IoSlot.freeNext_ne he
  · refine Triple.modify_bind (Triple.pure ?_)
    rintro _ rfl
    exact view_pushIoSlot _ _

theorem freeOpSlotTaken_spec (i : ℕ) : Triple (· = rt) (freeOpSlotTaken i : M L Unit)
    (fun _ rt' => rt'.view = rt.view.setOp i none) E := by
  unfold freeOpSlotTaken
  refine Triple.get_bind (decr_bind (hE _ (by simp)) (Triple.modify_bind ?_))
  refine ioSlot_bind (hE _ (by simp)) fun slot hs => ?_
  refine Triple.ofExcept_bind (fun slot' hslot => ?_) fun e he => hE e ?_
  · refine Triple.modify_bind (Triple.update ?_)
    rintro _ rfl
    have hnone : slot'.view = none := by simp [IoSlot.view, IoSlot.pushFree_eq hslot, isFree]
    rw [← hnone]
    exact view_setIoSlot hs slot'
  · rintro rfl
    exact IoSlot.pushFree_ne he

theorem freeOpSlot_spec (i : ℕ) : Triple (· = rt) (freeOpSlot i : M L Unit)
    (fun _ rt' => rt'.view = rt.view.setOp i none) E := by
  unfold freeOpSlot
  refine ioSlot_bind (hE _ (by simp)) fun slot hs => ?_
  refine Triple.ofOption_bind (fun loc _ => ?_) fun _ => hE _ (by simp)
  refine Triple.modify_bind ((freeOpSlotTaken_spec hE i).post fun _ rt' h => ?_)
  rw [h, view_setIoSlot hs, View.setOp_setOp]

theorem allocCancelSlot_spec : Triple (· = rt) (allocCancelSlot : M L ℕ)
    (fun _ rt' => rt'.view = rt.view) E := by
  unfold allocCancelSlot
  refine Triple.get_bind (incr_bind (hE _ (by simp)) (Triple.modify_bind ?_))
  refine Triple.ite (fun _ => ?_) fun _ => ?_
  · refine cancelSlot_bind (hE _ (by simp)) fun slot _ => ?_
    refine Triple.ofExcept_bind (fun next _ => ?_) fun e he => hE e ?_
    · refine Triple.modify_bind (Triple.pure ?_)
      rintro _ rfl
      rfl
    · rintro rfl
      exact CancelSlot.freeNext_ne he
  · refine Triple.modify_bind (Triple.pure ?_)
    rintro _ rfl
    exact view_pushCancelSlot _ _

theorem freeCancelSlot_spec (j : ℕ) : Triple (· = rt) (freeCancelSlot j : M L Unit)
    (fun _ rt' => rt'.view = rt.view.setCancel j none) E := by
  unfold freeCancelSlot
  refine Triple.get_bind (decr_bind (hE _ (by simp)) (Triple.modify_bind ?_))
  refine cancelSlot_bind (hE _ (by simp)) fun slot hs => ?_
  refine Triple.ofExcept_bind (fun slot' hslot => ?_) fun e he => hE e ?_
  · refine Triple.modify_bind (Triple.update ?_)
    rintro _ rfl
    have hnone : slot'.view = none := by simp [CancelSlot.view, CancelSlot.pushFree_eq hslot, isFree]
    rw [← hnone]
    exact view_setCancelSlot hs slot'
  · rintro rfl
    exact CancelSlot.pushFree_ne he

/-- A live cancel hands over its local; nothing else changes. -/
theorem takeCancelLocal_spec {j : ℕ} {c : LiveCancel L} (hc : rt.view.cancel j = some c) :
    Triple (· = rt) (takeCancelLocal j : M L (ℕ × L))
      (fun loc rt' => c.loc = some loc ∧
        rt'.view = rt.view.setCancel j (some { c with loc := none })) E := by
  unfold takeCancelLocal
  refine cancelSlot_bind (hE _ (by simp)) fun slot hs => ?_
  refine Triple.ofExcept_bind (fun r hr => ?_) fun e he => hE e ?_
  · obtain ⟨hl, hr⟩ := CancelSlot.takeLocal_eq hr
    refine Triple.modify_bind (Triple.pure ?_)
    rintro _ rfl
    rw [view_cancel hs] at hc
    unfold CancelSlot.view at hc
    split_ifs at hc with hf
    obtain rfl := Option.some.inj hc
    refine ⟨hl, ?_⟩
    rw [view_setCancelSlot hs, hr]
    simp [CancelSlot.view, hf]
  · rintro rfl
    exact CancelSlot.takeLocal_ne he

theorem freeCancelSlotDroppingLocal_spec {j : ℕ} {c : LiveCancel L}
    (hc : rt.view.cancel j = some c) :
    Triple (· = rt) (freeCancelSlotDroppingLocal j : M L Unit)
      (fun _ rt' => ∃ loc, c.loc = some loc ∧
        rt'.view = (rt.view.setCancel j none).push (.cancelDropped loc.1)) E := by
  unfold freeCancelSlotDroppingLocal
  refine (takeCancelLocal_spec hE hc).bind_eq fun loc rt₁ h₁ => ?_
  obtain ⟨hloc, hv₁⟩ := h₁
  refine (freeCancelSlot_spec hE j).bind_eq fun _ rt₂ hv₂ => ?_
  refine (record_spec _).post fun _ rt₃ hv₃ => ⟨loc, hloc, ?_⟩
  rw [hv₃, hv₂, hv₁, View.setCancel_setCancel]

end

end Conrt.Coio
