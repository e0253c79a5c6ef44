import Conrt.Coio.Tally

/-! What becomes of every local, however a run ends. -/
namespace Conrt.Coio

open Conrt.Base

variable {L : Type}

/-- One event over a backend that may deliver anything; `none` when the runtime panics. -/
def looseStep (rt : Runtime L) (e : Event L) : Option (Runtime L) :=
  match e.exec rt with
  | .ok _ rt' => some rt'
  | .error _ _ => none

/-- A completion is taken from the backend and its slot checked. -/
def receive (slot id : ℕ) (completion : CompletedOp) : M L Unit := do
  modify fun rt => { rt with
    backend.armed := rt.backend.armed.erase (slot, id)
    backend.verdicts := (id, completion.cancelled) :: rt.backend.verdicts }
  assertNamesLive slot

/-- `complete_op` as far as the end of the cancel callback; whether there was one. -/
def cancelCallback (index : ℕ) (completion : CompletedOp) (r : Reaction L) : M L Bool := do
  match ← beginOp index completion.cancelled with
  | none => pure false
  | some b =>
    if b.pending && completion.cancelled then
      let rt ← get
      let _ ← dispatchCancelOf index b.loc r
      pure (rt.findCancelOf index).isSome
    else pure false

/-- `complete_op` as far as the end of the shim; whether there was one. -/
def shimCallback (index : ℕ) (completion : CompletedOp) (r : Reaction L) : M L Bool := do
  match ← settleOp index completion r with
  | none => pure false
  | some (b, loc) =>
    freeOpSlotTaken index
    let outcome := if b.pending && completion.cancelled then .cancelled
      else .completed completion.result completion.flags
    runShim b.id b.shim b.run outcome b.done loc completion.cls r.shimCalls
    pure true

/-- How a run ends: between two events (with the loop, a backend error or a panic outside callbacks),
in a call made during an event, or in a callback that panics after the calls it has made. -/
inductive Ending (L : Type)
  | between
  | within (e : Event L)
  | cancelPanics (slot id : ℕ) (completion : CompletedOp) (r : Reaction L)
  | shimPanics (slot id : ℕ) (completion : CompletedOp) (r : Reaction L)

/-- What the ending leaves for `Drop for Runtime`; `none` if it cannot happen. -/
def Ending.leaves (rt : Runtime L) : Ending L → Option (Runtime L)
  | .between => some rt
  | .within e =>
    match e.exec rt with
    | .ok _ _ => none
    | .error _ rt' => some rt'
  | .cancelPanics slot id completion r =>
    match (receive slot id completion >>= fun _ => cancelCallback slot completion r) rt with
    | .ok true rt' => some rt'
    | _ => none
  | .shimPanics slot id completion r =>
    match (receive slot id completion >>= fun _ => shimCallback slot completion r) rt with
    | .ok true rt' => some rt'
    | _ => none

/-- A cancel callback panics, by itself or in a call it makes. -/
def Ending.inCancelCallback (rt : Runtime L) : Ending L → Bool
  | .within (.op slot id completion r) =>
    match receive slot id completion rt with
    | .ok _ rt₁ =>
      match cancelCallback slot completion r rt₁ with
      | .ok _ _ => false
      | .error _ _ => true
    | .error _ _ => false
  | .cancelPanics .. => true
  | _ => false

/-- How often the local of op `id` has been given away or dropped in the end: by its refused
registration, by its shim, with the frame it was moved into if no shim was given it, and by the
teardown of each live slot. -/
def Runtime.spentOp (rt : Runtime L) (id : ℕ) : ℕ :=
  refusedCount id rt.log + shimCount id rt.log + (takenCount id rt.log - shimCount id rt.log) +
    rt.ioSlab.countP fun slot => !isFree slot.id && idBits slot.id == id

/-- The same of the local of the `cancel` call `k`. -/
def Runtime.spentCancel (rt : Runtime L) (k : ℕ) : ℕ :=
  ranCount k rt.log + droppedCount k rt.log +
    rt.cancelSlab.countP fun slot => !isFree slot.id && slot.loc.any (·.1 == k)

/-- Ids and call numbers name one local each, which is spent once, and the teardown drops no local
that has been moved out. A call that panics has not stored its local yet. -/
structure Runtime.Linear (rt : Runtime L) : Prop where
  ids : ∀ id, registeredCount id rt.log + refusedCount id rt.log ≤ 1
  ops : ∀ id, rt.spentOp id = registeredCount id rt.log + refusedCount id rt.log
  calls : ∀ k, callCount k rt.log ≤ 1
  cancels : ∀ k, rt.spentCancel k = callCount k rt.log
  ownedOps : ∀ slot ∈ rt.ioSlab, isFree slot.id = false → slot.loc.isSome = true
  ownedCancels : ∀ slot ∈ rt.cancelSlab, isFree slot.id = false → slot.loc.isSome = true

section

variable {rt : Runtime L} {i j : ℕ} {o : LiveOp L} {c : LiveCancel L}

theorem view_op_eq_some (h : rt.view.op i = some o) : ∃ slot, rt.ioSlab[i]? = some slot ∧
    isFree slot.id = false ∧ o.id = idBits slot.id ∧ o.loc = slot.loc := by
  obtain ⟨slot, hs, hslot⟩ := Option.bind_eq_some_iff.mp h
  unfold IoSlot.view at hslot
  split_ifs at hslot with hf
  obtain rfl := Option.some.inj hslot
  exact ⟨slot, hs, by simpa using hf, rfl, rfl⟩

theorem view_op_of_slot {slot : IoSlot L} (hs : rt.ioSlab[i]? = some slot)
    (hf : isFree slot.id = false) :
    ∃ o, rt.view.op i = some o ∧ o.id = idBits slot.id ∧ o.loc = slot.loc := by
  refine ⟨⟨idBits slot.id, isCancelPending slot.id, slot.body, slot.loc, slot.takeBufRun.1⟩, ?_, rfl,
    rfl⟩
  rw [view_op hs, IoSlot.view, hf]
  rfl

private theorem view_cancel_eq_some (h : rt.view.cancel j = some c) :
    ∃ slot, rt.cancelSlab[j]? = some slot ∧ isFree slot.id = false ∧ c.loc = slot.loc := by
  obtain ⟨slot, hs, hslot⟩ := Option.bind_eq_some_iff.mp h
  unfold CancelSlot.view at hslot
  split_ifs at hslot with hf
  obtain rfl := Option.some.inj hslot
  exact ⟨slot, hs, by simpa using hf, rfl⟩

theorem view_cancel_of_slot {slot : CancelSlot L} (hs : rt.cancelSlab[j]? = some slot)
    (hf : isFree slot.id = false) : ∃ c, rt.view.cancel j = some c ∧ c.loc = slot.loc := by
  refine ⟨⟨slot.id, slot.target, slot.targetId, slot.body, slot.loc⟩, ?_, rfl⟩
  rw [view_cancel hs, CancelSlot.view, hf]
  rfl

end

section

variable {rt : Runtime L} {loose looseC : List ℕ}

theorem Slabs.ownedOps (h : Slabs False loose [] looseC [] rt) {slot : IoSlot L}
    (hs : slot ∈ rt.ioSlab) (hf : isFree slot.id = false) : slot.loc.isSome = true := by
  obtain ⟨i, hi⟩ := List.getElem?_of_mem hs
  have hfit := (h.ops.each i slot hi).live (IoSlot.link_none hf)
  simpa using hfit.2.2.2

theorem Slabs.ownedCancels (h : Slabs False loose [] looseC [] rt) {slot : CancelSlot L}
    (hs : slot ∈ rt.cancelSlab) (hf : isFree slot.id = false) : slot.loc.isSome = true := by
  obtain ⟨j, hj⟩ := List.getElem?_of_mem hs
  have hfit := (h.cancels.each j slot hj).live (CancelSlot.link_none hf)
  simpa using hfit.2.2

private theorem Slabs.spentOp_eq (h : Slabs False loose [] looseC [] rt) (ht : rt.view.OpTally) (id : ℕ) :
    rt.spentOp id = registeredCount id rt.log + refusedCount id rt.log := by
  unfold Runtime.spentOp
  by_cases hlive : ∃ i o, rt.view.op i = some o ∧ o.id = id
  · obtain ⟨i, o, ho, rfl⟩ := hlive
    obtain ⟨slot, hs, hf, hid, hloc⟩ := view_op_eq_some ho
    have htorn : rt.ioSlab.countP (fun slot => !isFree slot.id && idBits slot.id == o.id) = 1 := by
      apply countP_eq_one hs (by simp [hf, hid])
      intro j t hj hp
      simp only [Bool.and_eq_true, Bool.not_eq_true', beq_iff_eq] at hp
      obtain ⟨p, hp', hpid, -⟩ := view_op_of_slot hj hp.1
      exact ht.inj j i p o hp' ho (hpid.trans hp.2)
    obtain ⟨hreg, hshim, htaken⟩ := ht.live i o ho
    rw [hloc, h.ownedOps (List.mem_of_getElem? hs) hf, if_pos rfl] at htaken
    change registeredCount o.id rt.log = 1 at hreg
    change shimCount o.id rt.log = 0 at hshim
    change takenCount o.id rt.log = 0 at htaken
    rw [htorn, hreg, hshim, htaken]
    omega
  · have htorn : rt.ioSlab.countP (fun slot => !isFree slot.id && idBits slot.id == id) = 0 := by
      apply List.countP_eq_zero.mpr
      intro slot hs hp
      obtain ⟨i, hi⟩ := List.getElem?_of_mem hs
      simp only [Bool.and_eq_true, Bool.not_eq_true', beq_iff_eq] at hp
      obtain ⟨o, ho, hid, -⟩ := view_op_of_slot hi hp.1
      exact hlive ⟨i, o, ho, hid.trans hp.2⟩
    have hgone : takenCount id rt.log = registeredCount id rt.log :=
      ht.gone id fun i o ho hid => hlive ⟨i, o, ho, hid⟩
    have hle : shimCount id rt.log ≤ takenCount id rt.log := ht.shims id
    omega

private theorem spentCancel_eq (ht : rt.view.CancelTally) (k : ℕ) :
    rt.spentCancel k = callCount k rt.log := by
  unfold Runtime.spentCancel
  by_cases hheld : ∃ j c l, rt.view.cancel j = some c ∧ c.loc = some (k, l)
  · obtain ⟨j, c, l, hc, hl⟩ := hheld
    obtain ⟨slot, hs, hf, hloc⟩ := view_cancel_eq_some hc
    have htorn : rt.cancelSlab.countP (fun slot => !isFree slot.id && slot.loc.any (·.1 == k)) =
        1 := by
      apply countP_eq_one hs (by simp [hf, ← hloc, hl])
      intro j' t hj' hp
      simp only [Bool.and_eq_true, Bool.not_eq_true', Option.any_eq_true, beq_iff_eq] at hp
      obtain ⟨hfree, ⟨k', l'⟩, hl', rfl⟩ := hp
      obtain ⟨c', hc', hloc'⟩ := view_cancel_of_slot hj' hfree
      exact ht.apart j' j c' c k' l' l hc' hc (hloc'.trans hl') hl
    obtain ⟨k', l', hl', -, hone, hran, hdropped⟩ := ht.held j c hc
    obtain ⟨rfl, -⟩ := Prod.mk.inj (Option.some.inj (hl'.symm.trans hl))
    change callCount k' rt.log = 1 at hone
    change ranCount k' rt.log = 0 at hran
    change droppedCount k' rt.log = 0 at hdropped
    rw [htorn, hone, hran, hdropped]
  · have htorn : rt.cancelSlab.countP (fun slot => !isFree slot.id && slot.loc.any (·.1 == k)) =
        0 := by
      apply List.countP_eq_zero.mpr
      intro slot hs hp
      obtain ⟨j, hj⟩ := List.getElem?_of_mem hs
      simp only [Bool.and_eq_true, Bool.not_eq_true', Option.any_eq_true, beq_iff_eq] at hp
      obtain ⟨hfree, ⟨k', l⟩, hl, rfl⟩ := hp
      obtain ⟨c, hc, hloc⟩ := view_cancel_of_slot hj hfree
      exact hheld ⟨j, c, l, hc, hloc.trans hl⟩
    rw [htorn, Nat.add_zero]
    exact ht.spent k fun j c l hc hl => hheld ⟨j, c, l, hc, hl⟩

/-- With every live slot holding its local, the teardown spends what is left. -/
theorem Slabs.linear (h : Slabs False loose [] looseC [] rt) (ht : rt.view.Tally) : rt.Linear where
  ids := ht.ops.once
  ops := h.spentOp_eq ht.ops
  calls := ht.cancels.single
  cancels := spentCancel_eq ht.cancels
  ownedOps := fun _ hs hf => h.ownedOps hs hf
  ownedCancels := fun _ hs hf => h.ownedCancels hs hf

/-- A live slot whose local is out has it dropped again. -/
theorem Slabs.not_linear {i : ℕ} {out : List ℕ} (h : Slabs False loose (i :: out) looseC [] rt) :
    ¬ rt.Linear := by
  intro hlin
  obtain ⟨slot, hs, hl⟩ := h.ops.used i List.mem_cons_self
  obtain ⟨hid, -, -, hloc⟩ := (h.ops.each i slot hs).live hl
  rw [decide_eq_true List.mem_cons_self] at hloc
  have howned := hlin.ownedOps slot (List.mem_of_getElem? hs) (isFree_of_idBits hid)
  rw [hloc] at howned
  cases howned

end

/-- The local of op `id` is out of slot `i`, which is still live. -/
structure View.InHand (i id : ℕ) (v : View L) : Prop where
  tally : v.Tally
  busy : ∃ o, v.op i = some o ∧ o.id = id ∧ o.loc = none

section

variable {v v' : View L} {i id : ℕ} {rt : Runtime L} {o : LiveOp L}

/-- No panic is excluded, and what is shown is of the runs that return. -/
theorem any_panic : ∀ e : Panic, e ≠ .arena → True := fun _ _ => trivial

theorem View.Tally.setArena (h : v.Tally) (arena : BufArena) : View.Tally { v with arena := arena } :=
  ⟨h.ops.frame rfl (List.append_nil _).symm (by simp) le_rfl,
    h.cancels.frame rfl (List.append_nil _).symm (by simp) le_rfl⟩

theorem View.Tally.setBackend (h : v.Tally) (backend : Ledger) :
    View.Tally { v with backend := backend } :=
  ⟨h.ops.frame rfl (List.append_nil _).symm (by simp) le_rfl,
    h.cancels.frame rfl (List.append_nil _).symm (by simp) le_rfl⟩

/-- A live cancel gives up its local. -/
theorem View.Tally.close (h : v.Tally) {j : ℕ} {c : LiveCancel L} (hj : v.cancel j = some c)
    {loc : ℕ × L} (hl : c.loc = some loc) {entry : Entry L} (hk : entry.call? = some loc.1)
    (hcall : entry.isCallOf loc.1 = false) (hop : entry.op? = none) :
    ((v.setCancel j none).push entry).Tally :=
  ⟨h.ops.frame rfl rfl (by simpa using hop) le_rfl, h.cancels.close hj hl hk hcall⟩

/-- A live op may change its mark. -/
theorem View.Tally.mark (h : v.Tally) (ho : v.op i = some o) (pending : Bool) :
    (v.setOp i (some { o with pending := pending })).Tally :=
  ⟨h.ops.setOp ho rfl rfl, h.cancels.frame rfl (List.append_nil _).symm (by simp) le_rfl⟩

namespace View.InHand

theorem effect (h : v.InHand i id) {call : Call L} (he : call.Effect v v') : v'.InHand i id := by
  obtain ⟨o, ho, hid, hloc⟩ := h.busy
  refine ⟨h.tally.effect he, ?_⟩
  cases call with
  | register shim done loc cls bufs accepted =>
    obtain ⟨run, arena, -, -, ⟨-, j, hj, rfl⟩ | ⟨-, arena', -, rfl⟩⟩ := he
    · have hij : i ≠ j := by
        rintro rfl
        rw [hj] at ho
        cases ho
      exact ⟨o, by rw [View.register_op, if_neg hij]; exact ho, hid, hloc⟩
    · exact ⟨o, ho, hid, hloc⟩
  | cancel op loc done accepted =>
    rcases he with ⟨-, rfl⟩ | ⟨-, rfl⟩ | ⟨-, j, p, hp, -, -, -, -, rfl⟩
    · exact ⟨o, ho, hid, hloc⟩
    · exact ⟨o, ho, hid, hloc⟩
    · by_cases hi : i = op.slot
      · rw [hi] at ho ⊢
        obtain rfl := Option.some.inj (hp.symm.trans ho)
        exact ⟨{ p with pending := true }, Function.update_self .., hid, hloc⟩
      · exact ⟨o, (Function.update_of_ne hi ..).trans ho, hid, hloc⟩

theorem close (h : v.InHand i id) {j : ℕ} {c : LiveCancel L} (hj : v.cancel j = some c)
    {loc : ℕ × L} (hl : c.loc = some loc) {entry : Entry L} (hk : entry.call? = some loc.1)
    (hcall : entry.isCallOf loc.1 = false) (hop : entry.op? = none) :
    ((v.setCancel j none).push entry).InHand i id :=
  ⟨h.tally.close hj hl hk hcall hop, h.busy⟩

theorem clear (h : v.InHand i id) (ho : v.op i = some o) :
    (v.setOp i (some { o with pending := false })).InHand i id := by
  obtain ⟨p, hp, hid, hloc⟩ := h.busy
  obtain rfl := Option.some.inj (ho.symm.trans hp)
  exact ⟨h.tally.mark ho false, _, Function.update_self .., hid, hloc⟩

private theorem ne_zero (h : v.InHand i id) (ho : v.op i = some o) : o.id ≠ 0 :=
  Nat.pos_iff_ne_zero.mp (h.tally.ops.ids i o ho)

/-- The slot is freed. -/
theorem free (h : v.InHand i id) : (v.setOp i none).Tally ∧ takenCount id v.log = 1 ∧
    shimCount id v.log = 0 ∧ ∀ j p, (v.setOp i none).op j = some p → p.id ≠ id := by
  obtain ⟨o, ho, hid, hloc⟩ := h.busy
  obtain ⟨hops, htaken, hshim⟩ := h.tally.ops.free ho hloc
  rw [hid] at htaken hshim
  refine ⟨⟨hops, h.tally.cancels.frame rfl (List.append_nil _).symm (by simp) le_rfl⟩, htaken,
    hshim, ?_⟩
  intro j p hp hpid
  rw [View.setOp_op] at hp
  split_ifs at hp with hj
  exact hj (h.tally.ops.inj j i p o hp ho (hpid.trans hid.symm))

/-- The slot is freed and the shim runs. -/
theorem finish (h : v.InHand i id) (shim : ℕ) (args : OpShimArgs L) (arena : BufArena) :
    View.Tally ({ v.setOp i none with arena := arena }.push (.shim id shim args)) := by
  obtain ⟨ht, htaken, hshim, hno⟩ := h.free
  have hfreed := ht.setArena arena
  exact ⟨hfreed.ops.shim htaken hshim hno, hfreed.cancels.push rfl⟩

end View.InHand

theorem beginOp_tally (h : rt.view.Tally) (cancelled : Bool) : Triple (· = rt)
    (beginOp i cancelled) (fun b rt' => match b with
      | none => rt'.view.Tally
      | some b => rt'.view.InHand i b.id) fun _ => True := by
  unfold beginOp
  apply Triple.get_bind
  cases hs : rt.ioSlab[i]? with
  | none =>
    apply Triple.pure
    rintro _ rfl
    exact h
  | some slot =>
    refine Triple.ite (fun _ => Triple.pure ?_) fun hf => ?_
    · rintro _ rfl
      exact h
    have hfree : isFree slot.id = false := by simpa using hf
    cases hbody : slot.body with
    | free _ => exact fun _ _ => trivial
    | live shim done =>
      obtain ⟨o, ho, hid, -⟩ := view_op_of_slot hs hfree
      refine (takeBufRun_spec any_panic ho).bind_eq fun run rt₁ h₁ => ?_
      have ho₁ : rt₁.view.op i = some { o with run := none } := by
        rw [h₁.2]
        exact Function.update_self ..
      refine (takeLocal_spec any_panic ho₁).bind_eq fun loc rt₂ h₂ => ?_
      obtain ⟨hloc, hv₂⟩ := h₂
      rw [h₁.2, View.setOp_setOp] at hv₂
      refine (record_spec _).bind_eq fun _ rt₃ hv₃ => Triple.pure ?_
      rintro _ rfl
      rw [hv₃, hv₂, ← hid]
      have hheld : o.loc.isSome = true := by
        rw [show o.loc = some loc from hloc]
        rfl
      refine ⟨⟨h.ops.take ho hheld none cancelled, ?_⟩, ⟨_, Function.update_self .., rfl, rfl⟩⟩
      exact h.cancels.frame rfl rfl (by simp [Entry.call?]) le_rfl

private theorem settleCancel_inHand {pending cancelled : Bool} {loc : L} {r : Reaction L}
    (h : rt.view.InHand i id) : Triple (· = rt) (settleCancel i pending cancelled loc r)
      (fun _ rt' => rt'.view.InHand i id) fun _ => True := by
  obtain ⟨o, ho, -, -⟩ := h.busy
  have hclear : ∀ (l : L) (rt₁ : Runtime L), rt₁.view.InHand i id →
      Triple (· = rt₁) (clearPending i >>= fun _ => pure l)
        (fun _ rt' => rt'.view.InHand i id) fun _ => True := by
    intro l rt₁ h₁
    obtain ⟨p, hp, -, -⟩ := h₁.busy
    refine (clearPending_spec any_panic hp (h₁.ne_zero hp)).bind_eq fun _ rt₂ h₂ => Triple.pure ?_
    rintro _ rfl
    rw [h₂]
    exact h₁.clear hp
  unfold settleCancel
  refine Triple.ite (fun _ => Triple.ite (fun _ => ?_) fun _ => ?_) fun _ => Triple.pure ?_
  · have hran : Triple (· = rt) (dispatchCancelOf i loc r)
        (fun _ rt' => rt'.view.InHand i id) fun _ => True := by
      apply (dispatchCancelOf_rule any_panic ho loc (I := fun _ v => v.InHand i id) ?_ ?_).post
      · rintro l rt' (⟨-, rfl, -⟩ | h')
        · exact h
        · exact h'
      · intro j c cl cdone hj _ _ _ hl
        exact h.close hj hl rfl rfl rfl
      · intro l
        exact CallsKeep.of_effect any_panic (fun v _ => any_safe v.arena)
          fun call _ v v' hv he => hv.effect he
    exact hran.bind_eq fun l rt₁ h₁ => hclear l rt₁ h₁
  · have hdropped : Triple (· = rt) (dropCancelOf i)
        (fun _ rt' => rt'.view.InHand i id) fun _ => True := by
      apply (dropCancelOf_spec any_panic ho).post
      rintro _ rt' (⟨rfl, -⟩ | ⟨j, c, cl, hj, -, -, hl, hv⟩)
      · exact h
      · rw [hv]
        exact h.close hj hl rfl rfl rfl
    exact hdropped.bind_eq fun _ rt₁ h₁ => hclear loc rt₁ h₁
  · rintro _ rfl
    exact h

theorem settleOp_tally (h : rt.view.Tally) (completion : CompletedOp) (r : Reaction L) :
    Triple (· = rt) (settleOp i completion r) (fun s rt' => match s with
      | none => rt'.view.Tally
      | some (b, _) => rt'.view.InHand i b.id) fun _ => True := by
  unfold settleOp
  refine (beginOp_tally h completion.cancelled).bind_eq fun b rt₁ h₁ => ?_
  cases b with
  | none =>
    apply Triple.pure
    rintro _ rfl
    exact h₁
  | some b =>
    refine (settleCancel_inHand h₁).bind_eq fun loc rt₂ h₂ => Triple.pure ?_
    rintro _ rfl
    exact h₂

theorem completeCancel_tally (h : rt.view.Tally) {j : ℕ} {result : ℤ} : Triple (· = rt)
    (completeCancel j result) (fun _ rt' => rt'.view.Tally) fun _ => True := by
  refine (completeCancel_spec any_panic).post fun _ rt' hv => ?_
  rcases hv with ⟨-, hv⟩ | ⟨c, loc, v, hj, -, hl, hv₁, h₁⟩
  · rw [hv]
    exact h
  · have hclosed : v.Tally := by
      rw [hv₁]
      exact h.close hj hl rfl rfl rfl
    rcases h₁ with ⟨o, hop, -, -, hv⟩ | ⟨-, hv⟩
    · have hop' : v.op c.target = some o := by
        rw [hv₁]
        exact hop
      rw [hv]
      exact hclosed.mark hop' false
    · rw [hv]
      exact hclosed

end

/-- What every state between events keeps. -/
structure Runtime.Owned (rt : Runtime L) : Prop where
  slabs : Slabs False [] [] [] [] rt
  tally : rt.view.Tally

section

variable {rt rt' : Runtime L} {i id : ℕ} {completion : CompletedOp} {r : Reaction L}

theorem Runtime.Owned.linear (h : rt.Owned) : rt.Linear := h.slabs.linear h.tally

/-- The locals of a run that panics in calls no cancel callback makes are where they should be. -/
theorem linear_of_stalled {loose looseC : List ℕ} {v : View L} (hv : v.Tally)
    (hs : Slabs False loose [] looseC [] rt) (hst : Stalled v rt.view) : rt.Linear :=
  hs.linear (hv.stalled hst)

theorem outside_ends (h : rt.Owned) (calls : List (Call L)) :
    Ends (· = rt) (forEach Call.exec calls) (fun _ rt' => rt'.Owned) Runtime.Linear := by
  have hcalls := calls_ends (F := Runtime.Linear) (I := View.Tally) h.slabs
    (fun hp : False => absurd hp id) h.tally (fun call (_ : call ∈ calls) v v' hv he => hv.effect he)
    fun _ _ v rt' hv hs hst _ => linear_of_stalled hv hs hst
  exact hcalls.post fun _ _ h' => ⟨h'.1, h'.2⟩

theorem receive_ends (h : rt.Owned) :
    Ends (· = rt) (receive i id completion) (fun _ rt' => rt'.Owned) Runtime.Linear := by
  have hset : Runtime.Owned { rt with
      backend.armed := rt.backend.armed.erase (i, id)
      backend.verdicts := (id, completion.cancelled) :: rt.backend.verdicts } :=
    ⟨⟨h.slabs.ops, h.slabs.cancels, h.slabs.asked⟩, h.tally.setBackend _⟩
  unfold receive assertNamesLive
  apply Ends.modify_bind
  cases hs : rt.ioSlab[i]? with
  | none =>
    unfold ioSlot
    rw [bind_assoc]
    apply Ends.get_bind
    rw [hs]
    rintro _ rfl
    exact hset.linear
  | some slot =>
    refine ioSlot_ends hs (Ends.ite (fun _ => Ends.throw ?_) fun _ => Ends.pure ?_)
    · rintro _ rfl
      exact hset.linear
    · rintro _ rfl
      exact hset

theorem receive_returns (h : rt.Owned) :
    Ends (· = rt) (receive i id completion) (fun _ rt' => rt'.Owned) fun _ => True :=
  (receive_ends h).weaken fun _ _ => trivial

theorem finishOp_owned (h : Slabs False [] [i] [] [] rt) {b : Begun L} (hv : rt.view.InHand i b.id)
    (completion : CompletedOp) (loc : L) : Ends (· = rt) (finishOp i completion r b loc) (fun _ rt' => rt'.Owned)
      Runtime.Linear := by
  apply (finishOp_ends (I := View.Tally) h completion b loc (fun hp => hp.elim) ?_ ?_ ?_ ?_ ?_
    ?_).post fun _ _ h' => ⟨h'.1, h'.2⟩
  · exact fun bufs outcome _ => hv.finish b.shim ⟨loc, bufs, outcome, b.done, completion.cls⟩ .new
  · exact fun call _ v v' hv he => hv.effect he
  · exact fun v arena hv => hv.setArena arena
  · intro _ rt' hs hview
    apply hs.linear
    rw [hview]
    exact hv.free.1.setArena .new
  · exact fun _ _ v rt' hv hs hst _ => linear_of_stalled hv hs hst
  · exact fun _ rt' _ hv hs => hs.linear hv

theorem completeOp_owned (h : rt.Owned) :
    Ends (· = rt) (completeOp i completion r) (fun _ rt' => rt'.Owned) fun _ => True := by
  rw [completeOp_eq]
  have hsettle := (settleOp_ends (i := i) (F := fun _ => True) h.slabs completion (r := r)
    (fun hp => hp.elim) fun _ _ _ _ _ => trivial).and (settleOp_tally h.tally completion r)
  refine hsettle.bind_eq fun s rt₁ h₁ => ?_
  cases s with
  | none =>
    apply Ends.pure
    rintro _ rfl
    exact ⟨h₁.1, h₁.2⟩
  | some s => exact (finishOp_owned h₁.1.2 h₁.2 completion s.2).weaken fun _ _ => trivial

theorem exec_op_eq : (Event.op i id completion r).exec =
    receive i id completion >>= fun _ => completeOp i completion r := by
  unfold Event.exec receive
  simp only [bind_assoc]

theorem exec_cancel_ends (h : rt.Owned) {targetId : ℕ} {result : ℤ} :
    Ends (· = rt) (Event.cancel i id targetId result).exec (fun _ rt' => rt'.Owned)
      Runtime.Linear := by
  have hset : Runtime.Owned { rt with
      backend.cancels := rt.backend.cancels.erase (i, id, targetId)
      backend.verdicts := (targetId, decide (result = 0)) :: rt.backend.verdicts } :=
    ⟨⟨h.slabs.ops, h.slabs.cancels, fun k id' t hk =>
      h.slabs.asked k id' t (List.mem_of_mem_erase hk)⟩, h.tally.setBackend _⟩
  unfold Event.exec
  apply Ends.modify_bind
  cases hs : rt.cancelSlab[i]? with
  | none =>
    unfold cancelSlot
    rw [bind_assoc]
    apply Ends.get_bind
    rw [hs]
    rintro _ rfl
    exact hset.linear
  | some slot =>
    refine cancelSlot_ends (by exact hs) ?_
    have hends := (completeCancel_ends (F := Runtime.Linear) (j := i) hset.slabs result).and
      (completeCancel_tally hset.tally)
    exact hends.post fun _ _ h' => ⟨h'.1, h'.2⟩

/-- An event that returns leaves every local owned. -/
theorem exec_owned (h : rt.Owned) (e : Event L) :
    Ends (· = rt) e.exec (fun _ rt' => rt'.Owned) fun _ => True := by
  cases e with
  | outside calls => exact (outside_ends h calls).weaken fun _ _ => trivial
  | op i id completion r =>
    rw [exec_op_eq]
    exact (receive_returns h).bind_eq fun _ rt₁ h₁ => completeOp_owned h₁
  | cancel j id targetId result => exact (exec_cancel_ends h).weaken fun _ _ => trivial

theorem reaches_owned (h : Reaches looseStep (fun _ _ => True) .new rt) : rt.Owned := by
  apply h.invariant ⟨.new, .start⟩
  intro s e t hs _ hstep
  unfold looseStep at hstep
  cases hx : e.exec s with
  | ok a s' =>
    rw [hx] at hstep
    obtain rfl := Option.some.inj hstep
    exact (exec_owned hs e).ok rfl hx
  | error p s' =>
    rw [hx] at hstep
    cases hstep

/-- Whenever the cancel callback has begun, its victim's local is out of a live slot. -/
theorem cancelCallback_ends (h : rt.Owned) : Ends (· = rt) (cancelCallback i completion r)
    (fun ran rt' => ran = true → ¬ rt'.Linear) fun rt' => ¬ rt'.Linear := by
  unfold cancelCallback
  refine (beginOp_ends h.slabs completion.cancelled).bind_eq fun b rt₁ h₁ => ?_
  cases b with
  | none =>
    apply Ends.pure
    intro _ _ hran
    cases hran
  | some b =>
    refine Ends.ite (fun _ => ?_) fun _ => Ends.pure ?_
    · apply Ends.get_bind
      have hdispatch := dispatchCancelOf_ends (F := fun rt' => ¬ rt'.Linear) (i := i)
        (I := fun _ => True) h₁.2 b.loc (r := r) (fun hp => hp.elim) (fun _ _ _ _ _ _ => trivial)
        (fun _ _ _ _ _ _ => trivial) fun _ _ _ _ _ hs _ _ => hs.not_linear
      refine hdispatch.bind_eq fun _ rt₂ h₂ => Ends.pure ?_
      rintro _ rfl _
      exact h₂.not_linear
    · intro _ _ hran
      cases hran

/-- A cancellation that has lost is settled without a panic. -/
theorem settleCancel_returns (h : Slabs False [] [i] [] [] rt) (pending : Bool) {cancelled : Bool}
    (loc : L) (hlost : cancelled = false) :
    ∃ l rt', settleCancel i pending cancelled loc r rt = .ok l rt' := by
  have hends : Ends (· = rt) (settleCancel i pending cancelled loc r)
      (fun _ rt' => Slabs False [] [i] [] [] rt') fun _ => False := by
    unfold settleCancel
    refine Ends.ite (fun _ => Ends.ite (fun hc => ?_) fun _ => ?_) fun _ => Ends.pure ?_
    · rw [hlost] at hc
      cases hc
    · refine (dropCancelOf_ends h).bind_eq fun _ rt₁ h₁ => ?_
      refine (clearPending_ends h₁ List.mem_cons_self).bind_eq fun _ rt₂ h₂ => Ends.pure ?_
      rintro _ rfl
      exact h₂
    · rintro _ rfl
      exact h
  obtain ⟨l, rt', hs, -⟩ := hends.returns rfl
  exact ⟨l, rt', hs⟩

/-- One that has won panics just as its callback does. -/
theorem settleCancel_of_dispatch (h : Slabs False [] [i] [] [] rt) (loc : L) :
    match dispatchCancelOf i loc r rt with
    | .ok _ _ => ∃ l rt', settleCancel i true true loc r rt = .ok l rt'
    | .error e rt' => settleCancel i true true loc r rt = .error e rt' := by
  have hends := dispatchCancelOf_ends (F := fun _ => True) (i := i) (I := fun _ => True) h loc
    (r := r) (fun hp => hp.elim) (fun _ _ _ _ _ _ => trivial) (fun _ _ _ _ _ _ => trivial)
    fun _ _ _ _ _ _ _ _ => trivial
  unfold settleCancel
  rw [if_pos rfl, if_pos rfl]
  cases hd : dispatchCancelOf i loc r rt with
  | ok l rt₁ =>
    have h₁ := hends.ok rfl hd
    obtain ⟨_, rt₂, hc, -⟩ := (clearPending_ends h₁ List.mem_cons_self).returns (s := rt₁) rfl
    refine ⟨l, rt₂, ?_⟩
    rw [bind_of_ok hd, bind_of_ok hc]
    rfl
  | error e rt₁ => exact bind_of_error hd

/-- The completion of an op panics before its slot is freed just when its cancel callback does. -/
theorem settleOp_of_cancelCallback (h : rt.Owned) (completion : CompletedOp) :
    match cancelCallback i completion r rt with
    | .ok _ _ => ∃ s rt', settleOp i completion r rt = .ok s rt'
    | .error e rt' => settleOp i completion r rt = .error e rt' := by
  obtain ⟨b, rt₁, hb, h₁⟩ :=
    (beginOp_ends (i := i) h.slabs completion.cancelled).returns (s := rt) rfl
  unfold cancelCallback settleOp
  rw [bind_of_ok hb, bind_of_ok hb]
  cases b with
  | none => exact ⟨none, rt₁, rfl⟩
  | some b =>
    dsimp only at h₁ ⊢
    have hreturn : ∀ {l rt₂}, settleCancel i b.pending (b.pending && completion.cancelled) b.loc r
        rt₁ = .ok l rt₂ → ∃ s rt', (settleCancel i b.pending (b.pending && completion.cancelled) b.loc r
          >>= fun loc => pure (some (b, loc))) rt₁ = .ok s rt' := fun {l rt₂} hs =>
      ⟨some (b, l), rt₂, by rw [bind_of_ok hs]; rfl⟩
    by_cases hwon : (b.pending && completion.cancelled) = true
    · rw [if_pos hwon]
      have hsettle := settleCancel_of_dispatch (r := r) h₁.2 b.loc
      obtain ⟨hpending, -⟩ := Bool.and_eq_true_iff.mp hwon
      rw [hwon, hpending] at hreturn ⊢
      cases hd : dispatchCancelOf i b.loc r rt₁ with
      | ok l rt₂ =>
        rw [hd] at hsettle
        obtain ⟨l', rt₃, hs⟩ := hsettle
        have hcallback : (do
            let rt ← get
            let _ ← dispatchCancelOf i b.loc r
            pure (rt.findCancelOf i).isSome : M L Bool) rt₁ = .ok (rt₁.findCancelOf i).isSome rt₂ := by
          change (dispatchCancelOf i b.loc r >>= fun _ => pure (rt₁.findCancelOf i).isSome) rt₁ = _
          rw [bind_of_ok hd]
          rfl
        rw [hcallback]
        exact hreturn hs
      | error e rt₂ =>
        rw [hd] at hsettle
        have hcallback : (do
            let rt ← get
            let _ ← dispatchCancelOf i b.loc r
            pure (rt.findCancelOf i).isSome : M L Bool) rt₁ = .error e rt₂ := by
          change (dispatchCancelOf i b.loc r >>= fun _ => pure (rt₁.findCancelOf i).isSome) rt₁ = _
          rw [bind_of_error hd]
        rw [hcallback]
        exact bind_of_error hsettle
    · rw [if_neg hwon]
      obtain ⟨l, rt₂, hs⟩ := settleCancel_returns h₁.2 b.pending b.loc (r := r)
        (Bool.not_eq_true _ ▸ hwon)
      exact hreturn hs

/-- The events of an op. -/
theorem within_op_iff (h : rt.Owned) (hx : (Ending.within (.op i id completion r)).leaves rt = some rt') :
    rt'.Linear ↔ (Ending.within (.op i id completion r)).inCancelCallback rt = false := by
  simp only [Ending.leaves, exec_op_eq] at hx
  cases hr : receive i id completion rt with
  | error e rt₁ =>
    rw [bind_of_error hr] at hx
    obtain rfl := Option.some.inj hx
    exact iff_of_true ((receive_ends h).error rfl hr) (by simp [Ending.inCancelCallback, hr])
  | ok u rt₁ =>
    have h₁ := (receive_ends h).ok rfl hr
    rw [bind_of_ok hr, completeOp_eq] at hx
    have hsettle := settleOp_of_cancelCallback h₁ (i := i) (r := r) completion
    cases hc : cancelCallback i completion r rt₁ with
    | error e rt₂ =>
      rw [hc] at hsettle
      rw [bind_of_error hsettle] at hx
      obtain rfl := Option.some.inj hx
      have htorn := (cancelCallback_ends h₁).error rfl hc
      exact iff_of_false htorn (by simp [Ending.inCancelCallback, hr, hc])
    | ok ran rt₂ =>
      rw [hc] at hsettle
      obtain ⟨s, rt₃, hs⟩ := hsettle
      rw [bind_of_ok hs] at hx
      have hended := ((settleOp_ends (i := i) (F := fun _ => True) h₁.slabs completion (r := r)
        (fun hp => hp.elim) fun _ _ _ _ _ => trivial).and
          (settleOp_tally h₁.tally completion r)).ok rfl hs
      cases s with
      | none => cases hx
      | some s =>
        dsimp only at hx hended ⊢
        have hfinish := finishOp_owned hended.1.2 hended.2 (r := r) completion s.2
        cases hf : finishOp i completion r s.1 s.2 rt₃ with
        | ok _ _ =>
          rw [hf] at hx
          cases hx
        | error e rt₄ =>
          rw [hf] at hx
          obtain rfl := Option.some.inj hx
          exact iff_of_true (hfinish.error rfl hf) (by simp [Ending.inCancelCallback, hr, hc])

theorem shimCallback_ends (h : rt.Owned) : Ends (· = rt) (shimCallback i completion r)
    (fun _ rt' => rt'.Linear) fun _ => True := by
  unfold shimCallback
  have hsettle := (settleOp_ends (i := i) (F := fun _ => True) h.slabs completion (r := r)
    (fun hp => hp.elim) fun _ _ _ _ _ => trivial).and (settleOp_tally h.tally completion r)
  refine hsettle.bind_eq fun s rt₁ h₁ => ?_
  cases s with
  | none =>
    apply Ends.pure
    rintro _ rfl
    exact h₁.1.linear h₁.2
  | some s =>
    obtain ⟨⟨-, hs⟩, hv⟩ := h₁
    have hfree := (freeOpSlotTaken_ends (F := fun _ => True) hs).and (freeOpSlotTaken_spec any_panic i)
    refine hfree.bind_eq fun _ rt₂ h₂ => ?_
    obtain ⟨h₂, hv₂⟩ := h₂
    apply (runShim_ends (F := fun _ => True) (I := View.Tally) h₂ _ _ _ _ _ _ (fun hp => hp.elim)
      ?_ ?_ (fun _ => trivial) fun _ _ _ _ _ _ _ _ => trivial).bind_eq
    · intro _ rt₃ h₃
      apply Ends.pure
      rintro _ rfl
      exact h₃.1.linear h₃.2
    · intro bufs _
      rw [hv₂]
      exact hv.finish s.1.shim ⟨s.2, bufs, _, s.1.done, completion.cls⟩ .new
    · exact fun call _ v v' hv he => hv.effect he

/-- However a run ends, each local is spent once if and only if it does not end by a panic in a
cancel callback. -/
theorem unwind_linear_iff (h : Reaches looseStep (fun _ _ => True) .new rt) {x : Ending L}
    (hx : x.leaves rt = some rt') : rt'.Linear ↔ x.inCancelCallback rt = false := by
  have hown := reaches_owned h
  cases x with
  | between =>
    obtain rfl := Option.some.inj hx
    exact iff_of_true hown.linear rfl
  | within e =>
    cases e with
    | outside calls =>
      simp only [Ending.leaves] at hx
      cases hr : (Event.outside calls).exec rt with
      | ok _ _ =>
        rw [hr] at hx
        cases hx
      | error e s =>
        rw [hr] at hx
        obtain rfl := Option.some.inj hx
        exact iff_of_true ((outside_ends hown calls).error rfl hr) rfl
    | op i id completion r => exact within_op_iff hown hx
    | cancel j id targetId result =>
      simp only [Ending.leaves] at hx
      cases hr : (Event.cancel j id targetId result).exec rt with
      | ok _ _ =>
        rw [hr] at hx
        cases hx
      | error e s =>
        rw [hr] at hx
        obtain rfl := Option.some.inj hx
        exact iff_of_true ((exec_cancel_ends hown).error rfl hr) rfl
  | cancelPanics i id completion r =>
    simp only [Ending.leaves] at hx
    have hends : Ends (· = rt) (receive i id completion >>= fun _ => cancelCallback i completion r)
        (fun ran rt' => ran = true → ¬ rt'.Linear) fun _ => True :=
      (receive_returns hown).bind_eq fun _ rt₁ h₁ =>
        (cancelCallback_ends h₁).weaken fun _ _ => trivial
    split at hx
    · rename_i s hr
      obtain rfl := Option.some.inj hx
      exact iff_of_false (hends.ok rfl hr rfl) (by simp [Ending.inCancelCallback])
    · cases hx
  | shimPanics i id completion r =>
    simp only [Ending.leaves] at hx
    have hends : Ends (· = rt) (receive i id completion >>= fun _ => shimCallback i completion r)
        (fun _ rt' => rt'.Linear) fun _ => True :=
      (receive_returns hown).bind_eq fun _ rt₁ h₁ => shimCallback_ends h₁
    split at hx
    · rename_i s hr
      obtain rfl := Option.some.inj hx
      exact iff_of_true (hends.ok rfl hr) rfl
    · cases hx

end

def cancelledOnce : List (Event Unit) :=
  [.outside [.register 1 0 () 0 [] true, .register 2 0 () 0 [] true,
    .cancel ⟨0, 0, idAfter 0⟩ () 7 true]]

def mute : Reaction Unit := ⟨fun l _ => l, [], []⟩

def cancelPanic : Ending Unit := .cancelPanics 0 1 ⟨0, 0, 0, true⟩ mute

/-- Its shim panics instead, after one more registration. -/
def shimPanic : Ending Unit :=
  .shimPanics 0 1 ⟨0, 0, 0, true⟩ ⟨fun l _ => l, [], [.register 3 0 () 0 [] true]⟩

/-- The local of the cancelled op is dropped by the unwinding and again by the teardown. -/
theorem cancel_panic_drops_twice : ∃ rt rt' : Runtime Unit,
    Reaches looseStep (fun _ _ => True) .new rt ∧
      rt.backend.allows (.op 0 1 ⟨0, 0, 0, true⟩ mute) = true ∧
      cancelPanic.leaves rt = some rt' ∧ registeredCount 1 rt'.log = 1 ∧ rt'.spentOp 1 = 2 ∧
      ¬ rt'.Linear := by
  have hrun : (run looseStep .new cancelledOnce).any (fun rt =>
      rt.backend.allows (.op 0 1 ⟨0, 0, 0, true⟩ mute) &&
        (cancelPanic.leaves rt).any fun rt' =>
          registeredCount 1 rt'.log == 1 && rt'.spentOp 1 == 2 && refusedCount 1 rt'.log == 0) =
      true := by decide +kernel
  obtain ⟨rt, hrt, htest⟩ := (Option.any_eq_true _ _).mp hrun
  obtain ⟨hallows, hleft⟩ := Bool.and_eq_true_iff.mp htest
  obtain ⟨rt', hrt', hcounts⟩ := (Option.any_eq_true _ _).mp hleft
  simp only [Bool.and_eq_true, beq_iff_eq] at hcounts
  obtain ⟨⟨hreg, hspent⟩, href⟩ := hcounts
  have hreach : Reaches looseStep (fun _ _ => True) .new rt :=
    reaches_of_run (meets_of_forall fun _ _ => trivial) hrt
  refine ⟨rt, rt', hreach, hallows, hrt', hreg, hspent, fun hlin => ?_⟩
  have hops := hlin.ops 1
  omega

theorem unwind_linear_iff_shim : ∃ rt rt' : Runtime Unit,
    run looseStep .new cancelledOnce = some rt ∧ shimPanic.leaves rt = some rt' ∧
      shimCount 1 rt'.log = 1 ∧ rt'.inflightOps = 2 ∧ rt'.Linear := by
  have hrun : (run looseStep .new cancelledOnce).any (fun rt => (shimPanic.leaves rt).any fun rt' =>
      shimCount 1 rt'.log == 1 && rt'.inflightOps == 2) = true := by decide +kernel
  obtain ⟨rt, hrt, htest⟩ := (Option.any_eq_true _ _).mp hrun
  obtain ⟨rt', hrt', hcounts⟩ := (Option.any_eq_true _ _).mp htest
  obtain ⟨hshim, hops⟩ := Bool.and_eq_true_iff.mp hcounts
  have hreach : Reaches looseStep (fun _ _ => True) .new rt :=
    reaches_of_run (meets_of_forall fun _ _ => trivial) hrt
  exact ⟨rt, rt', hrt, hrt', eq_of_beq hshim, eq_of_beq hops,
    (unwind_linear_iff hreach hrt').mpr rfl⟩

end Conrt.Coio
