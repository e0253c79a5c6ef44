import Conrt.Base.Simulate
import Conrt.Coio.Interleave
import Conrt.Poll.Drain

/-! The callback runtime over the readiness backend: what each holds of the other's operations. -/
namespace Conrt.Poll

open Conrt.Base
open Conrt.Coio (Thread Control View LiveOp LiveCancel CompletedOp IoBufErased Op Received Touches deliver
  idBits isFree busy_ne call_ok nextOpSlot_eq nextCancelSlot_eq live_slot slot_of_view hasInflight_iff)

variable {L : Type}

structure Joint (L : Type) where
  thread : Thread L
  mio : Mio

namespace Joint

/-- What happens next: a call of user code, with what the kernel answers to it; the loop's wait; one
completion taken, with the answer of the syscall it may lead to and what a cancel's callback leaves of
its op's local; or the return of a callback. -/
inductive Move (L : Type)
  | register (shim done : ℕ) (loc : L) (cls : ℕ) (bufs : List IoBufErased) (req : Req)
    (refused : Option Errno)
  | cancel (op : Op) (loc : L) (done : ℕ)
  | wait (polls : List (Except Errno (List ℕ)))
  | next (perform : Req → Except Errno ℕ) (left : L → L → L)
  | leave

def start : Joint L := ⟨.start, .new⟩

/-- `register_op`: the backend is asked to arm the slot handed out. -/
def register (j : Joint L) (shim done : ℕ) (loc : L) (cls : ℕ) (bufs : List IoBufErased) (req : Req)
    (refused : Option Errno) : Option (Joint L) :=
  match j.mio.arm j.thread.rt.nextOpSlot req refused with
  | .ok mio => (j.thread.step (.call (.register shim done loc cls bufs true))).map (⟨·, mio⟩)
  | .error _ => (j.thread.step (.call (.register shim done loc cls bufs false))).map (⟨·, j.mio⟩)

/-- `cancel`: the backend is asked only about a handle that names a cancellable op. -/
def cancel (j : Joint L) (op : Op) (loc : L) (done : ℕ) : Option (Joint L) :=
  if j.thread.rt.cancellable op then
    let asked := j.mio.cancel j.thread.rt.nextCancelSlot op.slot op.cls
    (j.thread.step (.call (.cancel op loc done asked.1))).map (⟨·, asked.2⟩)
  else (j.thread.step (.call (.cancel op loc done false))).map (⟨·, j.mio⟩)

/-- `take_completion`; the ids of the requests are those of the slots the completion names. -/
def takeCompletion (t : Thread L) (c : Completion) (left : L → L → L) : Option (Thread L) :=
  if c.cancel then
    match t.rt.cancelSlab[c.slot]? with
    | none => none
    | some slot =>
      match (Coio.Event.cancel c.slot slot.id slot.targetId c.result).exec t.rt with
      | .ok _ rt => some { t with rt := rt }
      | .error _ _ => none
  else
    match t.rt.ioSlab[c.slot]? with
    | none => none
    | some slot =>
      t.after (deliver c.slot (idBits slot.id) ⟨c.result, c.flags, c.cls, c.cancelled⟩ left t.rt)

/-- The loop's turn comes when no callback runs; an error of the poller ends it. -/
def step (j : Joint L) : Move L → Option (Joint L)
  | .register shim done loc cls bufs req refused => j.register shim done loc cls bufs req refused
  | .cancel op loc done => j.cancel op loc done
  | .wait polls =>
    match j.thread.control, j.mio.wait polls with
    | .outside, some (.ok (), mio) => some { j with mio := mio }
    | _, _ => none
  | .next perform left =>
    match j.thread.control, j.mio.nextCompletion perform with
    | .outside, (none, mio) => some { j with mio := mio }
    | .outside, (some c, mio) => (takeCompletion j.thread c left).map (⟨·, mio⟩)
    | _, _ => none
  | .leave => (j.thread.step .leave).map (⟨·, j.mio⟩)

end Joint

section

variable {m m' : Mio} {slot : ℕ} {p : PendingOp}

theorem arm_at {req : Req} {refused : Option Errno} (ha : m.arm slot req refused = .ok m') :
    m'.ready = m.ready ∧ ∃ p, ∀ s, m'.at? s = if s = slot then some p else m.at? s := by
  obtain ⟨-, reg, -, rfl⟩ := Mio.arm_ok ha
  refine ⟨rfl, ⟨reg, req⟩, fun s => ?_⟩
  change (((m.grown slot).set slot (some ⟨reg, req⟩))[s]?).join = _
  rw [Mio.at?_set (Mio.grown_length m slot), Mio.grown_getElem?]

theorem takePending_at (ht : m.takePending slot = some (p, m')) :
    (m.at? slot).isSome = true ∧ m'.ready = m.ready ∧ m'.events = m.events ∧
      ∀ s, m'.at? s = if s = slot then none else m.at? s := by
  obtain ⟨hat, hevents, -, -, hready, hpending, -⟩ := take_slots ht
  have hlt := (List.getElem?_eq_some_iff.mp ((Mio.at?_eq m slot).mp hat)).1
  refine ⟨by rw [hat]; rfl, hready, hevents, fun s => ?_⟩
  unfold Mio.at?
  rw [hpending, Mio.at?_set hlt]

private theorem takePending_isSome : (m.takePending slot).isSome = (m.at? slot).isSome := by
  unfold Mio.takePending
  cases m.at? slot <;> rfl

/-- A cancelled operation leaves its slot, and two completions are decided. -/
theorem cancel_at (cancelSlot cls : ℕ) (h : (m.at? slot).isSome = true) :
    (m.cancel cancelSlot slot cls).1 = true ∧
      (∃ op, (m.cancel cancelSlot slot cls).2.ready = m.ready ++
        [⟨cancelSlot, 0, 0, 0, true, false, none⟩, ⟨slot, -ecanceled, 0, cls, false, true, some op⟩]) ∧
      ∀ s, (m.cancel cancelSlot slot cls).2.at? s = if s = slot then none else m.at? s := by
  rw [← takePending_isSome] at h
  obtain ⟨⟨p, m₁⟩, ht⟩ := Option.isSome_iff_exists.mp h
  obtain ⟨-, hready, -, hat⟩ := takePending_at ht
  unfold Mio.cancel
  rw [ht]
  refine ⟨rfl, ⟨p.reg.op, ?_⟩, hat⟩
  change (m₁.ready ++ _) ++ _ = _
  rw [hready, List.append_assoc]
  rfl

/-- What one call of `next_completion` comes to: the first decided completion, that of an operation
performed, or none. -/
inductive Taken (m : Mio) : Option Completion × Mio → Prop
  | decided (c : Completion) (ready : List Completion) (m' : Mio) (hready : m.ready = c :: ready)
    (hrest : m'.ready = ready) (hat : ∀ s, m'.at? s = m.at? s) : Taken m (some c, m')
  | performed (c : Completion) (m' : Mio) (hready : m.ready = []) (hrest : m'.ready = [])
    (hslot : (m.at? c.slot).isSome = true) (hat : ∀ s, m'.at? s = if s = c.slot then none else m.at? s)
    (hcancel : c.cancel = false) (hcancelled : c.cancelled = false) : Taken m (some c, m')
  | nothing (m' : Mio) (hrest : m'.ready = m.ready) (hat : ∀ s, m'.at? s = m.at? s) : Taken m (none, m')

theorem nextCompletion_taken (m : Mio) (perform : Req → Except Errno ℕ) :
    Taken m (m.nextCompletion perform) := by
  unfold Mio.nextCompletion
  split
  · rename_i c ready hr
    refine .decided c ready _ hr ?_ fun s => ?_
    · cases c.op <;> rfl
    · cases c.op <;> rfl
  · rename_i hr
    split
    · exact .nothing m rfl fun _ => rfl
    · rename_i token events hev
      split
      · exact .nothing m rfl fun _ => rfl
      · rename_i p m₁ ht
        obtain ⟨hsome, hready, -, hat⟩ := takePending_at ht
        split
        · exact .performed _ _ hr (hready.trans hr) hsome hat rfl rfl
        · split_ifs
          · -- the entry is back in its slot
            refine .nothing _ hready fun s => ?_
            have hold := (take_slots ht).1
            have hpending := (take_slots ht).2.2.2.2.2.1
            have hlt := (List.getElem?_eq_some_iff.mp ((Mio.at?_eq m token).mp hold)).1
            change (((m₁.pending.set token (some p))[s]?).join) = m.at? s
            rw [Mio.at?_set (by rw [hpending, List.length_set]; exact hlt)]
            split_ifs with hs
            · rw [hs, hold]
            · have hrest := hat s
              rw [if_neg hs] at hrest
              exact hrest
          · exact .performed _ _ hr (hready.trans hr) hsome hat rfl rfl

end

/-- A live op waits in the backend's slot of the same index, or is marked and its cancelled completion
is decided, once; a decided completion of a cancel comes before that of its target and finds the cancel
in its slot. `busy` is the slot being settled. -/
structure Link (busy : Option ℕ) (v : View L) (m : Mio) : Prop where
  waits : ∀ i, (m.at? i).isSome = true ↔ ∃ o, v.op i = some o ∧ o.pending = false
  decided : ∀ c ∈ m.ready, c.cancel = false →
    c.cancelled = true ∧ busy ≠ some c.slot ∧ ∃ o, v.op c.slot = some o ∧ o.pending = true
  queued : ∀ i o, v.op i = some o → o.pending = true → busy ≠ some i →
    ∃ c ∈ m.ready, c.cancel = false ∧ c.slot = i
  asked : ∀ c ∈ m.ready, c.cancel = true → c.result = 0 ∧
    ∃ k, v.cancel c.slot = some k ∧ (c.slot, k.id, k.targetId) ∈ v.backend.cancels
  once : m.ready.Pairwise fun a b => a.cancel = b.cancel → a.slot ≠ b.slot
  order : m.ready.Pairwise fun a b => a.cancel = false → b.cancel = true →
    ∀ k, v.cancel b.slot = some k → k.target ≠ a.slot

/-- What the backend has been told and has said: it owes a completion for every live op but the busy
one, has said of none of them but that its cancellation won, and has not denied one it accepted. -/
structure Told (busy : Option ℕ) (v : View L) : Prop where
  armed : ∀ i o, v.op i = some o → busy ≠ some i → (i, o.id) ∈ v.backend.armed
  spoken : ∀ i o b, v.op i = some o → busy ≠ some i → (o.id, b) ∈ v.backend.verdicts →
    b = true ∧ o.pending = true
  heard : ∀ id b, (id, b) ∈ v.backend.verdicts → id < v.nextOpId
  lost : ∀ t, (t, false) ∈ v.backend.verdicts → ∀ k done, .cancelCall k t done true ∉ v.log
  won : ∀ t, .completed t true ∈ v.log → ∃ k done, .cancelCall k t done true ∈ v.log

section

variable {busy : Option ℕ} {v v' : View L} {m m' : Mio} {i j : ℕ} {o : LiveOp L}

namespace Link

theorem start : Link none (Coio.Runtime.new : Coio.Runtime L).view Mio.new := by
  have hnone : ∀ i, (Coio.Runtime.new : Coio.Runtime L).view.op i = none := fun _ => rfl
  constructor
  case waits =>
    intro i
    constructor
    · intro h
      cases h
    · rintro ⟨o, ho, -⟩
      rw [hnone] at ho
      cases ho
  case decided =>
    intro c hc
    cases hc
  case queued =>
    intro i o ho
    rw [hnone] at ho
    cases ho
  case asked =>
    intro c hc
    cases hc
  case once => exact .nil
  case order => exact .nil

/-- Only the slots, the cancels and their requests are read. -/
theorem congr (h : Link busy v m) (hop : v'.op = v.op) (hc : v'.cancel = v.cancel)
    (hb : v'.backend.cancels = v.backend.cancels) : Link busy v' m := by
  constructor
  case waits => rw [hop]; exact h.waits
  case decided => rw [hop]; exact h.decided
  case queued => rw [hop]; exact h.queued
  case asked => rw [hc, hb]; exact h.asked
  case once => exact h.once
  case order => rw [hc]; exact h.order

/-- Of the backend only the slots and the decided completions are read. -/
theorem same (h : Link busy v m) (hready : m'.ready = m.ready) (hat : ∀ s, m'.at? s = m.at? s) :
    Link busy v m' := by
  constructor
  case waits =>
    intro i
    rw [hat]
    exact h.waits i
  case decided => rw [hready]; exact h.decided
  case queued => rw [hready]; exact h.queued
  case asked => rw [hready]; exact h.asked
  case once => rw [hready]; exact h.once
  case order => rw [hready]; exact h.order

/-- The slot of a new op holds nothing in the backend either. -/
theorem vacant (h : Link busy v m) (hi : v.op i = none) : m.vacant i = true := by
  unfold Mio.vacant
  rw [Bool.and_eq_true]
  constructor
  · rw [Option.isNone_iff_eq_none, Option.eq_none_iff_forall_ne_some]
    intro p hp
    obtain ⟨o, ho, -⟩ := (h.waits i).mp (by rw [hp]; rfl)
    rw [hi] at ho
    cases ho
  · rw [List.all_eq_true]
    intro c hc
    rw [Bool.or_eq_true, bne_iff_ne]
    cases hcancel : c.cancel with
    | true => exact .inl rfl
    | false =>
      refine .inr fun hslot => ?_
      obtain ⟨-, -, o, ho, -⟩ := h.decided c hc hcancel
      rw [hslot, hi] at ho
      cases ho

theorem register (h : Link busy v m) (hi : v.op i = none) {req : Req} {refused : Option Errno}
    (ha : m.arm i req refused = .ok m') (shim done : ℕ) (loc : L) (bufs : List IoBufErased)
    (run : Option (ℕ × ℕ)) (arena : Coio.BufArena) :
    Link busy (v.register i shim done loc bufs run arena) m' := by
  obtain ⟨hready, p, hat⟩ := arm_at ha
  have hop := v.register_op i shim done loc bufs run arena
  have hother : ∀ k o, v.op k = some o → k ≠ i := by
    rintro k o ho rfl
    rw [hi] at ho
    cases ho
  constructor
  case waits =>
    intro k
    rw [hat, hop]
    split_ifs
    · simp
    · exact h.waits k
  case decided =>
    intro c hc hcancel
    rw [hready] at hc
    obtain ⟨hwon, hbusy, o, ho, hp⟩ := h.decided c hc hcancel
    refine ⟨hwon, hbusy, o, ?_, hp⟩
    rw [hop, if_neg (hother _ o ho)]
    exact ho
  case queued =>
    intro k o ho hp hbusy
    rw [hready]
    rw [hop] at ho
    split_ifs at ho
    · obtain rfl := Option.some.inj ho
      cases hp
    · exact h.queued k o ho hp hbusy
  case asked => rw [hready]; exact h.asked
  case once => rw [hready]; exact h.once
  case order => rw [hready]; exact h.order

/-- An op that may be cancelled is still armed: its cancellation wins at once. -/
theorem acceptCancel (h : Link busy v m) {op : Op} (ho : v.op op.slot = some o)
    (hp : o.pending = false) (hj : v.cancel j = none) (hbusy : busy ≠ some op.slot) (done : ℕ) (loc : L) :
    (m.cancel j op.slot op.cls).1 = true ∧
      Link busy (v.acceptCancel j op done loc o) (m.cancel j op.slot op.cls).2 := by
  have hsome : (m.at? op.slot).isSome = true := (h.waits op.slot).mpr ⟨o, ho, hp⟩
  obtain ⟨hwon, ⟨n, hready⟩, hat⟩ := cancel_at j op.cls hsome
  have hop : ∀ k, (v.acceptCancel j op done loc o).op k =
      if k = op.slot then some { o with pending := true } else v.op k := fun _ =>
    Function.update_apply ..
  have hcan : ∀ k, (v.acceptCancel j op done loc o).cancel k =
      if k = j then some ⟨v.nextOpId, op.slot, op.id, .live done, some (v.calls, loc)⟩
        else v.cancel k := fun _ => Function.update_apply ..
  have hmarked : ∀ c ∈ m.ready, c.cancel = false → c.slot ≠ op.slot := by
    intro c hc hcancel hslot
    obtain ⟨-, -, o', ho', hp'⟩ := h.decided c hc hcancel
    rw [hslot, ho] at ho'
    rw [← Option.some.inj ho', hp] at hp'
    cases hp'
  have hfresh : ∀ c ∈ m.ready, c.cancel = true → c.slot ≠ j := by
    intro c hc hcancel hslot
    obtain ⟨-, k, hk, -⟩ := h.asked c hc hcancel
    rw [hslot, hj] at hk
    cases hk
  refine ⟨hwon, ?_⟩
  constructor
  case waits =>
    intro k
    rw [hat, hop]
    split_ifs
    · simp
    · exact h.waits k
  case decided =>
    intro c hc hcancel
    rw [hready] at hc
    rw [hop]
    rcases List.mem_append.mp hc with hold | hnew
    · obtain ⟨hc', hb, o', ho', hp'⟩ := h.decided c hold hcancel
      refine ⟨hc', hb, ?_⟩
      rw [if_neg (hmarked c hold hcancel)]
      exact ⟨o', ho', hp'⟩
    · simp only [List.mem_cons, List.not_mem_nil, or_false] at hnew
      rcases hnew with rfl | rfl
      · cases hcancel
      · refine ⟨rfl, hbusy, ?_⟩
        rw [if_pos rfl]
        exact ⟨_, rfl, rfl⟩
  case queued =>
    intro k o' ho' hp' hb
    rw [hready]
    rw [hop] at ho'
    split_ifs at ho' with hk
    · exact ⟨_, List.mem_append_right _ (List.mem_cons_of_mem _ List.mem_cons_self), rfl, hk.symm⟩
    · obtain ⟨c, hc, hcancel, hslot⟩ := h.queued k o' ho' hp' hb
      exact ⟨c, List.mem_append_left _ hc, hcancel, hslot⟩
  case asked =>
    intro c hc hcancel
    rw [hready] at hc
    rw [hcan]
    rcases List.mem_append.mp hc with hold | hnew
    · obtain ⟨hzero, k, hk, hreq⟩ := h.asked c hold hcancel
      rw [if_neg (hfresh c hold hcancel)]
      exact ⟨hzero, k, hk, List.mem_cons_of_mem _ hreq⟩
    · simp only [List.mem_cons, List.not_mem_nil, or_false] at hnew
      rcases hnew with rfl | rfl
      · rw [if_pos rfl]
        exact ⟨rfl, _, rfl, List.mem_cons_self⟩
      · cases hcancel
  case once =>
    rw [hready, List.pairwise_append]
    refine ⟨h.once, ?_, ?_⟩
    · simp
    · intro a ha b hb heq
      simp only [List.mem_cons, List.not_mem_nil, or_false] at hb
      rcases hb with rfl | rfl
      · exact hfresh a ha heq
      · exact hmarked a ha heq
  case order =>
    rw [hready, List.pairwise_append]
    refine ⟨?_, ?_, ?_⟩
    · refine h.order.imp_of_mem ?_
      intro a b ha hb hab hacancel hbcancel k hk
      rw [hcan, if_neg (hfresh b hb hbcancel)] at hk
      exact hab hacancel hbcancel k hk
    · simp
    · intro a ha b hb hacancel hbcancel k hk
      simp only [List.mem_cons, List.not_mem_nil, or_false] at hb
      rcases hb with rfl | rfl
      · rw [hcan, if_pos rfl] at hk
        obtain rfl := Option.some.inj hk
        exact (hmarked a ha hacancel).symm
      · cases hbcancel

theorem pop (h : Link busy v m) {c : Completion} {ready : List Completion}
    (hready : m.ready = c :: ready) :
    (∀ a ∈ ready, c.cancel = a.cancel → c.slot ≠ a.slot) ∧
      (∀ a ∈ ready, c.cancel = false → a.cancel = true →
        ∀ k, v.cancel a.slot = some k → k.target ≠ c.slot) ∧
      (ready.Pairwise fun a b => a.cancel = b.cancel → a.slot ≠ b.slot) ∧
      ready.Pairwise fun a b => a.cancel = false → b.cancel = true →
        ∀ k, v.cancel b.slot = some k → k.target ≠ a.slot := by
  have honce := h.once
  have horder := h.order
  rw [hready, List.pairwise_cons] at honce horder
  exact ⟨honce.1, horder.1, honce.2, horder.2⟩

/-- The completion of a cancel is handed over: its request is settled, and nothing else changes. -/
theorem answered (h : Link busy v m) {c : Completion} {ready : List Completion}
    (hready : m.ready = c :: ready) (hc : c.cancel = true) (hrest : m'.ready = ready)
    (hat : ∀ s, m'.at? s = m.at? s) (id t : ℕ) (verdicts : List (ℕ × Bool)) :
    Link busy { v with backend :=
      ⟨v.backend.armed, v.backend.cancels.erase (c.slot, id, t), verdicts⟩ } m' := by
  obtain ⟨hother, -, honce, horder⟩ := h.pop hready
  have hmem : ∀ a ∈ m'.ready, a ∈ m.ready := by
    intro a ha
    rw [hready]
    exact List.mem_cons_of_mem _ (hrest ▸ ha)
  constructor
  case waits =>
    intro i
    rw [hat]
    exact h.waits i
  case decided =>
    intro a ha
    exact h.decided a (hmem a ha)
  case queued =>
    intro i o ho hp hb
    obtain ⟨a, ha, hcancel, hslot⟩ := h.queued i o ho hp hb
    rw [hready] at ha
    rcases List.mem_cons.mp ha with rfl | ha
    · rw [hc] at hcancel
      cases hcancel
    · exact ⟨a, hrest ▸ ha, hcancel, hslot⟩
  case asked =>
    intro a ha hcancel
    obtain ⟨hzero, k, hk, hreq⟩ := h.asked a (hmem a ha) hcancel
    refine ⟨hzero, k, hk, (List.mem_erase_of_ne ?_).mpr hreq⟩
    intro heq
    exact hother a (hrest ▸ ha) (hc.trans hcancel.symm) (Prod.mk.inj heq).1.symm
  case once => rw [hrest]; exact honce
  case order => rw [hrest]; exact horder

/-- A cancelled op's completion is handed over, after that of its cancel. -/
theorem receivedDecided (h : Link none v m) {c : Completion} {ready : List Completion}
    (hready : m.ready = c :: ready) (hc : c.cancel = false) (hrest : m'.ready = ready)
    (hat : ∀ s, m'.at? s = m.at? s) (ho : v.op c.slot = some o) (hp : o.pending = true)
    (hv : Received c.slot o true v v') : Link (some c.slot) v' m' := by
  obtain ⟨hother, hbefore, honce, horder⟩ := h.pop hready
  have hmem : ∀ a ∈ m'.ready, a ∈ m.ready := by
    intro a ha
    rw [hready]
    exact List.mem_cons_of_mem _ (hrest ▸ ha)
  have hslot := hv.slot
  rw [hp, Bool.and_true, if_pos rfl] at hslot
  obtain ⟨o', ho', -, hp'⟩ := hslot
  have hback : ∀ s k, v'.cancel s = some k → v.cancel s = some k := by
    intro s k hk
    rcases hv.cancel s with heq | ⟨hnone, -⟩
    · exact heq ▸ hk
    · rw [hnone] at hk
      cases hk
  constructor
  case waits =>
    intro i
    rw [hat]
    by_cases hi : i = c.slot
    · rw [hi, h.waits]
      constructor
      · rintro ⟨p, hpo, hpp⟩
        rw [ho] at hpo
        rw [← Option.some.inj hpo, hp] at hpp
        cases hpp
      · rintro ⟨p, hpo, hpp⟩
        rw [ho'] at hpo
        rw [← Option.some.inj hpo, hp'] at hpp
        cases hpp
    · rw [hv.op i hi]
      exact h.waits i
  case decided =>
    intro a ha hcancel
    have hne : a.slot ≠ c.slot := (hother a (hrest ▸ ha) (hc.trans hcancel.symm)).symm
    obtain ⟨hwon, -, p, hpo, hpp⟩ := h.decided a (hmem a ha) hcancel
    refine ⟨hwon, fun heq => hne (Option.some.inj heq).symm, p, ?_, hpp⟩
    rw [hv.op _ hne]
    exact hpo
  case queued =>
    intro i p hpo hpp hb
    have hi : i ≠ c.slot := fun heq => hb (heq ▸ rfl)
    rw [hv.op i hi] at hpo
    obtain ⟨a, ha, hcancel, hslot⟩ := h.queued i p hpo hpp (by simp)
    rw [hready] at ha
    rcases List.mem_cons.mp ha with rfl | ha
    · exact absurd hslot.symm hi
    · exact ⟨a, hrest ▸ ha, hcancel, hslot⟩
  case asked =>
    intro a ha hcancel
    obtain ⟨hzero, k, hk, hreq⟩ := h.asked a (hmem a ha) hcancel
    refine ⟨hzero, k, ?_, by rw [hv.backend]; exact hreq⟩
    rcases hv.cancel a.slot with heq | ⟨-, k', hk', ht⟩
    · rw [heq, hk]
    · exact absurd ht (hbefore a (hrest ▸ ha) hc hcancel k' hk')
  case once => rw [hrest]; exact honce
  case order =>
    rw [hrest]
    exact horder.imp fun hab hacancel hbcancel k hk => hab hacancel hbcancel k (hback _ k hk)

/-- An operation is performed and its completion handed over; nothing was decided. -/
theorem receivedPerformed (h : Link none v m) (hready : m.ready = []) (hrest : m'.ready = [])
    (hat : ∀ s, m'.at? s = if s = i then none else m.at? s) (hp : o.pending = false)
    (hv : Received i o false v v') : Link none v' m' := by
  have hslot := hv.slot
  rw [hp, Bool.false_and, if_neg Bool.false_ne_true] at hslot
  constructor
  case waits =>
    intro k
    rw [hat]
    split_ifs with hk
    · rw [hk, hslot]
      simp
    · rw [hv.op k hk]
      exact h.waits k
  case decided =>
    intro c hc
    rw [hrest] at hc
    cases hc
  case queued =>
    intro k p hpo hpp _
    have hk : k ≠ i := by
      rintro rfl
      rw [hslot] at hpo
      cases hpo
    rw [hv.op k hk] at hpo
    obtain ⟨c, hc, -⟩ := h.queued k p hpo hpp (by simp)
    rw [hready] at hc
    cases hc
  case asked =>
    intro c hc
    rw [hrest] at hc
    cases hc
  case once =>
    rw [hrest]
    exact .nil
  case order =>
    rw [hrest]
    exact .nil

/-- The slot that was being settled is freed. -/
theorem freed (h : Link (some i) v m) (ho : v.op i = some o) (hp : o.pending = true)
    (hclear : ∀ k c, v.cancel k = some c → c.target ≠ i) (hv : Touches i v v')
    (hnone : v'.op i = none) : Link none v' m := by
  have hback : ∀ s, v'.cancel s = v.cancel s := by
    intro s
    rcases hv.cancel s with heq | ⟨-, c, hc, ht⟩
    · exact heq
    · exact absurd ht (hclear s c hc)
  constructor
  case waits =>
    intro k
    by_cases hk : k = i
    · rw [hk, hnone, h.waits, ho]
      simp [hp]
    · rw [hv.op k hk]
      exact h.waits k
  case decided =>
    intro c hc hcancel
    obtain ⟨hwon, hb, p, hpo, hpp⟩ := h.decided c hc hcancel
    refine ⟨hwon, by simp, p, ?_, hpp⟩
    rw [hv.op _ fun heq => hb (heq ▸ rfl)]
    exact hpo
  case queued =>
    intro k p hpo hpp _
    have hk : k ≠ i := by
      rintro rfl
      rw [hnone] at hpo
      cases hpo
    rw [hv.op k hk] at hpo
    exact h.queued k p hpo hpp fun heq => hk (Option.some.inj heq).symm
  case asked =>
    intro c hc hcancel
    rw [hback, hv.backend]
    exact h.asked c hc hcancel
  case once => exact h.once
  case order =>
    exact h.order.imp fun hab hacancel hbcancel k hk => hab hacancel hbcancel k (hback _ ▸ hk)

end Link

namespace Told

theorem start : Told none (Coio.Runtime.new : Coio.Runtime L).view := by
  constructor
  case armed =>
    intro i o ho
    cases ho
  case spoken =>
    intro i o b ho
    cases ho
  case heard =>
    intro id b hb
    cases hb
  case lost =>
    intro t ht
    cases ht
  case won =>
    intro t ht
    cases ht

/-- Of the log only the accepted cancels and the completions are read. -/
theorem congr (h : Told busy v) (hop : v'.op = v.op) (hb : v'.backend.armed = v.backend.armed)
    (hv : v'.backend.verdicts = v.backend.verdicts) (hnext : v.nextOpId ≤ v'.nextOpId)
    (hcalls : ∀ k t done, .cancelCall k t done true ∈ v'.log ↔ .cancelCall k t done true ∈ v.log)
    (hdone : ∀ t b, .completed t b ∈ v'.log → .completed t b ∈ v.log) : Told busy v' := by
  constructor
  case armed => rw [hop, hb]; exact h.armed
  case spoken => rw [hop, hv]; exact h.spoken
  case heard =>
    intro id b hm
    exact (h.heard id b (hv ▸ hm)).trans_le hnext
  case lost =>
    intro t ht k done hm
    exact h.lost t (hv ▸ ht) k done ((hcalls k t done).mp hm)
  case won =>
    intro t ht
    obtain ⟨k, done, hm⟩ := h.won t (hdone t true ht)
    exact ⟨k, done, (hcalls k t done).mpr hm⟩

theorem register (h : Told busy v) (shim done : ℕ) (loc : L) (bufs : List IoBufErased)
    (run : Option (ℕ × ℕ)) (arena : Coio.BufArena) :
    Told busy (v.register i shim done loc bufs run arena) := by
  have hop := v.register_op i shim done loc bufs run arena
  constructor
  case armed =>
    intro k o ho hb
    rw [hop] at ho
    split_ifs at ho with hk
    · obtain rfl := Option.some.inj ho
      rw [hk]
      exact List.mem_cons_self
    · exact List.mem_cons_of_mem _ (h.armed k o ho hb)
  case spoken =>
    intro k o b ho hb hm
    rw [hop] at ho
    split_ifs at ho
    · obtain rfl := Option.some.inj ho
      exact absurd (h.heard _ b hm) (lt_irrefl _)
    · exact h.spoken k o b ho hb hm
  case heard =>
    intro id b hm
    exact Nat.lt_succ_of_lt (h.heard id b hm)
  case lost =>
    intro t ht k d hm
    rcases Coio.mem_push.mp hm with hm | heq
    · exact h.lost t ht k d hm
    · cases heq
  case won =>
    intro t ht
    rcases Coio.mem_push.mp ht with ht | heq
    · obtain ⟨k, d, hm⟩ := h.won t ht
      exact ⟨k, d, Coio.mem_push.mpr (.inl hm)⟩
    · cases heq

/-- Nothing has been said of an op that may be cancelled. -/
theorem acceptCancel (h : Told busy v) {op : Op} (ho : v.op op.slot = some o) (hid : o.id = op.id)
    (hp : o.pending = false) (hlive : busy ≠ some op.slot) (done : ℕ) (loc : L) :
    Told busy (v.acceptCancel j op done loc o) := by
  have hop : ∀ k, (v.acceptCancel j op done loc o).op k =
      if k = op.slot then some { o with pending := true } else v.op k := fun _ =>
    Function.update_apply ..
  have hsilent : ∀ b, (o.id, b) ∉ v.backend.verdicts := by
    intro b hm
    have hspoken := (h.spoken op.slot o b ho hlive hm).2
    rw [hp] at hspoken
    cases hspoken
  constructor
  case armed =>
    intro k p hk hb
    rw [hop] at hk
    split_ifs at hk with hs
    · obtain rfl := Option.some.inj hk
      exact h.armed k o (hs ▸ ho) hb
    · exact h.armed k p hk hb
  case spoken =>
    intro k p b hk hb hm
    rw [hop] at hk
    split_ifs at hk
    · obtain rfl := Option.some.inj hk
      exact absurd hm (hsilent b)
    · exact h.spoken k p b hk hb hm
  case heard =>
    intro id b hm
    exact Nat.lt_succ_of_lt (h.heard id b hm)
  case lost =>
    intro t ht k d hm
    rcases Coio.mem_push.mp hm with hm | heq
    · exact h.lost t ht k d hm
    · obtain ⟨-, rfl, -⟩ := Coio.Entry.cancelCall.inj heq
      exact hsilent false (hid ▸ ht)
  case won =>
    intro t ht
    rcases Coio.mem_push.mp ht with ht | heq
    · obtain ⟨k, d, hm⟩ := h.won t ht
      exact ⟨k, d, Coio.mem_push.mpr (.inl hm)⟩
    · cases heq

/-- The completion of a cancel says that it won, which is what its target's will say. -/
theorem answered (h : Told none v) {k : LiveCancel L} (hs : v.Sane) (ho : v.op k.target = some o)
    (hid : o.id = k.targetId) (hp : o.pending = true) (cancels : List (ℕ × ℕ × ℕ)) :
    Told none { v with backend :=
      ⟨v.backend.armed, cancels, (k.targetId, true) :: v.backend.verdicts⟩ } := by
  constructor
  case armed => exact h.armed
  case spoken =>
    intro i p b hpo hb hm
    rcases List.mem_cons.mp hm with heq | hm
    · obtain ⟨hpid, rfl⟩ := Prod.mk.inj heq
      obtain rfl := hs.inj _ _ p o hpo ho (hpid.trans hid.symm)
      rw [ho] at hpo
      exact ⟨rfl, Option.some.inj hpo ▸ hp⟩
    · exact h.spoken i p b hpo hb hm
  case heard =>
    intro id b hm
    rcases List.mem_cons.mp hm with heq | hm
    · obtain ⟨rfl, -⟩ := Prod.mk.inj heq
      exact hid ▸ (hs.ids _ o ho).2
    · exact h.heard id b hm
  case lost =>
    intro t ht
    rcases List.mem_cons.mp ht with heq | ht
    · cases heq
    · exact h.lost t ht
  case won => exact h.won

/-- The completion of an op with an accepted cancel says it was cancelled, that of another one not. -/
theorem received (h : Told none v) (hproto : Coio.Protocol none v) (ho : v.op i = some o)
    (hv : Received i o o.pending v v') : Told (if o.pending then some i else none) v' := by
  have hslot : o.pending = false → v'.op i = none := by
    intro hp
    have hs := hv.slot
    rw [hp, Bool.false_and, if_neg Bool.false_ne_true] at hs
    exact hs
  have hother : ∀ k p, v'.op k = some p → (if o.pending then some i else none) ≠ some k →
      k ≠ i ∧ v.op k = some p := by
    intro k p hk hb
    have hne : k ≠ i := by
      rintro rfl
      cases hp : o.pending with
      | true => exact hb (by rw [hp]; rfl)
      | false =>
        rw [hslot hp] at hk
        cases hk
    exact ⟨hne, hv.op k hne ▸ hk⟩
  constructor
  case armed =>
    intro k p hk hb
    obtain ⟨hne, hold⟩ := hother k p hk hb
    rw [hv.backend]
    refine (List.mem_erase_of_ne ?_).mpr (h.armed k p hold (by simp))
    intro heq
    exact hne (Prod.mk.inj heq).1
  case spoken =>
    intro k p b hk hb hm
    obtain ⟨hne, hold⟩ := hother k p hk hb
    rw [hv.backend] at hm
    rcases List.mem_cons.mp hm with heq | hm
    · exact absurd (hproto.sane.inj k i p o hold ho (Prod.mk.inj heq).1) hne
    · exact h.spoken k p b hold (by simp) hm
  case heard =>
    intro id b hm
    rw [hv.backend] at hm
    rw [hv.nextOpId]
    rcases List.mem_cons.mp hm with heq | hm
    · obtain ⟨rfl, -⟩ := Prod.mk.inj heq
      exact (hproto.sane.ids i o ho).2
    · exact h.heard id b hm
  case lost =>
    intro t ht k done hm
    rw [hv.calls] at hm
    rw [hv.backend] at ht
    rcases List.mem_cons.mp ht with heq | ht
    · obtain ⟨rfl, hp⟩ := Prod.mk.inj heq
      -- an accepted cancel of an op still live holds its mark
      rcases hproto.books.fate k o.id done true hm with
        ⟨-, -, -, hc⟩ | ⟨-, -, hsaid⟩ | ⟨-, -, -, s, c, l, hs, -, htarget⟩
      · exact hproto.facts.live i o ho (by simp) true hc
      · have hspoken := (h.spoken i o false ho (by simp) (hsaid rfl)).1
        cases hspoken
      · obtain ⟨p, hpo, hid, hpp⟩ := hproto.marks.target s c hs
        obtain rfl := hproto.sane.inj _ i p o hpo ho (hid.trans htarget)
        rw [ho] at hpo
        rw [← Option.some.inj hpo, ← hp] at hpp
        cases hpp
    · exact h.lost t ht k done hm
  case won =>
    intro t ht
    rcases hv.completed t true ht with hold | ⟨rfl, hp⟩
    · obtain ⟨k, done, hm⟩ := h.won t hold
      exact ⟨k, done, (hv.calls k t done true).mpr hm⟩
    · obtain ⟨s, c, hs, -, htid⟩ := hproto.marks.marked i o ho hp.symm (by simp)
      obtain ⟨k, l, done, -, -, hm, -⟩ := hproto.books.slot s c hs
      exact ⟨k, done, (hv.calls k o.id done true).mpr (htid ▸ hm)⟩

theorem freed (h : Told (some i) v) (hv : Touches i v v') (hnone : v'.op i = none) :
    Told none v' := by
  have hother : ∀ k p, v'.op k = some p → some i ≠ some k ∧ v.op k = some p := by
    intro k p hk
    have hne : k ≠ i := by
      rintro rfl
      rw [hnone] at hk
      cases hk
    exact ⟨fun heq => hne (Option.some.inj heq).symm, hv.op k hne ▸ hk⟩
  constructor
  case armed =>
    intro k p hk _
    obtain ⟨hne, hold⟩ := hother k p hk
    exact hv.backend ▸ h.armed k p hold hne
  case spoken =>
    intro k p b hk _ hm
    obtain ⟨hne, hold⟩ := hother k p hk
    exact h.spoken k p b hold hne (hv.backend ▸ hm)
  case heard => rw [hv.backend, hv.nextOpId]; exact h.heard
  case lost =>
    intro t ht k done hm
    exact h.lost t (hv.backend ▸ ht) k done ((hv.calls k t done true).mp hm)
  case won =>
    intro t ht
    obtain ⟨k, done, hm⟩ := h.won t ((hv.completed t true).mp ht)
    exact ⟨k, done, (hv.calls k t done true).mpr hm⟩

end Told

end

structure Joint.Holds (j : Joint L) : Prop where
  thread : j.thread.control.Holds j.thread.rt
  link : Link j.thread.control.busy j.thread.rt.view j.mio
  told : Told j.thread.control.busy j.thread.rt.view

def Joint.Stalls (j : Joint L) : Joint.Move L → Prop
  | .next perform _ => Poll.Stalls j.mio (.next perform)
  | _ => False

/-- One move as the two sides take it: the runtime by one of its own steps, under the contract of its
backend, and the backend by one of its own, under what it expects of the runtime. -/
structure Joint.Splits (j j' : Joint L) (move : Joint.Move L) : Prop where
  thread : j'.thread = j.thread ∨ ∃ m, j.thread.step m = some j'.thread
  mio : j'.mio = j.mio ∨ ∃ e, Poll.step j.mio e = some j'.mio ∧ (Poll.Stalls j.mio e → j.Stalls move)

section

variable {j j' : Joint L} {rt rt' : Coio.Runtime L} {busy : Option ℕ}

theorem Joint.Holds.register (h : j.Holds) {shim done cls : ℕ} {loc : L} {bufs : List IoBufErased}
    {req : Req} {refused : Option Errno}
    (hr : j.register shim done loc cls bufs req refused = some j') :
    j'.Holds ∧ j.Splits j' (.register shim done loc cls bufs req refused) := by
  unfold Joint.register at hr
  cases ha : j.mio.arm j.thread.rt.nextOpSlot req refused with
  | ok mio =>
    simp only [ha] at hr
    obtain ⟨t, ht, rfl⟩ := Option.map_eq_some_iff.mp hr
    obtain ⟨op, hinvoke, hcontrol, -, -⟩ := call_ok ht
    obtain ⟨hthread, heffect⟩ := h.thread.call hinvoke
    obtain ⟨run, arena, -, -, ⟨-, i, hi, hv⟩ | ⟨hno, -⟩⟩ := heffect
    rotate_left
    · cases hno
    have hasked := (Coio.registerOp_asks.ok rfl hinvoke).2 rfl
    have hslot := nextOpSlot_eq h.thread.sane hv hasked
    rw [hslot] at ha
    constructor
    · constructor
      case thread => exact hcontrol ▸ hthread
      case link =>
        rw [hcontrol, hv]
        exact h.link.register hi ha ..
      case told =>
        rw [hcontrol, hv]
        exact h.told.register ..
    · refine ⟨.inr ⟨_, ht⟩, .inr ⟨.call (.arm i req refused), ?_, False.elim⟩⟩
      simp only [Poll.step, Call.exec, h.link.vacant hi, if_true, ha]
  | error e =>
    simp only [ha] at hr
    obtain ⟨t, ht, rfl⟩ := Option.map_eq_some_iff.mp hr
    obtain ⟨op, hinvoke, hcontrol, -, -⟩ := call_ok ht
    obtain ⟨hthread, heffect⟩ := h.thread.call hinvoke
    obtain ⟨run, arena, -, -, ⟨hno, -⟩ | ⟨-, arena', -, hv⟩⟩ := heffect
    · cases hno
    constructor
    · constructor
      case thread => exact hcontrol ▸ hthread
      case link =>
        rw [hcontrol, hv]
        exact h.link.congr rfl rfl rfl
      case told =>
        rw [hcontrol, hv]
        exact h.told.congr rfl rfl rfl (Nat.le_succ _) (fun _ _ _ => by simp [View.refuse])
          fun _ _ hm => by simpa [View.refuse] using hm
    · exact ⟨.inr ⟨_, ht⟩, .inl rfl⟩

/-- A cancel call is turned down only for a handle that names nothing to cancel. -/
theorem Joint.Holds.cancel (h : j.Holds) {op : Op} {loc : L} {done : ℕ}
    (hr : j.cancel op loc done = some j') : j'.Holds ∧ j.Splits j' (.cancel op loc done) := by
  unfold Joint.cancel at hr
  split_ifs at hr with hc
  · obtain ⟨t, ht, rfl⟩ := Option.map_eq_some_iff.mp hr
    obtain ⟨o, ho, hid, hp⟩ := Coio.cancellable_iff.mp hc
    have hbusy := busy_ne h.thread.settles ho hp
    have hwon : (j.mio.cancel j.thread.rt.nextCancelSlot op.slot op.cls).1 = true :=
      (cancel_at _ _ ((h.link.waits op.slot).mpr ⟨o, ho, hp⟩)).1
    rw [hwon] at ht
    obtain ⟨_, hinvoke, hcontrol, -, -⟩ := call_ok ht
    obtain ⟨hthread, heffect⟩ := h.thread.call hinvoke
    obtain ⟨hno, -⟩ | ⟨hno, -⟩ | ⟨-, k, o', ho', -, hp', hk, -, hv⟩ := heffect
    · have hpending := hno o ho hid
      rw [hp] at hpending
      cases hpending
    · cases hno
    obtain ⟨_, _, hcall, hpure⟩ := Base.bind_eq_ok.mp hinvoke
    cases hpure
    have hasked := (Coio.cancel_asks hc).ok rfl hcall
    have hslot := nextCancelSlot_eq h.thread.protocol.marks hv hasked
    rw [ho] at ho'
    obtain rfl := Option.some.inj ho'
    constructor
    · constructor
      case thread => exact hcontrol ▸ hthread
      case link =>
        rw [hcontrol, hv, hslot]
        exact (h.link.acceptCancel ho hp hk hbusy done loc).2
      case told =>
        rw [hcontrol, hv]
        exact h.told.acceptCancel ho hid hp hbusy done loc
    · exact ⟨.inr ⟨_, ht⟩, .inr ⟨.call (.cancel _ op.slot op.cls), rfl, False.elim⟩⟩
  · obtain ⟨t, ht, rfl⟩ := Option.map_eq_some_iff.mp hr
    obtain ⟨_, hinvoke, hcontrol, -, -⟩ := call_ok ht
    obtain ⟨hthread, heffect⟩ := h.thread.call hinvoke
    constructor
    · constructor
      case thread => exact hcontrol ▸ hthread
      case link =>
        rw [hcontrol]
        obtain ⟨-, hv⟩ | ⟨-, hv⟩ | ⟨hno, -⟩ := heffect
        · rw [hv]
          exact h.link.congr rfl rfl rfl
        · rw [hv]
          exact h.link.congr rfl rfl rfl
        · cases hno
      case told =>
        rw [hcontrol]
        obtain ⟨-, hv⟩ | ⟨-, hv⟩ | ⟨hno, -⟩ := heffect
        · rw [hv]
          exact h.told.congr rfl rfl rfl le_rfl (fun _ _ _ => by simp [View.rejectCancel])
            fun _ _ hm => by simpa [View.rejectCancel] using hm
        · rw [hv]
          exact h.told.congr rfl rfl rfl (Nat.le_succ _) (fun _ _ _ => by simp [View.refuseCancel])
            fun _ _ hm => by simpa [View.refuseCancel] using hm
        · cases hno
    · exact ⟨.inr ⟨_, ht⟩, .inl rfl⟩

/-- The completion of a cancel changes nothing but the books. -/
theorem answered_view {slot id t : ℕ}
    (hx : (Coio.Event.cancel slot id t 0).exec rt = .ok () rt') :
    rt'.view = { rt.view with backend :=
      ⟨rt.view.backend.armed, rt.view.backend.cancels.erase (slot, id, t),
        (t, true) :: rt.view.backend.verdicts⟩ } := by
  rcases Coio.cancel_view.ok rfl hx with ⟨-, hv⟩ | ⟨_, _, _, _, hno, -⟩
  · exact hv
  · exact absurd rfl hno

/-- The completion of a cancel is one the runtime waits for, and says what is true. -/
theorem Joint.Holds.takeCancel (h : j.Holds) (hout : j.thread.control = .outside) {c : Completion}
    {ready : List Completion} {mio : Mio} (hready : j.mio.ready = c :: ready) (hc : c.cancel = true)
    (hrest : mio.ready = ready) (hat : ∀ s, mio.at? s = j.mio.at? s) {left : L → L → L} {t : Thread L}
    (ht : Joint.takeCompletion j.thread c left = some t) :
    (⟨t, mio⟩ : Joint L).Holds ∧ ∃ move, j.thread.step move = some t := by
  have hmem : c ∈ j.mio.ready := hready ▸ List.mem_cons_self
  obtain ⟨hzero, k, hk, hreq⟩ := h.link.asked c hmem hc
  have hthread := h.thread
  have hlink := h.link
  have htold := h.told
  rw [hout] at hthread hlink htold
  obtain ⟨o, ho, hid, hp⟩ := hthread.protocol.marks.target _ k hk
  unfold Joint.takeCompletion at ht
  rw [if_pos hc] at ht
  cases hs : j.thread.rt.cancelSlab[c.slot]? with
  | none => simp only [hs] at ht; cases ht
  | some slot =>
    simp only [hs, hzero] at ht
    rw [Coio.view_cancel hs, Coio.CancelSlot.view] at hk
    split_ifs at hk with hf
    obtain rfl := Option.some.inj hk
    cases hx : (Coio.Event.cancel c.slot slot.id slot.targetId 0).exec j.thread.rt with
    | error e rt => simp only [hx] at ht; cases ht
    | ok _ rt =>
      simp only [hx] at ht
      obtain rfl := Option.some.inj ht
      have hallows : j.thread.rt.backend.allows
          (.cancel c.slot slot.id slot.targetId 0 : Coio.Event L) = true := by
        simp only [Coio.Ledger.allows, Bool.and_eq_true, decide_eq_true_eq, List.all_eq_true]
        refine ⟨hreq, ?_⟩
        rintro ⟨id, b⟩ hm
        by_cases heq : id = slot.targetId
        · have htrue := (htold.spoken _ o b ho (by simp [Control.busy]) (hid.trans heq.symm ▸ hm)).1
          simp [htrue]
        · simp [heq]
      have hsafe : j.thread.rt.strikesOther (.cancel c.slot slot.id slot.targetId 0) = false := rfl
      have hview := answered_view hx
      constructor
      · constructor
        case thread =>
          change j.thread.control.Holds rt
          rw [hout]
          exact hthread.cancelled hallows hsafe hx
        case link =>
          change Link j.thread.control.busy rt.view mio
          rw [hout, hview]
          exact hlink.answered hready hc hrest hat _ _ _
        case told =>
          change Told j.thread.control.busy rt.view
          rw [hout, hview]
          exact htold.answered hthread.sane ho hid hp _
      · refine ⟨.cancel c.slot slot.id slot.targetId 0, ?_⟩
        simp only [Thread.step, Thread.stepUnder, hout, Coio.stepUnder, hallows, if_true, hx, Option.map_some]

/-- An op's completion is one the runtime waits for, and cancelled where its cancellation was accepted. -/
theorem Joint.Holds.takeOp (h : j.Holds) (hout : j.thread.control = .outside) {c : Completion}
    {mio : Mio} (hc : c.cancel = false) {o : LiveOp L} (ho : j.thread.rt.view.op c.slot = some o)
    (hcancelled : c.cancelled = o.pending)
    (hlink : ∀ v', Received c.slot o o.pending j.thread.rt.view v' →
      Link (if o.pending then some c.slot else none) v' mio) {left : L → L → L} {t : Thread L}
    (ht : Joint.takeCompletion j.thread c left = some t) :
    (⟨t, mio⟩ : Joint L).Holds ∧ ∃ move, j.thread.step move = some t := by
  have hthread := h.thread
  have htold := h.told
  rw [hout] at hthread htold
  unfold Joint.takeCompletion at ht
  rw [hc, if_neg Bool.false_ne_true] at ht
  cases hs : j.thread.rt.ioSlab[c.slot]? with
  | none => simp only [hs] at ht; cases ht
  | some slot =>
    simp only [hs] at ht
    have hid := live_slot hs ho
    have hsaid : ∀ b, (idBits slot.id, b) ∈ j.thread.rt.view.backend.verdicts → b = c.cancelled := by
      intro b hm
      obtain ⟨rfl, hp⟩ := htold.spoken _ o b ho (by simp [Control.busy]) (hid ▸ hm)
      exact (hcancelled.trans hp).symm
    cases hx : deliver c.slot (idBits slot.id) ⟨c.result, c.flags, c.cls, c.cancelled⟩ left
        j.thread.rt with
    | error e rt => simp only [hx, Thread.after] at ht; cases ht
    | ok control rt =>
      simp only [hx, Thread.after] at ht
      obtain rfl := Option.some.inj ht
      obtain ⟨hkept, hbusy, hreceived⟩ := hthread.deliver ho hid hsaid hx
      simp only [hcancelled, Bool.and_self] at hbusy hreceived
      constructor
      · constructor
        case thread => exact hkept
        case link =>
          change Link control.busy rt.view mio
          rw [hbusy]
          exact hlink _ hreceived
        case told =>
          change Told control.busy rt.view
          rw [hbusy]
          exact htold.received hthread.protocol ho hreceived
      · refine ⟨.op c.slot (idBits slot.id) ⟨c.result, c.flags, c.cls, c.cancelled⟩ left, ?_⟩
        have hallows : j.thread.rt.backend.allows (.op c.slot (idBits slot.id)
            ⟨c.result, c.flags, c.cls, c.cancelled⟩ ⟨left, [], []⟩) = true := by
          simp only [Coio.Ledger.allows, Bool.and_eq_true, decide_eq_true_eq, List.all_eq_true]
          refine ⟨hid ▸ htold.armed _ o ho (by simp [Control.busy]), ?_⟩
          rintro ⟨id, b⟩ hm
          by_cases heq : id = idBits slot.id
          · have hsame := hsaid b (heq ▸ hm)
            simp [hsame]
          · simp [heq]
        simp only [Thread.step, Thread.stepUnder, hout, hallows, if_true, hx, Thread.after]

theorem Joint.Holds.take (h : j.Holds) (hout : j.thread.control = .outside) {c : Completion} {mio : Mio}
    (htaken : Taken j.mio (some c, mio)) {left : L → L → L} {t : Thread L}
    (ht : Joint.takeCompletion j.thread c left = some t) :
    (⟨t, mio⟩ : Joint L).Holds ∧ ∃ move, j.thread.step move = some t := by
  have hlink := h.link
  rw [hout] at hlink
  cases htaken with
  | decided _ ready _ hready hrest hat =>
    cases hc : c.cancel with
    | true => exact h.takeCancel hout hready hc hrest hat ht
    | false =>
      obtain ⟨hcancelled, -, o, ho, hp⟩ := hlink.decided c (hready ▸ List.mem_cons_self) hc
      refine h.takeOp hout hc ho (hcancelled.trans hp.symm) ?_ ht
      rw [hp]
      intro v' hv
      exact hlink.receivedDecided hready hc hrest hat ho hp hv
  | performed _ _ hready hrest hslot hat hc hcancelled =>
    obtain ⟨o, ho, hp⟩ := (hlink.waits c.slot).mp hslot
    refine h.takeOp hout hc ho (hcancelled.trans hp.symm) ?_ ht
    rw [hp]
    intro v' hv
    exact hlink.receivedPerformed hready hrest hat hp hv

theorem Joint.Holds.leave (h : j.Holds) {t : Thread L} (ht : j.thread.step .leave = some t) :
    (⟨t, j.mio⟩ : Joint L).Holds := by
  cases hx : Coio.leave j.thread.control j.thread.rt with
  | error e rt => simp only [Thread.step, Thread.stepUnder, hx, Thread.after] at ht; cases ht
  | ok control rt =>
    simp only [Thread.step, Thread.stepUnder, hx, Thread.after] at ht
    obtain rfl := Option.some.inj ht
    obtain ⟨hkept, hbusy, hleaves⟩ := h.thread.leave hx
    have hsettles := h.thread.settles
    have hlink := h.link
    have htold := h.told
    suffices hsides : Link none rt.view j.mio ∧ Told none rt.view by
      constructor
      case thread => exact hkept
      case link => exact hbusy ▸ hsides.1
      case told => exact hbusy ▸ hsides.2
    cases hcontrol : j.thread.control with
    | outside =>
      rw [hcontrol] at hx
      cases hx
    | done index completion b loc =>
      rw [hcontrol] at hleaves hsettles hlink htold
      obtain ⟨htouches, hnone⟩ := hleaves
      obtain ⟨hsettled, -, o, hbusy⟩ := hsettles
      exact ⟨hlink.freed hbusy.live hbusy.pending hsettled.clear htouches hnone,
        htold.freed htouches hnone⟩
    | shim saved run =>
      rw [hcontrol] at hleaves hlink htold
      obtain ⟨arena, hv⟩ := hleaves
      rw [hv]
      exact ⟨hlink.congr rfl rfl rfl,
        htold.congr rfl rfl rfl le_rfl (fun _ _ _ => .rfl) fun _ _ hm => hm⟩

theorem Joint.Holds.start : (Joint.start : Joint L).Holds := ⟨.start, .start, .start⟩

theorem Joint.Holds.step (h : j.Holds) {move : Joint.Move L} (hs : j.step move = some j') :
    j'.Holds ∧ j.Splits j' move := by
  cases move with
  | register shim done loc cls bufs req refused => exact h.register hs
  | cancel op loc done => exact h.cancel hs
  | wait polls =>
    simp only [Joint.step] at hs
    split at hs
    · rename_i mio hout hw
      obtain rfl := Option.some.inj hs
      have hlink := h.link
      constructor
      · refine ⟨h.thread, hlink.same ?_ ?_, h.told⟩
        all_goals
          unfold Mio.wait at hw
          split at hw
          · cases hw
          · obtain ⟨-, rfl⟩ := Prod.mk.inj (Option.some.inj hw)
            intros
            rfl
          · cases hw
      · refine ⟨.inl rfl, .inr ⟨.wait polls, ?_, False.elim⟩⟩
        simp only [Poll.step, hw, Option.map_some]
    · cases hs
  | next perform left =>
    have htaken := nextCompletion_taken j.mio perform
    simp only [Joint.step] at hs
    split at hs
    · rename_i mio hout hn
      rw [hn] at htaken
      obtain rfl := Option.some.inj hs
      cases htaken with
      | nothing _ hrest hat =>
        refine ⟨⟨h.thread, h.link.same hrest hat, h.told⟩, .inl rfl, .inr ⟨.next perform, ?_, id⟩⟩
        simp only [Poll.step, hn]
    · rename_i c mio hout hn
      rw [hn] at htaken
      obtain ⟨t, ht, rfl⟩ := Option.map_eq_some_iff.mp hs
      obtain ⟨hkept, hmove⟩ := h.take hout htaken ht
      refine ⟨hkept, .inr hmove, .inr ⟨.next perform, ?_, id⟩⟩
      simp only [Poll.step, hn]
    · cases hs
  | leave =>
    obtain ⟨t, ht, rfl⟩ := Option.map_eq_some_iff.mp hs
    exact ⟨h.leave ht, .inr ⟨.leave, ht⟩, .inl rfl⟩

end

/-- What `take_completion` asserts: a cancel's completion names a slot in range, an op's a live one. -/
def Names (rt : Coio.Runtime L) (c : Completion) : Prop :=
  if c.cancel then c.slot < rt.cancelSlab.length
  else ∃ slot, rt.ioSlab[c.slot]? = some slot ∧ isFree slot.id = false

/-- Something has yet to be reported. -/
def Mio.holds (m : Mio) : Bool := m.pending.any Option.isSome || !m.ready.isEmpty

section

variable {j : Joint L} {rt : Coio.Runtime L} {i : ℕ}

theorem Joint.Holds.names (h : j.Holds) {c : Completion} {mio : Mio} (ht : Taken j.mio (some c, mio)) :
    Names j.thread.rt c := by
  have hlive : ∀ o, j.thread.rt.view.op c.slot = some o → c.cancel = false → Names j.thread.rt c := by
    intro o ho hc
    unfold Names
    rw [hc, if_neg Bool.false_ne_true]
    exact slot_of_view ho
  cases ht with
  | decided _ ready _ hready =>
    have hmem : c ∈ j.mio.ready := hready ▸ List.mem_cons_self
    cases hc : c.cancel with
    | true =>
      obtain ⟨-, k, hk, -⟩ := h.link.asked c hmem hc
      obtain ⟨slot, hs, -⟩ := Option.bind_eq_some_iff.mp hk
      unfold Names
      rw [if_pos hc]
      exact (List.getElem?_eq_some_iff.mp hs).1
    | false =>
      obtain ⟨-, -, o, ho, -⟩ := h.link.decided c hmem hc
      exact hlive o ho hc
  | performed _ _ _ _ hslot _ hc =>
    obtain ⟨o, ho, -⟩ := (h.link.waits c.slot).mp hslot
    exact hlive o ho hc

theorem simulates_thread : Base.Simulates (Joint.step (L := L)) (fun _ _ => True) Thread.step
    (fun _ _ => True) Joint.Holds Joint.thread := by
  constructor
  case keeps =>
    intro j move j' h _ hs
    exact (h.step hs).1
  case moves =>
    intro j move j' h _ hs
    exact (h.step hs).2.thread.imp_right fun ⟨m, hm⟩ => ⟨m, trivial, hm⟩

theorem simulates_mio {ok : Joint L → Joint.Move L → Prop} {ok' : Mio → Event → Prop}
    (hok : ∀ j move e, ok j move → (Stalls j.mio e → j.Stalls move) → ok' j.mio e) :
    Base.Simulates Joint.step ok Poll.step ok' Joint.Holds Joint.mio := by
  constructor
  case keeps =>
    intro j move j' h _ hs
    exact (h.step hs).1
  case moves =>
    intro j move j' h hm hs
    exact (h.step hs).2.mio.imp_right fun ⟨e, he, hstall⟩ => ⟨e, hok j move e hm hstall, he⟩

theorem Joint.Holds.of_reaches {ok : Joint L → Joint.Move L → Prop}
    (h : Reaches Joint.step ok .start j) : j.Holds :=
  simulates_thread.invariant .start (h.mono fun _ _ _ => trivial)

/-- The runtime meets a backend that keeps its contract, the backend a runtime that keeps its own, and
what the runtime asserts of each completion holds. -/
theorem run_meets_contracts (h : Reaches Joint.step (fun _ _ => True) .start j) :
    Reaches Thread.step (fun _ _ => True) .start j.thread ∧
    Reaches Poll.step (fun _ _ => True) .new j.mio ∧
    ∀ perform c mio, j.mio.nextCompletion perform = (some c, mio) → Names j.thread.rt c := by
  refine ⟨simulates_thread.reaches .start h, ?_, ?_⟩
  · exact (simulates_mio fun _ _ _ _ _ => trivial).reaches .start h
  · intro perform c mio hn
    exact (Joint.Holds.of_reaches h).names (hn ▸ nextCompletion_taken j.mio perform)

/-- Over this backend every cancellation that is accepted wins, no other op is reported as cancelled, and
a cancel of an op that may be cancelled is accepted. -/
theorem run_cancels_win (h : Reaches Joint.step (fun _ _ => True) .start j) :
    (∀ t b, .completed t b ∈ j.thread.rt.log →
      (b = true ↔ ∃ k done, .cancelCall k t done true ∈ j.thread.rt.log)) ∧
    (∀ op loc done j', j.thread.rt.cancellable op = true → j.cancel op loc done = some j' →
      .cancelCall j.thread.rt.calls op.id done true ∈ j'.thread.rt.log) ∧
    (j.thread.control = .outside → j.thread.rt.CancelsSettle) := by
  have hj := Joint.Holds.of_reaches h
  refine ⟨?_, ?_, ?_⟩
  · intro t b hm
    constructor
    · rintro rfl
      exact hj.told.won t hm
    · rintro ⟨k, done, hcall⟩
      have hsaid := (hj.thread.protocol.facts.completed t b hm).2
      cases b with
      | true => rfl
      | false => exact absurd hcall (hj.told.lost t hsaid k done)
  · intro op loc done j' hc hr
    unfold Joint.cancel at hr
    rw [if_pos hc] at hr
    obtain ⟨t, ht, rfl⟩ := Option.map_eq_some_iff.mp hr
    obtain ⟨o, ho, hid, hp⟩ := Coio.cancellable_iff.mp hc
    have hwon : (j.mio.cancel j.thread.rt.nextCancelSlot op.slot op.cls).1 = true :=
      (cancel_at _ _ ((hj.link.waits op.slot).mpr ⟨o, ho, hp⟩)).1
    rw [hwon] at ht
    obtain ⟨_, hinvoke, -, -, -⟩ := call_ok ht
    obtain ⟨-, ⟨hno, -⟩ | ⟨hno, -⟩ | ⟨-, k, o', -, -, -, -, -, hv⟩⟩ := hj.thread.call hinvoke
    · have hpending := hno o ho hid
      rw [hp] at hpending
      cases hpending
    · cases hno
    · have hlog : t.rt.log = j.thread.rt.log ++ [.cancelCall j.thread.rt.calls op.id done true] :=
        congrArg View.log hv
      rw [hlog]
      exact List.mem_append_right _ List.mem_cons_self
  · intro hout
    have hsettles := hj.thread.settles
    rw [hout] at hsettles
    exact Coio.Abides.cancelsSettle hsettles

theorem holds_iff {m : Mio} : m.holds = true ↔ (∃ slot, (m.at? slot).isSome = true) ∨ ∃ c, c ∈ m.ready := by
  unfold Mio.holds
  rw [Bool.or_eq_true]
  apply or_congr
  · rw [List.any_eq_true]
    constructor
    · rintro ⟨p, hp, hsome⟩
      obtain ⟨slot, hslot⟩ := List.getElem?_of_mem hp
      exact ⟨slot, by rw [Mio.at?, hslot]; exact hsome⟩
    · rintro ⟨slot, hsome⟩
      obtain ⟨p, hp⟩ := Option.isSome_iff_exists.mp hsome
      exact ⟨_, List.mem_of_getElem? ((Mio.at?_eq m slot).mp hp), rfl⟩
  · rw [Bool.not_eq_true', List.isEmpty_eq_false_iff_exists_mem]

/-- Outside callbacks the runtime waits exactly while the backend has something to report. -/
theorem run_waits_iff (h : Reaches Joint.step (fun _ _ => True) .start j)
    (hout : j.thread.control = .outside) : j.thread.rt.hasInflight = j.mio.holds := by
  have hj := Joint.Holds.of_reaches h
  have hlink := hj.link
  rw [hout] at hlink
  have hop : ∀ i o, j.thread.rt.view.op i = some o →
      (∃ slot, (j.mio.at? slot).isSome = true) ∨ ∃ c, c ∈ j.mio.ready := by
    intro i o ho
    cases hp : o.pending with
    | false => exact .inl ⟨i, (hlink.waits i).mpr ⟨o, ho, hp⟩⟩
    | true =>
      obtain ⟨c, hc, -⟩ := hlink.queued i o ho hp (by simp [Control.busy])
      exact .inr ⟨c, hc⟩
  rw [Bool.eq_iff_iff, hasInflight_iff hj.thread.inflight, holds_iff]
  constructor
  · rintro (⟨i, o, ho⟩ | ⟨i, k, hk⟩)
    · exact hop i o ho
    · obtain ⟨o, ho, -⟩ := hj.thread.protocol.marks.target i k hk
      exact hop _ o ho
  · rintro (⟨slot, hsome⟩ | ⟨c, hc⟩)
    · obtain ⟨o, ho, -⟩ := (hlink.waits slot).mp hsome
      exact .inl ⟨slot, o, ho⟩
    · cases hcancel : c.cancel with
      | true =>
        obtain ⟨-, k, hk, -⟩ := hlink.asked c hc hcancel
        exact .inr ⟨c.slot, k, hk⟩
      | false =>
        obtain ⟨-, -, o, ho, -⟩ := hlink.decided c hc hcancel
        exact .inl ⟨c.slot, o, ho⟩

/-- Where no syscall would block, a runtime that is about to sleep has every live op's descriptor watched
under the op's own slot. -/
theorem run_watches (h : Reaches Joint.step (fun j move => ¬ j.Stalls move) .start j)
    (hout : j.thread.control = .outside) (hidle : j.mio.ready = []) {o : LiveOp L}
    (ho : j.thread.rt.view.op i = some o) :
    ∃ p, j.mio.at? i = some p ∧ p.reg.token = i ∧ j.mio.registry.lookup p.req.fd = some p.reg := by
  have hj := Joint.Holds.of_reaches h
  have hlink := hj.link
  rw [hout] at hlink
  have hmio : Reaches Poll.step (fun m e => ¬ Stalls m e) .new j.mio :=
    (simulates_mio fun _ _ _ hno hstall hs => hno (hstall hs)).reaches .start h
  have hconsistent : j.mio.Consistent [] :=
    hmio.invariant (P := fun m => m.Consistent []) .new fun _ _ _ hm hs => step_consistent hm hs
  have hp : o.pending = false := by
    by_contra hpending
    obtain ⟨c, hc, -⟩ := hlink.queued i o ho (Bool.eq_true_of_not_eq_false hpending)
      (by simp [Control.busy])
    rw [hidle] at hc
    cases hc
  obtain ⟨p, hat⟩ := Option.isSome_iff_exists.mp ((hlink.waits i).mpr ⟨o, ho, hp⟩)
  obtain ⟨htoken, hfd, hreg⟩ := hconsistent.slots i p hat
  exact ⟨p, hat, htoken, hfd ▸ hreg⟩

end

/-- A read and a write are armed and the read is cancelled: the cancel's callback and the read's shim
run, then the write is performed. -/
def cancelledRead : List (Joint.Move Unit) :=
  [.register 1 0 () 0 [] (.read 5 0 8) none, .register 2 0 () 0 [] (.write 6 0 8) none,
    .cancel ⟨0, 0, Coio.idAfter 0⟩ () 7, .next (fun _ => .ok 0) fun l _ => l,
    .next (fun _ => .ok 0) fun l _ => l, .leave, .leave]

/-- The run ends with the write still armed. -/
theorem cancelledRead_ends : ∃ j, run Joint.step .start cancelledRead = some j ∧
    j.thread.control = .outside ∧ j.mio.ready = [] ∧ (j.thread.rt.view.op 1).isSome = true ∧
    .completed 1 true ∈ j.thread.rt.log ∧ Reaches Joint.step (fun j move => ¬ j.Stalls move) .start j := by
  have hrun : (run Joint.step .start cancelledRead).map (fun j =>
      (j.thread.control.isOutside, j.mio.ready, (j.thread.rt.view.op 1).isSome,
        decide (.completed 1 true ∈ j.thread.rt.log))) = some (true, [], true, true) := by
    decide +kernel
  obtain ⟨j, hj, hends⟩ := Option.map_eq_some_iff.mp hrun
  obtain ⟨hcontrol, hrest⟩ := Prod.mk.inj hends
  obtain ⟨hready, hrest⟩ := Prod.mk.inj hrest
  obtain ⟨hop, hlog⟩ := Prod.mk.inj hrest
  have hmeets : Meets Joint.step (fun _ move => ∀ j : Joint Unit, ¬ j.Stalls move) .start
      cancelledRead := by
    refine meets_of_forall fun move hm j => ?_
    simp only [cancelledRead, List.mem_cons, List.not_mem_nil, or_false] at hm
    rcases hm with rfl | rfl | rfl | rfl | rfl | rfl | rfl <;>
      simp [Joint.Stalls, Stalls]
  exact ⟨j, hj, Control.eq_outside hcontrol, hready, hop, of_decide_eq_true hlog,
    (reaches_of_run hmeets hj).mono fun j _ hno => hno j⟩

theorem run_meets_contracts_cancelled : ∃ j, run Joint.step .start cancelledRead = some j ∧
    Reaches Thread.step (fun _ _ => True) .start j.thread := by
  obtain ⟨j, hj, -, -, -, -, hreach⟩ := cancelledRead_ends
  exact ⟨j, hj, (run_meets_contracts (hreach.mono fun _ _ _ => trivial)).1⟩

theorem run_cancels_win_cancelled : ∃ j, run Joint.step .start cancelledRead = some j ∧
    .completed 1 true ∈ j.thread.rt.log ∧ j.thread.rt.CancelsSettle := by
  obtain ⟨j, hj, hout, -, -, hlog, hreach⟩ := cancelledRead_ends
  exact ⟨j, hj, hlog, (run_cancels_win (hreach.mono fun _ _ _ => trivial)).2.2 hout⟩

theorem run_waits_iff_cancelled : ∃ j, run Joint.step .start cancelledRead = some j ∧
    j.thread.rt.hasInflight = j.mio.holds := by
  obtain ⟨j, hj, hout, -, -, -, hreach⟩ := cancelledRead_ends
  exact ⟨j, hj, run_waits_iff (hreach.mono fun _ _ _ => trivial) hout⟩

theorem run_watches_cancelled : ∃ j, run Joint.step .start cancelledRead = some j ∧
    ∃ p, j.mio.at? 1 = some p ∧ p.reg.token = 1 ∧ j.mio.registry.lookup p.req.fd = some p.reg := by
  obtain ⟨j, hj, hout, hready, hop, -, hreach⟩ := cancelledRead_ends
  obtain ⟨o, ho⟩ := Option.isSome_iff_exists.mp hop
  exact ⟨j, hj, run_watches hreach hout hready ho⟩

end Conrt.Poll
