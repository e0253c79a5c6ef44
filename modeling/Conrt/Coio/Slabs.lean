import Conrt.Base.FreeStack
import Conrt.Base.Total
import Conrt.Coio.Dispatch

/-! The books of the two slabs, kept by every step, and the states in which a step can panic. -/
namespace Conrt.Coio

open Conrt.Base

variable {L : Type}

def IoSlot.link (slot : IoSlot L) : Option ℕ := slot.freeNext.toOption

def CancelSlot.link (slot : CancelSlot L) : Option ℕ := slot.freeNext.toOption

/-- The id word tells which arm of the slot is the one written, and a slot in use holds its local
unless that is `out`. It has no run of buffers by then, or never had one if all ops are `plain`. -/
def IoSlot.Fit (plain : Prop) (out : Bool) (slot : IoSlot L) : Prop :=
  (slot.id = 0 ∧ (∃ next, slot.body = .free next) ∧ out = false) ∨
  (idBits slot.id ≠ 0 ∧ (∃ shim done, slot.body = .live shim done) ∧
    (plain ∨ out = true → slot.buf = bufNone) ∧ slot.loc.isSome = !out)

def CancelSlot.Fit (out : Bool) (slot : CancelSlot L) : Prop :=
  (slot.id = 0 ∧ (∃ next, slot.body = .free next) ∧ out = false) ∨
  (slot.id ≠ 0 ∧ (∃ done, slot.body = .live done) ∧ slot.loc.isSome = !out)

section

variable {plain : Prop} {slot : IoSlot L} {cslot : CancelSlot L} {out : Bool}

theorem isFree_of_idBits {id : ℕ} (h : idBits id ≠ 0) : isFree id = false := by
  rw [isFree, beq_eq_false_iff_ne]
  rintro rfl
  exact h rfl

theorem IoSlot.freeNext_of_link {next : ℕ} (h : slot.link = some next) : slot.freeNext = .ok next := by
  unfold link at h
  cases hn : slot.freeNext with
  | error e => simp [hn, Except.toOption] at h
  | ok n =>
    rw [hn] at h
    rw [Option.some.inj h]

theorem IoSlot.link_none (h : isFree slot.id = false) : slot.link = none := by
  simp [link, freeNext, h, Except.toOption]

theorem IoSlot.link_free {slot : IoSlot L} {next : ℕ} (h : slot.id = 0)
    (hb : slot.body = .free next) : slot.link = some next := by
  simp [link, freeNext, h, hb, isFree, Except.toOption]

theorem IoSlot.Fit.live (h : slot.Fit plain out) (hl : slot.link = none) : idBits slot.id ≠ 0 ∧
    (∃ shim done, slot.body = .live shim done) ∧ (plain ∨ out = true → slot.buf = bufNone) ∧
      slot.loc.isSome = !out := by
  rcases h with ⟨h0, ⟨next, hb⟩, -⟩ | h
  · rw [IoSlot.link_free h0 hb] at hl
    cases hl
  · exact h

theorem IoSlot.Fit.free (h : slot.Fit plain out) (hl : slot.link ≠ none) : slot.id = 0 := by
  rcases h with ⟨h0, -⟩ | ⟨hid, -⟩
  · exact h0
  · exact absurd (IoSlot.link_none (isFree_of_idBits hid)) hl

theorem CancelSlot.freeNext_of_link {next : ℕ} (h : cslot.link = some next) :
    cslot.freeNext = .ok next := by
  unfold link at h
  cases hn : cslot.freeNext with
  | error e => simp [hn, Except.toOption] at h
  | ok n =>
    rw [hn] at h
    rw [Option.some.inj h]

theorem CancelSlot.link_none (h : isFree cslot.id = false) : cslot.link = none := by
  simp [link, freeNext, h, Except.toOption]

theorem CancelSlot.link_free {cslot : CancelSlot L} {next : ℕ} (h : cslot.id = 0)
    (hb : cslot.body = .free next) : cslot.link = some next := by
  simp [link, freeNext, h, hb, isFree, Except.toOption]

theorem CancelSlot.Fit.live (h : cslot.Fit out) (hl : cslot.link = none) :
    cslot.id ≠ 0 ∧ (∃ done, cslot.body = .live done) ∧ cslot.loc.isSome = !out := by
  rcases h with ⟨h0, ⟨next, hb⟩, -⟩ | h
  · rw [CancelSlot.link_free h0 hb] at hl
    cases hl
  · exact h

theorem CancelSlot.Fit.free (h : cslot.Fit out) (hl : cslot.link ≠ none) : cslot.id = 0 := by
  rcases h with ⟨h0, -⟩ | ⟨hid, -⟩
  · exact h0
  · exact absurd (CancelSlot.link_none (by simpa [isFree] using hid)) hl

end

/-- The op slab's books; `loose` slots are being claimed, the locals of `out` have been moved out. -/
abbrev Runtime.Ops (plain : Prop) (loose out : List ℕ) (rt : Runtime L) : Prop :=
  Slab IoSlot.link freeNone (IoSlot.Fit plain) rt.ioSlab rt.freeSlotsHead rt.inflightOps loose out

abbrev Runtime.Cancels (loose out : List ℕ) (rt : Runtime L) : Prop :=
  Slab CancelSlot.link freeNone CancelSlot.Fit rt.cancelSlab rt.freeCancelsHead rt.inflightCancels
    loose out

/-- Every cancel request the backend holds names a slot of the slab, which may have been freed since. -/
def Runtime.Asked (rt : Runtime L) : Prop :=
  ∀ j id target, (j, id, target) ∈ rt.backend.cancels → j < rt.cancelSlab.length

structure Slabs (plain : Prop) (loose out looseC outC : List ℕ) (rt : Runtime L) : Prop where
  ops : rt.Ops plain loose out
  cancels : rt.Cancels looseC outC
  asked : rt.Asked

def Runtime.liveOps (rt : Runtime L) : ℕ := rt.ioSlab.countP fun slot => !isFree slot.id

def Runtime.liveCancels (rt : Runtime L) : ℕ := rt.cancelSlab.countP fun slot => !isFree slot.id

/-- The run has used up the slots of a slab, or the ids: a slot has been allocated for a request and
there is no id left for it. -/
def Runtime.Exhausted (rt : Runtime L) : Prop :=
  2 ^ 32 - 1 ≤ rt.ioSlab.length ∨ 2 ^ 32 - 1 ≤ rt.cancelSlab.length ∨
  (maxOpId ≤ rt.nextOpId ∧
    rt.inflightOps + rt.inflightCancels = rt.liveOps + rt.liveCancels + 1)

structure Stalled (v v' : View L) : Prop where
  op : v'.op = v.op
  cancel : v'.cancel = v.cancel
  log : v'.log = v.log
  backend : v'.backend = v.backend
  nextOpId : v.nextOpId ≤ v'.nextOpId
  calls : v.calls ≤ v'.calls

theorem Stalled.refl (v : View L) : Stalled v v := ⟨rfl, rfl, rfl, rfl, le_rfl, le_rfl⟩

theorem Slabs.new {plain : Prop} : Slabs plain [] [] [] [] (Runtime.new : Runtime L) := by
  refine ⟨.new, .new, ?_⟩
  intro j id target h
  cases h

theorem IoSlot.Fit.link_isNone {plain : Prop} {slot : IoSlot L} {out : Bool}
    (h : slot.Fit plain out) :
    slot.link.isNone = !isFree slot.id := by
  rcases h with ⟨h0, ⟨next, hb⟩, -⟩ | ⟨hid, -⟩
  · simp [IoSlot.link_free h0 hb, h0, isFree]
  · have hf := isFree_of_idBits hid
    simp [IoSlot.link_none hf, hf]

theorem CancelSlot.Fit.link_isNone {slot : CancelSlot L} {out : Bool} (h : slot.Fit out) :
    slot.link.isNone = !isFree slot.id := by
  rcases h with ⟨h0, ⟨next, hb⟩, -⟩ | ⟨hid, -⟩
  · simp [CancelSlot.link_free h0 hb, h0, isFree]
  · have hf : isFree slot.id = false := by simpa [isFree] using hid
    simp [CancelSlot.link_none hf, hf]

section

variable {plain : Prop} {rt : Runtime L} {loose out looseC outC : List ℕ}

theorem Slabs.liveOps_eq (h : Slabs plain loose out looseC outC rt) :
    rt.inflightOps = rt.liveOps + loose.length := by
  have hlive : inUse IoSlot.link rt.ioSlab = rt.liveOps := by
    apply List.countP_congr
    intro slot hs
    obtain ⟨i, hi⟩ := List.getElem?_of_mem hs
    rw [(h.ops.each i slot hi).link_isNone]
  rw [h.ops.count, hlive]

theorem Slabs.liveCancels_eq (h : Slabs plain loose out looseC outC rt) :
    rt.inflightCancels = rt.liveCancels + looseC.length := by
  have hlive : inUse CancelSlot.link rt.cancelSlab = rt.liveCancels := by
    apply List.countP_congr
    intro slot hs
    obtain ⟨i, hi⟩ := List.getElem?_of_mem hs
    rw [(h.cancels.each i slot hi).link_isNone]
  rw [h.cancels.count, hlive]

end

section

variable {β : Type} {R : β → Runtime L → Prop} {F : Runtime L → Prop} {plain : Prop} {rt : Runtime L}
  {loose out looseC outC : List ℕ} {i j : ℕ}

theorem ioSlot_ends {slot : IoSlot L} {f : IoSlot L → M L β} (hs : rt.ioSlab[i]? = some slot)
    (h : Ends (· = rt) (f slot) R F) : Ends (· = rt) (ioSlot i >>= f) R F := by
  unfold ioSlot
  rw [bind_assoc]
  exact Ends.get_bind (Ends.ofOption_bind hs h)

theorem cancelSlot_ends {slot : CancelSlot L} {f : CancelSlot L → M L β}
    (hs : rt.cancelSlab[i]? = some slot) (h : Ends (· = rt) (f slot) R F) :
    Ends (· = rt) (cancelSlot i >>= f) R F := by
  unfold cancelSlot
  rw [bind_assoc]
  exact Ends.get_bind (Ends.ofOption_bind hs h)

theorem incr_ends {n : ℕ} {f : ℕ → M L β} (h : n + 1 < 2 ^ 32 → Ends (· = rt) (f (n + 1)) R F)
    (hf : 2 ^ 32 - 1 ≤ n → F rt) : Ends (· = rt) (incr n >>= f) R F := by
  by_cases hn : n + 1 < 2 ^ 32
  · exact Ends.ofOption_bind (if_pos hn) (h hn)
  · have hspent : F rt := hf (by omega)
    unfold incr
    rw [if_neg hn]
    rintro _ rfl
    exact hspent

theorem decr_ends {n : ℕ} {f : ℕ → M L β} (hn : 0 < n) (h : Ends (· = rt) (f (n - 1)) R F) :
    Ends (· = rt) (decr n >>= f) R F :=
  Ends.ofOption_bind (if_pos hn) h

theorem record_ends (h : Slabs plain loose out looseC outC rt) (entry : Entry L) :
    Ends (· = rt) (record entry) (fun _ rt' => Slabs plain loose out looseC outC rt' ∧
      rt'.ioSlab = rt.ioSlab) F := by
  apply Ends.update
  rintro _ rfl
  exact ⟨⟨h.ops, h.cancels, h.asked⟩, rfl⟩

/-- Ids are asked for with one slot allocated and not yet claimed. -/
theorem nextOpId_ends (h : Slabs plain loose out looseC outC rt)
    (hone : loose.length + looseC.length = 1) (hF : rt.Exhausted → F rt) :
    Ends (· = rt) (nextOpId : M L NonZeroU64) (fun id rt' =>
      Slabs plain loose out looseC outC rt' ∧ rt'.ioSlab = rt.ioSlab ∧ id < maxOpId) F := by
  unfold nextOpId
  refine Ends.get_bind (Ends.ite (fun hlt => ?_) fun hge => ?_)
  · refine Ends.modify_bind (Ends.pure ?_)
    rintro _ rfl
    exact ⟨⟨h.ops, h.cancels, h.asked⟩, rfl, hlt⟩
  · apply Ends.throw
    rintro _ rfl
    have hops := h.liveOps_eq
    have hcancels := h.liveCancels_eq
    exact hF (.inr (.inr ⟨not_lt.mp hge, by omega⟩))

theorem releaseRun_ends (h : Slabs plain loose out looseC outC rt) {run : Option (ℕ × ℕ)}
    (hF : ∀ e, rt.bufArena.giveBack run = .error e → F rt) :
    Ends (· = rt) (releaseRun run : M L Unit) (fun _ rt' => Slabs plain loose out looseC outC rt' ∧
      rt'.ioSlab = rt.ioSlab) F := by
  unfold releaseRun
  apply Ends.get_bind
  cases hg : rt.bufArena.giveBack run with
  | error e =>
    rintro _ rfl
    exact hF e hg
  | ok arena =>
    refine Ends.ofExcept_bind rfl (Ends.update ?_)
    rintro _ rfl
    exact ⟨⟨h.ops, h.cancels, h.asked⟩, rfl⟩

end

section

variable {F : Runtime L → Prop} {plain : Prop} {rt : Runtime L} {loose out looseC outC : List ℕ}
  {i : ℕ}

def Runtime.Holds (rt : Runtime L) (out : List ℕ) (i : ℕ) : Prop :=
  i ∉ out ∧ ∃ slot, rt.ioSlab[i]? = some slot ∧ slot.link = none

def Runtime.runAt (rt : Runtime L) (i : ℕ) : Option (ℕ × ℕ) :=
  rt.ioSlab[i]?.bind (·.takeBufRun.1)

theorem IoSlot.buf_of_takeBufRun {slot : IoSlot L} (h : slot.takeBufRun.1 = none) :
    slot.buf = bufNone := by
  by_contra hne
  simp [IoSlot.takeBufRun, hne] at h

theorem allocOpSlot_ends (h : Slabs plain [] out looseC outC rt) (hF : rt.Exhausted → F rt) :
    Ends (· = rt) (allocOpSlot : M L ℕ) (fun i rt' => Slabs plain [i] out looseC outC rt') F := by
  have hle : rt.inflightOps ≤ rt.ioSlab.length := by
    have hc := h.ops.count
    have hu := Slab.inUse_le IoSlot.link rt.ioSlab
    simp only [List.length_nil] at hc
    omega
  unfold allocOpSlot
  refine Ends.get_bind (incr_ends (fun hn => ?_) fun hn => hF (.inl (hn.trans hle)))
  refine Ends.modify_bind (Ends.ite (fun hne => ?_) fun he => ?_)
  · obtain ⟨slot, next, hs, hl, hslab⟩ := h.ops.pop hne
    refine ioSlot_ends hs (Ends.ofExcept_bind (IoSlot.freeNext_of_link hl) ?_)
    refine Ends.modify_bind (Ends.pure ?_)
    rintro _ rfl
    exact ⟨hslab, h.cancels, h.asked⟩
  · refine Ends.modify_bind (Ends.pure ?_)
    rintro _ rfl
    have hhead : rt.freeSlotsHead = freeNone := not_not.mp he
    have hroom : rt.inflightOps < freeNone := by
      unfold freeNone
      omega
    have hfit : (IoSlot.initFree freeNone : IoSlot L).Fit plain false :=
      .inl ⟨rfl, ⟨_, rfl⟩, rfl⟩
    have hlen : rt.ioSlab.length < 2 ^ 32 := by
      have hr := h.ops.room
      unfold freeNone at hr
      omega
    have hu : toU32 rt.ioSlab.length = rt.ioSlab.length := Nat.mod_eq_of_lt hlen
    rw [hu]
    exact ⟨h.ops.grow hhead rfl hfit hroom, h.cancels, h.asked⟩

theorem claimOpSlot_ends (h : Slabs plain (i :: loose) out looseC outC rt) {id : NonZeroU64}
    (hid : id < maxOpId) (shim done : ℕ) (loc : L) {run : Option (ℕ × ℕ)}
    (hrun : ∀ r, run = some r → r.1 ≠ bufNone) (hp : plain → run = none) :
    Ends (· = rt) (claimOpSlot i id shim done loc run)
      (fun _ rt' => Slabs plain loose out looseC outC rt' ∧ rt'.Holds out i ∧ rt'.runAt i = run ∧
        rt'.bufArena = rt.bufArena) F := by
  obtain ⟨free, hstack⟩ := h.ops.stack
  obtain ⟨slot, next, hs, hl⟩ := (hstack.covers i).mp List.mem_cons_self
  have h0 : slot.id = 0 := (h.ops.each i slot hs).free (by simp [hl])
  have hbits : idBits id = id := idBits_of_lt hid
  have hlt : i < rt.ioSlab.length := (List.getElem?_eq_some_iff.mp hs).1
  generalize hnamed : run.getD (bufNone, 0) = named
  have hlive : (⟨id, some loc, named.1, named.2, .live shim done⟩ : IoSlot L).link = none :=
    IoSlot.link_none (isFree_of_idBits (by rw [hbits]; exact id.2))
  have hfit : (⟨id, some loc, named.1, named.2, .live shim done⟩ : IoSlot L).Fit plain false := by
    refine .inr ⟨by rw [hbits]; exact id.2, ⟨shim, done, rfl⟩, fun hplain => ?_, rfl⟩
    obtain rfl := hp (hplain.resolve_right Bool.noConfusion)
    exact (congrArg Prod.fst hnamed).symm
  have hbuf : named.1 ≠ bufNone ∨ named.2 = 0 := by
    cases run with
    | none => exact .inr (congrArg Prod.snd hnamed).symm
    | some r => exact .inl (hnamed ▸ hrun r rfl)
  have hclaim : slot.claim id shim done loc named.1 named.2 =
      .ok ⟨id, some loc, named.1, named.2, .live shim done⟩ := by
    simp [IoSlot.claim, isFree, h0, hbuf]
  have htaken : (⟨id, some loc, named.1, named.2, .live shim done⟩ : IoSlot L).takeBufRun.1 = run := by
    cases run with
    | none =>
      obtain rfl := hnamed.symm
      simp [IoSlot.takeBufRun]
    | some r =>
      have hr : named = r := hnamed.symm
      have hne := hrun r rfl
      simp [IoSlot.takeBufRun, hr, hne]
  have hout : i ∉ out := by
    intro ho
    obtain ⟨t, ht, hlt⟩ := h.ops.used i ho
    rw [hs] at ht
    obtain rfl := Option.some.inj ht
    rw [hl] at hlt
    cases hlt
  unfold claimOpSlot
  simp only [hnamed]
  refine ioSlot_ends hs (Ends.ofExcept_bind hclaim (Ends.update ?_))
  rintro _ rfl
  refine ⟨⟨h.ops.claim hlive hfit, h.cancels, h.asked⟩,
    ⟨hout, _, List.getElem?_set_self hlt, hlive⟩, ?_, rfl⟩
  simp only [Runtime.runAt, List.getElem?_set_self hlt, Option.bind_some, htaken]

/-- The slot at `i`, as one in use. -/
theorem Slabs.live (h : Slabs plain loose out looseC outC rt) (hi : rt.Holds out i) :
    ∃ slot, rt.ioSlab[i]? = some slot ∧ slot.link = none ∧ idBits slot.id ≠ 0 ∧
      (∃ shim done, slot.body = .live shim done) ∧ (plain → slot.buf = bufNone) ∧
        ∃ loc, slot.loc = some loc := by
  obtain ⟨hout, slot, hs, hl⟩ := hi
  obtain ⟨hid, hbody, hbuf, hloc⟩ := (h.ops.each i slot hs).live hl
  rw [decide_eq_false hout, Bool.not_false] at hloc
  exact ⟨slot, hs, hl, hid, hbody, fun hp => hbuf (.inl hp), Option.isSome_iff_exists.mp hloc⟩

theorem takeBufRun_ends (h : Slabs plain loose out looseC outC rt) (hi : rt.Holds out i) :
    Ends (· = rt) (takeBufRun i : M L (Option (ℕ × ℕ)))
      (fun run rt' => run = rt.runAt i ∧ (plain → run = none) ∧
        Slabs plain loose out looseC outC rt' ∧ rt'.Holds out i ∧ rt'.runAt i = none ∧
          rt'.bufArena = rt.bufArena) F := by
  obtain ⟨slot, hs, hl, hid, hbody, hbuf, loc, hloc⟩ := h.live hi
  have hlt : i < rt.ioSlab.length := (List.getElem?_eq_some_iff.mp hs).1
  have hl' : slot.takeBufRun.2.link = none := IoSlot.link_none (isFree_of_idBits hid)
  unfold takeBufRun
  refine ioSlot_ends hs (Ends.modify_bind (Ends.pure ?_))
  rintro _ rfl
  have hfit : slot.takeBufRun.2.Fit plain (decide (i ∈ out)) := by
    rw [decide_eq_false hi.1]
    exact .inr ⟨hid, hbody, fun _ => rfl, by simp [IoSlot.takeBufRun, hloc]⟩
  refine ⟨by simp [Runtime.runAt, hs], fun hp => by simp [IoSlot.takeBufRun, hbuf hp],
    ⟨h.ops.update hs hl hl' hfit, h.cancels, h.asked⟩, ⟨hi.1, _, List.getElem?_set_self hlt, hl'⟩,
    ?_, rfl⟩
  simp [Runtime.runAt, hlt, IoSlot.takeBufRun]

theorem takeLocal_ends (h : Slabs plain loose out looseC outC rt) (hi : rt.Holds out i)
    (hrun : rt.runAt i = none) :
    Ends (· = rt) (takeLocal i : M L L)
      (fun _ rt' => Slabs plain loose (i :: out) looseC outC rt') F := by
  obtain ⟨slot, hs, hl, hid, hbody, -, loc, hloc⟩ := h.live hi
  have hfree := isFree_of_idBits hid
  have hbuf : slot.buf = bufNone := by
    rw [Runtime.runAt, hs] at hrun
    exact IoSlot.buf_of_takeBufRun hrun
  have htake : slot.takeLocal = .ok (loc, { slot with loc := none }) := by
    simp [IoSlot.takeLocal, hfree, hloc]
  have hl' : ({ slot with loc := none } : IoSlot L).link = none := IoSlot.link_none hfree
  unfold takeLocal
  refine ioSlot_ends hs (Ends.ofExcept_bind htake (Ends.modify_bind (Ends.pure ?_)))
  rintro _ rfl
  exact ⟨h.ops.take hs hl hl' hi.1 (.inr ⟨hid, hbody, fun _ => hbuf, rfl⟩), h.cancels, h.asked⟩

theorem freeOpSlotTaken_ends (h : Slabs plain loose (i :: out) looseC outC rt) :
    Ends (· = rt) (freeOpSlotTaken i : M L Unit)
      (fun _ rt' => Slabs plain loose out looseC outC rt') F := by
  obtain ⟨slot, hs, hl⟩ := h.ops.used i List.mem_cons_self
  obtain ⟨hid, -, hbuf, -⟩ := (h.ops.each i slot hs).live hl
  have hnone : slot.buf = bufNone := hbuf (.inr (decide_eq_true List.mem_cons_self))
  have hfree := isFree_of_idBits hid
  have hpush : slot.pushFree rt.freeSlotsHead = .ok
      { slot with id := 0, buf := bufNone, bufLen := 0, body := .free rt.freeSlotsHead } := by
    simp [IoSlot.pushFree, hfree, hnone]
  unfold freeOpSlotTaken
  refine Ends.get_bind (decr_ends (h.ops.count_pos hs hl) (Ends.modify_bind ?_))
  refine ioSlot_ends hs (Ends.ofExcept_bind hpush (Ends.modify_bind (Ends.update ?_)))
  rintro _ rfl
  exact ⟨h.ops.push rfl (.inl ⟨rfl, ⟨_, rfl⟩, rfl⟩), h.cancels, h.asked⟩

theorem freeOpSlot_ends (h : Slabs plain loose out looseC outC rt) (hi : rt.Holds out i)
    (hrun : rt.runAt i = none) :
    Ends (· = rt) (freeOpSlot i : M L Unit)
      (fun _ rt' => Slabs plain loose out looseC outC rt') F := by
  obtain ⟨slot, hs, hl, hid, hbody, -, loc, hloc⟩ := h.live hi
  have hbuf : slot.buf = bufNone := by
    rw [Runtime.runAt, hs] at hrun
    exact IoSlot.buf_of_takeBufRun hrun
  have hl' : ({ slot with loc := none } : IoSlot L).link = none :=
    IoSlot.link_none (isFree_of_idBits hid)
  unfold freeOpSlot
  refine ioSlot_ends hs (Ends.ofOption_bind hloc (Ends.modify_bind ?_))
  apply freeOpSlotTaken_ends
  exact ⟨h.ops.take hs hl hl' hi.1 (.inr ⟨hid, hbody, fun _ => hbuf, rfl⟩), h.cancels, h.asked⟩

theorem clearPending_ends (h : Slabs plain loose out looseC outC rt) (hi : i ∈ out) :
    Ends (· = rt) (clearPending i : M L Unit)
      (fun _ rt' => Slabs plain loose out looseC outC rt') F := by
  obtain ⟨slot, hs, hl⟩ := h.ops.used i hi
  obtain ⟨hid, hbody, hbuf, hloc⟩ := (h.ops.each i slot hs).live hl
  have hid' : idBits (idBits slot.id) ≠ 0 := by rwa [idBits_idBits]
  have hl' : ({ slot with id := idBits slot.id } : IoSlot L).link = none :=
    IoSlot.link_none (isFree_of_idBits hid')
  unfold clearPending
  refine ioSlot_ends hs (Ends.update ?_)
  rintro _ rfl
  exact ⟨h.ops.update hs hl hl' (.inr ⟨hid', hbody, hbuf, hloc⟩), h.cancels, h.asked⟩

/-- A registration panics only with no slot or id left, or over its buffers; then its slot, if it has
one, is not claimed yet. -/
theorem registerOp_ends (h : Slabs plain [] out [] outC rt) (shim done : ℕ) (loc : L) (cls : ℕ)
    {bufs : List IoBufErased} (hp : plain → bufs = []) (accepted : Bool)
    (hF : ∀ loose rt', Slabs plain loose out [] outC rt' → Stalled rt.view rt'.view →
      (rt'.Exhausted ∨ ¬ plain) → F rt') :
    Ends (· = rt) (registerOp shim done loc cls bufs accepted)
      (fun _ rt' => Slabs plain [] out [] outC rt') F := by
  unfold registerOp
  have halloc := (allocOpSlot_ends h fun he => hF [] rt h (.refl _) (.inl he)).and
    (allocOpSlot_spec (E := fun _ => True) fun _ _ => trivial)
  refine halloc.bind_eq fun i rt₁ h₁ => ?_
  obtain ⟨h₁, hv₁⟩ := h₁
  have hstall₁ : Stalled rt.view rt₁.view := hv₁ ▸ .refl _
  have hnext := (nextOpId_ends h₁ rfl fun he => hF [i] rt₁ h₁ hstall₁ (.inl he)).and
    (nextOpId_spec (E := fun _ => True) fun _ _ => trivial)
  refine hnext.bind_eq fun id rt₂ h₂ => ?_
  obtain ⟨⟨h₂, -, hid⟩, -, -, hv₂⟩ := h₂
  apply Ends.get_bind
  cases hcarve : rt₂.bufArena.allocBufRun bufs with
  | error e =>
    have hnotplain : ¬ plain := by
      intro hplain
      rw [hp hplain] at hcarve
      cases hcarve
    have hstall₂ : Stalled rt.view rt₂.view := by
      rw [hv₂, hv₁]
      have hid₁ : rt₁.nextOpId.val = rt.view.nextOpId := congrArg View.nextOpId hv₁
      exact ⟨rfl, rfl, rfl, rfl, by simp [hid₁], le_rfl⟩
    have hbad : F rt₂ := hF [i] rt₂ h₂ hstall₂ (.inr hnotplain)
    rintro _ rfl
    exact hbad
  | ok carved =>
    obtain ⟨run, arena⟩ := carved
    obtain ⟨hstart, hempty, arena', hback⟩ := BufArena.allocBufRun_eq hcarve
    have hcarved : Slabs plain [i] out [] outC { rt₂ with bufArena := arena } :=
      ⟨h₂.ops, h₂.cancels, h₂.asked⟩
    refine Ends.ofExcept_bind rfl (Ends.modify_bind ?_)
    refine (claimOpSlot_ends hcarved hid shim done loc hstart fun hplain =>
      hempty (hp hplain)).bind_eq fun _ rt₃ h₃ => ?_
    obtain ⟨h₃, hi, hrun₃, harena₃⟩ := h₃
    refine Ends.ite (fun _ => ?_) fun _ => ?_
    · refine Ends.modify_bind ?_
      have harm : Slabs plain [] out [] outC
          { rt₃ with backend.armed := (i, id.val) :: rt₃.backend.armed } :=
        ⟨h₃.ops, h₃.cancels, h₃.asked⟩
      refine (record_ends harm _).bind_eq fun _ rt₄ h₄ => Ends.pure ?_
      rintro _ rfl
      exact h₄.1
    · refine (takeBufRun_ends h₃ hi).bind_eq fun run' rt₄ h₄ => ?_
      obtain ⟨hrun, -, h₄, hi₄, hbare, harena₄⟩ := h₄
      have hgive : rt₄.bufArena.giveBack run' = .ok arena' := by
        rw [hrun, hrun₃, harena₄, harena₃]
        exact hback
      refine (releaseRun_ends h₄ fun e he => ?_).bind_eq fun _ rt₅ h₅ => ?_
      · rw [hgive] at he
        cases he
      have hi₅ : rt₅.Holds out i := ⟨hi₄.1, h₅.2 ▸ hi₄.2⟩
      have hbare₅ : rt₅.runAt i = none := by
        rw [Runtime.runAt, h₅.2]
        exact hbare
      refine (freeOpSlot_ends h₅.1 hi₅ hbare₅).bind_eq fun _ rt₆ h₆ => ?_
      refine (record_ends h₆ _).bind_eq fun _ rt₇ h₇ => Ends.pure ?_
      rintro _ rfl
      exact h₇.1

end

section

variable {F : Runtime L → Prop} {plain : Prop} {rt : Runtime L} {loose out looseC outC : List ℕ}
  {j : ℕ}

def Runtime.HoldsCancel (rt : Runtime L) (outC : List ℕ) (j : ℕ) : Prop :=
  j ∉ outC ∧ ∃ slot, rt.cancelSlab[j]? = some slot ∧ slot.link = none

theorem allocCancelSlot_ends (h : Slabs plain loose out [] outC rt) (hF : rt.Exhausted → F rt) :
    Ends (· = rt) (allocCancelSlot : M L ℕ)
      (fun j rt' => Slabs plain loose out [j] outC rt' ∧ rt'.ioSlab = rt.ioSlab) F := by
  have hle : rt.inflightCancels ≤ rt.cancelSlab.length := by
    have hc := h.cancels.count
    have hu := Slab.inUse_le CancelSlot.link rt.cancelSlab
    simp only [List.length_nil] at hc
    omega
  unfold allocCancelSlot
  refine Ends.get_bind (incr_ends (fun hn => ?_) fun hn => hF (.inr (.inl (hn.trans hle))))
  refine Ends.modify_bind (Ends.ite (fun hne => ?_) fun he => ?_)
  · obtain ⟨slot, next, hs, hl, hslab⟩ := h.cancels.pop hne
    refine cancelSlot_ends hs (Ends.ofExcept_bind (CancelSlot.freeNext_of_link hl) ?_)
    refine Ends.modify_bind (Ends.pure ?_)
    rintro _ rfl
    exact ⟨⟨h.ops, hslab, h.asked⟩, rfl⟩
  · refine Ends.modify_bind (Ends.pure ?_)
    rintro _ rfl
    have hhead : rt.freeCancelsHead = freeNone := not_not.mp he
    have hroom : rt.inflightCancels < freeNone := by
      unfold freeNone
      omega
    have hfit : (CancelSlot.initFree freeNone : CancelSlot L).Fit false := .inl ⟨rfl, ⟨_, rfl⟩, rfl⟩
    have hlen : rt.cancelSlab.length < 2 ^ 32 := by
      have hr := h.cancels.room
      unfold freeNone at hr
      omega
    have hu : toU32 rt.cancelSlab.length = rt.cancelSlab.length := Nat.mod_eq_of_lt hlen
    rw [hu]
    refine ⟨⟨h.ops, h.cancels.grow hhead rfl hfit hroom, fun k id target hm => ?_⟩, rfl⟩
    have hk := h.asked k id target hm
    exact hk.trans_le (by simp)

/-- The cancel slot at `j`, as one in use. -/
theorem Slabs.liveCancel (h : Slabs plain loose out looseC outC rt) (hj : rt.HoldsCancel outC j) :
    ∃ slot, rt.cancelSlab[j]? = some slot ∧ slot.link = none ∧ slot.id ≠ 0 ∧
      (∃ done, slot.body = .live done) ∧ ∃ loc, slot.loc = some loc := by
  obtain ⟨hout, slot, hs, hl⟩ := hj
  obtain ⟨hid, hbody, hloc⟩ := (h.cancels.each j slot hs).live hl
  rw [decide_eq_false hout, Bool.not_false] at hloc
  exact ⟨slot, hs, hl, hid, hbody, Option.isSome_iff_exists.mp hloc⟩

theorem asked_set (h : rt.Asked) (slot : CancelSlot L) :
    Runtime.Asked { rt with cancelSlab := rt.cancelSlab.set j slot } := by
  intro k id target hm
  have hk : k < rt.cancelSlab.length := h k id target hm
  rwa [List.length_set]

theorem takeCancelLocal_ends (h : Slabs plain loose out looseC outC rt)
    (hj : rt.HoldsCancel outC j) :
    Ends (· = rt) (takeCancelLocal j : M L (ℕ × L))
      (fun _ rt' => Slabs plain loose out looseC (j :: outC) rt' ∧ rt'.ioSlab = rt.ioSlab) F := by
  obtain ⟨slot, hs, hl, hid, hbody, loc, hloc⟩ := h.liveCancel hj
  have hfree : isFree slot.id = false := by simpa [isFree] using hid
  have htake : slot.takeLocal = .ok (loc, { slot with loc := none }) := by
    simp [CancelSlot.takeLocal, hfree, hloc]
  have hl' : ({ slot with loc := none } : CancelSlot L).link = none := CancelSlot.link_none hfree
  unfold takeCancelLocal
  refine cancelSlot_ends hs (Ends.ofExcept_bind htake (Ends.modify_bind (Ends.pure ?_)))
  rintro _ rfl
  exact ⟨⟨h.ops, h.cancels.take hs hl hl' hj.1 (.inr ⟨hid, hbody, rfl⟩), asked_set h.asked _⟩, rfl⟩

theorem freeCancelSlot_ends (h : Slabs plain loose out looseC (j :: outC) rt) :
    Ends (· = rt) (freeCancelSlot j : M L Unit)
      (fun _ rt' => Slabs plain loose out looseC outC rt' ∧ rt'.ioSlab = rt.ioSlab) F := by
  obtain ⟨slot, hs, hl⟩ := h.cancels.used j List.mem_cons_self
  obtain ⟨hid, -, -⟩ := (h.cancels.each j slot hs).live hl
  have hfree : isFree slot.id = false := by simpa [isFree] using hid
  have hpush : slot.pushFree rt.freeCancelsHead =
      .ok { slot with id := 0, body := .free rt.freeCancelsHead } := by
    simp [CancelSlot.pushFree, hfree]
  unfold freeCancelSlot
  refine Ends.get_bind (decr_ends (h.cancels.count_pos hs hl) (Ends.modify_bind ?_))
  refine cancelSlot_ends hs (Ends.ofExcept_bind hpush (Ends.modify_bind (Ends.update ?_)))
  rintro _ rfl
  exact ⟨⟨h.ops, h.cancels.push rfl (.inl ⟨rfl, ⟨_, rfl⟩, rfl⟩), asked_set h.asked _⟩, rfl⟩

theorem freeCancelSlotDroppingLocal_ends (h : Slabs plain loose out looseC outC rt)
    (hj : rt.HoldsCancel outC j) :
    Ends (· = rt) (freeCancelSlotDroppingLocal j : M L Unit)
      (fun _ rt' => Slabs plain loose out looseC outC rt' ∧ rt'.ioSlab = rt.ioSlab) F := by
  unfold freeCancelSlotDroppingLocal
  refine (takeCancelLocal_ends h hj).bind_eq fun loc rt₁ h₁ => ?_
  refine (freeCancelSlot_ends h₁.1).bind_eq fun _ rt₂ h₂ => ?_
  refine (record_ends h₂.1 _).post fun _ rt₃ h₃ => ⟨h₃.1, ?_⟩
  rw [h₃.2, h₂.2, h₁.2]

theorem submitCancel_ends (h : Slabs plain [] out [] outC rt) (victim : Op) (done : ℕ)
    (loc : ℕ × L) (accepted : Bool)
    (hF : ∀ looseC rt', Slabs plain [] out looseC outC rt' → Stalled rt.view rt'.view →
      rt'.Exhausted → F rt') :
    Ends (· = rt) (submitCancel victim done loc accepted)
      (fun _ rt' => Slabs plain [] out [] outC rt' ∧ rt'.ioSlab = rt.ioSlab) F := by
  unfold submitCancel
  have halloc := (allocCancelSlot_ends h fun he => hF [] rt h (.refl _) he).and
    (allocCancelSlot_spec (E := fun _ => True) fun _ _ => trivial)
  refine halloc.bind_eq fun j rt₁ h₁ => ?_
  obtain ⟨h₁, hv₁⟩ := h₁
  have hstall : Stalled rt.view rt₁.view := hv₁ ▸ .refl _
  refine (nextOpId_ends h₁.1 rfl fun he => hF [j] rt₁ h₁.1 hstall he).bind_eq fun id rt₂ h₂ => ?_
  obtain ⟨h₂, hio, -⟩ := h₂
  rw [h₁.2] at hio
  obtain ⟨free, hstack⟩ := h₂.cancels.stack
  obtain ⟨slot, next, hs, hl⟩ := (hstack.covers j).mp List.mem_cons_self
  have h0 : slot.id = 0 := (h₂.cancels.each j slot hs).free (by simp [hl])
  have hlt : j < rt₂.cancelSlab.length := (List.getElem?_eq_some_iff.mp hs).1
  have hclaim : slot.claim id victim.slot victim.id done loc =
      .ok ⟨id, victim.slot, victim.id, some loc, .live done⟩ := by
    simp [CancelSlot.claim, isFree, h0]
  have hlive : (⟨id, victim.slot, victim.id, some loc, .live done⟩ : CancelSlot L).link = none :=
    CancelSlot.link_none (by simpa [isFree] using id.2)
  have hout : j ∉ outC := by
    intro ho
    obtain ⟨t, ht, hlt⟩ := h₂.cancels.used j ho
    rw [hs] at ht
    obtain rfl := Option.some.inj ht
    rw [hl] at hlt
    cases hlt
  refine cancelSlot_ends hs (Ends.ofExcept_bind hclaim (Ends.modify_bind ?_))
  have hclaimed := h₂.cancels.claim hlive (.inr ⟨id.2, ⟨done, rfl⟩, rfl⟩)
  have hkept : Slabs plain [] out [] outC { rt₂ with
      cancelSlab := rt₂.cancelSlab.set j (⟨id, victim.slot, victim.id, some loc, .live done⟩) } :=
    ⟨h₂.ops, hclaimed, asked_set h₂.asked _⟩
  refine Ends.ite (fun _ => ?_) fun _ => ?_
  · refine Ends.modify_bind (Ends.pure ?_)
    rintro _ rfl
    refine ⟨⟨h₂.ops, hclaimed, fun k id' target hm => ?_⟩, hio⟩
    rcases List.mem_cons.mp hm with heq | hm
    · obtain ⟨rfl, -⟩ := Prod.mk.inj heq
      simpa using hlt
    · exact hkept.asked k id' target hm
  · have hj : Runtime.HoldsCancel { rt₂ with
        cancelSlab := rt₂.cancelSlab.set j (⟨id, victim.slot, victim.id, some loc, .live done⟩) }
        outC j := ⟨hout, _, List.getElem?_set_self hlt, hlive⟩
    refine (freeCancelSlotDroppingLocal_ends hkept hj).bind_eq fun _ rt₄ h₄ => Ends.pure ?_
    rintro _ rfl
    exact ⟨h₄.1, h₄.2.trans hio⟩

/-- Marking a slot in use as pending keeps the books; a cancel panics only with no slot or id left. -/
theorem cancel_ends (h : Slabs plain [] out [] [] rt) (op : Op) (loc : L) (done : ℕ)
    (accepted : Bool)
    (hF : ∀ looseC rt', Slabs plain [] out looseC [] rt' → Stalled rt.view rt'.view →
      rt'.Exhausted → F rt') :
    Ends (· = rt) (cancel op loc done accepted) (fun _ rt' => Slabs plain [] out [] [] rt') F := by
  unfold cancel
  have hcall : Slabs plain [] out [] [] { rt with calls := rt.calls + 1 } :=
    ⟨h.ops, h.cancels, h.asked⟩
  have hstall : ∀ v', Stalled (Runtime.view { rt with calls := rt.calls + 1 }) v' →
      Stalled rt.view v' := fun v' hv =>
    ⟨hv.op, hv.cancel, hv.log, hv.backend, hv.nextOpId, (Nat.le_succ _).trans hv.calls⟩
  refine Ends.get_bind (Ends.modify_bind (Ends.ite (fun hc => ?_) fun _ => ?_))
  · obtain ⟨o, ho, hid, -⟩ := cancellable_iff.mp hc
    obtain ⟨slot, hs, hslot⟩ := Option.bind_eq_some_iff.mp ho
    unfold IoSlot.view at hslot
    split_ifs at hslot with hf
    obtain rfl := Option.some.inj hslot
    have hbits : idBits slot.id ≠ 0 := by
      change idBits slot.id = op.id at hid
      rw [hid]
      exact op.id.2
    have hl : slot.link = none := IoSlot.link_none (isFree_of_idBits hbits)
    refine (submitCancel_ends hcall op done (rt.calls, loc) accepted fun looseC rt' hs hv he =>
      hF looseC rt' hs (hstall _ hv) he).bind_eq fun submitted rt₁ h₁ => ?_
    refine (record_ends h₁.1 _).bind_eq fun _ rt₂ h₂ => ?_
    refine Ends.ite (fun _ => ?_) fun _ => Ends.pure ?_
    · have hs₂ : rt₂.ioSlab[op.slot]? = some slot := by
        rw [h₂.2, h₁.2]
        exact hs
      obtain ⟨-, hbody, hbuf, hloc⟩ := (h₂.1.ops.each _ slot hs₂).live hl
      have hbits' : idBits (slot.id ||| cancelPending) ≠ 0 := by rwa [idBits_or]
      have hl' : ({ slot with id := slot.id ||| cancelPending } : IoSlot L).link = none :=
        IoSlot.link_none (isFree_of_idBits hbits')
      refine ioSlot_ends hs₂ (Ends.update ?_)
      rintro _ rfl
      exact ⟨h₂.1.ops.update hs₂ hl hl' (.inr ⟨hbits', hbody, hbuf, hloc⟩), h₂.1.cancels,
        h₂.1.asked⟩
    · rintro _ rfl
      exact h₂.1
  · refine (record_ends hcall _).bind_eq fun _ rt₁ h₁ => ?_
    exact (record_ends h₁.1 _).post fun _ _ h₂ => h₂.1

end

def Call.plain : Call L → Bool
  | .register _ _ _ _ bufs _ => bufs = []
  | .cancel .. => true

def Event.plain : Event L → Bool
  | .outside calls => calls.all Call.plain
  | .op _ _ _ r => r.doneCalls.all Call.plain && r.shimCalls.all Call.plain
  | .cancel .. => true

structure Begun (L : Type) where
  id : ℕ
  shim : ℕ
  done : ℕ
  run : Option (ℕ × ℕ)
  pending : Bool
  loc : L

/-- `complete_op` until the op's run and local are moved out. -/
def beginOp (index : ℕ) (cancelled : Bool) : M L (Option (Begun L)) := do
  let rt ← get
  match rt.ioSlab[index]? with
  | none => pure none
  | some slot =>
    if isFree slot.id then pure none
    else
      match slot.body with
      | .free _ => throw .uninit
      | .live shim done =>
        let run ← takeBufRun index
        let loc ← takeLocal index
        record (.completed (idBits slot.id) cancelled)
        pure (some ⟨idBits slot.id, shim, done, run, isCancelPending slot.id, loc⟩)

/-- `complete_op` from there, once the cancellation is settled. -/
def finishOp (index : ℕ) (completion : CompletedOp) (r : Reaction L) (b : Begun L) (loc : L) :
    M L Unit := do
  freeOpSlotTaken index
  let outcome := if b.pending && completion.cancelled then .cancelled
    else .completed completion.result completion.flags
  dispatchShim b.id b.shim b.run outcome b.done loc completion.cls r.shimCalls

/-- `complete_op` until the cancellation is settled: the op's state and what became of its local. -/
def settleOp (index : ℕ) (completion : CompletedOp) (r : Reaction L) :
    M L (Option (Begun L × L)) := do
  match ← beginOp index completion.cancelled with
  | none => pure none
  | some b =>
    let loc ← settleCancel index b.pending (b.pending && completion.cancelled) b.loc r
    pure (some (b, loc))

theorem completeOp_eq (index : ℕ) (completion : CompletedOp) (r : Reaction L) :
    completeOp index completion r = (do
      match ← settleOp index completion r with
      | none => pure ()
      | some (b, loc) => finishOp index completion r b loc) := by
  unfold completeOp settleOp beginOp finishOp
  simp only [bind_assoc]
  congr 1
  funext rt
  cases rt.ioSlab[index]? with
  | none => rfl
  | some slot =>
    by_cases hf : isFree slot.id = true
    · simp only [hf, if_true]
      rfl
    · simp only [hf]
      cases slot.body with
      | free _ => rfl
      | live shim done =>
        simp only [Bool.false_eq_true, if_false, bind_assoc, pure_bind]

/-- `dispatch_shim` until the shim returns. -/
def runShim (id shim : ℕ) (run : Option (ℕ × ℕ)) (outcome : OpOutcome) (done : ℕ) (loc : L)
    (cls : ℕ) (calls : List (Call L)) : M L Unit := do
  let rt ← get
  modify fun rt => { rt with bufArena := .new }
  let bufs ← ofOption .arena (rt.bufArena.bufsOf run)
  record (.shim id shim ⟨loc, bufs, outcome, done, cls⟩)
  forEach Call.exec calls

theorem dispatchShim_eq (id shim : ℕ) (run : Option (ℕ × ℕ)) (outcome : OpOutcome) (done : ℕ)
    (loc : L) (cls : ℕ) (calls : List (Call L)) :
    dispatchShim id shim run outcome done loc cls calls = (do
      let rt ← get
      runShim id shim run outcome done loc cls calls
      modify fun s => { s with bufArena := rt.bufArena }
      releaseRun run) := by
  unfold dispatchShim runShim
  simp only [bind_assoc]
  rfl

section

variable {F : Runtime L → Prop} {plain : Prop} {rt : Runtime L} {out : List ℕ} {i j : ℕ}

theorem Call.exec_ends (h : Slabs plain [] out [] [] rt) {call : Call L}
    (hp : plain → call.plain = true)
    (hF : ∀ loose looseC rt', Slabs plain loose out looseC [] rt' → Stalled rt.view rt'.view →
      (rt'.Exhausted ∨ ¬ plain) → F rt') :
    Ends (· = rt) call.exec (fun _ rt' => Slabs plain [] out [] [] rt') F := by
  cases call with
  | register shim done loc cls bufs accepted =>
    have hbufs : plain → bufs = [] := fun hplain => of_decide_eq_true (hp hplain)
    refine (registerOp_ends h shim done loc cls hbufs accepted fun loose rt' =>
      hF loose [] rt').bind_eq fun _ rt' h' => Ends.pure ?_
    rintro _ rfl
    exact h'
  | cancel op loc done accepted =>
    exact cancel_ends h op loc done accepted fun looseC rt' hs hv he =>
      hF [] looseC rt' hs hv (.inl he)

/-- The calls of a callback panic in a state that `I` holds of, but for what has been used up. -/
theorem calls_ends {I : View L → Prop} (h : Slabs plain [] out [] [] rt) {calls : List (Call L)}
    (hp : plain → calls.all Call.plain = true) (hI : I rt.view)
    (hcalls : ∀ call ∈ calls, ∀ v v', I v → call.Effect v v' → I v')
    (hF : ∀ loose looseC v rt', I v → Slabs plain loose out looseC [] rt' → Stalled v rt'.view →
      (rt'.Exhausted ∨ ¬ plain) → F rt') :
    Ends (· = rt) (forEach Call.exec calls)
      (fun _ rt' => Slabs plain [] out [] [] rt' ∧ I rt'.view) F := by
  have hloop : Ends (fun rt' => Slabs plain [] out [] [] rt' ∧ I rt'.view) (forEach Call.exec calls)
      (fun _ (rt' : Runtime L) => Slabs plain [] out [] [] rt' ∧ I rt'.view) F := by
    apply Ends.forEach
    intro call hc
    refine Ends.of_eq fun rt' h' => ?_
    have hplain : plain → call.plain = true := fun hplain =>
      List.all_eq_true.mp (hp hplain) call hc
    have hends := Call.exec_ends h'.1 hplain fun loose looseC rt'' hs hv he =>
      hF loose looseC rt'.view rt'' h'.2 hs hv he
    have heffect : Triple (· = rt') call.exec (fun _ rt'' => call.Effect rt'.view rt''.view)
        fun _ => True :=
      exec_spec (fun _ _ => trivial) (fun _ => ⟨fun _ _ => trivial, fun _ _ _ _ _ => trivial⟩) call
    exact (hends.and heffect).post fun _ rt'' hr => ⟨hr.1, hcalls call hc _ _ h'.2 hr.2⟩
  apply hloop.pre
  rintro _ rfl
  exact ⟨h, hI⟩

theorem findCancelOf_holds (h : rt.findCancelOf i = some j) : rt.HoldsCancel [] j := by
  unfold Runtime.findCancelOf at h
  cases hs : rt.ioSlab[i]? with
  | none => simp [hs] at h
  | some slot =>
    simp only [hs] at h
    split_ifs at h
    obtain ⟨hlt, hp, -⟩ := List.findIdx?_eq_some_iff_getElem.mp h
    simp only [Bool.and_eq_true, Bool.not_eq_true'] at hp
    exact ⟨List.not_mem_nil, _, List.getElem?_eq_getElem hlt, CancelSlot.link_none hp.1.1⟩

/-- A cancel that is found names a live op. -/
theorem findCancelOf_live (h : rt.findCancelOf i = some j) :
    ∃ o c, rt.view.op i = some o ∧ rt.view.cancel j = some c ∧ c.targetId = o.id := by
  have hlive : ∃ o, rt.view.op i = some o := by
    unfold Runtime.findCancelOf at h
    cases hs : rt.ioSlab[i]? with
    | none => simp [hs] at h
    | some slot =>
      simp only [hs] at h
      split_ifs at h with hf
      exact ⟨_, by rw [view_op hs, IoSlot.view, if_neg hf]⟩
  obtain ⟨o, ho⟩ := hlive
  rcases findCancelOf_spec ho with ⟨hn, -⟩ | ⟨j', c, hj, hc, -, hid⟩
  · rw [hn] at h
    cases h
  · obtain rfl := Option.some.inj (hj.symm.trans h)
    exact ⟨o, c, ho, hc, hid⟩

/-- The cancel callback runs once its cancel has left its slot, and may panic in a call. -/
theorem dispatchCancelOf_ends {I : View L → Prop} (h : Slabs plain [] out [] [] rt) (victim : L)
    {r : Reaction L} (hp : plain → r.doneCalls.all Call.plain = true)
    (hI : ∀ j o call done l, rt.view.op i = some o →
      I ((rt.view.setCancel j none).push (.cancelRan call o.id done victim l)))
    (hcalls : ∀ call ∈ r.doneCalls, ∀ v v', I v → call.Effect v v' → I v')
    (hF : ∀ loose looseC v rt', I v → Slabs plain loose out looseC [] rt' → Stalled v rt'.view →
      (rt'.Exhausted ∨ ¬ plain) → F rt') :
    Ends (· = rt) (dispatchCancelOf i victim r) (fun _ rt' => Slabs plain [] out [] [] rt') F := by
  unfold dispatchCancelOf
  refine Ends.get_bind ?_
  cases hfind : rt.findCancelOf i with
  | none =>
    apply Ends.pure
    rintro _ rfl
    exact h
  | some j =>
    obtain ⟨o, c, ho, hc, htarget⟩ := findCancelOf_live hfind
    have hj := findCancelOf_holds hfind
    obtain ⟨slot, hs, -, -, ⟨done, hbody⟩, -⟩ := h.liveCancel hj
    have hid : slot.targetId = o.id := by
      rw [view_cancel hs] at hc
      unfold CancelSlot.view at hc
      split_ifs at hc
      obtain rfl := Option.some.inj hc
      exact htarget
    refine cancelSlot_ends hs ?_
    simp only [hbody]
    have htake := (takeCancelLocal_ends (F := F) h hj).and
      (takeCancelLocal_spec (E := fun _ => True) (fun _ _ => trivial) hc)
    refine htake.bind_eq fun loc rt₁ h₁ => ?_
    obtain ⟨h₁, -, hv₁⟩ := h₁
    have hfree := (freeCancelSlot_ends (F := F) h₁.1).and
      (freeCancelSlot_spec (E := fun _ => True) (fun _ _ => trivial) j)
    refine hfree.bind_eq fun _ rt₂ h₂ => ?_
    obtain ⟨h₂, hv₂⟩ := h₂
    have hrecord := (record_ends (F := F) h₂.1
      (.cancelRan loc.1 slot.targetId done victim (r.left victim loc.2))).and
      (record_spec (E := fun _ => True) _)
    refine hrecord.bind_eq fun _ rt₃ h₃ => ?_
    obtain ⟨h₃, hv₃⟩ := h₃
    have hI₃ : I rt₃.view := by
      rw [hv₃, hv₂, hv₁, View.setCancel_setCancel, hid]
      exact hI j o loc.1 done _ ho
    refine (calls_ends h₃.1 hp hI₃ hcalls hF).bind_eq fun _ rt₄ h₄ => Ends.pure ?_
    rintro _ rfl
    exact h₄.1

theorem dropCancelOf_ends (h : Slabs plain [] out [] [] rt) :
    Ends (· = rt) (dropCancelOf i : M L Unit) (fun _ rt' => Slabs plain [] out [] [] rt') F := by
  unfold dropCancelOf
  refine Ends.get_bind ?_
  cases hfind : rt.findCancelOf i with
  | none =>
    apply Ends.pure
    rintro _ rfl
    exact h
  | some j =>
    exact (freeCancelSlotDroppingLocal_ends h (findCancelOf_holds hfind)).post fun _ _ h' => h'.1

/-- While a cancellation is settled the local of its op is out of the slot. -/
theorem settleCancel_ends {I : View L → Prop} (h : Slabs plain [] out [] [] rt) (hi : i ∈ out)
    (pending cancelled : Bool) (loc : L) {r : Reaction L}
    (hp : plain → r.doneCalls.all Call.plain = true)
    (hI : ∀ j o call done l, rt.view.op i = some o →
      I ((rt.view.setCancel j none).push (.cancelRan call o.id done loc l)))
    (hcalls : ∀ call ∈ r.doneCalls, ∀ v v', I v → call.Effect v v' → I v')
    (hF : ∀ loose looseC v rt', I v → Slabs plain loose out looseC [] rt' → Stalled v rt'.view →
      (rt'.Exhausted ∨ ¬ plain) → F rt') :
    Ends (· = rt) (settleCancel i pending cancelled loc r)
      (fun _ rt' => Slabs plain [] out [] [] rt') F := by
  unfold settleCancel
  refine Ends.ite (fun _ => Ends.ite (fun _ => ?_) fun _ => ?_) fun _ => Ends.pure ?_
  · refine (dispatchCancelOf_ends h loc hp hI hcalls hF).bind_eq fun loc' rt₁ h₁ => ?_
    refine (clearPending_ends h₁ hi).bind_eq fun _ rt₂ h₂ => Ends.pure ?_
    rintro _ rfl
    exact h₂
  · refine (dropCancelOf_ends h).bind_eq fun _ rt₁ h₁ => ?_
    refine (clearPending_ends h₁ hi).bind_eq fun _ rt₂ h₂ => Ends.pure ?_
    rintro _ rfl
    exact h₂
  · rintro _ rfl
    exact h

/-- A shim may panic over its own run's place in the arena before it runs, or in a call. -/
theorem runShim_ends {I : View L → Prop} (h : Slabs plain [] out [] [] rt) (id shim : ℕ)
    {run : Option (ℕ × ℕ)} (outcome : OpOutcome) (done : ℕ) (loc : L) (cls : ℕ)
    {calls : List (Call L)} (hp : plain → calls.all Call.plain = true)
    (hI : ∀ bufs, rt.bufArena.bufsOf run = some bufs → I ({ rt.view with arena := .new }.push
      (.shim id shim ⟨loc, bufs, outcome, done, cls⟩)))
    (hcalls : ∀ call ∈ calls, ∀ v v', I v → call.Effect v v' → I v')
    (hslice : rt.bufArena.bufsOf run = none → F { rt with bufArena := .new })
    (hF : ∀ loose looseC v rt', I v → Slabs plain loose out looseC [] rt' → Stalled v rt'.view →
      (rt'.Exhausted ∨ ¬ plain) → F rt') :
    Ends (· = rt) (runShim id shim run outcome done loc cls calls)
      (fun _ rt' => Slabs plain [] out [] [] rt' ∧ I rt'.view) F := by
  have hnew : Slabs plain [] out [] [] { rt with bufArena := .new } := ⟨h.ops, h.cancels, h.asked⟩
  unfold runShim
  refine Ends.get_bind (Ends.modify_bind ?_)
  cases hb : rt.bufArena.bufsOf run with
  | none =>
    rintro _ rfl
    exact hslice hb
  | some bufs =>
    refine Ends.ofOption_bind rfl ?_
    have hrec := (record_ends (F := F) hnew (.shim id shim ⟨loc, bufs, outcome, done, cls⟩)).and
      (record_spec (E := fun _ => True) _)
    refine hrec.bind_eq fun _ rt₁ h₁ => ?_
    obtain ⟨⟨h₁, -⟩, hv₁⟩ := h₁
    have hI₁ : I rt₁.view := by
      rw [hv₁]
      exact hI bufs hb
    exact calls_ends h₁ hp hI₁ hcalls hF

/-- The arena put aside may be unfit to take the shim's own run back. -/
theorem dispatchShim_ends {I : View L → Prop} (h : Slabs plain [] out [] [] rt) (id shim : ℕ)
    {run : Option (ℕ × ℕ)} (outcome : OpOutcome) (done : ℕ) (loc : L) (cls : ℕ)
    {calls : List (Call L)} (hp : plain → calls.all Call.plain = true)
    (hI : ∀ bufs, rt.bufArena.bufsOf run = some bufs → I ({ rt.view with arena := .new }.push
      (.shim id shim ⟨loc, bufs, outcome, done, cls⟩)))
    (hcalls : ∀ call ∈ calls, ∀ v v', I v → call.Effect v v' → I v')
    (harena : ∀ v arena, I v → I { v with arena := arena })
    (hslice : rt.bufArena.bufsOf run = none → F { rt with bufArena := .new })
    (hF : ∀ loose looseC v rt', I v → Slabs plain loose out looseC [] rt' → Stalled v rt'.view →
      (rt'.Exhausted ∨ ¬ plain) → F rt')
    (hrel : ∀ e rt', rt.bufArena.giveBack run = .error e → I rt'.view →
      Slabs plain [] out [] [] rt' → F rt') :
    Ends (· = rt) (dispatchShim id shim run outcome done loc cls calls)
      (fun _ rt' => Slabs plain [] out [] [] rt' ∧ I rt'.view) F := by
  rw [dispatchShim_eq]
  refine Ends.get_bind ?_
  have hrun := runShim_ends h id shim outcome done loc cls hp hI hcalls hslice hF
  refine hrun.bind_eq fun _ rt₂ h₂ => Ends.modify_bind ?_
  have hback : Slabs plain [] out [] [] { rt₂ with bufArena := rt.bufArena } :=
    ⟨h₂.1.ops, h₂.1.cancels, h₂.1.asked⟩
  have hfail : ∀ e, rt.bufArena.giveBack run = .error e → F { rt₂ with bufArena := rt.bufArena } :=
    fun e he => hrel e _ he (harena _ _ h₂.2) hback
  have hrest := (releaseRun_ends hback hfail).and
    (releaseRun_spec (E := fun _ => True) fun _ _ => trivial)
  refine hrest.post fun _ rt₃ h₃ => ?_
  obtain ⟨⟨h₃, -⟩, arena, -, hv₃⟩ := h₃
  rw [hv₃]
  exact ⟨h₃, harena rt₂.view arena h₂.2⟩

/-- The local is out of a slot in use, or nothing happens. -/
theorem beginOp_ends (h : Slabs plain [] [] [] [] rt) (cancelled : Bool) :
    Ends (· = rt) (beginOp i cancelled) (fun b rt' => match b with
      | none => Slabs plain [] [] [] [] rt'
      | some b => (plain → b.run = none) ∧ Slabs plain [] [i] [] [] rt') F := by
  unfold beginOp
  refine Ends.get_bind ?_
  cases hs : rt.ioSlab[i]? with
  | none =>
    apply Ends.pure
    rintro _ rfl
    exact h
  | some slot =>
    refine Ends.ite (fun _ => Ends.pure ?_) fun hf => ?_
    · rintro _ rfl
      exact h
    have hi : rt.Holds [] i := ⟨List.not_mem_nil, slot, hs, IoSlot.link_none (by simpa using hf)⟩
    obtain ⟨slot', hs', -, -, ⟨shim, done, hbody⟩, -⟩ := h.live hi
    obtain rfl := Option.some.inj (hs.symm.trans hs')
    simp only [hbody]
    refine (takeBufRun_ends h hi).bind_eq fun run rt₁ h₁ => ?_
    obtain ⟨-, hrun, h₁, hi₁, hbare, -⟩ := h₁
    refine (takeLocal_ends h₁ hi₁ hbare).bind_eq fun loc rt₂ h₂ => ?_
    refine (record_ends h₂ _).bind_eq fun _ rt₃ h₃ => Ends.pure ?_
    rintro _ rfl
    exact ⟨hrun, h₃.1⟩

/-- While its cancellation is settled an op is live without its local, and so it is when a call of
the cancel callback panics. -/
theorem settleOp_ends (h : Slabs plain [] [] [] [] rt) (completion : CompletedOp) {r : Reaction L}
    (hp : plain → r.doneCalls.all Call.plain = true)
    (hF : ∀ loose looseC rt', Slabs plain loose [i] looseC [] rt' → (rt'.Exhausted ∨ ¬ plain) →
      F rt') :
    Ends (· = rt) (settleOp i completion r) (fun s rt' => match s with
      | none => Slabs plain [] [] [] [] rt'
      | some (b, _) => (plain → b.run = none) ∧ Slabs plain [] [i] [] [] rt') F := by
  unfold settleOp
  refine (beginOp_ends h completion.cancelled).bind_eq fun b rt₁ h₁ => ?_
  cases b with
  | none =>
    apply Ends.pure
    rintro _ rfl
    exact h₁
  | some b =>
    have hsettle := settleCancel_ends (I := fun _ => True) h₁.2 List.mem_cons_self b.pending
      (b.pending && completion.cancelled) b.loc hp (fun _ _ _ _ _ _ => trivial)
      (fun _ _ _ _ _ _ => trivial) fun loose looseC _ rt' _ hs _ he => hF loose looseC rt' hs he
    refine hsettle.bind_eq fun loc rt₂ h₂ => Ends.pure ?_
    rintro _ rfl
    exact ⟨h₁.1, h₂⟩

/-- The slot is freed before the shim runs. -/
theorem finishOp_ends {I : View L → Prop} (h : Slabs plain [] [i] [] [] rt)
    (completion : CompletedOp) {r : Reaction L} (b : Begun L) (loc : L)
    (hp : plain → r.shimCalls.all Call.plain = true)
    (hI : ∀ bufs outcome, rt.bufArena.bufsOf b.run = some bufs →
      I ({ rt.view.setOp i none with arena := .new }.push
        (.shim b.id b.shim ⟨loc, bufs, outcome, b.done, completion.cls⟩)))
    (hcalls : ∀ call ∈ r.shimCalls, ∀ v v', I v → call.Effect v v' → I v')
    (harena : ∀ v arena, I v → I { v with arena := arena })
    (hslice : rt.bufArena.bufsOf b.run = none → ∀ rt', Slabs plain [] [] [] [] rt' →
      rt'.view = { rt.view.setOp i none with arena := .new } → F rt')
    (hF : ∀ loose looseC v rt', I v → Slabs plain loose [] looseC [] rt' → Stalled v rt'.view →
      (rt'.Exhausted ∨ ¬ plain) → F rt')
    (hrel : ∀ e rt', rt.bufArena.giveBack b.run = .error e → I rt'.view →
      Slabs plain [] [] [] [] rt' → F rt') :
    Ends (· = rt) (finishOp i completion r b loc)
      (fun _ rt' => Slabs plain [] [] [] [] rt' ∧ I rt'.view) F := by
  unfold finishOp
  have hfree := (freeOpSlotTaken_ends (F := F) h).and
    (freeOpSlotTaken_spec (E := fun _ => True) (fun _ _ => trivial) i)
  refine hfree.bind_eq fun _ rt₁ h₁ => ?_
  obtain ⟨h₁, hv₁⟩ := h₁
  have harena₁ : rt₁.bufArena = rt.bufArena := congrArg View.arena hv₁
  have hnew : Slabs plain [] [] [] [] { rt₁ with bufArena := .new } :=
    ⟨h₁.ops, h₁.cancels, h₁.asked⟩
  have hview : Runtime.view { rt₁ with bufArena := .new } =
      { rt.view.setOp i none with arena := .new } := by
    rw [← hv₁]
    rfl
  apply dispatchShim_ends h₁ _ _ _ _ _ _ hp
  · intro bufs hb
    rw [hv₁]
    exact hI bufs _ (harena₁ ▸ hb)
  · exact hcalls
  · exact harena
  · exact fun hb => hslice (harena₁ ▸ hb) _ hnew hview
  · exact hF
  · exact fun e rt' he => hrel e rt' (harena₁ ▸ he)

theorem completeCancel_ends (h : Slabs plain [] [] [] [] rt) (result : ℤ) :
    Ends (· = rt) (completeCancel j result : M L Unit)
      (fun _ rt' => Slabs plain [] [] [] [] rt') F := by
  unfold completeCancel
  refine Ends.get_bind ?_
  cases hs : rt.cancelSlab[j]? with
  | none =>
    apply Ends.pure
    rintro _ rfl
    exact h
  | some slot =>
    refine Ends.ite (fun _ => Ends.pure ?_) fun hf => Ends.ite (fun _ => Ends.pure ?_) fun _ => ?_
    · rintro _ rfl
      exact h
    · rintro _ rfl
      exact h
    have hj : rt.HoldsCancel [] j :=
      ⟨List.not_mem_nil, slot, hs, CancelSlot.link_none (by simpa using hf)⟩
    refine (takeCancelLocal_ends h hj).bind_eq fun loc rt₁ h₁ => ?_
    refine (record_ends h₁.1 _).bind_eq fun _ rt₂ h₂ => ?_
    refine (freeCancelSlot_ends h₂.1).bind_eq fun _ rt₃ h₃ => Ends.get_bind ?_
    cases ht : rt₃.ioSlab[slot.target]? with
    | none =>
      apply Ends.pure
      rintro _ rfl
      exact h₃.1
    | some victim =>
      refine Ends.ite (fun hm => ?_) fun _ => Ends.pure ?_
      · have hbits : idBits victim.id ≠ 0 := hm.2 ▸ slot.targetId.2
        have hl : victim.link = none := IoSlot.link_none (isFree_of_idBits hbits)
        obtain ⟨-, hbody, hbuf, hloc⟩ := (h₃.1.ops.each _ victim ht).live hl
        have hbits' : idBits (idBits victim.id) ≠ 0 := by rwa [idBits_idBits]
        have hl' : ({ victim with id := idBits victim.id } : IoSlot L).link = none :=
          IoSlot.link_none (isFree_of_idBits hbits')
        apply Ends.update
        rintro _ rfl
        exact ⟨h₃.1.ops.update ht hl hl' (.inr ⟨hbits', hbody, hbuf, hloc⟩), h₃.1.cancels,
          h₃.1.asked⟩
      · rintro _ rfl
        exact h₃.1

end

end Conrt.Coio
