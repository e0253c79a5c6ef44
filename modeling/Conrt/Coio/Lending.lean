import Conrt.Coio.Delivery
import Conrt.Coio.Unwind

/-! The buffers a `read` or `write` gives away: what rebuilds them, however a run ends. -/
namespace Conrt.Coio

open Conrt.Base

variable {L : Type}

/-- The byte count an outcome reports; `none` is a failure. -/
def transferred : OpOutcome → Option ℕ
  | .completed result _ => if result < 0 then none else some (toU32 result.toNat)
  | .cancelled => none

def isTeardown (done : ℕ) : Bool := done == 0

/-- A buffer that was rebuilt, with its byte count; it is given to the op's callback or dropped. -/
structure Rebuilt where
  buf : IoBufErased
  written : ℕ
  delivered : Bool
deriving DecidableEq

/-- What `finish_buf_op` rebuilds; `none` when it panics over the number of buffers. -/
def finishBufOp (args : OpShimArgs L) : Option Rebuilt :=
  match args.bufs with
  | [buf] => some ⟨buf, (transferred args.outcome).getD 0, !isTeardown args.done⟩
  | _ => none

def Entry.rebuilds : Entry L → Option Rebuilt
  | .shim _ _ args => finishBufOp args
  | _ => none

/-- What the shim of op `id` has rebuilt. -/
def rebuilt (id : ℕ) (log : List (Entry L)) : List Rebuilt :=
  (log.filter (·.isShimOf id)).filterMap Entry.rebuilds

/-- `Drop for Runtime`: the backend is torn down and the live slots drop their locals. -/
def Runtime.drop (rt : Runtime L) : Runtime L :=
  { rt with
    backend := ⟨[], [], rt.backend.verdicts⟩
    ioSlab := rt.ioSlab.map fun slot => if isFree slot.id then slot else { slot with loc := none }
    cancelSlab := rt.cancelSlab.map fun slot =>
      if isFree slot.id then slot else { slot with loc := none } }

/-- Of a `read` or `write`, an op with one buffer and a callback, the buffer is rebuilt once: for the
callback, or to be dropped if the op is still in its slot when the runtime is, or was refused. -/
structure Runtime.BuffersLinear (rt : Runtime L) : Prop where
  dispatched : ∀ id shim done loc buf, done ≠ 0 → .registered id shim done loc [buf] ∈ rt.log →
    ∃ written, rebuilt id rt.log = [⟨buf, written, !rt.holdsOp id⟩]
  refused : ∀ id buf, .refused id [buf] ∈ rt.log →
    ∃ written, rebuilt id rt.log = [⟨buf, written, false⟩]

/-- No `read` or `write` has been refused and none is in its slot. -/
structure Runtime.NoneOut (rt : Runtime L) : Prop where
  refused : ∀ id buf, .refused id [buf] ∉ rt.log
  inFlight : ∀ id shim done loc buf, done ≠ 0 → .registered id shim done loc [buf] ∈ rt.log →
    rt.holdsOp id = false

section log

variable {id : ℕ} {log : List (Entry L)}

theorem rebuilt_eq_nil (h : shimCount id log = 0) : rebuilt id log = [] := by
  have hnone : log.filter (·.isShimOf id) = [] := by
    rwa [← List.length_eq_zero_iff, ← List.countP_eq_length_filter]
  rw [rebuilt, hnone, List.filterMap_nil]

/-- A shim that has run once has rebuilt its op's buffer once. -/
theorem rebuilt_eq_singleton (h : shimCount id log = 1) {buf : IoBufErased} {done : ℕ}
    (hd : done ≠ 0) (hargs : ∀ shim args, .shim id shim args ∈ log → args.bufs = [buf] ∧
      args.done = done) : ∃ written, rebuilt id log = [⟨buf, written, true⟩] := by
  obtain ⟨e, he⟩ : ∃ e, log.filter (·.isShimOf id) = [e] := by
    rwa [← List.length_eq_one_iff, ← List.countP_eq_length_filter]
  have hmem : e ∈ log.filter (·.isShimOf id) := he ▸ List.mem_singleton_self e
  obtain ⟨hm, hid⟩ := List.mem_filter.mp hmem
  cases e with
  | shim id' shim args =>
    obtain rfl : id' = id := by simpa [Entry.isShimOf] using hid
    obtain ⟨hbufs, hdone⟩ := hargs shim args hm
    have hteardown : isTeardown args.done = false := by simpa [isTeardown, hdone] using hd
    refine ⟨(transferred args.outcome).getD 0, ?_⟩
    rw [rebuilt, he]
    simp [Entry.rebuilds, finishBufOp, hbufs, hteardown]
  | _ => cases hid

end log

/-- An id is registered with one callback. -/
theorem View.Once.done_eq {v : View L} (h : v.Once) {id shim done shim' done' : ℕ} {loc loc' : L}
    {bufs bufs' : List IoBufErased} (hm : .registered id shim done loc bufs ∈ v.log)
    (hm' : .registered id shim' done' loc' bufs' ∈ v.log) : done = done' := by
  have hone : v.log.countP (·.isRegisteredAs id) = 1 :=
    le_antisymm (h.unique id) (registeredCount_pos hm)
  obtain ⟨e, he⟩ : ∃ e, v.log.filter (·.isRegisteredAs id) = [e] := by
    rwa [← List.length_eq_one_iff, ← List.countP_eq_length_filter]
  have honly : ∀ e' ∈ v.log, e'.isRegisteredAs id = true → e' = e := fun e' hin hp =>
    List.mem_singleton.mp (he ▸ List.mem_filter.mpr ⟨hin, hp⟩)
  have heq := (honly _ hm (by simp [Entry.isRegisteredAs])).trans
    (honly _ hm' (by simp [Entry.isRegisteredAs])).symm
  exact (Entry.registered.inj heq).2.2.1

theorem drop_log (rt : Runtime L) : rt.drop.log = rt.log := rfl

private theorem holdsOp_drop (rt : Runtime L) (id : ℕ) : rt.drop.holdsOp id = rt.holdsOp id := by
  unfold Runtime.holdsOp Runtime.drop
  rw [List.any_map]
  congr 1
  funext slot
  by_cases hf : isFree slot.id = true
  · simp [hf]
  · simp [hf]

/-- After a loop that went on until nothing was live, nothing is in its slot. -/
theorem noneOut_of_idle {rt : Runtime L} (h : rt.anyLive = false)
    (hr : ∀ id buf, .refused id [buf] ∉ rt.log) : rt.NoneOut := by
  refine ⟨hr, fun id _ _ _ _ _ _ => ?_⟩
  obtain ⟨hops, -⟩ := Bool.or_eq_false_iff.mp h
  rw [Runtime.holdsOp, List.any_eq_false]
  intro slot hs
  have hfree := List.any_eq_false.mp hops slot hs
  simp only [Bool.not_eq_true, Bool.not_eq_false'] at hfree
  simp [hfree]

/-- Every shim that ran did so once, with what its op had been registered with. -/
structure View.Lent (v : View L) : Prop where
  once : v.Once
  owes : ∃ A due, Owes A due v

/-- The same of a state the run may have stopped in, with a slot or an id taken but not used. -/
def Runtime.Lent (rt : Runtime L) : Prop := ∃ v : View L, v.Lent ∧ rt.view.op = v.op ∧ rt.log = v.log

section

variable {rt : Runtime L} {v v' : View L}

theorem View.Lent.setArena (h : v.Lent) (arena : BufArena) : View.Lent { v with arena := arena } := by
  obtain ⟨A, due, howes⟩ := h.owes
  have hs : View.Sane { v with arena := arena } :=
    h.once.sane.congr (fun _ o ho => ⟨o, ho, rfl⟩) rfl h.once.sane.armed le_rfl
      fun _ _ _ _ _ hm => hm
  exact ⟨h.once.frame rfl rfl le_rfl hs, A, due, howes.congr hs
    (fun _ o ho hl => ⟨o, ho, hl, rfl, rfl⟩) (fun _ he => he) fun _ _ _ hm => hm⟩

/-- A call made by a shim. -/
theorem View.Lent.aside (h : v.Lent) {call : Call L} (hn : call.carriesRun = false)
    (he : call.Effect v v') : v'.Lent := by
  obtain ⟨A, due, howes⟩ := h.owes
  obtain ⟨new, howes'⟩ := howes.parked hn he
  exact ⟨h.once.effect he, A, _, howes'⟩

theorem Runtime.Lent.of_view (h : rt.view.Lent) : rt.Lent := ⟨rt.view, h, rfl, rfl⟩

theorem Runtime.Lent.of_stalled (h : v.Lent) (hst : Stalled v rt.view) : rt.Lent :=
  ⟨v, h, hst.op, hst.log⟩

/-- What was lent has been rebuilt once if and only if nothing was out when the runtime was dropped. -/
theorem Runtime.Lent.linear_iff (h : rt.Lent) : rt.drop.BuffersLinear ↔ rt.NoneOut := by
  obtain ⟨v, ⟨honce, A, due, howes⟩, hop, hlog⟩ := h
  have hholds : ∀ id, rt.holdsOp id = true ↔ ∃ i o, v.op i = some o ∧ o.id = id := by
    intro id
    rw [holdsOp_iff, hop]
  constructor
  · intro hlin
    refine ⟨fun id buf hm => ?_, fun id shim done loc buf hd hm => ?_⟩
    · obtain ⟨written, hone⟩ := hlin.refused id buf hm
      have hzero : shimCount id rt.log = 0 := by
        rw [hlog]
        apply shimCount_eq_zero
        intro shim args hs
        obtain ⟨loc, bufs, hreg, -⟩ := honce.ran id shim args hs
        exact (honce.refused id [buf] (hlog ▸ hm)).2 _ _ _ _ hreg
      rw [drop_log, rebuilt_eq_nil hzero] at hone
      cases hone
    · by_contra hheld
      obtain ⟨i, o, ho, rfl⟩ := (hholds id).mp (by simpa using hheld)
      obtain ⟨written, hone⟩ := hlin.dispatched o.id shim done loc buf hd hm
      have hzero : shimCount o.id rt.log = 0 := hlog ▸ honce.waiting i o ho
      rw [drop_log, rebuilt_eq_nil hzero] at hone
      cases hone
  · intro hout
    refine ⟨fun id shim done loc buf hd hm => ?_, fun id buf hm => absurd hm (hout.refused id buf)⟩
    have hfree := hout.inFlight id shim done loc buf hd hm
    rw [holdsOp_drop, hfree]
    have hone : shimCount id rt.log = 1 := by
      rcases honce.once id shim done loc [buf] (hlog ▸ hm) with hlive | hone
      · rw [(hholds id).mpr hlive] at hfree
        cases hfree
      · rwa [hlog]
    apply rebuilt_eq_singleton hone hd
    intro shim' args hs
    obtain ⟨s, d, l, hreg⟩ := howes.shims id shim' args (hlog ▸ hs)
    obtain ⟨l', bufs, hreg', -⟩ := honce.ran id shim' args (hlog ▸ hs)
    have hm' : .registered id shim done loc [buf] ∈ v.log := hlog ▸ hm
    exact ⟨(honce.sane.unique _ _ _ _ _ _ _ _ _ hreg hm').2, honce.done_eq hreg' hm'⟩

end

/-- What holds between events. -/
structure Runtime.Lends (rt : Runtime L) : Prop where
  slabs : Slabs False [] [] [] [] rt
  once : rt.view.Once
  delivers : Delivers rt.view

/-- Op `b` is being completed in slot `i`, its local is `l` by now, and its buffers are due as `d`. -/
structure Begun.Held (b : Begun L) (d : Due) (i : ℕ) (l : L) (v : View L) : Prop where
  id : d.id = b.id
  run : d.run = b.run
  midway : v.Midway i b.id b.shim b.done b.loc l
  owes : ∃ due, d ∈ due ∧ Owes v.arena due v

section

variable {v v' : View L} {rt : Runtime L} {b : Begun L} {d : Due} {i : ℕ} {l : L} {o : LiveOp L}

theorem Runtime.Lends.lent (h : rt.Lends) : rt.view.Lent := by
  obtain ⟨due, howes⟩ := h.delivers
  exact ⟨h.once, _, due, howes⟩

namespace Begun.Held

theorem completing (h : b.Held d i l v) : Completing d i v :=
  ⟨h.owes, h.id ▸ h.midway.busy, h.midway.unarmed⟩

theorem lent (h : b.Held d i l v) : v.Lent := by
  obtain ⟨due, -, howes⟩ := h.owes
  exact ⟨h.midway.once, _, due, howes⟩

theorem effect (h : b.Held d i l v) {call : Call L} (he : call.Effect v v') :
    b.Held d i l v' := by
  obtain ⟨due, hd, howes⟩ := h.owes
  obtain ⟨new, howes'⟩ := howes.effect he
  exact ⟨h.id, h.run, h.midway.effect he, _, List.mem_append_right _ hd, howes'⟩

/-- The cancel callback begins. -/
theorem ran (h : b.Held d i b.loc v) (ho : v.op i = some o) (j call done : ℕ) (l : L) :
    b.Held d i l ((v.setCancel j none).push (.cancelRan call o.id done b.loc l)) := by
  obtain ⟨p, hp, hid, -⟩ := h.midway.busy
  obtain rfl := Option.some.inj (ho.symm.trans hp)
  rw [hid]
  exact ⟨h.id, h.run, (h.midway.freeCancel j).changed, (h.completing.record rfl rfl).owes⟩

end Begun.Held

/-- The op is moved out of its slot. -/
theorem beginOp_held (h : rt.Lends) (ho : rt.view.op i = some o)
    (hun : ∀ id, (i, id) ∉ rt.view.backend.armed) (cancelled : Bool) : Triple (· = rt)
    (beginOp i cancelled) (fun b rt' => ∃ b' d p, b = some b' ∧ b'.Held d i b'.loc rt'.view ∧
      rt'.view.op i = some p) fun _ => True := by
  obtain ⟨slot, hs, hslot⟩ := Option.bind_eq_some_iff.mp ho
  unfold IoSlot.view at hslot
  split_ifs at hslot with hf
  obtain rfl := Option.some.inj hslot
  obtain ⟨shim, done, loc, hbody, hmid⟩ := h.once.take ho hun cancelled
  obtain ⟨due, howes⟩ := h.delivers
  unfold beginOp
  apply Triple.get_bind
  simp only [hs, hf, Bool.false_eq_true, if_false]
  change slot.body = _ at hbody
  rw [hbody]
  refine (takeBufRun_spec any_panic ho).bind_eq fun run rt₁ h₁ => ?_
  obtain ⟨rfl, hv₁⟩ := h₁
  have ho₁ : rt₁.view.op i = some ⟨idBits slot.id, isCancelPending slot.id, slot.body, slot.loc,
      none⟩ := by
    rw [hv₁]
    exact Function.update_self ..
  refine (takeLocal_spec any_panic ho₁).bind_eq fun l rt₂ h₂ => ?_
  obtain ⟨hl, hv₂⟩ := h₂
  refine (record_spec _).bind_eq fun _ rt₃ hv₃ => Triple.pure ?_
  rintro _ rfl
  rw [hv₂, hv₁, View.setOp_setOp] at hv₃
  obtain ⟨rfl, hmid⟩ := hmid l hl
  have hisSome : slot.loc.isSome = true := by
    rw [show slot.loc = some l from hl]
    rfl
  obtain ⟨bufs, hd⟩ := howes.covered i _ ho hisSome
  have hc := howes.take ho hd hun cancelled
  refine ⟨_, ⟨idBits slot.id, slot.takeBufRun.1, bufs⟩,
    ⟨idBits slot.id, isCancelPending slot.id, slot.body, none, none⟩, rfl, ⟨rfl, rfl, ?_, ?_⟩, ?_⟩
  · rw [hv₃]
    exact hmid
  · rw [hv₃]
    exact hc.owes
  · rw [hv₃, View.push_op, View.setOp_op, if_pos rfl]

/-- The cancellation is settled: nothing has been rebuilt yet. -/
theorem settleOp_held (h : rt.Lends) (ho : rt.view.op i = some o)
    (hun : ∀ id, (i, id) ∉ rt.view.backend.armed) (completion : CompletedOp) (r : Reaction L) :
    Ends (· = rt) (settleOp i completion r) (fun s rt' => ∃ b l d, s = some (b, l) ∧
      Slabs False [] [i] [] [] rt' ∧ b.Held d i l rt'.view) Runtime.Lent := by
  unfold settleOp
  have hbegin := (beginOp_ends (F := Runtime.Lent) (i := i) h.slabs completion.cancelled).and
    (beginOp_held h ho hun completion.cancelled)
  refine hbegin.bind_eq fun b rt₁ h₁ => ?_
  obtain ⟨hs, b, d, -, rfl, hheld, -⟩ := h₁
  have hends := settleCancel_ends (F := Runtime.Lent) (I := fun v => ∃ l, b.Held d i l v) hs.2
    List.mem_cons_self b.pending (b.pending && completion.cancelled) b.loc (r := r)
    (fun hp => hp.elim) (fun j q call done l hq => ⟨l, hheld.ran hq j call done l⟩)
    (fun call _ v v' hv he => hv.imp fun l hl => hl.effect he) ?_
  · have hsettle := (hends.and (settleCancel_midway hheld.midway)).and
      (settleCancel_completing hheld.completing)
    refine hsettle.bind_eq fun l rt₂ h₂ => Ends.pure ?_
    rintro _ rfl
    obtain ⟨⟨hs₂, hmid⟩, hc⟩ := h₂
    exact ⟨b, l, d, rfl, hs₂, hheld.id, hheld.run, hmid, hc.owes⟩
  · rintro _ _ v rt' ⟨l, hl⟩ - hst -
    exact .of_stalled hl.lent hst

/-- The op leaves its slot and its shim runs, with the buffers that were due. -/
theorem Begun.Held.park (h : b.Held d i l v) {bufs : List IoBufErased}
    (hbufs : v.arena.bufsOf b.run = some bufs) (outcome : OpOutcome) (cls : ℕ) :
    View.Lent ({ v.setOp i none with arena := .new }.push
      (.shim b.id b.shim ⟨l, bufs, outcome, b.done, cls⟩)) := by
  obtain ⟨due, hd, howes, hgone⟩ := h.completing.free
  have hparked := howes.park hd hgone (h.run ▸ hbufs) b.shim l outcome b.done cls
  obtain ⟨due', -, howes'⟩ := hparked.owes
  rw [h.id] at howes'
  exact ⟨h.midway.finish rfl rfl _, _, _, howes'⟩

theorem Begun.Held.bufs (h : b.Held d i l v) : v.arena.bufsOf b.run ≠ none := by
  obtain ⟨due, hd, howes⟩ := h.owes
  rw [← h.run, (howes.kept d hd).1]
  simp

theorem finishOp_lent (hs : Slabs False [] [i] [] [] rt) (h : b.Held d i l rt.view)
    (completion : CompletedOp) {r : Reaction L} (hn : ∀ call ∈ r.shimCalls, call.carriesRun = false) :
    Ends (· = rt) (finishOp i completion r b l) (fun _ _ => True) Runtime.Lent := by
  apply (finishOp_ends (I := View.Lent) hs completion b l (fun hp => hp.elim) ?_ ?_ ?_ ?_ ?_
    ?_).post fun _ _ _ => trivial
  · exact fun bufs outcome hbufs => h.park hbufs outcome completion.cls
  · exact fun call hc v v' hv he => hv.aside (hn call hc) he
  · exact fun v arena hv => hv.setArena arena
  · exact fun hnone => absurd hnone h.bufs
  · exact fun _ _ v rt' hv _ hst _ => .of_stalled hv hst
  · exact fun _ rt' _ hv _ => .of_view hv

end

section

variable {rt rt' : Runtime L} {e : Event L} {i id : ℕ} {completion : CompletedOp} {r : Reaction L}

private theorem looseStep_of_exec (h : e.exec rt = .ok () rt') : looseStep rt e = some rt' := by
  unfold looseStep
  rw [h]

theorem reaches_lends (h : Reaches owedStep (fun _ e => e.nestsRun = false) .new rt) : rt.Lends := by
  have hd := reaches_delivers h
  have hboth : Reaches looseStep (fun _ _ => True) .new rt ∧ rt.view.Once := by
    clear hd
    induction h with
    | start => exact ⟨.start, .start⟩
    | next _ _ hstep ih =>
      obtain ⟨ho, hx⟩ := exec_of_owedStep hstep
      exact ⟨ih.1.next trivial (looseStep_of_exec hx), (exec_once ih.2 ho).ok rfl hx⟩
  exact ⟨(reaches_owned hboth.1).slabs, hboth.2, hd⟩

/-- An armed op's completion is taken from the backend. -/
theorem receive_lends (h : rt.Lends) (ha : rt.backend.owes (.op i id completion r) = true) :
    ∃ rt₁ o, receive i id completion rt = .ok () rt₁ ∧ rt₁.Lends ∧ rt₁.view.op i = some o ∧
      ∀ id, (i, id) ∉ rt₁.view.backend.armed := by
  have hm : (i, id) ∈ rt.view.backend.armed := of_decide_eq_true ha
  obtain ⟨o, ho, rfl⟩ := h.once.sane.armed i id hm
  obtain ⟨slot, hs, hf, -, -⟩ := view_op_eq_some ho
  obtain ⟨due, howes⟩ := h.delivers
  have hreceive : Ends (· = rt) (receive i o.id completion : M L Unit) (fun _ rt' => rt' = { rt with
      backend.armed := rt.backend.armed.erase (i, o.id)
      backend.verdicts := (o.id, completion.cancelled) :: rt.backend.verdicts }) fun _ => False := by
    unfold receive assertNamesLive
    refine Ends.modify_bind (ioSlot_ends hs (Ends.ite (fun hfree => ?_) fun _ => Ends.pure ?_))
    · rw [hf] at hfree
      cases hfree
    · rintro _ rfl
      rfl
  obtain ⟨_, rt₁, hr, rfl⟩ := hreceive.returns rfl
  refine ⟨_, o, hr, ⟨?_, ?_, ?_⟩, ho, h.once.sane.unarmed ho⟩
  · exact ⟨h.slabs.ops, h.slabs.cancels, h.slabs.asked⟩
  · exact h.once.frame rfl rfl le_rfl (h.once.sane.settle i o.id _)
  · exact ⟨due, howes.congr (howes.sane.settle i o.id _) (fun _ o ho hl => ⟨o, ho, hl, rfl, rfl⟩)
      (fun _ he => he) fun _ _ _ hm => hm⟩

/-- Wherever an event panics, what has been lent is accounted for. -/
theorem exec_lent (h : rt.Lends) (ha : rt.backend.owes e = true) (hn : e.nestsRun = false) :
    Ends (· = rt) e.exec (fun _ _ => True) Runtime.Lent := by
  cases e with
  | outside calls =>
    have hcalls := calls_ends (F := Runtime.Lent) (I := fun v => v.Once ∧ Delivers v) h.slabs
      (fun hp : False => hp.elim) ⟨h.once, h.delivers⟩
      (fun call (_ : call ∈ calls) v v' hv he => ?_) fun _ _ v rt' hv _ hst _ => ?_
    · exact hcalls.post fun _ _ _ => trivial
    · obtain ⟨honce, due, howes⟩ := hv
      obtain ⟨new, howes'⟩ := howes.effect he
      exact ⟨honce.effect he, _, howes'⟩
    · obtain ⟨honce, due, howes⟩ := hv
      exact .of_stalled ⟨honce, _, due, howes⟩ hst
  | op i id completion r =>
    obtain ⟨rt₁, o, hr, h₁, ho, hun⟩ := receive_lends h ha
    have hshim : ∀ call ∈ r.shimCalls, call.carriesRun = false := by
      simpa [Event.nestsRun] using hn
    have hcomplete : Ends (· = rt₁) (completeOp i completion r) (fun _ _ => True) Runtime.Lent := by
      rw [completeOp_eq]
      refine (settleOp_held h₁ ho hun completion r).bind_eq fun s rt₂ h₂ => ?_
      obtain ⟨b, l, d, rfl, hs, hheld⟩ := h₂
      exact finishOp_lent hs hheld completion hshim
    rw [exec_op_eq]
    rintro _ rfl
    rw [bind_of_ok hr]
    exact hcomplete rt₁ rfl
  | cancel j id targetId result =>
    have hm : (j, id, targetId) ∈ rt.backend.cancels :=
      of_decide_eq_true ha
    have hlt := h.slabs.asked j id targetId hm
    unfold Event.exec
    refine Ends.modify_bind (cancelSlot_ends (List.getElem?_eq_getElem hlt) ?_)
    have hslabs : Slabs False [] [] [] [] { rt with
        backend.cancels := rt.backend.cancels.erase (j, id, targetId)
        backend.verdicts := (targetId, decide (result = 0)) :: rt.backend.verdicts } :=
      ⟨h.slabs.ops, h.slabs.cancels, fun k id' t hk =>
        h.slabs.asked k id' t (List.mem_of_mem_erase hk)⟩
    exact (completeCancel_ends hslabs result).post fun _ _ _ => trivial

/-- When a cancel callback panics its op is still in its slot. -/
theorem cancelCallback_lent {o : LiveOp L} (h : rt.Lends) (ho : rt.view.op i = some o)
    (hun : ∀ id, (i, id) ∉ rt.view.backend.armed) : Triple (· = rt)
    (cancelCallback i completion r) (fun _ rt' => rt'.view.Lent) fun _ => True := by
  unfold cancelCallback
  refine (beginOp_held h ho hun completion.cancelled).bind_eq fun b rt₁ h₁ => ?_
  obtain ⟨b, d, p, rfl, hheld, hp⟩ := h₁
  refine Triple.ite (fun _ => Triple.get_bind ?_) fun _ => Triple.pure ?_
  · have hdispatch := dispatchCancelOf_rule any_panic hp b.loc (r := r)
      (I := fun l v => b.Held d i l v) (fun j c loc done _ _ _ _ _ => hheld.ran hp j _ _ _)
      fun l => CallsKeep.of_effect any_panic (fun v _ => any_safe v.arena)
        fun call _ v v' hv he => hv.effect he
    refine hdispatch.bind_eq fun l rt₂ h₂ => Triple.pure ?_
    rintro _ rfl
    rcases h₂ with ⟨-, rfl, -⟩ | hheld₂
    · exact hheld.lent
    · exact hheld₂.lent
  · rintro _ rfl
    exact hheld.lent

/-- When a shim panics it has rebuilt what its op was registered with. -/
theorem shimCallback_lent {o : LiveOp L} (h : rt.Lends) (ho : rt.view.op i = some o)
    (hun : ∀ id, (i, id) ∉ rt.view.backend.armed)
    (hn : ∀ call ∈ r.shimCalls, call.carriesRun = false) :
    Ends (· = rt) (shimCallback i completion r) (fun _ rt' => rt'.view.Lent) fun _ => True := by
  unfold shimCallback
  refine ((settleOp_held h ho hun completion r).weaken fun _ _ => trivial).bind_eq
    fun s rt₁ h₁ => ?_
  obtain ⟨b, l, d, rfl, hs, hheld⟩ := h₁
  have hfree := (freeOpSlotTaken_ends (F := fun _ => True) hs).and (freeOpSlotTaken_spec any_panic i)
  refine hfree.bind_eq fun _ rt₂ h₂ => ?_
  obtain ⟨h₂, hv₂⟩ := h₂
  apply (runShim_ends (F := fun _ => True) (I := View.Lent) h₂ _ _ _ _ _ _ (fun hp => hp.elim)
    ?_ ?_ (fun _ => trivial) fun _ _ _ _ _ _ _ _ => trivial).bind_eq
  · intro _ rt₃ h₃
    apply Ends.pure
    rintro _ rfl
    exact h₃.2
  · intro bufs hbufs
    rw [hv₂]
    exact hheld.park (by rwa [show rt₂.bufArena = rt₁.bufArena from congrArg View.arena hv₂] at hbufs)
      _ _
  · exact fun call hc v v' hv he => hv.aside (hn call hc) he

/-- The completion an ending is about. -/
def Ending.event : Ending L → Option (Event L)
  | .between => none
  | .within e => some e
  | .cancelPanics slot id completion r => some (.op slot id completion r)
  | .shimPanics slot id completion r => some (.op slot id completion r)

theorem leaves_lent (h : rt.Lends) {x : Ending L} (ha : ∀ e, x.event = some e →
    rt.backend.owes e = true ∧ e.nestsRun = false) (hx : x.leaves rt = some rt') : rt'.Lent := by
  cases x with
  | between =>
    obtain rfl := Option.some.inj hx
    exact .of_view h.lent
  | within e =>
    obtain ⟨howed, hn⟩ := ha e rfl
    simp only [Ending.leaves] at hx
    cases hr : e.exec rt with
    | ok _ _ =>
      rw [hr] at hx
      cases hx
    | error p s =>
      rw [hr] at hx
      obtain rfl := Option.some.inj hx
      exact (exec_lent h howed hn).error rfl hr
  | cancelPanics i id completion r =>
    obtain ⟨rt₁, o, hr, h₁, ho, hun⟩ := receive_lends h (ha _ rfl).1
    simp only [Ending.leaves, bind_of_ok hr] at hx
    split at hx
    · rename_i s hc
      obtain rfl := Option.some.inj hx
      exact .of_view ((cancelCallback_lent h₁ ho hun).ok rfl hc)
    · cases hx
  | shimPanics i id completion r =>
    obtain ⟨howed, hn⟩ := ha _ rfl
    obtain ⟨rt₁, o, hr, h₁, ho, hun⟩ := receive_lends h howed
    have hshim : ∀ call ∈ r.shimCalls, call.carriesRun = false := by
      simpa [Event.nestsRun] using hn
    simp only [Ending.leaves, bind_of_ok hr] at hx
    split at hx
    · rename_i s hc
      obtain rfl := Option.some.inj hx
      exact .of_view ((shimCallback_lent h₁ ho hun hshim).ok rfl hc)
    · cases hx

/-- While no shim registers an op with buffers, and however the run ends, each buffer that a `read` or
`write` gave away is rebuilt once if and only if none was refused and none is in its slot at the end. -/
theorem buffers_linear_iff (h : Reaches owedStep (fun _ e => e.nestsRun = false) .new rt) {x : Ending L}
    (ha : ∀ e, x.event = some e → rt.backend.owes e = true ∧ e.nestsRun = false)
    (hx : x.leaves rt = some rt') : rt'.drop.BuffersLinear ↔ rt'.NoneOut :=
  (leaves_lent (reaches_lends h) ha hx).linear_iff

end

def twoReads : List (Event Unit) :=
  [.outside [.register 0 7 () 0 [⟨1, 1⟩] true, .register 0 7 () 0 [⟨2, 2⟩] true],
    .op 1 2 ⟨5, 0, 0, false⟩ mute]

def failedRead : Ending Unit := .shimPanics 0 1 ⟨-5, 0, 0, false⟩ mute

theorem buffers_linear_iff_panic : ∃ rt rt' : Runtime Unit, run owedStep .new twoReads = some rt ∧
    failedRead.leaves rt = some rt' ∧ rebuilt 1 rt'.drop.log = [⟨⟨1, 1⟩, 0, true⟩] ∧
      rebuilt 2 rt'.drop.log = [⟨⟨2, 2⟩, 5, true⟩] ∧ rt'.drop.BuffersLinear := by
  have hrun : (run owedStep .new twoReads).any (fun rt =>
      rt.backend.owes (.op 0 1 ⟨-5, 0, 0, false⟩ mute) && (failedRead.leaves rt).any fun rt' =>
        rt'.log == [.registered 1 0 7 () [⟨1, 1⟩], .registered 2 0 7 () [⟨2, 2⟩],
          .completed 2 false, .shim 2 0 ⟨(), [⟨2, 2⟩], .completed 5 0, 7, 0⟩,
          .completed 1 false, .shim 1 0 ⟨(), [⟨1, 1⟩], .completed (-5) 0, 7, 0⟩] &&
          !rt'.anyLive) = true := by decide +kernel
  obtain ⟨rt, hrt, htest⟩ := (Option.any_eq_true _ _).mp hrun
  obtain ⟨howed, hleft⟩ := Bool.and_eq_true_iff.mp htest
  obtain ⟨rt', hrt', hend⟩ := (Option.any_eq_true _ _).mp hleft
  simp only [Bool.and_eq_true, beq_iff_eq, Bool.not_eq_true'] at hend
  obtain ⟨hlog, hidle⟩ := hend
  have hreach : Reaches owedStep (fun _ e => e.nestsRun = false) .new rt :=
    reaches_of_run (meets_of_forall (by decide)) hrt
  have hevent : ∀ e, failedRead.event = some e →
      rt.backend.owes e = true ∧ e.nestsRun = false := by
    rintro e he
    obtain rfl := Option.some.inj he
    exact ⟨howed, rfl⟩
  refine ⟨rt, rt', hrt, hrt', ?_, ?_, (buffers_linear_iff hreach hevent hrt').mpr ?_⟩
  · rw [drop_log, hlog]
    decide
  · rw [drop_log, hlog]
    decide
  · exact noneOut_of_idle hidle fun id buf hm => by simp [hlog] at hm

def refusedRead : List (Event Unit) := [.outside [.register 0 7 () 0 [⟨1, 1⟩] false]]

def pendingRead : List (Event Unit) := [.outside [.register 0 7 () 0 [⟨1, 1⟩] true]]

/-- Neither of the two buffers is ever rebuilt. -/
theorem erased_buffers_lost :
    (∃ rt, run owedStep .new refusedRead = some rt ∧ rebuilt 1 rt.drop.log = [] ∧
      ¬ rt.drop.BuffersLinear) ∧
    ∃ rt, run owedStep .new pendingRead = some rt ∧ rebuilt 1 rt.drop.log = [] ∧
      ¬ rt.drop.BuffersLinear := by
  have hrefused : (run owedStep .new refusedRead).map (·.log) = some [.refused 1 [⟨1, 1⟩]] := by
    decide +kernel
  have hpending : (run owedStep .new pendingRead).map (·.log) = some
      [.registered 1 0 7 () [⟨1, 1⟩]] := by decide +kernel
  constructor
  · obtain ⟨rt, hrt, hlog⟩ := Option.map_eq_some_iff.mp hrefused
    have hnil : rebuilt 1 rt.drop.log = [] := by
      rw [drop_log, hlog]
      rfl
    refine ⟨rt, hrt, hnil, fun hlin => ?_⟩
    obtain ⟨written, hone⟩ := hlin.refused 1 ⟨1, 1⟩ (by simp [drop_log, hlog])
    rw [hnil] at hone
    cases hone
  · obtain ⟨rt, hrt, hlog⟩ := Option.map_eq_some_iff.mp hpending
    have hnil : rebuilt 1 rt.drop.log = [] := by
      rw [drop_log, hlog]
      rfl
    refine ⟨rt, hrt, hnil, fun hlin => ?_⟩
    obtain ⟨written, hone⟩ := hlin.dispatched 1 0 7 () ⟨1, 1⟩ (by decide) (by simp [drop_log, hlog])
    rw [hnil] at hone
    cases hone

end Conrt.Coio
