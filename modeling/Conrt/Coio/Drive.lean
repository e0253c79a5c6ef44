import Conrt.Base.Run
import Conrt.Coio.Once
import Conrt.Coio.Slabs

/-! What the backend owes, the slabs in order, and when the drive loop stops. -/
namespace Conrt.Coio

open Conrt.Base

variable {L : Type}

/-- Every live op has its request with the backend, but the one in the slot `busy`. -/
def View.ArmedBut (busy : Option ℕ) (v : View L) : Prop :=
  ∀ i o, v.op i = some o → busy ≠ some i → (i, o.id) ∈ v.backend.armed

/-- Op `id` was registered, and the backend no longer has its request. -/
structure View.Spent (id : ℕ) (v : View L) : Prop where
  past : id < v.nextOpId
  unarmed : ∀ i, (i, id) ∉ v.backend.armed
  registered : ∃ shim done loc bufs, .registered id shim done loc bufs ∈ v.log

/-- The completion of op `id` has come and slot `i` still holds the op. -/
structure View.Leaving (i id : ℕ) (v : View L) : Prop where
  sane : v.Sane
  live : ∃ o, v.op i = some o ∧ o.id = id
  armed : v.ArmedBut (some i)
  spent : v.Spent id

section

variable {v v' : View L} {rt : Runtime L} {i id : ℕ} {busy : Option ℕ} {o : LiveOp L}

theorem View.ArmedBut.congr (h : v.ArmedBut busy)
    (hop : ∀ i o', v'.op i = some o' → ∃ o, v.op i = some o ∧ o.id = o'.id)
    (harmed : v'.backend.armed = v.backend.armed) : v'.ArmedBut busy := by
  intro i o' ho' hb
  obtain ⟨o, ho, hid⟩ := hop i o' ho'
  rw [harmed, ← hid]
  exact h i o ho hb

theorem View.ArmedBut.effect (h : v.ArmedBut busy) {call : Call L} (he : call.Effect v v') :
    v'.ArmedBut busy := by
  intro k p hp hb
  rcases he.grows.origin k p hp with ⟨-, hm⟩ | ⟨o, ho, hid⟩
  · exact hm
  · exact he.grows.armed _ (hid ▸ h k o ho hb)

theorem View.Spent.congr (h : v.Spent id) (harmed : v'.backend.armed = v.backend.armed)
    (hnext : v.nextOpId ≤ v'.nextOpId) (hlog : ∀ e ∈ v.log, e ∈ v'.log) : v'.Spent id := by
  obtain ⟨shim, done, loc, bufs, hreg⟩ := h.registered
  exact ⟨h.past.trans_le hnext, harmed ▸ h.unarmed, shim, done, loc, bufs, hlog _ hreg⟩

theorem View.Spent.effect (h : v.Spent id) {call : Call L} (he : call.Effect v v') :
    v'.Spent id := by
  obtain ⟨new, hlog⟩ := he.log
  obtain ⟨shim, done, loc, bufs, hreg⟩ := h.registered
  refine ⟨h.past.trans_le he.grows.next, fun k hm => ?_, shim, done, loc, bufs, ?_⟩
  · rcases he.grows.fresh _ hm with hold | hnew
    · exact h.unarmed k hold
    · exact absurd h.past (Nat.not_lt.mpr hnew)
  · exact hlog ▸ List.mem_append_left _ hreg

namespace View.Leaving

theorem effect (h : v.Leaving i id) {call : Call L} (he : call.Effect v v') : v'.Leaving i id := by
  obtain ⟨o, ho, hid⟩ := h.live
  have hun : ∀ id', (i, id') ∉ v.backend.armed := by
    intro id' hm
    obtain ⟨p, hp, rfl⟩ := h.sane.armed i id' hm
    obtain rfl := Option.some.inj (hp.symm.trans ho)
    exact h.spent.unarmed i (hid ▸ hm)
  obtain ⟨⟨p, hp, hpid, -⟩, -⟩ := he.spares ho hun
  exact ⟨h.sane.effect he, ⟨p, hp, hpid.trans hid⟩, h.armed.effect he, h.spent.effect he⟩

/-- What a cancellation leaves behind besides the op's local is a free cancel slot and an entry. -/
theorem settle (h : v.Leaving i id) {entry : Entry L} (he : entry.isRegistered = false) (j : ℕ) :
    ((v.setCancel j none).push entry).Leaving i id := by
  have hs : (v.setCancel j none).Sane :=
    h.sane.congr (fun _ o ho => ⟨o, ho, rfl⟩) rfl h.sane.armed le_rfl fun _ _ _ _ _ hm => hm
  exact ⟨hs.push he, h.live, h.armed.congr (fun _ o ho => ⟨o, ho, rfl⟩) rfl,
    h.spent.congr rfl le_rfl fun _ hm => List.mem_append_left _ hm⟩

theorem setOp (h : v.Leaving i id) (ho : v.op i = some o) {o' : LiveOp L} (hid : o'.id = o.id) :
    (v.setOp i (some o')).Leaving i id := by
  obtain ⟨p, hp, hpid⟩ := h.live
  obtain rfl := Option.some.inj (hp.symm.trans ho)
  refine ⟨h.sane.setOp ho hid, ⟨o', Function.update_self .., hid.trans hpid⟩, ?_,
    h.spent.congr rfl le_rfl fun _ hm => hm⟩
  refine h.armed.congr (fun k q hq => ?_) rfl
  rw [View.setOp_op] at hq
  split_ifs at hq with hk
  · obtain rfl := Option.some.inj hq
    exact ⟨p, hk ▸ ho, hid.symm⟩
  · exact ⟨q, hq, rfl⟩

/-- The op leaves its slot: of the others each is armed. -/
theorem free (h : v.Leaving i id) : (v.setOp i none).ArmedBut none := by
  intro k q hq _
  rw [View.setOp_op] at hq
  split_ifs at hq with hk
  exact h.armed k q hq fun hi => hk (Option.some.inj hi).symm

end View.Leaving

theorem completeOp_armed {completion : CompletedOp} {r : Reaction L} (id : ℕ)
    (h : rt.view.Leaving i id) :
    Triple (· = rt) (completeOp i completion r)
      (fun _ rt' => rt'.view.ArmedBut none ∧ rt'.view.Spent id) fun _ => True := by
  obtain ⟨o, ho, rfl⟩ := h.live
  have h0 : o.id ≠ 0 := (h.sane.ids i o ho).1.ne'
  apply completeOp_rule (fun _ _ => trivial) ho (J := fun _ v => v.Leaving i o.id)
    (K := fun v => v.ArmedBut none ∧ v.Spent o.id)
  · intro l rt' _ hv
    have htaken : rt'.view.Leaving i o.id := by
      rw [hv]
      have hset : (rt.view.setOp i (some { o with loc := none, run := none })).Leaving i o.id :=
        h.setOp ho rfl
      exact ⟨hset.sane.push rfl, hset.live, hset.armed, hset.spent.congr rfl le_rfl fun _ hm =>
        List.mem_append_left _ hm⟩
    obtain ⟨p, hp, hid⟩ := htaken.live
    apply settleCancel_rule (fun _ _ => trivial) hp (hid ▸ h0) htaken
    · exact fun j _ _ => htaken.settle rfl j
    · exact fun j _ => htaken.settle rfl j
    · exact fun l => CallsKeep.of_effect (fun _ _ => trivial) (fun v _ => any_safe v.arena)
        fun call _ v v' hv he => hv.effect he
    · intro l v hv
      obtain ⟨q, hq, hqid⟩ := hv.live
      exact ⟨q, hq, hqid.trans hid.symm⟩
    · exact fun l v q hv hq => hv.setOp hq rfl
  · intro l v rt' shim done _ hleaving hv
    apply dispatchShim_rule (I := fun v => v.ArmedBut none ∧ v.Spent o.id)
      (K := fun v => v.ArmedBut none ∧ v.Spent o.id)
    · exact fun _ => trivial
    · intro bufs _
      rw [hv]
      exact ⟨hleaving.free, hleaving.spent.congr rfl le_rfl fun _ hm => List.mem_append_left _ hm⟩
    · exact CallsKeep.of_effect (fun _ _ => trivial) (fun v _ => any_safe v.arena)
        fun call _ v v' hv he => ⟨hv.1.effect he, hv.2.effect he⟩
    · exact fun _ _ => trivial
    · exact fun v arena hv _ => ⟨hv.1, hv.2.congr rfl le_rfl fun _ hm => hm⟩

/-- The backend has the request of every live op again, and that of a completed one no more. -/
theorem exec_armed {e : Event L} (hs : rt.view.Sane) (ha : rt.view.ArmedBut none)
    (hreg : ∀ i o, rt.view.op i = some o →
      ∃ shim done loc bufs, .registered o.id shim done loc bufs ∈ rt.view.log)
    (ho : rt.backend.owes e = true) :
    Triple (· = rt) e.exec (fun _ rt' => rt'.view.ArmedBut none ∧
      ∀ i id completion r, e = .op i id completion r → rt'.view.Spent id) fun _ => True := by
  cases e with
  | outside calls =>
    apply (forEach_exec (I := View.ArmedBut none) (CallsKeep.of_effect (fun _ _ => trivial)
      (fun v _ => any_safe v.arena) fun call _ v v' hv he => hv.effect he) ha).post
    exact fun _ rt' h => ⟨h, fun _ _ _ _ he => by cases he⟩
  | op i id completion r =>
    have hm : (i, id) ∈ rt.view.backend.armed := of_decide_eq_true ho
    obtain ⟨o, hop, rfl⟩ := hs.armed i id hm
    unfold Event.exec
    refine Triple.modify_bind (assertNamesLive_bind (fun _ _ => trivial) ?_)
    refine (completeOp_armed o.id ?_).post ?_
    · refine ⟨hs.settle i o.id _, ⟨o, hop, rfl⟩, fun k p hp hk => ?_, (hs.ids i o hop).2,
        fun k hk => ?_, hreg i o hop⟩
      · refine (List.mem_erase_of_ne fun heq => ?_).mpr (ha k p hp nofun)
        exact hk (congrArg some (Prod.mk.inj heq).1.symm)
      · obtain ⟨p, hp, hid⟩ := hs.armed k o.id (List.mem_of_mem_erase hk)
        obtain rfl := hs.inj k i p o hp hop hid
        exact hs.unarmed hop o.id hk
    · rintro _ rt' ⟨harmed, hspent⟩
      refine ⟨harmed, fun _ _ _ _ he => ?_⟩
      obtain ⟨-, rfl, -, -⟩ := Event.op.inj he
      exact hspent
  | cancel j id targetId result =>
    unfold Event.exec
    refine Triple.modify_bind (cancelSlot_bind trivial fun slot _ => ?_)
    apply (completeCancel_spec fun _ _ => trivial).post
    refine fun _ rt' hv => ⟨?_, fun _ _ _ _ he => by cases he⟩
    rcases hv with ⟨-, hv⟩ | ⟨c, loc, v, -, -, -, rfl, ⟨o, hop, -, -, hv⟩ | ⟨-, hv⟩⟩
    · rw [hv]
      exact ha.congr (fun _ o ho => ⟨o, ho, rfl⟩) rfl
    · rw [hv]
      refine ha.congr (fun k q hq => ?_) rfl
      rw [View.setOp_op] at hq
      split_ifs at hq with hk
      · obtain rfl := Option.some.inj hq
        exact ⟨o, hk ▸ hop, rfl⟩
      · exact ⟨q, hq, rfl⟩
    · rw [hv]
      exact ha.congr (fun _ o ho => ⟨o, ho, rfl⟩) rfl

end

/-- What every state between steps keeps. -/
structure Runtime.Kept (rt : Runtime L) : Prop where
  slabs : Slabs True [] [] [] [] rt
  once : rt.view.Once
  armed : rt.view.ArmedBut none

section

variable {rt rt' : Runtime L} {e : Event L}

/-- An op without caller buffers completes, or the run is exhausted. -/
theorem completeOp_ends {i : ℕ} {r : Reaction L} (h : Slabs True [] [] [] [] rt)
    (completion : CompletedOp) (hd : r.doneCalls.all Call.plain = true)
    (hs : r.shimCalls.all Call.plain = true) :
    Ends (· = rt) (completeOp i completion r) (fun _ rt' => Slabs True [] [] [] [] rt')
      Runtime.Exhausted := by
  have hspent : ∀ rt' : Runtime L, rt'.Exhausted ∨ ¬ True → rt'.Exhausted := fun _ he =>
    he.resolve_right (not_not_intro trivial)
  rw [completeOp_eq]
  have hsettle := settleOp_ends (i := i) h completion (fun _ => hd) fun _ _ rt' _ => hspent rt'
  refine hsettle.bind_eq fun s rt₁ h₁ => ?_
  cases s with
  | none =>
    apply Ends.pure
    rintro _ rfl
    exact h₁
  | some s =>
    obtain ⟨b, loc⟩ := s
    obtain ⟨hnone, h₁⟩ := h₁
    have hrun : b.run = none := hnone trivial
    apply (finishOp_ends (I := fun _ => True) h₁ completion b loc (fun _ => hs) ?_ ?_ ?_ ?_ ?_
      ?_).post fun _ _ h₂ => h₂.1
    · exact fun _ _ _ => trivial
    · exact fun _ _ _ _ _ _ => trivial
    · exact fun _ _ _ => trivial
    · intro hslice
      rw [hrun] at hslice
      cases hslice
    · exact fun _ _ _ rt' _ _ _ => hspent rt'
    · intro e rt' he
      rw [hrun] at he
      cases he

theorem exec_ends (h : rt.Kept) (ho : rt.backend.owes e = true) (hp : e.plain = true) :
    Ends (· = rt) e.exec (fun _ rt' => Slabs True [] [] [] [] rt') Runtime.Exhausted := by
  cases e with
  | outside calls =>
    have hcalls := calls_ends (I := fun _ => True) h.slabs (fun _ => hp) trivial
      (fun _ _ _ _ _ _ => trivial) fun _ _ _ rt' _ _ _ he =>
        he.resolve_right (not_not_intro trivial)
    exact hcalls.post fun _ _ h' => h'.1
  | op i id completion r =>
    have hm : (i, id) ∈ rt.view.backend.armed := of_decide_eq_true ho
    obtain ⟨o, hop, -⟩ := h.once.sane.armed i id hm
    obtain ⟨slot, hs, hslot⟩ := Option.bind_eq_some_iff.mp hop
    have hf : isFree slot.id = false := by
      unfold IoSlot.view at hslot
      split_ifs at hslot with hf
      simpa using hf
    obtain ⟨hd, hsh⟩ := Bool.and_eq_true_iff.mp hp
    have hslabs : Slabs True [] [] [] [] { rt with
        backend.armed := rt.backend.armed.erase (i, id)
        backend.verdicts := (id, completion.cancelled) :: rt.backend.verdicts } :=
      ⟨h.slabs.ops, h.slabs.cancels, h.slabs.asked⟩
    unfold Event.exec assertNamesLive
    refine Ends.modify_bind ?_
    rw [bind_assoc]
    refine ioSlot_ends hs ?_
    rw [if_neg (by simp [hf])]
    exact completeOp_ends hslabs completion hd hsh
  | cancel j id targetId result =>
    have hm : (j, id, targetId) ∈ rt.backend.cancels := of_decide_eq_true ho
    have hlt := h.slabs.asked j id targetId hm
    have hslabs : Slabs True [] [] [] [] { rt with
        backend.cancels := rt.backend.cancels.erase (j, id, targetId)
        backend.verdicts := (targetId, decide (result = 0)) :: rt.backend.verdicts } :=
      ⟨h.slabs.ops, h.slabs.cancels, fun k id' t hk =>
        h.slabs.asked k id' t (List.mem_of_mem_erase hk)⟩
    unfold Event.exec
    refine Ends.modify_bind (cancelSlot_ends (List.getElem?_eq_getElem hlt) ?_)
    exact completeCancel_ends hslabs result

theorem owedStep_kept (h : rt.Kept) (hp : e.plain = true) (hstep : owedStep rt e = some rt') :
    rt'.Kept ∧ ∀ i id completion r, e = .op i id completion r → rt'.view.Spent id := by
  obtain ⟨ho, hx⟩ := exec_of_owedStep hstep
  have hreg : ∀ i o, rt.view.op i = some o →
      ∃ shim done loc bufs, .registered o.id shim done loc bufs ∈ rt.view.log := by
    intro i o hop
    obtain ⟨shim, done, loc, bufs, hm, -⟩ := h.once.source i o hop
    exact ⟨shim, done, loc, bufs, hm⟩
  have hall := ((exec_ends h ho hp).and (exec_once h.once ho)).and
    (exec_armed h.once.sane h.armed hreg ho)
  obtain ⟨⟨hs, hv⟩, ha, hspent⟩ := hall.ok rfl hx
  exact ⟨⟨hs, hv, ha⟩, hspent⟩

end

def Runtime.hasInflight (rt : Runtime L) : Bool := rt.inflightOps != 0 || rt.inflightCancels != 0

def Runtime.anyLive (rt : Runtime L) : Bool :=
  rt.ioSlab.any (fun slot => !isFree slot.id) || rt.cancelSlab.any fun slot => !isFree slot.id

theorem Runtime.Kept.hasInflight_eq {rt : Runtime L} (h : rt.Kept) :
    rt.hasInflight = rt.anyLive := by
  have hops : rt.inflightOps = rt.liveOps := h.slabs.liveOps_eq
  have hcancels : rt.inflightCancels = rt.liveCancels := h.slabs.liveCancels_eq
  rw [Bool.eq_iff_iff]
  simp only [Runtime.hasInflight, Runtime.anyLive, Bool.or_eq_true, bne_iff_ne, hops, hcancels,
    Runtime.liveOps, Runtime.liveCancels, ← Nat.pos_iff_ne_zero, List.countP_pos_iff,
    List.any_eq_true]

/-- A turn's completions keep what every step keeps. -/
theorem Runtime.Kept.run {rt rt' : Runtime L} (h : rt.Kept) {batch : List (Event L)}
    (hp : ∀ e ∈ batch, e.plain = true) (hr : run owedStep rt batch = some rt') : rt'.Kept := by
  have hmeets : Meets owedStep (fun _ e => e.plain = true) rt batch := meets_of_forall hp
  exact run_invariant (fun _ _ _ hs hp hstep => (owedStep_kept hs hp hstep).1) h hmeets hr

def Runtime.holdsOp (rt : Runtime L) (id : ℕ) : Bool :=
  rt.ioSlab.any fun slot => !isFree slot.id && idBits slot.id == id

/-- No id is registered twice; a registered op is live or its callback has run, once, with its local;
a refused registration's callback does not run. The backend has the requests of the live ops and no
others. -/
structure Runtime.CompletesOnce (rt : Runtime L) : Prop where
  unique : ∀ id, registeredCount id rt.log ≤ 1
  once : ∀ id, shimCount id rt.log + (if rt.holdsOp id then 1 else 0) = registeredCount id rt.log
  given : ∀ id shim args, .shim id shim args ∈ rt.log → ∃ loc bufs,
    .registered id shim args.done loc bufs ∈ rt.log ∧ Handed id loc args.loc rt.log
  refused : ∀ id bufs, .refused id bufs ∈ rt.log → shimCount id rt.log = 0
  owed : ∀ i id, (i, id) ∈ rt.backend.armed ↔
    ∃ slot, rt.ioSlab[i]? = some slot ∧ isFree slot.id = false ∧ idBits slot.id = id
  nodup : rt.backend.armed.Nodup

section

variable {rt : Runtime L}

theorem holdsOp_iff {id : ℕ} :
    rt.holdsOp id = true ↔ ∃ i o, rt.view.op i = some o ∧ o.id = id := by
  unfold Runtime.holdsOp
  rw [List.any_eq_true]
  constructor
  · rintro ⟨slot, hs, hp⟩
    obtain ⟨i, hi⟩ := List.getElem?_of_mem hs
    simp only [Bool.and_eq_true, Bool.not_eq_true', beq_iff_eq] at hp
    refine ⟨i, ⟨idBits slot.id, isCancelPending slot.id, slot.body, slot.loc, slot.takeBufRun.1⟩,
      ?_, hp.2⟩
    rw [view_op hi, IoSlot.view, hp.1]
    rfl
  · rintro ⟨i, o, ho, hid⟩
    obtain ⟨slot, hs, hslot⟩ := Option.bind_eq_some_iff.mp ho
    unfold IoSlot.view at hslot
    split_ifs at hslot with hf
    obtain rfl := Option.some.inj hslot
    exact ⟨slot, List.mem_of_getElem? hs, by simpa [hf] using hid⟩

/-- The backend has the request of each op in a slot, and no other. -/
theorem Runtime.Kept.owed (h : rt.Kept) (i id : ℕ) : (i, id) ∈ rt.backend.armed ↔
    ∃ slot, rt.ioSlab[i]? = some slot ∧ isFree slot.id = false ∧ idBits slot.id = id := by
  constructor
  · intro hm
    obtain ⟨o, ho, hid⟩ := h.once.sane.armed i id hm
    obtain ⟨slot, hs, hslot⟩ := Option.bind_eq_some_iff.mp ho
    unfold IoSlot.view at hslot
    split_ifs at hslot with hf
    obtain rfl := Option.some.inj hslot
    exact ⟨slot, hs, Bool.eq_false_of_not_eq_true hf, hid⟩
  · rintro ⟨slot, hs, hf, rfl⟩
    refine h.armed i ⟨idBits slot.id, isCancelPending slot.id, slot.body, slot.loc,
      slot.takeBufRun.1⟩ ?_ nofun
    rw [view_op hs, IoSlot.view, hf]
    rfl

theorem Runtime.Kept.completesOnce (h : rt.Kept) : rt.CompletesOnce := by
  refine ⟨h.once.unique, fun id => ?_, h.once.ran, fun id refused hm => ?_, h.owed,
    h.once.sane.nodup⟩
  · by_cases hlive : rt.holdsOp id = true
    · obtain ⟨i, o, ho, rfl⟩ := holdsOp_iff.mp hlive
      obtain ⟨shim, done, loc, bufs, hreg, -⟩ := h.once.source i o ho
      have hpos := registeredCount_pos hreg
      have hle := h.once.unique o.id
      have hzero := h.once.waiting i o ho
      change registeredCount o.id rt.log ≤ 1 at hle
      change shimCount o.id rt.log = 0 at hzero
      change 0 < registeredCount o.id rt.log at hpos
      rw [if_pos hlive, hzero]
      omega
    · rw [if_neg hlive, Nat.add_zero]
      by_cases hreg : ∃ shim done loc bufs, .registered id shim done loc bufs ∈ rt.log
      · obtain ⟨shim, done, loc, bufs, hm⟩ := hreg
        have hpos := registeredCount_pos hm
        have hle : registeredCount id rt.log ≤ 1 := h.once.unique id
        rcases h.once.once id shim done loc bufs hm with hop | hone
        · exact absurd (holdsOp_iff.mpr hop) hlive
        · have hone' : shimCount id rt.log = 1 := hone
          omega
      · have hno : ∀ shim done loc bufs, .registered id shim done loc bufs ∉ rt.log :=
          fun shim done loc bufs hm => hreg ⟨shim, done, loc, bufs, hm⟩
        rw [registeredCount_eq_zero hno]
        apply shimCount_eq_zero
        intro shim args hm
        obtain ⟨loc, bufs, hr, -⟩ := h.once.ran id shim args hm
        exact hno _ _ _ _ hr
  · apply shimCount_eq_zero
    intro shim args hs
    obtain ⟨loc, bufs, hr, -⟩ := h.once.ran id shim args hs
    exact (h.once.refused id refused hm).2 _ _ _ _ hr

/-- Nothing in a slot: the backend owes nothing, and every registered op's callback has run. -/
theorem Runtime.Kept.idle (h : rt.Kept) (hidle : rt.anyLive = false) :
    rt.backend.armed = [] ∧ ∀ id, shimCount id rt.log = registeredCount id rt.log := by
  obtain ⟨hops, -⟩ := Bool.or_eq_false_iff.mp hidle
  have hfree : ∀ slot ∈ rt.ioSlab, isFree slot.id = true := by simpa using hops
  constructor
  · rw [List.eq_nil_iff_forall_not_mem]
    rintro ⟨i, id⟩ hm
    obtain ⟨slot, hs, hlive, -⟩ := (h.owed i id).mp hm
    rw [hfree slot (List.mem_of_getElem? hs)] at hlive
    cases hlive
  · intro id
    have hnone : rt.holdsOp id = false := by
      rw [Runtime.holdsOp, List.any_eq_false]
      intro slot hs
      simp [hfree slot hs]
    have honce := h.completesOnce.once id
    rwa [hnone] at honce

end

end Conrt.Coio
