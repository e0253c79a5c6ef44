import Conrt.Coio.Interleave
import Conrt.Uring.Ring

/-! What the runtime's books and the ring hold of each other's requests. -/
namespace Conrt.Uring

open Conrt.Coio (View LiveOp LiveCancel Op IoBufErased Received Touches)

variable {L : Type}

/-- The handles given out: each fits the tag, and there is one for each id. -/
structure Handles (handed : Op → Prop) (next : ℕ) : Prop where
  fits : ∀ op, handed op → op.slot < 2 ^ 32 ∧ op.cls ≤ classMask
  below : ∀ op, handed op → op.id.val < next
  one : ∀ op op', handed op → handed op' → op.id.val = op'.id.val → op = op'

/-- `ud` is the `user_data` under which the op of this id was armed. -/
def Names (handed : Op → Prop) (ud id : ℕ) : Prop :=
  ∃ op, handed op ∧ ud = UserData.toU64 ⟨op.slot, op.cls⟩ ∧ op.id.val = id

def NamesCancel (ud : ℕ) : Prop := ∃ slot < 2 ^ 32, ud = cancelUserData slot

section

variable {handed handed' : Op → Prop} {ud ud' id id' next result flags target : ℕ} {res : ℤ}

theorem Handles.mono (h : Handles handed next) {next' : ℕ} (hle : next ≤ next') :
    Handles handed next' :=
  ⟨h.fits, fun op ho => (h.below op ho).trans_le hle, h.one⟩

/-- The next handle is given out. -/
theorem Handles.grow (h : Handles handed next) {n : Op} (hslot : n.slot < 2 ^ 32)
    (hcls : n.cls ≤ classMask) (hid : n.id.val = next) (hnew : ∀ op, handed' op ↔ handed op ∨ op = n) :
    Handles handed' (next + 1) := by
  constructor
  case fits =>
    intro op ho
    rcases (hnew op).mp ho with ho | rfl
    · exact h.fits op ho
    · exact ⟨hslot, hcls⟩
  case below =>
    intro op ho
    rcases (hnew op).mp ho with ho | rfl
    · exact Nat.lt_succ_of_lt (h.below op ho)
    · exact hid ▸ Nat.lt_succ_self _
  case one =>
    intro op op' ho ho' heq
    rcases (hnew op).mp ho with ho | rfl <;> rcases (hnew op').mp ho' with ho' | rfl
    · exact h.one op op' ho ho' heq
    · exact absurd (h.below op ho) (by omega)
    · exact absurd (h.below op' ho') (by omega)
    · rfl

theorem Names.mono (h : Names handed ud id) (hh : ∀ op, handed op → handed' op) : Names handed' ud id := by
  obtain ⟨op, ho, hud, hid⟩ := h
  exact ⟨op, hh op ho, hud, hid⟩

/-- One id, one name. -/
theorem Names.unique (hh : Handles handed next) (h : Names handed ud id) (h' : Names handed ud' id) :
    ud = ud' := by
  obtain ⟨op, ho, rfl, rfl⟩ := h
  obtain ⟨op', ho', rfl, hid⟩ := h'
  rw [hh.one op' op ho' ho hid]

theorem Names.index (hh : Handles handed next) {op : Op} (ho : handed op) :
    (UserData.ofU64 (UserData.toU64 ⟨op.slot, op.cls⟩)).index = op.slot := by
  rw [ofU64_op (hh.fits op ho).1 (hh.fits op ho).2]

/-- What an op's completion says of its slot, its class and whether it was cancelled. -/
theorem completion_op (hh : Handles handed next) {op : Op} (ho : handed op) :
    (⟨UserData.toU64 ⟨op.slot, op.cls⟩, res, flags, id, target⟩ : Cqe).completion =
      ⟨op.slot, res, flags, op.cls, false, res == -ecanceled⟩ := by
  obtain ⟨hslot, hcls⟩ := hh.fits op ho
  unfold Cqe.completion
  simp only [ofU64_op hslot hcls, (cls_bits hcls).1, (cls_bits hcls).2]
  simp

theorem completion_cancel {slot : ℕ} (hs : slot < 2 ^ 32) :
    (⟨cancelUserData slot, res, flags, id, target⟩ : Cqe).completion =
      ⟨slot, res, flags, 0, true, false⟩ := by
  unfold Cqe.completion
  simp only [ofU64_cancel hs]
  rfl

/-- A completion of an op, and one of a cancel, stands for what was asked. -/
theorem Cqe.op_done {c : Cqe} (hc : c.completion.cancel = false) :
    c.op? = some (c.completion.slot, c.id) ∧ c.cancel? = none := by
  unfold Cqe.op? Cqe.cancel?
  rw [hc]
  exact ⟨rfl, rfl⟩

theorem Cqe.cancel_done {c : Cqe} (hc : c.completion.cancel = true) :
    c.op? = none ∧ c.cancel? = some (c.completion.slot, c.id, c.target) := by
  unfold Cqe.op? Cqe.cancel?
  rw [hc]
  exact ⟨rfl, rfl⟩

/-- A request that has been decided is outstanding in the completion instead. -/
theorem Names.op_done (hh : Handles handed next) (h : Names handed ud id) (res : ℤ)
    (flags target : ℕ) :
    (⟨ud, res, flags, id, target⟩ : Cqe).op? = some ((UserData.ofU64 ud).index, id) ∧
      (⟨ud, res, flags, id, target⟩ : Cqe).cancel? = none := by
  obtain ⟨op, ho, rfl, -⟩ := h
  have hc : (⟨UserData.toU64 ⟨op.slot, op.cls⟩, res, flags, id, target⟩ : Cqe).completion = _ :=
    completion_op hh ho
  have hdone := Cqe.op_done (congrArg (·.cancel) hc)
  rw [hc] at hdone
  rw [Names.index hh ho]
  exact hdone

theorem NamesCancel.op_done (h : NamesCancel ud) (res : ℤ) (flags id target : ℕ) :
    (⟨ud, res, flags, id, target⟩ : Cqe).op? = none ∧
      (⟨ud, res, flags, id, target⟩ : Cqe).cancel? = some ((UserData.ofU64 ud).index, id, target) := by
  obtain ⟨slot, hs, rfl⟩ := h
  have hc : (⟨cancelUserData slot, res, flags, id, target⟩ : Cqe).completion = _ :=
    completion_cancel hs
  have hdone := Cqe.cancel_done (congrArg (·.cancel) hc)
  rw [hc] at hdone
  rw [ofU64_cancel hs]
  exact hdone

/-- A request leaves the kernel as its completion. -/
theorem flight_done {f : Flight} {c : Cqe} {fs : List Flight} {cs : List Cqe} (hf : f ∈ fs)
    (hc : c.op? = some f.op) :
    ((fs.erase f).map Flight.op ++ (c :: cs).filterMap Cqe.op?).Perm
      (fs.map Flight.op ++ cs.filterMap Cqe.op?) := by
  rw [List.filterMap_cons_some hc]
  refine List.perm_middle.trans ?_
  exact ((List.perm_cons_erase hf).map Flight.op).symm.append_right _

end

/-- The ring has the requests the books have, each under its own name, and takes them in the order of
their ids. While a cancel is queued, an op in its target's slot is its target or one queued behind it. -/
structure Requests (handed : Op → Prop) (v : View L) (r : Ring) : Prop where
  ops : r.ops.Perm v.backend.armed
  cancels : r.cancels.Perm v.backend.cancels
  order : r.queue.Pairwise fun a b => a.id < b.id
  behind : ∀ f ∈ r.flight, ∀ s ∈ r.queue, f.id < s.id
  fresh : ∀ s ∈ r.queue, s.id < v.nextOpId
  named : ∀ ud id, .op ud id ∈ r.queue → Names handed ud id
  aimed : ∀ ud td id t, .asyncCancel ud td id t ∈ r.queue → NamesCancel ud ∧ Names handed td t ∧ t < id ∧
    ∀ id', ((UserData.ofU64 td).index, id') ∈ v.backend.armed → id' = t ∨ id < id'
  working : ∀ f ∈ r.flight, Names handed f.userData f.id
  done : ∀ c ∈ r.done, Names handed c.userData c.id ∨ NamesCancel c.userData
  targets : ∀ k id t, (k, id, t) ∈ v.backend.cancels → t < v.nextOpId

/-- What the kernel has decided it does not take back; it has decided each completion as that says, and
nothing yet of a request that is queued or can still be cancelled. A cancel in the queue finds its target
at work or decided. -/
structure Decides (v : View L) (r : Ring) : Prop where
  agree : ∀ id b b', (id, b) ∈ r.told → (id, b') ∈ r.told → b = b'
  heard : ∀ id b, (id, b) ∈ r.told → id < v.nextOpId
  ops : ∀ c ∈ r.done, c.completion.cancel = false → (c.id, c.completion.cancelled) ∈ r.told
  cancels : ∀ c ∈ r.done, c.completion.cancel = true → (c.target, decide (c.result = 0)) ∈ r.told
  verdicts : ∀ e ∈ v.backend.verdicts, e ∈ r.told
  queued : ∀ ud id, .op ud id ∈ r.queue → ∀ b, (id, b) ∉ r.told
  working : ∀ f ∈ r.flight, ∀ b, (f.id, b) ∈ r.told → b = false ∧ f.begun = true
  settled : ∀ ud td id t, .asyncCancel ud td id t ∈ r.queue →
    (∃ ud', .op ud' t ∈ r.queue) ∨ (∃ f ∈ r.flight, f.id = t) ∨ ∃ b, (t, b) ∈ r.told

/-- An op has one cancel outstanding at most, and none unless it is marked; a cancel that found its op
was the last one for it. `busy` is the slot being settled. -/
structure Marked (busy : Option ℕ) (v : View L) (r : Ring) : Prop where
  armed : ∀ i o, v.op i = some o → busy ≠ some i → (i, o.id) ∈ v.backend.armed
  single : (v.backend.cancels.map fun c => c.2.2).Nodup
  unmarked : ∀ i o, v.op i = some o → o.pending = false →
    (∀ k id, (k, id, o.id) ∉ v.backend.cancels) ∧ (o.id, true) ∉ r.told
  won : ∀ t, (t, true) ∈ r.told → ∀ ud td id, .asyncCancel ud td id t ∉ r.queue

section

variable {handed handed' : Op → Prop} {busy : Option ℕ} {v v' : View L} {r r' : Ring} {i j : ℕ}
  {o : LiveOp L}

private theorem Flight.mem_ops {f : Flight} (hf : f ∈ r.flight) : f.op ∈ r.ops :=
  List.mem_append_right _ (List.mem_append_left _ (List.mem_map_of_mem hf))

namespace Requests

theorem congr (h : Requests handed v r) (hb : v'.backend = v.backend)
    (hnext : v.nextOpId ≤ v'.nextOpId) : Requests handed v' r where
  ops := hb ▸ h.ops
  cancels := hb ▸ h.cancels
  order := h.order
  behind := h.behind
  fresh s hs := (h.fresh s hs).trans_le hnext
  named := h.named
  aimed := hb ▸ h.aimed
  working := h.working
  done := h.done
  targets k id t hm := (h.targets k id t (hb ▸ hm)).trans_le hnext

/-- Requests pass from the queue to the kernel and from there to the completions. -/
theorem after (h : Requests handed v r) (hops : r'.ops.Perm r.ops) (hcancels : r'.cancels.Perm r.cancels)
    (hqueue : r'.queue <:+ r.queue) (hbehind : ∀ f ∈ r'.flight, ∀ s ∈ r'.queue, f.id < s.id)
    (hworking : ∀ f ∈ r'.flight, Names handed f.userData f.id)
    (hdone : ∀ c ∈ r'.done, Names handed c.userData c.id ∨ NamesCancel c.userData) :
    Requests handed v r' where
  ops := hops.trans h.ops
  cancels := hcancels.trans h.cancels
  order := h.order.sublist hqueue.sublist
  behind := hbehind
  fresh s hs := h.fresh s (hqueue.subset hs)
  named ud id hs := h.named ud id (hqueue.subset hs)
  aimed ud td id t hs := h.aimed ud td id t (hqueue.subset hs)
  working := hworking
  done := hdone
  targets := h.targets

/-- A queued cancel that finds a request under the name of its target finds its target, never a later op
in the same slot. -/
theorem aims (h : Requests handed v r) {ud id t : ℕ} {f : Flight} {rest : List Sqe}
    (hq : r.queue = .asyncCancel ud f.userData id t :: rest) (hf : f ∈ r.flight) : f.id = t := by
  have hmem : .asyncCancel ud f.userData id t ∈ r.queue := hq ▸ List.mem_cons_self
  have harmed := h.ops.mem_iff.mp (Flight.mem_ops hf)
  rcases (h.aimed ud _ id t hmem).2.2.2 f.id harmed with heq | hlater
  · exact heq
  · exact absurd (h.behind f hf _ hmem) (Nat.lt_asymm hlater)

/-- The kernel only drops requests it works on, or marks them as begun. -/
theorem kept (h : Requests handed v r) (hops : r'.ops.Perm r.ops) (hcancels : r'.cancels.Perm r.cancels)
    (hqueue : r'.queue <:+ r.queue)
    (hflight : ∀ g ∈ r'.flight, ∃ f ∈ r.flight, g.id = f.id ∧ g.userData = f.userData)
    (hdone : ∀ c ∈ r'.done, Names handed c.userData c.id ∨ NamesCancel c.userData) :
    Requests handed v r' := by
  refine h.after hops hcancels hqueue (fun g hg s hs => ?_) (fun g hg => ?_) hdone
  · obtain ⟨f, hf, hid, -⟩ := hflight g hg
    exact hid ▸ h.behind f hf s (hqueue.subset hs)
  · obtain ⟨f, hf, hid, hud⟩ := hflight g hg
    rw [hid, hud]
    exact h.working f hf

/-- The cancel at the head of the queue is answered, and `cs` are the completions but for its own. -/
theorem headAnswered (h : Requests handed v r) {ud td id t : ℕ} {res : ℤ} {cs : List Cqe}
    (hqueue : r.queue = .asyncCancel ud td id t :: r'.queue)
    (hdone : r'.done.Perm (⟨ud, res, 0, id, t⟩ :: cs))
    (hops : (r'.flight.map Flight.op ++ cs.filterMap Cqe.op?).Perm
      (r.flight.map Flight.op ++ r.done.filterMap Cqe.op?))
    (hcancels : cs.filterMap Cqe.cancel? = r.done.filterMap Cqe.cancel?)
    (hflight : ∀ g ∈ r'.flight, ∃ f ∈ r.flight, g.id = f.id ∧ g.userData = f.userData)
    (hnamed : ∀ c ∈ cs, Names handed c.userData c.id ∨ NamesCancel c.userData) :
    Requests handed v r' := by
  have hud := (h.aimed ud td id t (hqueue ▸ List.mem_cons_self)).1
  obtain ⟨hop, hcancel⟩ := hud.op_done res 0 id t
  apply h.kept
  case hops =>
    have hperm := hdone.filterMap Cqe.op?
    rw [List.filterMap_cons_none hop] at hperm
    unfold Ring.ops
    rw [hqueue]
    exact ((hperm.append_left _).trans hops).append_left _
  case hcancels =>
    have hperm := hdone.filterMap Cqe.cancel?
    rw [List.filterMap_cons_some hcancel, hcancels] at hperm
    unfold Ring.cancels
    rw [hqueue]
    exact (hperm.append_left _).trans List.perm_middle
  case hqueue => exact ⟨[.asyncCancel ud td id t], hqueue.symm⟩
  case hflight => exact hflight
  case hdone =>
    intro c hc
    rcases List.mem_cons.mp (hdone.mem_iff.mp hc) with rfl | hc
    · exact .inr hud
    · exact hnamed c hc

theorem worked (hh : Handles handed v.nextOpId) (h : Requests handed v r) (hw : r.Worked r') :
    Requests handed v r' := by
  have hstill : ∀ {f : Flight}, ∀ g ∈ r.flight.erase f,
      ∃ f ∈ r.flight, g.id = f.id ∧ g.userData = f.userData := fun g hg =>
    ⟨g, List.mem_of_mem_erase hg, rfl, rfl⟩
  cases hw with
  | took ud id hqueue hflight hdone _ =>
    have hsuffix : r'.queue <:+ r.queue := ⟨[.op ud id], hqueue.symm⟩
    have horder := h.order
    rw [hqueue, List.pairwise_cons] at horder
    apply h.after
    case hops =>
      unfold Ring.ops
      rw [hqueue, hflight]
      refine List.perm_middle.trans (List.Perm.cons _ (List.Perm.append_left _ ?_))
      exact (hdone.filterMap _).append_left _
    case hcancels =>
      unfold Ring.cancels
      rw [hqueue]
      exact (hdone.filterMap _).append_left _
    case hqueue => exact hsuffix
    case hbehind =>
      rw [hflight]
      exact List.forall_mem_cons.mpr ⟨horder.1, fun f hf s hs => h.behind f hf s (hsuffix.subset hs)⟩
    case hworking =>
      rw [hflight]
      exact List.forall_mem_cons.mpr ⟨h.named ud id (hqueue ▸ List.mem_cons_self), h.working⟩
    case hdone => exact fun c hc => h.done c (hdone.mem_iff.mp hc)
  | missed ud td id t hqueue _ hflight hdone _ =>
    refine h.headAnswered hqueue hdone ?_ rfl (fun g hg => ⟨g, hflight ▸ hg, rfl, rfl⟩) h.done
    rw [hflight]
  | won ud id t f hqueue hf _ hflight hdone _ =>
    obtain ⟨hop, hcancel⟩ := (h.working f hf).op_done hh (-ecanceled) 0 0
    refine h.headAnswered hqueue hdone ?_ (List.filterMap_cons_none hcancel) (hflight ▸ hstill) ?_
    · rw [hflight]
      exact flight_done hf hop
    · exact List.forall_mem_cons.mpr ⟨.inl (h.working f hf), h.done⟩
  | late ud id t f hqueue hf hflight hdone _ =>
    refine h.headAnswered hqueue hdone ?_ rfl ?_ h.done
    · rw [hflight]
      exact ((List.perm_cons_erase hf).map Flight.op).symm.append_right _
    · rw [hflight]
      exact List.forall_mem_cons.mpr ⟨⟨f, hf, rfl, rfl⟩, hstill⟩
  | finished f result flags hqueue hf _ hflight hdone _ =>
    obtain ⟨hop, hcancel⟩ := (h.working f hf).op_done hh result flags 0
    refine h.kept ?_ ?_ (hqueue ▸ List.suffix_rfl) (hflight ▸ hstill) fun c hc => ?_
    · unfold Ring.ops
      rw [hqueue, hflight]
      exact (((hdone.filterMap _).append_left _).trans (flight_done hf hop)).append_left _
    · have hperm := hdone.filterMap Cqe.cancel?
      rw [List.filterMap_cons_none hcancel] at hperm
      unfold Ring.cancels
      rw [hqueue]
      exact hperm.append_left _
    · rcases List.mem_cons.mp (hdone.mem_iff.mp hc) with rfl | hc
      · exact .inl (h.working f hf)
      · exact h.done c hc
  | passed hqueue hflight hdone _ =>
    refine h.kept ?_ ?_ (hqueue ▸ List.suffix_rfl) (fun g hg => ⟨g, hflight ▸ hg, rfl, rfl⟩)
      fun c hc => h.done c (hdone.mem_iff.mp hc)
    · unfold Ring.ops
      rw [hqueue, hflight]
      exact ((hdone.filterMap _).append_left _).append_left _
    · unfold Ring.cancels
      rw [hqueue]
      exact (hdone.filterMap _).append_left _

/-- The kernel works on one request for each id. -/
theorem flight_ne (h : Requests handed v r) (hh : Handles handed v.nextOpId)
    (hn : v.backend.armed.Nodup) {f g : Flight} (hf : f ∈ r.flight) (hg : g ∈ r.flight.erase f) :
    g.id ≠ f.id := by
  intro heq
  have hops : (r.flight.map Flight.op).Nodup :=
    (List.nodup_append.mp (List.nodup_append.mp (h.ops.nodup_iff.mpr hn)).2.1).1
  have hperm := (List.perm_cons_erase hf).map Flight.op
  have hsplit := hperm.nodup_iff.mp hops
  rw [List.map_cons, List.nodup_cons] at hsplit
  apply hsplit.1
  have hname : Names handed g.userData f.id := heq ▸ h.working g (List.mem_of_mem_erase hg)
  have hud := hname.unique hh (h.working f hf)
  refine List.mem_map.mpr ⟨g, hg, ?_⟩
  unfold Flight.op
  rw [hud, heq]

/-- No two queued cancels have one target. -/
theorem other_target (h : Requests handed v r) (hs : (v.backend.cancels.map fun c => c.2.2).Nodup)
    {ud td id t ud' td' id' : ℕ} {rest : List Sqe} (hq : r.queue = .asyncCancel ud td id t :: rest) :
    .asyncCancel ud' td' id' t ∉ rest := by
  intro hmem
  have hcancels := ((h.cancels.map fun c => c.2.2).nodup_iff.mpr hs)
  have hhead : r.cancels = ((UserData.ofU64 ud).index, id, t) ::
      (rest.filterMap Sqe.cancel? ++ r.done.filterMap Cqe.cancel?) := by
    unfold Ring.cancels
    rw [hq]
    rfl
  rw [hhead, List.map_cons, List.nodup_cons] at hcancels
  apply hcancels.1
  refine List.mem_map.mpr ⟨_, List.mem_append_left _ (List.mem_filterMap.mpr ⟨_, hmem, rfl⟩), rfl⟩

private theorem cancel_mem (h : Requests handed v r) {ud td id t : ℕ} (hs : .asyncCancel ud td id t ∈ r.queue) :
    ((UserData.ofU64 ud).index, id, t) ∈ v.backend.cancels :=
  h.cancels.mem_iff.mp (List.mem_append_left _ (List.mem_filterMap.mpr ⟨_, hs, rfl⟩))

/-- One more request at the end of the queue. -/
theorem pushed (h : Requests handed v r) (hh : Handles handed v.nextOpId) {s : Sqe}
    (hp : r.push s = .ok r') (hid : s.id = v.nextOpId) (hnext : v'.nextOpId = v.nextOpId + 1)
    (hmono : ∀ op, handed op → handed' op)
    (harmed : v'.backend.armed = s.op?.toList ++ v.backend.armed)
    (hcancels : v'.backend.cancels = s.cancel?.toList ++ v.backend.cancels)
    (hnamed : ∀ ud id, s = .op ud id → Names handed' ud id)
    (haimed : ∀ ud td id t, s = .asyncCancel ud td id t → NamesCancel ud ∧ Names handed' td t ∧ t < id ∧
      ∀ id', ((UserData.ofU64 td).index, id') ∈ v.backend.armed → id' = t) :
    Requests handed' v' r' := by
  obtain ⟨hqueue, hflight, hdone, -⟩ := Ring.push_ok hp
  have hcases : ∀ a ∈ r'.queue, a ∈ r.queue ∨ a = s := by
    intro a ha
    rw [hqueue] at ha
    exact (List.mem_append.mp ha).imp_right List.mem_singleton.mp
  constructor
  case ops =>
    unfold Ring.ops
    rw [hqueue, hflight, hdone, harmed, List.filterMap_append, List.append_assoc]
    have htoken : [s].filterMap Sqe.op? = s.op?.toList := by cases s <;> rfl
    rw [htoken]
    refine (List.perm_append_comm_assoc _ _ _).trans ?_
    exact h.ops.append_left _
  case cancels =>
    unfold Ring.cancels
    rw [hqueue, hdone, hcancels, List.filterMap_append, List.append_assoc]
    have htoken : [s].filterMap Sqe.cancel? = s.cancel?.toList := by cases s <;> rfl
    rw [htoken]
    refine (List.perm_append_comm_assoc _ _ _).trans ?_
    exact h.cancels.append_left _
  case order =>
    rw [hqueue, List.pairwise_append]
    refine ⟨h.order, List.pairwise_singleton _ _, fun a ha b hb => ?_⟩
    obtain rfl := List.mem_singleton.mp hb
    exact hid ▸ h.fresh a ha
  case behind =>
    rw [hflight]
    intro f hf a ha
    rcases hcases a ha with ha | rfl
    · exact h.behind f hf a ha
    · obtain ⟨op, ho, -, hoid⟩ := h.working f hf
      exact hid ▸ hoid ▸ hh.below op ho
  case fresh =>
    intro a ha
    rw [hnext]
    rcases hcases a ha with ha | rfl
    · exact Nat.lt_succ_of_lt (h.fresh a ha)
    · exact hid ▸ Nat.lt_succ_self _
  case named =>
    intro ud id ha
    rcases hcases _ ha with ha | heq
    · exact (h.named ud id ha).mono hmono
    · exact hnamed ud id heq.symm
  case aimed =>
    intro ud td id t ha
    rw [harmed]
    rcases hcases _ ha with ha | rfl
    · obtain ⟨hud, htd, hlt, happart⟩ := h.aimed ud td id t ha
      refine ⟨hud, htd.mono hmono, hlt, fun id' hm => ?_⟩
      rcases List.mem_append.mp hm with hm | hm
      · cases s with
        | op ud' last =>
          have hlast : last = v.nextOpId := hid
          obtain ⟨-, heq⟩ := Prod.mk.inj (List.mem_singleton.mp hm)
          exact .inr ((heq.trans hlast).symm ▸ h.fresh _ ha)
        | asyncCancel => cases hm
      · exact happart id' hm
    · obtain ⟨hud, htd, hlt, honly⟩ := haimed ud td id t rfl
      exact ⟨hud, htd, hlt, fun id' hm => .inl (honly id' hm)⟩
  case working =>
    rw [hflight]
    exact fun f hf => (h.working f hf).mono hmono
  case done =>
    rw [hdone]
    exact fun c hc => (h.done c hc).imp_left fun hn => hn.mono hmono
  case targets =>
    rw [hcancels, hnext]
    intro k id t hm
    rcases List.mem_append.mp hm with hm | hm
    · cases s with
      | op => cases hm
      | asyncCancel ud td id' t' =>
        obtain ⟨-, -, rfl⟩ := Prod.mk.inj (List.mem_singleton.mp hm) |>.imp_right Prod.mk.inj
        exact Nat.lt_succ_of_lt (hid ▸ (haimed ud td id' t rfl).2.2.1)
    · exact Nat.lt_succ_of_lt (h.targets k id t hm)

end Requests

namespace Decides

theorem congr (h : Decides v r) (hb : v'.backend = v.backend) (hnext : v.nextOpId ≤ v'.nextOpId) :
    Decides v' r where
  agree := h.agree
  heard id b hm := (h.heard id b hm).trans_le hnext
  ops := h.ops
  cancels := h.cancels
  verdicts := hb ▸ h.verdicts
  queued := h.queued
  working := h.working
  settled := h.settled

/-- One more decision. -/
theorem tell (h : Decides v r) {t : ℕ} {b : Bool} (hsame : ∀ b', (t, b') ∈ r.told → b' = b) :
    ∀ id c c', (id, c) ∈ (t, b) :: r.told → (id, c') ∈ (t, b) :: r.told → c = c' := by
  have hnew : ∀ c, (t, c) ∈ (t, b) :: r.told → c = b := by
    intro c hc
    rcases List.mem_cons.mp hc with heq | hc
    · exact (Prod.mk.inj heq).2
    · exact hsame c hc
  intro id c c' hc hc'
  by_cases hid : id = t
  · subst hid
    rw [hnew c hc, hnew c' hc']
  · have hold : ∀ {d}, (id, d) ∈ (t, b) :: r.told → (id, d) ∈ r.told := fun hd =>
      (List.mem_cons.mp hd).resolve_left fun heq => hid (Prod.mk.inj heq).1
    exact h.agree id c c' (hold hc) (hold hc')

/-- The kernel decides on a request it works on. -/
theorem decided (h : Decides v r) (hr : Requests handed v r) (hh : Handles handed v.nextOpId)
    (hn : v.backend.armed.Nodup) {f : Flight} {b : Bool} (hf : f ∈ r.flight)
    (hsame : ∀ b', (f.id, b') ∈ r.told → b' = b) (htold : r'.told = (f.id, b) :: r.told)
    (hqueue : ∀ s ∈ r'.queue, s ∈ r.queue) (hops : ∀ ud id, .op ud id ∈ r.queue → .op ud id ∈ r'.queue)
    (hback : ∀ g ∈ r.flight.erase f, g ∈ r'.flight)
    (hflight : ∀ g ∈ r'.flight, g ∈ r.flight.erase f ∨ (b = false ∧ g.id = f.id ∧ g.begun = true))
    (hdone : ∀ c ∈ r'.done, c ∈ r.done ∨
      (c.completion.cancel = false → (c.id, c.completion.cancelled) = (f.id, b)) ∧
        (c.completion.cancel = true → (c.target, decide (c.result = 0)) = (f.id, b))) :
    Decides v r' := by
  have hkept : ∀ e ∈ r.told, e ∈ r'.told := fun e he => htold ▸ List.mem_cons_of_mem _ he
  have hnew : (f.id, b) ∈ r'.told := htold ▸ List.mem_cons_self
  have hcases : ∀ {id c}, (id, c) ∈ r'.told → (id = f.id ∧ c = b) ∨ (id, c) ∈ r.told := by
    intro id c hc
    rw [htold] at hc
    exact (List.mem_cons.mp hc).imp_left Prod.mk.inj
  constructor
  case agree => rw [htold]; exact h.tell hsame
  case heard =>
    intro id c hc
    rcases hcases hc with ⟨rfl, -⟩ | hc
    · obtain ⟨op, ho, -, hid⟩ := hr.working f hf
      exact hid ▸ hh.below op ho
    · exact h.heard id c hc
  case ops =>
    intro c hc hcancel
    rcases hdone c hc with hold | ⟨hop, -⟩
    · exact hkept _ (h.ops c hold hcancel)
    · rw [hop hcancel]
      exact hnew
  case cancels =>
    intro c hc hcancel
    rcases hdone c hc with hold | ⟨-, hop⟩
    · exact hkept _ (h.cancels c hold hcancel)
    · rw [hop hcancel]
      exact hnew
  case verdicts =>
    intro e he
    exact hkept e (h.verdicts e he)
  case queued =>
    intro ud id hs c hc
    rcases hcases hc with ⟨rfl, -⟩ | hc
    · exact absurd (hr.behind f hf _ (hqueue _ hs)) (lt_irrefl _)
    · exact h.queued ud id (hqueue _ hs) c hc
  case working =>
    intro g hg c hc
    rcases hflight g hg with herased | ⟨rfl, hid, hbegun⟩
    · rcases hcases hc with ⟨heq, -⟩ | hc
      · exact absurd heq (hr.flight_ne hh hn hf herased)
      · exact h.working g (List.mem_of_mem_erase herased) c hc
    · refine ⟨?_, hbegun⟩
      rcases hcases hc with ⟨-, heq⟩ | hc
      · exact heq
      · exact hsame c (hid ▸ hc)
  case settled =>
    intro ud td id t hs
    rcases h.settled ud td id t (hqueue _ hs) with ⟨ud', hop⟩ | ⟨g, hg, rfl⟩ | ⟨c, hc⟩
    · exact .inl ⟨ud', hops ud' t hop⟩
    · by_cases hid : g.id = f.id
      · exact .inr (.inr ⟨b, hid ▸ hnew⟩)
      · refine .inr (.inl ⟨g, hback g ?_, rfl⟩)
        exact (List.mem_erase_of_ne fun heq : g = f => hid (congrArg Flight.id heq)).mpr hg
    · exact .inr (.inr ⟨c, hkept _ hc⟩)

/-- The target of a queued cancel that finds nothing has been decided, and not as cancelled. -/
theorem missed (h : Decides v r) (hr : Requests handed v r) (hh : Handles handed v.nextOpId)
    (hm : Marked busy v r) {ud td id t : ℕ} {rest : List Sqe}
    (hq : r.queue = .asyncCancel ud td id t :: rest) (hnone : ∀ f ∈ r.flight, f.userData ≠ td) :
    (t, false) ∈ r.told := by
  have hmem : .asyncCancel ud td id t ∈ r.queue := hq ▸ List.mem_cons_self
  obtain ⟨-, hname, hlt, -⟩ := hr.aimed ud td id t hmem
  rcases h.settled ud td id t hmem with ⟨ud', hop⟩ | ⟨f, hf, rfl⟩ | ⟨b, hb⟩
  · have horder := hr.order
    rw [hq, List.pairwise_cons] at horder
    rw [hq] at hop
    rcases List.mem_cons.mp hop with heq | hop
    · cases heq
    · exact absurd (horder.1 _ hop) (Nat.lt_asymm hlt)
  · exact absurd ((hr.working f hf).unique hh hname) (hnone f hf)
  · cases b with
    | true => exact absurd hmem (hm.won t hb ud td id)
    | false => exact hb

/-- An op that is armed is queued, at work or decided. -/
theorem whereabouts (h : Decides v r) (hr : Requests handed v r) {id : ℕ}
    (harmed : (i, id) ∈ v.backend.armed) :
    (∃ ud, .op ud id ∈ r.queue) ∨ (∃ f ∈ r.flight, f.id = id) ∨ ∃ b, (id, b) ∈ r.told := by
  rcases List.mem_append.mp (hr.ops.mem_iff.mpr harmed) with hs | hs
  · obtain ⟨s, hmem, htoken⟩ := List.mem_filterMap.mp hs
    cases s with
    | op ud id' =>
      obtain ⟨-, rfl⟩ := Prod.mk.inj (Option.some.inj htoken)
      exact .inl ⟨ud, hmem⟩
    | asyncCancel => cases htoken
  · rcases List.mem_append.mp hs with hf | hc
    · obtain ⟨f, hf, htoken⟩ := List.mem_map.mp hf
      exact .inr (.inl ⟨f, hf, (Prod.mk.inj htoken).2⟩)
    · obtain ⟨c, hmem, htoken⟩ := List.mem_filterMap.mp hc
      unfold Cqe.op? at htoken
      split_ifs at htoken with hcancel
      obtain ⟨-, rfl⟩ := Prod.mk.inj (Option.some.inj htoken)
      exact .inr (.inr ⟨_, h.ops c hmem (Bool.eq_false_of_not_eq_true hcancel)⟩)

theorem pushed (h : Decides v r) {s : Sqe} (hp : r.push s = .ok r') (hid : s.id = v.nextOpId)
    (hnext : v'.nextOpId = v.nextOpId + 1) (hverdicts : v'.backend.verdicts = v.backend.verdicts)
    (hsettled : ∀ ud td id t, s = .asyncCancel ud td id t →
      (∃ ud', .op ud' t ∈ r.queue) ∨ (∃ f ∈ r.flight, f.id = t) ∨ ∃ b, (t, b) ∈ r.told) :
    Decides v' r' := by
  obtain ⟨hqueue, hflight, hdone, htold⟩ := Ring.push_ok hp
  have hcases : ∀ a ∈ r'.queue, a ∈ r.queue ∨ a = s := by
    intro a ha
    rw [hqueue] at ha
    exact (List.mem_append.mp ha).imp_right List.mem_singleton.mp
  constructor
  case agree => rw [htold]; exact h.agree
  case heard =>
    rw [htold, hnext]
    exact fun id b hm => Nat.lt_succ_of_lt (h.heard id b hm)
  case ops => rw [hdone, htold]; exact h.ops
  case cancels => rw [hdone, htold]; exact h.cancels
  case verdicts => rw [htold, hverdicts]; exact h.verdicts
  case queued =>
    rw [htold]
    intro ud id ha b hb
    rcases hcases _ ha with ha | rfl
    · exact h.queued ud id ha b hb
    · exact absurd (h.heard _ b hb) (hid.symm ▸ lt_irrefl _)
  case working => rw [hflight, htold]; exact h.working
  case settled =>
    intro ud td id t ha
    have hfound : (∃ ud', .op ud' t ∈ r.queue) ∨ (∃ f ∈ r.flight, f.id = t) ∨ ∃ b, (t, b) ∈ r.told :=
      (hcases _ ha).elim (h.settled ud td id t) fun heq => hsettled ud td id t heq.symm
    rw [hqueue, hflight, htold]
    exact hfound.imp_left fun ⟨ud', hop⟩ => ⟨ud', List.mem_append_left _ hop⟩

/-- Nothing is decided. -/
theorem untold (h : Decides v r) (htold : r'.told = r.told) (hqueue : ∀ s ∈ r'.queue, s ∈ r.queue)
    (hops : ∀ ud id, .op ud id ∈ r.queue → .op ud id ∈ r'.queue ∨ ∃ f ∈ r'.flight, f.id = id)
    (hback : ∀ f ∈ r.flight, f ∈ r'.flight)
    (hflight : ∀ f ∈ r'.flight, f ∈ r.flight ∨ ∀ b, (f.id, b) ∉ r.told)
    (hdone : ∀ c ∈ r'.done, c ∈ r.done ∨
      (c.completion.cancel = true ∧ (c.target, decide (c.result = 0)) ∈ r.told)) : Decides v r' := by
  constructor
  case agree => rw [htold]; exact h.agree
  case heard => rw [htold]; exact h.heard
  case ops =>
    rw [htold]
    intro c hc hcancel
    rcases hdone c hc with hold | ⟨hyes, -⟩
    · exact h.ops c hold hcancel
    · rw [hcancel] at hyes
      cases hyes
  case cancels =>
    rw [htold]
    intro c hc hcancel
    rcases hdone c hc with hold | ⟨-, hsaid⟩
    · exact h.cancels c hold hcancel
    · exact hsaid
  case verdicts => rw [htold]; exact h.verdicts
  case queued =>
    rw [htold]
    exact fun ud id hs => h.queued ud id (hqueue _ hs)
  case working =>
    rw [htold]
    intro f hf b hb
    rcases hflight f hf with hold | hnew
    · exact h.working f hold b hb
    · exact absurd hb (hnew b)
  case settled =>
    rw [htold]
    intro ud td id t hs
    rcases h.settled ud td id t (hqueue _ hs) with ⟨ud', hop⟩ | ⟨f, hf, hid⟩ | hb
    · exact (hops ud' t hop).imp (fun hop => ⟨ud', hop⟩) .inl
    · exact .inr (.inl ⟨f, hback f hf, hid⟩)
    · exact .inr (.inr hb)

/-- Taking a cancel from the queue leaves the ops in it. -/
theorem ops_tail {ud td id t : ℕ} (hqueue : r.queue = .asyncCancel ud td id t :: r'.queue) (ud' id' : ℕ)
    (hop : .op ud' id' ∈ r.queue) : .op ud' id' ∈ r'.queue := by
  rw [hqueue] at hop
  exact (List.mem_cons.mp hop).resolve_left (by simp)

theorem worked (h : Decides v r) (hr : Requests handed v r) (hh : Handles handed v.nextOpId)
    (hm : Marked busy v r) (hn : v.backend.armed.Nodup) (hw : r.Worked r') : Decides v r' := by
  have htail : ∀ {s : Sqe}, r.queue = s :: r'.queue → ∀ a ∈ r'.queue, a ∈ r.queue :=
    fun hqueue a ha => hqueue ▸ List.mem_cons_of_mem _ ha
  cases hw with
  | took ud id hqueue hflight hdone htold =>
    have hmem : .op ud id ∈ r.queue := hqueue ▸ List.mem_cons_self
    refine h.untold htold (htail hqueue) (fun ud' id' hop => ?_) ?_ ?_
      fun c hc => .inl (hdone.mem_iff.mp hc)
    · rw [hqueue] at hop
      rcases List.mem_cons.mp hop with heq | hop
      · obtain ⟨-, rfl⟩ := Sqe.op.inj heq
        exact .inr ⟨_, hflight ▸ List.mem_cons_self, rfl⟩
      · exact .inl hop
    · rw [hflight]
      exact fun f hf => List.mem_cons_of_mem _ hf
    · rw [hflight]
      exact List.forall_mem_cons.mpr ⟨.inr (h.queued ud id hmem), fun f hf => .inl hf⟩
  | missed ud td id t hqueue hnone hflight hdone htold =>
    have hmem : .asyncCancel ud td id t ∈ r.queue := hqueue ▸ List.mem_cons_self
    have hno := h.missed hr hh hm hqueue hnone
    obtain ⟨slot, hslot, rfl⟩ := (hr.aimed ud td id t hmem).1
    refine h.untold htold (htail hqueue) (fun ud' id' hop => .inl (ops_tail hqueue ud' id' hop))
      (fun f hf => hflight ▸ hf) (fun f hf => .inl (hflight ▸ hf)) fun c hc => ?_
    rcases List.mem_cons.mp (hdone.mem_iff.mp hc) with rfl | hc
    · rw [completion_cancel hslot]
      exact .inr ⟨rfl, hno⟩
    · exact .inl hc
  | won ud id t f hqueue hf hbegun hflight hdone htold =>
    have hmem : .asyncCancel ud f.userData id t ∈ r.queue := hqueue ▸ List.mem_cons_self
    have haim := hr.aims hqueue hf
    obtain ⟨slot, hslot, rfl⟩ := (hr.aimed ud _ id t hmem).1
    obtain ⟨op, ho, hud, -⟩ := hr.working f hf
    apply h.decided hr hh hn hf (b := true)
    case hsame =>
      intro b' hb'
      have hlate := (h.working f hf b' hb').2
      rw [hbegun] at hlate
      cases hlate
    case htold => exact htold
    case hqueue => exact htail hqueue
    case hops => exact ops_tail hqueue
    case hback => rw [hflight]; exact fun g hg => hg
    case hflight => rw [hflight]; exact fun g hg => .inl hg
    case hdone =>
      intro c hc
      rcases List.mem_cons.mp (hdone.mem_iff.mp hc) with rfl | hc
      · rw [completion_cancel hslot, haim]
        exact .inr ⟨nofun, fun _ => rfl⟩
      · rcases List.mem_cons.mp hc with rfl | hc
        · rw [hud, completion_op hh ho]
          exact .inr ⟨fun _ => rfl, nofun⟩
        · exact .inl hc
  | late ud id t f hqueue hf hflight hdone htold =>
    have hmem : .asyncCancel ud f.userData id t ∈ r.queue := hqueue ▸ List.mem_cons_self
    have haim := hr.aims hqueue hf
    obtain ⟨slot, hslot, rfl⟩ := (hr.aimed ud _ id t hmem).1
    apply h.decided hr hh hn hf (b := false)
    case hsame => exact fun b' hb' => (h.working f hf b' hb').1
    case htold => exact htold
    case hqueue => exact htail hqueue
    case hops => exact ops_tail hqueue
    case hback => rw [hflight]; exact fun g hg => List.mem_cons_of_mem _ hg
    case hflight =>
      rw [hflight]
      exact List.forall_mem_cons.mpr ⟨.inr ⟨rfl, rfl, rfl⟩, fun g hg => .inl hg⟩
    case hdone =>
      intro c hc
      rcases List.mem_cons.mp (hdone.mem_iff.mp hc) with rfl | hc
      · rw [completion_cancel hslot, haim]
        exact .inr ⟨nofun, fun _ => rfl⟩
      · exact .inl hc
  | finished f result flags hqueue hf hresult hflight hdone htold =>
    obtain ⟨op, ho, hud, -⟩ := hr.working f hf
    apply h.decided hr hh hn hf (b := false)
    case hsame => exact fun b' hb' => (h.working f hf b' hb').1
    case htold => exact htold
    case hqueue => rw [hqueue]; exact fun s hs => hs
    case hops => rw [hqueue]; exact fun ud id hs => hs
    case hback => rw [hflight]; exact fun g hg => hg
    case hflight => rw [hflight]; exact fun g hg => .inl hg
    case hdone =>
      intro c hc
      rcases List.mem_cons.mp (hdone.mem_iff.mp hc) with rfl | hc
      · rw [hud, completion_op hh ho, beq_eq_false_iff_ne.mpr hresult]
        exact .inr ⟨fun _ => rfl, nofun⟩
      · exact .inl hc
  | passed hqueue hflight hdone htold =>
    exact h.untold htold (fun s hs => hqueue ▸ hs) (fun ud id hop => .inl (hqueue ▸ hop))
      (fun f hf => hflight ▸ hf) (fun f hf => .inl (hflight ▸ hf))
      fun c hc => .inl (hdone.mem_iff.mp hc)

end Decides

/-- Only a cancel that found its op leaves its mark on the decisions. -/
theorem Marked.worked (h : Marked busy v r) (hr : Requests handed v r) (hw : r.Worked r') :
    Marked busy v r' := by
  have hplain : (∀ s ∈ r'.queue, s ∈ r.queue) → (∀ t, (t, true) ∈ r'.told → (t, true) ∈ r.told) →
      Marked busy v r' := fun hqueue htold =>
    ⟨h.armed, h.single, fun i o ho hp => ⟨(h.unmarked i o ho hp).1, fun hm =>
      (h.unmarked i o ho hp).2 (htold _ hm)⟩, fun t ht ud td id hs =>
        h.won t (htold t ht) ud td id (hqueue _ hs)⟩
  cases hw with
  | took ud id hqueue _ _ htold =>
    refine hplain (fun s hs => ?_) fun t ht => htold ▸ ht
    rw [hqueue]
    exact List.mem_cons_of_mem _ hs
  | missed ud td id t hqueue _ _ _ htold =>
    refine hplain (fun s hs => ?_) fun t ht => htold ▸ ht
    rw [hqueue]
    exact List.mem_cons_of_mem _ hs
  | won ud id t f hqueue hf _ _ _ htold =>
    have hmem : .asyncCancel ud f.userData id t ∈ r.queue := hqueue ▸ List.mem_cons_self
    have haim := hr.aims hqueue hf
    constructor
    case armed => exact h.armed
    case single => exact h.single
    case unmarked =>
      intro i o ho hp
      obtain ⟨hno, hnot⟩ := h.unmarked i o ho hp
      refine ⟨hno, fun hm => ?_⟩
      rw [htold] at hm
      rcases List.mem_cons.mp hm with heq | hm
      · have hid : o.id = t := (Prod.mk.inj heq).1.trans haim
        exact hno _ id (hid ▸ hr.cancel_mem hmem)
      · exact hnot hm
    case won =>
      intro t' ht ud' td' id' hs
      rw [htold] at ht
      rcases List.mem_cons.mp ht with heq | ht
      · have ht' : t' = t := (Prod.mk.inj heq).1.trans haim
        exact hr.other_target h.single hqueue (ht' ▸ hs)
      · refine h.won t' ht ud' td' id' ?_
        rw [hqueue]
        exact List.mem_cons_of_mem _ hs
  | late ud id t f hqueue _ _ _ htold =>
    refine hplain (fun s hs => ?_) fun t ht => ?_
    · rw [hqueue]
      exact List.mem_cons_of_mem _ hs
    · rw [htold] at ht
      exact (List.mem_cons.mp ht).resolve_left (by simp)
  | finished f _ _ hqueue _ _ _ _ htold =>
    refine hplain (fun s hs => hqueue ▸ hs) fun t ht => ?_
    rw [htold] at ht
    exact (List.mem_cons.mp ht).resolve_left (by simp)
  | passed hqueue _ _ htold => exact hplain (fun s hs => hqueue ▸ hs) fun t ht => htold ▸ ht

structure Serves (handed : Op → Prop) (busy : Option ℕ) (v : View L) (r : Ring) : Prop where
  handles : Handles handed v.nextOpId
  requests : Requests handed v r
  decides : Decides v r
  marked : Marked busy v r

namespace Serves

theorem start (entries : ℕ) :
    Serves (fun _ => False) none (Coio.Runtime.new : Coio.Runtime L).view (.new entries) := by
  constructor
  case handles => constructor <;> (intros; contradiction)
  case requests =>
    constructor
    case ops => exact .nil
    case cancels => exact .nil
    case order => exact .nil
    all_goals
      intros
      rename_i h
      cases h
  case decides =>
    constructor
    case agree => intro id b b' h; cases h
    all_goals
      intro _
      intros
      contradiction
  case marked =>
    constructor
    case armed => intro i o ho; cases ho
    case single => exact List.nodup_nil
    case unmarked => intro i o ho; cases ho
    case won => intro t ht; cases ht

theorem worked (h : Serves handed busy v r) (hs : v.Sane) (hw : r.Worked r') :
    Serves handed busy v r' where
  handles := h.handles
  requests := h.requests.worked h.handles hw
  decides := h.decides.worked h.requests h.handles h.marked hs.nodup hw
  marked := h.marked.worked h.requests hw

/-- Only the ops and the books are read. -/
theorem congr (h : Serves handed busy v r) (hop : v'.op = v.op) (hb : v'.backend = v.backend)
    (hnext : v.nextOpId ≤ v'.nextOpId) : Serves handed busy v' r where
  handles := h.handles.mono hnext
  requests := h.requests.congr hb hnext
  decides := h.decides.congr hb hnext
  marked := by
    constructor
    case armed => rw [hop, hb]; exact h.marked.armed
    case single => rw [hb]; exact h.marked.single
    case unmarked => rw [hop, hb]; exact h.marked.unmarked
    case won => exact h.marked.won

/-- A registration is queued under its slot and class, and its handle handed out. -/
theorem register (h : Serves handed busy v r) {n : Op} (hslot : n.slot < 2 ^ 32)
    (hcls : n.cls ≤ classMask) (hid : n.id.val = v.nextOpId)
    (hp : r.push (.op (UserData.toU64 ⟨n.slot, n.cls⟩) v.nextOpId) = .ok r')
    (hnew : ∀ op, handed' op ↔ handed op ∨ op = n) (shim done : ℕ) (loc : L)
    (bufs : List IoBufErased) (run : Option (ℕ × ℕ)) (arena : Coio.BufArena) :
    Serves handed' busy (v.register n.slot shim done loc bufs run arena) r' := by
  obtain ⟨hqueue, -, -, htold⟩ := Ring.push_ok hp
  have hop := v.register_op n.slot shim done loc bufs run arena
  constructor
  case handles => exact h.handles.grow hslot hcls hid hnew
  case requests =>
    refine h.requests.pushed h.handles hp rfl rfl (fun op ho => (hnew op).mpr (.inl ho)) ?_ rfl ?_ nofun
    · change _ = [((UserData.ofU64 _).index, _)] ++ _
      rw [ofU64_op hslot hcls]
      rfl
    · intro ud id heq
      obtain ⟨rfl, rfl⟩ := Sqe.op.inj heq
      exact ⟨n, (hnew n).mpr (.inr rfl), rfl, hid⟩
  case decides => exact h.decides.pushed hp rfl rfl rfl nofun
  case marked =>
    constructor
    case armed =>
      intro k o ho hb
      rw [hop] at ho
      split_ifs at ho with hk
      · obtain rfl := Option.some.inj ho
        rw [hk]
        exact List.mem_cons_self
      · exact List.mem_cons_of_mem _ (h.marked.armed k o ho hb)
    case single => exact h.marked.single
    case unmarked =>
      intro k o ho hpending
      rw [hop] at ho
      rw [htold]
      split_ifs at ho with hk
      · obtain rfl := Option.some.inj ho
        constructor
        · intro c id hm
          exact absurd (h.requests.targets c id _ hm) (lt_irrefl _)
        · intro hm
          exact absurd (h.decides.heard _ true hm) (lt_irrefl _)
      · exact h.marked.unmarked k o ho hpending
    case won =>
      rw [htold, hqueue]
      intro t ht ud td id hs
      exact h.marked.won t ht ud td id ((List.mem_append.mp hs).resolve_right (by simp))

/-- A cancel is queued behind its target, under the target's name. -/
theorem acceptCancel (h : Serves handed busy v r) (hs : v.Sane) {op : Op} (hhanded : handed op)
    (ho : v.op op.slot = some o) (hid : o.id = op.id) (hpending : o.pending = false)
    (hbusy : busy ≠ some op.slot) (hj : j < 2 ^ 32)
    (hp : r.push (.asyncCancel (cancelUserData j) (UserData.toU64 ⟨op.slot, op.cls⟩) v.nextOpId op.id) =
      .ok r') (done : ℕ) (loc : L) : Serves handed busy (v.acceptCancel j op done loc o) r' := by
  obtain ⟨hqueue, -, -, htold⟩ := Ring.push_ok hp
  have hop : ∀ k, (v.acceptCancel j op done loc o).op k =
      if k = op.slot then some { o with pending := true } else v.op k := fun _ =>
    Function.update_apply ..
  have hlt : op.id.val < v.nextOpId := hid ▸ (hs.ids op.slot o ho).2
  have harmed := h.marked.armed op.slot o ho hbusy
  obtain ⟨hnone, hnot⟩ := h.marked.unmarked op.slot o ho hpending
  constructor
  case handles => exact h.handles.mono (Nat.le_succ _)
  case requests =>
    refine h.requests.pushed h.handles hp rfl rfl (fun _ ho => ho) rfl ?_ nofun ?_
    · change _ = [((UserData.ofU64 _).index, _, _)] ++ _
      rw [ofU64_cancel hj]
      rfl
    · intro ud td id t heq
      obtain ⟨rfl, rfl, rfl, rfl⟩ := Sqe.asyncCancel.inj heq
      refine ⟨⟨j, hj, rfl⟩, ⟨op, hhanded, rfl, rfl⟩, hlt, fun id' hm => ?_⟩
      rw [Names.index h.handles hhanded] at hm
      obtain ⟨p, hpo, rfl⟩ := hs.armed op.slot id' hm
      rw [ho] at hpo
      exact Option.some.inj hpo ▸ hid
  case decides =>
    refine h.decides.pushed hp rfl rfl rfl fun ud td id t heq => ?_
    obtain ⟨-, -, -, rfl⟩ := Sqe.asyncCancel.inj heq
    exact hid ▸ h.decides.whereabouts h.requests harmed
  case marked =>
    constructor
    case armed =>
      intro k p hk hb
      rw [hop] at hk
      split_ifs at hk with hks
      · obtain rfl := Option.some.inj hk
        exact hks ▸ harmed
      · exact h.marked.armed k p hk hb
    case single =>
      refine List.nodup_cons.mpr ⟨?_, h.marked.single⟩
      intro hm
      obtain ⟨⟨k, id, t⟩, hm, rfl⟩ := List.mem_map.mp hm
      exact hnone k id (hid ▸ hm)
    case unmarked =>
      intro k p hk hpp
      rw [hop] at hk
      split_ifs at hk with hks
      · obtain rfl := Option.some.inj hk
        cases hpp
      · obtain ⟨hno, hnt⟩ := h.marked.unmarked k p hk hpp
        rw [htold]
        refine ⟨fun c id hm => ?_, hnt⟩
        rcases List.mem_cons.mp hm with heq | hm
        · have hpid : p.id = op.id.val := (Prod.mk.inj (Prod.mk.inj heq).2).2
          exact hks (hs.inj k op.slot p o hk ho (hpid.trans hid.symm))
        · exact hno c id hm
    case won =>
      rw [htold, hqueue]
      intro t ht ud td id hmem
      rcases List.mem_append.mp hmem with hmem | hmem
      · exact h.marked.won t ht ud td id hmem
      · obtain ⟨-, -, -, rfl⟩ := Sqe.asyncCancel.inj (List.mem_singleton.mp hmem)
        exact hnot (hid ▸ ht)

/-- A completion is handed over and its request settled in the books. -/
theorem settle (h : Serves handed none v r) {c : Cqe} (hn : r.next = some (c, r'))
    {armed : List (ℕ × ℕ)} {cancels : List (ℕ × ℕ × ℕ)} {t : ℕ} {b : Bool}
    (hops : r'.ops.Perm armed) (hcancels : r'.cancels.Perm cancels)
    (harmed : armed.Sublist v.backend.armed) (hfewer : cancels.Sublist v.backend.cancels)
    (hsaid : (t, b) ∈ r.told)
    (hkept : ∀ i o, v'.op i = some o → busy ≠ some i → v.op i = some o ∧ (i, o.id) ∈ armed)
    (hbusy : ∀ i o, v'.op i = some o → busy = some i → o.pending = true)
    (hb : v'.backend = ⟨armed, cancels, (t, b) :: v.backend.verdicts⟩)
    (hnext : v'.nextOpId = v.nextOpId) : Serves handed busy v' r' := by
  obtain ⟨hdone, hqueue, hflight, htold⟩ := Ring.next_ok hn
  have hmem : ∀ a ∈ r'.done, a ∈ r.done := fun a ha => hdone.mem_iff.mpr (List.mem_cons_of_mem _ ha)
  constructor
  case handles => rw [hnext]; exact h.handles
  case requests =>
    constructor
    case ops => rw [hb]; exact hops
    case cancels => rw [hb]; exact hcancels
    case order => rw [hqueue]; exact h.requests.order
    case behind => rw [hqueue, hflight]; exact h.requests.behind
    case fresh => rw [hqueue, hnext]; exact h.requests.fresh
    case named => rw [hqueue]; exact h.requests.named
    case aimed =>
      rw [hqueue, hb]
      intro ud td id t' hs
      obtain ⟨hud, htd, hlt, happart⟩ := h.requests.aimed ud td id t' hs
      exact ⟨hud, htd, hlt, fun id' hm => happart id' (harmed.subset hm)⟩
    case working => rw [hflight]; exact h.requests.working
    case done => exact fun a ha => h.requests.done a (hmem a ha)
    case targets =>
      rw [hb, hnext]
      exact fun k id t' hm => h.requests.targets k id t' (hfewer.subset hm)
  case decides =>
    constructor
    case agree => rw [htold]; exact h.decides.agree
    case heard => rw [htold, hnext]; exact h.decides.heard
    case ops => rw [htold]; exact fun a ha => h.decides.ops a (hmem a ha)
    case cancels => rw [htold]; exact fun a ha => h.decides.cancels a (hmem a ha)
    case verdicts =>
      rw [htold, hb]
      intro e he
      rcases List.mem_cons.mp he with rfl | he
      · exact hsaid
      · exact h.decides.verdicts e he
    case queued => rw [hqueue, htold]; exact h.decides.queued
    case working => rw [hflight, htold]; exact h.decides.working
    case settled => rw [hqueue, hflight, htold]; exact h.decides.settled
  case marked =>
    constructor
    case armed =>
      rw [hb]
      intro i o ho hne
      exact (hkept i o ho hne).2
    case single =>
      rw [hb]
      exact h.marked.single.sublist (hfewer.map _)
    case unmarked =>
      rw [hb, htold]
      intro i o ho hp
      have hne : busy ≠ some i := by
        intro heq
        have hpending := hbusy i o ho heq
        rw [hp] at hpending
        cases hpending
      obtain ⟨hno, hnot⟩ := h.marked.unmarked i o (hkept i o ho hne).1 hp
      exact ⟨fun k id hm => hno k id (hfewer.subset hm), hnot⟩
    case won => rw [hqueue, htold]; exact h.marked.won

/-- The completion of an op. -/
theorem received (h : Serves handed none v r) {c : Cqe} (hn : r.next = some (c, r'))
    (hc : c.completion.cancel = false) (hid : o.id = c.id)
    (hv : Received c.completion.slot o c.completion.cancelled v v') :
    Serves handed (if o.pending && c.completion.cancelled then some c.completion.slot else none) v' r' := by
  obtain ⟨hdone, hqueue, hflight, -⟩ := Ring.next_ok hn
  have hmem : c ∈ r.done := hdone.mem_iff.mpr List.mem_cons_self
  obtain ⟨hop, hcancel⟩ := Cqe.op_done hc
  have hops : r.ops.Perm ((c.completion.slot, c.id) :: r'.ops) := by
    have hperm := hdone.filterMap Cqe.op?
    rw [List.filterMap_cons_some hop] at hperm
    unfold Ring.ops
    rw [hqueue, hflight]
    refine ((hperm.append_left _).append_left _).trans ?_
    refine (List.perm_middle.append_left _).trans List.perm_middle
  have hcancels : r'.cancels.Perm r.cancels := by
    have hperm := hdone.filterMap Cqe.cancel?
    rw [List.filterMap_cons_none hcancel] at hperm
    unfold Ring.cancels
    rw [hqueue]
    exact hperm.symm.append_left _
  refine h.settle hn ?_ (hcancels.trans h.requests.cancels) (List.erase_sublist) (List.Sublist.refl _)
    (h.decides.ops c hmem hc) ?_ ?_ (hid ▸ hv.backend) hv.nextOpId
  · have hperm := (hops.symm.trans h.requests.ops).erase (c.completion.slot, c.id)
    rw [List.erase_cons_head] at hperm
    exact hperm
  · intro i p hp hne
    have hi : i ≠ c.completion.slot := by
      rintro rfl
      have hslot := hv.slot
      split_ifs at hslot hne with hwon
      · exact hne rfl
      · rw [hslot] at hp
        cases hp
    rw [hv.op i hi] at hp
    refine ⟨hp, (List.mem_erase_of_ne fun heq => hi (Prod.mk.inj heq).1).mpr ?_⟩
    exact h.marked.armed i p hp (by simp)
  · intro i p hp heq
    split_ifs at heq with hwon
    obtain rfl := Option.some.inj heq
    have hslot := hv.slot
    rw [if_pos hwon] at hslot
    obtain ⟨o', ho', -, hpending⟩ := hslot
    rw [hp] at ho'
    exact Option.some.inj ho' ▸ hpending

/-- That of a cancel, in the books. -/
theorem answered (h : Serves handed none v r) {c : Cqe} (hn : r.next = some (c, r'))
    (hc : c.completion.cancel = true) :
    Serves handed none (v.answered c.completion.slot c.id c.target (decide (c.result = 0))) r' := by
  obtain ⟨hdone, hqueue, hflight, -⟩ := Ring.next_ok hn
  have hmem : c ∈ r.done := hdone.mem_iff.mpr List.mem_cons_self
  obtain ⟨hop, hcancel⟩ := Cqe.cancel_done hc
  have hops : r'.ops.Perm r.ops := by
    have hperm := hdone.filterMap Cqe.op?
    rw [List.filterMap_cons_none hop] at hperm
    unfold Ring.ops
    rw [hqueue, hflight]
    exact (hperm.symm.append_left _).append_left _
  have hcancels : r.cancels.Perm ((c.completion.slot, c.id, c.target) :: r'.cancels) := by
    have hperm := hdone.filterMap Cqe.cancel?
    rw [List.filterMap_cons_some hcancel] at hperm
    unfold Ring.cancels
    rw [hqueue]
    exact (hperm.append_left _).trans List.perm_middle
  refine h.settle hn (hops.trans h.requests.ops) ?_ (List.Sublist.refl _) (List.erase_sublist)
    (h.decides.cancels c hmem hc) ?_ ?_ rfl rfl
  · have hperm := (hcancels.symm.trans h.requests.cancels).erase (c.completion.slot, c.id, c.target)
    rw [List.erase_cons_head] at hperm
    exact hperm
  · intro i p hp _
    exact ⟨hp, h.marked.armed i p hp (by simp)⟩
  · intro i p _ heq
    cases heq

/-- Once its cancel has failed an op has none outstanding. -/
theorem failed (h : Serves handed none v r) {c : Cqe} (hmem : c ∈ r.done)
    (hc : c.completion.cancel = true) (hr : c.result ≠ 0) :
    (∀ k id, (k, id, c.target) ∉ v.backend.cancels.erase (c.completion.slot, c.id, c.target)) ∧
      (c.target, true) ∉ r.told := by
  have hcancel := (Cqe.cancel_done hc).2
  have hasked : (c.completion.slot, c.id, c.target) ∈ v.backend.cancels :=
    h.requests.cancels.mem_iff.mp
      (List.mem_append_right _ (List.mem_filterMap.mpr ⟨c, hmem, hcancel⟩))
  constructor
  · intro k id hm
    have hnodup := ((List.perm_cons_erase hasked).map fun c => c.2.2).nodup_iff.mp h.marked.single
    rw [List.map_cons, List.nodup_cons] at hnodup
    exact hnodup.1 (List.mem_map.mpr ⟨_, hm, rfl⟩)
  · intro hm
    have hsaid := h.decides.cancels c hmem hc
    rw [decide_eq_false hr] at hsaid
    have heq := h.decides.agree _ _ _ hm hsaid
    cases heq

/-- An op loses its mark. -/
theorem unmark (h : Serves handed none v r) (ho : v.op i = some o)
    (hno : ∀ k id, (k, id, o.id) ∉ v.backend.cancels) (hnot : (o.id, true) ∉ r.told)
    (hop : ∀ k, v'.op k = if k = i then some { o with pending := false } else v.op k)
    (hb : v'.backend = v.backend) (hnext : v'.nextOpId = v.nextOpId) : Serves handed none v' r where
  handles := hnext ▸ h.handles
  requests := h.requests.congr hb hnext.ge
  decides := h.decides.congr hb hnext.ge
  marked := by
    constructor
    case armed =>
      rw [hb]
      intro k p hp hne
      rw [hop] at hp
      split_ifs at hp with hk
      · obtain rfl := Option.some.inj hp
        rw [hk]
        exact h.marked.armed i o ho (by simp)
      · exact h.marked.armed k p hp hne
    case single => rw [hb]; exact h.marked.single
    case unmarked =>
      rw [hb]
      intro k p hp hpp
      rw [hop] at hp
      split_ifs at hp with hk
      · obtain rfl := Option.some.inj hp
        exact ⟨hno, hnot⟩
      · exact h.marked.unmarked k p hp hpp
    case won => exact h.marked.won

/-- The slot that was being settled is freed. -/
theorem freed (h : Serves handed (some i) v r) (hv : Touches i v v') (hnone : v'.op i = none) :
    Serves handed none v' r where
  handles := hv.nextOpId ▸ h.handles
  requests := h.requests.congr hv.backend hv.nextOpId.ge
  decides := h.decides.congr hv.backend hv.nextOpId.ge
  marked := by
    have hother : ∀ k p, v'.op k = some p → k ≠ i ∧ v.op k = some p := by
      intro k p hp
      have hne : k ≠ i := by
        rintro rfl
        rw [hnone] at hp
        cases hp
      exact ⟨hne, hv.op k hne ▸ hp⟩
    constructor
    case armed =>
      rw [hv.backend]
      intro k p hp _
      obtain ⟨hne, hold⟩ := hother k p hp
      exact h.marked.armed k p hold fun heq => hne (Option.some.inj heq).symm
    case single => rw [hv.backend]; exact h.marked.single
    case unmarked =>
      rw [hv.backend]
      intro k p hp hpp
      exact h.marked.unmarked k p (hother k p hp).2 hpp
    case won => exact h.marked.won

end Serves

end

end Conrt.Uring
