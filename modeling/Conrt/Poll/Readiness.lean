import Conrt.Poll.Drain

/-! Which operations the backend performs, and whether the poller has reported them ready. -/
namespace Conrt.Poll

open Conrt.Base

/-- A backend, the operations whose registrations its poller has reported, and the number of
operations armed before the event buffer was filled. -/
structure Watch where
  mio : Mio
  reported : List ℕ
  filled : ℕ

/-- The calls on the backend. A wait is interrupted by signals until the poller fails or reports
registered descriptors. -/
inductive Act
  | call (c : Call)
  | wait (interrupted : ℕ) (result : Except Errno (List RawFd))
  | next (perform : Req → Except Errno ℕ)

namespace Watch

def new : Watch := ⟨.new, [], 0⟩

def reports (w : Watch) : Except Errno (List RawFd) → List Registration
  | .ok fds => fds.filterMap w.mio.registry.lookup
  | .error _ => []

def step (w : Watch) : Act → Option Watch
  | .call c => (c.exec w.mio).map fun m => { w with mio := m }
  | .wait interrupted result =>
    let regs := w.reports result
    let polls := List.replicate interrupted (.error eintr) ++ [result.map fun _ => regs.map (·.token)]
    (w.mio.wait polls).map fun r =>
      ⟨r.2, w.reported ++ regs.map (·.op), w.mio.nextOp⟩
  | .next perform => some { w with mio := (w.mio.nextCompletion perform).2 }

/-- Every syscall issued was that of an operation reported ready before. -/
def Honest (w : Watch) : Prop := ∀ op ∈ performedOps w.mio.log, op ∈ w.reported

/-- When `next_completion` gets to the event buffer, the slot of the first event is empty or was armed
before the buffer was filled. -/
def Settled (w : Watch) : Act → Prop
  | .next _ => w.mio.ready = [] → ∀ token p, w.mio.events.head? = some token →
      w.mio.at? token = some p → p.reg.op < w.filled
  | _ => True

/-- Every registration is that of the operation in its slot. -/
def Owned (m : Mio) : Prop :=
  ∀ fd reg, m.registry.lookup fd = some reg → reg.fd = fd ∧ ∃ p, m.at? reg.token = some p ∧ p.reg = reg

/-- The first event is that of the operation in its slot, unless the slot was armed since. -/
structure Watched (w : Watch) : Prop where
  owned : Owned w.mio
  honest : w.Honest
  earlier : ∀ op ∈ w.reported, op < w.filled
  armed : w.filled ≤ w.mio.nextOp
  tidy : Tidy w.mio
  front : ∀ token p, w.mio.events.head? = some token → w.mio.at? token = some p →
    p.reg.op < w.filled → p.reg.op ∈ w.reported

variable {w w' : Watch} {m m' : Mio} {slot : ℕ} {p : PendingOp}

/-- An operation leaves its slot together with its registration. -/
theorem Owned.take (h : Owned m) (ht : m.takePending slot = some (p, m')) :
    Owned m' ∧ ∀ fd reg, m'.registry.lookup fd = some reg → reg.token ≠ slot := by
  obtain ⟨hat, -, -, -, -, hpend, -⟩ := take_slots ht
  have hreg : m'.registry = m.registry.erase p.reg.fd := by
    unfold Mio.takePending at ht
    rw [hat] at ht
    obtain ⟨-, rfl⟩ := Prod.mk.inj (Option.some.inj ht)
    rfl
  have hlt := (List.getElem?_eq_some_iff.mp ((Mio.at?_eq m slot).mp hat)).1
  have hkept : ∀ fd reg, m'.registry.lookup fd = some reg →
      m.registry.lookup fd = some reg ∧ reg.token ≠ slot := by
    intro fd reg hl
    rw [hreg, Table.lookup_erase_ite] at hl
    split_ifs at hl with hne
    obtain ⟨hfd, q, hq, hqr⟩ := h fd reg hl
    refine ⟨hl, ?_⟩
    intro htoken
    rw [htoken, hat] at hq
    obtain rfl := Option.some.inj hq
    exact hne (by rw [← hfd, hqr])
  constructor
  · intro fd reg hl
    obtain ⟨hold, hne⟩ := hkept fd reg hl
    obtain ⟨hfd, q, hq, hqr⟩ := h fd reg hold
    refine ⟨hfd, q, ?_, hqr⟩
    unfold Mio.at?
    rw [hpend, Mio.at?_set hlt, if_neg hne]
    exact hq
  · intro fd reg hl
    exact (hkept fd reg hl).2

theorem Owned.arm (h : Owned m) {req : Req} {refused : Option Errno} (hv : m.at? slot = none)
    (ha : m.arm slot req refused = .ok m') : Owned m' := by
  obtain ⟨-, reg, hreg, rfl⟩ := Mio.arm_ok ha
  have hput : ∀ s, ((((m.grown slot).set slot (some ⟨reg, req⟩))[s]?).join) =
      if s = slot then some ⟨reg, req⟩ else m.at? s := by
    intro s
    rw [Mio.at?_set (Mio.grown_length m slot), Mio.grown_getElem?]
  intro fd r hl
  have hlookup : (m.registry.insert req.fd reg).lookup fd = some r := hl
  rw [Table.lookup_insert_ite] at hlookup
  split_ifs at hlookup with hfd
  · obtain rfl := Option.some.inj hlookup
    refine ⟨by rw [hreg, hfd], ⟨reg, req⟩, ?_, rfl⟩
    have htoken : reg.token = slot := by rw [hreg]
    exact (hput reg.token).trans (if_pos htoken)
  · obtain ⟨hrfd, q, hq, hqr⟩ := h fd r hlookup
    refine ⟨hrfd, q, ?_, hqr⟩
    have hne : r.token ≠ slot := by
      intro htoken
      rw [htoken, hv] at hq
      cases hq
    exact (hput r.token).trans ((if_neg hne).trans hq)

theorem Owned.exec {c : Call} (h : Owned m) (hc : c.exec m = some m') : Owned m' := by
  cases c with
  | arm slot req refused =>
    simp only [Call.exec] at hc
    split_ifs at hc with hv
    have hslot : m.at? slot = none := by
      rw [Mio.vacant, Bool.and_eq_true] at hv
      exact Option.isNone_iff_eq_none.mp hv.1
    cases ha : m.arm slot req refused with
    | ok n =>
      rw [ha] at hc
      obtain rfl := Option.some.inj hc
      exact h.arm hslot ha
    | error e =>
      rw [ha] at hc
      obtain rfl := Option.some.inj hc
      exact h
  | cancel cancelSlot targetSlot cls =>
    obtain rfl := Option.some.inj hc
    unfold Mio.cancel
    cases ht : m.takePending targetSlot with
    | none => exact h
    | some r => exact (h.take ht).1

theorem Owned.next (h : Owned m) (perform : Req → Except Errno ℕ) :
    Owned (m.nextCompletion perform).2 := by
  unfold Mio.nextCompletion
  split
  · rename_i c ready hr
    cases c.op <;> exact h
  · split
    · exact h
    · rename_i token events hev
      split
      · exact h
      · rename_i q n ht
        obtain ⟨hown, hfree⟩ := h.take ht
        split
        · exact hown
        · split_ifs
          · -- the entry is back in a slot that no registration names
            obtain ⟨hat, -, -, -, -, hpend, -⟩ := take_slots ht
            have hlt := (List.getElem?_eq_some_iff.mp ((Mio.at?_eq m token).mp hat)).1
            intro fd reg hl
            obtain ⟨hfd, r, hr, hrr⟩ := hown fd reg hl
            refine ⟨hfd, r, ?_, hrr⟩
            change (((n.pending.set token (some q))[reg.token]?).join) = some r
            rw [Mio.at?_set (by rw [hpend, List.length_set]; exact hlt), if_neg (hfree fd reg hl)]
            exact hr
          · exact hown

theorem Watched.new : Watched .new := by
  constructor
  · intro fd reg hl
    cases hl
  · intro op hop
    cases hop
  · intro op hop
    cases hop
  · exact le_rfl
  · constructor
    · intro s t p q hp
      cases hp
    · intro s p hp
      cases hp
  · intro token p hhead
    cases hhead

/-- An operation in the first event's slot was there before, or has been armed since. -/
theorem Watched.follows (h : w.Watched) {es : List Entry} (hf : Follows w.mio m es) (ho : Owned m)
    (ht : Tidy m) (hp : ∀ op ∈ performedOps es, op ∈ w.reported) : Watched { w with mio := m } := by
  constructor
  case owned => exact ho
  case honest =>
    intro op hop
    have hlog : performedOps m.log = performedOps w.mio.log ++ performedOps es := by
      rw [hf.log, performedOps_append]
    have hop : op ∈ performedOps m.log := hop
    rw [hlog] at hop
    rcases List.mem_append.mp hop with hop | hop
    · exact h.honest op hop
    · exact hp op hop
  case earlier => exact h.earlier
  case armed => exact h.armed.trans hf.nextOp
  case tidy => exact ht
  case front =>
    intro token p hhead hat hlt
    have hhead : m.events.head? = some token := hhead
    rw [hf.events] at hhead
    rcases hf.slots token p hat with hold | hnew
    · exact h.front token p hhead hold hlt
    · have harmed := h.armed
      have hlt : p.reg.op < w.filled := hlt
      omega

theorem Watched.call (h : w.Watched) {c : Call} (hs : w.step (.call c) = some w') : w'.Watched := by
  obtain ⟨m, hm, rfl⟩ := Option.map_eq_some_iff.mp hs
  obtain ⟨⟨es, hf, hnone⟩, ht⟩ := exec_follows hm
  apply h.follows hf (h.owned.exec hm) (ht h.tidy)
  rw [hnone]
  intro op hop
  cases hop

private theorem pollLoop_interrupted (n : ℕ) (poll : Except Errno (List ℕ)) :
    Mio.pollLoop (List.replicate n (.error eintr) ++ [poll]) = Mio.pollLoop [poll] := by
  induction n with
  | zero => rfl
  | succ n ih =>
    rw [List.replicate_succ, List.cons_append, Mio.pollLoop, if_pos rfl]
    exact ih

/-- A wait fills the buffer with what is reported, or empties it. -/
theorem step_wait {interrupted : ℕ} {result : Except Errno (List RawFd)}
    (hs : w.step (.wait interrupted result) = some w') :
    w' = ⟨{ w.mio with events := (w.reports result).map (·.token) },
      w.reported ++ (w.reports result).map (·.op), w.mio.nextOp⟩ := by
  obtain ⟨⟨r, m⟩, hm, rfl⟩ := Option.map_eq_some_iff.mp hs
  unfold Mio.wait at hm
  rw [pollLoop_interrupted] at hm
  cases result with
  | ok fds =>
    obtain ⟨-, rfl⟩ := Prod.mk.inj (Option.some.inj hm)
    rfl
  | error e =>
    by_cases he : e = eintr
    · simp [Mio.pollLoop, Except.map, he] at hm
    · simp only [Mio.pollLoop, Except.map, he, if_false, Option.some.injEq, Prod.mk.injEq] at hm
      obtain ⟨-, rfl⟩ := hm
      rfl

theorem Watched.mem_reports (h : w.Watched) {result : Except Errno (List RawFd)} {reg : Registration}
    (hr : reg ∈ w.reports result) : ∃ p, w.mio.at? reg.token = some p ∧ p.reg = reg := by
  cases result with
  | ok fds =>
    obtain ⟨fd, -, hl⟩ := List.mem_filterMap.mp hr
    exact (h.owned fd reg hl).2
  | error e => cases hr

theorem Watched.wait (h : w.Watched) {interrupted : ℕ} {result : Except Errno (List RawFd)}
    (hs : w.step (.wait interrupted result) = some w') : w'.Watched := by
  obtain rfl := step_wait hs
  constructor
  case owned => exact h.owned
  case honest =>
    intro op hop
    exact List.mem_append_left _ (h.honest op hop)
  case earlier =>
    intro op hop
    rcases List.mem_append.mp hop with hop | hop
    · exact (h.earlier op hop).trans_le h.armed
    · obtain ⟨reg, hreg, rfl⟩ := List.mem_map.mp hop
      obtain ⟨p, hat, rfl⟩ := h.mem_reports hreg
      exact h.tidy.bound _ p hat
  case armed => exact le_rfl
  case tidy => exact h.tidy.of_slots rfl fun _ _ hp => hp
  case front =>
    intro token p hhead hat _
    have hhead : ((w.reports result).map (·.token)).head? = some token := hhead
    rw [List.head?_map] at hhead
    obtain ⟨reg, hreg, rfl⟩ := Option.map_eq_some_iff.mp hhead
    have hmem := List.mem_of_head? hreg
    obtain ⟨q, hq, rfl⟩ := h.mem_reports hmem
    have hat : w.mio.at? q.reg.token = some p := hat
    rw [hq] at hat
    obtain rfl := Option.some.inj hat
    exact List.mem_append_right _ (List.mem_map_of_mem hmem)

/-- Nothing is performed while a completion is decided. -/
theorem next_ready (perform : Req → Except Errno ℕ) (hr : m.ready ≠ []) :
    performedOps (m.nextCompletion perform).2.log = performedOps m.log := by
  obtain ⟨c, ready, hcons⟩ := List.exists_cons_of_ne_nil hr
  simp only [Mio.nextCompletion, hcons]
  cases c.op with
  | none => rfl
  | some op => exact (performedOps_append m.log [.returned op]).trans (List.append_nil _)

theorem Watched.next (h : w.Watched) {perform : Req → Except Errno ℕ}
    (hq : w.Settled (.next perform)) (hs : w.step (.next perform) = some w') : w'.Watched := by
  obtain rfl := Option.some.inj hs
  obtain ⟨⟨es, hf, hp⟩, ht⟩ := next_follows (m := w.mio) perform
  apply h.follows hf (h.owned.next perform) (ht h.tidy)
  intro op hop
  obtain ⟨token, p, hhead, hat, rfl⟩ := hp.only op hop
  apply h.front token p hhead hat
  apply hq _ token p hhead hat
  by_contra hr
  have hsame := next_ready perform hr
  rw [hf.log, performedOps_append] at hsame
  rw [List.append_right_eq_self.mp hsame] at hop
  cases hop

/-- A syscall that is issued for an operation armed too late is dishonest. -/
theorem Watched.loses (h : w.Watched) {a : Act} (hq : ¬ w.Settled a) :
    ∃ t, w.step a = some t ∧ ¬ t.Honest := by
  cases a with
  | call c => exact (hq trivial).elim
  | wait interrupted result => exact (hq trivial).elim
  | next perform =>
    refine ⟨_, rfl, ?_⟩
    intro hhonest
    apply hq
    intro hr token p hhead hat
    obtain ⟨⟨es, hf, hp⟩, -⟩ := next_follows (m := w.mio) perform
    apply h.earlier
    apply hhonest
    have hlog : performedOps (w.mio.nextCompletion perform).2.log =
        performedOps w.mio.log ++ performedOps es := by
      rw [hf.log, performedOps_append]
    change p.reg.op ∈ performedOps (w.mio.nextCompletion perform).2.log
    rw [hlog]
    exact List.mem_append_right _ (hp.first hr token p hhead hat)

end Watch

/-- In every state of a run each syscall issued was that of an operation reported ready before, exactly
when no call of `next_completion` meets a slot that was armed since the buffer was filled. -/
theorem run_honest_iff (acts : List Act) :
    (∀ done w, done <+: acts → run Watch.step .new done = some w → w.Honest) ↔
      Meets Watch.step Watch.Settled .new acts := by
  apply forall_prefix_iff_meets (I := Watch.Watched)
  · intro w h
    exact h.honest
  · intro w a w' h hq hs
    cases a with
    | call c => exact h.call hs
    | wait interrupted result => exact h.wait hs
    | next perform => exact h.next hq hs
  · intro w a h hq
    exact h.loses hq
  · exact .new

/-- A callback re-arms its slot on another descriptor while the event it was called for is in the
buffer: the new operation's syscall is issued though its descriptor was never reported. -/
theorem rearmed_slot_performed : ∃ w, run Watch.step .new [.call (.arm 0 (.read 5 0 8) none),
    .next fun _ => .ok 0, .wait 0 (.ok [5]), .next fun _ => .ok 8, .call (.arm 0 (.accept 6) none),
    .next fun _ => .error eagain] = some w ∧ w.reported = [0] ∧ performedOps w.mio.log = [0, 1] ∧
    ¬ w.Honest := by
  refine ⟨_, rfl, rfl, rfl, ?_⟩
  intro h
  have hmem := h 1 (by decide)
  revert hmem
  decide

end Conrt.Poll
