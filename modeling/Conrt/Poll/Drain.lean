import Conrt.Poll.Registry
import Mathlib.Order.Nat

/-! The drive loop over the readiness backend: which events of a batch its drain examines. -/
namespace Conrt.Poll

open Conrt.Base

/-- What one call of `next_completion` meets: the answers of the syscalls, and the calls of the
callback the completion is dispatched to. -/
structure Turn where
  perform : Req → Except Errno ℕ
  calls : List Call

def callAll (m : Mio) (calls : List Call) : Option Mio := calls.foldlM Call.exec m

/-- `drain_cqes`: every turn but the last returns a completion. -/
def drain (m : Mio) : List Turn → Option Mio
  | [] => none
  | turn :: turns =>
    match m.nextCompletion turn.perform with
    | (none, m) =>
      match turns with
      | [] => some m
      | _ => none
    | (some _, m) => (callAll m turn.calls).bind fun m => drain m turns

/-- One round of `drive`: a wait and the drain after it. An error of the poller ends the loop. -/
structure Round where
  polls : List (Except Errno (List ℕ))
  turns : List Turn

def round (m : Mio) (r : Round) : Option Mio :=
  match m.wait r.polls with
  | some (.ok (), m) => drain m r.turns
  | _ => none

def booted (calls : List Call) (turns : List Turn) : Option Mio :=
  (callAll .new calls).bind fun m => drain m turns

def performedOps (log : List Entry) : List ℕ :=
  log.filterMap fun
    | .performed op => some op
    | _ => none

def cancelledOps (log : List Entry) : List ℕ :=
  log.filterMap fun
    | .cancelled op => some op
    | _ => none

/-- The event buffer stays, and an operation in a slot was there before or is new. -/
structure Follows (m m' : Mio) (es : List Entry) : Prop where
  events : m'.events = m.events
  log : m'.log = m.log ++ es
  nextOp : m.nextOp ≤ m'.nextOp
  slots : ∀ slot p, m'.at? slot = some p → m.at? slot = some p ∨ m.nextOp ≤ p.reg.op

/-- No operation is in two slots, and the next one armed is none of them. -/
structure Tidy (m : Mio) : Prop where
  unique : ∀ s t p q, m.at? s = some p → m.at? t = some q → p.reg.op = q.reg.op → s = t
  bound : ∀ slot p, m.at? slot = some p → p.reg.op < m.nextOp

variable {m m' m'' : Mio} {es es' : List Entry} {slot : ℕ} {p : PendingOp}

namespace Follows

theorem refl (m : Mio) : Follows m m [] :=
  ⟨rfl, (List.append_nil _).symm, le_rfl, fun _ _ h => .inl h⟩

theorem trans (h : Follows m m' es) (h' : Follows m' m'' es') : Follows m m'' (es ++ es') where
  events := h'.events.trans h.events
  log := by rw [h'.log, h.log, List.append_assoc]
  nextOp := h.nextOp.trans h'.nextOp
  slots slot p hp := by
    rcases h'.slots slot p hp with hp | hnew
    · exact h.slots slot p hp
    · exact .inr (h.nextOp.trans hnew)

end Follows

theorem Tidy.of_slots (h : Tidy m) (hn : m'.nextOp = m.nextOp)
    (hs : ∀ slot p, m'.at? slot = some p → m.at? slot = some p) : Tidy m' where
  unique s t p q hp hq := h.unique s t p q (hs s p hp) (hs t q hq)
  bound slot p hp := hn ▸ h.bound slot p (hs slot p hp)

theorem take_slots (ht : m.takePending slot = some (p, m')) :
    m.at? slot = some p ∧ m'.events = m.events ∧ m'.log = m.log ∧ m'.nextOp = m.nextOp ∧
      m'.ready = m.ready ∧ m'.pending = m.pending.set slot none ∧
      ∀ s q, m'.at? s = some q → m.at? s = some q := by
  unfold Mio.takePending at ht
  cases hat : m.at? slot with
  | none =>
    rw [hat] at ht
    cases ht
  | some q =>
    rw [hat] at ht
    obtain ⟨rfl, rfl⟩ := Prod.mk.inj (Option.some.inj ht)
    have hlt := (List.getElem?_eq_some_iff.mp ((Mio.at?_eq m slot).mp hat)).1
    refine ⟨rfl, rfl, rfl, rfl, rfl, rfl, fun s r hr => ?_⟩
    have hs := (Mio.at?_set hlt).symm.trans hr
    split_ifs at hs
    exact hs

private theorem arm_slots {req : Req} {refused : Option Errno}
    (ha : m.arm slot req refused = .ok m') : Follows m m' [.armed m.nextOp] ∧
      (Tidy m → Tidy m') := by
  obtain ⟨-, reg, hreg, rfl⟩ := Mio.arm_ok ha
  have hput : ∀ s q, ((((m.grown slot).set slot (some ⟨reg, req⟩))[s]?).join) = some q →
      (s = slot ∧ q = ⟨reg, req⟩) ∨ m.at? s = some q := by
    intro s q hq
    rw [Mio.at?_set (Mio.grown_length m slot), Mio.grown_getElem?] at hq
    split_ifs at hq with hs
    · exact .inl ⟨hs, (Option.some.inj hq).symm⟩
    · exact .inr hq
  have hop : reg.op = m.nextOp := by rw [hreg]
  constructor
  · refine ⟨rfl, rfl, Nat.le_succ _, fun s q hq => ?_⟩
    rcases hput s q hq with ⟨-, rfl⟩ | hold
    · exact .inr hop.ge
    · exact .inl hold
  · intro htidy
    constructor
    · intro s t q r hq hr heq
      rcases hput s q hq with ⟨hs, rfl⟩ | hq'
      · rcases hput t r hr with ⟨ht, rfl⟩ | hr'
        · rw [hs, ht]
        · have hlt := htidy.bound t r hr'
          rw [← heq] at hlt
          exact (Nat.lt_irrefl _ (hop ▸ hlt)).elim
      · rcases hput t r hr with ⟨ht, rfl⟩ | hr'
        · have hlt := htidy.bound s q hq'
          rw [heq] at hlt
          exact (Nat.lt_irrefl _ (hop ▸ hlt)).elim
        · exact htidy.unique s t q r hq' hr' heq
    · intro s q hq
      rcases hput s q hq with ⟨-, rfl⟩ | hold
      · exact Nat.lt_succ_of_le hop.le
      · exact Nat.lt_succ_of_lt (htidy.bound s q hold)

theorem exec_follows {c : Call} (hc : c.exec m = some m') :
    (∃ es, Follows m m' es ∧ performedOps es = []) ∧ (Tidy m → Tidy m') := by
  cases c with
  | arm slot req refused =>
    simp only [Call.exec] at hc
    split_ifs at hc
    cases ha : m.arm slot req refused with
    | ok n =>
      rw [ha] at hc
      obtain rfl := Option.some.inj hc
      obtain ⟨hf, ht⟩ := arm_slots ha
      exact ⟨⟨_, hf, rfl⟩, ht⟩
    | error e =>
      rw [ha] at hc
      obtain rfl := Option.some.inj hc
      exact ⟨⟨[], .refl m, rfl⟩, id⟩
  | cancel cancelSlot targetSlot cls =>
    obtain rfl := Option.some.inj hc
    unfold Mio.cancel
    cases ht : m.takePending targetSlot with
    | none => exact ⟨⟨[], .refl m, rfl⟩, id⟩
    | some r =>
      obtain ⟨p, n⟩ := r
      obtain ⟨-, hev, hlog, hnext, -, -, hslots⟩ := take_slots ht
      refine ⟨⟨[.cancelled p.reg.op], ⟨hev, ?_, hnext.ge, fun s q hq => .inl (hslots s q hq)⟩,
        rfl⟩, fun htidy => htidy.of_slots hnext hslots⟩
      change n.log ++ _ = _
      rw [hlog]

theorem callAll_follows {calls : List Call} (hc : callAll m calls = some m') :
    (∃ es, Follows m m' es ∧ performedOps es = []) ∧ (Tidy m → Tidy m') := by
  induction calls generalizing m with
  | nil =>
    obtain rfl : m = m' := by simpa [callAll] using hc
    exact ⟨⟨[], .refl m, rfl⟩, id⟩
  | cons c calls ih =>
    obtain ⟨n, hn, hrest⟩ := Option.bind_eq_some_iff.mp hc
    obtain ⟨⟨es, hf, hp⟩, ht⟩ := exec_follows hn
    obtain ⟨⟨es', hf', hp'⟩, ht'⟩ := ih hrest
    refine ⟨⟨es ++ es', hf.trans hf', ?_⟩, ht' ∘ ht⟩
    unfold performedOps at hp hp' ⊢
    rw [List.filterMap_append, hp, hp', List.append_nil]

/-- What a call of `next_completion` performs: the operation under the first event, if it gets to
the events, and no other. -/
structure Performs (m : Mio) (es : List Entry) : Prop where
  only : ∀ op ∈ performedOps es,
    ∃ token p, m.events.head? = some token ∧ m.at? token = some p ∧ p.reg.op = op
  first : m.ready = [] → ∀ token p, m.events.head? = some token → m.at? token = some p →
    p.reg.op ∈ performedOps es

theorem Performs.nothing (h : performedOps es = [])
    (hno : m.ready = [] → ∀ token p, m.events.head? = some token → m.at? token ≠ some p) :
    Performs m es := by
  constructor
  · rw [h]
    intro op hop
    cases hop
  · intro hr token p hev hat
    exact (hno hr token p hev hat).elim

theorem Performs.one {token : ℕ} {events : List ℕ} (hev : m.events = token :: events)
    (hat : m.at? token = some p) (h : performedOps es = [p.reg.op]) : Performs m es := by
  have hhead : m.events.head? = some token := by rw [hev]; rfl
  constructor
  · rw [h]
    intro op hop
    obtain rfl := List.mem_singleton.mp hop
    exact ⟨token, p, hhead, hat, rfl⟩
  · intro _ t q ht hq
    rw [hhead] at ht
    obtain rfl := Option.some.inj ht
    rw [hat] at hq
    rw [h, Option.some.inj hq]
    exact List.mem_singleton.mpr rfl

theorem next_follows (perform : Req → Except Errno ℕ) :
    (∃ es, Follows m (m.nextCompletion perform).2 es ∧ Performs m es) ∧
    (Tidy m → Tidy (m.nextCompletion perform).2) := by
  unfold Mio.nextCompletion
  split
  · rename_i c ready hr
    have hno : m.ready = [] → ∀ token p, m.events.head? = some token → m.at? token ≠ some p := by
      intro hnil
      rw [hr] at hnil
      cases hnil
    cases c.op with
    | none =>
      exact ⟨⟨[], ⟨rfl, (List.append_nil _).symm, le_rfl, fun _ _ h => .inl h⟩, .nothing rfl hno⟩,
        fun h => h.of_slots rfl fun _ _ h => h⟩
    | some op =>
      exact ⟨⟨[.returned op], ⟨rfl, rfl, le_rfl, fun _ _ h => .inl h⟩, .nothing rfl hno⟩,
        fun h => h.of_slots rfl fun _ _ h => h⟩
  · split
    · rename_i hev
      refine ⟨⟨[], .refl m, .nothing rfl fun _ token p hhead => ?_⟩, id⟩
      rw [hev] at hhead
      cases hhead
    · rename_i token events hev
      split
      · rename_i hnone
        refine ⟨⟨[], .refl m, .nothing rfl fun _ t p hhead hat => ?_⟩, id⟩
        rw [hev] at hhead
        obtain rfl := Option.some.inj hhead
        unfold Mio.takePending at hnone
        rw [hat] at hnone
        cases hnone
      · rename_i p n ht
        obtain ⟨hat, hevn, hlog, hnext, -, hpend, hslots⟩ := take_slots ht
        have hdone : Follows m ((n.record (.performed p.reg.op)).record (.returned p.reg.op))
            [.performed p.reg.op, .returned p.reg.op] := by
          refine ⟨hevn, ?_, hnext.ge, fun s q hq => .inl (hslots s q hq)⟩
          change (n.log ++ _) ++ _ = _
          rw [hlog, List.append_assoc]
          rfl
        split
        · exact ⟨⟨_, hdone, .one hev hat rfl⟩, fun htidy => htidy.of_slots hnext hslots⟩
        · split_ifs
          · have hback : ∀ s q, Mio.at? { n.record (.performed p.reg.op) with
                pending := n.pending.set token (some p) } s = some q → m.at? s = some q := by
              intro s q hq
              have hlt := (List.getElem?_eq_some_iff.mp ((Mio.at?_eq m token).mp hat)).1
              have hset : (((m.pending.set token none).set token (some p))[s]?).join = some q := by
                rw [← hpend]
                exact hq
              rw [Mio.at?_set (by rw [List.length_set]; exact hlt), Mio.at?_set hlt] at hset
              split_ifs at hset with hs
              · rw [hs, hat]
                exact hset
              · exact hset
            refine ⟨⟨[.performed p.reg.op], ⟨hevn, ?_, hnext.ge, fun s q hq => .inl (hback s q hq)⟩,
              .one hev hat rfl⟩, fun htidy => htidy.of_slots hnext hback⟩
            change n.log ++ _ = _
            rw [hlog]
          · exact ⟨⟨_, hdone, .one hev hat rfl⟩, fun htidy => htidy.of_slots hnext hslots⟩

/-- A drain that has ended leaves nothing decided. -/
theorem next_none {perform : Req → Except Errno ℕ} (h : m.nextCompletion perform = (none, m')) :
    m'.ready = [] := by
  unfold Mio.nextCompletion at h
  split at h
  · cases (Prod.mk.inj h).1
  · rename_i hr
    split at h
    · obtain rfl := (Prod.mk.inj h).2
      exact hr
    · split at h
      · obtain rfl := (Prod.mk.inj h).2
        exact hr
      · rename_i p n ht
        obtain ⟨-, -, -, -, hready, -, -⟩ := take_slots ht
        split at h
        · cases (Prod.mk.inj h).1
        · split_ifs at h
          · obtain rfl := (Prod.mk.inj h).2
            exact hready.trans hr
          · cases (Prod.mk.inj h).1

theorem performedOps_append (es es' : List Entry) :
    performedOps (es ++ es') = performedOps es ++ performedOps es' := List.filterMap_append ..

/-- An operation that is in no slot but this one, now or later. -/
def Alone (m : Mio) (p : PendingOp) (token : ℕ) : Prop :=
  (∀ s q, m.at? s = some q → q.reg.op = p.reg.op → s = token) ∧ p.reg.op < m.nextOp

theorem Alone.follows {token : ℕ} (h : Alone m p token) (hf : Follows m m' es) :
    Alone m' p token := by
  constructor
  · intro s q hq hop
    rcases hf.slots s q hq with hold | hnew
    · exact h.1 s q hold hop
    · rw [hop] at hnew
      exact (Nat.not_lt.mpr hnew h.2).elim
  · exact h.2.trans_le hf.nextOp

/-- Operations behind the first event are left alone by the whole drain; the first one is not. -/
structure Drained (m m' : Mio) (es : List Entry) : Prop where
  follows : Follows m m' es
  ready : m'.ready = []
  tidy : Tidy m → Tidy m'
  skips : ∀ token p, Alone m p token → m.events.head? ≠ some token → p.reg.op ∉ performedOps es
  first : m.ready = [] → ∀ token p, m.events.head? = some token → m.at? token = some p →
    p.reg.op ∈ performedOps es

theorem Performs.skips {token : ℕ} (h : Performs m es) (ha : Alone m p token)
    (hne : m.events.head? ≠ some token) : p.reg.op ∉ performedOps es := by
  intro hp
  obtain ⟨t, q, hev, hat, hop⟩ := h.only _ hp
  obtain rfl := ha.1 t q hat hop
  exact hne hev

theorem drain_drained {turns : List Turn} (hd : drain m turns = some m') :
    ∃ es, Drained m m' es := by
  induction turns generalizing m with
  | nil => cases hd
  | cons turn turns ih =>
    obtain ⟨⟨es, hf, hp⟩, ht⟩ := next_follows (m := m) turn.perform
    unfold drain at hd
    split at hd
    · rename_i n hn
      cases turns with
      | cons _ _ => cases hd
      | nil =>
        obtain rfl := Option.some.inj hd
        rw [hn] at hf ht
        exact ⟨es, hf, next_none hn, ht, fun _ _ => hp.skips, hp.first⟩
    · rename_i c n hn
      rw [hn] at hf ht
      obtain ⟨u, hu, hrest⟩ := Option.bind_eq_some_iff.mp hd
      obtain ⟨⟨es', hf', hnone⟩, ht'⟩ := callAll_follows hu
      obtain ⟨es'', hd''⟩ := ih hrest
      have hfu := hf.trans hf'
      refine ⟨es ++ es' ++ es'', hfu.trans hd''.follows, hd''.ready, hd''.tidy ∘ ht' ∘ ht, ?_, ?_⟩
      · intro token p ha hne
        rw [performedOps_append, performedOps_append, hnone, List.append_nil, List.mem_append,
          not_or]
        refine ⟨hp.skips ha hne, hd''.skips token p (ha.follows hfu) ?_⟩
        rw [hfu.events]
        exact hne
      · intro hr token p hev hat
        rw [performedOps_append, performedOps_append]
        exact List.mem_append_left _ (List.mem_append_left _ (hp.first hr token p hev hat))

theorem wait_tidy {polls : List (Except Errno (List ℕ))} {r : Except Errno Unit}
    (hw : m.wait polls = some (r, m')) :
    m'.ready = m.ready ∧ m'.log = m.log ∧ (Tidy m → Tidy m') := by
  unfold Mio.wait at hw
  split at hw
  · cases hw
  · obtain ⟨-, rfl⟩ := Prod.mk.inj (Option.some.inj hw)
    exact ⟨rfl, rfl, fun h => h.of_slots rfl fun _ _ h => h⟩
  · obtain ⟨-, rfl⟩ := Prod.mk.inj (Option.some.inj hw)
    exact ⟨rfl, rfl, fun h => h.of_slots rfl fun _ _ h => h⟩

theorem booted_tidy {calls : List Call} {turns : List Turn} (hb : booted calls turns = some m) :
    Tidy m ∧ m.ready = [] := by
  obtain ⟨u, hu, hd⟩ := Option.bind_eq_some_iff.mp hb
  obtain ⟨es, hdr⟩ := drain_drained hd
  have hnew : Tidy Mio.new := by
    constructor
    · intro s t p q hp
      cases hp
    · intro s p hp
      cases hp
  exact ⟨hdr.tidy ((callAll_follows hu).2 hnew), hdr.ready⟩

/-- Between rounds nothing is decided, and no operation is in two slots. -/
theorem rounds_tidy {ok : Mio → Round → Prop} (h : Tidy m ∧ m.ready = [])
    (hr : Reaches round ok m m') : Tidy m' ∧ m'.ready = [] := by
  refine Reaches.invariant (P := fun n => Tidy n ∧ n.ready = []) h (fun s r t hs _ hst => ?_) hr
  unfold round at hst
  split at hst
  · rename_i u hw
    obtain ⟨es, hdr⟩ := drain_drained hst
    exact ⟨hdr.tidy ((wait_tidy hw).2.2 hs.1), hdr.ready⟩
  · cases hst

/-- In every round of the drive loop, each operation whose event is in the batch is performed or
cancelled before the drain ends, exactly when those behind the first event are all cancelled. -/
theorem drain_examines_iff {calls : List Call} {turns₀ turns : List Turn} {m₀ m m₁ m₂ : Mio}
    {polls : List (Except Errno (List ℕ))} {es : List Entry} (hb : booted calls turns₀ = some m₀)
    (hr : Reaches round (fun _ _ => True) m₀ m) (hw : m.wait polls = some (.ok (), m₁))
    (hd : drain m₁ turns = some m₂) (hes : m₂.log = m₁.log ++ es) :
    (∀ token ∈ m₁.events, ∀ p, m₁.at? token = some p →
      p.reg.op ∈ performedOps es ∨ p.reg.op ∈ cancelledOps es) ↔
    ∀ token ∈ m₁.events, m₁.events.head? ≠ some token → ∀ p, m₁.at? token = some p →
      p.reg.op ∈ cancelledOps es := by
  obtain ⟨htidy, hready⟩ := rounds_tidy (booted_tidy hb) hr
  obtain ⟨hready₁, -, htidy₁⟩ := wait_tidy hw
  have ht := htidy₁ htidy
  obtain ⟨es', hdr⟩ := drain_drained hd
  obtain rfl : es' = es := List.append_cancel_left (hdr.follows.log.symm.trans hes)
  constructor
  · intro hall token hmem hne p hat
    have halone : Alone m₁ p token :=
      ⟨fun s q hq hop => ht.unique s token q p hq hat hop, ht.bound token p hat⟩
    exact (hall token hmem p hat).resolve_left (hdr.skips token p halone hne)
  · intro hall token hmem p hat
    by_cases hhead : m₁.events.head? = some token
    · exact .inl (hdr.first (hready₁.trans hready) token p hhead hat)
    · exact .inr (hall token hmem hhead p hat)

def plainTurn : Turn := ⟨fun _ => .ok 8, []⟩

def oneRead : Mio :=
  { Mio.new with
    registry := (∅ : Table RawFd Registration).insert 5 ⟨5, 0, .readable, 0⟩
    pending := [some ⟨⟨5, 0, .readable, 0⟩, .read 5 0 8⟩]
    nextOp := 1
    log := [.armed 0] }

theorem drain_examines_iff_oneRead :
    (∀ token ∈ [0], ∀ p, oneRead.at? token = some p →
      p.reg.op ∈ performedOps [.performed 0, .returned 0] ∨
        p.reg.op ∈ cancelledOps [.performed 0, .returned 0]) ↔
    ∀ token ∈ [0], [0].head? ≠ some token → ∀ p, oneRead.at? token = some p →
      p.reg.op ∈ cancelledOps [.performed 0, .returned 0] := by
  have hb : booted [.arm 0 (.read 5 0 8) none] [plainTurn] = some oneRead := rfl
  have hw : oneRead.wait [.ok [0]] = some (.ok (), { oneRead with events := [0] }) := rfl
  have hd : drain { oneRead with events := [0] } [plainTurn, plainTurn] = some _ := rfl
  exact drain_examines_iff hb .start hw hd rfl

/-- Two descriptors become ready at once: only the first operation is performed before the drain
ends and the loop waits again. -/
theorem second_event_lost :
    ∃ m₀ m₁ m₂ es, booted [.arm 0 (.read 5 0 8) none, .arm 1 (.read 6 8 8) none] [plainTurn] =
        some m₀ ∧
      m₀.wait [.ok [0, 1]] = some (.ok (), m₁) ∧ drain m₁ [plainTurn, plainTurn] = some m₂ ∧
      m₂.log = m₁.log ++ es ∧ 1 ∈ m₁.events ∧
      m₁.at? 1 = some ⟨⟨6, 1, .readable, 1⟩, .read 6 8 8⟩ ∧
      1 ∉ performedOps es ∧ 1 ∉ cancelledOps es := by
  refine ⟨_, _, _, [.performed 0, .returned 0], rfl, rfl, rfl, rfl, ?_⟩
  decide

end Conrt.Poll
