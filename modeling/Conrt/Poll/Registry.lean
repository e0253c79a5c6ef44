import Conrt.Base.Run
import Conrt.Poll.Backend
import Mathlib.Data.List.Perm.Basic

/-! Where an armed operation waits: in its slot, registered, or among the decided completions. -/
namespace Conrt.Poll

open Conrt.Base

def armedOps (log : List Entry) : List ℕ :=
  log.filterMap fun
    | .armed op => some op
    | _ => none

def returnedOps (log : List Entry) : List ℕ :=
  log.filterMap fun
    | .returned op => some op
    | _ => none

namespace Mio

def waiting (m : Mio) : List ℕ := m.pending.filterMap fun p => p.map (·.reg.op)

def decided (m : Mio) : List ℕ := m.ready.filterMap (·.op)

/-- The operation is in a slot, and its descriptor is registered under that slot. -/
def Waits (m : Mio) (op : ℕ) : Prop :=
  ∃ slot p, m.at? slot = some p ∧ p.reg.op = op ∧ p.reg.token = slot ∧
    m.registry.lookup p.req.fd = some p.reg

/-- An outstanding operation waits registered or is decided once, not both; a registration is for
an operation that has neither completed nor been cancelled. -/
structure Reachable (m : Mio) : Prop where
  placed : ∀ op ∈ armedOps m.log, op ∉ returnedOps m.log →
    (m.Waits op ∧ m.decided.count op = 0) ∨ (op ∉ m.waiting ∧ m.decided.count op = 1)
  clean : ∀ fd reg, m.registry.lookup fd = some reg →
    reg.op ∉ returnedOps m.log ∧ reg.op ∉ m.decided

/-- Slots and registry agree, and every operation armed is returned, in a slot, decided, or in the
hands of the running call. -/
structure Consistent (m : Mio) (hand : List ℕ) : Prop where
  slots : ∀ slot p, m.at? slot = some p →
    p.reg.token = slot ∧ p.reg.fd = p.req.fd ∧ m.registry.lookup p.reg.fd = some p.reg
  owned : ∀ fd reg, m.registry.lookup fd = some reg →
    reg.fd = fd ∧ ∃ p, m.at? reg.token = some p ∧ p.reg = reg
  books : (armedOps m.log).Perm (returnedOps m.log ++ (m.waiting ++ (m.decided ++ hand)))
  nodup : (armedOps m.log).Nodup
  fresh : ∀ op ∈ armedOps m.log, op < m.nextOp

end Mio

inductive Event
  | call (c : Call)
  | wait (polls : List (Except Errno (List ℕ)))
  | next (perform : Req → Except Errno ℕ)

def step (m : Mio) : Event → Option Mio
  | .call c => c.exec m
  | .wait polls => (m.wait polls).map Prod.snd
  | .next perform => some (m.nextCompletion perform).2

def Stalls (m : Mio) : Event → Prop
  | .next perform => m.ready = [] ∧ ∃ token p, m.events.head? = some token ∧
      m.at? token = some p ∧ perform p.req = .error eagain
  | _ => False

namespace Mio

variable {m m' : Mio} {slot : ℕ} {p : PendingOp}

theorem at?_eq (m : Mio) (slot : ℕ) : m.at? slot = some p ↔ m.pending[slot]? = some (some p) := by
  unfold at?
  rw [Option.join_eq_some_iff]

/-- What one entry of a table contributes, traded for another. -/
theorem filterMap_set_perm {α β : Type} {l : List α} {f : α → Option β} {i : ℕ}
    (hi : i < l.length) (b : α) :
    ((f l[i]).toList ++ (l.set i b).filterMap f).Perm ((f b).toList ++ l.filterMap f) := by
  have hset := (List.set_perm_cons_eraseIdx hi b).filterMap f
  have hself := (List.set_perm_cons_eraseIdx hi l[i]).filterMap f
  rw [List.set_getElem_self] at hself
  have hcons : ∀ a (r : List α), (a :: r).filterMap f = (f a).toList ++ r.filterMap f := by
    intro a r
    cases hf : f a <;> simp [hf]
  rw [hcons] at hset hself
  have h₁ := hset.append_left (f l[i]).toList
  have h₂ := hself.append_left (f b).toList
  refine h₁.trans (List.Perm.trans ?_ h₂.symm)
  rw [← List.append_assoc, ← List.append_assoc]
  exact List.perm_append_comm.append_right _

/-- Emptying a slot. -/
theorem waiting_take (h : m.at? slot = some p) :
    m.waiting.Perm (p.reg.op :: (m.pending.set slot none).filterMap fun p => p.map (·.reg.op)) := by
  obtain ⟨hlt, hget⟩ := List.getElem?_eq_some_iff.mp ((at?_eq m slot).mp h)
  have hperm := filterMap_set_perm (f := fun p : Option PendingOp => p.map (·.reg.op)) hlt none
  rw [hget] at hperm
  exact hperm.symm

theorem at?_set {pending : List (Option PendingOp)} {q : Option PendingOp} {s : ℕ}
    (hlt : slot < pending.length) :
    ((pending.set slot q)[s]?).join = if s = slot then q else (pending[s]?).join := by
  by_cases hs : s = slot
  · rw [hs, if_pos rfl, List.getElem?_set_self hlt, Option.join_some]
  · rw [if_neg hs, List.getElem?_set_ne (Ne.symm hs)]

theorem grown_getElem? (m : Mio) (slot s : ℕ) : ((m.grown slot)[s]?).join = m.at? s := by
  unfold grown at?
  by_cases hs : s < m.pending.length
  · rw [List.getElem?_append_left hs]
  · have hle : m.pending.length ≤ s := by omega
    rw [List.getElem?_append_right hle, List.getElem?_eq_none hle, List.getElem?_replicate]
    split_ifs <;> rfl

theorem grown_length (m : Mio) (slot : ℕ) : slot < (m.grown slot).length := by
  unfold grown
  rw [List.length_append, List.length_replicate]
  omega

private theorem grown_waiting (m : Mio) (slot : ℕ) :
    (m.grown slot).filterMap (fun p => p.map (·.reg.op)) = m.waiting := by
  unfold grown waiting
  rw [List.filterMap_append, List.filterMap_replicate_of_none rfl, List.append_nil]

/-- Filling a slot that was empty. -/
theorem waiting_put (h : m.at? slot = none) :
    (((m.grown slot).set slot (some p)).filterMap fun p => p.map (·.reg.op)).Perm
      (p.reg.op :: m.waiting) := by
  have hlt := grown_length m slot
  have hget : ((m.grown slot)[slot].map (·.reg.op)) = none := by
    have hjoin := grown_getElem? m slot slot
    rw [h, List.getElem?_eq_getElem hlt, Option.join_some] at hjoin
    rw [hjoin, Option.map_none]
  have hperm := filterMap_set_perm (f := fun p : Option PendingOp => p.map (·.reg.op)) hlt (some p)
  rw [hget, grown_waiting] at hperm
  exact hperm

section

variable {hand : List ℕ} {op : ℕ} {c : Completion} {rest : List Completion}

theorem Consistent.new : Consistent Mio.new [] := by
  constructor
  · intro slot p h
    cases h
  · intro fd reg h
    cases h
  · exact .refl _
  · exact .nil
  · intro op h
    cases h

theorem Consistent.take (h : m.Consistent hand) (ht : m.takePending slot = some (p, m')) :
    m'.Consistent (p.reg.op :: hand) ∧ m.at? slot = some p ∧ m'.at? slot = none := by
  unfold takePending at ht
  cases hat : m.at? slot with
  | none =>
    rw [hat] at ht
    cases ht
  | some q =>
    rw [hat] at ht
    obtain ⟨rfl, rfl⟩ := Prod.mk.inj (Option.some.inj ht)
    have hlt := (List.getElem?_eq_some_iff.mp ((at?_eq m slot).mp hat)).1
    obtain ⟨htok, -, hreg⟩ := h.slots slot q hat
    have hat' : ∀ s, at? { m with pending := m.pending.set slot none } s =
        if s = slot then none else m.at? s := fun s => at?_set hlt
    refine ⟨⟨?_, ?_, ?_, h.nodup, h.fresh⟩, rfl, ?_⟩
    · intro s r hr
      have hs : (if s = slot then none else m.at? s) = some r := (hat' s).symm.trans hr
      split_ifs at hs with hne
      obtain ⟨h₁, h₂, h₃⟩ := h.slots s r hs
      have hfd : r.reg.fd ≠ q.reg.fd := by
        intro heq
        rw [heq, hreg] at h₃
        have htok' := congrArg Registration.token (Option.some.inj h₃)
        exact hne (by rw [← h₁, ← htok', htok])
      refine ⟨h₁, h₂, ?_⟩
      exact (AList.lookup_erase_ne hfd).trans h₃
    · intro fd reg hl
      have hl' : (m.registry.erase q.reg.fd).lookup fd = some reg := hl
      rw [Table.lookup_erase_ite] at hl'
      split_ifs at hl' with hne
      obtain ⟨hfd, r, hr, hrr⟩ := h.owned fd reg hl'
      refine ⟨hfd, r, ?_, hrr⟩
      have hs : reg.token ≠ slot := by
        intro heq
        rw [heq, hat] at hr
        obtain rfl := Option.some.inj hr
        exact hne (by rw [← hfd, hrr])
      exact (hat' reg.token).trans ((if_neg hs).trans hr)
    · refine h.books.trans (List.Perm.append_left _ ?_)
      refine ((waiting_take hat).append_right _).trans ?_
      refine List.perm_middle.symm.trans (List.Perm.append_left _ ?_)
      exact List.perm_middle.symm
    · exact (hat' slot).trans (if_pos rfl)

theorem Consistent.giveBack (h : m.Consistent (op :: hand)) :
    (m.record (.returned op)).Consistent hand := by
  refine ⟨h.slots, h.owned, ?_, ?_, ?_⟩
  · have hlog : armedOps (m.log ++ [.returned op]) = armedOps m.log := by simp [armedOps]
    have hret : returnedOps (m.log ++ [.returned op]) = returnedOps m.log ++ [op] := by
      simp [returnedOps]
    change (armedOps (m.log ++ [.returned op])).Perm (returnedOps (m.log ++ [.returned op]) ++ _)
    rw [hlog, hret, List.append_assoc]
    refine h.books.trans (List.Perm.append_left _ ?_)
    have hmid : (m.waiting ++ m.decided ++ op :: hand).Perm
        (op :: (m.waiting ++ m.decided ++ hand)) := List.perm_middle
    rw [List.append_assoc, List.append_assoc] at hmid
    exact hmid
  · simpa [armedOps, record] using h.nodup
  · simpa [armedOps, record] using h.fresh

theorem Consistent.push (h : m.Consistent (c.op.toList ++ hand)) :
    (m.push c).Consistent hand := by
  refine ⟨h.slots, h.owned, ?_, h.nodup, h.fresh⟩
  have hdec : (m.push c).decided = m.decided ++ c.op.toList := by
    unfold decided Mio.push
    rw [List.filterMap_append]
    cases hc : c.op <;> simp [hc]
  rw [hdec, List.append_assoc]
  exact h.books

theorem Consistent.pop (h : m.Consistent hand) (hr : m.ready = c :: rest) :
    Consistent { m with ready := rest } (c.op.toList ++ hand) := by
  refine ⟨h.slots, h.owned, ?_, h.nodup, h.fresh⟩
  have hdec : m.decided = c.op.toList ++ rest.filterMap (·.op) := by
    unfold decided
    rw [hr]
    cases hc : c.op <;> simp [hc]
  refine h.books.trans (List.Perm.append_left _ (List.Perm.append_left _ ?_))
  rw [hdec]
  exact (List.perm_append_comm.append_right _).trans (by rw [List.append_assoc]; exact .refl _)

/-- Entries that change neither what is armed nor what is returned. -/
theorem Consistent.note (h : m.Consistent hand) {e : Entry}
    (ha : ∀ i, e ≠ .armed i) (hr : ∀ i, e ≠ .returned i) : (m.record e).Consistent hand := by
  have harm : armedOps (m.log ++ [e]) = armedOps m.log := by
    cases e <;> simp_all [armedOps]
  have hret : returnedOps (m.log ++ [e]) = returnedOps m.log := by
    cases e <;> simp_all [returnedOps]
  refine ⟨h.slots, h.owned, ?_, ?_, ?_⟩
  · change (armedOps (m.log ++ [e])).Perm (returnedOps (m.log ++ [e]) ++ _)
    rw [harm, hret]
    exact h.books
  · change (armedOps (m.log ++ [e])).Nodup
    rw [harm]
    exact h.nodup
  · change ∀ op ∈ armedOps (m.log ++ [e]), op < m.nextOp
    rw [harm]
    exact h.fresh

/-- What an accepted `arm` leaves. -/
theorem arm_ok {req : Req} {refused : Option Errno} (ha : m.arm slot req refused = .ok m') :
    m.registry.lookup req.fd = none ∧ ∃ reg : Registration,
      reg = ⟨req.fd, slot, req.interest, m.nextOp⟩ ∧
      m' = { m with
        registry := m.registry.insert req.fd reg
        pending := (m.grown slot).set slot (some ⟨reg, req⟩)
        nextOp := m.nextOp + 1
        log := m.log ++ [.armed m.nextOp] } := by
  unfold Mio.arm attach at ha
  cases refused with
  | some e => cases ha
  | none =>
    cases hl : m.registry.lookup req.fd with
    | some r =>
      simp only [hl] at ha
      cases ha
    | none =>
      simp only [hl] at ha
      obtain rfl := Except.ok.inj ha
      exact ⟨rfl, _, rfl, rfl⟩

theorem Consistent.arm (h : m.Consistent []) {req : Req} {refused : Option Errno}
    (hv : m.at? slot = none) (ha : m.arm slot req refused = .ok m') : m'.Consistent [] := by
  obtain ⟨hl, reg, hreg, rfl⟩ := arm_ok ha
  have hlt := grown_length m slot
  have hput : ∀ q s, ((((m.grown slot).set slot (some q))[s]?).join) =
      if s = slot then some q else m.at? s := by
    intro q s
    rw [at?_set hlt, grown_getElem?]
  have hlog : armedOps (m.log ++ [.armed m.nextOp]) = armedOps m.log ++ [m.nextOp] := by
    simp [armedOps]
  constructor
  · intro s r hr
    have hs := (hput _ s).symm.trans hr
    split_ifs at hs with heq
    · obtain rfl := Option.some.inj hs
      rw [hreg]
      exact ⟨heq.symm, rfl, AList.lookup_insert _⟩
    · obtain ⟨h₁, h₂, h₃⟩ := h.slots s r hs
      have hfd : r.reg.fd ≠ req.fd := by
        intro hfd
        rw [hfd, hl] at h₃
        cases h₃
      exact ⟨h₁, h₂, (AList.lookup_insert_ne hfd).trans h₃⟩
  · intro fd reg hr
    have hr' := Table.lookup_insert_ite.symm.trans hr
    split_ifs at hr' with heq
    · obtain rfl := Option.some.inj hr'
      rw [hreg]
      exact ⟨heq.symm, _, (hput _ slot).trans (if_pos rfl), rfl⟩
    · obtain ⟨hfd, r, hat, hrr⟩ := h.owned fd reg hr'
      refine ⟨hfd, r, (hput _ reg.token).trans ((if_neg ?_).trans hat), hrr⟩
      intro hs
      rw [hs, hv] at hat
      cases hat
  · have hret : returnedOps (m.log ++ [.armed m.nextOp]) = returnedOps m.log := by
      simp [returnedOps]
    change (armedOps (m.log ++ [.armed m.nextOp])).Perm
      (returnedOps (m.log ++ [.armed m.nextOp]) ++ _)
    rw [hlog, hret]
    refine (h.books.append_right _).trans ?_
    rw [List.append_assoc]
    refine List.Perm.append_left _ (List.perm_append_comm.trans ?_)
    have hput' := waiting_put (p := ⟨reg, req⟩) hv
    rw [hreg] at hput' ⊢
    exact (hput'.append_right _).symm
  · change (armedOps (m.log ++ [.armed m.nextOp])).Nodup
    rw [hlog, List.nodup_append]
    refine ⟨h.nodup, List.nodup_singleton _, fun a ha b hb => ?_⟩
    obtain rfl := List.mem_singleton.mp hb
    exact Nat.ne_of_lt (h.fresh a ha)
  · change ∀ op ∈ armedOps (m.log ++ [.armed m.nextOp]), op < m.nextOp + 1
    rw [hlog]
    intro op hop
    rcases List.mem_append.mp hop with hop | hop
    · exact Nat.lt_succ_of_lt (h.fresh op hop)
    · obtain rfl := List.mem_singleton.mp hop
      exact Nat.lt_succ_self _

end

end Mio

variable {m m' : Mio}

theorem exec_consistent {c : Call} (h : m.Consistent []) (hc : c.exec m = some m') :
    m'.Consistent [] := by
  cases c with
  | arm slot req refused =>
    simp only [Call.exec] at hc
    split_ifs at hc with hv
    have hat : m.at? slot = none := by
      unfold Mio.vacant at hv
      rw [Bool.and_eq_true] at hv
      exact Option.isNone_iff_eq_none.mp hv.1
    cases ha : m.arm slot req refused with
    | ok n =>
      rw [ha] at hc
      obtain rfl := Option.some.inj hc
      exact h.arm hat ha
    | error e =>
      rw [ha] at hc
      exact Option.some.inj hc ▸ h
  | cancel cancelSlot targetSlot cls =>
    obtain rfl := Option.some.inj hc
    unfold Mio.cancel
    cases ht : m.takePending targetSlot with
    | none => exact h
    | some r =>
      obtain ⟨p, n⟩ := r
      have htake := (h.take ht).1
      exact (Mio.Consistent.push (Mio.Consistent.push htake)).note (fun _ => by simp) fun _ => by simp

theorem next_consistent {perform : Req → Except Errno ℕ} (h : m.Consistent [])
    (hs : ¬ Stalls m (.next perform)) : (m.nextCompletion perform).2.Consistent [] := by
  unfold Mio.nextCompletion
  split
  · rename_i c ready hr
    have hpop := h.pop hr
    cases hc : c.op with
    | none =>
      rw [hc] at hpop
      exact hpop
    | some op =>
      rw [hc] at hpop
      exact hpop.giveBack
  · rename_i hr
    split
    · exact h
    · rename_i token events hev
      split
      · exact h
      · rename_i p n ht
        obtain ⟨htake, hat, -⟩ := h.take ht
        have hnote := htake.note (e := .performed p.reg.op) (fun _ => by simp) fun _ => by simp
        split
        · exact hnote.giveBack
        · rename_i e he
          split_ifs with hag
          · refine (hs ⟨hr, token, p, by rw [hev]; rfl, hat, ?_⟩).elim
            rw [he, hag]
          · exact hnote.giveBack

theorem step_consistent {e : Event} (h : m.Consistent []) (hs : ¬ Stalls m e)
    (hst : step m e = some m') : m'.Consistent [] := by
  cases e with
  | call c => exact exec_consistent h hst
  | wait polls =>
    obtain ⟨r, hr, rfl⟩ := Option.map_eq_some_iff.mp hst
    unfold Mio.wait at hr
    split at hr
    · cases hr
    · obtain rfl := Option.some.inj hr
      exact ⟨h.slots, h.owned, h.books, h.nodup, h.fresh⟩
    · obtain rfl := Option.some.inj hr
      exact ⟨h.slots, h.owned, h.books, h.nodup, h.fresh⟩
  | next perform =>
    obtain rfl := Option.some.inj hst
    exact next_consistent h hs

theorem mem_waiting {op : ℕ} : op ∈ m.waiting ↔ ∃ slot p, m.at? slot = some p ∧ p.reg.op = op := by
  unfold Mio.waiting
  rw [List.mem_filterMap]
  constructor
  · intro h
    obtain ⟨q, hq, hop⟩ := h
    obtain ⟨p, rfl, rfl⟩ := Option.map_eq_some_iff.mp hop
    obtain ⟨slot, hslot⟩ := List.mem_iff_getElem?.mp hq
    exact ⟨slot, p, (Mio.at?_eq m slot).mpr hslot, rfl⟩
  · intro h
    obtain ⟨slot, p, hat, rfl⟩ := h
    exact ⟨some p, List.mem_iff_getElem?.mpr ⟨slot, (Mio.at?_eq m slot).mp hat⟩, rfl⟩

/-- No operation is in two slots. -/
theorem slot_unique {s t : ℕ} {p q : PendingOp} (hn : m.waiting.Nodup) (hp : m.at? s = some p)
    (hq : m.at? t = some q) (hop : q.reg.op = p.reg.op) : t = s := by
  by_contra hne
  have hlt := (List.getElem?_eq_some_iff.mp ((Mio.at?_eq m s).mp hp)).1
  have hcons := List.nodup_cons.mp ((Mio.waiting_take hp).nodup_iff.mp hn)
  apply hcons.1
  have hq' : (m.pending.set s none)[t]? = some (some q) := by
    rw [List.getElem?_set_ne (Ne.symm hne)]
    exact (Mio.at?_eq m t).mp hq
  refine List.mem_filterMap.mpr ⟨some q, List.mem_iff_getElem?.mpr ⟨t, hq'⟩, ?_⟩
  rw [Option.map_some, hop]

private theorem Mio.Consistent.waiting_nodup (h : m.Consistent []) : m.waiting.Nodup := by
  have hnodup := h.books.nodup_iff.mp h.nodup
  exact (List.nodup_append.mp (List.nodup_append.mp hnodup).2.1).1

theorem Mio.Consistent.reachable (h : m.Consistent []) : m.Reachable := by
  have hbooks := h.books
  rw [List.append_nil] at hbooks
  have hnodup := hbooks.nodup_iff.mp h.nodup
  have hdisj := (List.nodup_append.mp hnodup).2.2
  have hrest := (List.nodup_append.mp hnodup).2.1
  have hapart := (List.nodup_append.mp hrest).2.2
  constructor
  · intro op harmed hret
    have hmem := (hbooks.mem_iff.mp harmed)
    rcases List.mem_append.mp hmem with hr | hmem
    · exact (hret hr).elim
    · rcases List.mem_append.mp hmem with hw | hd
      · obtain ⟨slot, p, hat, hop⟩ := mem_waiting.mp hw
        obtain ⟨htok, hfd, hreg⟩ := h.slots slot p hat
        refine .inl ⟨⟨slot, p, hat, hop, htok, hfd ▸ hreg⟩, ?_⟩
        exact List.count_eq_zero.mpr fun hd => hapart op hw op hd rfl
      · refine .inr ⟨fun hw => hapart op hw op hd rfl, ?_⟩
        exact List.count_eq_one_of_mem (List.nodup_append.mp hrest).2.1 hd
  · intro fd reg hl
    obtain ⟨-, p, hat, hp⟩ := h.owned fd reg hl
    have hw : reg.op ∈ m.waiting := mem_waiting.mpr ⟨_, p, hat, hp ▸ rfl⟩
    constructor
    · intro hr
      exact hdisj _ hr _ (List.mem_append_left _ hw) rfl
    · intro hd
      exact hapart _ hw _ hd rfl

/-- An operation whose syscall would block goes back to its slot without its registration. -/
theorem stalls_unreachable {e : Event} (h : m.Consistent []) (hs : Stalls m e)
    (hst : step m e = some m') : ¬ m'.Reachable := by
  cases e with
  | call c => exact hs.elim
  | wait polls => exact hs.elim
  | next perform =>
    obtain ⟨hr, token, p, hhead, hat, hblock⟩ := hs
    obtain rfl := Option.some.inj hst
    obtain ⟨events, hev⟩ : ∃ events, m.events = token :: events := by
      cases hev : m.events with
      | nil => simp [hev] at hhead
      | cons t events =>
        rw [hev] at hhead
        exact ⟨events, by rw [Option.some.inj hhead]⟩
    obtain ⟨-, hfd, hreg⟩ := h.slots token p hat
    have hlt := (List.getElem?_eq_some_iff.mp ((Mio.at?_eq m token).mp hat)).1
    have hnext : (m.nextCompletion perform).2 = { m with
        registry := m.registry.erase p.reg.fd
        pending := (m.pending.set token none).set token (some p)
        log := m.log ++ [.performed p.reg.op] } := by
      unfold Mio.nextCompletion Mio.takePending
      simp only [hr, hev, hat, hblock, if_true]
      rfl
    have hin : p.reg.op ∈ m.waiting := mem_waiting.mpr ⟨token, p, hat, rfl⟩
    have hbooks := h.books
    rw [List.append_nil] at hbooks
    have hnodup := hbooks.nodup_iff.mp h.nodup
    rw [hnext]
    intro hreach
    have harm : p.reg.op ∈ armedOps (m.log ++ [.performed p.reg.op]) := by
      have hmem : p.reg.op ∈ armedOps m.log :=
        hbooks.mem_iff.mpr (List.mem_append_right _ (List.mem_append_left _ hin))
      simpa [armedOps] using hmem
    have hret : p.reg.op ∉ returnedOps (m.log ++ [.performed p.reg.op]) := by
      have hno : p.reg.op ∉ returnedOps m.log := fun hr' =>
        (List.nodup_append.mp hnodup).2.2 _ hr' _ (List.mem_append_left _ hin) rfl
      simpa [returnedOps] using hno
    have hslot : (((m.pending.set token none).set token (some p))[token]?).join = some p := by
      rw [Mio.at?_set (by rw [List.length_set]; exact hlt), if_pos rfl]
    rcases hreach.placed _ harm hret with ⟨⟨slot, q, hq, hop, -, hlook⟩, -⟩ | ⟨hout, -⟩
    · -- the only entry of the operation is its own, and its descriptor is not registered
      have hq' : m.at? slot = some q := by
        by_cases hs : slot = token
        · rw [hs] at hq ⊢
          rw [hat]
          exact hslot.symm.trans hq
        · have hset := hq
          unfold Mio.at? at hset ⊢
          rw [Mio.at?_set (by rw [List.length_set]; exact hlt), if_neg hs,
            Mio.at?_set hlt, if_neg hs] at hset
          exact hset
      obtain rfl := slot_unique h.waiting_nodup hat hq' hop
      rw [hat] at hq'
      obtain rfl := Option.some.inj hq'
      have hgone : (m.registry.erase p.reg.fd).lookup p.req.fd = some p.reg := hlook
      rw [← hfd, AList.lookup_erase] at hgone
      cases hgone
    · refine hout (mem_waiting.mpr ⟨token, p, ?_, rfl⟩)
      exact hslot

theorem run_consistent {es : List Event} (h : m.Consistent [])
    (hs : ∀ done e u, done ++ [e] <+: es → run step m done = some u → ¬ Stalls u e)
    (hr : run step m es = some m') : m'.Consistent [] := by
  induction es generalizing m with
  | nil => exact Option.some.inj hr ▸ h
  | cons e es ih =>
    obtain ⟨u, hu, hr⟩ := Option.bind_eq_some_iff.mp hr
    have he : ¬ Stalls m e := hs [] e m (List.prefix_append [e] es) rfl
    refine ih (step_consistent h he hu) (fun done f x hd hx => ?_) hr
    refine hs (e :: done) f x (List.cons_prefix_cons.mpr ⟨rfl, hd⟩) ?_
    rw [run_cons, hu]
    exact hx

theorem step_isSome_of_stalls {e : Event} (hs : Stalls m e) : ∃ m', step m e = some m' := by
  cases e with
  | call c => exact hs.elim
  | wait polls => exact hs.elim
  | next perform => exact ⟨_, rfl⟩

/-- In every state of a run each outstanding operation waits registered or is decided once, and no
registration outlives its operation, exactly when no syscall of the run would block. -/
theorem run_reachable_iff (es : List Event) :
    (∀ done u, done <+: es → run step Mio.new done = some u → u.Reachable) ↔
      ∀ done e u, done ++ [e] <+: es → run step Mio.new done = some u → ¬ Stalls u e := by
  constructor
  · intro hall
    -- the first stall is reached in a consistent state
    suffices hlen : ∀ n done e u, done.length = n → done ++ [e] <+: es →
        run step Mio.new done = some u → ¬ Stalls u e from
      fun done e u => hlen done.length done e u rfl
    intro n
    induction n using Nat.strong_induction_on with
    | h n ih =>
      intro done e u hn hd hu hs
      have hcons : u.Consistent [] := by
        refine run_consistent .new (fun done' f x hd' hx => ?_) hu
        have hlt : done'.length < n := by
          have hle := hd'.length_le
          rw [List.length_append, List.length_singleton] at hle
          omega
        exact ih _ hlt done' f x rfl (hd'.trans ((List.prefix_append done [e]).trans hd)) hx
      obtain ⟨x, hx⟩ := step_isSome_of_stalls hs
      refine stalls_unreachable hcons hs hx (hall (done ++ [e]) x hd ?_)
      rw [run_append, hu]
      simp [hx]
  · intro hs done u hd hu
    refine (run_consistent .new (fun done' e x hd' => ?_) hu).reachable
    exact hs done' e x (hd'.trans hd)

/-- A read finds its descriptor drained by another consumer: it stays in its slot, and the poller no
longer watches the descriptor. -/
theorem wouldBlock_unregisters :
    ∃ m, run step Mio.new [.call (.arm 0 (.read 5 0 8) none), .wait [.ok [0]],
        .next fun _ => .error eagain] = some m ∧
      m.at? 0 = some ⟨⟨5, 0, .readable, 0⟩, .read 5 0 8⟩ ∧ m.registry.lookup 5 = none ∧
      ¬ m.Reachable := by
  refine ⟨_, rfl, rfl, rfl, ?_⟩
  intro h
  rcases h.placed 0 (by decide) (by decide) with ⟨⟨slot, p, hat, -, -, hreg⟩, -⟩ | ⟨hout, -⟩
  · have hgone : (∅ : Table RawFd Registration).lookup p.req.fd = some p.reg := hreg
    cases hgone
  · exact hout (by decide)

end Conrt.Poll
