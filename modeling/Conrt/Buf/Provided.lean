import Conrt.Base.Ring
import Conrt.Base.Run
import Conrt.Buf.Layout

/-! A provided-buffer ring in memory shared with the kernel: no buffer is lost or handed out twice. -/
namespace Conrt.Buf

open Conrt.Base

structure Descriptor where
  addr : ℕ
  len : ℕ
  bid : ℕ
deriving DecidableEq

/-- `io_uring_buf`. The `resv` of the first one is the ring's tail. -/
structure IoUringBuf extends Descriptor where
  resv : ℕ
deriving DecidableEq

structure ProvidedRing where
  bufCount : ℕ
  size : ℕ
  slabBase : ℕ
  cls : ℕ
  bufs : List IoUringBuf
  tail : ℕ
  tracker : BorrowTracker
deriving DecidableEq

namespace ProvidedRing

def published (r : ProvidedRing) : ℕ := (r.bufs[0]?.map (·.resv)).getD 0

def publish (r : ProvidedRing) (tail : ℕ) : ProvidedRing :=
  { r with bufs := r.bufs.modify 0 fun b => { b with resv := tail } }

/-- `none` when an assertion fails. -/
def new (slabBase count size cls : ℕ) : Option ProvidedRing := do
  guard (isPowerOfTwo count)
  guard (0 < count ∧ count ≤ 32768)
  guard (0 < size)
  guard (cls < 128)
  let bufs := (List.range count).map fun loc => ⟨⟨slabBase + loc * size, size, loc⟩, 0⟩
  let ring := ⟨count, size, slabBase, cls, bufs, count, .new count⟩
  some (publish ring count)

def slotPtr (r : ProvidedRing) (loc : ℕ) : ℕ := r.slabBase + loc * r.size

/-- Writes the descriptor behind the tail, all of it but `resv`, and advances the tail. -/
def recycleBuffer (r : ProvidedRing) (loc : ℕ) : ProvidedRing :=
  let mask := r.bufCount - 1
  let ringIdx := r.tail &&& mask
  let bufs := r.bufs.modify ringIdx fun b => { b with toDescriptor := ⟨r.slotPtr loc, r.size, loc⟩ }
  let tail := (r.tail + 1) % 2 ^ 16
  publish { r with bufs := bufs, tail := tail } tail

/-- Hands the buffer out to one shared view, which `select_mut` upgrades at once. -/
def select (r : ProvidedRing) (loc len : ℕ) (exclusive : Bool) : Option ProvidedRing := do
  guard (len ≤ r.size)
  let t ← r.tracker.takeShared loc
  (if exclusive then t.upgrade loc else some t).map fun t => { r with tracker := t }

def track (r : ProvidedRing) (f : BorrowTracker → Option BorrowTracker) : Option ProvidedRing :=
  (f r.tracker).map fun t => { r with tracker := t }

/-- Releases one borrower of `loc`, whose buffer goes back to the kernel with the last one. -/
def dropView (r : ProvidedRing) (exclusive : Bool) (loc : ℕ) : Option ProvidedRing := do
  let (t, free) ← r.tracker.dropView exclusive loc
  let r := { r with tracker := t }
  some (if free then r.recycleBuffer (loc % 2 ^ 16) else r)

end ProvidedRing

/-- The kernel's head, and the buffers of the completions not passed to `select` yet. -/
structure Shared where
  ring : ProvidedRing
  head : ℕ
  consumed : List ℕ
deriving DecidableEq

inductive RingMove
  | consume
  | select (i len : ℕ) (exclusive : Bool)
  | cloneShared (loc : ℕ)
  | splitExclusive (loc : ℕ)
  | upgrade (loc : ℕ)
  | downgrade (loc : ℕ)
  | dropView (exclusive : Bool) (loc : ℕ)
deriving DecidableEq

namespace Shared

/-- How many published descriptors the kernel has not consumed. -/
def pending (s : Shared) : ℕ := (s.ring.published + 2 ^ 16 - s.head) % 2 ^ 16

def unconsumed (s : Shared) : List Descriptor :=
  window (s.ring.bufs.map (·.toDescriptor)) s.head s.pending

/-- The kernel takes the descriptor at its head, unless that is the tail, and reports its buffer. -/
def consume (s : Shared) : Option Shared :=
  if s.head = s.ring.published then none
  else do
    let b ← s.ring.bufs[s.head &&& (s.ring.bufCount - 1)]?
    some { s with head := (s.head + 1) % 2 ^ 16, consumed := s.consumed ++ [b.bid] }

/-- `none` where an assertion fails. -/
def step (s : Shared) : RingMove → Option Shared
  | .consume => s.consume
  | .select i len exclusive => do
    let bid ← s.consumed[i]?
    let ring ← s.ring.select bid len exclusive
    some { s with ring := ring, consumed := s.consumed.eraseIdx i }
  | .cloneShared loc => (s.ring.track (·.cloneShared loc)).map ({ s with ring := · })
  | .splitExclusive loc => (s.ring.track (·.splitExclusive loc)).map ({ s with ring := · })
  | .upgrade loc => (s.ring.track (·.upgrade loc)).map ({ s with ring := · })
  | .downgrade loc => (s.ring.track (·.downgrade loc)).map ({ s with ring := · })
  | .dropView exclusive loc => (s.ring.dropView exclusive loc).map ({ s with ring := · })

def out (s : Shared) (bid : ℕ) : Bool := s.ring.tracker.borrows[bid]?.any (· ≠ 0)

def places (s : Shared) (bid : ℕ) : ℕ :=
  (s.unconsumed.map (·.bid)).count bid + s.consumed.count bid + if s.out bid then 1 else 0

/-- What a ring of `count` buffers of `size` bytes from `slabBase` on owes the kernel and its users. -/
structure Conserved (slabBase count size : ℕ) (s : Shared) : Prop where
  places : ∀ bid, s.places bid = if bid < count then 1 else 0
  recycles : ∀ exclusive loc t, s.ring.tracker.dropView exclusive loc = some (t, true) →
    ∀ i < s.pending, (s.head + i) % 2 ^ 16 &&& (count - 1) ≠ s.ring.tail &&& (count - 1)
  slots : ∀ d ∈ s.unconsumed, d.addr = slabBase + d.bid * size ∧ d.len = size
  selects : ∀ bid ∈ s.consumed, ∃ t, s.ring.tracker.takeShared bid = some t

structure Kept (slabBase count size : ℕ) (s : Shared) : Prop where
  pow : ∃ k ≤ 15, count = 2 ^ k
  count_eq : s.ring.bufCount = count
  size_eq : s.ring.size = size
  base_eq : s.ring.slabBase = slabBase
  bufs : s.ring.bufs.length = count
  borrows : s.ring.tracker.borrows.length = count
  published : s.ring.published = s.ring.tail
  tail : s.ring.tail < 2 ^ 16
  head : s.head < 2 ^ 16
  pending : s.pending ≤ count
  places : ∀ bid, s.places bid = if bid < count then 1 else 0
  slots : ∀ d ∈ s.unconsumed, d.addr = slabBase + d.bid * size ∧ d.len = size

end Shared

section masks

variable {count k : ℕ}

theorem and_mask (hk : count = 2 ^ k) (n : ℕ) : n &&& (count - 1) = n % count := by
  rw [hk, Nat.and_two_pow_sub_one_eq_mod]

/-- The 16-bit wrap is invisible through the mask. -/
theorem wrap_mod (hk : count = 2 ^ k) (hle : k ≤ 15) (n : ℕ) : n % 2 ^ 16 % count = n % count := by
  apply Nat.mod_mod_of_dvd
  rw [hk]
  exact Nat.pow_dvd_pow 2 (by omega)

end masks

theorem BorrowTracker.released_ne_zero {exclusive : Bool} {b b' : ℤ}
    (h : released exclusive b = some b') : b ≠ 0 := by
  cases exclusive with
  | true =>
    have hneg := (released_true h).1
    omega
  | false =>
    have hpos := (released_false h).1
    omega

namespace ProvidedRing

def descriptors (r : ProvidedRing) : List Descriptor := r.bufs.map (·.toDescriptor)

theorem descriptors_publish (r : ProvidedRing) (tail : ℕ) :
    (r.publish tail).descriptors = r.descriptors := by
  simp only [descriptors, publish]
  cases r.bufs <;> rfl

theorem published_publish {r : ProvidedRing} (hne : r.bufs ≠ []) (tail : ℕ) :
    (r.publish tail).published = tail := by
  obtain ⟨b, bs, hb⟩ := List.exists_cons_of_ne_nil hne
  simp [published, publish, hb]

private theorem descriptors_recycleBuffer {r : ProvidedRing} (loc : ℕ) :
    (r.recycleBuffer loc).descriptors =
      r.descriptors.set (r.tail &&& (r.bufCount - 1)) ⟨r.slotPtr loc, r.size, loc⟩ := by
  rw [recycleBuffer, descriptors_publish, descriptors, descriptors]
  apply List.ext_getElem?
  intro i
  simp only [List.getElem?_map, List.getElem?_modify, List.getElem?_set, List.length_map]
  by_cases hi : r.tail &&& (r.bufCount - 1) = i
  · subst hi
    cases hb : r.bufs[r.tail &&& (r.bufCount - 1)]? with
    | none => simpa using hb
    | some b =>
      have hlt := (List.getElem?_eq_some_iff.mp hb).1
      simp [hlt]
  · simp [hi]

private theorem published_recycleBuffer {r : ProvidedRing} (hne : r.bufs ≠ []) (loc : ℕ) :
    (r.recycleBuffer loc).published = (r.tail + 1) % 2 ^ 16 := by
  rw [recycleBuffer]
  apply published_publish
  simpa using hne

/-- A buffer that is selected was free, and is out from then on. -/
theorem select_eq_some {r r' : ProvidedRing} {loc len : ℕ} {exclusive : Bool}
    (h : r.select loc len exclusive = some r') : r.tracker.borrows[loc]? = some 0 ∧
      ∃ b, b ≠ 0 ∧ r' = { r with tracker := ⟨r.tracker.borrows.set loc b⟩ } := by
  rw [select] at h
  obtain ⟨-, h⟩ := guard_bind h
  obtain ⟨t, ht, h⟩ := Option.bind_eq_some_iff.mp h
  obtain ⟨t', ht', rfl⟩ := Option.map_eq_some_iff.mp h
  obtain ⟨b, b', hb, hf, rfl⟩ := BorrowTracker.update_eq_some.mp ht
  split_ifs at hf with hzero
  obtain rfl := Option.some.inj hf
  subst hzero
  refine ⟨hb, ?_⟩
  cases exclusive with
  | false =>
    obtain rfl := Option.some.inj ht'
    exact ⟨1, by decide, rfl⟩
  | true =>
    obtain ⟨c, c', -, hup, rfl⟩ := BorrowTracker.update_eq_some.mp ht'
    split_ifs at hup
    obtain rfl := Option.some.inj hup
    refine ⟨-1, by decide, ?_⟩
    rw [List.set_set]

end ProvidedRing

namespace Shared

variable {s s' : Shared} {slabBase count size : ℕ}

theorem unconsumed_eq (s : Shared) : s.unconsumed = window s.ring.descriptors s.head s.pending := rfl

theorem Kept.head_add (h : s.Kept slabBase count size) :
    (s.head + s.pending) % 2 ^ 16 = s.ring.tail := by
  have htail := h.tail
  have hhead := h.head
  rw [Shared.pending, h.published]
  omega

theorem Kept.tail_mod (h : s.Kept slabBase count size) :
    s.ring.tail % count = (s.head + s.pending) % count := by
  obtain ⟨k, hle, hk⟩ := h.pow
  rw [← h.head_add, wrap_mod hk hle]

theorem Kept.length_descriptors (h : s.Kept slabBase count size) :
    s.ring.descriptors.length = count := by
  rw [ProvidedRing.descriptors, List.length_map, h.bufs]

/-- A buffer that is out is in no other place, and leaves a descriptor's room behind. -/
theorem Kept.pending_lt (h : s.Kept slabBase count size) {loc : ℕ} (ho : s.out loc = true) :
    s.pending < count := by
  have hlen : s.unconsumed.length = s.pending := by
    rw [unconsumed_eq]
    apply length_window
    rw [h.length_descriptors]
    exact h.pending
  have hnodup : (loc :: s.unconsumed.map (·.bid)).Nodup := by
    rw [List.nodup_iff_count_le_one]
    intro bid
    have hplaces := h.places bid
    have hone : (if bid < count then 1 else 0) ≤ 1 := by split <;> decide
    rw [Shared.places] at hplaces
    rw [List.count_cons]
    by_cases hb : loc = bid
    · subst hb
      rw [if_pos ho] at hplaces
      simp only [beq_self_eq_true, if_true]
      omega
    · rw [if_neg (by simpa using hb)]
      omega
  have hsub : loc :: s.unconsumed.map (·.bid) ⊆ List.range count := by
    intro bid hbid
    have hplaces := h.places bid
    rw [Shared.places] at hplaces
    rw [List.mem_range]
    by_contra hge
    rw [if_neg hge] at hplaces
    rcases List.mem_cons.mp hbid with rfl | hmem
    · rw [if_pos ho] at hplaces
      omega
    · have hpos := List.count_pos_iff.mpr hmem
      omega
  have hle := (List.subperm_of_subset hnodup hsub).length_le
  rw [List.length_cons, List.length_map, hlen, List.length_range] at hle
  omega

/-- The index behind the tail is none of those the kernel has yet to read. -/
theorem Kept.tail_fresh (h : s.Kept slabBase count size) (hlt : s.pending < count) {i : ℕ}
    (hi : i < s.pending) : (s.head + i) % 2 ^ 16 &&& (count - 1) ≠ s.ring.tail &&& (count - 1) := by
  obtain ⟨k, hle, hk⟩ := h.pow
  rw [and_mask hk, and_mask hk, wrap_mod hk hle, h.tail_mod]
  intro heq
  have hmod : Nat.ModEq count i s.pending := Nat.ModEq.add_left_cancel' s.head heq
  have heq' : i = s.pending := Nat.ModEq.eq_of_lt_of_lt hmod (hi.trans hlt) hlt
  omega

theorem out_iff {bid : ℕ} : s.out bid = true ↔ ∃ b, s.ring.tracker.borrows[bid]? = some b ∧ b ≠ 0 := by
  rw [out, Option.any_eq_true]
  simp

/-- What is asked of every state follows from what every step keeps. -/
theorem Kept.conserved (h : s.Kept slabBase count size) : s.Conserved slabBase count size := by
  constructor
  case places => exact h.places
  case recycles =>
    intro exclusive loc t hdrop i hi
    obtain ⟨hu, -⟩ := BorrowTracker.dropView_eq_some hdrop
    obtain ⟨b, b', hb, hr, -⟩ := BorrowTracker.update_getElem? hu
    have hout := out_iff.mpr ⟨b, hb, BorrowTracker.released_ne_zero hr⟩
    exact h.tail_fresh (h.pending_lt hout) hi
  case slots => exact h.slots
  case selects =>
    intro bid hbid
    have hpos := List.count_pos_iff.mpr hbid
    have hplaces := h.places bid
    rw [Shared.places] at hplaces
    have hlt : bid < count := by
      by_contra hge
      rw [if_neg hge] at hplaces
      omega
    have hout : s.out bid = false := by
      rw [if_pos hlt] at hplaces
      by_contra hout
      rw [if_pos (by simpa using hout)] at hplaces
      omega
    have hlen : bid < s.ring.tracker.borrows.length := by
      rw [h.borrows]
      exact hlt
    have hget := List.getElem?_eq_getElem hlen
    have hzero : s.ring.tracker.borrows[bid] = 0 := by
      by_contra hne
      have htrue := out_iff.mpr ⟨_, hget, hne⟩
      rw [hout] at htrue
      cases htrue
    refine ⟨_, BorrowTracker.update_eq_some.mpr ⟨_, 1, hget, ?_, rfl⟩⟩
    rw [hzero]
    rfl

/-- The kernel takes the oldest descriptor it has not consumed. -/
theorem Kept.consume_spec (h : s.Kept slabBase count size) (hs : s.consume = some s') :
    s'.ring = s.ring ∧ s'.head < 2 ^ 16 ∧ s.pending = 1 + s'.pending ∧
      ∃ d : Descriptor, s'.consumed = s.consumed ++ [d.bid] ∧ s.unconsumed = d :: s'.unconsumed := by
  obtain ⟨k, hle, hk⟩ := h.pow
  rw [Shared.consume] at hs
  split_ifs at hs with hne
  obtain ⟨b, hb, hs⟩ := Option.bind_eq_some_iff.mp hs
  rw [h.count_eq, and_mask hk] at hb
  have hnext := (Option.some.inj hs).symm
  have hring : s'.ring = s.ring := by rw [hnext]
  have hkernel : s'.head = (s.head + 1) % 2 ^ 16 := by rw [hnext]
  have hpending := h.pending
  have htail := h.tail
  have hhead := h.head
  have hstep : s.pending = 1 + s'.pending := by
    rw [Shared.pending, Shared.pending, hring, hkernel]
    rw [h.published] at hne ⊢
    omega
  have hfirst : window s.ring.descriptors s.head 1 = [b.toDescriptor] := by
    apply window_one
    rw [h.length_descriptors, ProvidedRing.descriptors, List.getElem?_map, hb]
    rfl
  have hrest : window s.ring.descriptors (s.head + 1) s'.pending = s'.unconsumed := by
    have hwrap : window s.ring.descriptors ((s.head + 1) % 2 ^ 16 % s.ring.descriptors.length)
        s'.pending = window s.ring.descriptors ((s.head + 1) % 2 ^ 16) s'.pending := window_mod
    rw [h.length_descriptors, wrap_mod hk hle, ← h.length_descriptors, window_mod] at hwrap
    rw [unconsumed_eq, hring, hkernel, hwrap]
  refine ⟨hring, ?_, hstep, b.toDescriptor, by rw [hnext], ?_⟩
  · rw [hkernel]
    exact Nat.mod_lt _ (by norm_num)
  · rw [unconsumed_eq, hstep, window_add (by rw [h.length_descriptors]; omega), hfirst, hrest]
    rfl

theorem Kept.consume (h : s.Kept slabBase count size) (hs : s.consume = some s') :
    s'.Kept slabBase count size := by
  obtain ⟨hring, hhead, hstep, d, hconsumed, hsplit⟩ := h.consume_spec hs
  have hpending := h.pending
  constructor
  case pow => exact h.pow
  case count_eq => exact hring ▸ h.count_eq
  case size_eq => exact hring ▸ h.size_eq
  case base_eq => exact hring ▸ h.base_eq
  case bufs => exact hring ▸ h.bufs
  case borrows => exact hring ▸ h.borrows
  case published => exact hring ▸ h.published
  case tail => exact hring ▸ h.tail
  case head => exact hhead
  case pending => omega
  case places =>
    intro bid
    have hout : s'.out bid = s.out bid := by rw [Shared.out, Shared.out, hring]
    rw [← h.places bid, Shared.places, Shared.places, hsplit, hconsumed, hout]
    simp only [List.map_cons, List.count_cons, List.count_append, List.count_nil]
    omega
  case slots =>
    intro e he
    apply h.slots e
    rw [hsplit]
    exact List.mem_cons_of_mem _ he

/-- Only the counts and the completions move: the buffer changes hands between them. -/
theorem Kept.retrack (h : s.Kept slabBase count size) {t : BorrowTracker} {consumed : List ℕ}
    (hlen : t.borrows.length = s.ring.tracker.borrows.length)
    (hplaces : ∀ bid, consumed.count bid + (if t.borrows[bid]?.any (· ≠ 0) then 1 else 0) =
      s.consumed.count bid + if s.out bid then 1 else 0) :
    Kept slabBase count size { s with ring := { s.ring with tracker := t }, consumed := consumed } := by
  constructor
  case pow => exact h.pow
  case count_eq => exact h.count_eq
  case size_eq => exact h.size_eq
  case base_eq => exact h.base_eq
  case bufs => exact h.bufs
  case borrows => exact hlen.trans h.borrows
  case published => exact h.published
  case tail => exact h.tail
  case head => exact h.head
  case pending => exact h.pending
  case places =>
    intro bid
    rw [← h.places bid, Shared.places, Shared.places, Nat.add_assoc, Nat.add_assoc]
    exact congrArg _ (hplaces bid)
  case slots => exact h.slots

theorem any_set {borrows : List ℤ} {loc : ℕ} (b : ℤ) (hlt : loc < borrows.length) (bid : ℕ) :
    (borrows.set loc b)[bid]?.any (· ≠ 0) =
      if bid = loc then decide (b ≠ 0) else borrows[bid]?.any (· ≠ 0) := by
  by_cases hb : bid = loc
  · subst hb
    rw [List.getElem?_set_self hlt, if_pos rfl]
    rfl
  · rw [List.getElem?_set_ne (Ne.symm hb), if_neg hb]

/-- A buffer that stays out may change its count. -/
theorem Kept.recount (h : s.Kept slabBase count size) {loc : ℕ} {b b' : ℤ}
    (hb : s.ring.tracker.borrows[loc]? = some b) (hne : b ≠ 0) (hne' : b' ≠ 0) :
    Kept slabBase count size
      { s with ring := { s.ring with tracker := ⟨s.ring.tracker.borrows.set loc b'⟩ } } := by
  have hout := out_iff.mpr ⟨b, hb, hne⟩
  apply h.retrack List.length_set
  intro bid
  rw [any_set b' (List.getElem?_eq_some_iff.mp hb).1]
  by_cases hbid : bid = loc
  · subst hbid
    rw [if_pos rfl, if_pos hout, if_pos (decide_eq_true hne')]
  · rw [if_neg hbid]
    rfl

theorem Kept.track (h : s.Kept slabBase count size) {loc : ℕ} {f : ℤ → Option ℤ}
    (hf : ∀ b b', f b = some b' → b ≠ 0 ∧ b' ≠ 0)
    (hs : (s.ring.track (·.update loc f)).map ({ s with ring := · }) = some s') :
    s'.Kept slabBase count size := by
  obtain ⟨r, hr, rfl⟩ := Option.map_eq_some_iff.mp hs
  obtain ⟨t, ht, rfl⟩ := Option.map_eq_some_iff.mp hr
  obtain ⟨b, b', hb, hfb, rfl⟩ := BorrowTracker.update_eq_some.mp ht
  obtain ⟨hne, hne'⟩ := hf b b' hfb
  exact h.recount hb hne hne'

theorem Kept.select (h : s.Kept slabBase count size) {i len : ℕ} {exclusive : Bool}
    (hs : s.step (.select i len exclusive) = some s') : s'.Kept slabBase count size := by
  rw [Shared.step] at hs
  obtain ⟨bid, hbid, hs⟩ := Option.bind_eq_some_iff.mp hs
  obtain ⟨r, hr, hs⟩ := Option.bind_eq_some_iff.mp hs
  obtain rfl := Option.some.inj hs
  obtain ⟨hfree, b, hb, rfl⟩ := ProvidedRing.select_eq_some hr
  obtain ⟨hi, rfl⟩ := List.getElem?_eq_some_iff.mp hbid
  have hlt := (List.getElem?_eq_some_iff.mp hfree).1
  have hout : s.out s.consumed[i] = false := by simp [out, hfree]
  apply h.retrack List.length_set
  intro bid
  have hperm := (List.getElem_cons_eraseIdx_perm hi).count_eq bid
  rw [any_set b hlt, ← hperm, List.count_cons]
  by_cases hbid : bid = s.consumed[i]
  · subst hbid
    simp [hb, hout]
  · simp [hbid, Ne.symm hbid, out]

/-- A buffer without views is published behind the tail. -/
theorem Kept.recycle_spec (h : s.Kept slabBase count size) {loc : ℕ} (hout : s.out loc = true)
    {r : ProvidedRing} {t : BorrowTracker} (hr : r = { s.ring with tracker := t })
    (hs' : s' = { s with ring := r.recycleBuffer loc }) :
    s'.ring.published = s'.ring.tail ∧ s'.pending = s.pending + 1 ∧
      s'.unconsumed = s.unconsumed ++ [⟨slabBase + loc * size, size, loc⟩] := by
  obtain ⟨k, hle, hk⟩ := h.pow
  have hpow : count ≤ 2 ^ 15 := hk ▸ Nat.pow_le_pow_right (by norm_num) hle
  have hlt := h.pending_lt hout
  have hhead := h.head
  have hlen := h.length_descriptors
  have hbufs : r.bufs ≠ [] := by
    apply List.ne_nil_of_length_pos
    rw [hr, h.bufs]
    omega
  have hdesc : (⟨r.slotPtr loc, r.size, loc⟩ : Descriptor) = ⟨slabBase + loc * size, size, loc⟩ := by
    rw [hr, ProvidedRing.slotPtr, h.base_eq, h.size_eq]
  have hpublished : (r.recycleBuffer loc).published = (s.ring.tail + 1) % 2 ^ 16 := by
    rw [ProvidedRing.published_recycleBuffer hbufs, hr]
  have hring : s'.ring = r.recycleBuffer loc := by rw [hs']
  have hkernel : s'.head = s.head := by rw [hs']
  have hpending : s'.pending = s.pending + 1 := by
    have hadd := h.head_add
    rw [Shared.pending, hring, hkernel, hpublished]
    omega
  have hdescriptors : s'.ring.descriptors = s.ring.descriptors.set
      ((s.head + s.pending) % s.ring.descriptors.length) ⟨slabBase + loc * size, size, loc⟩ := by
    rw [hring, ProvidedRing.descriptors_recycleBuffer, hdesc, hr, h.count_eq, and_mask hk, h.tail_mod, hlen]
    rfl
  refine ⟨?_, hpending, ?_⟩
  · rw [hring, hpublished, hr]
    rfl
  · rw [unconsumed_eq, hdescriptors, hpending, hkernel]
    apply window_set
    rw [hlen]
    exact hlt

theorem Kept.recycle (h : s.Kept slabBase count size) {loc : ℕ} (hout : s.out loc = true)
    {r : ProvidedRing} (hr : r = { s.ring with tracker := ⟨s.ring.tracker.borrows.set loc 0⟩ })
    (hs' : s' = { s with ring := r.recycleBuffer loc }) : s'.Kept slabBase count size := by
  obtain ⟨hpublished, hpending, hsplit⟩ := h.recycle_spec hout hr hs'
  have hlt := h.pending_lt hout
  have hloc : loc < s.ring.tracker.borrows.length := by
    obtain ⟨b, hb, -⟩ := out_iff.mp hout
    exact (List.getElem?_eq_some_iff.mp hb).1
  constructor
  case pow => exact h.pow
  case count_eq =>
    rw [hs', hr]
    exact h.count_eq
  case size_eq =>
    rw [hs', hr]
    exact h.size_eq
  case base_eq =>
    rw [hs', hr]
    exact h.base_eq
  case bufs =>
    rw [hs', hr, ← h.bufs]
    simp [ProvidedRing.recycleBuffer, ProvidedRing.publish]
  case borrows =>
    rw [hs', hr, ← h.borrows]
    exact List.length_set
  case published => exact hpublished
  case tail =>
    rw [hs', hr]
    exact Nat.mod_lt _ (by norm_num)
  case head =>
    rw [hs']
    exact h.head
  case pending => omega
  case places =>
    intro bid
    have hout' : s'.out bid = if bid = loc then false else s.out bid := by
      rw [hs', hr]
      exact any_set 0 hloc bid
    have hconsumed : s'.consumed = s.consumed := by rw [hs']
    rw [← h.places bid, Shared.places, Shared.places, hsplit, hconsumed, hout', List.map_append,
      List.count_append]
    by_cases hbid : bid = loc
    · subst hbid
      simp [hout]
      omega
    · simp [hbid, Ne.symm hbid]
  case slots =>
    intro d hd
    rw [hsplit] at hd
    rcases List.mem_append.mp hd with hd | hd
    · exact h.slots d hd
    · rw [List.mem_singleton.mp hd]
      exact ⟨rfl, rfl⟩

/-- A release changes the count, or brings it to zero and recycles the buffer. -/
theorem Kept.dropView_cases (h : s.Kept slabBase count size) {loc : ℕ} {exclusive : Bool}
    (hs : s.step (.dropView exclusive loc) = some s') :
    ∃ b b', s.ring.tracker.borrows[loc]? = some b ∧ b ≠ 0 ∧
      s.ring.tracker.dropView exclusive loc = some (⟨s.ring.tracker.borrows.set loc b'⟩, decide (b' = 0)) ∧
      ((b' ≠ 0 ∧ s' = { s with ring := { s.ring with tracker := ⟨s.ring.tracker.borrows.set loc b'⟩ } }) ∨
        (b' = 0 ∧ ∃ r : ProvidedRing, r = { s.ring with tracker := ⟨s.ring.tracker.borrows.set loc 0⟩ } ∧
          s' = { s with ring := r.recycleBuffer loc })) := by
  obtain ⟨r, hr, rfl⟩ := Option.map_eq_some_iff.mp hs
  obtain ⟨⟨t, free⟩, ht, hr⟩ := Option.bind_eq_some_iff.mp hr
  obtain rfl := Option.some.inj hr
  obtain ⟨hu, c, hc, rfl⟩ := BorrowTracker.dropView_eq_some ht
  obtain ⟨b, b', hb, hrel, rfl⟩ := BorrowTracker.update_eq_some.mp hu
  have hlt := (List.getElem?_eq_some_iff.mp hb).1
  have hbc : b' = c := by
    rw [List.getElem?_set_self hlt] at hc
    exact Option.some.inj hc
  subst hbc
  refine ⟨b, b', hb, BorrowTracker.released_ne_zero hrel, ht, ?_⟩
  by_cases hzero : b' = 0
  · right
    subst hzero
    have hloc : loc % 2 ^ 16 = loc := by
      obtain ⟨k, hle, hk⟩ := h.pow
      have hpow : count ≤ 2 ^ 15 := hk ▸ Nat.pow_le_pow_right (by norm_num) hle
      rw [h.borrows] at hlt
      omega
    refine ⟨rfl, _, rfl, ?_⟩
    simp only [decide_true, if_true, hloc]
  · left
    refine ⟨hzero, ?_⟩
    simp only [hzero, decide_false, Bool.false_eq_true, if_false]

theorem Kept.dropView (h : s.Kept slabBase count size) {loc : ℕ} {exclusive : Bool}
    (hs : s.step (.dropView exclusive loc) = some s') : s'.Kept slabBase count size := by
  obtain ⟨b, b', hb, hne, -, ⟨hne', rfl⟩ | ⟨-, r, hr, hs'⟩⟩ := h.dropView_cases hs
  · exact h.recount hb hne hne'
  · exact h.recycle (out_iff.mpr ⟨b, hb, hne⟩) hr hs'

theorem Kept.step (h : s.Kept slabBase count size) {mv : RingMove} (hs : s.step mv = some s') :
    s'.Kept slabBase count size := by
  cases mv with
  | consume => exact h.consume hs
  | select i len exclusive => exact h.select hs
  | cloneShared loc =>
    refine h.track ?_ hs
    intro b b' hb
    split_ifs at hb with hpos
    have := BorrowTracker.checked_eq_some hb
    omega
  | splitExclusive loc =>
    refine h.track ?_ hs
    intro b b' hb
    split_ifs at hb with hneg
    have := BorrowTracker.checked_eq_some hb
    omega
  | upgrade loc | downgrade loc =>
    refine h.track ?_ hs
    intro b b' hb
    split_ifs at hb with hone
    obtain rfl := Option.some.inj hb
    omega
  | dropView exclusive loc => exact h.dropView hs

/-- Every buffer of a new ring is published. -/
theorem kept_new {cls : ℕ} {r : ProvidedRing} (h : ProvidedRing.new slabBase count size cls = some r) :
    Kept slabBase count size ⟨r, 0, []⟩ := by
  rw [ProvidedRing.new] at h
  obtain ⟨hpow, h⟩ := guard_bind h
  obtain ⟨⟨hpos, hmax⟩, h⟩ := guard_bind h
  obtain ⟨-, h⟩ := guard_bind h
  obtain ⟨-, h⟩ := guard_bind h
  have hr := (Option.some.inj h).symm
  have hne : (List.range count).map (fun loc => (⟨⟨slabBase + loc * size, size, loc⟩, 0⟩ : IoUringBuf)) ≠ [] := by
    apply List.ne_nil_of_length_pos
    simpa using hpos
  have hpublished : r.published = count := by
    rw [hr]
    exact ProvidedRing.published_publish hne count
  have hdescriptors : r.descriptors =
      (List.range count).map fun loc => ⟨slabBase + loc * size, size, loc⟩ := by
    rw [hr, ProvidedRing.descriptors_publish]
    simp [ProvidedRing.descriptors]
  have hpending : Shared.pending ⟨r, 0, []⟩ = count := by
    rw [Shared.pending]
    simp only [hpublished]
    omega
  have hunconsumed : Shared.unconsumed ⟨r, 0, []⟩ = r.descriptors := by
    rw [unconsumed_eq, hpending, window, List.rotate_zero]
    apply List.take_of_length_le
    simp [hdescriptors]
  have hout : ∀ bid, Shared.out ⟨r, 0, []⟩ bid = false := by
    intro bid
    rw [hr]
    by_cases hbid : bid < count <;>
      simp [out, ProvidedRing.publish, BorrowTracker.new, hbid]
  constructor
  case pow =>
    obtain ⟨k, hk⟩ := isPowerOfTwo_iff.mp hpow
    refine ⟨k, ?_, hk⟩
    rw [hk] at hmax
    exact (Nat.pow_le_pow_iff_right (by norm_num)).mp (hmax : 2 ^ k ≤ 2 ^ 15)
  case count_eq => rw [hr]; rfl
  case size_eq => rw [hr]; rfl
  case base_eq => rw [hr]; rfl
  case bufs =>
    rw [hr]
    simp [ProvidedRing.publish]
  case borrows =>
    rw [hr]
    simp [ProvidedRing.publish, BorrowTracker.new]
  case published =>
    rw [hpublished, hr]
    rfl
  case tail =>
    rw [hr]
    exact Nat.lt_of_le_of_lt hmax (by norm_num)
  case head => norm_num
  case pending => exact hpending.le
  case places =>
    intro bid
    have hids : (r.descriptors.map (·.bid)) = List.range count := by
      rw [hdescriptors, List.map_map]
      exact List.map_id _
    rw [Shared.places, hunconsumed, hids, hout, List.nodup_range.count]
    simp
  case slots =>
    intro d hd
    rw [hunconsumed, hdescriptors] at hd
    obtain ⟨loc, -, rfl⟩ := List.mem_map.mp hd
    exact ⟨rfl, rfl⟩

/-- The slab whose ring holds what no view has been given yet, oldest first. -/
def slab (s : Shared) : ProvidedSlab :=
  ⟨s.ring.bufCount, s.ring.size, s.ring.cls, s.consumed ++ s.unconsumed.map (·.bid), s.ring.tracker⟩

/-- What the kernel does is invisible to the slab. -/
theorem Kept.slab_consume (h : s.Kept slabBase count size) (hs : s.consume = some s') :
    s'.slab = s.slab := by
  obtain ⟨hring, -, -, d, hconsumed, hsplit⟩ := h.consume_spec hs
  simp [slab, hring, hconsumed, hsplit]

/-- Dropping a view releases the slab's slot. -/
theorem Kept.slab_dropView (h : s.Kept slabBase count size) {loc : ℕ} {exclusive : Bool}
    (hs : s.step (.dropView exclusive loc) = some s') :
    Slab.dropView s.slab exclusive loc = some s'.slab := by
  obtain ⟨b, b', hb, hne, hdrop, hcases⟩ := h.dropView_cases hs
  have htracker : (Slab.tracker s.slab).dropView exclusive loc =
      some (⟨s.ring.tracker.borrows.set loc b'⟩, decide (b' = 0)) := hdrop
  simp only [Slab.dropView, htracker, Option.bind_eq_bind, Option.bind_some, Option.some.injEq,
    decide_eq_true_eq]
  rcases hcases with ⟨hne', rfl⟩ | ⟨rfl, r, hr, hs'⟩
  · rw [if_neg hne']
    rfl
  · obtain ⟨-, -, hsplit⟩ := h.recycle_spec (out_iff.mpr ⟨b, hb, hne⟩) hr hs'
    have hids : s'.unconsumed.map (·.bid) = s.unconsumed.map (·.bid) ++ [loc] := by
      rw [hsplit, List.map_append]
      rfl
    have hslab : s'.slab = ⟨s'.ring.bufCount, s'.ring.size, s'.ring.cls,
      s'.consumed ++ s'.unconsumed.map (·.bid), s'.ring.tracker⟩ := rfl
    rw [hids] at hslab
    rw [if_pos rfl, hslab, hs', hr]
    simp [slab, Slab.recycle, Slab.setTracker, ProvidedSlab.recycleBuffer, ProvidedRing.recycleBuffer,
      ProvidedRing.publish]

/-- A completion that is passed on takes its buffer off the slab's ring. -/
theorem Kept.slab_select (h : s.Kept slabBase count size) {i len : ℕ} {exclusive : Bool}
    (hs : s.step (.select i len exclusive) = some s') :
    ∃ bid ∈ s.slab.ring, s.slab.tracker.borrows[bid]? = some 0 ∧ s'.slab.ring = s.slab.ring.erase bid := by
  obtain ⟨bid, hbid, hs⟩ := Option.bind_eq_some_iff.mp hs
  obtain ⟨r, hr, hs⟩ := Option.bind_eq_some_iff.mp hs
  obtain rfl := Option.some.inj hs
  obtain ⟨hfree, b, -, rfl⟩ := ProvidedRing.select_eq_some hr
  obtain ⟨hi, rfl⟩ := List.getElem?_eq_some_iff.mp hbid
  have hmem := List.getElem_mem hi
  have hnodup : s.consumed.Nodup := by
    rw [List.nodup_iff_count_le_one]
    intro k
    have hplaces := h.places k
    have hone : (if k < count then 1 else 0) ≤ 1 := by split <;> decide
    rw [Shared.places] at hplaces
    omega
  refine ⟨_, List.mem_append_left _ hmem, hfree, ?_⟩
  change s.consumed.eraseIdx i ++ s.unconsumed.map (·.bid) =
    (s.consumed ++ s.unconsumed.map (·.bid)).erase s.consumed[i]
  rw [List.erase_append_left _ hmem, hnodup.erase_getElem]

end Shared

/-- A ring of any admissible table entry loses no buffer, and overwrites and hands out none twice. -/
theorem run_conserved {slabBase count size cls : ℕ} {r : ProvidedRing} {s : Shared}
    (hnew : ProvidedRing.new slabBase count size cls = some r)
    (h : Reaches Shared.step (fun _ _ => True) ⟨r, 0, []⟩ s) : s.Conserved slabBase count size := by
  have hkept := h.invariant (Shared.kept_new hnew) fun _ _ _ hs _ hst => hs.step hst
  exact hkept.conserved

/-- Buffers coming back out of order until the tail has gone around the ring. -/
theorem run_conserved_wrapped : ∃ r s, ProvidedRing.new 4096 2 64 0 = some r ∧
    run Shared.step ⟨r, 0, []⟩ [.consume, .consume, .select 1 5 false, .cloneShared 1, .dropView false 1,
      .select 0 64 true, .dropView true 0, .consume, .dropView false 1, .consume, .select 1 0 false] = some s ∧
    s.ring.tail = 4 ∧ s.consumed = [0] ∧ s.Conserved 4096 2 64 := by
  have hrun : ((ProvidedRing.new 4096 2 64 0).any fun r =>
      (run Shared.step ⟨r, 0, []⟩ [.consume, .consume, .select 1 5 false, .cloneShared 1,
        .dropView false 1, .select 0 64 true, .dropView true 0, .consume, .dropView false 1, .consume,
        .select 1 0 false]).any fun s : Shared => s.ring.tail = 4 ∧ s.consumed = [0]) = true := by
    decide +kernel
  obtain ⟨r, hr, hrun⟩ := (Option.any_eq_true _ _).mp hrun
  obtain ⟨s, hs, htest⟩ := (Option.any_eq_true _ _).mp hrun
  obtain ⟨htail, hconsumed⟩ := of_decide_eq_true htest
  refine ⟨r, s, hr, hs, htail, hconsumed, ?_⟩
  exact run_conserved hr (reaches_of_run (meets_of_forall fun _ _ => trivial) hs)

end Conrt.Buf
