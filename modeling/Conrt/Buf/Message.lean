import Conrt.Base.Run
import Conrt.Buf.Layout

/-! A message's pooled arrays: `iovec`s, and control messages packed as the kernel walks them. -/
namespace Conrt.Buf

open Conrt.Base

/-- The low `k` bytes of `v`. -/
def toLe : ℕ → ℕ → List UInt8
  | 0, _ => []
  | k + 1, v => UInt8.ofNat (v % 256) :: toLe k (v / 256)

def ofLe : List UInt8 → ℕ
  | [] => 0
  | b :: bs => b.toNat + 256 * ofLe bs

@[simp] theorem length_toLe (k v : ℕ) : (toLe k v).length = k := by
  induction k generalizing v with
  | zero => rfl
  | succ k ih => simp [toLe, ih]

private theorem ofLe_toLe {k v : ℕ} (h : v < 256 ^ k) : ofLe (toLe k v) = v := by
  induction k generalizing v with
  | zero =>
    have hv : v = 0 := by simpa using h
    rw [hv]
    rfl
  | succ k ih =>
    have hdiv : v / 256 < 256 ^ k := by
      rw [Nat.div_lt_iff_lt_mul (by norm_num)]
      rwa [pow_succ] at h
    have hmod : (UInt8.ofNat (v % 256)).toNat = v % 256 := by
      rw [UInt8.toNat_ofNat']
      exact Nat.mod_eq_of_lt (Nat.mod_lt v (by decide))
    rw [toLe, ofLe, ih hdiv, hmod]
    omega

/-- A slot of the smallest class that fits `bytes`: `free` names the slot its class hands out. The
class's alignment is asserted before the slot is taken, the slot's own after. -/
def SlabLayout.allocSlot (l : SlabLayout) (base bytes align : ℕ) (free : ℕ → Option ℕ) :
    Except Fault (Option ℕ) :=
  match classFor (l.classes false) bytes with
  | none => .ok none
  | some cls => do
    let c ← unwrap (l.classes false)[cls]?
    check (align ≤ min c.size bufferMaxAlign)
    match free cls with
    | none => .ok none
    | some loc =>
      if loc < c.count then
        let offset ← l.slotOffset ⟨false, cls, loc⟩
        check ((base + offset) % align = 0)
        .ok (some (base + offset))
      else .ok none

def SlabLayout.allocArray (l : SlabLayout) (base count size align : ℕ) (free : ℕ → Option ℕ) :
    Except Fault (Option (Option ℕ)) :=
  if count = 0 then .ok (some none)
  else (l.allocSlot base (count * size) align free).map (Option.map some)

section alloc

variable {l : SlabLayout} {spec : Bool → List SizeClass} {base : ℕ}

private theorem SlabLayout.Laid.address_dvd (hl : l.Laid spec) (hbase : l.align ∣ base) {s : Slot}
    {c : SizeClassLayout} (h : l.Has s c) {a : ℕ} (ha : a.isPowerOfTwo)
    (hle : a ≤ min c.size bufferMaxAlign) : a ∣ base + l.offset s c := by
  have hsize := isPowerOfTwo_min ((hl.placed _).admissible c h.mem).2.1
  apply (dvd_of_isPowerOfTwo ha hsize hle).trans
  exact dvd_add ((hl.align _ c h.mem).trans hbase) (hl.aligned h)

/-- No allocation of a type that fits its own size asserts, and its address has every alignment up to
that size, one page at most. -/
theorem allocSlot_ok (hl : l.Laid spec) (hbase : l.align ∣ base) {bytes align : ℕ}
    (hpow : align.isPowerOfTwo) (hfit : align ≤ min bytes bufferMaxAlign) (free : ℕ → Option ℕ) :
    ∃ o, l.allocSlot base bytes align free = .ok o ∧ ∀ addr, o = some addr →
      ∀ a : ℕ, a.isPowerOfTwo → a ≤ min bytes bufferMaxAlign → a ∣ addr := by
  rw [SlabLayout.allocSlot]
  have hsmallest := classFor_smallest (hl.sorted false) bytes
  cases hcls : classFor (l.classes false) bytes with
  | none => exact ⟨none, rfl, by simp⟩
  | some cls =>
    rw [hcls] at hsmallest
    obtain ⟨c, hget, hbytes, -⟩ := hsmallest
    have hclass : min bytes bufferMaxAlign ≤ min c.size bufferMaxAlign := min_le_min_right _ hbytes
    simp only [hget, unwrap, bind, Except.bind, check, if_pos (hfit.trans hclass)]
    cases free cls with
    | none => exact ⟨none, rfl, by simp⟩
    | some loc =>
      dsimp only
      by_cases hloc : loc < c.count
      · obtain ⟨d, hd, rfl⟩ : ∃ d, l.fixed[cls]? = some d ∧ (⟨d.size, d.count⟩ : SizeClass) = c := by
          simpa [SlabLayout.classes, SlabLayout.side] using hget
        have hhas : l.Has ⟨false, cls, loc⟩ d := ⟨hd, hloc⟩
        have hdvd := fun (a : ℕ) (ha : a.isPowerOfTwo) (hle : a ≤ min bytes bufferMaxAlign) =>
          hl.address_dvd hbase hhas ha (hle.trans hclass)
        have hzero := Nat.mod_eq_zero_of_dvd (hdvd align hpow hfit)
        rw [if_pos hloc, hl.slotOffset_eq hhas]
        simp only [if_pos hzero]
        exact ⟨_, rfl, fun addr haddr => Option.some.inj haddr ▸ hdvd⟩
      · exact ⟨none, by rw [if_neg hloc], by simp⟩

/-- An array is there unless it is empty, and aligned as far as its bytes reach. -/
theorem allocArray_ok (hl : l.Laid spec) (hbase : l.align ∣ base) {count size align : ℕ}
    (hpow : align.isPowerOfTwo) (hfit : align ≤ min size bufferMaxAlign) (free : ℕ → Option ℕ) :
    ∃ o, l.allocArray base count size align free = .ok o ∧ ∀ p, o = some p →
      (p = none ↔ count = 0) ∧ ∀ addr, p = some addr →
        ∀ a : ℕ, a.isPowerOfTwo → a ≤ min (count * size) bufferMaxAlign → a ∣ addr := by
  rw [SlabLayout.allocArray]
  by_cases hn : count = 0
  · refine ⟨some none, if_pos hn, ?_⟩
    intro a ha
    obtain rfl := Option.some.inj ha
    simp [hn]
  · have hsize : size ≤ count * size := Nat.le_mul_of_pos_left size (Nat.pos_of_ne_zero hn)
    obtain ⟨o, ho, haddr⟩ := allocSlot_ok hl hbase hpow (hfit.trans (min_le_min_right _ hsize)) free
    refine ⟨o.map some, by rw [if_neg hn, ho]; rfl, ?_⟩
    intro a ha
    obtain ⟨addr, hsome, rfl⟩ := Option.map_eq_some_iff.mp ha
    refine ⟨by simp [hn], ?_⟩
    intro addr' heq
    exact Option.some.inj heq ▸ haddr addr hsome

end alloc

structure Iovec where
  base : ℕ
  len : ℕ
deriving DecidableEq

structure Cmsg where
  level : BitVec 32
  kind : BitVec 32
  payload : List UInt8
deriving DecidableEq

def maxIovCap : ℕ := 1024

def cmsghdrSize : ℕ := 16

def cmsghdrAlign : ℕ := 8

def cmsgAlign (len : ℕ) : ℕ := (len + cmsghdrAlign - 1) / cmsghdrAlign * cmsghdrAlign

def cmsgSpace (payload : ℕ) : ℕ := cmsgAlign (cmsghdrSize + payload)

/-- The space of the most descriptors one message can pass. -/
def maxCtrlCap : ℕ := cmsgSpace (253 * 4)

/-- Header and payload, without the padding behind them. -/
def Cmsg.bytes (e : Cmsg) : List UInt8 :=
  toLe 8 (cmsghdrSize + e.payload.length) ++ (toLe 4 e.level.toNat ++ (toLe 4 e.kind.toNat ++ e.payload))

/-- A `msghdr` wired to its arrays, each at its address. -/
structure Msg where
  iov : Option (ℕ × List (Option Iovec))
  ctrl : Option (ℕ × List UInt8)
  msgIov : Option ℕ
  msgIovlen : ℕ
  msgControl : Option ℕ
  msgControllen : ℕ
deriving DecidableEq

def overwrite {α : Type} (bs : List α) (i : ℕ) (new : List α) : List α :=
  bs.take i ++ new ++ bs.drop (i + new.length)

namespace Msg

/-- `free` answers the three allocations; `left` is what the control buffer's slot holds. -/
def withCapacity (l : SlabLayout) (base iovs ctrlBytes : ℕ) (free : Fin 3 → ℕ → Option ℕ)
    (left : ℕ → UInt8) : Except Fault (Option Msg) := do
  check (iovs ≤ maxIovCap)
  check (ctrlBytes ≤ maxCtrlCap)
  match ← l.allocSlot base 56 8 (free 0) with
  | none => .ok none
  | some _ =>
    match ← l.allocArray base iovs 16 8 (free 1) with
    | none => .ok none
    | some iov =>
      match ← l.allocArray base ctrlBytes 1 1 (free 2) with
      | none => .ok none
      | some ctrl => .ok (some
        { iov := iov.map (·, List.replicate iovs none)
          ctrl := ctrl.map (·, (List.range ctrlBytes).map left)
          msgIov := iov
          msgIovlen := 0
          msgControl := ctrl
          msgControllen := 0 })

def iovs (m : Msg) : List (Option Iovec) := (m.iov.map (·.2)).getD []

def ctrlBytes (m : Msg) : List UInt8 := (m.ctrl.map (·.2)).getD []

def iovCapacity (m : Msg) : ℕ := m.iovs.length

def ctrlCapacity (m : Msg) : ℕ := m.ctrlBytes.length

def pushIov (m : Msg) (iov : Iovec) : Bool × Msg :=
  if m.iovCapacity ≤ m.msgIovlen then (false, m)
  else
    match m.iov with
    | none => (false, m)
    | some (addr, slots) =>
      (true, { m with iov := some (addr, slots.set m.msgIovlen (some iov))
                      msgIovlen := m.msgIovlen + 1 })

def pushCmsg (m : Msg) (e : Cmsg) : Except Fault (Bool × Msg) :=
  let space := cmsgSpace e.payload.length
  let used := m.msgControllen
  if m.ctrlCapacity < used + space then .ok (false, m)
  else
    match m.ctrl with
    | none => .ok (false, m)
    | some (addr, bytes) => do
      check (addr % cmsghdrAlign = 0)
      check (used % cmsghdrAlign = 0)
      .ok (true, { m with ctrl := some (addr, overwrite bytes used e.bytes)
                          msgControllen := used + space })

def scmRights (fds : List (BitVec 32)) : Cmsg := ⟨1, 1, fds.flatMap fun fd => toLe 4 fd.toNat⟩

def pushScmRights (m : Msg) (fds : List (BitVec 32)) : Except Fault (Bool × Msg) :=
  m.pushCmsg (scmRights fds)

def clear (m : Msg) : Msg := { m with msgIovlen := 0, msgControllen := 0 }

end Msg

/-- The control messages from the header at `addr` on, in what is left of the control bytes: each
header is aligned and its length is checked, and the next one is `cmsgAlign` of that further on. -/
def walk : ℕ → ℕ → List UInt8 → List Cmsg
  | 0, _, _ => []
  | fuel + 1, addr, rest =>
    let len := ofLe (rest.take 8)
    if addr % cmsghdrAlign = 0 ∧ cmsghdrSize ≤ rest.length ∧ cmsghdrSize ≤ len ∧ len ≤ rest.length then
      ⟨.ofNat 32 (ofLe ((rest.drop 8).take 4)), .ofNat 32 (ofLe ((rest.drop 12).take 4)),
        (rest.take len).drop cmsghdrSize⟩ :: walk fuel (addr + cmsgAlign len) (rest.drop (cmsgAlign len))
    else []

def Msg.cmsgs (m : Msg) : List Cmsg :=
  match m.ctrl with
  | none => []
  | some (addr, bytes) => walk (m.msgControllen + 1) addr (bytes.take m.msgControllen)

theorem length_bytes (e : Cmsg) : e.bytes.length = cmsghdrSize + e.payload.length := by
  simp only [Cmsg.bytes, List.length_append, length_toLe, cmsghdrSize]
  omega

/-- A control message with the padding up to the next header. -/
def Block (e : Cmsg) (bs : List UInt8) : Prop :=
  bs.length = cmsgSpace e.payload.length ∧ bs.take (cmsghdrSize + e.payload.length) = e.bytes

theorem cmsgAlign_bounds (n : ℕ) : n ≤ cmsgAlign n ∧ cmsgAlign n < n + 8 ∧ 8 ∣ cmsgAlign n := by
  have hle := le_roundUp n (by decide : 0 < cmsghdrAlign)
  have hlt := roundUp_lt n (by decide : 0 < cmsghdrAlign)
  exact ⟨hle, hlt, Nat.dvd_mul_left _ _⟩

/-- A word written behind `before` is read back from there. -/
theorem ofLe_take_drop (before rest : List UInt8) {n k v : ℕ} (hn : before.length = n)
    (hv : v < 256 ^ k) : ofLe (((before ++ (toLe k v ++ rest)).drop n).take k) = v := by
  have htake : ((before ++ (toLe k v ++ rest)).drop n).take k = toLe k v := by
    rw [← hn, List.drop_left]
    exact List.take_left' (length_toLe k v)
  rw [htake, ofLe_toLe hv]

/-- The header that a block begins with is read back field by field. -/
theorem Block.header {e : Cmsg} {bs : List UInt8} (h : Block e bs) (rest : List UInt8)
    (hlen : cmsghdrSize + e.payload.length < 256 ^ 8) :
    ofLe ((bs ++ rest).take 8) = cmsghdrSize + e.payload.length ∧
      ofLe (((bs ++ rest).drop 8).take 4) = e.level.toNat ∧
      ofLe (((bs ++ rest).drop 12).take 4) = e.kind.toNat ∧
      ((bs ++ rest).take (cmsghdrSize + e.payload.length)).drop cmsghdrSize = e.payload := by
  have hsplit : bs ++ rest = e.bytes ++ (bs.drop (cmsghdrSize + e.payload.length) ++ rest) := by
    rw [← h.2, ← List.append_assoc, List.take_append_drop]
  have hlevel : e.level.toNat < 256 ^ 4 := e.level.isLt
  have hkind : e.kind.toNat < 256 ^ 4 := e.kind.isLt
  rw [hsplit]
  generalize bs.drop (cmsghdrSize + e.payload.length) ++ rest = tail
  constructor
  · have hread := ofLe_take_drop [] (toLe 4 e.level.toNat ++ (toLe 4 e.kind.toNat ++ e.payload) ++ tail)
      (n := 0) rfl hlen
    simpa only [Cmsg.bytes, List.nil_append, List.drop_zero, List.append_assoc] using hread
  constructor
  · have hread := ofLe_take_drop (toLe 8 (cmsghdrSize + e.payload.length))
      (toLe 4 e.kind.toNat ++ e.payload ++ tail) (length_toLe 8 _) hlevel
    simpa only [Cmsg.bytes, List.append_assoc] using hread
  constructor
  · have hread := ofLe_take_drop (toLe 8 (cmsghdrSize + e.payload.length) ++ toLe 4 e.level.toNat)
      (e.payload ++ tail) (n := 12) (by simp) hkind
    simpa only [Cmsg.bytes, List.append_assoc] using hread
  · rw [← length_bytes, List.take_left, Cmsg.bytes, ← List.append_assoc, ← List.append_assoc]
    exact List.drop_left' (by simp [cmsghdrSize])

private theorem walk_blocks {es : List Cmsg} {blocks : List (List UInt8)} (h : List.Forall₂ Block es blocks)
    (hlen : ∀ e ∈ es, cmsghdrSize + e.payload.length < 256 ^ 8) {addr fuel : ℕ}
    (haddr : es ≠ [] → 8 ∣ addr) (hfuel : es.length < fuel) :
    walk fuel addr blocks.flatten = es := by
  induction h generalizing addr fuel with
  | nil =>
    cases fuel with
    | zero => omega
    | succ fuel => simp [walk, cmsghdrSize]
  | @cons e bs es blocks hb _ ih =>
    cases fuel with
    | zero => omega
    | succ fuel =>
      obtain ⟨hword, hlevel, hkind, hpayload⟩ := hb.header blocks.flatten (hlen e List.mem_cons_self)
      obtain ⟨hle, -, hdvd⟩ := cmsgAlign_bounds (cmsghdrSize + e.payload.length)
      have hspace : bs.length = cmsgAlign (cmsghdrSize + e.payload.length) := hb.1
      have haligned := haddr (List.cons_ne_nil e es)
      have hzero : addr % cmsghdrAlign = 0 := Nat.mod_eq_zero_of_dvd haligned
      have hrest : walk fuel (addr + cmsgAlign (cmsghdrSize + e.payload.length)) blocks.flatten = es := by
        apply ih (fun e he => hlen e (List.mem_cons_of_mem _ he)) fun _ => dvd_add haligned hdvd
        simpa using hfuel
      rw [List.flatten_cons, walk, hword, hlevel, hkind, hpayload]
      rw [if_pos ⟨hzero, by rw [List.length_append]; omega, by omega, by rw [List.length_append]; omega⟩]
      rw [← hspace, List.drop_left, hspace, hrest, BitVec.ofNat_toNat, BitVec.ofNat_toNat]
      simp

inductive Move
  | pushIov (iov : Iovec)
  | pushCmsg (e : Cmsg)
  | pushScmRights (fds : List (BitVec 32))
  | clear

def Move.apply (m : Msg) : Move → Except Fault (Bool × Msg)
  | .pushIov iov => .ok (m.pushIov iov)
  | .pushCmsg e => m.pushCmsg e
  | .pushScmRights fds => m.pushScmRights fds
  | .clear => .ok (true, m.clear)

/-- A message, and what was pushed since it was last empty. -/
structure Draft where
  msg : Msg
  iovs : List Iovec
  cmsgs : List Cmsg

namespace Draft

def push (d : Draft) (msg : Msg) : Move → Draft
  | .pushIov iov => ⟨msg, d.iovs ++ [iov], d.cmsgs⟩
  | .pushCmsg e => ⟨msg, d.iovs, d.cmsgs ++ [e]⟩
  | .pushScmRights fds => ⟨msg, d.iovs, d.cmsgs ++ [Msg.scmRights fds]⟩
  | .clear => ⟨msg, [], []⟩

/-- `none` when an assertion fires. -/
def step (d : Draft) (mv : Move) : Option Draft :=
  match mv.apply d.msg with
  | .ok (true, msg) => some (d.push msg mv)
  | .ok (false, msg) => some { d with msg := msg }
  | .error _ => none

/-- The control bytes the pushed entries take. -/
def space (d : Draft) : ℕ := (d.cmsgs.map fun e => cmsgSpace e.payload.length).sum

/-- Whether the declared capacities hold what was pushed and one entry more. -/
def Room (d : Draft) (iovs ctrlBytes : ℕ) : Move → Prop
  | .pushIov _ => d.iovs.length + 1 ≤ iovs
  | .pushCmsg e => d.space + cmsgSpace e.payload.length ≤ ctrlBytes
  | .pushScmRights fds => d.space + cmsgSpace (4 * fds.length) ≤ ctrlBytes
  | .clear => True

/-- What a message of these capacities owes its caller. -/
structure Exact (iovs ctrlBytes : ℕ) (d : Draft) : Prop where
  pushes : ∀ mv : Move, ∃ ok msg, mv.apply d.msg = .ok (ok, msg) ∧ (ok = true ↔ d.Room iovs ctrlBytes mv) ∧
    (ok = false → msg = d.msg)
  iovlen : d.msg.msgIovlen ≤ iovs
  controllen : d.msg.msgControllen ≤ ctrlBytes
  entries : d.msg.iovs.take d.msg.msgIovlen = d.iovs.map some
  walked : d.msg.cmsgs = d.cmsgs

/-- What every move keeps. -/
structure Packed (iovs ctrlBytes : ℕ) (d : Draft) : Prop where
  iovCapacity : d.msg.iovCapacity = iovs
  ctrlCapacity : d.msg.ctrlCapacity = ctrlBytes
  aligned : ∀ addr bytes, d.msg.ctrl = some (addr, bytes) → cmsghdrSize ≤ bytes.length → 8 ∣ addr
  iovlen : d.msg.msgIovlen = d.iovs.length ∧ d.iovs.length ≤ iovs
  entries : d.msg.iovs.take d.iovs.length = d.iovs.map some
  controllen : d.msg.msgControllen = d.space ∧ d.space ≤ ctrlBytes
  blocks : ∃ blocks, List.Forall₂ Block d.cmsgs blocks ∧
    d.msg.ctrlBytes.take d.space = blocks.flatten

variable {d : Draft} {iovs ctrlBytes : ℕ}

@[simp] theorem length_scmRights (fds : List (BitVec 32)) :
    (Msg.scmRights fds).payload.length = 4 * fds.length := by
  simp [Msg.scmRights, List.length_flatMap, Nat.mul_comm]

private theorem dvd_space (d : Draft) : 8 ∣ d.space := by
  apply List.dvd_sum
  intro n hn
  obtain ⟨e, -, rfl⟩ := List.mem_map.mp hn
  exact (cmsgAlign_bounds _).2.2

private theorem cmsgSpace_le_space {e : Cmsg} (he : e ∈ d.cmsgs) : cmsgSpace e.payload.length ≤ d.space :=
  List.single_le_sum (fun _ _ => Nat.zero_le _) _ (List.mem_map_of_mem he)

theorem length_le_space (d : Draft) : d.cmsgs.length ≤ d.space := by
  rw [← List.length_map (f := fun e : Cmsg => cmsgSpace e.payload.length)]
  apply List.length_le_sum_of_one_le
  intro n hn
  obtain ⟨e, -, rfl⟩ := List.mem_map.mp hn
  have hle := (cmsgAlign_bounds (cmsghdrSize + e.payload.length)).1
  rw [← cmsgSpace, cmsghdrSize] at hle
  omega

theorem space_concat (d : Draft) (m : Msg) (e : Cmsg) :
    (d.push m (.pushCmsg e)).space = d.space + cmsgSpace e.payload.length := by
  simp [push, space]

/-- Either the capacity is used up and nothing changes, or the entry is appended. -/
theorem Packed.pushIov (h : d.Packed iovs ctrlBytes) (iov : Iovec) :
    (iovs < d.iovs.length + 1 ∧ d.msg.pushIov iov = (false, d.msg)) ∨
      (d.iovs.length + 1 ≤ iovs ∧ ∃ m, d.msg.pushIov iov = (true, m) ∧
        (d.push m (.pushIov iov)).Packed iovs ctrlBytes) := by
  have hcap := h.iovCapacity
  have hlen := h.iovlen
  rcases Nat.lt_or_ge iovs (d.iovs.length + 1) with hfull | hroom
  · left
    refine ⟨hfull, ?_⟩
    rw [Msg.pushIov, if_pos (by omega)]
  · right
    refine ⟨hroom, ?_⟩
    rw [Msg.pushIov, if_neg (by omega)]
    have hentries := h.entries
    rw [Msg.iovCapacity, Msg.iovs] at hcap
    rw [Msg.iovs] at hentries
    cases hiov : d.msg.iov with
    | none =>
      rw [hiov] at hcap
      simp at hcap
      omega
    | some p =>
      obtain ⟨addr, slots⟩ := p
      simp only [hiov, Option.map_some, Option.getD_some] at hcap hentries
      refine ⟨_, rfl, ?_⟩
      constructor
      case iovCapacity => simpa [push, Msg.iovCapacity, Msg.iovs] using hcap
      case ctrlCapacity => exact h.ctrlCapacity
      case aligned => exact h.aligned
      case iovlen => simpa [push, hlen.1] using hroom
      case entries =>
        simp only [push, Msg.iovs, Option.map_some, Option.getD_some, List.length_append,
          List.length_singleton, List.map_append, List.map_cons, List.map_nil, hlen.1]
        have hlt : d.iovs.length < slots.length := by omega
        rw [List.take_add_one, List.take_set_of_le le_rfl, hentries]
        simp [hlt]
      case controllen => exact h.controllen
      case blocks => exact h.blocks

private theorem take_overwrite {α : Type} {bs new : List α} {i k : ℕ} (hi : i + new.length ≤ k)
    (hk : k ≤ bs.length) : (overwrite bs i new).take k =
      bs.take i ++ (new ++ (bs.drop (i + new.length)).take (k - (i + new.length))) := by
  have hlen : (bs.take i ++ new).length = i + new.length := by
    rw [List.length_append, List.length_take]
    omega
  rw [overwrite, List.take_append, hlen, List.take_of_length_le (by omega), List.append_assoc]

private theorem length_overwrite {α : Type} {bs new : List α} {i : ℕ} (hi : i + new.length ≤ bs.length) :
    (overwrite bs i new).length = bs.length := by
  simp only [overwrite, List.length_append, List.length_take, List.length_drop]
  omega

theorem Packed.pushCmsg (h : d.Packed iovs ctrlBytes) (e : Cmsg) :
    (ctrlBytes < d.space + cmsgSpace e.payload.length ∧ d.msg.pushCmsg e = .ok (false, d.msg)) ∨
      (d.space + cmsgSpace e.payload.length ≤ ctrlBytes ∧ ∃ m, d.msg.pushCmsg e = .ok (true, m) ∧
        (d.push m (.pushCmsg e)).Packed iovs ctrlBytes) := by
  have hcap := h.ctrlCapacity
  have hused := h.controllen
  rcases Nat.lt_or_ge ctrlBytes (d.space + cmsgSpace e.payload.length) with hfull | hroom
  · left
    refine ⟨hfull, ?_⟩
    rw [Msg.pushCmsg, if_pos (by omega)]
  · right
    refine ⟨hroom, ?_⟩
    rw [Msg.pushCmsg, if_neg (by omega)]
    obtain ⟨hle, -, -⟩ := cmsgAlign_bounds (cmsghdrSize + e.payload.length)
    rw [← cmsgSpace] at hle
    rw [Msg.ctrlCapacity, Msg.ctrlBytes] at hcap
    obtain ⟨blocks, hall, htake⟩ := h.blocks
    rw [Msg.ctrlBytes] at htake
    cases hctrl : d.msg.ctrl with
    | none =>
      rw [hctrl] at hcap
      simp [cmsghdrSize] at hcap hle
      omega
    | some p =>
      obtain ⟨addr, bytes⟩ := p
      simp only [hctrl, Option.map_some, Option.getD_some] at hcap htake
      have haddr := Nat.mod_eq_zero_of_dvd (h.aligned addr bytes hctrl (by omega))
      have hspace := Nat.mod_eq_zero_of_dvd d.dvd_space
      have hsize := length_bytes e
      have hlen : (overwrite bytes d.space e.bytes).length = bytes.length :=
        length_overwrite (by omega)
      simp only [cmsghdrAlign, check, hused.1, haddr, hspace, if_true, bind, Except.bind]
      refine ⟨_, rfl, ?_⟩
      constructor
      case iovCapacity => exact h.iovCapacity
      case ctrlCapacity =>
        simpa only [push, Msg.ctrlCapacity, Msg.ctrlBytes, Option.map_some, Option.getD_some, hlen] using hcap
      case aligned =>
        intro a b hab hb
        simp only [push, Option.some.injEq, Prod.mk.injEq] at hab
        obtain ⟨rfl, rfl⟩ := hab
        exact h.aligned addr bytes hctrl (by omega)
      case iovlen => exact h.iovlen
      case entries => exact h.entries
      case controllen =>
        rw [space_concat]
        exact ⟨rfl, hroom⟩
      case blocks =>
        refine ⟨blocks ++ [e.bytes ++ (bytes.drop (d.space + e.bytes.length)).take
          (d.space + cmsgSpace e.payload.length - (d.space + e.bytes.length))], ?_, ?_⟩
        · apply List.rel_append hall
          apply List.Forall₂.cons _ .nil
          constructor
          · rw [List.length_append, List.length_take, List.length_drop]
            omega
          · exact List.take_left' hsize
        · rw [space_concat]
          simp only [push, Msg.ctrlBytes, Option.map_some, Option.getD_some]
          rw [take_overwrite (by omega) (by omega), htake]
          simp

/-- A move that finds no room changes nothing, and any other keeps the message packed. -/
theorem Packed.apply (h : d.Packed iovs ctrlBytes) (mv : Move) :
    (¬ d.Room iovs ctrlBytes mv ∧ mv.apply d.msg = .ok (false, d.msg)) ∨
      (d.Room iovs ctrlBytes mv ∧ ∃ m, mv.apply d.msg = .ok (true, m) ∧
        (d.push m mv).Packed iovs ctrlBytes) := by
  cases mv with
  | pushIov iov =>
    rcases h.pushIov iov with ⟨hfull, hm⟩ | ⟨hroom, m, hm, hp⟩
    · exact .inl ⟨Nat.not_le_of_lt hfull, congrArg Except.ok hm⟩
    · exact .inr ⟨hroom, m, congrArg Except.ok hm, hp⟩
  | pushCmsg e =>
    rcases h.pushCmsg e with ⟨hfull, hm⟩ | hroom
    · exact .inl ⟨Nat.not_le_of_lt hfull, hm⟩
    · exact .inr hroom
  | pushScmRights fds =>
    have hpush := h.pushCmsg (Msg.scmRights fds)
    rw [length_scmRights] at hpush
    rcases hpush with ⟨hfull, hm⟩ | hroom
    · exact .inl ⟨Nat.not_le_of_lt hfull, hm⟩
    · exact .inr hroom
  | clear =>
    refine .inr ⟨trivial, _, rfl, ?_⟩
    constructor
    case iovCapacity => exact h.iovCapacity
    case ctrlCapacity => exact h.ctrlCapacity
    case aligned => exact h.aligned
    case iovlen => exact ⟨rfl, Nat.zero_le _⟩
    case entries => rfl
    case controllen => exact ⟨rfl, Nat.zero_le _⟩
    case blocks => exact ⟨[], .nil, rfl⟩

theorem Packed.step (h : d.Packed iovs ctrlBytes) {mv : Move} {d' : Draft}
    (hs : d.step mv = some d') : d'.Packed iovs ctrlBytes := by
  rw [Draft.step] at hs
  rcases h.apply mv with ⟨-, hm⟩ | ⟨-, m, hm, hp⟩
  · rw [hm] at hs
    exact Option.some.inj hs ▸ h
  · rw [hm] at hs
    exact Option.some.inj hs ▸ hp

/-- The walk over the control bytes finds the blocks. -/
theorem Packed.walked (h : d.Packed iovs ctrlBytes) (hmax : ctrlBytes ≤ maxCtrlCap) :
    d.msg.cmsgs = d.cmsgs := by
  have hcap := h.ctrlCapacity
  obtain ⟨hused, hspace⟩ := h.controllen
  obtain ⟨blocks, hall, htake⟩ := h.blocks
  have hheader : ∀ e ∈ d.cmsgs, cmsghdrSize + e.payload.length ≤ ctrlBytes := by
    intro e he
    have hle := (cmsgAlign_bounds (cmsghdrSize + e.payload.length)).1
    exact (hle.trans (cmsgSpace_le_space he)).trans hspace
  rw [Msg.ctrlCapacity, Msg.ctrlBytes] at hcap
  rw [Msg.ctrlBytes] at htake
  rw [Msg.cmsgs]
  cases hctrl : d.msg.ctrl with
  | none =>
    have hzero : ctrlBytes = 0 := by simpa [hctrl] using hcap.symm
    have hlen := d.length_le_space
    exact (List.length_eq_zero_iff.mp (by omega)).symm
  | some p =>
    obtain ⟨addr, bytes⟩ := p
    simp only [hctrl, Option.map_some, Option.getD_some] at hcap htake ⊢
    rw [hused, htake]
    apply walk_blocks hall
    · intro e he
      have hle := (hheader e he).trans hmax
      apply hle.trans_lt
      decide
    · intro hne
      obtain ⟨e, he⟩ := List.exists_mem_of_ne_nil _ hne
      have hle := hheader e he
      exact h.aligned addr bytes hctrl (by omega)
    · exact Nat.lt_succ_of_le d.length_le_space

theorem Packed.exact (h : d.Packed iovs ctrlBytes) (hmax : ctrlBytes ≤ maxCtrlCap) :
    d.Exact iovs ctrlBytes := by
  constructor
  case pushes =>
    intro mv
    rcases h.apply mv with ⟨hfull, hm⟩ | ⟨hroom, m, hm, -⟩
    · exact ⟨false, d.msg, hm, by simp [hfull], fun _ => rfl⟩
    · exact ⟨true, m, hm, by simp [hroom], by simp⟩
  case iovlen => exact h.iovlen.1 ▸ h.iovlen.2
  case controllen => exact h.controllen.1 ▸ h.controllen.2
  case entries =>
    rw [h.iovlen.1]
    exact h.entries
  case walked => exact h.walked hmax

end Draft

section allocated

variable {l : SlabLayout} {spec : Bool → List SizeClass} {base : ℕ}

/-- A message that has just been allocated is empty, and its control buffer is aligned for a header
once it can hold one. -/
theorem withCapacity_packed (hl : l.Laid spec) (hbase : l.align ∣ base) {iovs ctrlBytes : ℕ}
    (hiovs : iovs ≤ maxIovCap) (hctrl : ctrlBytes ≤ maxCtrlCap) (free : Fin 3 → ℕ → Option ℕ)
    (left : ℕ → UInt8) :
    ∃ r, Msg.withCapacity l base iovs ctrlBytes free left = .ok r ∧
      ∀ m, r = some m → Draft.Packed iovs ctrlBytes ⟨m, [], []⟩ := by
  have hmsg : (8 : ℕ) ≤ min 56 bufferMaxAlign := by decide
  have hiovec : (8 : ℕ) ≤ min 16 bufferMaxAlign := by decide
  have hbyte : (1 : ℕ) ≤ min 1 bufferMaxAlign := by decide
  obtain ⟨o, ho, -⟩ := allocSlot_ok hl hbase ⟨3, rfl⟩ hmsg (free 0)
  obtain ⟨i, hi, hiov⟩ := allocArray_ok hl hbase ⟨3, rfl⟩ hiovec (free 1)
  obtain ⟨c, hc, hcb⟩ := allocArray_ok hl hbase ⟨0, rfl⟩ hbyte (free 2)
  rw [Msg.withCapacity]
  simp only [check, if_pos hiovs, if_pos hctrl, bind, Except.bind, ho]
  cases o with
  | none => exact ⟨none, rfl, by simp⟩
  | some _ =>
    dsimp only
    rw [hi]
    cases i with
    | none => exact ⟨none, rfl, by simp⟩
    | some iov =>
      dsimp only
      rw [hc]
      cases c with
      | none => exact ⟨none, rfl, by simp⟩
      | some ctrl =>
        refine ⟨_, rfl, ?_⟩
        intro m hm
        obtain rfl := Option.some.inj hm
        obtain ⟨hinone, -⟩ := hiov iov rfl
        obtain ⟨hcnone, haddr⟩ := hcb ctrl rfl
        constructor
        case iovCapacity =>
          cases iov with
          | none => exact (hinone.mp rfl).symm
          | some addr => simp [Msg.iovCapacity, Msg.iovs]
        case ctrlCapacity =>
          cases ctrl with
          | none => exact (hcnone.mp rfl).symm
          | some addr => simp [Msg.ctrlCapacity, Msg.ctrlBytes]
        case aligned =>
          intro addr bytes hmap hlen
          obtain ⟨a, rfl, hpair⟩ := Option.map_eq_some_iff.mp hmap
          obtain ⟨rfl, rfl⟩ := Prod.mk.inj hpair
          rw [List.length_map, List.length_range, cmsghdrSize] at hlen
          apply haddr _ rfl 8 ⟨3, rfl⟩
          rw [bufferMaxAlign]
          omega
        case iovlen => exact ⟨rfl, Nat.zero_le _⟩
        case entries => rfl
        case controllen => exact ⟨rfl, Nat.zero_le _⟩
        case blocks => exact ⟨[], .nil, rfl⟩

end allocated

/-- Messages of any capacities within the limits are exact after every sequence of moves. -/
theorem run_exact {ps fs : List SizeClass} {l : SlabLayout} {base iovs ctrlBytes : ℕ}
    (hl : layoutSlab ps fs = some l) (hbase : l.align ∣ base) (hiovs : iovs ≤ maxIovCap)
    (hctrl : ctrlBytes ≤ maxCtrlCap) (free : Fin 3 → ℕ → Option ℕ) (left : ℕ → UInt8) :
    ∃ r, Msg.withCapacity l base iovs ctrlBytes free left = .ok r ∧
      ∀ m, r = some m → ∀ d, Reaches Draft.step (fun _ _ => True) ⟨m, [], []⟩ d →
        d.Exact iovs ctrlBytes := by
  obtain ⟨r, hr, hpacked⟩ := withCapacity_packed (layoutSlab_laid hl) hbase hiovs hctrl free left
  refine ⟨r, hr, ?_⟩
  intro m hm d hd
  have hinv := hd.invariant (hpacked m hm) fun s mv t hs _ hst => hs.step hst
  exact hinv.exact hctrl

/-- Two control messages of unequal lengths, and a third that finds no room. -/
theorem run_exact_two : ∃ l m d, layoutSlab [⟨64, 1⟩] [⟨64, 3⟩] = some l ∧
    Msg.withCapacity l 4096 1 64 (fun i _ => some i) (fun _ => 7) = .ok (some m) ∧
    run Draft.step ⟨m, [], []⟩ [.pushIov ⟨0, 5⟩, .pushScmRights [3],
      .pushCmsg ⟨1, 2, [1, 2, 3, 4, 5, 6, 7, 8, 9]⟩, .pushCmsg ⟨1, 2, []⟩] = some d ∧
    d.msg.msgControllen = 56 ∧ d.Exact 1 64 := by
  have hl : layoutSlab [⟨64, 1⟩] [⟨64, 3⟩] =
      some ⟨[⟨64, 1, 0, 64⟩], [⟨64, 3, 0, 192⟩], 64, 64, 256⟩ := by decide +kernel
  have hrun : ((Msg.withCapacity ⟨[⟨64, 1, 0, 64⟩], [⟨64, 3, 0, 192⟩], 64, 64, 256⟩ 4096 1 64
      (fun i _ => some i) fun _ => 7).toOption.join.any fun m =>
        (run Draft.step ⟨m, [], []⟩ [.pushIov ⟨0, 5⟩, .pushScmRights [3],
          .pushCmsg ⟨1, 2, [1, 2, 3, 4, 5, 6, 7, 8, 9]⟩, .pushCmsg ⟨1, 2, []⟩]).any
            fun d : Draft => d.msg.msgControllen = 56) = true := by decide +kernel
  obtain ⟨m, hm, hrun⟩ := (Option.any_eq_true _ _).mp hrun
  obtain ⟨d, hd, hlen⟩ := (Option.any_eq_true _ _).mp hrun
  have hbase : 64 ∣ 4096 := by decide
  have hiovs : 1 ≤ maxIovCap := by decide
  have hctrl : 64 ≤ maxCtrlCap := by decide
  obtain ⟨r, hr, hexact⟩ := run_exact hl hbase hiovs hctrl (fun i _ => some i) (fun _ => 7)
  rw [hr] at hm
  obtain rfl : r = some m := Option.join_eq_some_iff.mp hm |> Option.some.inj
  refine ⟨_, m, d, hl, hr, hd, of_decide_eq_true hlen, ?_⟩
  exact hexact m rfl d (reaches_of_run (meets_of_forall fun _ _ => trivial) hd)

end Conrt.Buf
