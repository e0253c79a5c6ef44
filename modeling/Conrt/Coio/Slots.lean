import Mathlib.Data.Nat.Bitwise
import Conrt.Coio.Arena

/-! Op and cancel slots. Free, live and cancel-pending are told apart by one id word. -/
namespace Conrt.Coio

def cancelPending : ℕ := 1 <<< 62

def maxOpId : ℕ := cancelPending

/-- The op id carried in `id`: all 64 bits but the flag. -/
def idBits (id : ℕ) : ℕ := id &&& (2 ^ 64 - 1 - cancelPending)

def isFree (id : ℕ) : Bool := id == 0

def isCancelPending (id : ℕ) : Bool := id &&& cancelPending != 0

/-- Op ids start at one. -/
abbrev NonZeroU64 := { n : ℕ // n ≠ 0 }

def idAfter (n : ℕ) : NonZeroU64 := ⟨n + 1, Nat.succ_ne_zero n⟩

structure Op where
  slot : ℕ
  cls : ℕ
  id : NonZeroU64
deriving DecidableEq

/-- End of a free stack. -/
def freeNone : ℕ := 2 ^ 32 - 1

/-- Function pointers are opaque words. -/
inductive SlotBody
  | live (shim done : ℕ)
  | free (next : ℕ)
deriving DecidableEq

/-- `loc` is the caller's local, `none` while uninitialized. -/
structure IoSlot (L : Type) where
  id : ℕ
  loc : Option L
  buf : ℕ
  bufLen : ℕ
  body : SlotBody
deriving DecidableEq

namespace IoSlot

variable {L : Type}

def initFree (next : ℕ) : IoSlot L := ⟨0, none, bufNone, 0, .free next⟩

def claim (slot : IoSlot L) (id : NonZeroU64) (shim done : ℕ) (loc : L) (buf bufLen : ℕ) :
    Except Panic (IoSlot L) :=
  if isFree slot.id ∧ (buf ≠ bufNone ∨ bufLen = 0) then
    .ok ⟨id, some loc, buf, bufLen, .live shim done⟩
  else .error .assertion

def takeLocal (slot : IoSlot L) : Except Panic (L × IoSlot L) :=
  if isFree slot.id then .error .assertion
  else
    match slot.loc with
    | some loc => .ok (loc, { slot with loc := none })
    | none => .error .uninit

def pushFree (slot : IoSlot L) (head : ℕ) : Except Panic (IoSlot L) :=
  if isFree slot.id ∨ slot.buf ≠ bufNone then .error .assertion
  else .ok { slot with id := 0, buf := bufNone, bufLen := 0, body := .free head }

def takeBufRun (slot : IoSlot L) : Option (ℕ × ℕ) × IoSlot L :=
  (if slot.buf ≠ bufNone then some (slot.buf, slot.bufLen) else none,
    { slot with buf := bufNone, bufLen := 0 })

def freeNext (slot : IoSlot L) : Except Panic ℕ :=
  if isFree slot.id then
    match slot.body with
    | .free next => .ok next
    | .live _ _ => .error .uninit
  else .error .assertion

end IoSlot

inductive CancelBody
  | live (done : ℕ)
  | free (next : ℕ)
deriving DecidableEq

/-- The local carries the number of the `cancel` call that passed it, so that it can be told apart
from equal ones. -/
structure CancelSlot (L : Type) where
  id : ℕ
  target : ℕ
  targetId : NonZeroU64
  loc : Option (ℕ × L)
  body : CancelBody
deriving DecidableEq

namespace CancelSlot

variable {L : Type}

def initFree (next : ℕ) : CancelSlot L := ⟨0, 0, ⟨1, Nat.one_ne_zero⟩, none, .free next⟩

def claim (slot : CancelSlot L) (id : NonZeroU64) (target : ℕ) (targetId : NonZeroU64) (done : ℕ)
    (loc : ℕ × L) : Except Panic (CancelSlot L) :=
  if isFree slot.id then .ok ⟨id, target, targetId, some loc, .live done⟩ else .error .assertion

def takeLocal (slot : CancelSlot L) : Except Panic ((ℕ × L) × CancelSlot L) :=
  if isFree slot.id then .error .assertion
  else
    match slot.loc with
    | some loc => .ok (loc, { slot with loc := none })
    | none => .error .uninit

def pushFree (slot : CancelSlot L) (head : ℕ) : Except Panic (CancelSlot L) :=
  if isFree slot.id then .error .assertion
  else .ok { slot with id := 0, body := .free head }

def freeNext (slot : CancelSlot L) : Except Panic ℕ :=
  if isFree slot.id then
    match slot.body with
    | .free next => .ok next
    | .live _ => .error .uninit
  else .error .assertion

end CancelSlot

section

variable {L : Type} {slot : IoSlot L} {cslot : CancelSlot L}

theorem IoSlot.freeNext_ne : slot.freeNext ≠ .error .arena := by
  unfold freeNext
  split_ifs
  · cases slot.body <;> simp
  · simp

theorem IoSlot.takeLocal_ne : slot.takeLocal ≠ .error .arena := by
  unfold takeLocal
  split_ifs
  · simp
  · cases slot.loc <;> simp

theorem IoSlot.takeLocal_eq {taken : L × IoSlot L} (h : slot.takeLocal = .ok taken) :
    slot.loc = some taken.1 ∧ taken.2 = { slot with loc := none } := by
  unfold takeLocal at h
  split_ifs at h
  cases hl : slot.loc with
  | none => simp [hl] at h
  | some l =>
    simp only [hl, Except.ok.injEq] at h
    exact h ▸ ⟨rfl, rfl⟩

theorem IoSlot.pushFree_eq {head : ℕ} {slot' : IoSlot L} (h : slot.pushFree head = .ok slot') :
    slot'.id = 0 := by
  unfold pushFree at h
  split_ifs at h
  exact Except.ok.inj h ▸ rfl

theorem IoSlot.pushFree_ne {head : ℕ} : slot.pushFree head ≠ .error .arena := by
  unfold pushFree
  split_ifs <;> simp

theorem IoSlot.claim_eq {id : NonZeroU64} {shim done buf bufLen : ℕ} {loc : L} {slot' : IoSlot L}
    (h : slot.claim id shim done loc buf bufLen = .ok slot') :
    isFree slot.id ∧ (buf ≠ bufNone ∨ bufLen = 0) ∧
      slot' = ⟨id, some loc, buf, bufLen, .live shim done⟩ := by
  unfold claim at h
  split_ifs at h with hc
  exact ⟨hc.1, hc.2, (Except.ok.inj h).symm⟩

theorem IoSlot.claim_ne {id : NonZeroU64} {shim done buf bufLen : ℕ} {loc : L} :
    slot.claim id shim done loc buf bufLen ≠ .error .arena := by
  unfold claim
  split_ifs <;> simp

theorem CancelSlot.freeNext_ne : cslot.freeNext ≠ .error .arena := by
  unfold freeNext
  split_ifs
  · cases cslot.body <;> simp
  · simp

theorem CancelSlot.takeLocal_eq {taken : (ℕ × L) × CancelSlot L}
    (h : cslot.takeLocal = .ok taken) :
    cslot.loc = some taken.1 ∧ taken.2 = { cslot with loc := none } := by
  unfold takeLocal at h
  split_ifs at h
  cases hl : cslot.loc with
  | none => simp [hl] at h
  | some l =>
    simp only [hl, Except.ok.injEq] at h
    exact h ▸ ⟨rfl, rfl⟩

theorem CancelSlot.takeLocal_ne : cslot.takeLocal ≠ .error .arena := by
  unfold takeLocal
  split_ifs
  · simp
  · cases cslot.loc <;> simp

theorem CancelSlot.pushFree_eq {head : ℕ} {slot' : CancelSlot L}
    (h : cslot.pushFree head = .ok slot') : slot'.id = 0 := by
  unfold pushFree at h
  split_ifs at h
  exact Except.ok.inj h ▸ rfl

theorem CancelSlot.pushFree_ne {head : ℕ} : cslot.pushFree head ≠ .error .arena := by
  unfold pushFree
  split_ifs <;> simp

theorem CancelSlot.claim_eq {id targetId : NonZeroU64} {target done : ℕ} {loc : ℕ × L}
    {slot' : CancelSlot L} (h : cslot.claim id target targetId done loc = .ok slot') :
    isFree cslot.id ∧ slot' = ⟨id, target, targetId, some loc, .live done⟩ := by
  unfold claim at h
  split_ifs at h with hc
  exact ⟨hc, (Except.ok.inj h).symm⟩

theorem CancelSlot.claim_ne {id targetId : NonZeroU64} {target done : ℕ} {loc : ℕ × L} :
    cslot.claim id target targetId done loc ≠ .error .arena := by
  unfold claim
  split_ifs <;> simp

end

private theorem idBits_testBit (id k : ℕ) :
    (idBits id).testBit k = (id.testBit k && decide (k < 64) && decide (k ≠ 62)) := by
  have hmask : (2 ^ 64 - 1 - cancelPending).testBit k = (decide (k < 64) && decide (k ≠ 62)) := by
    by_cases hk : k < 64
    · have hall : ∀ j < 64, (2 ^ 64 - 1 - cancelPending).testBit j =
          (decide (j < 64) && decide (j ≠ 62)) := by decide
      exact hall k hk
    · have hlt : 2 ^ 64 - 1 - cancelPending < 2 ^ k :=
        lt_of_lt_of_le (by decide : 2 ^ 64 - 1 - cancelPending < 2 ^ 64)
          (Nat.pow_le_pow_right (by norm_num) (not_lt.mp hk))
      rw [Nat.testBit_lt_two_pow hlt, decide_eq_false hk, Bool.false_and]
  rw [idBits, Nat.testBit_and, hmask, Bool.and_assoc]

private theorem cancelPending_testBit (k : ℕ) : cancelPending.testBit k = decide (k = 62) := by
  rw [cancelPending, Nat.shiftLeft_eq, one_mul, Nat.testBit_two_pow]
  exact decide_eq_decide.mpr eq_comm

theorem isCancelPending_eq (id : ℕ) : isCancelPending id = id.testBit 62 := by
  rw [isCancelPending, cancelPending, Nat.shiftLeft_eq, one_mul, Nat.and_two_pow]
  cases id.testBit 62 <;> simp

/-- An id the counter hands out carries no flag. -/
theorem idBits_of_lt {id : ℕ} (h : id < maxOpId) : idBits id = id := by
  have hlt : id < 2 ^ 62 := h
  apply Nat.eq_of_testBit_eq
  intro k
  rw [idBits_testBit]
  by_cases hk : k < 62
  · simp [hk.ne, hk.trans (by norm_num : 62 < 64)]
  · have h0 : id.testBit k = false := Nat.testBit_lt_two_pow
      (lt_of_lt_of_le hlt (Nat.pow_le_pow_right (by norm_num) (not_lt.mp hk)))
    simp [h0]

theorem isCancelPending_of_lt {id : ℕ} (h : id < maxOpId) : isCancelPending id = false := by
  rw [isCancelPending_eq]
  exact Nat.testBit_lt_two_pow h

@[simp] theorem idBits_or (id : ℕ) : idBits (id ||| cancelPending) = idBits id := by
  apply Nat.eq_of_testBit_eq
  intro k
  rw [idBits_testBit, idBits_testBit, Nat.testBit_or, cancelPending_testBit]
  by_cases hk : k = 62 <;> simp [hk]

@[simp] theorem isCancelPending_or (id : ℕ) : isCancelPending (id ||| cancelPending) = true := by
  rw [isCancelPending_eq, Nat.testBit_or, cancelPending_testBit]
  simp

@[simp] theorem isFree_or (id : ℕ) : isFree (id ||| cancelPending) = false := by
  have hp := isCancelPending_or id
  rw [isFree, beq_eq_false_iff_ne]
  intro h0
  rw [h0] at hp
  exact absurd hp (by decide)

@[simp] theorem idBits_idBits (id : ℕ) : idBits (idBits id) = idBits id := by
  apply Nat.eq_of_testBit_eq
  intro k
  rw [idBits_testBit, idBits_testBit]
  cases id.testBit k <;> cases decide (k < 64) <;> simp

@[simp] theorem isCancelPending_idBits (id : ℕ) : isCancelPending (idBits id) = false := by
  rw [isCancelPending_eq, idBits_testBit]
  simp

end Conrt.Coio
