import Mathlib.Data.List.Basic
import Mathlib.Tactic

/-! Per-slot borrow counts shared by the fixed and provided slabs. A failed assertion, an index
past the table and an overflow of the `i32` count are `none`. -/
namespace Conrt.Buf

/-- `0` is free, a positive count is shared views, a negative one exclusive views. -/
structure BorrowTracker where
  borrows : List ℤ
deriving DecidableEq, Repr

namespace BorrowTracker

def new (count : ℕ) : BorrowTracker := ⟨List.replicate count 0⟩

/-- `i32` arithmetic with the overflow check of the repository's builds. -/
def checked (b : ℤ) : Option ℤ := if -2 ^ 31 ≤ b ∧ b < 2 ^ 31 then some b else none

/-- Every transition reads one count, asserts on it and writes one count. -/
def update (t : BorrowTracker) (loc : ℕ) (f : ℤ → Option ℤ) : Option BorrowTracker := do
  let borrow ← t.borrows[loc]?
  let borrow' ← f borrow
  some ⟨t.borrows.set loc borrow'⟩

def takeShared (t : BorrowTracker) (loc : ℕ) : Option BorrowTracker :=
  t.update loc fun b => if b = 0 then some 1 else none

def takeExclusive (t : BorrowTracker) (loc : ℕ) : Option BorrowTracker :=
  t.update loc fun b => if b = 0 then some (-1) else none

def cloneShared (t : BorrowTracker) (loc : ℕ) : Option BorrowTracker :=
  t.update loc fun b => if 0 < b then checked (b + 1) else none

def splitExclusive (t : BorrowTracker) (loc : ℕ) : Option BorrowTracker :=
  t.update loc fun b => if b < 0 then checked (b - 1) else none

def upgrade (t : BorrowTracker) (loc : ℕ) : Option BorrowTracker :=
  t.update loc fun b => if b = 1 then some (-1) else none

def downgrade (t : BorrowTracker) (loc : ℕ) : Option BorrowTracker :=
  t.update loc fun b => if b = -1 then some 1 else none

/-- The count one release leaves: the kind of the release must match its sign. -/
def released (exclusive : Bool) (b : ℤ) : Option ℤ :=
  if exclusive then if b < 0 then some (b + 1) else none
  else if 0 < b then some (b - 1) else none

/-- Releases one borrower; the flag says whether the slot is fully free again. -/
def dropView (t : BorrowTracker) (exclusive : Bool) (loc : ℕ) : Option (BorrowTracker × Bool) := do
  let t' ← t.update loc (released exclusive)
  let borrow ← t'.borrows[loc]?
  some (t', borrow = 0)

theorem released_true {b b' : ℤ} (h : released true b = some b') : b < 0 ∧ b' = b + 1 := by
  rw [released, if_pos rfl] at h
  split_ifs at h with hb
  exact ⟨hb, (Option.some.inj h).symm⟩

theorem released_false {b b' : ℤ} (h : released false b = some b') : 0 < b ∧ b' = b - 1 := by
  rw [released, if_neg (by simp)] at h
  split_ifs at h with hb
  exact ⟨hb, (Option.some.inj h).symm⟩

theorem checked_eq_some {b b' : ℤ} (h : checked b = some b') : b' = b := by
  rw [checked] at h
  split_ifs at h
  exact (Option.some.inj h).symm

theorem update_eq_some {t t' : BorrowTracker} {loc : ℕ} {f : ℤ → Option ℤ} :
    t.update loc f = some t' ↔
      ∃ b b', t.borrows[loc]? = some b ∧ f b = some b' ∧ t' = ⟨t.borrows.set loc b'⟩ := by
  simp only [update, Option.bind_eq_bind, Option.bind_eq_some_iff, Option.some.injEq]
  constructor
  · rintro ⟨b, hb, b', hf, rfl⟩
    exact ⟨b, b', hb, hf, rfl⟩
  · rintro ⟨b, b', hb, hf, rfl⟩
    exact ⟨b, hb, b', hf, rfl⟩

/-- A transition writes the slot it names and no other. -/
theorem update_getElem? {t t' : BorrowTracker} {loc : ℕ} {f : ℤ → Option ℤ}
    (h : t.update loc f = some t') :
    ∃ b b', t.borrows[loc]? = some b ∧ f b = some b' ∧
      ∀ k, t'.borrows[k]? = if k = loc then some b' else t.borrows[k]? := by
  obtain ⟨b, b', hb, hf, rfl⟩ := update_eq_some.mp h
  have hlt : loc < t.borrows.length := (List.getElem?_eq_some_iff.mp hb).1
  refine ⟨b, b', hb, hf, fun k => ?_⟩
  by_cases hk : k = loc
  · subst hk
    simp [hlt]
  · simp [hk, Ne.symm hk]

theorem dropView_eq_some {t t' : BorrowTracker} {exclusive free : Bool} {loc : ℕ}
    (h : t.dropView exclusive loc = some (t', free)) :
    t.update loc (released exclusive) = some t' ∧
      ∃ b, t'.borrows[loc]? = some b ∧ free = decide (b = 0) := by
  simp only [dropView, Option.bind_eq_bind, Option.bind_eq_some_iff, Option.some.injEq,
    Prod.mk.injEq] at h
  obtain ⟨u, hu, b, hb, rfl, rfl⟩ := h
  exact ⟨hu, b, hb, rfl⟩

end BorrowTracker

end Conrt.Buf
