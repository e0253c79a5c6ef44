import Mathlib.Tactic

/-! Byte blocks of a global allocator, freed with the length they were allocated with. -/
namespace Conrt.Base

/-- The blocks by address; a freed block leaves its address behind. Fresh memory reads as `poison`. -/
structure Heap where
  blocks : List (Option (List UInt8))
  poison : UInt8
deriving DecidableEq

namespace Heap

def block (h : Heap) (p : ℕ) : Option (List UInt8) := h.blocks[p]?.join

def alloc (h : Heap) (len : ℕ) : ℕ × Heap :=
  (h.blocks.length, { h with blocks := h.blocks ++ [some (List.replicate len h.poison)] })

/-- Copies `bs` to offset `i`; `none` outside the block. -/
def write (h : Heap) (p i : ℕ) (bs : List UInt8) : Option Heap := do
  let b ← h.block p
  guard (i + bs.length ≤ b.length)
  pure { h with blocks := h.blocks.set p (some (b.take i ++ bs ++ b.drop (i + bs.length))) }

/-- Undefined, hence `none`, for any length but the one allocated. -/
def dealloc (h : Heap) (p len : ℕ) : Option Heap := do
  let b ← h.block p
  guard (len = b.length)
  pure { h with blocks := h.blocks.set p none }

variable {h h' : Heap} {p q len : ℕ} {b : List UInt8}

theorem lt_of_block (hb : h.block p = some b) : p < h.blocks.length := by
  by_contra hp
  have hnone : h.blocks[p]? = none := List.getElem?_eq_none (Nat.le_of_not_lt hp)
  simp [block, hnone] at hb

@[simp] theorem block_alloc : (h.alloc len).2.block (h.alloc len).1 =
    some (List.replicate len h.poison) := by
  simp [block, alloc]

theorem block_alloc_of_block (hb : h.block p = some b) : (h.alloc len).2.block p = some b := by
  have hp := lt_of_block hb
  simp only [block, alloc] at hb ⊢
  rw [List.getElem?_append_left hp]
  exact hb

theorem alloc_ne_of_block (hb : h.block p = some b) : (h.alloc len).1 ≠ p :=
  Ne.symm (Nat.ne_of_lt (lt_of_block hb))

theorem write_eq_some (i : ℕ) (bs : List UInt8) (hb : h.block p = some b)
    (hfit : i + bs.length ≤ b.length) :
    ∃ h', h.write p i bs = some h' ∧ h'.block p = some (b.take i ++ bs ++ b.drop (i + bs.length)) ∧
      ∀ q, q ≠ p → h'.block q = h.block q := by
  have hp := lt_of_block hb
  refine ⟨_, by simp only [write, hb, Option.bind_eq_bind, Option.bind_some, hfit, guard_true,
    Option.pure_def]; rfl, ?_, ?_⟩
  · simp [block, hp]
  · intro q hq
    simp [block, List.getElem?_set_ne (Ne.symm hq)]

theorem dealloc_isSome_iff (hb : h.block p = some b) :
    (h.dealloc p len).isSome ↔ len = b.length := by
  by_cases hl : len = b.length <;> simp [dealloc, hb, hl]

theorem block_dealloc (hd : h.dealloc p len = some h') (hq : q ≠ p) : h'.block q = h.block q := by
  simp only [dealloc, Option.bind_eq_bind, Option.bind_eq_some_iff, Option.pure_def,
    Option.some.injEq] at hd
  obtain ⟨_, -, _, -, rfl⟩ := hd
  simp [block, List.getElem?_set_ne (Ne.symm hq)]

end Heap

end Conrt.Base
