import Mathlib.Tactic

/-! The buffer arena: runs of erased caller buffers, recycled through per-class free lists that
live in the free blocks themselves. -/
namespace Conrt.Coio

/-- Why a call ended in a panic. `arena` and `slab` are out-of-range accesses, `uninit` is the read
of a value that is not there. -/
inductive Panic
  | assertion
  | overflow
  | slab
  | arena
  | uninit
deriving DecidableEq, Repr

/-- A caller buffer as submitted: two opaque words. -/
structure IoBufErased where
  a : ℕ
  b : ℕ
deriving DecidableEq, Repr

def IoBufErased.NONE : IoBufErased := ⟨0, 0⟩

/-- Sentinel for "no run" and for the end of a free list. -/
def bufNone : ℕ := 2 ^ 32 - 1

def bufClasses : List ℕ := [1, 2, 4, 8, 16, 64, 256, 1024]

structure BufArena where
  blocks : List IoBufErased
  free : List ℕ
deriving DecidableEq, Repr

def BufArena.new : BufArena := ⟨[], List.replicate bufClasses.length bufNone⟩

def classFor (len : ℕ) : Option ℕ := bufClasses.findIdx? fun n => len ≤ n

def classSize (cls : ℕ) : ℕ := bufClasses.getD cls 0

def toU32 (n : ℕ) : ℕ := n % 2 ^ 32

namespace BufArena

/-- The link a free block keeps in its first word. -/
def nextLink (blocks : List IoBufErased) (index : ℕ) : Option ℕ :=
  blocks[index]?.map fun block => toU32 block.a

/-- Reserves a run of `len` blocks: the head of the class's free list, or new blocks at the tail. -/
def alloc (arena : BufArena) (len : ℕ) : Except Panic (ℕ × BufArena) :=
  if len = 0 ∨ 1024 < len then .error .assertion
  else
    match classFor len with
    | none => .error .assertion
    | some cls =>
      match arena.free[cls]? with
      | none => .error .arena
      | some head =>
        if head ≠ bufNone then
          match nextLink arena.blocks head with
          | none => .error .arena
          | some next => .ok (head, { arena with free := arena.free.set cls next })
        else
          let base := arena.blocks.length
          if base + classSize cls < bufNone then
            .ok (base, { arena with
              blocks := arena.blocks ++ List.replicate (classSize cls) .NONE })
          else .error .assertion

/-- Links the run back onto its class's free list, through its first block. -/
def release (arena : BufArena) (start len : ℕ) : Except Panic BufArena :=
  match classFor len with
  | none => .error .assertion
  | some cls =>
    match arena.blocks[start]?, arena.free[cls]? with
    | some block, some head => .ok
        { blocks := arena.blocks.set start { block with a := head }
          free := arena.free.set cls start }
    | _, _ => .error .arena

def slice (arena : BufArena) (start len : ℕ) : Option (List IoBufErased) :=
  if start + len ≤ arena.blocks.length then some ((arena.blocks.drop start).take len) else none

/-- The blocks of an op's run; an op without a run has none. -/
def bufsOf (arena : BufArena) : Option (ℕ × ℕ) → Option (List IoBufErased)
  | some (start, len) => arena.slice start len
  | none => some []

def write (arena : BufArena) (start : ℕ) (bufs : List IoBufErased) : Option BufArena :=
  if start + bufs.length ≤ arena.blocks.length then
    some { arena with
      blocks := arena.blocks.take start ++ bufs ++ arena.blocks.drop (start + bufs.length) }
  else none

/-- `alloc_buf_run`: carves a run for `bufs` and copies them in; no run for no buffers. -/
def allocBufRun (arena : BufArena) (bufs : List IoBufErased) :
    Except Panic (Option (ℕ × ℕ) × BufArena) :=
  if bufs = [] then .ok (none, arena)
  else
    match arena.alloc bufs.length with
    | .error e => .error e
    | .ok (start, arena) =>
      match arena.write start bufs with
      | none => .error .arena
      | some arena => .ok (some (start, bufs.length), arena)

def giveBack (arena : BufArena) : Option (ℕ × ℕ) → Except Panic BufArena
  | some (start, len) => arena.release start len
  | none => .ok arena

theorem allocBufRun_len {arena arena' : BufArena} {bufs : List IoBufErased} {start len : ℕ}
    (h : arena.allocBufRun bufs = .ok (some (start, len), arena')) : len ≠ 0 := by
  unfold allocBufRun at h
  by_cases hb : bufs = []
  · simp [hb] at h
  · rw [if_neg hb] at h
    cases ha : arena.alloc bufs.length with
    | error e => simp [ha] at h
    | ok r =>
      cases hw : r.2.write r.1 bufs with
      | none => simp [ha, hw] at h
      | some arena'' =>
        simp only [ha, hw, Except.ok.injEq, Prod.mk.injEq, Option.some.injEq] at h
        rw [← h.1.2]
        exact List.length_pos_iff.mpr hb |>.ne'

private theorem alloc_eq {arena arena' : BufArena} {len start : ℕ} (h : arena.alloc len = .ok (start, arena')) :
    start ≠ bufNone ∧ ∃ cls, classFor len = some cls ∧ cls < arena'.free.length := by
  unfold alloc at h
  split_ifs at h with hlen
  cases hc : classFor len with
  | none => simp [hc] at h
  | some cls =>
    simp only [hc] at h
    cases hf : arena.free[cls]? with
    | none => simp [hf] at h
    | some head =>
      simp only [hf] at h
      have hlt := (List.getElem?_eq_some_iff.mp hf).1
      split_ifs at h with hne hroom
      · cases hn : nextLink arena.blocks head with
        | none => simp [hn] at h
        | some next =>
          simp only [hn, Except.ok.injEq, Prod.mk.injEq] at h
          obtain ⟨rfl, rfl⟩ := h
          exact ⟨hne, cls, rfl, by simpa using hlt⟩
      · simp only [Except.ok.injEq, Prod.mk.injEq] at h
        obtain ⟨rfl, rfl⟩ := h
        refine ⟨?_, cls, rfl, hlt⟩
        unfold bufNone at hroom ⊢
        omega

/-- A run is not at the sentinel, and can be given back at once. -/
theorem allocBufRun_eq {arena arena' : BufArena} {bufs : List IoBufErased} {run : Option (ℕ × ℕ)}
    (h : arena.allocBufRun bufs = .ok (run, arena')) :
    (∀ r, run = some r → r.1 ≠ bufNone) ∧ (bufs = [] → run = none) ∧
      ∃ arena'', arena'.giveBack run = .ok arena'' := by
  unfold allocBufRun at h
  split_ifs at h with hb
  · obtain ⟨rfl, rfl⟩ := Prod.mk.inj (Except.ok.inj h)
    exact ⟨nofun, fun _ => rfl, arena, rfl⟩
  · have hpos := List.length_pos_iff.mpr hb
    cases ha : arena.alloc bufs.length with
    | error e => simp [ha] at h
    | ok r =>
      obtain ⟨start, carved⟩ := r
      obtain ⟨hne, cls, hc, hlt⟩ := alloc_eq ha
      simp only [ha] at h
      unfold write at h
      split_ifs at h with hfit
      obtain ⟨rfl, rfl⟩ := Prod.mk.inj (Except.ok.inj h)
      refine ⟨fun r hr => Option.some.inj hr ▸ hne, fun he => absurd he hb, ?_⟩
      have hblock : start < (carved.blocks.take start ++ bufs ++
          carved.blocks.drop (start + bufs.length)).length := by
        simp only [List.length_append, List.length_take, List.length_drop]
        omega
      simp only [giveBack, release, hc, List.getElem?_eq_getElem hblock, List.getElem?_eq_getElem hlt]
      exact ⟨_, rfl⟩

end BufArena

end Conrt.Coio
