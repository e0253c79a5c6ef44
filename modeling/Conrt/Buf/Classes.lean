import Mathlib.Data.List.Sort
import Mathlib.Data.Nat.Bitwise
import Mathlib.Tactic

/-! Buffer size classes and the packed `bid` a pooled view carries. -/
namespace Conrt.Buf

structure SizeClass where
  size : ℕ
  count : ℕ
deriving DecidableEq, Repr

def bidClassShift : ℕ := 24
def bidProvidedFlag : ℕ := 1 <<< 31
def bidClassMask : ℕ := 0x7F
def bidLocalMask : ℕ := 0x00FFFFFF

/-- The alignment no slot exceeds: one page. -/
def bufferMaxAlign : ℕ := 4096

/-- Packs the provided flag, a 7-bit class and a 24-bit local slot id. -/
def packBid (provided : Bool) (cls loc : ℕ) : ℕ :=
  (if provided then bidProvidedFlag else 0) ||| ((cls &&& bidClassMask) <<< bidClassShift) |||
    (loc &&& bidLocalMask)

def bidProvided (bid : ℕ) : Bool := bid &&& bidProvidedFlag != 0

def bidClass (bid : ℕ) : ℕ := (bid >>> bidClassShift) &&& bidClassMask

def bidLocal (bid : ℕ) : ℕ := bid &&& bidLocalMask

/-- The smallest class whose slots hold `size` bytes; `classes` is sorted by size. -/
def classFor (classes : List SizeClass) (size : ℕ) : Option ℕ :=
  classes.findIdx? fun c => size ≤ c.size

private theorem packBid_eq (provided : Bool) (cls loc : ℕ) :
    packBid provided cls loc =
      (if provided then 2 ^ 31 else 0) + (cls % 2 ^ 7 * 2 ^ 24 + loc % 2 ^ 24) := by
  have hc : cls &&& bidClassMask = cls % 2 ^ 7 := Nat.and_two_pow_sub_one_eq_mod cls 7
  have hl : loc &&& bidLocalMask = loc % 2 ^ 24 := Nat.and_two_pow_sub_one_eq_mod loc 24
  have hin : cls % 2 ^ 7 * 2 ^ 24 ||| loc % 2 ^ 24 = cls % 2 ^ 7 * 2 ^ 24 + loc % 2 ^ 24 := by
    rw [← Nat.shiftLeft_eq, Nat.shiftLeft_add_eq_or_of_lt (Nat.mod_lt _ (by norm_num))]
  rw [packBid, hc, hl, bidClassShift, Nat.shiftLeft_eq, Nat.lor_assoc, hin]
  cases provided with
  | false => simp
  | true =>
    have hb : cls % 2 ^ 7 * 2 ^ 24 + loc % 2 ^ 24 < 2 ^ 31 := by omega
    have h := Nat.two_pow_add_eq_or_of_lt hb 1
    simpa [bidProvidedFlag, Nat.shiftLeft_eq] using h.symm

/-- The three fields of a packed `bid` decode independently. -/
theorem bidProvided_packBid (provided : Bool) (cls loc : ℕ) :
    bidProvided (packBid provided cls loc) = provided := by
  have hb : cls % 2 ^ 7 * 2 ^ 24 + loc % 2 ^ 24 < 2 ^ 31 := by omega
  have hf : ∀ n, bidProvided n = n.testBit 31 := by
    intro n
    rw [bidProvided, bidProvidedFlag, Nat.shiftLeft_eq, one_mul, Nat.and_two_pow]
    cases n.testBit 31 <;> simp
  rw [hf, packBid_eq]
  cases provided with
  | false => simpa using Nat.testBit_lt_two_pow hb
  | true =>
    rw [if_pos rfl, Nat.testBit_two_pow_add_eq, Nat.testBit_lt_two_pow hb]
    rfl

theorem bidClass_packBid (provided : Bool) {cls : ℕ} (loc : ℕ) (hc : cls < 128) :
    bidClass (packBid provided cls loc) = cls := by
  rw [bidClass, bidClassMask, Nat.and_two_pow_sub_one_eq_mod _ 7, bidClassShift,
    Nat.shiftRight_eq_div_pow, packBid_eq]
  cases provided <;> simp <;> omega

theorem bidLocal_packBid (provided : Bool) (cls : ℕ) {loc : ℕ} (hl : loc < 2 ^ 24) :
    bidLocal (packBid provided cls loc) = loc := by
  rw [bidLocal, bidLocalMask, Nat.and_two_pow_sub_one_eq_mod _ 24, packBid_eq]
  cases provided <;> simp <;> omega

structure SizeClassLayout where
  size : ℕ
  count : ℕ
  baseOffset : ℕ
  total : ℕ
deriving DecidableEq, Repr

def isPowerOfTwo (n : ℕ) : Bool := n != 0 && n &&& (n - 1) == 0

/-- The assertions `layoutClasses` makes of one class. -/
def SizeClass.admissible (powerOfTwoCounts : Bool) (c : SizeClass) : Bool :=
  0 < c.size && isPowerOfTwo c.size && 0 < c.count && c.count ≤ bidLocalMask &&
    (!powerOfTwoCounts || (isPowerOfTwo c.count && c.count ≤ 32768))

/-- The loop of `layoutClasses`: pads each class to its own alignment. -/
def layoutFrom (powerOfTwoCounts : Bool) : ℕ → List SizeClass → Option (List SizeClassLayout)
  | _, [] => some []
  | base, c :: cs => do
    guard (c.admissible powerOfTwoCounts)
    let align := min c.size bufferMaxAlign
    let baseOffset := (base + align - 1) / align * align
    let total := baseOffset + c.size * c.count
    guard (total ≤ 2 ^ 32 - 1)
    let rest ← layoutFrom powerOfTwoCounts total cs
    some (⟨c.size, c.count, baseOffset, total⟩ :: rest)

/-- `none` when an assertion on the class table fails. -/
def layoutClasses (classes : List SizeClass) (powerOfTwoCounts : Bool) :
    Option (List SizeClassLayout) := do
  guard (classes ≠ [] ∧ classes.length ≤ 128)
  let sorted := classes.insertionSort fun a b => a.size ≤ b.size
  guard (sorted.Pairwise fun a b => a.size < b.size)
  layoutFrom powerOfTwoCounts 0 sorted

private theorem layoutFrom_eq_some {p2 : Bool} {base : ℕ} {cs : List SizeClass}
    {ls : List SizeClassLayout} (h : layoutFrom p2 base cs = some ls) :
    ls.length = cs.length ∧ ∀ l ∈ ls, l.count ≤ bidLocalMask := by
  induction cs generalizing base ls with
  | nil =>
    obtain rfl := Option.some.inj h
    simp
  | cons c cs ih =>
    simp only [layoutFrom, Option.bind_eq_bind, Option.bind_eq_some_iff, Option.some.injEq] at h
    obtain ⟨_, hadm, _, -, rest, hrest, rfl⟩ := h
    obtain ⟨hlen, hcount⟩ := ih hrest
    have hc : c.count ≤ bidLocalMask := by
      simp only [SizeClass.admissible, Option.guard_eq_some', Bool.and_eq_true,
        decide_eq_true_eq] at hadm
      exact hadm.1.2
    refine ⟨by simp [hlen], ?_⟩
    intro l hl
    rcases List.mem_cons.mp hl with rfl | hl
    · exact hc
    · exact hcount l hl

/-- An accepted class table fits the fields of a packed `bid`. -/
theorem layoutClasses_eq_some {classes : List SizeClass} {p2 : Bool} {ls : List SizeClassLayout}
    (h : layoutClasses classes p2 = some ls) :
    ls.length ≤ 128 ∧ ∀ l ∈ ls, l.count ≤ bidLocalMask := by
  simp only [layoutClasses, Option.bind_eq_bind, Option.bind_eq_some_iff,
    Option.guard_eq_some'] at h
  obtain ⟨_, ⟨-, hlen⟩, _, -, hfrom⟩ := h
  obtain ⟨h1, h2⟩ := layoutFrom_eq_some hfrom
  exact ⟨by rw [h1, List.length_insertionSort]; exact hlen, h2⟩

/-- Where the classes of both directions lie in one slab: the provided ones first, the fixed ones
from `fixedStart` on. -/
structure SlabLayout where
  provided : List SizeClassLayout
  fixed : List SizeClassLayout
  align : ℕ
  fixedStart : ℕ
  total : ℕ
deriving DecidableEq, Repr

/-- The layout half of `build_pools`; `none` when an assertion fails. -/
def layoutSlab (providedSpec fixedSpec : List SizeClass) : Option SlabLayout := do
  let provided ← layoutClasses providedSpec true
  let fixed ← layoutClasses fixedSpec false
  let providedTotal ← provided.getLast?.map (·.total)
  let align ← ((providedSpec ++ fixedSpec).map fun c => min c.size bufferMaxAlign).max?
  guard (isPowerOfTwo align)
  let fixedStart := (providedTotal + align - 1) / align * align
  let fixedTotal ← fixed.getLast?.map (·.total)
  guard (fixedStart + fixedTotal ≤ 2 ^ 32 - 1)
  some ⟨provided, fixed, align, fixedStart, fixedStart + fixedTotal⟩

theorem layoutSlab_eq_some {ps fs : List SizeClass} {l : SlabLayout} (h : layoutSlab ps fs = some l) :
    layoutClasses ps true = some l.provided ∧ layoutClasses fs false = some l.fixed := by
  simp only [layoutSlab, Option.bind_eq_bind, Option.bind_eq_some_iff, Option.some.injEq] at h
  obtain ⟨_, hp, _, hf, _, -, _, -, _, -, _, -, _, -, rfl⟩ := h
  exact ⟨hp, hf⟩

end Conrt.Buf
