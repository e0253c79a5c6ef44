import Conrt.Buf.Slab

/-! The shared slab's layout in machine integers: no offset overflows, and no two slots share a byte. -/
namespace Conrt.Buf

/-- Why laying out a slab stops. -/
inductive Fault
  | assertion
  | overflow
deriving DecidableEq, Repr

/-- A result that an integer type of `width` bits must hold. -/
def fits (width n : ℕ) : Except Fault ℕ := if n < 2 ^ width then .ok n else .error .overflow

def check (p : Prop) [Decidable p] : Except Fault Unit := if p then .ok () else .error .assertion

def unwrap {α : Type} : Option α → Except Fault α
  | some x => .ok x
  | none => .error .assertion

/-- The loop of `layout_classes`, in `u64` with the base offset stored as a `u32`. -/
def layoutFromMachine (powerOfTwoCounts : Bool) :
    ℕ → List SizeClass → Except Fault (List SizeClassLayout)
  | _, [] => .ok []
  | base, c :: cs => do
    check (c.admissible powerOfTwoCounts)
    let align := min c.size bufferMaxAlign
    let baseOffset ← fits 64 ((base + align - 1) / align * align)
    let bytes ← fits 64 (c.size * c.count)
    let total ← fits 64 (baseOffset + bytes)
    check (total ≤ 2 ^ 32 - 1)
    let baseOffset ← fits 32 baseOffset
    let rest ← layoutFromMachine powerOfTwoCounts total cs
    .ok (⟨c.size, c.count, baseOffset, total⟩ :: rest)

def layoutClassesMachine (classes : List SizeClass) (powerOfTwoCounts : Bool) :
    Except Fault (List SizeClassLayout) := do
  check (classes ≠ [] ∧ classes.length ≤ 128)
  let sorted := classes.insertionSort fun a b => a.size ≤ b.size
  check (sorted.Pairwise fun a b => a.size < b.size)
  layoutFromMachine powerOfTwoCounts 0 sorted

def layoutSlabMachine (providedSpec fixedSpec : List SizeClass) : Except Fault SlabLayout := do
  let provided ← layoutClassesMachine providedSpec true
  let fixed ← layoutClassesMachine fixedSpec false
  let providedTotal ← unwrap (provided.getLast?.map (·.total))
  let align ← unwrap ((providedSpec ++ fixedSpec).map fun c => min c.size bufferMaxAlign).max?
  check (isPowerOfTwo align)
  let fixedStart ← fits 64 ((providedTotal + align - 1) / align * align)
  let fixedTotal ← unwrap (fixed.getLast?.map (·.total))
  let total ← fits 64 (fixedStart + fixedTotal)
  check (total ≤ 2 ^ 32 - 1)
  .ok ⟨provided, fixed, align, fixedStart, total⟩

namespace SlabLayout

def side (l : SlabLayout) (provided : Bool) : List SizeClassLayout :=
  if provided then l.provided else l.fixed

def classes (l : SlabLayout) (provided : Bool) : List SizeClass :=
  (l.side provided).map fun c => ⟨c.size, c.count⟩

/-- The offset in the slab that `slot_ptr` resolves a slot to, in `u64` and `usize`. -/
def slotOffset (l : SlabLayout) (s : Slot) : Except Fault ℕ := do
  let c ← unwrap (l.side s.provided)[s.cls]?
  let base ← if s.provided then .ok c.baseOffset else fits 64 (l.fixedStart + c.baseOffset)
  let within ← fits 64 (s.loc * c.size)
  fits 64 (base + within)

/-- `s` is a slot of the layout, in class `c`. -/
def Has (l : SlabLayout) (s : Slot) (c : SizeClassLayout) : Prop :=
  (l.side s.provided)[s.cls]? = some c ∧ s.loc < c.count

end SlabLayout

def Slot.bid (s : Slot) : ℕ := packBid s.provided s.cls s.loc

/-- What the layout owes its pools. -/
structure SlabLayout.Sound (l : SlabLayout) (spec : Bool → List SizeClass) : Prop where
  decodes : ∀ s c, l.Has s c → slotOf s.bid = s
  bids : ∀ s c t d, l.Has s c → l.Has t d → s ≠ t → s.bid ≠ t.bid
  placed : ∀ s c, l.Has s c → ∃ off, l.slotOffset s = .ok off ∧ off + c.size ≤ l.total ∧
    min c.size bufferMaxAlign ∣ off ∧ min c.size bufferMaxAlign ∣ l.align
  apart : ∀ s c t d, l.Has s c → l.Has t d → s ≠ t → ∀ o o', l.slotOffset s = .ok o →
    l.slotOffset t = .ok o' → o + c.size ≤ o' ∨ o' + d.size ≤ o
  table : ∀ provided, (l.classes provided).Perm (spec provided)
  smallest : ∀ provided n, match classFor (l.classes provided) n with
    | some k => k < 2 ^ 8 ∧ ∃ c, (l.classes provided)[k]? = some c ∧ n ≤ c.size ∧
        ∀ d ∈ l.classes provided, n ≤ d.size → c.size ≤ d.size
    | none => ∀ d ∈ l.classes provided, d.size < n

section rounding

variable {n a b : ℕ}

theorem le_roundUp (n : ℕ) (ha : 0 < a) : n ≤ (n + a - 1) / a * a := by
  have hq := Nat.div_add_mod' (n + a - 1) a
  have hr := Nat.mod_lt (n + a - 1) ha
  omega

theorem roundUp_lt (n : ℕ) (ha : 0 < a) : (n + a - 1) / a * a < n + a := by
  have hq := Nat.div_mul_le_self (n + a - 1) a
  omega

theorem isPowerOfTwo_iff : isPowerOfTwo n = true ↔ n.isPowerOfTwo := by
  rw [← Nat.ne_zero_and_sub_one_eq_zero_iff_isPowerOfTwo]
  simp [isPowerOfTwo]

theorem isPowerOfTwo_min (ha : isPowerOfTwo a = true) : (min a bufferMaxAlign).isPowerOfTwo := by
  have hb : isPowerOfTwo bufferMaxAlign = true := by decide
  rcases le_total a bufferMaxAlign with h | h
  · rw [min_eq_left h]
    exact isPowerOfTwo_iff.mp ha
  · rw [min_eq_right h]
    exact isPowerOfTwo_iff.mp hb

theorem dvd_of_isPowerOfTwo (ha : a.isPowerOfTwo) (hb : b.isPowerOfTwo) (h : a ≤ b) : a ∣ b := by
  obtain ⟨i, rfl⟩ := ha
  obtain ⟨j, rfl⟩ := hb
  exact Nat.pow_dvd_pow 2 ((Nat.pow_le_pow_iff_right (by norm_num)).mp h)

end rounding

theorem unwrap_bind {α β : Type} (o : Option α) (k : α → Option β) :
    unwrap (o.bind k) = (unwrap o >>= fun x => unwrap (k x)) := by
  cases o <;> rfl

theorem check_eq (p : Prop) [Decidable p] : check p = unwrap (guard p) := by
  by_cases h : p <;> simp [check, h, unwrap]

/-- Two computations agree after a value that both have read. -/
theorem unwrap_bind_congr {α β : Type} {o : Option α} {k k' : α → Except Fault β}
    (h : ∀ x, o = some x → k x = k' x) : (unwrap o >>= k) = (unwrap o >>= k') := by
  cases o with
  | none => rfl
  | some x => exact h x rfl

theorem fits_of_lt {width n : ℕ} (h : n < 2 ^ width) : fits width n = .ok n := if_pos h

theorem admissible_bounds {p2 : Bool} {c : SizeClass} (h : c.admissible p2 = true) :
    0 < c.size ∧ isPowerOfTwo c.size = true ∧ 0 < c.count ∧ c.count < 2 ^ 24 := by
  simp only [SizeClass.admissible, Bool.and_eq_true, decide_eq_true_eq] at h
  obtain ⟨⟨⟨⟨hpos, hp2⟩, hcount⟩, hmask⟩, -⟩ := h
  rw [bidLocalMask] at hmask
  exact ⟨hpos, hp2, hcount, by omega⟩

private theorem layoutFromMachine_eq {p2 : Bool} {base : ℕ} {cs : List SizeClass} (hbase : base < 2 ^ 32)
    (hu : ∀ c ∈ cs, c.size < 2 ^ 32) :
    layoutFromMachine p2 base cs = unwrap (layoutFrom p2 base cs) := by
  induction cs generalizing base with
  | nil => rfl
  | cons c cs ih =>
    simp only [layoutFromMachine, layoutFrom, Option.bind_eq_bind, unwrap_bind, check_eq]
    apply unwrap_bind_congr
    intro _ hadm
    obtain ⟨hpos, -, -, hcount⟩ := admissible_bounds ((Option.guard_eq_some' _).mp hadm)
    have hsize : c.size < 2 ^ 32 := hu c List.mem_cons_self
    have halign : 0 < min c.size bufferMaxAlign := lt_min hpos (by decide)
    have hmax : min c.size bufferMaxAlign ≤ 4096 := min_le_right _ _
    have hoffset := roundUp_lt base halign
    have hbytes : c.size * c.count < 2 ^ 32 * 2 ^ 24 := Nat.mul_lt_mul'' hsize hcount
    rw [fits_of_lt (by omega), fits_of_lt (by omega)]
    simp only [bind, Except.bind]
    rw [fits_of_lt (by omega)]
    apply unwrap_bind_congr
    intro _ htotal
    have htotal := (Option.guard_eq_some' _).mp htotal
    rw [fits_of_lt (by omega)]
    dsimp only
    rw [ih (by omega) fun d hd => hu d (List.mem_cons_of_mem c hd)]
    cases layoutFrom p2 _ cs <;> rfl

theorem layoutClassesMachine_eq {cs : List SizeClass} {p2 : Bool} (hu : ∀ c ∈ cs, c.size < 2 ^ 32) :
    layoutClassesMachine cs p2 = unwrap (layoutClasses cs p2) := by
  simp only [layoutClassesMachine, layoutClasses, Option.bind_eq_bind, unwrap_bind, check_eq]
  apply unwrap_bind_congr
  intro _ _
  apply unwrap_bind_congr
  intro _ _
  apply layoutFromMachine_eq (by norm_num)
  intro c hc
  exact hu c ((List.perm_insertionSort _ cs).mem_iff.mp hc)

/-- Classes that follow each other from `base` on, each at a multiple of its alignment. -/
structure Placed (base : ℕ) (ls : List SizeClassLayout) : Prop where
  admissible : ∀ l ∈ ls, 0 < l.size ∧ isPowerOfTwo l.size = true ∧ 0 < l.count ∧ l.count < 2 ^ 24
  start : ∀ l ∈ ls, base ≤ l.baseOffset
  aligned : ∀ l ∈ ls, min l.size bufferMaxAlign ∣ l.baseOffset
  total : ∀ l ∈ ls, l.total = l.baseOffset + l.size * l.count ∧ l.total < 2 ^ 32
  apart : ls.Pairwise fun a b => a.total ≤ b.baseOffset

private theorem layoutFrom_placed {p2 : Bool} {base : ℕ} {cs : List SizeClass} {ls : List SizeClassLayout}
    (h : layoutFrom p2 base cs = some ls) :
    Placed base ls ∧ ls.map (fun l => ⟨l.size, l.count⟩) = cs := by
  induction cs generalizing base ls with
  | nil =>
    obtain rfl := Option.some.inj h
    exact ⟨by constructor <;> simp, rfl⟩
  | cons c cs ih =>
    simp only [layoutFrom, Option.bind_eq_bind, Option.bind_eq_some_iff, Option.some.injEq,
      Option.guard_eq_some'] at h
    obtain ⟨_, hadm, _, htotal, rest, hrest, rfl⟩ := h
    obtain ⟨hp, hmap⟩ := ih hrest
    have hc := admissible_bounds hadm
    have hbase := le_roundUp base (lt_min hc.1 (by decide : 0 < bufferMaxAlign))
    refine ⟨?_, by simp [hmap]⟩
    have hstart : ∀ l ∈ rest, base ≤ l.baseOffset := by
      intro l hl
      have hle := hp.start l hl
      omega
    constructor
    case admissible => exact List.forall_mem_cons.mpr ⟨hc, hp.admissible⟩
    case start => exact List.forall_mem_cons.mpr ⟨hbase, hstart⟩
    case aligned => exact List.forall_mem_cons.mpr ⟨Nat.dvd_mul_left _ _, hp.aligned⟩
    case total => exact List.forall_mem_cons.mpr ⟨⟨rfl, by simpa using Nat.lt_succ_of_le htotal⟩, hp.total⟩
    case apart => exact List.pairwise_cons.mpr ⟨hp.start, hp.apart⟩

theorem Placed.total_le {base : ℕ} {ls : List SizeClassLayout} {l z : SizeClassLayout}
    (hp : Placed base ls) (hz : ls.getLast? = some z) (hl : l ∈ ls) : l.total ≤ z.total := by
  obtain ⟨init, rfl⟩ := List.getLast?_eq_some_iff.mp hz
  rcases List.mem_append.mp hl with hl | hl
  · have hle := (List.pairwise_append.mp hp.apart).2.2 l hl z List.mem_cons_self
    have htotal := (hp.total z (by simp)).1
    omega
  · rw [List.mem_singleton.mp hl]

theorem layoutClasses_placed {p2 : Bool} {cs : List SizeClass} {ls : List SizeClassLayout}
    (h : layoutClasses cs p2 = some ls) :
    Placed 0 ls ∧ (ls.map fun l => (⟨l.size, l.count⟩ : SizeClass)).Perm cs ∧
      (ls.map fun l => (⟨l.size, l.count⟩ : SizeClass)).Pairwise fun a b => a.size < b.size := by
  simp only [layoutClasses, Option.bind_eq_bind, Option.bind_eq_some_iff,
    Option.guard_eq_some'] at h
  obtain ⟨_, -, _, hsorted, hfrom⟩ := h
  obtain ⟨hp, hmap⟩ := layoutFrom_placed hfrom
  rw [hmap]
  exact ⟨hp, List.perm_insertionSort _ cs, hsorted⟩

/-- The provided classes end before the fixed ones begin, and those end inside the slab. -/
structure SlabLayout.Laid (l : SlabLayout) (spec : Bool → List SizeClass) : Prop where
  placed : ∀ provided, Placed 0 (l.side provided)
  table : ∀ provided, (l.classes provided).Perm (spec provided)
  sorted : ∀ provided, (l.classes provided).Pairwise fun a b => a.size < b.size
  length : ∀ provided, (l.side provided).length ≤ 128
  providedEnd : ∀ c ∈ l.provided, c.total ≤ l.fixedStart
  fixedEnd : ∀ c ∈ l.fixed, l.fixedStart + c.total ≤ l.total
  start : l.fixedStart ≤ l.total
  total : l.total < 2 ^ 32
  fixedAligned : l.align ∣ l.fixedStart
  align : ∀ provided, ∀ c ∈ l.side provided, min c.size bufferMaxAlign ∣ l.align

def specOf (providedSpec fixedSpec : List SizeClass) (provided : Bool) : List SizeClass :=
  if provided then providedSpec else fixedSpec

theorem layoutSlab_laid {ps fs : List SizeClass} {l : SlabLayout} (h : layoutSlab ps fs = some l) :
    l.Laid (specOf ps fs) := by
  simp only [layoutSlab, Option.bind_eq_bind, Option.bind_eq_some_iff, Option.some.injEq,
    Option.guard_eq_some', Option.map_eq_some_iff] at h
  obtain ⟨provided, hprovided, fixed, hfixed, _, ⟨pz, hpz, rfl⟩, align, halign, _, hpow, _,
    ⟨fz, hfz, rfl⟩, _, htotal, rfl⟩ := h
  obtain ⟨hpp, hpt, hps⟩ := layoutClasses_placed hprovided
  obtain ⟨hfp, hft, hfs⟩ := layoutClasses_placed hfixed
  obtain ⟨hmem, hmax⟩ := List.max?_eq_some_iff.mp halign
  have hpos : 0 < align := Nat.pos_of_isPowerOfTwo (isPowerOfTwo_iff.mp hpow)
  have hstart := le_roundUp pz.total hpos
  have hdvd : ∀ c : SizeClassLayout, isPowerOfTwo c.size = true →
      (⟨c.size, c.count⟩ : SizeClass) ∈ ps ++ fs → min c.size bufferMaxAlign ∣ align := by
    intro c hc hin
    apply dvd_of_isPowerOfTwo (isPowerOfTwo_min hc) (isPowerOfTwo_iff.mp hpow)
    exact hmax _ (List.mem_map.mpr ⟨_, hin, rfl⟩)
  constructor
  case placed => exact Bool.forall_bool.mpr ⟨hfp, hpp⟩
  case table => exact Bool.forall_bool.mpr ⟨hft, hpt⟩
  case sorted => exact Bool.forall_bool.mpr ⟨hfs, hps⟩
  case length =>
    exact Bool.forall_bool.mpr ⟨(layoutClasses_eq_some hfixed).1, (layoutClasses_eq_some hprovided).1⟩
  case providedEnd =>
    intro c hc
    exact (hpp.total_le hpz hc).trans hstart
  case fixedEnd =>
    intro c hc
    exact Nat.add_le_add_left (hfp.total_le hfz hc) _
  case start => exact Nat.le_add_right _ _
  case total => exact Nat.lt_succ_of_le htotal
  case fixedAligned => exact Nat.dvd_mul_left _ _
  case align =>
    intro side c hc
    cases side with
    | false =>
      have hin := hft.mem_iff.mp (List.mem_map_of_mem hc)
      exact hdvd c (hfp.admissible c hc).2.1 (List.mem_append_right ps hin)
    | true =>
      have hin := hpt.mem_iff.mp (List.mem_map_of_mem hc)
      exact hdvd c (hpp.admissible c hc).2.1 (List.mem_append_left fs hin)

private theorem layoutSlabMachine_eq {ps fs : List SizeClass} (hu : ∀ c ∈ ps ++ fs, c.size < 2 ^ 32) :
    layoutSlabMachine ps fs = unwrap (layoutSlab ps fs) := by
  rw [layoutSlabMachine, layoutSlab,
    layoutClassesMachine_eq fun c hc => hu c (List.mem_append_left fs hc),
    layoutClassesMachine_eq fun c hc => hu c (List.mem_append_right ps hc)]
  simp only [Option.bind_eq_bind, unwrap_bind, check_eq]
  apply unwrap_bind_congr
  intro provided hprovided
  apply unwrap_bind_congr
  intro fixed hfixed
  apply unwrap_bind_congr
  intro providedTotal hpt
  apply unwrap_bind_congr
  intro align halign
  apply unwrap_bind_congr
  intro _ hpow
  have hprovidedTotal : providedTotal < 2 ^ 32 := by
    obtain ⟨z, hz, rfl⟩ := Option.map_eq_some_iff.mp hpt
    exact ((layoutClasses_placed hprovided).1.total z (List.mem_of_getLast? hz)).2
  have halign' : 0 < align ∧ align ≤ 4096 := by
    obtain ⟨hmem, -⟩ := List.max?_eq_some_iff.mp halign
    obtain ⟨c, -, rfl⟩ := List.mem_map.mp hmem
    have hpos := Nat.pos_of_isPowerOfTwo (isPowerOfTwo_iff.mp ((Option.guard_eq_some' _).mp hpow))
    exact ⟨hpos, min_le_right _ _⟩
  have hstart := roundUp_lt providedTotal halign'.1
  rw [fits_of_lt (by omega)]
  apply unwrap_bind_congr
  intro fixedTotal hft
  have hfixedTotal : fixedTotal < 2 ^ 32 := by
    obtain ⟨z, hz, rfl⟩ := Option.map_eq_some_iff.mp hft
    exact ((layoutClasses_placed hfixed).1.total z (List.mem_of_getLast? hz)).2
  rw [fits_of_lt (by omega)]
  rfl

section slots

variable {l : SlabLayout} {spec : Bool → List SizeClass} {s t : Slot} {c d : SizeClassLayout}

def SlabLayout.offset (l : SlabLayout) (s : Slot) (c : SizeClassLayout) : ℕ :=
  (if s.provided then 0 else l.fixedStart) + c.baseOffset + s.loc * c.size

theorem SlabLayout.Has.mem (h : l.Has s c) : c ∈ l.side s.provided := List.mem_of_getElem? h.1

/-- A slot lies within its class. -/
theorem SlabLayout.Laid.within (hl : l.Laid spec) (h : l.Has s c) :
    c.baseOffset + s.loc * c.size + c.size ≤ c.total := by
  have htotal := ((hl.placed _).total c h.mem).1
  have hmul : (s.loc + 1) * c.size ≤ c.count * c.size := Nat.mul_le_mul_right _ h.2
  rw [Nat.add_mul, Nat.one_mul, Nat.mul_comm c.count] at hmul
  omega

/-- A slot lies within its direction's region. -/
theorem SlabLayout.Laid.region (hl : l.Laid spec) (h : l.Has s c) :
    l.offset s c + c.size ≤ (if s.provided then l.fixedStart else l.total) ∧
      (s.provided = false → l.fixedStart ≤ l.offset s c) := by
  have hin := hl.within h
  have hmem := h.mem
  rw [SlabLayout.offset]
  cases hs : s.provided with
  | true =>
    rw [hs] at hmem
    have hend := hl.providedEnd c hmem
    simp only [if_true]
    exact ⟨by omega, by simp⟩
  | false =>
    rw [hs] at hmem
    have hend := hl.fixedEnd c hmem
    simp only [Bool.false_eq_true, if_false]
    exact ⟨by omega, fun _ => by omega⟩

theorem SlabLayout.Laid.inside (hl : l.Laid spec) (h : l.Has s c) :
    l.offset s c + c.size ≤ l.total := by
  have hend := (hl.region h).1
  have hstart := hl.start
  split at hend <;> omega

theorem SlabLayout.Laid.slotOffset_eq (hl : l.Laid spec) (h : l.Has s c) :
    l.slotOffset s = .ok (l.offset s c) := by
  have hin := hl.inside h
  have htotal := hl.total
  rw [SlabLayout.slotOffset, h.1]
  cases hs : s.provided with
  | true =>
    simp only [SlabLayout.offset, hs, if_true] at hin ⊢
    simp only [unwrap, bind, Except.bind]
    rw [fits_of_lt (by omega)]
    simp only [Nat.zero_add]
    rw [fits_of_lt (by omega)]
  | false =>
    simp only [SlabLayout.offset, hs, Bool.false_eq_true, if_false] at hin ⊢
    simp only [unwrap, bind, Except.bind]
    rw [fits_of_lt (by omega), fits_of_lt (by omega)]
    dsimp only
    rw [fits_of_lt (by omega)]

theorem SlabLayout.Laid.aligned (hl : l.Laid spec) (h : l.Has s c) :
    min c.size bufferMaxAlign ∣ l.offset s c := by
  have hp := hl.placed s.provided
  have hsize : min c.size bufferMaxAlign ∣ c.size := by
    have hpow := (hp.admissible c h.mem).2.1
    exact dvd_of_isPowerOfTwo (isPowerOfTwo_min hpow) (isPowerOfTwo_iff.mp hpow) (min_le_left _ _)
  have hregion : min c.size bufferMaxAlign ∣ if s.provided then 0 else l.fixedStart := by
    split
    · exact dvd_zero _
    · exact (hl.align _ c h.mem).trans hl.fixedAligned
  exact dvd_add (dvd_add hregion (hp.aligned c h.mem)) (hsize.mul_left _)

/-- Two slots of one class lie behind each other. -/
theorem apart_of_loc_lt (h : s.loc < t.loc) : s.loc * c.size + c.size ≤ t.loc * c.size := by
  have hmul : (s.loc + 1) * c.size ≤ t.loc * c.size := Nat.mul_le_mul_right _ h
  rwa [Nat.add_mul, Nat.one_mul] at hmul

/-- The slots of an earlier class end before those of a later one begin. -/
theorem SlabLayout.Laid.apart_of_cls_lt (hl : l.Laid spec) (h : l.Has s c) (h' : l.Has t d)
    (hside : s.provided = t.provided) (hcls : s.cls < t.cls) :
    l.offset s c + c.size ≤ l.offset t d := by
  have hget := h.1
  rw [hside] at hget
  obtain ⟨hi, rfl⟩ := List.getElem?_eq_some_iff.mp hget
  obtain ⟨hj, rfl⟩ := List.getElem?_eq_some_iff.mp h'.1
  have hle := List.pairwise_iff_getElem.mp (hl.placed t.provided).apart _ _ hi hj hcls
  have hin := hl.within h
  simp only [SlabLayout.offset, hside]
  omega

theorem SlabLayout.Laid.apart (hl : l.Laid spec) (h : l.Has s c) (h' : l.Has t d) (hne : s ≠ t) :
    l.offset s c + c.size ≤ l.offset t d ∨ l.offset t d + d.size ≤ l.offset s c := by
  have hr := hl.region h
  have hr' := hl.region h'
  by_cases hside : s.provided = t.provided
  · rcases lt_trichotomy s.cls t.cls with hcls | hcls | hcls
    · exact .inl (hl.apart_of_cls_lt h h' hside hcls)
    · have hcd : c = d := by
        have hsame := h.1
        rw [hside, hcls, h'.1] at hsame
        exact (Option.some.inj hsame).symm
      subst hcd
      have hloc : s.loc ≠ t.loc := by
        intro heq
        apply hne
        cases s
        cases t
        simp_all
      simp only [SlabLayout.offset, hside]
      rcases Nat.lt_or_gt_of_ne hloc with hlt | hlt
      · have := apart_of_loc_lt (c := c) hlt
        omega
      · have := apart_of_loc_lt (c := c) hlt
        omega
    · exact .inr (hl.apart_of_cls_lt h' h hside.symm hcls)
  · cases hs : s.provided with
    | true =>
      have ht : t.provided = false := by
        cases ht : t.provided with
        | false => rfl
        | true => exact absurd (hs.trans ht.symm) hside
      rw [hs, if_pos rfl] at hr
      have := hr'.2 ht
      omega
    | false =>
      have ht : t.provided = true := by
        cases ht : t.provided with
        | true => rfl
        | false => exact absurd (hs.trans ht.symm) hside
      rw [ht, if_pos rfl] at hr'
      have := hr.2 hs
      omega

theorem SlabLayout.Laid.slotOf_bid (hl : l.Laid spec) (h : l.Has s c) : slotOf s.bid = s := by
  have hlen := hl.length s.provided
  obtain ⟨hi, -⟩ := List.getElem?_eq_some_iff.mp h.1
  have hloc : s.loc < 2 ^ 24 := h.2.trans ((hl.placed _).admissible c h.mem).2.2.2
  rw [slotOf, Slot.bid, bidProvided_packBid, bidClass_packBid _ _ (by omega), bidLocal_packBid _ _ hloc]

end slots

/-- The first class that fits is the smallest one of a sorted table. -/
theorem classFor_smallest {classes : List SizeClass} (hs : classes.Pairwise fun a b => a.size < b.size)
    (n : ℕ) : match classFor classes n with
    | some k => ∃ c, classes[k]? = some c ∧ n ≤ c.size ∧ ∀ d ∈ classes, n ≤ d.size → c.size ≤ d.size
    | none => ∀ d ∈ classes, d.size < n := by
  cases hk : classFor classes n with
  | none =>
    intro d hd
    simpa using List.findIdx?_eq_none_iff.mp hk d hd
  | some k =>
    obtain ⟨hlt, hfit, hbefore⟩ := List.findIdx?_eq_some_iff_getElem.mp hk
    refine ⟨classes[k], List.getElem?_eq_getElem hlt, by simpa using hfit, ?_⟩
    intro d hd hn
    obtain ⟨j, hj, rfl⟩ := List.getElem_of_mem hd
    rcases lt_trichotomy j k with hjk | rfl | hjk
    · exact absurd hn (by simpa using hbefore j hjk)
    · exact le_rfl
    · exact (List.pairwise_iff_getElem.mp hs _ _ hlt hj hjk).le

theorem SlabLayout.Laid.sound {l : SlabLayout} {spec : Bool → List SizeClass} (hl : l.Laid spec) :
    l.Sound spec := by
  constructor
  case decodes =>
    intro s c h
    exact hl.slotOf_bid h
  case bids =>
    intro s c t d h h' hne hbid
    rw [← hl.slotOf_bid h, ← hl.slotOf_bid h', hbid] at hne
    exact hne rfl
  case placed =>
    intro s c h
    exact ⟨_, hl.slotOffset_eq h, hl.inside h, hl.aligned h, hl.align _ c h.mem⟩
  case apart =>
    intro s c t d h h' hne o o' ho ho'
    rw [hl.slotOffset_eq h] at ho
    rw [hl.slotOffset_eq h'] at ho'
    rw [← Except.ok.inj ho, ← Except.ok.inj ho']
    exact hl.apart h h' hne
  case table => exact hl.table
  case smallest =>
    intro provided n
    have hsmallest := classFor_smallest (hl.sorted provided) n
    cases hk : classFor (l.classes provided) n with
    | none =>
      rw [hk] at hsmallest
      exact hsmallest
    | some k =>
      rw [hk] at hsmallest
      obtain ⟨c, hget, hrest⟩ := hsmallest
      obtain ⟨hlt, -⟩ := List.getElem?_eq_some_iff.mp hget
      have hlen : (l.classes provided).length ≤ 128 := by
        rw [SlabLayout.classes, List.length_map]
        exact hl.length provided
      exact ⟨by omega, c, hget, hrest⟩

/-- No pair of tables of `u32` sizes makes the layout overflow, and every pair that is accepted gets a sound
one. -/
theorem layoutSlabMachine_sound {ps fs : List SizeClass}
    (hu : ∀ c ∈ ps ++ fs, c.size < 2 ^ 32) :
    layoutSlabMachine ps fs ≠ .error .overflow ∧
      ∀ l, layoutSlabMachine ps fs = .ok l → l.Sound (specOf ps fs) := by
  rw [layoutSlabMachine_eq hu]
  cases hl : layoutSlab ps fs with
  | none => simp [unwrap]
  | some l =>
    constructor
    · simp [unwrap]
    · intro l' h
      obtain rfl := Except.ok.inj h
      exact (layoutSlab_laid hl).sound

/-- Two unsorted tables with a page-sized class and padding between the regions. -/
theorem layoutSlabMachine_sound_unsorted :
    ∃ l, layoutSlabMachine [⟨4096, 2⟩, ⟨64, 1⟩] [⟨8192, 1⟩, ⟨256, 3⟩] = .ok l ∧
      l.Sound (specOf [⟨4096, 2⟩, ⟨64, 1⟩] [⟨8192, 1⟩, ⟨256, 3⟩]) := by
  have hu : ∀ c ∈ [⟨4096, 2⟩, ⟨64, 1⟩] ++ [⟨8192, 1⟩, ⟨256, 3⟩],
      SizeClass.size c < 2 ^ 32 := by decide
  refine ⟨⟨[⟨64, 1, 0, 64⟩, ⟨4096, 2, 4096, 12288⟩], [⟨256, 3, 0, 768⟩, ⟨8192, 1, 4096, 12288⟩],
    4096, 12288, 24576⟩, by decide +kernel, ?_⟩
  exact (layoutSlabMachine_sound hu).2 _ (by decide +kernel)

end Conrt.Buf
