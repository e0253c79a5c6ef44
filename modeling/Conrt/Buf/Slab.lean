import Conrt.Buf.Classes
import Conrt.Buf.Tracker

/-! Slabs of one size class, the two pools, and the `bid` routing into them. -/
namespace Conrt.Buf

/-- The interface pools use. `home` lists the slots waiting to be handed out. -/
class Slab (S : Type) where
  slotSize : S → ℕ
  tracker : S → BorrowTracker
  setTracker : S → BorrowTracker → S
  recycle : S → ℕ → S
  home : S → List ℕ

namespace Slab

variable {S : Type} [Slab S]

def track (s : S) (f : BorrowTracker → Option BorrowTracker) : Option S :=
  (f (tracker s)).map (setTracker s)

def dropView (s : S) (exclusive : Bool) (loc : ℕ) : Option S := do
  let (t, free) ← (tracker s).dropView exclusive loc
  let s := setTracker s t
  some (if free then recycle s loc else s)

end Slab

/-- What each implementation owes the interface: writing the tracker leaves the home list alone,
recycling adds exactly one entry to it. -/
class LawfulSlab (S : Type) extends Slab S where
  tracker_setTracker (s : S) (t : BorrowTracker) : tracker (setTracker s t) = t
  home_setTracker (s : S) (t : BorrowTracker) : home (setTracker s t) = home s
  tracker_recycle (s : S) (loc : ℕ) : tracker (recycle s loc) = tracker s
  home_recycle (s : S) (loc : ℕ) : (home (recycle s loc)).Perm (loc :: home s)

/-- Registered write buffers: `free` is the stack of free slots, top first. -/
structure FixedSlab where
  size : ℕ
  cls : ℕ
  free : List ℕ
  tracker : BorrowTracker
deriving DecidableEq, Repr

/-- The stack is seeded so that the first acquire returns slot 0. -/
def FixedSlab.new (size count cls : ℕ) : FixedSlab :=
  ⟨size, cls, List.range count, .new count⟩

instance : LawfulSlab FixedSlab where
  slotSize s := s.size
  tracker s := s.tracker
  setTracker s t := { s with tracker := t }
  recycle s loc := { s with free := loc :: s.free }
  home s := s.free
  tracker_setTracker _ _ := rfl
  home_setTracker _ _ := rfl
  tracker_recycle _ _ := rfl
  home_recycle _ _ := .refl _

/-- A provided-buffer ring: `ring` lists the buffer ids published to the kernel that no completion
has handed over yet, oldest first. -/
structure ProvidedSlab where
  bufCount : ℕ
  size : ℕ
  cls : ℕ
  ring : List ℕ
  tracker : BorrowTracker
deriving DecidableEq, Repr

def ProvidedSlab.new (count size cls : ℕ) : ProvidedSlab :=
  ⟨count, size, cls, List.range count, .new count⟩

/-- Publishes `loc` behind the tail again. -/
def ProvidedSlab.recycleBuffer (s : ProvidedSlab) (loc : ℕ) : ProvidedSlab :=
  { s with ring := s.ring ++ [loc] }

instance : LawfulSlab ProvidedSlab where
  slotSize s := s.size
  tracker s := s.tracker
  setTracker s t := { s with tracker := t }
  recycle := ProvidedSlab.recycleBuffer
  home s := s.ring
  tracker_setTracker _ _ := rfl
  home_setTracker _ _ := rfl
  tracker_recycle _ _ := rfl
  home_recycle s loc := List.perm_append_singleton loc s.ring

structure Pool (S : Type) where
  classes : List SizeClass
  slabs : List S
deriving DecidableEq, Repr

structure Pools where
  providedPool : Pool ProvidedSlab
  fixedPool : Pool FixedSlab
deriving DecidableEq, Repr

/-- Replaces the slab of class `cls` by what `f` makes of it. -/
def Pool.onSlab {S : Type} (p : Pool S) (cls : ℕ) (f : S → Option S) : Option (Pool S) := do
  let s ← p.slabs[cls]?
  let s ← f s
  some { p with slabs := p.slabs.set cls s }

/-- Decodes `bid` once and runs `f` on the slab and slot it names. -/
def Pools.withSlab (p : Pools) (bid : ℕ)
    (f : {S : Type} → [LawfulSlab S] → S → ℕ → Option S) : Option Pools :=
  if bidProvided bid then
    (p.providedPool.onSlab (bidClass bid) (f · (bidLocal bid))).map
      fun pool => { p with providedPool := pool }
  else
    (p.fixedPool.onSlab (bidClass bid) (f · (bidLocal bid))).map
      fun pool => { p with fixedPool := pool }

def Pools.slotSize (p : Pools) (bid : ℕ) : Option ℕ :=
  if bidProvided bid then (p.providedPool.slabs[bidClass bid]?).map (·.size)
  else (p.fixedPool.slabs[bidClass bid]?).map (·.size)

/-- Both pools over one shared slab; `none` when the class tables are rejected. -/
def buildPools (providedSpec fixedSpec : List SizeClass) : Option Pools := do
  let slab ← layoutSlab providedSpec fixedSpec
  some
    { providedPool :=
        { classes := slab.provided.map fun l => ⟨l.size, l.count⟩
          slabs := slab.provided.mapIdx fun i l => .new l.count l.size i }
      fixedPool :=
        { classes := slab.fixed.map fun l => ⟨l.size, l.count⟩
          slabs := slab.fixed.mapIdx fun i l => .new l.size l.count i } }

/-- What the accounting is about: for each slot, its count and how often it waits at home. -/
structure Slot where
  provided : Bool
  cls : ℕ
  loc : ℕ
deriving DecidableEq, Repr

def slotOf (bid : ℕ) : Slot := ⟨bidProvided bid, bidClass bid, bidLocal bid⟩

/-- One slot's count and the number of its entries on the home list. -/
def Slab.cell {S : Type} [Slab S] (s : S) (loc : ℕ) : Option (ℤ × ℕ) :=
  ((Slab.tracker s).borrows[loc]?).map fun b => (b, (Slab.home s).count loc)

def Pools.cell (p : Pools) (s : Slot) : Option (ℤ × ℕ) :=
  if s.provided then (p.providedPool.slabs[s.cls]?).bind fun slab => Slab.cell slab s.loc
  else (p.fixedPool.slabs[s.cls]?).bind fun slab => Slab.cell slab s.loc

/-- `after` differs from `before` in one cell, which exists and changes by `g`. -/
def Acts {ι : Type*} [DecidableEq ι] (before after : ι → Option (ℤ × ℕ)) (i : ι)
    (g : ℤ × ℕ → Option (ℤ × ℕ)) : Prop :=
  ∃ c c', before i = some c ∧ g c = some c' ∧ ∀ k, after k = if k = i then some c' else before k

def counting (f : ℤ → Option ℤ) (c : ℤ × ℕ) : Option (ℤ × ℕ) := (f c.1).map (·, c.2)

def releasing (exclusive : Bool) (c : ℤ × ℕ) : Option (ℤ × ℕ) :=
  (BorrowTracker.released exclusive c.1).map fun b => (b, if b = 0 then c.2 + 1 else c.2)

section lemmas

variable {S : Type} [LawfulSlab S]

theorem Slab.cell_setTracker (s : S) (t : BorrowTracker) (k : ℕ) :
    Slab.cell (Slab.setTracker s t) k = (t.borrows[k]?).map fun b => (b, (Slab.home s).count k) := by
  simp only [Slab.cell, LawfulSlab.tracker_setTracker, LawfulSlab.home_setTracker]

private theorem Slab.cell_recycle (s : S) (loc k : ℕ) :
    Slab.cell (Slab.recycle s loc) k =
      (Slab.cell s k).map fun c => (c.1, if k = loc then c.2 + 1 else c.2) := by
  have hc : (Slab.home (Slab.recycle s loc)).count k =
      if k = loc then (Slab.home s).count k + 1 else (Slab.home s).count k := by
    rw [(LawfulSlab.home_recycle s loc).count_eq, List.count_cons]
    by_cases hk : k = loc
    · simp [hk]
    · simp [hk, Ne.symm hk]
  simp only [Slab.cell, LawfulSlab.tracker_recycle, hc, Option.map_map]
  rfl

theorem Slab.track_acts {s s' : S} {loc : ℕ} {f : ℤ → Option ℤ}
    (h : Slab.track s (BorrowTracker.update · loc f) = some s') :
    Acts (Slab.cell s) (Slab.cell s') loc (counting f) := by
  obtain ⟨t, ht, rfl⟩ := Option.map_eq_some_iff.mp h
  obtain ⟨b, b', hb, hf, ht⟩ := BorrowTracker.update_getElem? ht
  refine ⟨(b, (Slab.home s).count loc), (b', (Slab.home s).count loc), ?_, ?_, fun k => ?_⟩
  · rw [Slab.cell, hb, Option.map_some]
  · rw [counting, hf, Option.map_some]
  · rw [Slab.cell_setTracker, ht]
    by_cases hk : k = loc
    · rw [if_pos hk, if_pos hk, hk, Option.map_some]
    · rw [if_neg hk, if_neg hk, Slab.cell]

theorem Slab.dropView_acts {s s' : S} {exclusive : Bool} {loc : ℕ}
    (h : Slab.dropView s exclusive loc = some s') :
    Acts (Slab.cell s) (Slab.cell s') loc (releasing exclusive) := by
  simp only [Slab.dropView, Option.bind_eq_bind, Option.bind_eq_some_iff, Option.some.injEq] at h
  obtain ⟨⟨t, free⟩, hd, rfl⟩ := h
  obtain ⟨hu, b, hb, rfl⟩ := BorrowTracker.dropView_eq_some hd
  have ht : Slab.track s (BorrowTracker.update · loc (BorrowTracker.released exclusive)) =
      some (Slab.setTracker s t) := by rw [Slab.track, hu]; rfl
  obtain ⟨c, c', hc, hr, hcell⟩ := Slab.track_acts ht
  obtain ⟨b', hb', rfl⟩ := Option.map_eq_some_iff.mp hr
  -- the count the release left decides whether the slot goes home
  have hval := Slab.cell_setTracker s t loc
  rw [hcell, if_pos rfl, hb, Option.map_some] at hval
  obtain rfl : b' = b := congrArg Prod.fst (Option.some.inj hval)
  refine ⟨c, _, hc, by rw [releasing, hb', Option.map_some], fun k => ?_⟩
  by_cases h0 : b' = 0
  · rw [decide_eq_true h0, if_pos rfl, Slab.cell_recycle, hcell]
    by_cases hk : k = loc
    · simp [hk, h0]
    · simp [hk]
  · rw [decide_eq_false h0, if_neg (by simp), hcell]
    simp [h0]

theorem Pool.onSlab_eq_some {S : Type} {p p' : Pool S} {cls : ℕ} {f : S → Option S}
    (h : p.onSlab cls f = some p') :
    ∃ s s', p.slabs[cls]? = some s ∧ f s = some s' ∧
      p' = { p with slabs := p.slabs.set cls s' } := by
  simp only [Pool.onSlab, Option.bind_eq_bind, Option.bind_eq_some_iff, Option.some.injEq] at h
  obtain ⟨s, hs, s', hs', rfl⟩ := h
  exact ⟨s, s', hs, hs', rfl⟩

/-- Replacing one slab changes the cells of that slab only. -/
theorem Pool.set_cell {p : List S} {cls : ℕ} {s : S} (hs : p[cls]? = some s) (s' : S) (i k : ℕ) :
    ((p.set cls s')[i]?).bind (Slab.cell · k) =
      if i = cls then Slab.cell s' k else (p[i]?).bind (Slab.cell · k) := by
  have hlt : cls < p.length := (List.getElem?_eq_some_iff.mp hs).1
  by_cases hi : i = cls
  · subst hi
    simp [hlt]
  · simp [hi, Ne.symm hi]

theorem Pools.set_fixed_acts {p : Pools} {cls loc : ℕ} {s s' : FixedSlab}
    {g : ℤ × ℕ → Option (ℤ × ℕ)} (hs : p.fixedPool.slabs[cls]? = some s)
    (h : Acts (Slab.cell s) (Slab.cell s') loc g) :
    Acts p.cell { p with fixedPool :=
      { p.fixedPool with slabs := p.fixedPool.slabs.set cls s' } }.cell ⟨false, cls, loc⟩ g := by
  obtain ⟨c, c', hc, hg, hcell⟩ := h
  refine ⟨c, c', by simp [Pools.cell, hs, hc], hg, ?_⟩
  rintro ⟨provided, i, k⟩
  cases provided with
  | true => simp [Pools.cell]
  | false =>
    simp only [Pools.cell, Bool.false_eq_true, if_false, Pool.set_cell hs, hcell]
    by_cases hi : i = cls <;> by_cases hk : k = loc <;> simp [hi, hk, hs]

theorem Pools.set_provided_acts {p : Pools} {cls loc : ℕ} {s s' : ProvidedSlab}
    {g : ℤ × ℕ → Option (ℤ × ℕ)} (hs : p.providedPool.slabs[cls]? = some s)
    (h : Acts (Slab.cell s) (Slab.cell s') loc g) :
    Acts p.cell { p with providedPool :=
      { p.providedPool with slabs := p.providedPool.slabs.set cls s' } }.cell
      ⟨true, cls, loc⟩ g := by
  obtain ⟨c, c', hc, hg, hcell⟩ := h
  refine ⟨c, c', by simp [Pools.cell, hs, hc], hg, ?_⟩
  rintro ⟨provided, i, k⟩
  cases provided with
  | false => simp [Pools.cell]
  | true =>
    simp only [Pools.cell, if_true, Pool.set_cell hs, hcell]
    by_cases hi : i = cls <;> by_cases hk : k = loc <;> simp [hi, hk, hs]

theorem Pools.set_fixed_congr {p : Pools} {cls : ℕ} {s s' : FixedSlab}
    (hs : p.fixedPool.slabs[cls]? = some s) (h : ∀ k, Slab.cell s' k = Slab.cell s k) (i : Slot) :
    ({ p with fixedPool := { p.fixedPool with slabs := p.fixedPool.slabs.set cls s' } }).cell i =
      p.cell i := by
  simp only [Pools.cell, Pool.set_cell hs, h]
  by_cases hi : i.cls = cls <;> simp [hi, hs]

theorem Pools.set_provided_congr {p : Pools} {cls : ℕ} {s s' : ProvidedSlab}
    (hs : p.providedPool.slabs[cls]? = some s) (h : ∀ k, Slab.cell s' k = Slab.cell s k)
    (i : Slot) :
    ({ p with providedPool :=
      { p.providedPool with slabs := p.providedPool.slabs.set cls s' } }).cell i = p.cell i := by
  simp only [Pools.cell, Pool.set_cell hs, h]
  by_cases hi : i.cls = cls <;> simp [hi, hs]

end lemmas

/-- A slab operation acts on the slot `bid` names and leaves every other slot alone. -/
theorem Pools.withSlab_acts {p p' : Pools} {bid : ℕ}
    {f : {S : Type} → [LawfulSlab S] → S → ℕ → Option S} {g : ℤ × ℕ → Option (ℤ × ℕ)}
    (h : p.withSlab bid f = some p')
    (hf : ∀ {S : Type} [LawfulSlab S] (s s' : S), f s (bidLocal bid) = some s' →
      Acts (Slab.cell s) (Slab.cell s') (bidLocal bid) g) :
    Acts p.cell p'.cell (slotOf bid) g := by
  simp only [Pools.withSlab] at h
  split_ifs at h with hp
  all_goals
    obtain ⟨pool, hpool, rfl⟩ := Option.map_eq_some_iff.mp h
    obtain ⟨s, s', hs, hs', rfl⟩ := Pool.onSlab_eq_some hpool
  · simpa only [slotOf, hp] using Pools.set_provided_acts hs (hf s s' hs')
  · simpa only [slotOf, hp] using Pools.set_fixed_acts hs (hf s s' hs')

end Conrt.Buf
