import Conrt.Base.Run
import Conrt.Buf.Handout

/-! Sequences of view calls: they keep the books exactly when no slice cast passes its check. -/
namespace Conrt.Buf

open Conrt.Base

/-- A slice cast whose length check passes; only such a call releases a borrow it should move. -/
def Op.releasesEarly : Op → Bool
  | .cast v sizeU => v.isSlice && decide (sizeU ∣ v.len * v.elem)
  | _ => false

namespace World

variable {w w' : World} {v : View}

theorem cell_new_fixed (size count cls loc : ℕ) :
    Slab.cell (FixedSlab.new size count cls) loc = if loc < count then some (0, 1) else none := by
  have hc : (List.range count).count loc = if loc < count then 1 else 0 := by
    rw [List.Nodup.count List.nodup_range]
    simp
  by_cases h : loc < count <;>
    simp [Slab.cell, Slab.tracker, Slab.home, FixedSlab.new, BorrowTracker.new, h, hc]

private theorem cell_new_provided (size count cls loc : ℕ) :
    Slab.cell (ProvidedSlab.new count size cls) loc =
      if loc < count then some (0, 1) else none := cell_new_fixed size count cls loc

/-- Every slot starts free and at home, and fits a packed `bid`. -/
theorem buildPools_cell {ps fs : List SizeClass} {p : Pools} (h : buildPools ps fs = some p)
    {s : Slot} {c : ℤ × ℕ} (hc : p.cell s = some c) :
    c = (0, 1) ∧ s.cls < 128 ∧ s.loc < 2 ^ 24 := by
  simp only [buildPools, Option.bind_eq_bind, Option.bind_eq_some_iff, Option.some.injEq] at h
  obtain ⟨slab, hslab, rfl⟩ := h
  obtain ⟨hpl, hfl⟩ := layoutSlab_eq_some hslab
  obtain ⟨hp1, hp2⟩ := layoutClasses_eq_some hpl
  obtain ⟨hf1, hf2⟩ := layoutClasses_eq_some hfl
  have main : ∀ ls : List SizeClassLayout, ls.length ≤ 128 → (∀ l ∈ ls, l.count ≤ bidLocalMask) →
      (ls[s.cls]?).bind (fun l => if s.loc < l.count then some ((0, 1) : ℤ × ℕ) else none) = some c →
      c = (0, 1) ∧ s.cls < 128 ∧ s.loc < 2 ^ 24 := by
    intro ls h1 h2 hls
    obtain ⟨l, hl, hlc⟩ := Option.bind_eq_some_iff.mp hls
    split_ifs at hlc with hlt
    obtain ⟨hi, rfl⟩ := List.getElem?_eq_some_iff.mp hl
    have hmax := h2 _ (List.getElem_mem hi)
    rw [bidLocalMask] at hmax
    exact ⟨(Option.some.inj hlc).symm, by omega, by omega⟩
  rcases s with ⟨provided, i, k⟩
  cases provided with
  | true =>
    refine main slab.provided hp1 hp2 ?_
    simpa [Pools.cell, Option.bind_map, Function.comp_def, cell_new_provided] using hc
  | false =>
    refine main slab.fixed hf1 hf2 ?_
    simpa [Pools.cell, Option.bind_map, Function.comp_def, cell_new_fixed] using hc

theorem boot_sound {live : ℕ} {ps fs : List SizeClass} (h : World.boot live ps fs = some w) :
    w.Sound := by
  obtain ⟨p, hp, rfl⟩ := Option.map_eq_some_iff.mp h
  refine ⟨?_, by simp, by simp, ?_⟩
  · intro s b n hs
    obtain ⟨hbn, -, -⟩ := buildPools_cell hp hs
    obtain ⟨rfl, rfl⟩ := Prod.mk.inj hbn
    simp [Balanced]
  · intro s hs
    obtain ⟨c, hc⟩ := Option.isSome_iff_exists.mp hs
    exact (buildPools_cell hp hc).2

private theorem keeps_intoBase (hw : w.Sound) (hv : v ∈ w.views) :
    w.Keeps (some v) (intoBase w.pools v) := by
  intro w' h
  obtain rfl := Option.some.inj h
  exact hw.keep hv _ rfl rfl (base_exclusive v)

private theorem keeps_castRef (hw : w.Sound) (hv : v ∈ w.views) :
    w.Keeps (some v) (castRef w.pools v) := by
  intro w' h
  obtain rfl := Option.some.inj h
  exact hw.keep hv _ rfl rfl rfl

/-- A refused slice cast drops the slice it took. -/
theorem keeps_castSlice (hw : w.Sound) (hv : v ∈ w.views) {sizeU : ℕ}
    (hr : ¬ sizeU ∣ v.len * v.elem) : w.Keeps (some v) (castSlice w.live w.pools v sizeU) := by
  rw [castSlice, if_neg hr]
  exact hw.unwind hv

theorem bytes_shared (h : v.isBytes) : v.exclusive = false := by
  simp only [View.isBytes, Bool.and_eq_true, Bool.not_eq_true'] at h
  exact h.1.2

theorem bytesMut_exclusive (h : v.isBytesMut) : v.exclusive = true := by
  simp only [View.isBytesMut, Bool.and_eq_true] at h
  exact h.1.2

theorem keeps_replace (hw : w.Sound) (hv : v ∈ w.views) {r : Option View}
    (hr : ∀ v' ∈ r, ∃ n, v' = v.covering n) : (w.replace v r).Sound := by
  cases r with
  | none => exact hw
  | some v' =>
    obtain ⟨n, rfl⟩ := hr v' rfl
    have h := hw.keep hv (v.covering n) rfl rfl (covering_exclusive v n)
    simpa [replace] using h

private theorem setLen_covering {live : ℕ} {p : Pools} {n : ℕ} {v' : View}
    (h : Buf.setLen live p v n = some v') : ∃ n, v' = v.covering n := by
  rw [Buf.setLen] at h
  split_ifs at h
  simp only [Option.bind_eq_bind, Option.bind_eq_some_iff, Option.some.injEq] at h
  obtain ⟨-, -, -, -, -, -, rfl⟩ := h
  exact ⟨n, rfl⟩

theorem step_sound (hw : w.Sound) {op : Op} (ho : op.releasesEarly = false)
    (h : w.step op = some w') : w'.Sound := by
  cases op with
  | alloc sizeT alignT => exact (hands_alloc hw sizeT alignT w' h).1
  | allocMut sizeT alignT => exact (hands_allocMut hw sizeT alignT w' h).1
  | allocBytes size => exact (hands_allocBytes hw size w' h).1
  | allocSliceMut sizeT alignT count => exact (hands_allocSliceMut hw sizeT alignT count w' h).1
  | providedBytes cls loc len => exact (hands_providedBytes hw cls loc len w' h).1
  | clone v =>
    obtain ⟨⟨hv, -⟩, h⟩ := guard_bind h
    exact keeps_clone hw hv w' h
  | sub v a b =>
    obtain ⟨⟨hv, -⟩, h⟩ := guard_bind h
    exact keeps_sub hw hv a b w' h
  | cast v sizeU =>
    obtain ⟨hv, h⟩ := guard_bind h
    by_cases hs : v.isSlice
    · rw [if_pos hs] at h
      refine keeps_castSlice hw hv ?_ w' h
      simpa [Op.releasesEarly, hs] using ho
    · rw [if_neg hs] at h
      obtain ⟨-, h⟩ := guard_bind h
      exact keeps_castRef hw hv w' h
  | intoMut v =>
    obtain ⟨⟨hv, ht⟩, h⟩ := guard_bind h
    have he : v.exclusive = false := by
      rcases ht with ht | ht
      · simp [View.exclusive, ht]
      · exact bytes_shared ht
    split_ifs at h
    · exact keeps_bytesIntoMut hw hv he w' h
    · exact keeps_intoMut hw hv he w' h
  | intoRef v =>
    obtain ⟨⟨hv, ht⟩, h⟩ := guard_bind h
    split_ifs at h with hs
    · exact keeps_intoBase hw hv w' h
    · refine keeps_intoShared hw hv ?_ w' h
      cases hspan : v.span <;> simp_all [View.exclusive, View.isSlice]
  | intoBytes v =>
    obtain ⟨⟨hv, ht⟩, h⟩ := guard_bind h
    exact keeps_intoBytes hw hv (bytesMut_exclusive ht) w' h
  | splitAt v mid =>
    obtain ⟨⟨hv, ht⟩, h⟩ := guard_bind h
    exact keeps_splitAt hw hv (bytesMut_exclusive ht) mid w' h
  | intoVec v =>
    obtain ⟨⟨hv, ht⟩, h⟩ := guard_bind h
    exact keeps_intoVec hw hv (bytes_shared ht) w' h
  | setLen v newLen =>
    obtain ⟨⟨hv, -⟩, h⟩ := guard_bind h
    obtain rfl := Option.some.inj h
    exact keeps_replace hw hv fun _ hr => setLen_covering hr
  | clear v =>
    obtain ⟨⟨hv, -⟩, h⟩ := guard_bind h
    obtain rfl := Option.some.inj h
    exact keeps_replace hw hv fun _ hr => ⟨0, (Option.mem_some_iff.mp hr).symm⟩
  | drop v =>
    obtain ⟨hv, h⟩ := guard_bind h
    exact keeps_dropSelf hw hv w' h

/-- Releasing a borrow of a slot none of whose views goes unbalances the slot. -/
theorem Accounted.release (hw : w.Accounted) (hv : v.generation = w.live) {p : Pools}
    (hp : dropValue w.live w.pools v = some p) {views : List View}
    (ht : ∀ e, tally views v.slot e = tally w.views v.slot e) :
    ¬ Accounted { w with pools := p, views := views } := by
  rw [dropValue, hv] at hp
  obtain ⟨c, c', hc, hg, hcell⟩ := dropView_acts hp
  obtain ⟨b, hr, rfl⟩ := Option.map_eq_some_iff.mp hg
  intro hacc
  obtain ⟨hold, -, -⟩ := hw v.slot c.1 c.2 hc
  obtain ⟨hnew, -, -⟩ := hacc v.slot _ _ ((hcell v.slot).trans (if_pos rfl))
  rw [ht, ht, ← hold] at hnew
  cases hk : v.exclusive with
  | false =>
    obtain ⟨-, rfl⟩ := BorrowTracker.released_false (hk ▸ hr)
    omega
  | true =>
    obtain ⟨-, rfl⟩ := BorrowTracker.released_true (hk ▸ hr)
    omega

def oneSlot : World :=
  { pools :=
      { providedPool := ⟨[⟨64, 1⟩], [⟨1, 64, 0, [0], ⟨[0]⟩⟩]⟩
        fixedPool := ⟨[⟨64, 1⟩], [⟨64, 0, [0], ⟨[0]⟩⟩]⟩ }
    live := 1
    views := [] }

end World

end Conrt.Buf
