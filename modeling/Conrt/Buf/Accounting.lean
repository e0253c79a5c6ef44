import Conrt.Base.Run
import Conrt.Buf.View

/-! Borrow accounting: counts against live views, and where a free slot waits. -/
namespace Conrt.Buf

open Conrt.Base

/-- One slot's books: count `b`, `h` entries on its home list, `sh` shared and `ex` exclusive
views alive. -/
def Balanced (b : ℤ) (h sh ex : ℕ) : Prop :=
  b = sh - ex ∧ (sh = 0 ∨ ex = 0) ∧ h = if sh + ex = 0 then 1 else 0

def tally (vs : List View) (s : Slot) (exclusive : Bool) : ℕ :=
  vs.countP fun v => v.slot = s ∧ v.exclusive = exclusive

/-- The books of every slot balance. -/
def World.Accounted (w : World) : Prop :=
  ∀ s b h, w.pools.cell s = some (b, h) → Balanced b h (tally w.views s false) (tally w.views s true)

/-- Besides balanced books, every live view belongs to this generation and names a slot, and every
slot fits a packed `bid`. -/
structure World.Sound (w : World) : Prop where
  accounted : w.Accounted
  current : ∀ v ∈ w.views, v.generation = w.live
  named : ∀ v ∈ w.views, (w.pools.cell v.slot).isSome
  addressable : ∀ s, (w.pools.cell s).isSome → s.cls < 128 ∧ s.loc < 2 ^ 24

@[simp] theorem tally_nil (s : Slot) (e : Bool) : tally [] s e = 0 := rfl

@[simp] theorem tally_append (vs ws : List View) (s : Slot) (e : Bool) :
    tally (vs ++ ws) s e = tally vs s e + tally ws s e := List.countP_append

theorem tally_cons (v : View) (vs : List View) (s : Slot) (e : Bool) :
    tally (v :: vs) s e = tally vs s e + if v.slot = s ∧ v.exclusive = e then 1 else 0 := by
  simp [tally, List.countP_cons]

/-- A live view is one of those counted. -/
theorem tally_erase {v : View} {vs : List View} (hv : v ∈ vs) (s : Slot) (e : Bool) :
    tally vs s e = tally (vs.erase v) s e + if v.slot = s ∧ v.exclusive = e then 1 else 0 := by
  rw [tally, (List.perm_cons_erase hv).countP_eq, ← tally, tally_cons]

def kinds (vs : List View) (exclusive : Bool) : ℕ := vs.countP fun v => v.exclusive = exclusive

@[simp] theorem kinds_nil (e : Bool) : kinds [] e = 0 := rfl

@[simp] theorem kinds_cons (v : View) (vs : List View) (e : Bool) :
    kinds (v :: vs) e = kinds vs e + if v.exclusive = e then 1 else 0 := by
  simp [kinds, List.countP_cons]

theorem tally_same {vs : List View} {i : Slot} (h : ∀ v ∈ vs, v.slot = i) (e : Bool) :
    tally vs i e = kinds vs e := by
  refine List.countP_congr fun v hv => ?_
  simp [h v hv]

theorem tally_other {vs : List View} {i s : Slot} (h : ∀ v ∈ vs, v.slot = i) (hs : s ≠ i)
    (e : Bool) : tally vs s e = 0 := by
  refine List.countP_eq_zero.mpr fun v hv => ?_
  simp [h v hv, Ne.symm hs]

/-- What is alive is what a call left alone and what it consumed. -/
theorem tally_diff {vs : List View} (consumed : Option View) (h : ∀ v ∈ consumed, v ∈ vs)
    (s : Slot) (e : Bool) :
    tally vs s e = tally (vs.diff consumed.toList) s e + tally consumed.toList s e := by
  cases consumed with
  | none => simp
  | some v =>
    rw [Option.toList_some, List.diff_cons, List.diff_nil, tally_erase (h v rfl), tally_cons,
      tally_nil, Nat.zero_add]

theorem Acts.refl {ι : Type*} [DecidableEq ι] {cell : ι → Option (ℤ × ℕ)} {i : ι}
    (h : (cell i).isSome) : Acts cell cell i some := by
  obtain ⟨c, hc⟩ := Option.isSome_iff_exists.mp h
  refine ⟨c, c, hc, rfl, fun k => ?_⟩
  by_cases hk : k = i
  · rw [if_pos hk, hk, hc]
  · rw [if_neg hk]

/-- A call that consumes and hands out views of one slot keeps the books if it balances there. -/
theorem World.Sound.exchange {w : World} (hw : w.Sound) {i : Slot} {p : Pools}
    {g : ℤ × ℕ → Option (ℤ × ℕ)} (consumed : Option View) (out : List View)
    (hp : Acts w.pools.cell p.cell i g)
    (hc : ∀ v ∈ consumed, v ∈ w.views ∧ v.slot = i)
    (ho : ∀ v ∈ out, v.slot = i ∧ v.generation = w.live)
    (hb : ∀ c c' sh ex, g c = some c' →
      Balanced c.1 c.2 (sh + kinds consumed.toList false) (ex + kinds consumed.toList true) →
      Balanced c'.1 c'.2 (sh + kinds out false) (ex + kinds out true)) :
    World.Sound { w with pools := p, views := w.views.diff consumed.toList ++ out } := by
  obtain ⟨c, c', hci, hg, hcell⟩ := hp
  have hin : ∀ v ∈ consumed, v ∈ w.views := fun v hv => (hc v hv).1
  have hci' : ∀ v ∈ consumed.toList, v.slot = i := fun v hv =>
    (hc v (Option.mem_toList.mp hv)).2
  have hslot : ∀ v ∈ out, v.slot = i := fun v hv => (ho v hv).1
  have hold : ∀ v ∈ w.views.diff consumed.toList, v ∈ w.views := fun v hv =>
    List.diff_subset _ _ hv
  refine ⟨?_, ?_, ?_, ?_⟩
  · intro s b h hs
    rw [hcell] at hs
    by_cases hsi : s = i
    · subst hsi
      obtain rfl : c' = (b, h) := by simpa using hs
      have hbal := hw.accounted s c.1 c.2 hci
      rw [tally_diff _ hin s false, tally_diff _ hin s true, tally_same hci', tally_same hci'] at hbal
      simpa only [tally_append, tally_same hslot] using hb c (b, h) _ _ hg hbal
    · rw [if_neg hsi] at hs
      have hbal := hw.accounted s b h hs
      rw [tally_diff _ hin s false, tally_diff _ hin s true, tally_other hci' hsi,
        tally_other hci' hsi] at hbal
      simpa only [tally_append, tally_other hslot hsi] using hbal
  · intro v hv
    rcases List.mem_append.mp hv with hv | hv
    · exact hw.current v (hold v hv)
    · exact (ho v hv).2
  · intro v hv
    change (p.cell v.slot).isSome
    rw [hcell]
    split_ifs with h
    · rfl
    · rcases List.mem_append.mp hv with hv | hv
      · exact hw.named v (hold v hv)
      · exact absurd (hslot v hv) h
  · intro s hs
    change (p.cell s).isSome at hs
    rw [hcell] at hs
    by_cases hsi : s = i
    · exact hw.addressable s (by simp [hsi, hci])
    · rw [if_neg hsi] at hs
      exact hw.addressable s hs

section moves

variable {b b' : ℤ} {h sh ex : ℕ}

theorem Balanced.clone (hp : 0 < b) (hb : Balanced b h sh ex) : Balanced (b + 1) h (sh + 1) ex := by
  obtain ⟨h1, h2, h3⟩ := hb
  split_ifs at h3 with hz
  · omega
  · exact ⟨by omega, by omega, by rw [if_neg (by omega)]; exact h3⟩

theorem Balanced.split (hn : b < 0) (hb : Balanced b h sh ex) : Balanced (b - 1) h sh (ex + 1) := by
  obtain ⟨h1, h2, h3⟩ := hb
  split_ifs at h3 with hz
  · omega
  · exact ⟨by omega, by omega, by rw [if_neg (by omega)]; exact h3⟩

theorem Balanced.upgrade (hb : Balanced 1 h (sh + 1) ex) : Balanced (-1) h sh (ex + 1) := by
  obtain ⟨h1, h2, h3⟩ := hb
  exact ⟨by omega, by omega, by rw [if_neg (by omega)] at h3 ⊢; exact h3⟩

theorem Balanced.downgrade (hb : Balanced (-1) h sh (ex + 1)) : Balanced 1 h (sh + 1) ex := by
  obtain ⟨h1, h2, h3⟩ := hb
  exact ⟨by omega, by omega, by rw [if_neg (by omega)] at h3 ⊢; exact h3⟩

theorem Balanced.releaseShared (hb : Balanced b h (sh + 1) ex) :
    Balanced (b - 1) (if b - 1 = 0 then h + 1 else h) sh ex := by
  obtain ⟨h1, h2, h3⟩ := hb
  rw [if_neg (by omega)] at h3
  refine ⟨by omega, by omega, ?_⟩
  split_ifs <;> omega

theorem Balanced.releaseExclusive (hb : Balanced b h sh (ex + 1)) :
    Balanced (b + 1) (if b + 1 = 0 then h + 1 else h) sh ex := by
  obtain ⟨h1, h2, h3⟩ := hb
  rw [if_neg (by omega)] at h3
  refine ⟨by omega, by omega, ?_⟩
  split_ifs <;> omega

/-- A slot waiting at home is free and waits there once. -/
theorem Balanced.home (hb : Balanced b h sh ex) (hp : 0 < h) :
    b = 0 ∧ h = 1 ∧ sh = 0 ∧ ex = 0 := by
  obtain ⟨h1, h2, h3⟩ := hb
  split_ifs at h3 <;> omega

/-- Handing out a slot takes its only entry off the home list. -/
theorem Balanced.take (h0 : b = 0) (hb : Balanced b h sh ex) (e : Bool) :
    Balanced (if e then -1 else 1) (h - 1) (sh + if e then 0 else 1) (ex + if e then 1 else 0) := by
  obtain ⟨h1, h2, h3⟩ := hb
  rw [if_pos (by omega)] at h3
  cases e <;> simp only [Bool.false_eq_true, if_true, if_false] <;>
    exact ⟨by push_cast; omega, by omega, by rw [if_neg (by omega)]; omega⟩

end moves

section routed

variable {live : ℕ} {p p' : Pools} {bid : ℕ}

theorem cloneView_acts (h : cloneView live p bid live = some p') :
    Acts p.cell p'.cell (slotOf bid)
      (counting fun b => if 0 < b then BorrowTracker.checked (b + 1) else none) := by
  rw [cloneView, if_neg (not_not.mpr rfl)] at h
  exact Pools.withSlab_acts h fun _ _ hs => Slab.track_acts hs

theorem splitExclusive_acts (h : splitExclusive live p bid live = some p') :
    Acts p.cell p'.cell (slotOf bid)
      (counting fun b => if b < 0 then BorrowTracker.checked (b - 1) else none) := by
  rw [splitExclusive, if_neg (not_not.mpr rfl)] at h
  exact Pools.withSlab_acts h fun _ _ hs => Slab.track_acts hs

theorem upgradeView_acts (h : upgradeView live p bid live = some p') :
    Acts p.cell p'.cell (slotOf bid) (counting fun b => if b = 1 then some (-1) else none) := by
  rw [upgradeView, if_neg (not_not.mpr rfl)] at h
  exact Pools.withSlab_acts h fun _ _ hs => Slab.track_acts hs

theorem downgradeView_acts (h : downgradeView live p bid live = some p') :
    Acts p.cell p'.cell (slotOf bid) (counting fun b => if b = -1 then some 1 else none) := by
  rw [downgradeView, if_neg (not_not.mpr rfl)] at h
  exact Pools.withSlab_acts h fun _ _ hs => Slab.track_acts hs

theorem dropView_acts {exclusive : Bool} (h : dropView live p bid live exclusive = some p') :
    Acts p.cell p'.cell (slotOf bid) (releasing exclusive) := by
  rw [dropView, if_neg (not_not.mpr rfl)] at h
  exact Pools.withSlab_acts h fun _ _ hs => Slab.dropView_acts hs

end routed

theorem counting_eq_some {f : ℤ → Option ℤ} {c c' : ℤ × ℕ} (h : counting f c = some c') :
    f c.1 = some c'.1 ∧ c'.2 = c.2 := by
  obtain ⟨b, hb, rfl⟩ := Option.map_eq_some_iff.mp h
  exact ⟨hb, rfl⟩

def taking (exclusive : Bool) (c : ℤ × ℕ) : Option (ℤ × ℕ) :=
  if c.1 = 0 then some (if exclusive then -1 else 1, c.2 - 1) else none

/-- The tracker transition behind both ways of taking a slot. -/
def takeCount (exclusive : Bool) (b : ℤ) : Option ℤ :=
  if b = 0 then some (if exclusive then -1 else 1) else none

theorem take_acts {S : Type} [LawfulSlab S] {s : S} (s' : S) {loc : ℕ} {e : Bool}
    (ht : (Slab.tracker s).update loc (takeCount e) = some (Slab.tracker s'))
    (hh : ∀ k, (Slab.home s').count k = (Slab.home s).count k - if k = loc then 1 else 0) :
    Acts (Slab.cell s) (Slab.cell s') loc (taking e) := by
  obtain ⟨b, b', hb, hf, hk⟩ := BorrowTracker.update_getElem? ht
  by_cases h0 : b = 0
  · rw [takeCount, if_pos h0] at hf
    refine ⟨(b, (Slab.home s).count loc), (b', (Slab.home s).count loc - 1), ?_, ?_, fun k => ?_⟩
    · rw [Slab.cell, hb, Option.map_some]
    · rw [taking, if_pos h0, Option.some.inj hf]
    · rw [Slab.cell, hk, hh]
      by_cases hkl : k = loc
      · rw [if_pos hkl, if_pos hkl, if_pos hkl, hkl, Option.map_some]
      · rw [if_neg hkl, if_neg hkl, if_neg hkl, Slab.cell, Nat.sub_zero]
  · rw [takeCount, if_neg h0] at hf
    cases hf

theorem take_none {t : BorrowTracker} {loc : ℕ} {e : Bool} (h : t.update loc (takeCount e) = none)
    (hb : ∀ b, t.borrows[loc]? = some b → b = 0) : t.borrows[loc]? = none := by
  cases hl : t.borrows[loc]? with
  | none => rfl
  | some b => simp [BorrowTracker.update, hl, takeCount, hb b hl] at h

/-- Only the entry of a slot the table lacks may leave the home list unnoticed. -/
theorem Slab.cell_congr {S : Type} [LawfulSlab S] {s s' : S} {loc : ℕ}
    (ht : Slab.tracker s' = Slab.tracker s) (hloc : (Slab.tracker s).borrows[loc]? = none)
    (hh : ∀ k, k ≠ loc → (Slab.home s').count k = (Slab.home s).count k) (k : ℕ) :
    Slab.cell s' k = Slab.cell s k := by
  rw [Slab.cell, Slab.cell, ht]
  by_cases hk : k = loc
  · rw [hk, hloc, Option.map_none, Option.map_none]
  · rw [hh k hk]

theorem slotOf_packBid {provided : Bool} {cls loc : ℕ} (hc : cls < 128) (hl : loc < 2 ^ 24) :
    slotOf (packBid provided cls loc) = ⟨provided, cls, loc⟩ := by
  rw [slotOf, bidProvided_packBid, bidClass_packBid _ _ hc, bidLocal_packBid _ _ hl]

end Conrt.Buf
