import Conrt.Buf.Accounting

/-! Conversions other than the slice casts keep the books. -/
namespace Conrt.Buf

namespace World

variable {w w' : World} {v : View}

def Keeps (w : World) (consumed : Option View) (o : Option Outcome) : Prop :=
  ∀ w', w.settle consumed o = some w' → w'.Sound

theorem Sound.drop (hw : w.Sound) (hv : v ∈ w.views) {p : Pools}
    (hp : dropValue w.live w.pools v = some p) :
    Sound { w with pools := p, views := w.views.diff (some v).toList } := by
  rw [dropValue, hw.current v hv] at hp
  have h := hw.exchange (some v) [] (dropView_acts hp)
    (by rintro _ ⟨⟩; exact ⟨hv, rfl⟩) (by simp) ?_
  · simpa using h
  · intro c c' sh ex hg hb
    obtain ⟨b, hr, rfl⟩ := Option.map_eq_some_iff.mp hg
    cases hk : v.exclusive with
    | false =>
      obtain ⟨-, rfl⟩ := BorrowTracker.released_false (hk ▸ hr)
      simpa [hk] using Balanced.releaseShared (by simpa [hk] using hb)
    | true =>
      obtain ⟨-, rfl⟩ := BorrowTracker.released_true (hk ▸ hr)
      simpa [hk] using Balanced.releaseExclusive (by simpa [hk] using hb)

/-- The lone survivor of a failed assertion is the state with `v` dropped. -/
theorem Sound.unwind (hw : w.Sound) (hv : v ∈ w.views) :
    w.Keeps (some v) (Buf.unwind w.live w.pools v) := by
  intro w' h
  obtain ⟨p, hp, ho⟩ | ho : (∃ p, dropValue w.live w.pools v = some p ∧
      Buf.unwind w.live w.pools v = some (.unwound p)) ∨ Buf.unwind w.live w.pools v = none := by
    rw [Buf.unwind]
    cases dropValue w.live w.pools v <;> simp
  · rw [ho] at h
    obtain rfl := Option.some.inj h
    exact hw.drop hv hp
  · rw [ho] at h
    cases h

/-- A view may change its extent or element type in place of being handed on. -/
theorem Sound.keep (hw : w.Sound) (hv : v ∈ w.views) (v' : View) (hs : v'.slot = v.slot)
    (hg : v'.generation = v.generation) (he : v'.exclusive = v.exclusive) :
    Sound { w with views := w.views.diff (some v).toList ++ [v'] } := by
  refine hw.exchange (p := w.pools) (i := v.slot) (some v) [v']
    (Acts.refl (hw.named v hv)) ?_ ?_ ?_
  · rintro _ ⟨⟩
    exact ⟨hv, rfl⟩
  · intro u hu
    obtain rfl := List.mem_singleton.mp hu
    exact ⟨hs, hg.trans (hw.current v hv)⟩
  · rintro c _ sh ex ⟨⟩ hb
    simpa [he] using hb

theorem Sound.congr (hw : w.Sound) {p : Pools} (h : ∀ s, p.cell s = w.pools.cell s) :
    Sound { w with pools := p } :=
  ⟨fun s b c hs => hw.accounted s b c (h s ▸ hs), hw.current,
    fun v hv => by simpa only [h] using hw.named v hv,
    fun s hs => hw.addressable s (h s ▸ hs)⟩

theorem Sound.clone (hw : w.Sound) (hv : v ∈ w.views) {p : Pools}
    (hp : cloneView w.live w.pools v.bid v.generation = some p) {v' : View}
    (hs : v'.slot = v.slot) (hg : v'.generation = v.generation) (he' : v'.exclusive = false) :
    Sound { w with pools := p, views := w.views ++ [v'] } := by
  rw [hw.current v hv] at hp
  refine hw.exchange (i := v.slot) none [v'] (cloneView_acts hp) (by simp)
    ?_ ?_
  · intro u hu
    obtain rfl := List.mem_singleton.mp hu
    exact ⟨hs, hg.trans (hw.current v hv)⟩
  · intro c c' sh ex hg hb
    obtain ⟨hf, h2⟩ := counting_eq_some hg
    split_ifs at hf with hpos
    rw [BorrowTracker.checked_eq_some hf, h2]
    simpa [he'] using Balanced.clone hpos (by simpa using hb)

theorem keeps_clone (hw : w.Sound) (hv : v ∈ w.views) :
    w.Keeps none (Buf.clone w.live w.pools v) := by
  intro w' h
  rw [Buf.clone] at h
  cases hp : cloneView w.live w.pools v.bid v.generation with
  | none =>
    rw [hp] at h
    obtain rfl := Option.some.inj h
    exact hw
  | some p =>
    rw [hp] at h
    obtain rfl := Option.some.inj h
    exact hw.clone hv hp rfl rfl (by simp [View.exclusive])

theorem keeps_sub (hw : w.Sound) (hv : v ∈ w.views) (a b : ℕ) :
    w.Keeps none (Buf.sub w.live w.pools v a b) := by
  intro w' h
  rw [Buf.sub] at h
  split_ifs at h
  · obtain rfl := Option.some.inj h
    simpa using hw
  · cases hp : cloneView w.live w.pools v.bid v.generation with
    | none =>
      rw [hp] at h
      obtain rfl := Option.some.inj h
      exact hw
    | some p =>
      rw [hp] at h
      obtain rfl := Option.some.inj h
      exact hw.clone hv hp rfl rfl rfl

/-- A sole shared view becomes exclusive. -/
theorem Sound.upgrade (hw : w.Sound) (hv : v ∈ w.views) (he : v.exclusive = false) {p : Pools}
    (hp : upgradeView w.live w.pools v.bid v.generation = some p) {v' : View}
    (hs : v'.slot = v.slot) (hg : v'.generation = v.generation) (he' : v'.exclusive = true) :
    Sound { w with pools := p, views := w.views.diff (some v).toList ++ [v'] } := by
  rw [hw.current v hv] at hp
  refine hw.exchange (i := v.slot) (some v) [v'] (upgradeView_acts hp) ?_ ?_ ?_
  · rintro _ ⟨⟩
    exact ⟨hv, rfl⟩
  · intro u hu
    obtain rfl := List.mem_singleton.mp hu
    exact ⟨hs, hg.trans (hw.current v hv)⟩
  · intro c c' sh ex hg hb
    obtain ⟨hf, h2⟩ := counting_eq_some hg
    split_ifs at hf with h1
    rw [← Option.some.inj hf, h2]
    rw [h1] at hb
    simpa [he'] using Balanced.upgrade (by simpa [he] using hb)

/-- A sole exclusive view becomes shared. -/
theorem Sound.downgrade (hw : w.Sound) (hv : v ∈ w.views) (he : v.exclusive = true) {p : Pools}
    (hp : downgradeView w.live w.pools v.bid v.generation = some p) {v' : View}
    (hs : v'.slot = v.slot) (hg : v'.generation = v.generation) (he' : v'.exclusive = false) :
    Sound { w with pools := p, views := w.views.diff (some v).toList ++ [v'] } := by
  rw [hw.current v hv] at hp
  refine hw.exchange (i := v.slot) (some v) [v'] (downgradeView_acts hp)
    ?_ ?_ ?_
  · rintro _ ⟨⟩
    exact ⟨hv, rfl⟩
  · intro u hu
    obtain rfl := List.mem_singleton.mp hu
    exact ⟨hs, hg.trans (hw.current v hv)⟩
  · intro c c' sh ex hg hb
    obtain ⟨hf, h2⟩ := counting_eq_some hg
    split_ifs at hf with h1
    rw [← Option.some.inj hf, h2]
    rw [h1] at hb
    simpa [he'] using Balanced.downgrade (by simpa [he] using hb)

@[simp] theorem base_exclusive (v : View) : v.base.exclusive = v.exclusive := by
  rcases v with ⟨_, _, _, _, _ | _ | _ | _⟩ <;> rfl

theorem dropValue_base (live : ℕ) (p : Pools) (v : View) :
    dropValue live p v.base = dropValue live p v := by
  rw [dropValue, dropValue, base_exclusive]
  rfl

@[simp] theorem covering_exclusive (v : View) (n : ℕ) : (v.covering n).exclusive = v.exclusive := by
  rcases v with ⟨_, _, _, _, _ | _ | _ | _⟩ <;> rfl

theorem keeps_intoMut (hw : w.Sound) (hv : v ∈ w.views) (he : v.exclusive = false) :
    w.Keeps (some v) (Buf.intoMut w.live w.pools v) := by
  rw [Buf.intoMut]
  cases hp : upgradeView w.live w.pools v.bid v.generation with
  | none => exact hw.unwind hv
  | some p =>
    intro w' h
    obtain rfl := Option.some.inj h
    exact hw.upgrade hv he hp rfl rfl rfl

theorem keeps_bytesIntoMut (hw : w.Sound) (hv : v ∈ w.views) (he : v.exclusive = false) :
    w.Keeps (some v) (Buf.bytesIntoMut w.live w.pools v) := by
  rw [Buf.bytesIntoMut, Buf.intoMut]
  cases hp : upgradeView w.live w.pools v.base.bid v.base.generation with
  | none =>
    have hu := hw.unwind hv
    rw [Buf.unwind, ← dropValue_base] at hu
    cases hd : dropValue w.live w.pools v.base <;> simpa [Buf.unwind, hd] using hu
  | some p =>
    intro w' h
    obtain rfl := Option.some.inj h
    exact hw.upgrade hv he hp rfl rfl rfl

theorem keeps_intoShared (hw : w.Sound) (hv : v ∈ w.views) (he : v.exclusive = true) :
    w.Keeps (some v) (Buf.intoShared w.live w.pools v) := by
  rw [Buf.intoShared]
  cases hp : downgradeView w.live w.pools v.bid v.generation with
  | none => exact hw.unwind hv
  | some p =>
    intro w' h
    obtain rfl := Option.some.inj h
    exact hw.downgrade hv he hp rfl rfl rfl

theorem keeps_intoBytes (hw : w.Sound) (hv : v ∈ w.views) (he : v.exclusive = true) :
    w.Keeps (some v) (Buf.intoBytes w.live w.pools v) := by
  rw [Buf.intoBytes, Buf.intoShared]
  cases hp : downgradeView w.live w.pools v.base.bid v.base.generation with
  | none =>
    have hu := hw.unwind hv
    rw [Buf.unwind, ← dropValue_base] at hu
    cases hd : dropValue w.live w.pools v.base <;> simpa [Buf.unwind, hd] using hu
  | some p =>
    intro w' h
    obtain rfl := Option.some.inj h
    exact hw.downgrade hv he hp rfl rfl rfl

theorem keeps_dropSelf (hw : w.Sound) (hv : v ∈ w.views) :
    w.Keeps (some v) (Buf.dropSelf w.live w.pools v) := by
  intro w' h
  rw [Buf.dropSelf] at h
  cases hp : dropValue w.live w.pools v with
  | none =>
    rw [hp] at h
    cases h
  | some p =>
    rw [hp] at h
    obtain rfl := Option.some.inj h
    simpa using hw.drop hv hp

theorem keeps_intoVec (hw : w.Sound) (hv : v ∈ w.views) (he : v.exclusive = false) :
    w.Keeps (some v) (Buf.intoVec w.live w.pools v) := by
  have h := keeps_dropSelf hw hv
  rwa [Buf.dropSelf, dropValue, he] at h

theorem keeps_splitAt (hw : w.Sound) (hv : v ∈ w.views) (he : v.exclusive = true) (mid : ℕ) :
    w.Keeps (some v) (Buf.splitAt w.live w.pools v mid) := by
  rw [Buf.splitAt]
  split_ifs
  · exact keeps_dropSelf hw hv
  · cases hp : splitExclusive w.live w.pools v.bid v.generation with
    | none => exact hw.unwind hv
    | some p =>
      intro w' h
      obtain rfl := Option.some.inj h
      rw [hw.current v hv] at hp
      refine hw.exchange (i := v.slot) (some v) _ (splitExclusive_acts hp) ?_ ?_ ?_
      · rintro _ ⟨⟩
        exact ⟨hv, rfl⟩
      · intro u hu
        have hg := hw.current v hv
        rcases List.mem_cons.mp hu with rfl | hu
        · exact ⟨rfl, hg⟩
        · obtain rfl := List.mem_singleton.mp hu
          exact ⟨rfl, hg⟩
      · intro c c' sh ex hg hb
        obtain ⟨hf, h2⟩ := counting_eq_some hg
        split_ifs at hf with hneg
        rw [BorrowTracker.checked_eq_some hf, h2]
        have hx : ({ v.covering (v.len - mid) with offset := v.offset + mid } : View).exclusive =
            true := (covering_exclusive v _).trans he
        simpa [he, hx] using Balanced.split hneg (by simpa [he] using hb)

end World

end Conrt.Buf
