import Conrt.Buf.Conserve

/-! Allocation and adoption hand out only slots no view holds. -/
namespace Conrt.Buf

namespace World

variable {w w' : World} {v : View}

theorem Sound.take (hw : w.Sound) {i : Slot} {p : Pools} {e : Bool}
    (hp : Acts w.pools.cell p.cell i (taking e)) (hs : v.slot = i) (hg : v.generation = w.live)
    (he : v.exclusive = e) : Sound { w with pools := p, views := w.views ++ [v] } := by
  refine hw.exchange none [v] hp (by simp) ?_ ?_
  · intro u hu
    obtain rfl := List.mem_singleton.mp hu
    exact ⟨hs, hg⟩
  · intro c c' sh ex hgc hb
    by_cases h0 : c.1 = 0
    · rw [taking, if_pos h0] at hgc
      obtain rfl := Option.some.inj hgc
      have h := Balanced.take h0 (by simpa using hb) e
      cases e <;> simpa [he] using h
    · rw [taking, if_neg h0] at hgc
      cases hgc

/-- No view of a slot that can be taken is alive. -/
theorem Sound.fresh (hw : w.Sound) {i : Slot} {p : Pools} {e : Bool}
    (hp : Acts w.pools.cell p.cell i (taking e)) : ∀ u ∈ w.views, u.slot ≠ i := by
  obtain ⟨c, c', hc, hg, -⟩ := hp
  have h0 : c.1 = 0 := by
    by_contra hne
    rw [taking, if_neg hne] at hg
    cases hg
  obtain ⟨h1, h2, -⟩ := hw.accounted i c.1 c.2 hc
  intro u hu hui
  have hpos : 0 < tally w.views i u.exclusive :=
    List.countP_pos_iff.mpr ⟨u, hu, by simp [hui]⟩
  cases he : u.exclusive <;> rw [he] at hpos <;> omega

def Hands (w : World) (o : Option Outcome) : Prop :=
  ∀ w', w.settle none o = some w' →
    w'.Sound ∧ ∀ v ∈ w'.views, v ∈ w.views ∨ ∀ u ∈ w.views, u.slot ≠ v.slot

theorem Sound.hands (hw : w.Sound) {i : Slot} {p : Pools} {e : Bool}
    (hp : Acts w.pools.cell p.cell i (taking e)) (hs : v.slot = i) (hg : v.generation = w.live)
    (he : v.exclusive = e) : w.Hands (some (.returned p [v])) := by
  intro w' h
  obtain rfl := Option.some.inj h
  refine ⟨hw.take hp hs hg he, fun u hu => ?_⟩
  rcases List.mem_append.mp hu with hu | hu
  · exact .inl hu
  · obtain rfl := List.mem_singleton.mp hu
    exact .inr (hs ▸ hw.fresh hp)

theorem Sound.unchanged (hw : w.Sound) {p : Pools} (h : ∀ s, p.cell s = w.pools.cell s)
    {o : Option Outcome} (ho : o = some (.returned p []) ∨ o = some (.unwound p)) : w.Hands o := by
  intro w' hw'
  have hv : w' = { w with pools := p } := by
    rcases ho with rfl | rfl <;> simpa [settle] using hw'.symm
  rw [hv]
  exact ⟨hw.congr h, fun v hv => .inl hv⟩

/-- A slot waiting at home has count zero, so taking it cannot fail an assertion. -/
theorem Sound.home_zero (hw : w.Sound) {i : Slot} {c : ℤ × ℕ} (hc : w.pools.cell i = some c)
    (hh : 0 < c.2) : c.1 = 0 := ((hw.accounted i c.1 c.2 hc).home hh).1

/-- Popping the free stack hands out a slot no view holds. -/
theorem hands_acquireSlot (hw : w.Sound) (cls elem : ℕ) (exclusive : Bool) {span : ℕ → Span}
    (hspan : ∀ b g n, (⟨b, g, 0, elem, span n⟩ : View).exclusive = exclusive) :
    w.Hands (acquireSlot w.live w.pools cls elem exclusive span) := by
  cases hs : w.pools.fixedPool.slabs[cls]? with
  | none => simp [acquireSlot, hs, Hands, settle]
  | some s =>
    cases hfree : s.free with
    | nil =>
      simp only [acquireSlot, hs, hfree, Option.bind_eq_bind, Option.bind_some]
      exact hw.unchanged (fun _ => rfl) (.inl rfl)
    | cons loc free =>
      have htake : (if exclusive then s.tracker.takeExclusive else s.tracker.takeShared) loc =
          s.tracker.update loc (takeCount exclusive) := by cases exclusive <;> rfl
      simp only [acquireSlot, hs, hfree, Option.bind_eq_bind, Option.bind_some, htake]
      have hcount : ∀ k, free.count k = s.free.count k - if k = loc then 1 else 0 := by
        intro k
        rw [hfree, List.count_cons]
        by_cases hk : k = loc
        · simp [hk]
        · simp [hk, Ne.symm hk]
      cases ht : s.tracker.update loc (takeCount exclusive) with
      | some t =>
        have hacts := Pools.set_fixed_acts hs
          (take_acts { s with free := free, tracker := t } ht hcount)
        obtain ⟨c, -, hc, -, -⟩ := id hacts
        obtain ⟨h1, h2⟩ := hw.addressable ⟨false, cls, loc⟩ (by simp [hc])
        exact hw.hands hacts (slotOf_packBid h1 h2) rfl (hspan _ _ _)
      | none =>
        have hloc : s.tracker.borrows[loc]? = none := by
          refine take_none ht fun b hb => ?_
          have hc : w.pools.cell ⟨false, cls, loc⟩ = some (b, s.free.count loc) := by
            simp [Pools.cell, hs, Slab.cell, Slab.tracker, Slab.home, hb]
          exact hw.home_zero hc (by simp [hfree])
        have hcell : ∀ k, Slab.cell { s with free := free } k = Slab.cell s k :=
          Slab.cell_congr rfl hloc fun k hk =>
            (hcount k).trans (by rw [if_neg hk, Nat.sub_zero]; rfl)
        exact hw.unchanged (Pools.set_fixed_congr hs hcell) (.inr rfl)

theorem hands_acquire (hw : w.Sound) (size align elem : ℕ) (exclusive : Bool) {span : ℕ → Span}
    (hspan : ∀ b g n, (⟨b, g, 0, elem, span n⟩ : View).exclusive = exclusive) :
    w.Hands (acquire w.live w.pools size align elem exclusive span) := by
  rw [acquire]
  cases classFor w.pools.fixedPool.classes size with
  | none => exact hw.unchanged (fun _ => rfl) (.inl rfl)
  | some cls =>
    cases hc : w.pools.fixedPool.classes[cls]? with
    | none => simp [Hands, settle, hc]
    | some c =>
      simp only [hc, Option.bind_eq_bind, Option.bind_some]
      split_ifs
      · exact hw.unchanged (fun _ => rfl) (.inr rfl)
      · exact hands_acquireSlot hw cls elem exclusive hspan

theorem hands_alloc (hw : w.Sound) (sizeT alignT : ℕ) :
    w.Hands (Buf.alloc w.live w.pools sizeT alignT) := by
  rw [Buf.alloc]
  split_ifs
  · exact hw.unchanged (fun _ => rfl) (.inr rfl)
  · exact hands_acquire hw sizeT alignT sizeT false fun _ _ _ => rfl

theorem hands_allocMut (hw : w.Sound) (sizeT alignT : ℕ) :
    w.Hands (Buf.allocMut w.live w.pools sizeT alignT) := by
  rw [Buf.allocMut]
  split_ifs
  · exact hw.unchanged (fun _ => rfl) (.inr rfl)
  · exact hands_acquire hw sizeT alignT sizeT true fun _ _ _ => rfl

theorem hands_allocSliceMut (hw : w.Sound) (sizeT alignT count : ℕ) :
    w.Hands (Buf.allocSliceMut w.live w.pools sizeT alignT count) := by
  rw [Buf.allocSliceMut]
  split_ifs
  · exact hw.unchanged (fun _ => rfl) (.inr rfl)
  · exact hw.unchanged (fun _ => rfl) (.inl rfl)
  · exact hands_acquire hw (count * sizeT) alignT sizeT true fun _ _ _ => rfl

theorem hands_allocBytes (hw : w.Sound) (size : ℕ) :
    w.Hands (Buf.allocBytes w.live w.pools size) :=
  hands_acquire hw size 1 1 true fun _ _ _ => rfl

/-- The buffer a completion names left the ring unheld, so adopting it cannot fail. -/
theorem hands_providedBytes (hw : w.Sound) (cls loc len : ℕ) :
    w.Hands (Buf.providedBytes w.live w.pools cls loc len) := by
  cases hs : w.pools.providedPool.slabs[cls]? with
  | none => simp [Buf.providedBytes, hs, Hands, settle]
  | some s =>
    by_cases hg : loc ∈ s.ring ∧ len ≤ s.size
    · have htake : s.tracker.takeShared loc = s.tracker.update loc (takeCount false) := rfl
      simp only [Buf.providedBytes, hs, hg, htake, and_self, guard_true, Option.bind_eq_bind,
        Option.bind_some, Option.pure_def]
      have hcount : ∀ k, (s.ring.erase loc).count k = s.ring.count k - if k = loc then 1 else 0 := by
        intro k
        by_cases hk : k = loc
        · simp [hk]
        · simp [hk]
      have hcell : ∀ b, s.tracker.borrows[loc]? = some b → b = 0 := by
        intro b hb
        have hc : w.pools.cell ⟨true, cls, loc⟩ = some (b, s.ring.count loc) := by
          simp [Pools.cell, hs, Slab.cell, Slab.tracker, Slab.home, hb]
        exact hw.home_zero hc (List.count_pos_iff.mpr hg.1)
      cases ht : s.tracker.update loc (takeCount false) with
      | some t =>
        have hacts := Pools.set_provided_acts hs
          (take_acts { s with ring := s.ring.erase loc, tracker := t } ht hcount)
        obtain ⟨c, -, hc, -, -⟩ := id hacts
        obtain ⟨h1, h2⟩ := hw.addressable ⟨true, cls, loc⟩ (by simp [hc])
        exact hw.hands hacts (slotOf_packBid h1 h2) rfl rfl
      | none =>
        have hsame : ∀ k, Slab.cell { s with ring := s.ring.erase loc } k = Slab.cell s k :=
          Slab.cell_congr rfl (take_none ht hcell) fun k hk =>
            (hcount k).trans (by rw [if_neg hk, Nat.sub_zero]; rfl)
        exact hw.unchanged (Pools.set_provided_congr hs hsame) (.inr rfl)
    · simp [Buf.providedBytes, hs, hg, Hands, settle]

end World

end Conrt.Buf
