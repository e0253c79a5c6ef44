import Conrt.Buf.Audit
import Mathlib.Order.Interval.Finset.Nat

/-! Exclusive views of one slot stay apart for as long as no view is grown into another. -/
namespace Conrt.Buf

open Conrt.Base

def View.covered (v : View) : Finset ℕ := Finset.Ico v.offset (v.offset + v.len)

/-- Two exclusive byte views of one slot share no byte. -/
def View.Apart (a b : View) : Prop :=
  a.isBytesMut → b.isBytesMut → a.slot = b.slot → Disjoint a.covered b.covered

instance (a b : View) : Decidable (a.Apart b) := by
  unfold View.Apart
  infer_instance

def Op.onBytes : Op → Bool
  | .allocBytes _ | .intoMut _ | .splitAt _ _ | .setLen _ _ | .clear _ | .intoBytes _ | .drop _ =>
    true
  | _ => false

/-- Growing or shrinking `v` to `n` bytes leaves the other exclusive views of the slot alone: each
of them is empty, ends before `v` or starts after its new end. -/
def World.Spares (w : World) (v : View) (n : ℕ) : Prop :=
  ∀ u ∈ w.views.erase v, u.isBytesMut → u.slot = v.slot →
    n = 0 ∨ u.len = 0 ∨ u.offset + u.len ≤ v.offset ∨ v.offset + n ≤ u.offset

/-- A `set_len` on a live view that its bound lets through. -/
def World.Resizes (w : World) (v : View) (n : ℕ) : Prop :=
  v ∈ w.views ∧ v.isBytesMut ∧ (setLen w.live w.pools v n).isSome

/-- Exclusive views are apart, and every view lies within its slot. -/
structure World.Separate (w : World) : Prop where
  apart : w.views.Pairwise View.Apart
  within : ∀ v ∈ w.views, ∃ size, w.pools.slotSize v.bid = some size ∧ v.offset + v.len ≤ size

/-- No slot has changed its size. -/
def Pools.Resembles (p p' : Pools) : Prop := ∀ bid, p'.slotSize bid = p.slotSize bid

theorem Pools.Resembles.refl (p : Pools) : p.Resembles p := fun _ => rfl

theorem Pools.resembles_fixed {p : Pools} {cls : ℕ} {s : FixedSlab}
    (hs : p.fixedPool.slabs[cls]? = some s) (s' : FixedSlab) (hsize : s'.size = s.size) :
    p.Resembles { p with fixedPool :=
      { p.fixedPool with slabs := p.fixedPool.slabs.set cls s' } } := by
  intro bid
  obtain ⟨hlt, rfl⟩ := List.getElem?_eq_some_iff.mp hs
  unfold Pools.slotSize
  by_cases hb : bidProvided bid
  · rw [if_pos hb, if_pos hb]
  · rw [if_neg hb, if_neg hb]
    by_cases hc : cls = bidClass bid
    · subst hc
      simp [hlt, hsize]
    · simp [hc]

private theorem Pools.resembles_provided {p : Pools} {cls : ℕ} {s : ProvidedSlab}
    (hs : p.providedPool.slabs[cls]? = some s) (s' : ProvidedSlab) (hsize : s'.size = s.size) :
    p.Resembles { p with providedPool :=
      { p.providedPool with slabs := p.providedPool.slabs.set cls s' } } := by
  intro bid
  obtain ⟨hlt, rfl⟩ := List.getElem?_eq_some_iff.mp hs
  unfold Pools.slotSize
  by_cases hb : bidProvided bid
  · rw [if_pos hb, if_pos hb]
    by_cases hc : cls = bidClass bid
    · subst hc
      simp [hlt, hsize]
    · simp [hc]
  · rw [if_neg hb, if_neg hb]

theorem Pools.withSlab_resembles {p p' : Pools} {bid : ℕ}
    {f : {S : Type} → [LawfulSlab S] → S → ℕ → Option S} (h : p.withSlab bid f = some p')
    (hfixed : ∀ s s' : FixedSlab, f s (bidLocal bid) = some s' → s'.size = s.size)
    (hprovided : ∀ s s' : ProvidedSlab, f s (bidLocal bid) = some s' → s'.size = s.size) :
    p.Resembles p' := by
  simp only [Pools.withSlab] at h
  split_ifs at h
  all_goals
    obtain ⟨pool, hpool, rfl⟩ := Option.map_eq_some_iff.mp h
    obtain ⟨s, s', hs, hs', rfl⟩ := Pool.onSlab_eq_some hpool
  · exact Pools.resembles_provided hs s' (hprovided s s' hs')
  · exact Pools.resembles_fixed hs s' (hfixed s s' hs')

theorem Pools.track_resembles {p p' : Pools} {bid : ℕ}
    {g : ℕ → BorrowTracker → Option BorrowTracker}
    (h : (p.withSlab bid fun s loc => Slab.track s (g loc)) = some p') : p.Resembles p' := by
  apply Pools.withSlab_resembles h
  · intro s s' hs
    obtain ⟨t, -, rfl⟩ := Option.map_eq_some_iff.mp hs
    rfl
  · intro s s' hs
    obtain ⟨t, -, rfl⟩ := Option.map_eq_some_iff.mp hs
    rfl

theorem dropView_resembles {live bid generation : ℕ} {p p' : Pools} {exclusive : Bool}
    (h : dropView live p bid generation exclusive = some p') : p.Resembles p' := by
  unfold dropView at h
  split_ifs at h
  · exact Option.some.inj h ▸ .refl p
  · apply Pools.withSlab_resembles h
    · intro s s' hs
      obtain ⟨r, -, hr⟩ := Option.bind_eq_some_iff.mp hs
      obtain rfl := Option.some.inj hr
      split_ifs <;> rfl
    · intro s s' hs
      obtain ⟨r, -, hr⟩ := Option.bind_eq_some_iff.mp hs
      obtain rfl := Option.some.inj hr
      split_ifs <;> rfl

theorem upgradeView_resembles {live bid generation : ℕ} {p p' : Pools}
    (h : upgradeView live p bid generation = some p') : p.Resembles p' := by
  unfold upgradeView at h
  split_ifs at h
  exact Pools.track_resembles h

theorem downgradeView_resembles {live bid generation : ℕ} {p p' : Pools}
    (h : downgradeView live p bid generation = some p') : p.Resembles p' := by
  unfold downgradeView at h
  split_ifs at h
  exact Pools.track_resembles h

theorem splitExclusive_resembles {live bid generation : ℕ} {p p' : Pools}
    (h : splitExclusive live p bid generation = some p') : p.Resembles p' := by
  unfold splitExclusive at h
  split_ifs at h
  · exact Option.some.inj h ▸ .refl p
  · exact Pools.track_resembles h

/-- The views a call leaves: those it did not take, and what it made of the one it took. -/
inductive Shift (w : World) : List View → Prop
  | same : Shift w w.views
  | fresh {v : View} : (∀ u ∈ w.views, u.slot ≠ v.slot) →
      w.pools.slotSize v.bid = some (v.offset + v.len) → Shift w (w.views ++ [v])
  /-- New views inside an exclusive one, or not exclusive, or inside the only view of its slot. -/
  | inside {v : View} {out : List View} : v ∈ w.views → out.Pairwise View.Apart →
      (∀ u ∈ out, u.bid = v.bid ∧ v.offset ≤ u.offset ∧ u.offset + u.len ≤ v.offset + v.len) →
      ((∃ u ∈ out, u.isBytesMut) → v.isBytesMut ∨
        ∀ u ∈ w.views, u.slot = v.slot → u.isBytesMut = false) →
      Shift w (w.views.erase v ++ out)

theorem View.Apart.symm {a b : View} (h : a.Apart b) : b.Apart a :=
  fun hb ha hs => (h ha hb hs.symm).symm

private theorem covered_mono {u v : View} (h₁ : v.offset ≤ u.offset)
    (h₂ : u.offset + u.len ≤ v.offset + v.len) : u.covered ⊆ v.covered :=
  Finset.Ico_subset_Ico h₁ h₂

private theorem covering_isBytesMut {v : View} {n : ℕ} (h : v.isBytesMut) :
    (v.covering n).isBytesMut := by
  rcases v with ⟨_, _, _, _, _ | _ | _ | _⟩
  · cases h
  · cases h
  · cases h
  · exact h

theorem covering_len {v : View} {n : ℕ} : (v.covering n).len = n := by
  rcases v with ⟨_, _, _, _, _ | _ | _ | _⟩ <;> rfl

/-- Replacing a view by views that get on with what it got on with. -/
theorem apart_replace {views out : List View} {v : View} (hv : v ∈ views)
    (hp : views.Pairwise View.Apart) (hout : out.Pairwise View.Apart)
    (h : ∀ u ∈ out, ∀ x ∈ views.erase v, v.Apart x → u.Apart x) :
    (views.erase v ++ out).Pairwise View.Apart := by
  have hperm := (List.perm_cons_erase hv).pairwise_iff (R := View.Apart) fun hab => hab.symm
  have hcons := List.pairwise_cons.mp (hperm.mp hp)
  rw [List.pairwise_append]
  refine ⟨hcons.2, hout, fun x hx u hu => ?_⟩
  exact (h u hu x hx (hcons.1 x hx)).symm

section

variable {w : World} {v : View} {views : List View} {n : ℕ}

theorem disjoint_covering_iff {a b : View} (hlen : a.len = n) :
    Disjoint a.covered b.covered ↔
      n = 0 ∨ b.len = 0 ∨ b.offset + b.len ≤ a.offset ∨ a.offset + n ≤ b.offset := by
  unfold View.covered
  rw [← Finset.disjoint_coe, Finset.coe_Ico, Finset.coe_Ico, Set.Ico_disjoint_Ico, hlen]
  omega

/-- A resized view is apart from the rest of its slot exactly when it has spared them. -/
theorem spares_iff (hv : v.isBytesMut) :
    w.Spares v n ↔ ∀ u ∈ w.views.erase v, (v.covering n).Apart u := by
  have hcov := covering_isBytesMut (n := n) hv
  constructor
  · intro h u hu _ hu' hslot
    exact (disjoint_covering_iff covering_len).mpr (h u hu hu' hslot.symm)
  · intro h u hu hu' hslot
    exact (disjoint_covering_iff covering_len).mp (h u hu hcov hu' hslot.symm)

theorem Shift.within (hw : w.Separate) {p : Pools} (hp : w.pools.Resembles p)
    (h : Shift w views) :
    ∀ v ∈ views, ∃ size, p.slotSize v.bid = some size ∧ v.offset + v.len ≤ size := by
  simp only [hp _]
  intro x hx
  cases h with
  | same => exact hw.within x hx
  | fresh _ hsize =>
    rcases List.mem_append.mp hx with hx | hx
    · exact hw.within x hx
    · obtain rfl := List.mem_singleton.mp hx
      exact ⟨_, hsize, le_rfl⟩
  | inside hv _ hin _ =>
    rcases List.mem_append.mp hx with hx | hx
    · exact hw.within x (List.mem_of_mem_erase hx)
    · obtain ⟨size, hsize, hle⟩ := hw.within _ hv
      obtain ⟨hbid, -, hend⟩ := hin x hx
      exact ⟨size, hbid ▸ hsize, hend.trans hle⟩

theorem Shift.apart (hw : w.Separate) (h : Shift w views) : views.Pairwise View.Apart := by
  cases h with
  | same => exact hw.apart
  | @fresh v hslot _ =>
    rw [List.pairwise_append]
    refine ⟨hw.apart, List.pairwise_singleton .., fun u hu x hx => ?_⟩
    obtain rfl := List.mem_singleton.mp hx
    intro _ _ hs
    exact (hslot u hu hs).elim
  | @inside v out hv hout hin hex =>
    refine apart_replace hv hw.apart hout fun u hu x hx hvx hum hxm hslot => ?_
    obtain ⟨hbid, hlo, hhi⟩ := hin u hu
    have hsame : u.slot = v.slot := congrArg slotOf hbid
    rcases hex ⟨u, hu, hum⟩ with hvm | hno
    · have hd := hvx hvm hxm (hsame.symm.trans hslot)
      exact hd.mono_left (covered_mono hlo hhi)
    · have hxno := hno x (List.mem_of_mem_erase hx) (hslot.symm.trans hsame)
      rw [hxm] at hxno
      cases hxno

private theorem Shift.separate (hw : w.Separate) {p : Pools} (hp : w.pools.Resembles p) {live : ℕ}
    (h : Shift w views) : World.Separate ⟨p, live, views⟩ :=
  ⟨h.apart hw, h.within hw hp⟩

/-- The call leaves the slot sizes, and views inside those there were. -/
def World.Shifts (w : World) (consumed : Option View) (o : Option Outcome) : Prop :=
  ∀ w', w.settle consumed o = some w' → w.pools.Resembles w'.pools ∧ Shift w w'.views

variable {w' : World}

/-- The call drops the view it took, as it returns or as it unwinds. -/
theorem shifts_gone (hv : v ∈ w.views) {p : Pools} (hp : w.pools.Resembles p) {o : Option Outcome}
    (ho : o = some (.returned p []) ∨ o = some (.unwound p)) : w.Shifts (some v) o := by
  intro w' h
  have hw' : w' = { w with pools := p, views := w.views.erase v ++ [] } := by
    rcases ho with rfl | rfl <;> simpa [World.settle] using h.symm
  rw [hw']
  exact ⟨hp, .inside hv .nil (by simp) (by simp)⟩

theorem shifts_unwind (hv : v ∈ w.views) :
    w.Shifts (some v) (Buf.unwind w.live w.pools v) := by
  unfold Buf.unwind
  cases hp : dropValue w.live w.pools v with
  | none =>
    intro w' h
    cases h
  | some p => exact shifts_gone hv (dropView_resembles hp) (.inr rfl)

theorem shifts_dropSelf (hv : v ∈ w.views) :
    w.Shifts (some v) (Buf.dropSelf w.live w.pools v) := by
  unfold Buf.dropSelf
  cases hp : dropValue w.live w.pools v with
  | none =>
    intro w' h
    cases h
  | some p => exact shifts_gone hv (dropView_resembles hp) (.inl rfl)

/-- The call hands out views of the slot of the one it took. -/
theorem shifts_inside (hv : v ∈ w.views) {p : Pools} (hp : w.pools.Resembles p) {out : List View}
    (hout : out.Pairwise View.Apart)
    (hin : ∀ u ∈ out, u.bid = v.bid ∧ v.offset ≤ u.offset ∧
      u.offset + u.len ≤ v.offset + v.len)
    (hex : (∃ u ∈ out, u.isBytesMut) → v.isBytesMut ∨
      ∀ u ∈ w.views, u.slot = v.slot → u.isBytesMut = false) :
    w.Shifts (some v) (some (.returned p out)) := by
  intro w' h
  have hw' : w' = { w with pools := p, views := w.views.erase v ++ out } := by
    simpa [World.settle] using h.symm
  rw [hw']
  exact ⟨hp, .inside hv hout hin hex⟩

theorem shifts_splitAt (hv : v ∈ w.views) (hm : v.isBytesMut) (mid : ℕ) :
    w.Shifts (some v) (Buf.splitAt w.live w.pools v mid) := by
  unfold Buf.splitAt
  split_ifs with hmid
  · exact shifts_dropSelf hv
  · cases hp : splitExclusive w.live w.pools v.bid v.generation with
    | none => exact shifts_unwind hv
    | some p =>
      have hlen : ({ v.covering (v.len - mid) with offset := v.offset + mid } : View).len =
          v.len - mid := covering_len (v := v)
      refine shifts_inside hv (splitExclusive_resembles hp) ?_ ?_ fun _ => .inl hm
      · rw [List.pairwise_pair]
        intro _ _ _
        refine (disjoint_covering_iff (covering_len (v := v))).mpr (.inr (.inr (.inr ?_)))
        exact le_rfl
      · intro u hu
        rcases List.mem_cons.mp hu with rfl | hu
        · refine ⟨rfl, le_rfl, ?_⟩
          rw [covering_len]
          exact Nat.add_le_add_left (by omega) _
        · obtain rfl := List.mem_singleton.mp hu
          refine ⟨rfl, Nat.le_add_right _ _, ?_⟩
          rw [hlen]
          change v.offset + mid + (v.len - mid) ≤ _
          omega

/-- A view made exclusive was the only one of its slot. -/
theorem upgrade_alone (hw : w.Sound) (hv : v ∈ w.views) {p : Pools}
    (hp : upgradeView w.live w.pools v.bid v.generation = some p) :
    ∀ u ∈ w.views, u.slot = v.slot → u.isBytesMut = false := by
  rw [hw.current v hv] at hp
  obtain ⟨c, c', hc, hg, -⟩ := upgradeView_acts hp
  obtain ⟨hf, -⟩ := counting_eq_some hg
  split_ifs at hf with h1
  obtain ⟨hb, hone, -⟩ := hw.accounted v.slot c.1 c.2 hc
  intro u hu hslot
  by_contra hne
  have hex := World.bytesMut_exclusive (Bool.of_not_eq_false hne)
  have hpos : 0 < tally w.views v.slot true :=
    List.countP_pos_iff.mpr ⟨u, hu, by simp [hslot, hex]⟩
  omega

theorem shifts_intoMut (hw : w.Sound) (hv : v ∈ w.views) (hr : v.span = .ref) :
    w.Shifts (some v) (Buf.intoMut w.live w.pools v) := by
  unfold Buf.intoMut
  cases hp : upgradeView w.live w.pools v.bid v.generation with
  | none => exact shifts_unwind hv
  | some p =>
    refine shifts_inside hv (upgradeView_resembles hp) (List.pairwise_singleton ..) ?_
      fun _ => .inr (upgrade_alone hw hv hp)
    intro u hu
    obtain rfl := List.mem_singleton.mp hu
    have hlen : v.len = 0 := by
      unfold View.len
      rw [hr]
    refine ⟨rfl, le_rfl, ?_⟩
    rw [hlen]
    exact le_rfl

/-- A conversion that fails has dropped the view, whatever it was to make of it. -/
theorem unwind_base (f : View → View) :
    (match Buf.unwind w.live w.pools v.base with
      | some (.returned p vs) => some (.returned p (vs.map f))
      | r => r) = Buf.unwind w.live w.pools v := by
  unfold Buf.unwind
  rw [World.dropValue_base]
  cases dropValue w.live w.pools v <;> rfl

theorem shifts_bytesIntoMut (hw : w.Sound) (hv : v ∈ w.views) :
    w.Shifts (some v) (Buf.bytesIntoMut w.live w.pools v) := by
  unfold Buf.bytesIntoMut Buf.intoMut
  cases hp : upgradeView w.live w.pools v.base.bid v.base.generation with
  | none =>
    have hu := shifts_unwind hv
    rwa [← unwind_base (·.covering v.len)] at hu
  | some p =>
    refine shifts_inside hv (upgradeView_resembles hp) (List.pairwise_singleton ..) ?_
      fun _ => .inr (upgrade_alone hw hv hp)
    intro u hu
    obtain rfl := List.mem_singleton.mp hu
    refine ⟨rfl, le_rfl, ?_⟩
    rw [covering_len]
    exact le_rfl

theorem shifts_intoBytes (hv : v ∈ w.views) :
    w.Shifts (some v) (Buf.intoBytes w.live w.pools v) := by
  unfold Buf.intoBytes Buf.intoShared
  cases hp : downgradeView w.live w.pools v.base.bid v.base.generation with
  | none =>
    have hu := shifts_unwind hv
    rwa [← unwind_base (·.covering v.len)] at hu
  | some p =>
    refine shifts_inside hv (downgradeView_resembles hp) (List.pairwise_singleton ..) ?_ ?_
    · intro u hu
      obtain rfl := List.mem_singleton.mp hu
      refine ⟨rfl, le_rfl, ?_⟩
      rw [covering_len]
      exact le_rfl
    · rintro ⟨u, hu, hm⟩
      obtain rfl := List.mem_singleton.mp hu
      cases hm

theorem shifts_none : w.Shifts none none := by
  intro w' h
  cases h

/-- An allocation that hands nothing out leaves the views alone. -/
theorem shifts_same {p : Pools} (hp : w.pools.Resembles p) {o : Option Outcome}
    (ho : o = some (.returned p []) ∨ o = some (.unwound p)) : w.Shifts none o := by
  intro w' h
  have hw' : w' = { w with pools := p } := by
    rcases ho with rfl | rfl <;> simpa [World.settle] using h.symm
  rw [hw']
  exact ⟨hp, .same⟩

theorem shifts_acquireSlot (hw : w.Sound) (cls : ℕ) :
    w.Shifts none (acquireSlot w.live w.pools cls 1 true fun size => .sliceMut size) := by
  unfold acquireSlot
  cases hs : w.pools.fixedPool.slabs[cls]? with
  | none => exact shifts_none
  | some s =>
    simp only [Option.bind_eq_bind, Option.bind_some]
    split
    · exact shifts_same (.refl _) (.inl rfl)
    · rename_i loc free hfree
      simp only [if_true]
      cases ht : s.tracker.takeExclusive loc with
      | none => exact shifts_same (Pools.resembles_fixed hs { s with free := free } rfl) (.inr rfl)
      | some t =>
        have hcount : ∀ k, free.count k = s.free.count k - if k = loc then 1 else 0 := by
          intro k
          rw [hfree, List.count_cons]
          by_cases hk : k = loc
          · simp [hk]
          · simp [hk, Ne.symm hk]
        have ht' : s.tracker.update loc (takeCount true) = some t := ht
        have hacts := Pools.set_fixed_acts hs
          (take_acts { s with free := free, tracker := t } ht' hcount)
        obtain ⟨c, -, hc, -, -⟩ := id hacts
        obtain ⟨h1, h2⟩ := hw.addressable ⟨false, cls, loc⟩ (by simp [hc])
        have hfresh : ∀ u ∈ w.views, u.slot ≠ slotOf (packBid false cls loc) := by
          rw [slotOf_packBid h1 h2]
          exact hw.fresh hacts
        have hsize : w.pools.slotSize (packBid false cls loc) = some (0 + s.size) := by
          unfold Pools.slotSize
          rw [bidProvided_packBid, bidClass_packBid _ _ h1, hs]
          simp
        intro w' h
        obtain rfl := Option.some.inj h
        exact ⟨Pools.resembles_fixed hs _ rfl, .fresh hfresh hsize⟩

theorem shifts_allocBytes (hw : w.Sound) (size : ℕ) :
    w.Shifts none (Buf.allocBytes w.live w.pools size) := by
  unfold Buf.allocBytes acquire
  cases classFor w.pools.fixedPool.classes size with
  | none => exact shifts_same (.refl _) (.inl rfl)
  | some cls =>
    cases hc : w.pools.fixedPool.classes[cls]? with
    | none => simpa [hc] using shifts_none
    | some c =>
      simp only [hc, Option.bind_eq_bind, Option.bind_some]
      split_ifs
      · exact shifts_same (.refl _) (.inr rfl)
      · exact shifts_acquireSlot hw cls

theorem shifts_clear (hv : v ∈ w.views) (hm : v.isBytesMut) :
    Shift w (w.views.erase v ++ [Buf.clear v]) := by
  refine .inside hv (List.pairwise_singleton ..) ?_ fun _ => .inl hm
  intro u hu
  obtain rfl := List.mem_singleton.mp hu
  unfold Buf.clear
  refine ⟨rfl, le_rfl, ?_⟩
  rw [covering_len]
  exact Nat.add_le_add_left (Nat.zero_le _) _

theorem step_shifts (hw : w.Sound) {op : Op} (ho : op.onBytes = true)
    (hset : ∀ v n, op ≠ .setLen v n) (h : w.step op = some w') :
    w.pools.Resembles w'.pools ∧ Shift w w'.views := by
  cases op with
  | allocBytes size => exact shifts_allocBytes hw size w' h
  | intoMut v =>
    obtain ⟨⟨hv, ht⟩, h⟩ := guard_bind h
    split_ifs at h with hs
    · exact shifts_bytesIntoMut hw hv w' h
    · refine shifts_intoMut hw hv ?_ w' h
      rcases ht with ht | ht
      · exact ht
      · unfold View.isBytes at ht
        simp [hs] at ht
  | splitAt v mid =>
    obtain ⟨⟨hv, hm⟩, h⟩ := guard_bind h
    exact shifts_splitAt hv hm mid w' h
  | setLen v n => exact (hset v n rfl).elim
  | clear v =>
    obtain ⟨⟨hv, hm⟩, h⟩ := guard_bind h
    obtain rfl := Option.some.inj h
    exact ⟨.refl _, shifts_clear hv hm⟩
  | intoBytes v =>
    obtain ⟨⟨hv, -⟩, h⟩ := guard_bind h
    exact shifts_intoBytes hv w' h
  | drop v =>
    obtain ⟨hv, h⟩ := guard_bind h
    exact shifts_dropSelf hv w' h
  | _ => cases ho

private theorem onBytes_releasesEarly {op : Op} (ho : op.onBytes = true) : op.releasesEarly = false := by
  cases op <;> first | rfl | cases ho

/-- What an accepted `set_len` leaves. -/
theorem step_setLen (hr : w.Resizes v n) :
    w.step (.setLen v n) = some { w with views := w.views.erase v ++ [v.covering n] } ∧
      ∃ size, w.pools.slotSize v.bid = some size ∧ v.offset + n ≤ size := by
  obtain ⟨hv, hm, hsome⟩ := hr
  obtain ⟨v', hset⟩ := Option.isSome_iff_exists.mp hsome
  obtain ⟨size, hsize, hrest⟩ : ∃ size, w.pools.slotSize v.bid = some size ∧
      v.offset ≤ size ∧ n ≤ size - v.offset ∧ v.covering n = v' := by
    unfold Buf.setLen at hset
    split_ifs at hset
    obtain ⟨size, hsize, hset⟩ := Option.bind_eq_some_iff.mp hset
    obtain ⟨hle, hset⟩ := guard_bind hset
    obtain ⟨hn, hset⟩ := guard_bind hset
    exact ⟨size, hsize, hle, hn, Option.some.inj hset⟩
  obtain ⟨hle, hn, rfl⟩ := hrest
  constructor
  · simp [World.step, hv, hm, hset, World.replace]
  · exact ⟨size, hsize, by omega⟩

private theorem setLen_separate (hw : w.Separate) (hr : w.Resizes v n) (hs : w.Spares v n) :
    World.Separate { w with views := w.views.erase v ++ [v.covering n] } := by
  obtain ⟨hv, hm, -⟩ := id hr
  constructor
  · refine apart_replace hv hw.apart (List.pairwise_singleton ..) fun u hu x hx _ => ?_
    obtain rfl := List.mem_singleton.mp hu
    exact (spares_iff hm).mp hs x hx
  · intro x hx
    rcases List.mem_append.mp hx with hx | hx
    · exact hw.within x (List.mem_of_mem_erase hx)
    · obtain rfl := List.mem_singleton.mp hx
      rw [covering_len]
      exact (step_setLen hr).2

private theorem setLen_spares (hr : w.Resizes v n)
    (h : World.Separate { w with views := w.views.erase v ++ [v.covering n] }) :
    w.Spares v n := by
  have hp := (List.pairwise_append.mp h.apart).2.2
  refine (spares_iff hr.2.1).mpr fun u hu => ?_
  exact (hp u hu _ (List.mem_singleton.mpr rfl)).symm

/-- A `set_len` that is not accepted panics with the view as it was. -/
theorem step_setLen_refused (hr : ¬ w.Resizes v n) (h : w.step (.setLen v n) = some w') :
    w' = w := by
  obtain ⟨⟨hv, hm⟩, h⟩ := guard_bind h
  have hnone : Buf.setLen w.live w.pools v n = none := by
    by_contra hne
    exact hr ⟨hv, hm, Option.isSome_iff_ne_none.mpr hne⟩
  rw [hnone] at h
  exact (Option.some.inj h).symm

theorem step_separate (hs : w.Sound) (hw : w.Separate) {op : Op} (ho : op.onBytes = true)
    (hset : ∀ v n, op = .setLen v n → w.Resizes v n → w.Spares v n)
    (h : w.step op = some w') : w'.Separate := by
  by_cases hop : ∃ v n, op = .setLen v n
  · obtain ⟨v, n, rfl⟩ := hop
    by_cases hr : w.Resizes v n
    · rw [(step_setLen hr).1] at h
      obtain rfl := Option.some.inj h
      exact setLen_separate hw hr (hset v n rfl hr)
    · rw [step_setLen_refused hr h]
      exact hw
  · push Not at hop
    obtain ⟨hres, hshift⟩ := step_shifts hs ho hop h
    exact hshift.separate hw hres

private theorem boot_separate {live : ℕ} {ps fs : List SizeClass} (h : World.boot live ps fs = some w) :
    w.Separate := by
  obtain ⟨p, -, rfl⟩ := Option.map_eq_some_iff.mp h
  exact ⟨.nil, by simp⟩

theorem run_separate {ops : List Op} (hs : w.Sound) (hw : w.Separate)
    (ho : ∀ op ∈ ops, op.onBytes = true)
    (hset : ∀ done v n u, done ++ [.setLen v n] <+: ops → run World.step w done = some u →
      u.Resizes v n → u.Spares v n)
    (h : run World.step w ops = some w') : w'.Separate := by
  induction ops generalizing w with
  | nil => exact Option.some.inj h ▸ hw
  | cons op ops ih =>
    obtain ⟨u, hu, hr⟩ := Option.bind_eq_some_iff.mp h
    have hop := ho op List.mem_cons_self
    have hsu := World.step_sound hs (onBytes_releasesEarly hop) hu
    have hwu := step_separate hs hw hop (fun v n heq hres => hset [] v n w
      (by rw [heq]; exact List.prefix_append _ _) rfl hres) hu
    refine ih hsu hwu (fun o ho' => ho o (List.mem_cons_of_mem op ho')) ?_ hr
    intro done v n x hd hx hres
    refine hset (op :: done) v n x (List.cons_prefix_cons.mpr ⟨rfl, hd⟩) ?_ hres
    rw [run_cons, hu]
    exact hx

end

/-- In a sequence of calls on byte buffers, exclusive views stay apart and inside their slots
throughout exactly when every accepted `set_len` spares the other exclusive views of its slot. -/
theorem run_separate_iff {live : ℕ} {ps fs : List SizeClass} {w : World} {ops : List Op}
    (hb : World.boot live ps fs = some w) (ho : ∀ op ∈ ops, op.onBytes = true) :
    (∀ done u, done <+: ops → run World.step w done = some u → u.Separate) ↔
      ∀ done v n u, done ++ [.setLen v n] <+: ops → run World.step w done = some u →
        u.Resizes v n → u.Spares v n := by
  constructor
  · intro hall done v n u hd hu hres
    refine setLen_spares hres (hall _ _ hd ?_)
    rw [run_append, hu]
    simp [(step_setLen hres).1]
  · intro hset done u hd hu
    refine run_separate (World.boot_sound hb) (boot_separate hb)
      (fun op hop => ho op (hd.subset hop)) ?_ hu
    intro done' v n x hd'
    exact hset done' v n x (hd'.trans hd)

/-- Two halves of one slot, the tail shrunk. -/
theorem run_separate_iff_halves :
    (∀ done u, done <+: [.allocBytes 10, .splitAt ⟨0, 1, 0, 1, .sliceMut 64⟩ 16,
        .setLen ⟨0, 1, 16, 1, .sliceMut 48⟩ 8] →
        run World.step World.oneSlot done = some u → u.Separate) ↔
      ∀ done v n u, done ++ [.setLen v n] <+: [.allocBytes 10,
        .splitAt ⟨0, 1, 0, 1, .sliceMut 64⟩ 16, .setLen ⟨0, 1, 16, 1, .sliceMut 48⟩ 8] →
        run World.step World.oneSlot done = some u → u.Resizes v n → u.Spares v n :=
  have hb : World.boot 1 [⟨64, 1⟩] [⟨64, 1⟩] = some World.oneSlot := by decide +kernel
  run_separate_iff hb (by decide)

/-- The head of a split slot grows over its tail. -/
theorem setLen_overlaps_tail :
    World.boot 1 [⟨64, 1⟩] [⟨64, 1⟩] = some World.oneSlot ∧
    ∃ w, run World.step World.oneSlot [.allocBytes 10,
        .splitAt ⟨0, 1, 0, 1, .sliceMut 64⟩ 16, .setLen ⟨0, 1, 0, 1, .sliceMut 16⟩ 64] = some w ∧
      w.views = [⟨0, 1, 16, 1, .sliceMut 48⟩, ⟨0, 1, 0, 1, .sliceMut 64⟩] ∧ ¬ w.Separate := by
  refine ⟨by decide +kernel, { World.oneSlot with
    pools.fixedPool.slabs := [⟨64, 0, [], ⟨[-2]⟩⟩]
    views := [⟨0, 1, 16, 1, .sliceMut 48⟩, ⟨0, 1, 0, 1, .sliceMut 64⟩] },
    by decide +kernel, rfl, ?_⟩
  intro h
  have hap := h.apart
  revert hap
  decide +kernel

end Conrt.Buf
