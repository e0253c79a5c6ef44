import Mathlib.Data.List.Nodup
import Mathlib.Data.Nat.Basic
import Mathlib.Tactic.SplitIfs

/-! Slabs whose free slots form a stack threaded through the slots themselves. -/
namespace Conrt.Base

variable {σ : Type*} {link : σ → Option ℕ} {nil : ℕ} {slab : List σ} {head next i : ℕ}
  {free loose : List ℕ} {s s' : σ}

/-- The links lead from `head` through the slots `free`, in order, to the sentinel. -/
def Chain (link : σ → Option ℕ) (nil : ℕ) (slab : List σ) : ℕ → List ℕ → Prop
  | head, [] => head = nil
  | head, i :: rest => head = i ∧ i ≠ nil ∧ ∃ s next, slab[i]? = some s ∧ link s = some next ∧
      Chain link nil slab next rest

/-- The stack passes through the free slots `free`; the free slots `loose` are off it. Each free slot
is one of these once, and no other slot is. -/
structure Stacked (link : σ → Option ℕ) (nil : ℕ) (slab : List σ) (head : ℕ)
    (free loose : List ℕ) : Prop where
  chain : Chain link nil slab head free
  nodup : (loose ++ free).Nodup
  covers : ∀ i, i ∈ loose ++ free ↔ ∃ s next, slab[i]? = some s ∧ link s = some next

theorem Chain.congr {slab' : List σ} (h : Chain link nil slab head free)
    (hs : ∀ i ∈ free, slab'[i]? = slab[i]?) : Chain link nil slab' head free := by
  induction free generalizing head with
  | nil => exact h
  | cons i rest ih =>
    obtain ⟨hi, hne, s, next, hget, hlink, hrest⟩ := h
    have hsame : slab'[i]? = some s := (hs i List.mem_cons_self).trans hget
    exact ⟨hi, hne, s, next, hsame, hlink, ih hrest fun j hj => hs j (List.mem_cons_of_mem i hj)⟩

theorem Chain.set (h : Chain link nil slab head free) (hi : i ∉ free) :
    Chain link nil (slab.set i s) head free := by
  apply h.congr
  intro j hj
  have hij : i ≠ j := by
    rintro rfl
    exact hi hj
  exact List.getElem?_set_ne hij

namespace Stacked

theorem new : Stacked link nil ([] : List σ) nil [] [] := by
  refine ⟨rfl, List.nodup_nil, fun i => ?_⟩
  simp

theorem not_mem (h : Stacked link nil slab head free loose) (hs : slab[i]? = some s)
    (hl : link s = none) : i ∉ loose ++ free := by
  intro hi
  obtain ⟨t, next, ht, hnext⟩ := (h.covers i).mp hi
  rw [hs] at ht
  obtain rfl := Option.some.inj ht
  rw [hl] at hnext
  cases hnext

/-- The head of the stack is a free slot; without it the stack goes on behind it. -/
theorem pop (h : Stacked link nil slab head free loose) (hne : head ≠ nil) :
    ∃ s next rest, slab[head]? = some s ∧ link s = some next ∧
      Stacked link nil slab next rest (head :: loose) := by
  cases free with
  | nil => exact absurd h.chain hne
  | cons i rest =>
    obtain ⟨rfl, -, s, next, hget, hlink, hrest⟩ := h.chain
    have hperm : (loose ++ head :: rest).Perm (head :: loose ++ rest) := List.perm_middle
    refine ⟨s, next, rest, hget, hlink, hrest, hperm.nodup_iff.mp h.nodup, fun j => ?_⟩
    rw [← h.covers j]
    exact hperm.mem_iff.symm

/-- A new free slot, off the stack. -/
theorem grow (h : Stacked link nil slab head free loose) (hs : link s = some next) :
    Stacked link nil (slab ++ [s]) head free (slab.length :: loose) := by
  have hlt : ∀ j ∈ loose ++ free, j < slab.length := by
    intro j hj
    obtain ⟨t, -, ht, -⟩ := (h.covers j).mp hj
    exact (List.getElem?_eq_some_iff.mp ht).1
  have hnew : slab.length ∉ loose ++ free := fun hm => absurd (hlt _ hm) (lt_irrefl _)
  refine ⟨h.chain.congr fun j hj => ?_, List.nodup_cons.mpr ⟨hnew, h.nodup⟩, fun j => ?_⟩
  · exact List.getElem?_append_left (hlt j (List.mem_append_right loose hj))
  · rw [List.cons_append, List.mem_cons, h.covers j]
    constructor
    · rintro (rfl | ⟨t, n, ht, hn⟩)
      · exact ⟨s, next, List.getElem?_concat_length, hs⟩
      · have hj := (List.getElem?_eq_some_iff.mp ht).1
        exact ⟨t, n, (List.getElem?_append_left hj).trans ht, hn⟩
    · rintro ⟨t, n, ht, hn⟩
      by_cases hj : j < slab.length
      · rw [List.getElem?_append_left hj] at ht
        exact .inr ⟨t, n, ht, hn⟩
      · have hle : j < (slab ++ [s]).length := (List.getElem?_eq_some_iff.mp ht).1
        rw [List.length_append, List.length_singleton] at hle
        exact .inl (by omega)

/-- A slot off the stack is put to use. -/
theorem claim (h : Stacked link nil slab head free (i :: loose)) (hs : link s = none) :
    Stacked link nil (slab.set i s) head free loose := by
  have hnd : i ∉ loose ++ free ∧ (loose ++ free).Nodup := List.nodup_cons.mp h.nodup
  obtain ⟨old, -, hold, -⟩ := (h.covers i).mp List.mem_cons_self
  have hlt : i < slab.length := (List.getElem?_eq_some_iff.mp hold).1
  refine ⟨h.chain.set fun hi => hnd.1 (List.mem_append_right loose hi), hnd.2, fun j => ?_⟩
  have hj := h.covers j
  rw [List.cons_append, List.mem_cons] at hj
  by_cases hij : i = j
  · subst hij
    rw [List.getElem?_set_self hlt]
    constructor
    · exact fun hm => absurd hm hnd.1
    · rintro ⟨t, n, ht, hn⟩
      obtain rfl := Option.some.inj ht
      rw [hs] at hn
      cases hn
  · rw [List.getElem?_set_ne hij, ← hj]
    constructor
    · exact .inr
    · exact fun hm => hm.resolve_left (Ne.symm hij)

/-- A slot in use changes and stays in use. -/
theorem update (h : Stacked link nil slab head free loose) (hget : slab[i]? = some s)
    (hs : link s = none) (hs' : link s' = none) :
    Stacked link nil (slab.set i s') head free loose := by
  have hi := h.not_mem hget hs
  refine ⟨h.chain.set fun hm => hi (List.mem_append_right loose hm), h.nodup, fun j => ?_⟩
  rw [h.covers j]
  by_cases hij : i = j
  · subst hij
    have hlt := (List.getElem?_eq_some_iff.mp hget).1
    rw [List.getElem?_set_self hlt, hget]
    simp [hs, hs']
  · rw [List.getElem?_set_ne hij]

/-- A slot in use is freed onto the stack. -/
theorem push (h : Stacked link nil slab head free loose) (hget : slab[i]? = some s)
    (hs : link s = none) (hs' : link s' = some head) (hne : i ≠ nil) :
    Stacked link nil (slab.set i s') i (i :: free) loose := by
  have hi := h.not_mem hget hs
  have hlt := (List.getElem?_eq_some_iff.mp hget).1
  have hset : (slab.set i s')[i]? = some s' := List.getElem?_set_self hlt
  have hperm : (loose ++ i :: free).Perm (i :: (loose ++ free)) := List.perm_middle
  have hchain := h.chain.set (s := s') fun hm => hi (List.mem_append_right loose hm)
  refine ⟨⟨rfl, hne, s', head, hset, hs', hchain⟩, ?_, fun j => ?_⟩
  · exact hperm.nodup_iff.mpr (List.nodup_cons.mpr ⟨hi, h.nodup⟩)
  · rw [hperm.mem_iff, List.mem_cons, h.covers j]
    by_cases hij : i = j
    · subst hij
      exact iff_of_true (.inl rfl) ⟨s', head, hset, hs'⟩
    · rw [List.getElem?_set_ne hij]
      constructor
      · exact fun hm => hm.resolve_left (Ne.symm hij)
      · exact .inr

end Stacked

def inUse (link : σ → Option ℕ) (slab : List σ) : ℕ := slab.countP fun s => (link s).isNone

theorem inUse_set (link : σ → Option ℕ) (s' : σ) (hget : slab[i]? = some s) :
    inUse link (slab.set i s') + (if (link s).isNone then 1 else 0) =
      inUse link slab + if (link s').isNone then 1 else 0 := by
  obtain ⟨hlt, rfl⟩ := List.getElem?_eq_some_iff.mp hget
  unfold inUse
  induction slab generalizing i with
  | nil => simp at hlt
  | cons t slab ih =>
    cases i with
    | zero =>
      simp only [List.set_cons_zero, List.countP_cons, List.getElem_cons_zero]
      omega
    | succ i =>
      have hlt' : i < slab.length := Nat.lt_of_succ_lt_succ hlt
      have h := ih hlt' (List.getElem?_eq_getElem hlt')
      simp only [List.set_cons_succ, List.countP_cons, List.getElem_cons_succ]
      omega

/-- The books of a slab: its stack, the number in use or claimed, and for each slot that it is `fit`,
where the contents of the slots in `out` have been moved out of them. -/
structure Slab (link : σ → Option ℕ) (nil : ℕ) (fit : Bool → σ → Prop) (slab : List σ)
    (head count : ℕ) (loose out : List ℕ) : Prop where
  stack : ∃ free, Stacked link nil slab head free loose
  count : count = inUse link slab + loose.length
  room : slab.length ≤ nil
  each : ∀ i s, slab[i]? = some s → fit (decide (i ∈ out)) s
  used : ∀ i ∈ out, ∃ s, slab[i]? = some s ∧ link s = none
  nodup : out.Nodup

namespace Slab

variable {fit : Bool → σ → Prop} {count : ℕ} {out : List ℕ}

theorem new : Slab link nil fit ([] : List σ) nil 0 [] [] := by
  refine ⟨⟨[], .new⟩, rfl, Nat.zero_le _, ?_, ?_, List.nodup_nil⟩ <;> simp

theorem inUse_le (link : σ → Option ℕ) (slab : List σ) : inUse link slab ≤ slab.length :=
  List.countP_le_length

theorem lt_room (h : Slab link nil fit slab head count loose out) (hs : slab[i]? = some s) :
    i < nil := Nat.lt_of_lt_of_le (List.getElem?_eq_some_iff.mp hs).1 h.room

/-- A slot in use has one counted for it. -/
theorem count_pos (h : Slab link nil fit slab head count loose out) (hget : slab[i]? = some s)
    (hs : link s = none) : 0 < count := by
  have hpos : 0 < inUse link slab :=
    List.countP_pos_iff.mpr ⟨s, List.mem_of_getElem? hget, by rw [hs]; rfl⟩
  rw [h.count]
  omega

theorem pop (h : Slab link nil fit slab head count loose out) (hne : head ≠ nil) :
    ∃ s next, slab[head]? = some s ∧ link s = some next ∧
      Slab link nil fit slab next (count + 1) (head :: loose) out := by
  obtain ⟨free, hstack⟩ := h.stack
  obtain ⟨s, next, rest, hget, hlink, hrest⟩ := hstack.pop hne
  have hcount : count + 1 = inUse link slab + (head :: loose).length := by
    rw [h.count, List.length_cons]
    omega
  exact ⟨s, next, hget, hlink, ⟨rest, hrest⟩, hcount, h.room, h.each, h.used, h.nodup⟩

/-- With the stack empty every slot is in use, so the count says whether there is room. -/
theorem grow (h : Slab link nil fit slab head count [] out) (hhead : head = nil)
    (hs : link s = some next) (hfit : fit false s) (hroom : count < nil) :
    Slab link nil fit (slab ++ [s]) head (count + 1) [slab.length] out := by
  obtain ⟨free, hstack⟩ := h.stack
  have hfree : free = [] := by
    cases free with
    | nil => rfl
    | cons i rest =>
      obtain ⟨rfl, hne, -⟩ := hstack.chain
      exact absurd hhead hne
  subst hfree
  have hall : inUse link slab = slab.length := by
    unfold inUse
    rw [List.countP_eq_length]
    intro t ht
    obtain ⟨i, hi, rfl⟩ := List.getElem_of_mem ht
    rw [Option.isNone_iff_eq_none]
    by_contra hl
    obtain ⟨n, hn⟩ := Option.ne_none_iff_exists'.mp hl
    have hm := (hstack.covers i).mpr ⟨_, n, List.getElem?_eq_getElem hi, hn⟩
    exact absurd hm (by simp)
  have hcount : count = slab.length := by
    rw [h.count, hall]
    rfl
  refine ⟨⟨[], hstack.grow hs⟩, ?_, ?_, ?_, ?_, h.nodup⟩
  · rw [h.count]
    simp [inUse, hs]
  · rw [List.length_append, List.length_singleton]
    omega
  · intro i t ht
    rcases lt_trichotomy i slab.length with hi | hi | hi
    · rw [List.getElem?_append_left hi] at ht
      exact h.each i t ht
    · subst hi
      rw [List.getElem?_concat_length] at ht
      obtain rfl := Option.some.inj ht
      have hout : slab.length ∉ out := by
        intro ho
        obtain ⟨t, ht, -⟩ := h.used _ ho
        exact absurd (List.getElem?_eq_some_iff.mp ht).1 (lt_irrefl _)
      rwa [decide_eq_false hout]
    · have hlt : i < (slab ++ [s]).length := (List.getElem?_eq_some_iff.mp ht).1
      rw [List.length_append, List.length_singleton] at hlt
      omega
  · intro i hi
    obtain ⟨t, ht, hl⟩ := h.used i hi
    have hlt := (List.getElem?_eq_some_iff.mp ht).1
    exact ⟨t, (List.getElem?_append_left hlt).trans ht, hl⟩

/-- What replaces a slot keeps the others fit. -/
theorem each_set (h : Slab link nil fit slab head count loose out) {out' : List ℕ}
    (hout : ∀ j ≠ i, (j ∈ out' ↔ j ∈ out)) (hfit : fit (decide (i ∈ out')) s') :
    ∀ j t, (slab.set i s')[j]? = some t → fit (decide (j ∈ out')) t := by
  intro j t ht
  by_cases hij : i = j
  · subst hij
    have hlt := (List.getElem?_eq_some_iff.mp ht).1
    rw [List.length_set] at hlt
    rw [List.getElem?_set_self hlt] at ht
    obtain rfl := Option.some.inj ht
    exact hfit
  · rw [List.getElem?_set_ne hij] at ht
    rw [decide_eq_decide.mpr (hout j (Ne.symm hij))]
    exact h.each j t ht

theorem used_set (h : Slab link nil fit slab head count loose out) (hs' : link s' = none) :
    ∀ j ∈ out, ∃ t, (slab.set i s')[j]? = some t ∧ link t = none := by
  intro j hj
  obtain ⟨t, ht, hl⟩ := h.used j hj
  have hlt := (List.getElem?_eq_some_iff.mp ht).1
  by_cases hij : i = j
  · subst hij
    exact ⟨s', List.getElem?_set_self hlt, hs'⟩
  · exact ⟨t, (List.getElem?_set_ne hij).trans ht, hl⟩

theorem claim (h : Slab link nil fit slab head count (i :: loose) out) (hs' : link s' = none)
    (hfit : fit false s') :
    Slab link nil fit (slab.set i s') head count loose out := by
  obtain ⟨free, hstack⟩ := h.stack
  obtain ⟨s, next, hget, hl⟩ := (hstack.covers i).mp List.mem_cons_self
  have hout : i ∉ out := by
    intro ho
    obtain ⟨t, ht, hlt⟩ := h.used i ho
    rw [hget] at ht
    obtain rfl := Option.some.inj ht
    rw [hl] at hlt
    cases hlt
  have hcount := inUse_set link s' hget
  simp only [hl, hs', Option.isNone_some, Option.isNone_none, Bool.false_eq_true, if_false, if_true,
    Nat.add_zero] at hcount
  refine ⟨⟨free, hstack.claim hs'⟩, ?_, ?_, ?_, h.used_set hs', h.nodup⟩
  · rw [h.count, hcount, List.length_cons]
    omega
  · rw [List.length_set]
    exact h.room
  · apply h.each_set fun j _ => Iff.rfl
    rwa [decide_eq_false hout]

/-- A slot in use changes, and its contents may have been moved out meanwhile. -/
theorem update (h : Slab link nil fit slab head count loose out) (hget : slab[i]? = some s)
    (hs : link s = none) (hs' : link s' = none) (hfit : fit (decide (i ∈ out)) s') :
    Slab link nil fit (slab.set i s') head count loose out := by
  obtain ⟨free, hstack⟩ := h.stack
  have hcount := inUse_set link s' hget
  rw [hs, hs'] at hcount
  refine ⟨⟨free, hstack.update hget hs hs'⟩, ?_, ?_, ?_, h.used_set hs', h.nodup⟩
  · rw [h.count]
    omega
  · rw [List.length_set]
    exact h.room
  · exact h.each_set (fun j _ => Iff.rfl) hfit

theorem take (h : Slab link nil fit slab head count loose out) (hget : slab[i]? = some s)
    (hs : link s = none) (hs' : link s' = none) (hi : i ∉ out) (hfit : fit true s') :
    Slab link nil fit (slab.set i s') head count loose (i :: out) := by
  obtain ⟨free, hstack⟩ := h.stack
  have hlt := (List.getElem?_eq_some_iff.mp hget).1
  have hcount := inUse_set link s' hget
  rw [hs, hs'] at hcount
  refine ⟨⟨free, hstack.update hget hs hs'⟩, ?_, ?_, ?_, ?_, List.nodup_cons.mpr ⟨hi, h.nodup⟩⟩
  · rw [h.count]
    omega
  · rw [List.length_set]
    exact h.room
  · apply h.each_set
    · intro j hj
      rw [List.mem_cons, or_iff_right hj]
    · rwa [decide_eq_true List.mem_cons_self]
  · intro j hj
    rcases List.mem_cons.mp hj with rfl | hj
    · exact ⟨s', List.getElem?_set_self hlt, hs'⟩
    · exact h.used_set hs' j hj

/-- A slot whose contents are gone is freed. -/
theorem push (h : Slab link nil fit slab head count loose (i :: out)) (hs' : link s' = some head)
    (hfit : fit false s') : Slab link nil fit (slab.set i s') i (count - 1) loose out := by
  obtain ⟨free, hstack⟩ := h.stack
  obtain ⟨s, hget, hs⟩ := h.used i List.mem_cons_self
  obtain ⟨hi, hnd⟩ := List.nodup_cons.mp h.nodup
  have hne : i ≠ nil := Nat.ne_of_lt (h.lt_room hget)
  have hpos := h.count_pos hget hs
  have hcount := inUse_set link s' hget
  simp only [hs, hs', Option.isNone_some, Option.isNone_none, Bool.false_eq_true, if_false, if_true,
    Nat.add_zero] at hcount
  refine ⟨⟨i :: free, hstack.push hget hs hs' hne⟩, ?_, ?_, ?_, ?_, hnd⟩
  · rw [h.count, ← hcount]
    omega
  · rw [List.length_set]
    exact h.room
  · apply h.each_set
    · intro j hj
      rw [List.mem_cons, or_iff_right hj]
    · rwa [decide_eq_false hi]
  · intro j hj
    obtain ⟨t, ht, hl⟩ := h.used j (List.mem_cons_of_mem i hj)
    have hij : i ≠ j := by
      rintro rfl
      exact hi hj
    exact ⟨t, (List.getElem?_set_ne hij).trans ht, hl⟩

end Slab

/-- One slot alone meets `p`. -/
theorem countP_eq_one {p : σ → Bool} {slab : List σ} (hget : slab[i]? = some s) (hs : p s = true)
    (hone : ∀ j t, slab[j]? = some t → p t = true → j = i) : slab.countP p = 1 := by
  induction slab generalizing i with
  | nil => simp at hget
  | cons t slab ih =>
    cases i with
    | zero =>
      obtain rfl : t = s := Option.some.inj hget
      have hrest : slab.countP p = 0 := by
        apply List.countP_eq_zero.mpr
        intro x hx hpx
        obtain ⟨j, hj⟩ := List.getElem?_of_mem hx
        exact absurd (hone (j + 1) x hj hpx) (Nat.succ_ne_zero j)
      rw [List.countP_cons_of_pos hs, hrest]
    | succ i =>
      have ht : ¬ p t = true := fun ht => absurd (hone 0 t rfl ht) (Nat.succ_ne_zero i).symm
      rw [List.countP_cons_of_neg ht]
      exact ih hget fun j x hj hpx => Nat.succ.inj (hone (j + 1) x hj hpx)

end Conrt.Base
