import Conrt.Base.Run
import Conrt.Coio.Runs

/-! The arena under any sequence of calls: the runs its users hold, and what they find in them. -/
namespace Conrt.Coio

open Conrt.Base

/-- A run handed out for `len` buffers, and what its user has left in its blocks. -/
structure Lease where
  start : ℕ
  len : ℕ
  data : List IoBufErased
deriving DecidableEq, Repr

def Lease.run (l : Lease) : Run := ⟨l.start, (classFor l.len).getD 0⟩

/-- The user overwrites the blocks from the `off`-th on. -/
def Lease.put (l : Lease) (off : ℕ) (bufs : List IoBufErased) : Lease :=
  { l with data := l.data.take off ++ bufs ++ l.data.drop (off + bufs.length) }

/-- An arena, the runs handed out, and those given back and not handed out since. -/
structure Tenancy where
  arena : BufArena
  leases : List Lease
  freed : List Run
deriving DecidableEq, Repr

inductive ArenaCall
  | alloc (len : ℕ)
  | release (start len : ℕ)
  | write (start len off : ℕ) (bufs : List IoBufErased)
deriving DecidableEq, Repr

namespace Tenancy

def new : Tenancy := ⟨.new, [], []⟩

def runs (t : Tenancy) : List Run := t.leases.map Lease.run

def find (t : Tenancy) (start len : ℕ) : Option Lease :=
  t.leases.find? fun l => l.start = start ∧ l.len = len

/-- What callers keep to: a length a class serves, and only runs they hold, by their own length. -/
def Allows (t : Tenancy) : ArenaCall → Prop
  | .alloc len => 1 ≤ len ∧ len ≤ 1024
  | .release start len => (t.find start len).isSome
  | .write start len off bufs =>
    (t.find start len).any fun l => off + bufs.length ≤ classSize l.run.cls

instance (t : Tenancy) : (call : ArenaCall) → Decidable (t.Allows call)
  | .alloc len => inferInstanceAs (Decidable (1 ≤ len ∧ len ≤ 1024))
  | .release start len => inferInstanceAs (Decidable ((t.find start len).isSome = true))
  | .write start len off bufs => inferInstanceAs (Decidable
      (((t.find start len).any fun l => off + bufs.length ≤ classSize l.run.cls) = true))

def step (t : Tenancy) : ArenaCall → Option Tenancy
  | .alloc len =>
    match t.arena.alloc len with
    | .error _ => none
    | .ok (start, arena) =>
      let run := (Lease.mk start len []).run
      (arena.slice start (classSize run.cls)).map fun data =>
        ⟨arena, ⟨start, len, data⟩ :: t.leases, t.freed.erase run⟩
  | .release start len =>
    match t.find start len, t.arena.release start len with
    | some l, .ok arena => some ⟨arena, t.leases.erase l, l.run :: t.freed⟩
    | _, _ => none
  | .write start len off bufs =>
    match t.find start len, t.arena.write (start + off) bufs with
    | some l, some arena => some { t with arena, leases := l.put off bufs :: t.leases.erase l }
    | _, _ => none

/-- What holds between any two calls: the runs handed out and the free ones lie apart inside the
blocks, each free list ends and passes once through each free run of its class and through nothing
else, a run holds what its user has left there, the arena grows only for a class without a free run,
and only a call that finds the arena exhausted panics. -/
structure Sound (t : Tenancy) : Prop where
  inside : ∀ r ∈ t.runs ++ t.freed, r.stop ≤ t.arena.blocks.length
  apart : (t.runs ++ t.freed).Pairwise Run.Apart
  listed : ∀ cls < bufClasses.length, ∃ head starts, t.arena.free[cls]? = some head ∧
    Linked t.arena.blocks head starts ∧ starts.Nodup ∧ ∀ s, s ∈ starts ↔ ⟨s, cls⟩ ∈ t.freed
  kept : ∀ l ∈ t.leases, t.arena.slice l.start (classSize l.run.cls) = some l.data
  grown : ∀ len start arena, t.arena.alloc len = .ok (start, arena) →
    arena.blocks.length ≠ t.arena.blocks.length → ∃ cls, classFor len = some cls ∧
      t.arena.free[cls]? = some bufNone ∧ ∀ r ∈ t.freed, r.cls ≠ cls
  answered : ∀ call, t.Allows call → (t.step call).isSome ∨ ∃ len cls, call = .alloc len ∧
    classFor len = some cls ∧ t.arena.free[cls]? = some bufNone ∧
    bufNone ≤ t.arena.blocks.length + classSize cls

/-- The free lists go through the runs given back, most recent first. -/
structure Wf (t : Tenancy) : Prop where
  arena : t.arena.Wf t.runs t.freed
  served : ∀ l ∈ t.leases, classFor l.len = some l.run.cls
  kept : ∀ l ∈ t.leases, t.arena.slice l.start (classSize l.run.cls) = some l.data

variable {t t' : Tenancy} {l : Lease} {start len off : ℕ} {bufs data : List IoBufErased}

/-- Overwriting inside the middle part. -/
theorem overwrite_middle {before after : List IoBufErased} (h : off + bufs.length ≤ data.length) :
    (before ++ data ++ after).take (before.length + off) ++ bufs ++
      (before ++ data ++ after).drop (before.length + off + bufs.length) =
    before ++ (data.take off ++ bufs ++ data.drop (off + bufs.length)) ++ after := by
  rw [List.append_assoc before, Nat.add_assoc, List.take_length_add_append,
    List.drop_length_add_append, List.take_append_of_le_length (by omega),
    List.drop_append_of_le_length h]
  simp

theorem find_eq (h : t.find start len = some l) : l ∈ t.leases ∧ l.start = start ∧ l.len = len := by
  have hp : l.start = start ∧ l.len = len := by simpa using List.find?_some h
  exact ⟨List.mem_of_find?_eq_some h, hp⟩

private theorem runs_perm (hl : l ∈ t.leases) : t.runs.Perm (l.run :: (t.leases.erase l).map Lease.run) :=
  (List.perm_cons_erase hl).map Lease.run

namespace Wf

theorem new : new.Wf := ⟨.new, by simp [Tenancy.new], by simp [Tenancy.new]⟩

/-- Taking one lease aside. -/
theorem setAside (h : t.Wf) (hl : l ∈ t.leases) :
    t.arena.Wf (l.run :: (t.leases.erase l).map Lease.run) t.freed :=
  h.arena.mono_perm (runs_perm hl)

/-- The other runs are not touched by a call that changes one lease's run only. -/
theorem kept_of_frame (h : t.Wf) (hl : l ∈ t.leases) {arena : BufArena}
    (hlen : t.arena.blocks.length ≤ arena.blocks.length)
    (hout : ∀ i, (i < l.run.start ∨ l.run.stop ≤ i) → arena.blocks[i]? = t.arena.blocks[i]?) :
    ∀ m ∈ t.leases.erase l, arena.slice m.start (classSize m.run.cls) = some m.data := by
  intro m hm
  have hap : l.run.Apart m.run := by
    have hpair := (h.setAside hl).apart
    rw [List.cons_append, List.pairwise_cons] at hpair
    exact hpair.1 m.run (List.mem_append_left _ (List.mem_map_of_mem hm))
  apply BufArena.slice_congr (h.kept m (List.mem_of_mem_erase hm)) hlen
  intro i hlo hhi
  apply hout
  change l.run.stop ≤ m.start ∨ m.start + classSize m.run.cls ≤ l.run.start at hap
  omega

/-- A run is handed out: a free one of its class, or one past all others. -/
theorem alloc (h : t.Wf) (ha : t.Allows (.alloc len)) :
    (∃ t', t.step (.alloc len) = some t' ∧ t'.Wf) ∨ t.arena.alloc len = .error .assertion ∧
      ∃ cls, classFor len = some cls ∧ t.arena.free[cls]? = some bufNone ∧
        bufNone ≤ t.arena.blocks.length + classSize cls := by
  rcases h.arena.alloc len with ⟨hfail, hfull⟩ | ⟨start, arena, cls, halloc, hcls, hwf, hkeep, -⟩
  · exact .inr ⟨hfail, hfull ha.1 ha.2⟩
  have hrun : (Lease.mk start len []).run = ⟨start, cls⟩ := by simp [Lease.run, hcls]
  have hin : start + classSize cls ≤ arena.blocks.length := (hwf.inside ⟨start, cls⟩ (by simp)).2
  obtain ⟨data, hslice⟩ : ∃ data, arena.slice start (classSize cls) = some data := ⟨_, if_pos hin⟩
  refine .inl ⟨⟨arena, ⟨start, len, data⟩ :: t.leases, t.freed.erase ⟨start, cls⟩⟩, ?_, ?_, ?_, ?_⟩
  · simp only [step, halloc, hrun, hslice]
    rfl
  · have hruns : t.runs = t.leases.map Lease.run := rfl
    simpa [runs, Lease.run, hcls] using hruns ▸ hwf
  · intro l hl
    rcases List.mem_cons.mp hl with rfl | hl
    · simp [Lease.run, hcls]
    · exact h.served l hl
  · intro l hl
    rcases List.mem_cons.mp hl with rfl | hl
    · simpa [Lease.run, hcls] using hslice
    · have hinl : l.run.stop ≤ t.arena.blocks.length :=
        (h.arena.inside l.run (List.mem_append_left _ (List.mem_map_of_mem hl))).2
      apply BufArena.slice_congr (h.kept l hl) (length_le_of_keep hkeep)
      intro i _ hhi
      exact hkeep i (Nat.lt_of_lt_of_le hhi hinl)

/-- A run is given back by its user. -/
theorem release (h : t.Wf) (ha : t.Allows (.release start len)) :
    ∃ t', t.step (.release start len) = some t' ∧ t'.Wf := by
  obtain ⟨l, hfind⟩ := Option.isSome_iff_exists.mp ha
  obtain ⟨hl, rfl, rfl⟩ := find_eq hfind
  obtain ⟨arena, hrel, hwf, hlen, hkeep⟩ := (h.setAside hl).release (h.served l hl)
  refine ⟨⟨arena, t.leases.erase l, l.run :: t.freed⟩, ?_, hwf, ?_, ?_⟩
  · simp only [step, hfind, hrel]
  · exact fun m hm => h.served m (List.mem_of_mem_erase hm)
  · apply h.kept_of_frame hl hlen.ge
    intro i hi
    apply hkeep
    have hpos := classSize_pos (classFor_eq_some (h.served l hl)).1
    change i < l.start ∨ l.start + classSize l.run.cls ≤ i at hi
    omega

/-- A user writes to blocks of its run. -/
theorem write (h : t.Wf) (ha : t.Allows (.write start len off bufs)) :
    ∃ t', t.step (.write start len off bufs) = some t' ∧ t'.Wf := by
  obtain ⟨l, hfind, hfits⟩ := (Option.any_eq_true _ _).mp ha
  obtain ⟨hl, rfl, rfl⟩ := find_eq hfind
  have hoff : off + bufs.length ≤ classSize l.run.cls := of_decide_eq_true hfits
  obtain ⟨arena, hwrite, hwf, hblocks, hlen, hout⟩ := (h.setAside hl).write hoff
  refine ⟨⟨arena, l.put off bufs :: t.leases.erase l, t.freed⟩, ?_, hwf, ?_, ?_⟩
  · simp only [step, hfind, hwrite]
  · intro m hm
    rcases List.mem_cons.mp hm with rfl | hm
    · exact h.served l hl
    · exact h.served m (List.mem_of_mem_erase hm)
  · intro m hm
    rcases List.mem_cons.mp hm with rfl | hm
    · obtain ⟨before, after, hold, hstart, hdata⟩ := BufArena.slice_eq_some.mp (h.kept l hl)
      refine BufArena.slice_eq_some.mpr ⟨before, after, ?_, hstart, ?_⟩
      · have hin : off + bufs.length ≤ l.data.length := hoff.trans hdata.ge
        rw [hblocks, hold, ← hstart]
        exact overwrite_middle hin
      · change (l.data.take off ++ bufs ++ l.data.drop (off + bufs.length)).length = _
        rw [List.length_append, List.length_append, List.length_take, List.length_drop]
        change l.data.length = classSize l.run.cls at hdata
        change _ = classSize l.run.cls
        omega
    · apply h.kept_of_frame hl hlen.ge ?_ m hm
      intro i hi
      apply hout
      change i < l.start ∨ l.start + classSize l.run.cls ≤ i at hi
      omega

/-- Every permitted call is answered, unless it finds the arena exhausted, and keeps all in order. -/
theorem step (h : t.Wf) {call : ArenaCall} (ha : t.Allows call) :
    (∃ t', t.step call = some t' ∧ t'.Wf) ∨ t.step call = none ∧ ∃ len cls, call = .alloc len ∧
      classFor len = some cls ∧ t.arena.free[cls]? = some bufNone ∧
      bufNone ≤ t.arena.blocks.length + classSize cls := by
  cases call with
  | alloc len =>
    rcases h.alloc ha with hok | ⟨hfail, cls, hfull⟩
    · exact .inl hok
    · have hnone : t.step (.alloc len) = none := by simp only [Tenancy.step, hfail]
      exact .inr ⟨hnone, len, cls, rfl, hfull⟩
  | release start len => exact .inl (h.release ha)
  | write start len off bufs => exact .inl (h.write ha)

end Wf

private theorem sound_of_wf (h : t.Wf) : t.Sound where
  inside r hr := (h.arena.inside r hr).2
  apart := h.arena.apart
  listed cls hcls := by
    have hlt : cls < t.arena.free.length := by
      rw [h.arena.classes]
      exact hcls
    have hhead : t.arena.free[cls]? = some t.arena.free[cls] := List.getElem?_eq_getElem hlt
    have hfreed : ∀ r ∈ t.freed, 0 < classSize r.cls := fun r hr =>
      classSize_pos (h.arena.inside r (List.mem_append_right _ hr)).1
    exact ⟨_, startsOf cls t.freed, hhead, h.arena.linked cls _ hhead,
      startsOf_nodup (List.pairwise_append.mp h.arena.apart).2.1 hfreed, fun _ => mem_startsOf_iff⟩
  kept := h.kept
  grown len start arena halloc hlen := by
    rcases h.arena.alloc len with ⟨hfail, -⟩ | ⟨_, _, cls, hok, hcls, -, -, hgrow⟩
    · rw [halloc] at hfail
      cases hfail
    · rw [halloc] at hok
      obtain ⟨rfl, rfl⟩ := Prod.mk.inj (Except.ok.inj hok)
      have hhead := hgrow.resolve_left fun heq => hlen (by rw [heq])
      have hnone := (h.arena.linked cls _ hhead).eq_nil
      refine ⟨cls, hcls, hhead, ?_⟩
      rintro ⟨s, c⟩ hr rfl
      have hmem := mem_startsOf_iff.mpr hr
      rw [hnone] at hmem
      cases hmem
  answered call ha := by
    rcases h.step ha with ⟨t', ht, -⟩ | hfull
    · exact .inl (Option.isSome_iff_exists.mpr ⟨t', ht⟩)
    · exact .inr hfull.2

private theorem of_step_alloc (h : t.step (.alloc len) = some t') : ∃ start data,
    t.arena.alloc len = .ok (start, t'.arena) ∧ t'.find start len = some ⟨start, len, data⟩ := by
  cases ha : t.arena.alloc len with
  | error e => simp [step, ha] at h
  | ok r =>
    simp only [step, ha] at h
    obtain ⟨data, -, rfl⟩ := Option.map_eq_some_iff.mp h
    exact ⟨r.1, data, rfl, by simp [find]⟩

/-- Carving a run for an op's buffers is a call for it and a write to it. -/
theorem allocBufRun_run (h : t.Wf) {arena : BufArena}
    (hb : t.arena.allocBufRun bufs = .ok (some (start, len), arena)) :
    ∃ t', Reaches Tenancy.step Allows t t' ∧ t'.arena = arena := by
  unfold BufArena.allocBufRun at hb
  split_ifs at hb with hnil
  · cases hb
  cases ha : t.arena.alloc bufs.length with
  | error e => simp [ha] at hb
  | ok r =>
    obtain ⟨base, carved⟩ := r
    cases hw : carved.write base bufs with
    | none => simp [ha, hw] at hb
    | some filled =>
      simp only [ha, hw, Except.ok.injEq, Prod.mk.injEq, Option.some.injEq] at hb
      obtain ⟨⟨rfl, rfl⟩, rfl⟩ := hb
      have hlen : t.Allows (.alloc bufs.length) := by
        have hpos := List.length_pos_iff.mpr hnil
        refine ⟨hpos, ?_⟩
        by_contra hlong
        rw [BufArena.alloc, if_pos (.inr (by omega))] at ha
        cases ha
      rcases h.alloc hlen with ⟨t₁, ht₁, hwf⟩ | ⟨hfail, -⟩
      · obtain ⟨start, data, ha', hfind⟩ := of_step_alloc ht₁
        rw [ha] at ha'
        obtain ⟨rfl, rfl⟩ := Prod.mk.inj (Except.ok.inj ha')
        have hserved := (classFor_eq_some (hwf.served _ (find_eq hfind).1)).2
        have hfits : t₁.Allows (.write base bufs.length 0 bufs) := by
          refine (Option.any_eq_true _ _).mpr ⟨_, hfind, ?_⟩
          rw [Nat.zero_add]
          exact decide_eq_true hserved
        obtain ⟨t₂, ht₂, -⟩ := hwf.write hfits
        have harena : t₂.arena = filled := by
          simp only [step, hfind, Nat.add_zero, hw, Option.some.injEq] at ht₂
          rw [← ht₂]
        exact ⟨t₂, (Reaches.start.next hlen ht₁).next hfits ht₂, harena⟩
      · rw [ha] at hfail
        cases hfail

end Tenancy

/-- Between any two calls of any permitted sequence everything is in order. -/
theorem buf_arena_sound {t : Tenancy} (h : Reaches Tenancy.step Tenancy.Allows .new t) : t.Sound := by
  apply Tenancy.sound_of_wf
  refine h.invariant Tenancy.Wf.new ?_
  intro t call t' hwf ha hstep
  rcases hwf.step ha with ⟨_, ht, hwf'⟩ | hfull
  · rw [hstep] at ht
    exact Option.some.inj ht ▸ hwf'
  · rw [hfull.1] at hstep
    cases hstep

/-- A run of three is given back and handed out again for four. -/
theorem buf_arena_sound_reuse : ∃ t : Tenancy, t.runs = [⟨0, 2⟩, ⟨4, 0⟩] ∧ t.Sound := by
  obtain ⟨_, t, hnew, hreach, hruns⟩ := exists_of_executes Tenancy.step Tenancy.Allows (some .new)
    [.alloc 3, .write 0 3 1 [⟨7, 8⟩], .alloc 1, .release 0 3, .alloc 4]
    (fun _ t => decide (t.runs = [⟨0, 2⟩, ⟨4, 0⟩])) (by decide)
  obtain rfl := Option.some.inj hnew
  exact ⟨t, of_decide_eq_true hruns, buf_arena_sound hreach⟩

end Conrt.Coio
