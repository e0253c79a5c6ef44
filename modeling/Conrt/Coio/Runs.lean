import Conrt.Coio.Arena

/-! Which runs an arena holds: handed out or on a free list, apart from each other. -/
namespace Conrt.Coio

structure Run where
  start : ℕ
  cls : ℕ
deriving DecidableEq, Repr

namespace Run

def stop (r : Run) : ℕ := r.start + classSize r.cls

def Apart (r s : Run) : Prop := r.stop ≤ s.start ∨ s.stop ≤ r.start

theorem Apart.symm {r s : Run} (h : r.Apart s) : s.Apart r := Or.symm h

end Run

/-- The free list of one class starts at `head` and passes through `starts`. -/
def Linked (blocks : List IoBufErased) : ℕ → List ℕ → Prop
  | head, [] => head = bufNone
  | head, start :: rest => head = start ∧ start ≠ bufNone ∧
      ∃ block, blocks[start]? = some block ∧ Linked blocks (toU32 block.a) rest

/-- The starts of the runs of one class, in order. -/
def startsOf (cls : ℕ) (runs : List Run) : List ℕ :=
  (runs.filter fun r => r.cls = cls).map (·.start)

/-- `held` are the runs handed out and `idle` those on the free lists: together they lie apart
inside the blocks, and each free list passes through exactly the idle runs of its class. -/
structure BufArena.Wf (arena : BufArena) (held idle : List Run) : Prop where
  classes : arena.free.length = bufClasses.length
  small : arena.blocks.length < bufNone
  inside : ∀ r ∈ held ++ idle, r.cls < bufClasses.length ∧ r.stop ≤ arena.blocks.length
  apart : (held ++ idle).Pairwise Run.Apart
  linked : ∀ cls head, arena.free[cls]? = some head →
    Linked arena.blocks head (startsOf cls idle)

theorem classFor_eq_some {len cls : ℕ} (h : classFor len = some cls) :
    cls < bufClasses.length ∧ len ≤ classSize cls := by
  obtain ⟨hlt, hle, -⟩ := List.findIdx?_eq_some_iff_getElem.mp h
  refine ⟨hlt, ?_⟩
  rw [classSize, List.getD_eq_getElem?_getD, List.getElem?_eq_getElem hlt, Option.getD_some]
  exact of_decide_eq_true hle

private theorem classFor_isSome {len : ℕ} (h : len ≤ 1024) : ∃ cls, classFor len = some cls := by
  cases hc : classFor len with
  | some cls => exact ⟨cls, rfl⟩
  | none =>
    have hall := List.findIdx?_eq_none_iff.mp hc 1024 (by decide)
    simp [h] at hall

theorem classSize_pos {cls : ℕ} (h : cls < bufClasses.length) : 0 < classSize cls := by
  have hb : cls < 8 := h
  interval_cases cls <;> decide

theorem Linked.congr {blocks blocks' : List IoBufErased} {head : ℕ} {starts : List ℕ}
    (h : Linked blocks head starts) (hb : ∀ s ∈ starts, blocks'[s]? = blocks[s]?) :
    Linked blocks' head starts := by
  induction starts generalizing head with
  | nil => exact h
  | cons start rest ih =>
    obtain ⟨rfl, hne, block, hget, hrest⟩ := h
    refine ⟨rfl, hne, block, ?_, ih hrest fun s hs => hb s (List.mem_cons_of_mem _ hs)⟩
    rw [hb _ List.mem_cons_self, hget]

theorem startsOf_cons (cls : ℕ) (r : Run) (runs : List Run) :
    startsOf cls (r :: runs) = if r.cls = cls then r.start :: startsOf cls runs
      else startsOf cls runs := by
  unfold startsOf
  by_cases h : r.cls = cls <;> simp [h]

theorem mem_startsOf_iff {cls s : ℕ} {runs : List Run} : s ∈ startsOf cls runs ↔ ⟨s, cls⟩ ∈ runs := by
  constructor
  · intro h
    obtain ⟨r, hr, rfl⟩ := List.mem_map.mp h
    obtain ⟨hr, hc⟩ := List.mem_filter.mp hr
    have hcls : r.cls = cls := of_decide_eq_true hc
    rwa [← hcls]
  · intro h
    exact List.mem_map.mpr ⟨⟨s, cls⟩, List.mem_filter.mpr ⟨h, decide_eq_true rfl⟩, rfl⟩

theorem mem_startsOf {cls s : ℕ} {runs : List Run} (h : s ∈ startsOf cls runs) :
    ⟨s, cls⟩ ∈ runs := mem_startsOf_iff.mp h

/-- Runs apart from each other start at different blocks. -/
theorem startsOf_nodup {cls : ℕ} {runs : List Run} (h : runs.Pairwise Run.Apart)
    (hpos : ∀ r ∈ runs, 0 < classSize r.cls) : (startsOf cls runs).Nodup := by
  induction runs with
  | nil => exact List.nodup_nil
  | cons r runs ih =>
    obtain ⟨hr, hrest⟩ := List.pairwise_cons.mp h
    have hnd := ih hrest fun s hs => hpos s (List.mem_cons_of_mem r hs)
    rw [startsOf_cons]
    split_ifs
    · refine List.nodup_cons.mpr ⟨?_, hnd⟩
      intro hm
      have hap := hr _ (mem_startsOf hm)
      have hp := hpos r List.mem_cons_self
      have hp' := hpos _ (List.mem_cons_of_mem r (mem_startsOf hm))
      unfold Run.Apart Run.stop at hap
      simp only at hap hp'
      omega
    · exact hnd

/-- A list that starts at the sentinel is empty. -/
theorem Linked.eq_nil {blocks : List IoBufErased} {starts : List ℕ}
    (h : Linked blocks bufNone starts) : starts = [] := by
  cases starts with
  | nil => rfl
  | cons s rest => exact absurd h.1.symm h.2.1

/-- Taking the first run of a class off the list takes its first start. -/
theorem startsOf_erase {cls s : ℕ} {rest : List ℕ} {runs : List Run}
    (h : startsOf cls runs = s :: rest) (c : ℕ) :
    startsOf c (runs.erase ⟨s, cls⟩) = if c = cls then rest else startsOf c runs := by
  induction runs with
  | nil => simp [startsOf] at h
  | cons r runs ih =>
    rw [startsOf_cons] at h
    by_cases hr : r = ⟨s, cls⟩
    · subst hr
      rw [if_pos rfl] at h
      have hrest : startsOf cls runs = rest := (List.cons.inj h).2
      rw [List.erase_cons_head, startsOf_cons]
      by_cases hc : c = cls
      · rw [if_pos hc, hc, hrest]
      · rw [if_neg hc, if_neg (Ne.symm hc)]
    · have hcls : r.cls ≠ cls := by
        intro hcls
        rw [if_pos hcls] at h
        exact hr (by rw [← hcls, ← (List.cons.inj h).1])
      rw [if_neg hcls] at h
      rw [List.erase_cons_tail (by simpa using hr), startsOf_cons, startsOf_cons, ih h]
      by_cases hc : c = cls
      · simp [hc, hcls]
      · simp [hc]

namespace BufArena.Wf

variable {arena arena' : BufArena} {held idle : List Run} {r : Run} {start len cls : ℕ}

theorem new : BufArena.new.Wf [] [] := by
  refine ⟨rfl, by decide, by simp, by simp, fun cls head h => ?_⟩
  have hrep : (List.replicate bufClasses.length bufNone)[cls]? = some head := h
  rw [List.getElem?_replicate] at hrep
  split_ifs at hrep
  exact (Option.some.inj hrep).symm

theorem mono_perm (h : arena.Wf held idle) {held' : List Run} (hp : held.Perm held') :
    arena.Wf held' idle := by
  have hall : (held ++ idle).Perm (held' ++ idle) := hp.append_right idle
  exact ⟨h.classes, h.small, fun r hr => h.inside r (hall.mem_iff.mpr hr),
    hall.pairwise h.apart Run.Apart.symm, h.linked⟩

/-- A start is a proper index, so it is never the sentinel. -/
theorem start_lt (h : arena.Wf held idle) (hr : r ∈ held ++ idle) :
    r.start < arena.blocks.length := by
  obtain ⟨hc, hs⟩ := h.inside r hr
  have hpos := classSize_pos hc
  have hstop : r.stop = r.start + classSize r.cls := rfl
  omega

private theorem head_lt (h : arena.Wf held idle) {head : ℕ} (hh : arena.free[cls]? = some head) :
    head < 2 ^ 32 := by
  have hl := h.linked cls head hh
  have hsmall := h.small
  cases hs : startsOf cls idle with
  | nil =>
    rw [hs] at hl
    have hn : head = bufNone := hl
    rw [hn, bufNone]
    norm_num
  | cons s rest =>
    rw [hs] at hl
    have hmem : (⟨s, cls⟩ : Run) ∈ idle := mem_startsOf (hs ▸ List.mem_cons_self)
    have hlt := h.start_lt (List.mem_append_right held hmem)
    have hhead : head = s := hl.1
    have hn : bufNone = 2 ^ 32 - 1 := rfl
    change s < _ at hlt
    omega

/-- The class's next idle run is handed out. -/
theorem reuse (h : arena.Wf held idle) {head : ℕ} (hh : arena.free[cls]? = some head)
    (hne : head ≠ bufNone) :
    ∃ next, nextLink arena.blocks head = some next ∧
      Wf { arena with free := arena.free.set cls next } (⟨head, cls⟩ :: held)
        (idle.erase ⟨head, cls⟩) := by
  have hl := h.linked cls head hh
  cases hs : startsOf cls idle with
  | nil =>
    rw [hs] at hl
    exact absurd hl hne
  | cons s rest =>
    rw [hs] at hl
    obtain ⟨rfl, -, block, hget, hrest⟩ := hl
    have hmem : (⟨head, cls⟩ : Run) ∈ idle := mem_startsOf (hs ▸ List.mem_cons_self)
    have hperm : (held ++ idle).Perm (⟨head, cls⟩ :: held ++ idle.erase ⟨head, cls⟩) :=
      ((List.perm_cons_erase hmem).append_left held).trans List.perm_middle
    refine ⟨toU32 block.a, by rw [nextLink, hget, Option.map_some], ?_, h.small, ?_, ?_, ?_⟩
    · rw [List.length_set]
      exact h.classes
    · exact fun r hr => h.inside r (hperm.mem_iff.mpr hr)
    · exact hperm.pairwise h.apart Run.Apart.symm
    · intro c hd hc
      rw [startsOf_erase hs, List.getElem?_set] at *
      by_cases hcc : c = cls
      · rw [if_pos hcc]
        have hlt : cls < arena.free.length := (List.getElem?_eq_some_iff.mp hh).1
        rw [if_pos hcc.symm, if_pos hlt] at hc
        exact Option.some.inj hc ▸ hrest
      · rw [if_neg hcc]
        rw [if_neg (Ne.symm hcc)] at hc
        exact h.linked c hd hc

/-- A new run is carved past every block there is. -/
theorem grow (h : arena.Wf held idle) (hc : cls < bufClasses.length)
    (hs : arena.blocks.length + classSize cls < bufNone) :
    Wf { arena with blocks := arena.blocks ++ List.replicate (classSize cls) .NONE }
      (⟨arena.blocks.length, cls⟩ :: held) idle := by
  have hold : ∀ r ∈ held ++ idle, r.stop ≤ arena.blocks.length := fun r hr => (h.inside r hr).2
  refine ⟨h.classes, ?_, ?_, ?_, ?_⟩
  · rw [List.length_append, List.length_replicate]
    exact hs
  · intro r hr
    rw [List.length_append, List.length_replicate]
    rcases List.mem_cons.mp hr with rfl | hr
    · exact ⟨hc, le_rfl⟩
    · exact ⟨(h.inside r hr).1, Nat.le_add_right_of_le (hold r hr)⟩
  · exact List.pairwise_cons.mpr ⟨fun r hr => .inr (hold r hr), h.apart⟩
  · intro c hd hget
    refine (h.linked c hd hget).congr fun s hs => ?_
    have hlt := h.start_lt (List.mem_append_right held (mem_startsOf hs))
    exact List.getElem?_append_left hlt

/-- Handing out a run fails only on an assertion, keeps every block and never reuses a held run. A
length in range fails only where the arena is exhausted, and the arena grows only where no run of
the class is free. -/
theorem alloc (h : arena.Wf held idle) (len : ℕ) :
    (arena.alloc len = .error .assertion ∧ (0 < len → len ≤ 1024 → ∃ cls,
      classFor len = some cls ∧ arena.free[cls]? = some bufNone ∧
      bufNone ≤ arena.blocks.length + classSize cls)) ∨
    ∃ start arena' cls, arena.alloc len = .ok (start, arena') ∧ classFor len = some cls ∧
      arena'.Wf (⟨start, cls⟩ :: held) (idle.erase ⟨start, cls⟩) ∧
      (∀ i < arena.blocks.length, arena'.blocks[i]? = arena.blocks[i]?) ∧
      (arena'.blocks = arena.blocks ∨ arena.free[cls]? = some bufNone) := by
  unfold BufArena.alloc
  by_cases hlen : len = 0 ∨ 1024 < len
  · exact .inl ⟨if_pos hlen, fun h1 h2 => by omega⟩
  rw [if_neg hlen]
  obtain ⟨cls, hcls⟩ := classFor_isSome (not_lt.mp fun h => hlen (.inr h))
  have hc := (classFor_eq_some hcls).1
  have hfree : cls < arena.free.length := by
    rw [h.classes]
    exact hc
  have hhead : arena.free[cls]? = some arena.free[cls] := List.getElem?_eq_getElem hfree
  simp only [hcls, hhead]
  by_cases hne : arena.free[cls] = bufNone
  · rw [if_neg (not_not.mpr hne)]
    split_ifs with hs
    · have hnew : (⟨arena.blocks.length, cls⟩ : Run) ∉ idle := fun hm =>
        absurd (h.start_lt (List.mem_append_right held hm)) (lt_irrefl _)
      refine .inr ⟨_, _, cls, rfl, rfl, ?_, fun i hi => List.getElem?_append_left hi, .inr ?_⟩
      · rw [List.erase_of_not_mem hnew]
        exact h.grow hc hs
      · rw [hhead, hne]
    · refine .inl ⟨rfl, fun _ _ => ⟨cls, rfl, ?_, Nat.le_of_not_lt hs⟩⟩
      rw [hhead, hne]
  · rw [if_pos hne]
    obtain ⟨next, hnext, hwf⟩ := h.reuse hhead hne
    simp only [hnext]
    exact .inr ⟨_, _, cls, rfl, rfl, hwf, fun i _ => rfl, .inl rfl⟩

/-- Giving a held run back touches its first block only. -/
theorem release (h : arena.Wf (⟨start, cls⟩ :: held) idle) (hcls : classFor len = some cls) :
    ∃ arena', arena.release start len = .ok arena' ∧ arena'.Wf held (⟨start, cls⟩ :: idle) ∧
      arena'.blocks.length = arena.blocks.length ∧
      ∀ i ≠ start, arena'.blocks[i]? = arena.blocks[i]? := by
  have hc := (classFor_eq_some hcls).1
  have hfree : cls < arena.free.length := by
    rw [h.classes]
    exact hc
  have hstart : start < arena.blocks.length := h.start_lt (r := ⟨start, cls⟩) (by simp)
  have hhead : arena.free[cls]? = some arena.free[cls] := List.getElem?_eq_getElem hfree
  have hlt := h.head_lt hhead
  have hperm : (⟨start, cls⟩ :: held ++ idle).Perm (held ++ ⟨start, cls⟩ :: idle) :=
    List.perm_middle.symm
  have hset : ∀ i, i ≠ start → ∀ block : IoBufErased,
      (arena.blocks.set start block)[i]? = arena.blocks[i]? := fun i hi block =>
    List.getElem?_set_ne (Ne.symm hi)
  -- idle runs start elsewhere, so the write breaks no link
  have hidle : ∀ r ∈ idle, r.start ≠ start := by
    intro r hr heq
    have hap := (List.pairwise_cons.mp h.apart).1 r (List.mem_append_right held hr)
    have hp := classSize_pos hc
    have hp' := classSize_pos (h.inside r (List.mem_append_right _ hr)).1
    change start + classSize cls ≤ r.start ∨ r.start + classSize r.cls ≤ start at hap
    omega
  unfold BufArena.release
  simp only [hcls, hhead, List.getElem?_eq_getElem hstart]
  refine ⟨_, rfl, ⟨?_, ?_, ?_, ?_, ?_⟩, List.length_set, fun i hi => hset i hi _⟩
  · rw [List.length_set]
    exact h.classes
  · rw [List.length_set]
    exact h.small
  · intro r hr
    rw [List.length_set]
    exact h.inside r (hperm.mem_iff.mpr hr)
  · exact hperm.pairwise h.apart Run.Apart.symm
  · intro c hd hget
    rw [List.getElem?_set] at hget
    rw [startsOf_cons]
    have hkeep : ∀ {hd'}, arena.free[c]? = some hd' →
        ∀ block : IoBufErased, Linked (arena.blocks.set start block) hd' (startsOf c idle) :=
      fun hg block => (h.linked c _ hg).congr fun s hs =>
        hset s (hidle _ (mem_startsOf hs)) block
    by_cases hcc : c = cls
    · subst hcc
      rw [if_pos rfl, if_pos hfree] at hget
      rw [if_pos rfl, ← Option.some.inj hget]
      have hn : start ≠ bufNone := (hstart.trans h.small).ne
      refine ⟨rfl, hn, _, List.getElem?_set_self hstart, ?_⟩
      have hu : toU32 arena.free[c] = arena.free[c] := Nat.mod_eq_of_lt hlt
      simpa only [hu] using hkeep hhead _
    · rw [if_neg (Ne.symm hcc)] at hget
      rw [if_neg (Ne.symm hcc)]
      exact hkeep hget _

/-- Filling blocks of a held run leaves all others, and every link, alone. -/
theorem write (h : arena.Wf (⟨start, cls⟩ :: held) idle) {bufs : List IoBufErased} {off : ℕ}
    (hlen : off + bufs.length ≤ classSize cls) :
    ∃ arena', arena.write (start + off) bufs = some arena' ∧
      arena'.Wf (⟨start, cls⟩ :: held) idle ∧
      arena'.blocks = arena.blocks.take (start + off) ++ bufs ++
        arena.blocks.drop (start + off + bufs.length) ∧
      arena'.blocks.length = arena.blocks.length ∧
      ∀ i, (i < start + off ∨ start + off + bufs.length ≤ i) →
        arena'.blocks[i]? = arena.blocks[i]? := by
  have hstop : start + classSize cls ≤ arena.blocks.length :=
    (h.inside ⟨start, cls⟩ (by simp)).2
  have hroom : start + off + bufs.length ≤ arena.blocks.length := by omega
  have htake : (arena.blocks.take (start + off)).length = start + off :=
    List.length_take_of_le (by omega)
  unfold BufArena.write
  rw [if_pos hroom]
  refine ⟨_, rfl, ?_⟩
  have hlength : (arena.blocks.take (start + off) ++ bufs ++
      arena.blocks.drop (start + off + bufs.length)).length = arena.blocks.length := by
    rw [List.length_append, List.length_append, htake, List.length_drop]
    omega
  have hout : ∀ i, (i < start + off ∨ start + off + bufs.length ≤ i) →
      (arena.blocks.take (start + off) ++ bufs ++
        arena.blocks.drop (start + off + bufs.length))[i]? = arena.blocks[i]? := by
    intro i hi
    rcases hi with hi | hi
    · rw [List.append_assoc, List.getElem?_append_left (by omega), List.getElem?_take_of_lt hi]
    · rw [List.getElem?_append_right (by rw [List.length_append, htake]; omega),
        List.length_append, htake, List.getElem?_drop]
      congr 1
      omega
  refine ⟨⟨h.classes, ?_, ?_, h.apart, ?_⟩, rfl, hlength, hout⟩
  · rw [hlength]
    exact h.small
  · intro r hr
    rw [hlength]
    exact h.inside r hr
  · intro c hd hget
    refine (h.linked c hd hget).congr fun s hs => hout s ?_
    have hmem := mem_startsOf hs
    have hap := (List.pairwise_cons.mp h.apart).1 _ (List.mem_append_right held hmem)
    have hp := classSize_pos (h.inside _ (List.mem_append_right _ hmem)).1
    change start + classSize cls ≤ s ∨ s + classSize c ≤ start at hap
    change 0 < classSize c at hp
    omega

end BufArena.Wf

theorem length_le_of_keep {blocks blocks' : List IoBufErased}
    (h : ∀ i < blocks.length, blocks'[i]? = blocks[i]?) : blocks.length ≤ blocks'.length := by
  by_contra hlt
  have hlast := h (blocks.length - 1) (by omega)
  rw [List.getElem?_eq_none (by omega), List.getElem?_eq_getElem (by omega)] at hlast
  cases hlast

/-- A slice is the part between the blocks before and after it. -/
theorem BufArena.slice_eq_some {arena : BufArena} {start len : ℕ} {bufs : List IoBufErased} :
    arena.slice start len = some bufs ↔ ∃ before after,
      arena.blocks = before ++ bufs ++ after ∧ before.length = start ∧ bufs.length = len := by
  unfold BufArena.slice
  constructor
  · intro h
    split_ifs at h with hle
    have hbufs := Option.some.inj h
    refine ⟨arena.blocks.take start, arena.blocks.drop (start + len), ?_, ?_, ?_⟩
    · rw [← hbufs, List.append_assoc, ← List.drop_drop, List.take_append_drop,
        List.take_append_drop]
    · rw [List.length_take]
      omega
    · rw [← hbufs, List.length_take, List.length_drop]
      omega
  · intro ⟨before, after, hblocks, hstart, hlen⟩
    have hle : start + len ≤ arena.blocks.length := by
      rw [hblocks, List.length_append, List.length_append]
      omega
    rw [if_pos hle, hblocks, List.append_assoc, ← hstart, List.drop_left, ← hlen, List.take_left]

/-- A slice depends on its own blocks only. -/
theorem BufArena.slice_congr {arena arena' : BufArena} {start len : ℕ} {bufs : List IoBufErased}
    (h : arena.slice start len = some bufs) (hl : arena.blocks.length ≤ arena'.blocks.length)
    (hb : ∀ i, start ≤ i → i < start + len → arena'.blocks[i]? = arena.blocks[i]?) :
    arena'.slice start len = some bufs := by
  unfold BufArena.slice at h ⊢
  split_ifs at h with hle
  rw [if_pos (hle.trans hl), ← Option.some.inj h]
  congr 1
  apply List.ext_getElem?
  intro i
  by_cases hi : i < len
  · rw [List.getElem?_take_of_lt hi, List.getElem?_take_of_lt hi, List.getElem?_drop,
      List.getElem?_drop, hb _ (by omega) (by omega)]
  · have hn : ∀ l : List IoBufErased, (l.take len)[i]? = none := fun l =>
      List.getElem?_eq_none (by rw [List.length_take]; omega)
    rw [hn, hn]

/-- A run carved for `bufs` holds them; no other held run changes, and only an assertion fails. -/
theorem BufArena.Wf.allocBufRun {arena : BufArena} {held idle : List Run}
    (h : arena.Wf held idle) (bufs : List IoBufErased) :
    arena.allocBufRun bufs = .error .assertion ∨
    (bufs = [] ∧ arena.allocBufRun bufs = .ok (none, arena)) ∨
    ∃ start arena' cls idle', arena.allocBufRun bufs = .ok (some (start, bufs.length), arena') ∧
      classFor bufs.length = some cls ∧ arena'.Wf (⟨start, cls⟩ :: held) idle' ∧
      arena'.slice start bufs.length = some bufs ∧
      ∀ r ∈ held, ∀ len bs, len ≤ classSize r.cls → arena.slice r.start len = some bs →
        arena'.slice r.start len = some bs := by
  unfold BufArena.allocBufRun
  by_cases hb : bufs = []
  · exact .inr (.inl ⟨hb, if_pos hb⟩)
  rw [if_neg hb]
  rcases h.alloc bufs.length with ⟨he, -⟩ | ⟨start, arena₁, cls, ha, hcls, hwf₁, hkeep, -⟩
  · rw [he]
    exact .inl rfl
  have hfits : 0 + bufs.length ≤ classSize cls := by
    rw [Nat.zero_add]
    exact (classFor_eq_some hcls).2
  obtain ⟨arena₂, hw, hwf₂, hblocks, hlen, hout⟩ := hwf₁.write hfits
  rw [Nat.add_zero] at hw hblocks hout
  refine .inr (.inr ⟨start, arena₂, cls, _, ?_, hcls, hwf₂, ?_, ?_⟩)
  · rw [ha]
    simp only [hw]
  · have hin : start + classSize cls ≤ arena₁.blocks.length :=
      (hwf₁.inside ⟨start, cls⟩ (by simp)).2
    exact BufArena.slice_eq_some.mpr ⟨_, _, hblocks, List.length_take_of_le (by omega), rfl⟩
  · intro r hr len bs hle hbs
    have hin := (h.inside r (List.mem_append_left _ hr)).2
    have hap := (List.pairwise_cons.mp hwf₁.apart).1 r (List.mem_append_left _ hr)
    have hgrow : arena.blocks.length ≤ arena₂.blocks.length := by
      rw [hlen]
      exact length_le_of_keep hkeep
    change start + classSize cls ≤ r.start ∨ r.start + classSize r.cls ≤ start at hap
    change r.start + classSize r.cls ≤ arena.blocks.length at hin
    refine BufArena.slice_congr hbs hgrow fun i h1 h2 => ?_
    rw [hout i (by omega), hkeep i (by omega)]

/-- Giving a run back changes no other held run. -/
theorem BufArena.Wf.release_slice {arena : BufArena} {held idle : List Run} {start len cls : ℕ}
    (h : arena.Wf (⟨start, cls⟩ :: held) idle) (hcls : classFor len = some cls) :
    ∃ arena', arena.release start len = .ok arena' ∧ arena'.Wf held (⟨start, cls⟩ :: idle) ∧
      ∀ r ∈ held, ∀ n bs, n ≤ classSize r.cls → arena.slice r.start n = some bs →
        arena'.slice r.start n = some bs := by
  obtain ⟨arena', hr, hwf, hlen, hkeep⟩ := h.release hcls
  refine ⟨arena', hr, hwf, fun r hr n bs hle hbs => ?_⟩
  have hap := (List.pairwise_cons.mp h.apart).1 r (List.mem_append_left _ hr)
  have hp := classSize_pos (h.inside ⟨start, cls⟩ (by simp)).1
  change start + classSize cls ≤ r.start ∨ r.start + classSize r.cls ≤ start at hap
  change 0 < classSize cls at hp
  exact BufArena.slice_congr hbs hlen.ge fun i h1 h2 => hkeep i (by omega)

end Conrt.Coio
