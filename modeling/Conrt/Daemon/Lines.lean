import Conrt.Daemon.Pool

/-! The buffers a follow pipe's line is written from, filled over whatever their slots held. -/
namespace Conrt.Daemon

/-- A slot of the class that serves `size`, holding what its last user left there. -/
def slotFor (left : ℕ → UInt8) (size : ℕ) : Option Bytes :=
  ((classOf size).bind (defaultSizeClasses[·]?)).map fun c => (List.range c.size).map left

/-- The first `len` bytes of the slot; `none` past its capacity. -/
def setLen (slot : Bytes) (len : ℕ) : Option Bytes :=
  if len ≤ slot.length then some (slot.take len) else none

/-- One buffer. Its length is set before its bytes are copied, and only the last buffer's last byte
is written. -/
def fillChunk (left : ℕ → UInt8) (rest : Bytes) : Option Bytes := do
  let take := min rest.length writeChunkPayload
  let slot ← slotFor left (take + 1)
  let buf ← setLen slot (take + 1)
  let buf := rest.take take ++ buf.drop take
  pure (if take = rest.length then buf.set take newline else buf)

/-- The loop over the slots from the `i`-th on. -/
def splitSlots (left : ℕ → ℕ → UInt8) : ℕ → ℕ → Bytes → Option (List Bytes)
  | 0, _, _ => some []
  | fuel + 1, i, rest => do
    let take := min rest.length writeChunkPayload
    let chunk ← fillChunk (left i) rest
    if take = rest.length then pure [chunk]
    else
      let chunks ← splitSlots left fuel (i + 1) (rest.drop take)
      pure (chunk :: chunks)

/-- `split_line`, where the `i`-th slot drawn holds `left i`. -/
def splitLineOver (left : ℕ → ℕ → UInt8) (line : Bytes) : Option (List Bytes) :=
  splitSlots left (line.length + 1) 0 line

variable {left : ℕ → ℕ → UInt8} {fuel i : ℕ} {rest line : Bytes}

private theorem slotFor_eq (prev : ℕ → UInt8) {size : ℕ} (h : size ≤ 65536) :
    ∃ n, size ≤ n ∧ slotFor prev size = some ((List.range n).map prev) := by
  have hfits : (classOf size).isSome := by
    simp only [classOf, Buf.classFor, List.findIdx?_isSome, List.any_eq_true, decide_eq_true_eq]
    exact ⟨⟨65536, 1⟩, by decide, h⟩
  obtain ⟨k, hk⟩ := Option.isSome_iff_exists.mp hfits
  obtain ⟨hlt, hsize, -⟩ := List.findIdx?_eq_some_iff_getElem.mp hk
  refine ⟨defaultSizeClasses[k].size, of_decide_eq_true hsize, ?_⟩
  simp [slotFor, hk, List.getElem?_eq_getElem hlt]

private theorem fillChunk_eq (prev : ℕ → UInt8) (rest : Bytes) :
    fillChunk prev rest = some
      (if rest.length ≤ writeChunkPayload then rest ++ [newline]
       else rest.take writeChunkPayload ++ [prev writeChunkPayload]) := by
  have htake : min rest.length writeChunkPayload + 1 ≤ 65536 := by
    simp only [writeChunkPayload]
    omega
  obtain ⟨n, hn, hslot⟩ := slotFor_eq prev htake
  have hlast : (((List.range n).map prev).take (min rest.length writeChunkPayload + 1)).drop
      (min rest.length writeChunkPayload) = [prev (min rest.length writeChunkPayload)] := by
    apply List.ext_getElem
    · simp
      omega
    · intro j hj _
      simp only [List.length_drop, List.length_take, List.length_map, List.length_range] at hj
      have : j = 0 := by omega
      subst this
      simp
  simp only [fillChunk, hslot, setLen, List.length_map, List.length_range, hn, if_true,
    Option.bind_eq_bind, Option.bind_some, Option.pure_def, hlast]
  by_cases h : rest.length ≤ writeChunkPayload
  · have hmin : min rest.length writeChunkPayload = rest.length := min_eq_left h
    rw [hmin, if_pos rfl, if_pos h, List.take_length, List.set_append_right _ _ le_rfl]
    simp
  · have hmin : min rest.length writeChunkPayload = writeChunkPayload := by omega
    rw [hmin, if_neg (by omega), if_neg h]

/-- The one byte of each slot that a buffer before the last one still carries. -/
def leftovers (left : ℕ → ℕ → UInt8) (i : ℕ) : ℕ → Bytes
  | 0 => []
  | fuel + 1 => left i writeChunkPayload :: leftovers left (i + 1) fuel

private theorem splitSlots_eq : splitSlots left fuel i rest =
    some (splitFrom (leftovers left i fuel) fuel rest) := by
  induction fuel generalizing i rest with
  | zero => rfl
  | succ fuel ih =>
    simp only [splitSlots, splitFrom, fillChunk_eq, leftovers, Option.bind_eq_bind,
      Option.bind_some, Option.pure_def, ih, List.headD_cons, List.tail_cons]
    by_cases h : rest.length ≤ writeChunkPayload
    · rw [min_eq_left h, if_pos rfl, if_pos rfl, if_pos h]
    · have hmin : min rest.length writeChunkPayload = writeChunkPayload := by omega
      rw [hmin, if_neg (by omega), if_neg h, if_neg (by omega)]

theorem splitLineOver_eq :
    splitLineOver left line = some (splitLine (leftovers left 0 (line.length + 1)) line) :=
  splitSlots_eq

/-- Every buffer holds one byte besides its payload, the newline's place. -/
theorem length_splitFrom {stale : Bytes} (h : rest.length < fuel) :
    (splitFrom stale fuel rest).flatten.length = rest.length + (splitFrom stale fuel rest).length := by
  induction fuel generalizing stale rest with
  | zero => omega
  | succ fuel ih =>
    simp only [splitFrom]
    split
    next => simp
    next hmore =>
      have hpay : min rest.length writeChunkPayload = writeChunkPayload := by omega
      have hdrop : (rest.drop writeChunkPayload).length < fuel := by
        simp only [List.length_drop, writeChunkPayload] at hmore ⊢
        omega
      rw [hpay, List.flatten_cons, List.length_append, ih hdrop, List.length_append,
        List.length_take, List.length_drop, List.length_singleton, List.length_cons]
      omega

private theorem splitFrom_bounds {stale chunk : Bytes} (h : chunk ∈ splitFrom stale fuel rest) :
    chunk ≠ [] ∧ chunk.length ≤ 65536 := by
  induction fuel generalizing stale rest with
  | zero => simp [splitFrom] at h
  | succ fuel ih =>
    simp only [splitFrom] at h
    split at h
    next hlast =>
      rw [List.mem_singleton] at h
      subst h
      simp only [writeChunkPayload] at hlast
      constructor
      · simp
      · rw [List.length_append, List.length_singleton]
        omega
    next =>
      rcases List.mem_cons.mp h with rfl | h
      · constructor
        · simp
        · rw [List.length_append, List.length_take, List.length_singleton]
          simp only [writeChunkPayload]
          omega
      · exact ih h

private theorem splitFrom_long {stale : Bytes} (h : writeChunkPayload < rest.length) :
    splitFrom stale (fuel + 1) rest = (rest.take writeChunkPayload ++ [stale.headD 0]) ::
      splitFrom stale.tail fuel (rest.drop writeChunkPayload) := by
  have hmin : min rest.length writeChunkPayload = writeChunkPayload := by omega
  rw [splitFrom, hmin, if_neg (by omega)]

private theorem splitFrom_ne_nil {stale : Bytes} : splitFrom stale (fuel + 1) rest ≠ [] := by
  rw [splitFrom]
  split <;> simp

/-- The buffers of a line with a non-final one are longer together than the line and its newline. -/
theorem line_lt_splitFrom (h : writeChunkPayload < line.length) (stale : Bytes) :
    line.length + 1 < (splitFrom stale (line.length + 1) line).flatten.length := by
  have hmore : splitFrom stale.tail line.length (line.drop writeChunkPayload) ≠ [] := by
    obtain ⟨n, hn⟩ : ∃ n, line.length = n + 1 := ⟨line.length - 1, by omega⟩
    rw [hn]
    exact splitFrom_ne_nil
  have htwo := List.length_pos_iff.mpr hmore
  rw [length_splitFrom (Nat.lt_succ_self _), splitFrom_long h, List.length_cons]
  omega

theorem splitLineOver_long {chunks : List Bytes} (h : writeChunkPayload < line.length)
    (hs : splitLineOver left line = some chunks) :
    chunks.flatten ≠ line ++ [newline] := by
  intro hflat
  rw [splitLineOver_eq, splitLine] at hs
  have hlt := line_lt_splitFrom h (leftovers left 0 (line.length + 1))
  rw [Option.some.inj hs, hflat, List.length_append, List.length_singleton] at hlt
  exact absurd hlt (lt_irrefl _)

/-- `split_line` over slots with any content writes the line and one newline exactly when the line
fits a single buffer. -/
theorem split_line_faithful_iff (left : ℕ → ℕ → UInt8) (line : Bytes) :
    (∃ chunks, splitLineOver left line = some chunks ∧
      chunks.flatten = line ++ [newline] ∧
      ∀ chunk ∈ chunks, chunk ≠ [] ∧ ∃ c ∈ defaultSizeClasses, chunk.length ≤ c.size) ↔
    line.length ≤ writeChunkPayload := by
  constructor
  · intro ⟨chunks, hs, hflat, _⟩
    by_contra hlong
    exact splitLineOver_long (Nat.lt_of_not_le hlong) hs hflat
  · intro hfits
    rw [splitLineOver_eq, splitLine]
    refine ⟨_, rfl, ?_, ?_⟩
    · rw [splitFrom, min_eq_left hfits, if_pos rfl]
      simp
    · intro chunk hchunk
      obtain ⟨hne, hlen⟩ := splitFrom_bounds hchunk
      exact ⟨hne, ⟨65536, 1⟩, by decide, hlen⟩

/-- A line one byte longer than the payload, written from zeroed slots. -/
theorem long_line_garbled : ¬ ∃ chunks,
    splitLineOver (fun _ _ => 0) (List.replicate 65536 120) = some chunks ∧
    chunks.flatten = List.replicate 65536 120 ++ [newline] ∧
    ∀ chunk ∈ chunks, chunk ≠ [] ∧ ∃ c ∈ defaultSizeClasses, chunk.length ≤ c.size := by
  intro ⟨chunks, hs, hflat, _⟩
  refine absurd hflat (splitLineOver_long ?_ hs)
  rw [List.length_replicate]
  decide

end Conrt.Daemon
