import Conrt.Daemon.Log

/-! How lines are put together from reads that may be cut anywhere. -/
namespace Conrt.Daemon

/-- The lines of a byte sequence without their newlines. The last one need not have one. -/
def linesOf : Bytes → List Bytes
  | [] => []
  | b :: bs =>
    if b = newline then [] :: linesOf bs
    else match linesOf bs with
      | [] => [[b]]
      | line :: lines => (b :: line) :: lines

variable {a bs cur : Bytes} {acc : List Bytes}

/-- One byte of the line assembly. -/
def assemble (acc : List Bytes × Bytes) (b : UInt8) : List Bytes × Bytes :=
  if b = newline then (acc.1 ++ [acc.2], []) else (acc.1, acc.2 ++ [b])

theorem drainLines_eq : drainLines a bs = (a ++ bs).foldl assemble ([], []) := rfl

theorem foldl_assemble : bs.foldl assemble (acc, cur) =
    (acc ++ (bs.foldl assemble ([], cur)).1, (bs.foldl assemble ([], cur)).2) := by
  induction bs generalizing acc cur with
  | nil => simp
  | cons b bs ih =>
    simp only [List.foldl_cons, assemble]
    split_ifs
    · have hone : bs.foldl assemble ([cur], []) = ([cur] ++ _, _) := ih
      rw [ih, List.nil_append, hone]
      simp
    · exact ih

private theorem foldl_assemble_partial (hb : newline ∉ bs) :
    bs.foldl assemble ([], cur) = ([], cur ++ bs) := by
  induction bs generalizing cur with
  | nil => simp
  | cons b bs ih =>
    rw [List.mem_cons, not_or] at hb
    rw [List.foldl_cons, assemble, if_neg (Ne.symm hb.1), ih hb.2]
    simp

private theorem newline_notMem_rest (hc : newline ∉ cur) : newline ∉ (bs.foldl assemble ([], cur)).2 := by
  induction bs generalizing cur with
  | nil => exact hc
  | cons b bs ih =>
    simp only [List.foldl_cons, assemble]
    split_ifs with hb
    · rw [foldl_assemble]
      exact ih List.not_mem_nil
    · refine ih ?_
      rw [List.mem_append, List.mem_singleton, not_or]
      exact ⟨hc, Ne.symm hb⟩

/-- Reads may be cut anywhere. -/
theorem drainLines_append : drainLines [] (a ++ bs) =
    ((drainLines [] a).1 ++ (drainLines (drainLines [] a).2 bs).1,
      (drainLines (drainLines [] a).2 bs).2) := by
  have hrest : newline ∉ (drainLines [] a).2 := newline_notMem_rest List.not_mem_nil
  rw [drainLines_eq (a := (drainLines [] a).2), List.foldl_append, foldl_assemble_partial hrest,
    List.nil_append, ← foldl_assemble, drainLines_eq, List.nil_append, List.foldl_append]
  rfl

/-- After a newline no partial line is left. -/
theorem rest_eq_nil (hb : bs.getLast?.all (· = newline)) : (drainLines [] bs).2 = [] := by
  rcases List.eq_nil_or_concat bs with rfl | ⟨bs, b, rfl⟩
  · rfl
  · have hnl : b = newline := by simpa using hb
    rw [drainLines_eq, List.concat_eq_append, List.nil_append, List.foldl_append]
    simp [assemble, hnl]

private theorem linesOf_line (hc : newline ∉ cur) : linesOf (cur ++ newline :: bs) = cur :: linesOf bs := by
  induction cur with
  | nil => rw [List.nil_append, linesOf, if_pos rfl]
  | cons b cur ih =>
    rw [List.mem_cons, not_or] at hc
    rw [List.cons_append, linesOf, if_neg (Ne.symm hc.1), ih hc.2]

private theorem linesOf_foldl (hc : newline ∉ cur) : linesOf (cur ++ bs) =
    (bs.foldl assemble ([], cur)).1 ++ linesOf (bs.foldl assemble ([], cur)).2 := by
  induction bs generalizing cur with
  | nil => simp
  | cons b bs ih =>
    simp only [List.foldl_cons, assemble]
    split_ifs with hb
    · rw [hb, linesOf_line hc, foldl_assemble, ← List.nil_append bs, ih List.not_mem_nil]
      simp
    · have hsnoc : cur ++ b :: bs = (cur ++ [b]) ++ bs := by simp
      rw [hsnoc, ih]
      rw [List.mem_append, List.mem_singleton, not_or]
      exact ⟨hc, Ne.symm hb⟩

/-- The assembled lines are the lines, when the last one has its newline. -/
theorem linesOf_eq (hb : (drainLines [] bs).2 = []) : linesOf bs = (drainLines [] bs).1 := by
  have hl : linesOf ([] ++ bs) = _ := linesOf_foldl List.not_mem_nil
  rw [List.nil_append] at hl
  rw [hl]
  change (drainLines [] bs).1 ++ linesOf (drainLines [] bs).2 = _
  rw [hb, linesOf, List.append_nil]

/-- `bytes[start..stop]`; `none` out of range. -/
def sliceOf (bytes : Bytes) (start stop : ℕ) : Option Bytes :=
  if start ≤ stop ∧ stop ≤ bytes.length then some ((bytes.take stop).drop start) else none

def scanByte (lineBuf : Bytes) (acc : List Bytes × ℕ) (i : ℕ) : Option (List Bytes × ℕ) := do
  let b ← lineBuf[i]?
  if b = newline then
    let line ← sliceOf lineBuf acc.2 i
    pure (acc.1 ++ [line], i + 1)
  else pure acc

/-- `drain_lines`: `lines` and `line_buf` as it leaves them. -/
def drainInto (lineBuf bytes : Bytes) (lines : List Bytes) : Option (List Bytes × Bytes) := do
  let lineBuf := lineBuf ++ bytes
  let total := lineBuf.length
  let (lines, start) ← (List.range total).foldlM (scanByte lineBuf) (lines, 0)
  pure (lines, if start < total then lineBuf.drop start else [])

def drainReads (reads : List Bytes) : Option (List Bytes × Bytes) :=
  reads.foldlM (fun acc bytes => drainInto acc.2 bytes acc.1) ([], [])

/-- After `n` indices the lines are those of the first `n` bytes, and `start` is where the partial
one begins. -/
theorem scan_range (lines : List Bytes) {buf : Bytes} {n : ℕ} (hn : n ≤ buf.length) : ∃ start ≤ n,
    (List.range n).foldlM (scanByte buf) (lines, 0) =
      some (lines ++ ((buf.take n).foldl assemble ([], [])).1, start) ∧
    (buf.take n).drop start = ((buf.take n).foldl assemble ([], [])).2 := by
  induction n with
  | zero => exact ⟨0, le_rfl, by simp, rfl⟩
  | succ n ih =>
    obtain ⟨start, hstart, hscan, hrest⟩ := ih (Nat.le_of_succ_le hn)
    have hget : buf[n]? = some buf[n] := List.getElem?_eq_getElem hn
    have htake : buf.take (n + 1) = buf.take n ++ [buf[n]] := List.take_succ_eq_append_getElem hn
    have hlen : (buf.take n).length = n := List.length_take_of_le (Nat.le_of_succ_le hn)
    rw [List.range_succ, List.foldlM_append, hscan, htake, List.foldl_append]
    by_cases hb : buf[n] = newline
    · have hslice : sliceOf buf start n = some ((buf.take n).drop start) :=
        if_pos ⟨hstart, Nat.le_of_succ_le hn⟩
      refine ⟨n + 1, le_rfl, ?_, ?_⟩
      · simp [scanByte, assemble, hget, hb, hslice, hrest]
      · simp [assemble, hb, hlen]
    · refine ⟨start, Nat.le_succ_of_le hstart, ?_, ?_⟩
      · simp [scanByte, assemble, hget, hb]
      · rw [List.drop_append_of_le_length (by omega), hrest]
        simp [assemble, hb]

/-- The loop computes the lines and the rest that a read of the daemon takes. -/
theorem drainInto_eq (lineBuf bytes : Bytes) (lines : List Bytes) : drainInto lineBuf bytes lines =
    some (lines ++ (drainLines lineBuf bytes).1, (drainLines lineBuf bytes).2) := by
  obtain ⟨start, hstart, hscan, hrest⟩ := scan_range lines (le_refl (lineBuf ++ bytes).length)
  rw [List.take_length] at hscan hrest
  have hleft : (if start < (lineBuf ++ bytes).length then (lineBuf ++ bytes).drop start else []) =
      (drainLines lineBuf bytes).2 := by
    rw [drainLines_eq, ← hrest]
    split_ifs with hlt
    · rfl
    · rw [List.drop_of_length_le (Nat.le_of_not_lt hlt)]
  simp only [drainInto, hscan, Option.bind_eq_bind, Option.bind_some, hleft]
  rfl

private theorem drainReads_eq (reads : List Bytes) :
    drainReads reads = some (drainLines [] reads.flatten) := by
  induction reads using List.reverseRecOn with
  | nil => rfl
  | append_singleton reads bytes ih =>
    unfold drainReads at ih ⊢
    rw [List.foldlM_append, ih, List.flatten_append, List.flatten_singleton, drainLines_append]
    simp [drainInto_eq]

private theorem splitOn_foldl (hc : newline ∉ cur) : (cur ++ bs).splitOn newline =
    (bs.foldl assemble ([], cur)).1 ++ [(bs.foldl assemble ([], cur)).2] := by
  induction bs generalizing cur with
  | nil => simpa using List.splitOn_eq_singleton hc
  | cons b bs ih =>
    simp only [List.foldl_cons, assemble]
    split_ifs with hb
    · have hrest : bs.splitOn newline = _ := ih List.not_mem_nil
      have hone : bs.foldl assemble ([cur], []) = ([cur] ++ _, _) := foldl_assemble
      rw [hb, List.splitOn_append_cons_self_of_not_mem hc, hrest, List.nil_append, hone]
      simp
    · have hsnoc : cur ++ b :: bs = (cur ++ [b]) ++ bs := by simp
      rw [hsnoc, ih]
      rw [List.mem_append, List.mem_singleton, not_or]
      exact ⟨hc, Ne.symm hb⟩

private theorem newline_notMem_lines (hc : newline ∉ cur) :
    ∀ line ∈ (bs.foldl assemble ([], cur)).1, newline ∉ line := by
  induction bs generalizing cur with
  | nil => simp
  | cons b bs ih =>
    simp only [List.foldl_cons, assemble]
    split_ifs with hb
    · rw [foldl_assemble]
      intro line hline
      rcases List.mem_append.mp hline with hline | hline
      · obtain rfl : line = cur := by simpa using hline
        exact hc
      · exact ih List.not_mem_nil line hline
    · apply ih
      rw [List.mem_append, List.mem_singleton, not_or]
      exact ⟨hc, Ne.symm hb⟩

private theorem joined_foldl : (bs.foldl assemble ([], cur)).1.flatMap (· ++ [newline]) ++
    (bs.foldl assemble ([], cur)).2 = cur ++ bs := by
  induction bs generalizing cur with
  | nil => simp
  | cons b bs ih =>
    simp only [List.foldl_cons, assemble]
    split_ifs with hb
    · have hrest : _ = [] ++ bs := ih
      rw [foldl_assemble, List.flatMap_append, List.append_assoc, hrest, hb]
      simp
    · rw [ih]
      simp

/-- However a stream is cut into reads, the lines are its pieces between newlines and the last piece
is carried on. -/
theorem drain_lines_cut_free (reads : List Bytes) : ∃ lines lineBuf,
    (∀ reads' : List Bytes, reads'.flatten = reads.flatten →
      drainReads reads' = some (lines, lineBuf)) ∧
    reads.flatten.splitOn newline = lines ++ [lineBuf] ∧
    (∀ line ∈ lines, newline ∉ line) ∧
    lines.flatMap (· ++ [newline]) ++ lineBuf = reads.flatten := by
  refine ⟨(drainLines [] reads.flatten).1, (drainLines [] reads.flatten).2, ?_, ?_, ?_, ?_⟩
  · intro reads' hflat
    rw [drainReads_eq, hflat]
  · exact splitOn_foldl List.not_mem_nil
  · exact newline_notMem_lines List.not_mem_nil
  · exact joined_foldl

end Conrt.Daemon
