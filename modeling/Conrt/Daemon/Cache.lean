import Conrt.Base.Ring
import Conrt.Base.Run
import Conrt.Daemon.Log

/-! The log cache is a bounded queue of lines. -/
namespace Conrt.Daemon

open Conrt.Base

def joinLines (lines : List Bytes) : Bytes := lines.flatMap (· ++ [newline])

/-- The lines left when the fewest of the oldest are dropped so that `need` more bytes fit. -/
def keepNewest (cap need : ℕ) : List Bytes → List Bytes
  | [] => []
  | l :: ls =>
    if (joinLines (l :: ls)).length + need ≤ cap then l :: ls else keepNewest cap need ls

/-- A line enters the queue behind the ones it leaves room for. -/
def enqueue (cap : ℕ) (lines : List Bytes) (line : Bytes) : List Bytes :=
  keepNewest cap (line.length + 1) lines ++ [line]

variable {cap need : ℕ} {lines lines' : List Bytes} {line : Bytes} {c c' : LogCache}

@[simp] theorem joinLines_nil : joinLines [] = [] := rfl

@[simp] theorem joinLines_cons : joinLines (line :: lines) = line ++ [newline] ++ joinLines lines := by
  simp [joinLines]

@[simp] theorem joinLines_append :
    joinLines (lines ++ lines') = joinLines lines ++ joinLines lines' := by
  simp [joinLines]

/-- Bytes are the lines they are cut into at their newlines. -/
theorem joinLines_splitOn (line : Bytes) : joinLines (line.splitOn newline) = line ++ [newline] := by
  induction line with
  | nil => rfl
  | cons b bs ih =>
    obtain ⟨p, ps, hps⟩ := List.exists_cons_of_ne_nil (List.splitOn_ne_nil newline bs)
    rw [hps, joinLines_cons] at ih
    rw [List.splitOn_cons_eq_if_modifyHead, hps]
    split_ifs with hb
    · rw [eq_of_beq hb, joinLines_cons, joinLines_cons, ih]
      rfl
    · rw [List.modifyHead_cons, joinLines_cons, List.cons_append, List.cons_append, ih]
      rfl

private theorem not_mem_of_mem_splitOn {piece : Bytes} (h : piece ∈ line.splitOn newline) :
    newline ∉ piece := by
  induction line generalizing piece with
  | nil =>
    rw [List.splitOn_nil, List.mem_singleton] at h
    simp [h]
  | cons b bs ih =>
    obtain ⟨p, ps, hps⟩ := List.exists_cons_of_ne_nil (List.splitOn_ne_nil newline bs)
    rw [hps] at ih
    rw [List.splitOn_cons_eq_if_modifyHead, hps] at h
    split_ifs at h with hb
    · rcases List.mem_cons.mp h with rfl | h
      · simp
      · exact ih h
    · rw [List.modifyHead_cons] at h
      rcases List.mem_cons.mp h with rfl | h
      · have hp := ih List.mem_cons_self
        have hne : newline ≠ b := by
          rintro rfl
          exact hb (beq_self_eq_true newline)
        simp [hne, hp]
      · exact ih (List.mem_cons_of_mem p h)

theorem keepNewest_suffix (cap need : ℕ) (lines : List Bytes) :
    keepNewest cap need lines <:+ lines := by
  induction lines with
  | nil => exact List.suffix_refl _
  | cons l ls ih =>
    unfold keepNewest
    split_ifs
    · exact List.suffix_refl _
    · exact ih.trans (List.suffix_cons l ls)

private theorem keepNewest_fits (h : need ≤ cap) (lines : List Bytes) :
    (joinLines (keepNewest cap need lines)).length + need ≤ cap := by
  induction lines with
  | nil => simpa [keepNewest] using h
  | cons l ls ih =>
    unfold keepNewest
    split_ifs with hfits
    · exact hfits
    · exact ih

/-- Dropping fewer lines would not leave the room. -/
theorem keepNewest_longest (hs : lines' <:+ lines)
    (hfits : (joinLines lines').length + need ≤ cap) : lines' <:+ keepNewest cap need lines := by
  induction lines with
  | nil => exact hs
  | cons l ls ih =>
    unfold keepNewest
    split_ifs with hroom
    · exact hs
    · rcases List.suffix_cons_iff.mp hs with heq | hs
      · rw [heq] at hfits
        contradiction
      · exact ih hs

/-- The ranges of the bytes that complete a character begun by this byte; none for a byte that
begins no character. -/
def tailRanges (a : UInt8) : Option (List (UInt8 × UInt8)) :=
  if a < 0x80 then some []
  else if 0xC2 ≤ a ∧ a ≤ 0xDF then some [(0x80, 0xBF)]
  else if a = 0xE0 then some [(0xA0, 0xBF), (0x80, 0xBF)]
  else if a = 0xED then some [(0x80, 0x9F), (0x80, 0xBF)]
  else if 0xE1 ≤ a ∧ a ≤ 0xEF then some [(0x80, 0xBF), (0x80, 0xBF)]
  else if a = 0xF0 then some [(0x90, 0xBF), (0x80, 0xBF), (0x80, 0xBF)]
  else if 0xF1 ≤ a ∧ a ≤ 0xF3 then some [(0x80, 0xBF), (0x80, 0xBF), (0x80, 0xBF)]
  else if a = 0xF4 then some [(0x80, 0x8F), (0x80, 0xBF), (0x80, 0xBF)]
  else none

/-- How many of the expected bytes follow. -/
def tailMatch : List (UInt8 × UInt8) → Bytes → ℕ
  | (lo, hi) :: ranges, b :: bs => if lo ≤ b ∧ b ≤ hi then tailMatch ranges bs + 1 else 0
  | _, _ => 0

/-- The character of a lead byte and its continuation bytes. -/
def utf8Char (a : UInt8) (tail : Bytes) : Char :=
  let lead := if tail = [] then a.toNat else a.toNat % 2 ^ (6 - tail.length)
  Char.ofNat (tail.foldl (fun acc b => acc * 64 + b.toNat % 64) lead)

/-- Every maximal piece that begins a character and does not complete it becomes one U+FFFD. -/
def lossyChars : ℕ → Bytes → List Char
  | 0, _ => []
  | _, [] => []
  | fuel + 1, a :: rest =>
    match tailRanges a with
    | none => Char.ofNat 0xFFFD :: lossyChars fuel rest
    | some ranges =>
      let n := tailMatch ranges rest
      let ch := if n = ranges.length then utf8Char a (rest.take n) else Char.ofNat 0xFFFD
      ch :: lossyChars fuel (rest.drop n)

def fromUtf8Lossy (bytes : Bytes) : String := String.ofList (lossyChars bytes.length bytes)

example : fromUtf8Lossy [97, 0xC3, 0xA9, 0xE2, 0x82, 98] = "aé\uFFFDb" := by decide

namespace LogCache

/-- The ring's occupied cells are the lines, oldest first. -/
structure Holds (c : LogCache) (lines : List Bytes) : Prop where
  start_lt : c.start < c.buf.length
  bytes_le : c.bytes ≤ c.buf.length
  fin_eq : c.fin = (c.start + c.bytes) % c.buf.length
  cells : window c.buf c.start c.bytes = joinLines lines
  unbroken : ∀ l ∈ lines, newline ∉ l

theorem Holds.bytes_eq (h : c.Holds lines) : c.bytes = (joinLines lines).length := by
  rw [← h.cells, length_window h.bytes_le]

theorem holds_new (h : 0 < cap) : (LogCache.new cap).Holds [] where
  start_lt := by simpa [LogCache.new] using h
  bytes_le := Nat.zero_le _
  fin_eq := (Nat.zero_mod _).symm
  cells := rfl
  unbroken := by simp

/-- The scan stops at the newline that ends the line it starts in. -/
theorem findNewline_window {pos fuel : ℕ} (hpos : pos < c.buf.length)
    (hlen : line.length + 1 ≤ c.buf.length)
    (hcells : window c.buf pos (line.length + 1) = line ++ [newline]) (hline : newline ∉ line)
    (hfuel : line.length < fuel) :
    c.findNewline fuel pos = some ((pos + line.length) % c.buf.length) := by
  induction line generalizing pos fuel with
  | nil =>
    obtain ⟨fuel, rfl⟩ : ∃ k, fuel = k + 1 := ⟨fuel - 1, by simp at hfuel; omega⟩
    have hb : c.buf[pos]? = some newline := by
      have hget := congrArg (·[0]?) hcells
      have hmod : (pos + 0) % c.buf.length = pos := Nat.mod_eq_of_lt hpos
      simp only [getElem?_window (Nat.zero_lt_succ _) hlen, hmod] at hget
      simpa using hget
    have hmod : (pos + ([] : Bytes).length) % c.buf.length = pos := Nat.mod_eq_of_lt hpos
    rw [hmod, findNewline, hb]
    simp
  | cons a line ih =>
    obtain ⟨fuel, rfl⟩ : ∃ k, fuel = k + 1 := ⟨fuel - 1, by simp at hfuel; omega⟩
    simp only [List.length_cons] at hlen hcells hfuel ⊢
    have hcut : window c.buf pos 1 ++ window c.buf (pos + 1) (line.length + 1) =
        [a] ++ (line ++ [newline]) := by
      rw [← window_add (by omega), Nat.add_comm 1, hcells]
      rfl
    obtain ⟨hhead, htail⟩ := List.append_inj hcut (length_window (by omega))
    have hb : c.buf[pos]? = some a := by
      have hget := congrArg (·[0]?) hhead
      have hmod : (pos + 0) % c.buf.length = pos := Nat.mod_eq_of_lt hpos
      have hone : 1 ≤ c.buf.length := by omega
      simp only [getElem?_window Nat.zero_lt_one hone, hmod] at hget
      simpa using hget
    have ha : a ≠ newline := fun h => hline (by simp [h])
    have hpos' : (pos + 1) % c.buf.length < c.buf.length := Nat.mod_lt _ (by omega)
    have hcells' : window c.buf ((pos + 1) % c.buf.length) (line.length + 1) = line ++ [newline] := by
      rw [window_mod, htail]
    have hline' : newline ∉ line := fun h => hline (List.mem_cons_of_mem a h)
    have hnext : c.findNewline fuel ((pos + 1) % c.buf.length) =
        some (((pos + 1) % c.buf.length + line.length) % c.buf.length) :=
      ih hpos' (by omega) hcells' hline' (by omega)
    rw [findNewline, hb]
    simp only [if_neg ha, hnext, Nat.mod_add_mod]
    congr 2
    omega

/-- Where a span of `n` cells and the cell behind it end, counted on the right side of the wrap. -/
theorem span_eq {pos n len : ℕ} (hpos : pos < len) (hn : n < len) :
    (if pos ≤ (pos + n) % len then (pos + n) % len - pos + 1 else len - pos + (pos + n) % len + 1)
      = n + 1 := by
  by_cases hwrap : pos + n < len
  · rw [Nat.mod_eq_of_lt hwrap, if_pos (by omega)]
    omega
  · have hmod : (pos + n) % len = pos + n - len := by
      rw [Nat.mod_eq_sub_mod (by omega), Nat.mod_eq_of_lt (by omega)]
    rw [hmod, if_neg (by omega)]
    omega

/-- The first line of a window, and what is behind it. -/
theorem window_line {pos n : ℕ} (hn : n ≤ c.buf.length)
    (h : window c.buf pos n = joinLines (line :: lines)) :
    line.length + 1 ≤ n ∧ window c.buf pos (line.length + 1) = line ++ [newline] ∧
      window c.buf (pos + (line.length + 1)) (n - (line.length + 1)) = joinLines lines := by
  have hlen : n = line.length + 1 + (joinLines lines).length := by
    rw [← length_window hn, h]
    simp
    omega
  have hsum : line.length + 1 + (n - (line.length + 1)) = n := by omega
  have hcut : window c.buf pos (line.length + 1) ++
      window c.buf (pos + (line.length + 1)) (n - (line.length + 1)) =
        line ++ [newline] ++ joinLines lines := by
    rw [← window_add (by omega), hsum, h, joinLines_cons]
  have hfirst : (window c.buf pos (line.length + 1)).length = (line ++ [newline]).length := by
    rw [length_window (by omega)]
    simp
  obtain ⟨hhead, htail⟩ := List.append_inj hcut hfirst
  exact ⟨by omega, hhead, htail⟩

/-- Evicting drops the oldest line. -/
theorem Holds.evict (h : c.Holds (line :: lines)) :
    ∃ c', c.evict = some c' ∧ c'.Holds lines ∧ c'.buf = c.buf ∧ c'.bytes < c.bytes := by
  obtain ⟨hle, hhead, htail⟩ := window_line h.bytes_le h.cells
  have hbytes := h.bytes_le
  have hnext : c.findNewline (c.buf.length + 1) c.start =
      some ((c.start + line.length) % c.buf.length) :=
    findNewline_window h.start_lt (by omega) hhead (h.unbroken _ List.mem_cons_self) (by omega)
  have hspan := span_eq h.start_lt (show line.length < c.buf.length by omega)
  refine ⟨{ c with start := (c.start + (line.length + 1)) % c.buf.length
                   bytes := c.bytes - (line.length + 1) }, ?_, ?_, rfl, ?_⟩
  · simp only [LogCache.evict, hnext, bind, Option.bind, hspan, guard, hle, if_true]
    rfl
  · constructor
    · exact Nat.mod_lt _ (by omega)
    · change c.bytes - (line.length + 1) ≤ c.buf.length
      omega
    · change c.fin = ((c.start + (line.length + 1)) % c.buf.length +
        (c.bytes - (line.length + 1))) % c.buf.length
      rw [Nat.mod_add_mod, h.fin_eq]
      congr 1
      omega
    · change window c.buf ((c.start + (line.length + 1)) % c.buf.length)
        (c.bytes - (line.length + 1)) = joinLines lines
      rw [window_mod, htail]
    · intro l hl
      exact h.unbroken l (List.mem_cons_of_mem _ hl)
  · change c.bytes - (line.length + 1) < c.bytes
    omega

/-- The eviction loop keeps the newest lines. -/
theorem Holds.makeRoom {fuel : ℕ} (h : c.Holds lines) (hneed : need ≤ c.buf.length)
    (hfuel : c.bytes < fuel) :
    ∃ c', c.makeRoom need fuel = some c' ∧ c'.Holds (keepNewest c.buf.length need lines) ∧
      c'.buf = c.buf := by
  induction lines generalizing c fuel with
  | nil =>
    obtain ⟨fuel, rfl⟩ : ∃ k, fuel = k + 1 := ⟨fuel - 1, by omega⟩
    have hzero : c.bytes = 0 := h.bytes_eq
    refine ⟨c, ?_, h, rfl⟩
    rw [LogCache.makeRoom, if_pos (by omega)]
  | cons l ls ih =>
    obtain ⟨fuel, rfl⟩ : ∃ k, fuel = k + 1 := ⟨fuel - 1, by omega⟩
    have hbytes := h.bytes_eq
    have hle := h.bytes_le
    unfold keepNewest
    split_ifs with hfits
    · refine ⟨c, ?_, h, rfl⟩
      rw [LogCache.makeRoom, if_pos (by omega)]
    · obtain ⟨c₁, hevict, h₁, hbuf, hless⟩ := h.evict
      have hneed₁ : need ≤ c₁.buf.length := by
        rw [hbuf]
        exact hneed
      have hfuel₁ : c₁.bytes < fuel := by omega
      obtain ⟨c₂, hroom, h₂, hbuf₂⟩ := ih h₁ hneed₁ hfuel₁
      rw [hbuf] at h₂ hbuf₂
      refine ⟨c₂, ?_, h₂, hbuf₂⟩
      rw [LogCache.makeRoom, if_neg (by omega), hevict]
      exact hroom

/-- Copying in extends what lies between `start` and `fin`. -/
theorem foldl_append {n : ℕ} (bs : Bytes) (hfin : c.fin = (c.start + n) % c.buf.length)
    (hle : n + bs.length ≤ c.buf.length) :
    (bs.foldl append c).start = c.start ∧ (bs.foldl append c).bytes = c.bytes ∧
      (bs.foldl append c).buf.length = c.buf.length ∧
      (bs.foldl append c).fin = (c.start + (n + bs.length)) % c.buf.length ∧
      window (bs.foldl append c).buf c.start (n + bs.length) = window c.buf c.start n ++ bs := by
  induction bs generalizing c n with
  | nil => exact ⟨rfl, rfl, rfl, hfin, by simp⟩
  | cons b bs ih =>
    simp only [List.length_cons] at hle ⊢
    have hlen : (c.append b).buf.length = c.buf.length := List.length_set
    have hfin' : (c.append b).fin = ((c.append b).start + (n + 1)) % (c.append b).buf.length := by
      rw [hlen]
      change (c.fin + 1) % c.buf.length = (c.start + (n + 1)) % c.buf.length
      rw [hfin, Nat.mod_add_mod]
      congr 1
    have hwrite : window (c.append b).buf c.start (n + 1) = window c.buf c.start n ++ [b] := by
      change window (c.buf.set c.fin b) c.start (n + 1) = _
      rw [hfin]
      exact window_set b (by omega)
    obtain ⟨hstart, hbytes, hbuf, hend, hcells⟩ := ih hfin' (by omega)
    have hn : n + 1 + bs.length = n + (bs.length + 1) := by omega
    rw [hn] at hend hcells
    refine ⟨hstart, hbytes, hbuf.trans hlen, ?_, ?_⟩
    · rw [List.foldl_cons, hend, hlen]
      rfl
    · rw [List.foldl_cons]
      refine hcells.trans ?_
      change window (c.append b).buf c.start (n + 1) ++ bs = _
      rw [hwrite, List.append_assoc]
      rfl

/-- A push leaves room for the line and stores its pieces. -/
theorem Holds.store (h : c.Holds lines) (hlen : line.length < c.buf.length) :
    ∃ c', c.push line = some c' ∧ c'.buf.length = c.buf.length ∧
      c'.Holds (keepNewest c.buf.length (line.length + 1) lines ++ line.splitOn newline) := by
  obtain ⟨c₁, hroom, h₁, hbuf⟩ := h.makeRoom (show line.length + 1 ≤ c.buf.length from hlen)
    (Nat.lt_succ_self c.bytes)
  have hbytes := h₁.bytes_eq
  have hfits := keepNewest_fits (show line.length + 1 ≤ c.buf.length from hlen) lines
  have hsize : (line ++ [newline]).length = line.length + 1 := by simp
  obtain ⟨hstart, hsame, hsize', hend, hcells⟩ :=
    foldl_append (line ++ [newline]) h₁.fin_eq (by rw [hsize, hbuf]; omega)
  rw [hsize] at hend hcells
  have hle := h₁.start_lt
  refine ⟨{ (line ++ [newline]).foldl append c₁ with bytes := c₁.bytes + (line.length + 1) },
    ?_, ?_, ?_⟩
  · simp only [LogCache.push, hroom, bind, Option.bind, hsame]
    rfl
  · exact hsize'.trans (congrArg List.length hbuf)
  · constructor
    · change ((line ++ [newline]).foldl append c₁).start < _
      rw [hstart, hsize']
      exact hle
    · change c₁.bytes + (line.length + 1) ≤ ((line ++ [newline]).foldl append c₁).buf.length
      rw [hsize', hbuf]
      omega
    · change ((line ++ [newline]).foldl append c₁).fin =
        (((line ++ [newline]).foldl append c₁).start + (c₁.bytes + (line.length + 1))) %
          ((line ++ [newline]).foldl append c₁).buf.length
      rw [hend, hstart, hsize']
    · change window ((line ++ [newline]).foldl append c₁).buf
        ((line ++ [newline]).foldl append c₁).start (c₁.bytes + (line.length + 1)) = _
      rw [hstart, hcells, h₁.cells, joinLines_append, joinLines_splitOn]
    · intro l hl
      rcases List.mem_append.mp hl with hl | hl
      · exact h₁.unbroken l hl
      · exact not_mem_of_mem_splitOn hl

/-- A push of one line is an entry into the queue. -/
theorem Holds.push (h : c.Holds lines) (hline : newline ∉ line) (hlen : line.length < c.buf.length) :
    ∃ c', c.push line = some c' ∧ c'.buf.length = c.buf.length ∧
      c'.Holds (enqueue c.buf.length lines line) := by
  obtain ⟨c', hpush, hbuf, h'⟩ := h.store hlen
  rw [List.splitOn_eq_singleton hline] at h'
  exact ⟨c', hpush, hbuf, h'⟩

def collectStrings (c : LogCache) : List String := c.collectLines.map fromUtf8Lossy

theorem Holds.snapshot (h : c.Holds lines) : c.snapshot = joinLines lines := by
  have hstart := h.start_lt
  have hle := h.bytes_le
  unfold LogCache.snapshot
  split_ifs with hzero hlt
  · rw [← h.cells, hzero]
    rfl
  · rw [h.fin_eq] at hlt ⊢
    have hwrap : c.start + c.bytes < c.buf.length := by
      by_contra hwrap
      rw [Nat.mod_eq_sub_mod (by omega)] at hlt
      have := Nat.mod_le (c.start + c.bytes - c.buf.length) c.buf.length
      omega
    rw [Nat.mod_eq_of_lt hwrap, slice_eq_window (by omega), h.cells]
  · rw [h.fin_eq] at hlt ⊢
    have hwrap : c.buf.length ≤ c.start + c.bytes := by
      by_contra hwrap
      rw [Nat.mod_eq_of_lt (by omega)] at hlt
      omega
    rw [Nat.mod_eq_sub_mod hwrap, Nat.mod_eq_of_lt (by omega), wrap_eq_window (by omega) hle hwrap,
      h.cells]

/-- The copy of a line on the right side of the wrap. -/
theorem line_eq_window {pos n : ℕ} (hpos : pos < c.buf.length) (hn : n < c.buf.length) :
    (if pos ≤ (pos + n) % c.buf.length then (c.buf.take ((pos + n) % c.buf.length)).drop pos
      else c.buf.drop pos ++ c.buf.take ((pos + n) % c.buf.length)) = window c.buf pos n := by
  by_cases hwrap : pos + n < c.buf.length
  · rw [Nat.mod_eq_of_lt hwrap, if_pos (by omega), slice_eq_window (by omega)]
  · have hmod : (pos + n) % c.buf.length = pos + n - c.buf.length := by
      rw [Nat.mod_eq_sub_mod (by omega), Nat.mod_eq_of_lt (by omega)]
    rw [hmod, if_neg (by omega), wrap_eq_window (by omega) (by omega) (by omega)]

private theorem collectFrom_window {pos n fuel : ℕ} (hpos : pos < c.buf.length) (hn : n ≤ c.buf.length)
    (hcells : window c.buf pos n = joinLines lines) (hlines : ∀ l ∈ lines, newline ∉ l)
    (hfuel : n ≤ fuel) : c.collectFrom fuel pos n = lines := by
  induction lines generalizing pos n fuel with
  | nil =>
    have hzero : n = 0 := by
      rw [← length_window hn, hcells]
      rfl
    subst hzero
    cases fuel <;> simp [collectFrom]
  | cons l ls ih =>
    obtain ⟨hle, hhead, htail⟩ := window_line hn hcells
    obtain ⟨fuel, rfl⟩ : ∃ k, fuel = k + 1 := ⟨fuel - 1, by omega⟩
    have hnext : c.findNewline (c.buf.length + 1) pos = some ((pos + l.length) % c.buf.length) :=
      findNewline_window hpos (by omega) hhead (hlines _ List.mem_cons_self) (by omega)
    have hline : window c.buf pos l.length = l := by
      rw [window_add (by omega)] at hhead
      exact (List.append_inj hhead (length_window (by omega))).1
    have hrest : window c.buf ((pos + (l.length + 1)) % c.buf.length) (n - (l.length + 1)) =
        joinLines ls := by
      rw [window_mod, htail]
    have hcollect : c.collectFrom fuel ((pos + (l.length + 1)) % c.buf.length)
        (n - (l.length + 1)) = ls :=
      ih (Nat.mod_lt _ (by omega)) (by omega) hrest
        (fun k hk => hlines k (List.mem_cons_of_mem _ hk)) (by omega)
    have hpos' : ((pos + l.length) % c.buf.length + 1) % c.buf.length =
        (pos + (l.length + 1)) % c.buf.length := by
      rw [Nat.mod_add_mod]
      congr 1
    rw [collectFrom, if_neg (by omega), hnext]
    simp only [line_eq_window hpos (show l.length < c.buf.length by omega), hline, hpos', hcollect]

theorem Holds.collectLines (h : c.Holds lines) : c.collectLines = lines :=
  collectFrom_window h.start_lt h.bytes_le h.cells h.unbroken le_rfl

/-- A sequence of pushes is a sequence of entries. -/
theorem Holds.run_push (h : c.Holds lines) (hlines' : ∀ l ∈ lines', newline ∉ l ∧ l.length < c.buf.length) :
    ∃ c', run LogCache.push c lines' = some c' ∧ c'.buf.length = c.buf.length ∧
      c'.Holds (lines'.foldl (enqueue c.buf.length) lines) := by
  induction lines' generalizing c lines with
  | nil => exact ⟨c, rfl, rfl, h⟩
  | cons l ls ih =>
    obtain ⟨hbreak, hlen⟩ := hlines' l List.mem_cons_self
    obtain ⟨c₁, hpush, hbuf, h₁⟩ := h.push hbreak hlen
    have hls : ∀ k ∈ ls, newline ∉ k ∧ k.length < c₁.buf.length := by
      intro k hk
      rw [hbuf]
      exact hlines' k (List.mem_cons_of_mem _ hk)
    obtain ⟨c₂, hrun, hbuf₂, h₂⟩ := ih h₁ hls
    rw [hbuf] at hbuf₂ h₂
    refine ⟨c₂, ?_, hbuf₂, h₂⟩
    rw [run_cons, hpush]
    exact hrun

/-- After any pushes of lines that fit, the ring is the queue of the newest lines. -/
theorem push_queues (cap : ℕ) (hcap : 0 < cap) (pushed : List Bytes)
    (hpushed : ∀ l ∈ pushed, newline ∉ l ∧ l.length ≤ cap - 1) :
    ∃ c, run LogCache.push (LogCache.new cap) pushed = some c ∧
      c.bytes ≤ cap ∧ c.bytes = (joinLines (pushed.foldl (enqueue cap) [])).length ∧
      c.fin = (c.start + c.bytes) % cap ∧
      c.snapshot = joinLines (pushed.foldl (enqueue cap) []) ∧
      c.collectLines = pushed.foldl (enqueue cap) [] ∧
      c.collectStrings = (pushed.foldl (enqueue cap) []).map fromUtf8Lossy := by
  have hsize : (LogCache.new cap).buf.length = cap := List.length_replicate
  have hfit : ∀ l ∈ pushed, newline ∉ l ∧ l.length < (LogCache.new cap).buf.length := by
    intro l hl
    obtain ⟨hbreak, hlen⟩ := hpushed l hl
    exact ⟨hbreak, by omega⟩
  obtain ⟨c, hrun, hbuf, h⟩ := (holds_new hcap).run_push hfit
  rw [hsize] at hbuf h
  have hle := h.bytes_le
  have hfin := h.fin_eq
  rw [hbuf] at hle hfin
  exact ⟨c, hrun, hle, h.bytes_eq, hfin, h.snapshot, h.collectLines,
    congrArg (List.map fromUtf8Lossy) h.collectLines⟩

theorem push_queues_full :
    ∃ c, run LogCache.push (LogCache.new 10) [[97, 97, 97, 97], [98, 98, 98, 98], [99, 99, 99, 99]] =
        some c ∧
      c.bytes = 10 ∧ c.fin = (c.start + 10) % 10 ∧
      c.collectStrings = ["bbbb", "cccc"] := by
  obtain ⟨c, hrun, -, hbytes, hfin, -, -, hstrings⟩ :=
    push_queues 10 (by decide) [[97, 97, 97, 97], [98, 98, 98, 98], [99, 99, 99, 99]] (by decide)
  have hten : c.bytes = 10 := by
    rw [hbytes]
    decide
  refine ⟨c, hrun, hten, ?_, ?_⟩
  · rw [hfin, hten]
  · rw [hstrings]
    decide

/-- A line that does not fit into an empty ring is never given room. -/
theorem makeRoom_full (fuel : ℕ) (hneed : c.buf.length < need) : c.makeRoom need fuel = none := by
  induction fuel generalizing c with
  | zero => rfl
  | succ fuel ih =>
    rw [makeRoom, if_neg (by omega)]
    cases hevict : c.evict with
    | none => rfl
    | some c' =>
      have hbuf : c'.buf = c.buf := by
        simp only [evict, Option.bind_eq_bind, Option.bind_eq_some_iff] at hevict
        obtain ⟨i, -, _, -, hc'⟩ := hevict
        rw [← Option.some.inj hc']
      exact ih (hbuf ▸ hneed)

/-- After any pushes that returned, the ring holds whole lines. -/
theorem reaches_holds (hcap : 0 < cap) (h : Reaches push (fun _ _ => True) (new cap) c) :
    c.buf.length = cap ∧ ∃ lines, c.Holds lines := by
  apply h.invariant ⟨List.length_replicate, [], holds_new hcap⟩
  intro s line t hs _ hpush
  obtain ⟨hbuf, lines, hlines⟩ := hs
  have hlen : line.length < s.buf.length := by
    by_contra hlong
    have hnone : s.makeRoom (line.length + 1) (s.bytes + 1) = none :=
      makeRoom_full _ (by omega)
    simp [push, hnone] at hpush
  obtain ⟨t', hpush', hbuf', h'⟩ := hlines.store hlen
  obtain rfl := Option.some.inj (hpush.symm.trans hpush')
  exact ⟨hbuf'.trans hbuf, _, h'⟩

/-- In every ring some pushes have led to, a further push returns if and only if the line with its
newline fits into the ring; then the ring holds whole lines again. -/
theorem push_returns_iff (hcap : 0 < cap) (h : Reaches push (fun _ _ => True) (new cap) c)
    (line : Bytes) :
    (∃ c', c.push line = some c' ∧ c'.buf.length = cap ∧ ∃ lines, c'.Holds lines) ↔
      line.length < cap := by
  obtain ⟨hbuf, lines, hlines⟩ := reaches_holds hcap h
  constructor
  · rintro ⟨c', hpush, -⟩
    by_contra hlong
    have hnone : c.makeRoom (line.length + 1) (c.bytes + 1) = none := makeRoom_full _ (by omega)
    simp [push, hnone] at hpush
  · intro hlen
    obtain ⟨c', hpush, hbuf', h'⟩ := hlines.store (hbuf ▸ hlen)
    exact ⟨c', hpush, hbuf'.trans hbuf, _, h'⟩

/-- A line of the ring's own length: the ring is emptied, and the scan for one more line to drop
finds a stale newline in it. -/
theorem long_line_panics : ∃ c, run push (new 4) [[97, 97], [98, 98]] = some c ∧
    c.push [99, 99, 99, 99] = none ∧ ∀ fuel, c.makeRoom 5 fuel = none := by
  have hrun : (run push (new 4) [[97, 97], [98, 98]]).any (fun c =>
      c.push [99, 99, 99, 99] == none && c.buf.length == 4) = true := by decide +kernel
  obtain ⟨c, hc, htest⟩ := (Option.any_eq_true _ _).mp hrun
  obtain ⟨hnone, hlen⟩ := Bool.and_eq_true_iff.mp htest
  have hcap : c.buf.length < 5 := by
    rw [eq_of_beq hlen]
    decide
  exact ⟨c, hc, eq_of_beq hnone, fun fuel => makeRoom_full fuel hcap⟩

theorem push_returns_iff_full : ∃ c, run push (new 4) [[97, 97], [98, 98]] = some c ∧
    ∃ c', c.push [99, 10, 99] = some c' ∧ c'.buf.length = 4 ∧ ∃ lines, c'.Holds lines := by
  have hrun : (run push (new 4) [[97, 97], [98, 98]]).isSome = true := by decide +kernel
  obtain ⟨c, hc⟩ := Option.isSome_iff_exists.mp hrun
  have hreach : Reaches push (fun _ _ => True) (new 4) c :=
    reaches_of_run (meets_of_forall fun _ _ => trivial) hc
  exact ⟨c, hc, (push_returns_iff (by decide) hreach [99, 10, 99]).mpr (by decide)⟩

end LogCache

end Conrt.Daemon
