import Conrt.Daemon.Wire

/-! The frame encoders against `read_frame`, whatever the writes take and however the reads split. -/
namespace Conrt.Daemon

/-- A stream, and how many bytes each read of it is ready to return. -/
structure Source where
  rest : Bytes
  split : ℕ → ℕ
  reads : ℕ

namespace Source

/-- At least one byte unless the stream has ended, at most `want`. -/
def read (s : Source) (want : ℕ) : Bytes × Source :=
  let n := min (max (s.split s.reads) 1) want
  (s.rest.take n, { s with rest := s.rest.drop n, reads := s.reads + 1 })

def fill : ℕ → ℕ → Source → Option (Bytes × Source)
  | _, 0, s => some ([], s)
  | 0, _ + 1, _ => none
  | fuel + 1, need, s =>
    let (b, s) := s.read need
    if b = [] then none
    else do
      let (more, s) ← fill fuel (need - b.length) s
      pure (b ++ more, s)

/-- The header loop, then the payload loop; `none` when the stream is closed in one of them. Every
read returns a byte, so the fuel is enough. -/
def readFrame (s : Source) : Option (Frame × Source) := do
  let (header, s) ← s.fill 3 3
  let (ty, len) ← headerFields header
  if len = 0 then pure (⟨ty, []⟩, s)
  else
    let (payload, s) ← s.fill len len
    pure (⟨ty, payload⟩, s)

/-- So many calls of `read_frame`, all of which return a frame. -/
def readFrames : ℕ → Source → Option (List Frame × Source)
  | 0, s => some ([], s)
  | n + 1, s => do
    let (f, s) ← s.readFrame
    let (fs, s) ← s.readFrames n
    pure (f :: fs, s)

end Source

/-- The encoders, each with the results of the writes it makes. `pool_alloc` has a class for the frame: a
payload above 65533 bytes aborts in `armSessionFrame` before any write. -/
inductive Encoder
  | sendFrame (res : Except String ℕ)
  | writeFrameNow (res : Except String ℕ)
  | armSessionFrame (results : List (Except String ℕ))
deriving DecidableEq

/-- The writes of a session frame, each from where the one before it stopped; the first error closes
the session. -/
def sessionWrites (buf : Bytes) : ℕ → List (Except String ℕ) → Bytes
  | off, .ok n :: rs =>
    (buf.drop off).take n ++ if buf.length ≤ off + n then [] else sessionWrites buf (off + n) rs
  | _, _ => []

structure Call where
  encoder : Encoder
  ty : UInt8
  payload : Bytes
deriving DecidableEq

namespace Call

def frame (c : Call) : Frame := ⟨c.ty, c.payload⟩

def sent (c : Call) : Bytes :=
  match c.encoder with
  | .sendFrame (.ok n) => c.frame.bytes.take n
  | .writeFrameNow (.ok n) => c.frame.bytes.take n
  | .armSessionFrame results => sessionWrites c.frame.bytes 0 results
  | _ => []

/-- Only `send_frame` looks at what the write took. -/
def reportsError (c : Call) : Bool :=
  match c.encoder with
  | .sendFrame (.ok n) => (c.frame.bytes.take n).length != c.frame.bytes.length
  | .sendFrame (.error _) => true
  | _ => false

end Call

/-- A call that reports an error has sent nothing, and the reader gets the frames of the other calls
one by one, then the end of the stream. -/
def RoundTrips (calls : List Call) : Prop :=
  (∀ c ∈ calls, c.reportsError = true → c.sent = []) ∧
    ∀ split : ℕ → ℕ, ∃ s,
      Source.readFrames (calls.filter (!·.reportsError)).length
          ⟨calls.flatMap Call.sent, split, 0⟩ =
        some ((calls.filter (!·.reportsError)).map Call.frame, s) ∧ s.readFrame = none

def takenBy : List (Except String ℕ) → ℕ
  | .ok n :: rs => n + takenBy rs
  | _ => 0

def Encoder.taken : Encoder → ℕ
  | .sendFrame (.ok n) => n
  | .writeFrameNow (.ok n) => n
  | .armSessionFrame results => takenBy results
  | _ => 0

variable {s s' : Source} {f : Frame} {fs : List Frame} {c : Call} {calls : List Call}
  {b more : Bytes} {need n : ℕ}

theorem Frame.size_pos (f : Frame) : 0 < f.size := by
  unfold Frame.size
  omega

private theorem u16ToLe_u16FromLe (lo hi : UInt8) : u16ToLe (u16FromLe lo hi) = [lo, hi] := by
  have hlo := lo.toNat_lt
  have hhi := hi.toNat_lt
  have h1 : (lo.toNat + 256 * hi.toNat) % 256 = lo.toNat := by omega
  have h2 : (lo.toNat + 256 * hi.toNat) / 256 % 256 = hi.toNat := by omega
  rw [u16ToLe, u16FromLe, h1, h2, UInt8.ofNat_toNat, UInt8.ofNat_toNat]

/-- The header of a frame tells its type and, for a payload that fits, its length. -/
theorem headerFields_eq {ty : UInt8} {len : ℕ} (h : headerFields b = some (ty, len))
    (hb : b.length = 3) : b = ty :: u16ToLe len ∧ len ≤ 65535 := by
  match b, hb with
  | [t, lo, hi], _ =>
    obtain ⟨rfl, rfl⟩ : t = ty ∧ u16FromLe lo hi = len := by simpa [headerFields] using h
    have hlo := lo.toNat_lt
    have hhi := hi.toNat_lt
    constructor
    · rw [u16ToLe_u16FromLe]
    · unfold u16FromLe
      omega

namespace Source

/-- A read returns what it takes off the stream, and nothing only at the end. -/
theorem read_spec (s : Source) (hwant : 0 < need) :
    (s.read need).1 ++ (s.read need).2.rest = s.rest ∧ (s.read need).1.length ≤ need ∧
      ((s.read need).1 = [] → s.rest = []) := by
  unfold read
  refine ⟨List.take_append_drop _ _, ?_, ?_⟩
  · rw [List.length_take]
    omega
  · intro h
    have hn : min (max (s.split s.reads) 1) need ≠ 0 := by omega
    rcases List.take_eq_nil_iff.mp h with h | h
    · contradiction
    · exact h

/-- However the reads split, filling a buffer takes the next bytes of the stream. -/
theorem fill_some {fuel : ℕ} (hfuel : need ≤ fuel) (hrest : s.rest = b ++ more)
    (hb : b.length = need) : ∃ s', s.fill fuel need = some (b, s') ∧ s'.rest = more := by
  induction fuel generalizing s b need with
  | zero =>
    have hnil : b = [] := List.eq_nil_of_length_eq_zero (by omega)
    subst hnil
    subst hb
    exact ⟨s, by simp [fill], hrest⟩
  | succ fuel ih =>
    cases need with
    | zero =>
      have hnil : b = [] := List.eq_nil_of_length_eq_zero hb
      subst hnil
      exact ⟨s, by simp [fill], hrest⟩
    | succ need =>
      obtain ⟨hsplit, hle, hend⟩ := s.read_spec (Nat.succ_pos need)
      generalize hr : s.read (need + 1) = r at hsplit hle hend
      obtain ⟨got, left⟩ := r
      have hle : got.length ≤ need + 1 := hle
      have hgot : got ≠ [] := by
        intro h
        have hnil := hend h
        rw [hrest] at hnil
        rw [(List.append_eq_nil_iff.mp hnil).1] at hb
        contradiction
      have hpos : 0 < got.length := List.length_pos_iff.mpr hgot
      have hpre : b = got ++ b.drop got.length := by
        have htake : got = b.take got.length := by
          have h := congrArg (List.take got.length) (hsplit.trans hrest)
          rw [List.take_left' rfl, List.take_append_of_le_length (by simpa [hb] using hle)] at h
          exact h
        conv_lhs => rw [← List.take_append_drop got.length b, ← htake]
      have hleft : left.rest = b.drop got.length ++ more := by
        have h := hsplit.trans hrest
        rw [hpre, List.append_assoc] at h
        exact List.append_cancel_left h
      obtain ⟨s', hfill, hs'⟩ : ∃ s', left.fill fuel (need + 1 - got.length) =
          some (b.drop got.length, s') ∧ s'.rest = more :=
        ih (by omega) hleft (by rw [List.length_drop, hb])
      refine ⟨s', ?_, hs'⟩
      simp only [fill, hr, if_neg hgot, hfill, bind, Option.bind, pure]
      rw [← hpre]

theorem fill_cases {fuel : ℕ} (h : s.fill fuel need = some (b, s')) :
    s.rest = b ++ s'.rest ∧ b.length = need := by
  induction fuel generalizing s s' b need with
  | zero =>
    cases need with
    | zero =>
      obtain ⟨rfl, rfl⟩ : [] = b ∧ s = s' := by simpa [fill] using h
      exact ⟨rfl, rfl⟩
    | succ need => simp [fill] at h
  | succ fuel ih =>
    cases need with
    | zero =>
      obtain ⟨rfl, rfl⟩ : [] = b ∧ s = s' := by simpa [fill] using h
      exact ⟨rfl, rfl⟩
    | succ need =>
      obtain ⟨hsplit, hle, -⟩ := s.read_spec (Nat.succ_pos need)
      simp only [fill] at h
      split_ifs at h with hgot
      simp only [Option.bind_eq_bind, Option.bind_eq_some_iff] at h
      obtain ⟨⟨tail, s''⟩, hfill, heq⟩ := h
      obtain ⟨hrest, hlen⟩ := ih hfill
      have hrest : (s.read (need + 1)).2.rest = tail ++ s''.rest := hrest
      obtain ⟨rfl, rfl⟩ : (s.read (need + 1)).1 ++ tail = b ∧ s'' = s' := by simpa using heq
      constructor
      · rw [List.append_assoc, ← hrest, hsplit]
      · rw [List.length_append, hlen]
        exact Nat.add_sub_cancel' hle

/-- A frame whose length field is right is read as it was sent. -/
theorem readFrame_bytes (hlen : f.payload.length ≤ 65535) (hrest : s.rest = f.bytes ++ more) :
    ∃ s', s.readFrame = some (f, s') ∧ s'.rest = more := by
  obtain ⟨s₁, hhead, hs₁⟩ : ∃ s₁, s.fill 3 3 = some (f.ty :: u16ToLe f.payload.length, s₁) ∧
      s₁.rest = f.payload ++ more := by
    apply fill_some le_rfl
    · rw [hrest, Frame.bytes, buildFrame, List.append_assoc]
    · rfl
  have hfields : headerFields (f.ty :: u16ToLe f.payload.length) = some (f.ty, f.payload.length) :=
    congrArg (fun len => some (f.ty, len)) (u16FromLe_u16ToLe hlen)
  simp only [readFrame, hhead, hfields, Option.bind_eq_bind, Option.bind_some]
  split_ifs with hzero
  · have hnil : f.payload = [] := List.eq_nil_of_length_eq_zero hzero
    rw [hnil] at hs₁
    refine ⟨s₁, ?_, hs₁⟩
    rw [← hnil]
    rfl
  · obtain ⟨s₂, hfill, hs₂⟩ := fill_some (le_refl f.payload.length) hs₁ rfl
    refine ⟨s₂, ?_, hs₂⟩
    rw [hfill]
    rfl

/-- Whatever is read as a frame is the bytes of that frame, and its payload fits the length field. -/
theorem readFrame_cases (h : s.readFrame = some (f, s')) :
    s.rest = f.bytes ++ s'.rest ∧ f.payload.length ≤ 65535 := by
  simp only [readFrame, Option.bind_eq_bind, Option.bind_eq_some_iff] at h
  obtain ⟨⟨header, s₁⟩, hhead, ⟨ty, len⟩, hfields, h⟩ := h
  obtain ⟨hrest, hthree⟩ := fill_cases hhead
  have hfields : headerFields header = some (ty, len) := hfields
  obtain ⟨rfl, hlen⟩ := headerFields_eq hfields hthree
  split_ifs at h with hzero
  · obtain ⟨rfl, rfl⟩ : Frame.mk ty [] = f ∧ s₁ = s' := by simpa using h
    subst hzero
    exact ⟨hrest, hlen⟩
  · simp only [Option.bind_eq_some_iff] at h
    obtain ⟨⟨payload, s₂⟩, hfill, heq⟩ := h
    obtain ⟨hrest₁, hpayload⟩ := fill_cases hfill
    obtain ⟨rfl, rfl⟩ : Frame.mk ty payload = f ∧ s₂ = s' := by simpa using heq
    have hpayload : payload.length = len := hpayload
    constructor
    · rw [hrest, hrest₁, Frame.bytes, buildFrame, hpayload, List.append_assoc]
    · change payload.length ≤ 65535
      omega

private theorem readFrame_closed (h : s.rest = []) : s.readFrame = none := by
  simp [readFrame, fill, read, h]

private theorem readFrames_bytes (hlen : ∀ f ∈ fs, f.payload.length ≤ 65535)
    (hrest : s.rest = fs.flatMap Frame.bytes ++ more) :
    ∃ s', s.readFrames fs.length = some (fs, s') ∧ s'.rest = more := by
  induction fs generalizing s with
  | nil => exact ⟨s, rfl, hrest⟩
  | cons f fs ih =>
    rw [List.flatMap_cons, List.append_assoc] at hrest
    obtain ⟨s₁, hread, hs₁⟩ := readFrame_bytes (hlen f List.mem_cons_self) hrest
    obtain ⟨s₂, hreads, hs₂⟩ := ih (fun g hg => hlen g (List.mem_cons_of_mem _ hg)) hs₁
    refine ⟨s₂, ?_, hs₂⟩
    simp [readFrames, hread, hreads]

private theorem readFrames_cases (h : s.readFrames n = some (fs, s')) :
    s.rest = fs.flatMap Frame.bytes ++ s'.rest ∧ ∀ f ∈ fs, f.payload.length ≤ 65535 := by
  induction n generalizing s s' fs with
  | zero =>
    obtain ⟨rfl, rfl⟩ : [] = fs ∧ s = s' := by simpa [readFrames] using h
    exact ⟨rfl, by simp⟩
  | succ n ih =>
    simp only [readFrames, Option.bind_eq_bind, Option.bind_eq_some_iff] at h
    obtain ⟨⟨f, s₁⟩, hread, ⟨gs, s₂⟩, hreads, heq⟩ := h
    obtain ⟨hrest, hlen⟩ := readFrame_cases hread
    obtain ⟨hrest₁, hlens⟩ := ih hreads
    obtain ⟨rfl, rfl⟩ : f :: gs = fs ∧ s₂ = s' := by simpa using heq
    constructor
    · rw [hrest, hrest₁, List.flatMap_cons, List.append_assoc]
    · intro g hg
      rcases List.mem_cons.mp hg with rfl | hg
      · exact hlen
      · exact hlens g hg

end Source

private theorem sessionWrites_eq (buf : Bytes) (off : ℕ) (rs : List (Except String ℕ)) :
    sessionWrites buf off rs = (buf.drop off).take (takenBy rs) := by
  induction rs generalizing off with
  | nil => rfl
  | cons r rs ih =>
    cases r with
    | error e => rfl
    | ok n =>
      rw [sessionWrites, takenBy, List.take_add, List.drop_drop]
      congr 1
      split_ifs with hend
      · rw [List.drop_of_length_le hend, List.take_nil]
      · exact ih (off + n)

namespace Call

/-- Every encoder puts a prefix of the frame on the stream. -/
theorem sent_eq (c : Call) : c.sent = c.frame.bytes.take c.encoder.taken := by
  unfold sent
  match c.encoder with
  | .sendFrame (.ok n) => rfl
  | .sendFrame (.error e) => rfl
  | .writeFrameNow (.ok n) => rfl
  | .writeFrameNow (.error e) => rfl
  | .armSessionFrame results => exact sessionWrites_eq _ 0 results

theorem length_sent (c : Call) : c.sent.length = min c.encoder.taken c.frame.size := by
  rw [sent_eq, List.length_take, Frame.length_bytes]

theorem reportsError_iff (c : Call) :
    c.reportsError = true ↔
      (∃ res, c.encoder = .sendFrame res) ∧ c.encoder.taken < c.frame.size := by
  have hsize : c.frame.bytes.length = c.frame.size := c.frame.length_bytes
  have hpos : 0 < c.frame.size := c.frame.size_pos
  unfold reportsError
  match c.encoder with
  | .sendFrame (.ok n) =>
    simp only [bne_iff_ne, List.length_take, hsize]
    constructor
    · intro h
      refine ⟨⟨_, rfl⟩, ?_⟩
      change n < c.frame.size
      omega
    · rintro ⟨-, h⟩
      have h : n < c.frame.size := h
      omega
  | .sendFrame (.error e) => exact ⟨fun _ => ⟨⟨_, rfl⟩, hpos⟩, fun _ => rfl⟩
  | .writeFrameNow _ => simp
  | .armSessionFrame _ => simp

end Call

def delivered (calls : List Call) : List Frame :=
  (calls.filter (!·.reportsError)).map Call.frame

theorem delivered_cons_failed (h : c.reportsError = true) :
    delivered (c :: calls) = delivered calls := by
  simp [delivered, h]

theorem delivered_cons (h : c.reportsError = false) :
    delivered (c :: calls) = c.frame :: delivered calls := by
  simp [delivered, h]

/-- The stream is at most as long as the frames to be read from it, and as long only if every one of
them is there whole. -/
theorem length_sent_le (hfail : ∀ c ∈ calls, c.reportsError = true → c.sent = []) :
    (calls.flatMap Call.sent).length ≤ ((delivered calls).flatMap Frame.bytes).length ∧
      (((delivered calls).flatMap Frame.bytes).length ≤ (calls.flatMap Call.sent).length →
        ∀ c ∈ calls, c.reportsError = false → c.frame.size ≤ c.encoder.taken) := by
  induction calls with
  | nil => simp [delivered]
  | cons c calls ih =>
    obtain ⟨hle, hwhole⟩ := ih fun d hd => hfail d (List.mem_cons_of_mem _ hd)
    rw [List.flatMap_cons, List.length_append]
    cases herr : c.reportsError with
    | true =>
      rw [delivered_cons_failed herr, hfail c List.mem_cons_self herr]
      constructor
      · simpa using hle
      · intro htotal d hd hok
        rcases List.mem_cons.mp hd with rfl | hd
        · rw [herr] at hok
          contradiction
        · exact hwhole (by simpa using htotal) d hd hok
    | false =>
      rw [delivered_cons herr, List.flatMap_cons, List.length_append, Frame.length_bytes,
        c.length_sent]
      constructor
      · omega
      · intro htotal d hd hok
        rcases List.mem_cons.mp hd with rfl | hd
        · omega
        · exact hwhole (by omega) d hd hok

/-- Calls that send all or nothing put the delivered frames on the stream. -/
theorem flatMap_sent (hfail : ∀ c ∈ calls, c.reportsError = true → c.sent = [])
    (hok : ∀ c ∈ calls, c.reportsError = false → c.sent = c.frame.bytes) :
    calls.flatMap Call.sent = (delivered calls).flatMap Frame.bytes := by
  induction calls with
  | nil => rfl
  | cons c calls ih =>
    have htail := ih (fun d hd => hfail d (List.mem_cons_of_mem _ hd))
      (fun d hd => hok d (List.mem_cons_of_mem _ hd))
    rw [List.flatMap_cons, htail]
    cases herr : c.reportsError with
    | true => rw [delivered_cons_failed herr, hfail c List.mem_cons_self herr, List.nil_append]
    | false =>
      rw [delivered_cons herr, hok c List.mem_cons_self herr, List.flatMap_cons]

theorem RoundTrips.whole (h : RoundTrips calls) (hc : c ∈ calls) :
    ((∃ res, c.encoder = .sendFrame res) ∧ c.encoder.taken = 0) ∨
      (c.payload.length ≤ 65535 ∧ c.frame.size ≤ c.encoder.taken) := by
  obtain ⟨hfail, hread⟩ := h
  cases herr : c.reportsError with
  | true =>
    left
    obtain ⟨hsend, hless⟩ := c.reportsError_iff.mp herr
    have hnone : c.sent.length = 0 := by
      rw [hfail c hc herr]
      rfl
    rw [c.length_sent] at hnone
    exact ⟨hsend, by omega⟩
  | false =>
    right
    obtain ⟨s, hreads, -⟩ := hread fun _ => 0
    obtain ⟨hstream, hlen⟩ := Source.readFrames_cases hreads
    have htotal := congrArg List.length hstream
    rw [List.length_append] at htotal
    have hmem : c.frame ∈ (calls.filter (!·.reportsError)).map Call.frame := by
      apply List.mem_map_of_mem
      rw [List.mem_filter, herr]
      exact ⟨hc, rfl⟩
    refine ⟨hlen _ hmem, (length_sent_le hfail).2 ?_ c hc herr⟩
    exact le_of_le_of_eq (Nat.le_add_right _ _) htotal.symm

/-- The frames sent are read back, or a call reports an error and sends nothing, if and only if every
call either sends its whole frame with a payload that the length field can count or is a `send_frame`
whose write takes nothing. -/
theorem frames_round_trip_iff (calls : List Call) :
    RoundTrips calls ↔ ∀ c ∈ calls,
      ((∃ res, c.encoder = .sendFrame res) ∧ c.encoder.taken = 0) ∨
        (c.payload.length ≤ 65535 ∧ c.frame.size ≤ c.encoder.taken) := by
  constructor
  · intro h c hc
    exact h.whole hc
  · intro h
    have hfail : ∀ c ∈ calls, c.reportsError = true → c.sent = [] := by
      intro c hc herr
      obtain ⟨-, hless⟩ := c.reportsError_iff.mp herr
      apply List.eq_nil_of_length_eq_zero
      rw [c.length_sent]
      rcases h c hc with ⟨-, hnone⟩ | ⟨-, hwhole⟩
      · omega
      · omega
    have hok : ∀ c ∈ calls, c.reportsError = false →
        c.payload.length ≤ 65535 ∧ c.sent = c.frame.bytes := by
      intro c hc herr
      have hsize : 0 < c.frame.size := c.frame.size_pos
      rcases h c hc with ⟨hsend, hnone⟩ | ⟨hlen, hwhole⟩
      · have herr' := c.reportsError_iff.mpr ⟨hsend, by omega⟩
        rw [herr] at herr'
        contradiction
      · refine ⟨hlen, ?_⟩
        rw [c.sent_eq, List.take_of_length_le (by rw [Frame.length_bytes]; exact hwhole)]
    refine ⟨hfail, fun split => ?_⟩
    have hstream : calls.flatMap Call.sent = (delivered calls).flatMap Frame.bytes ++ [] := by
      rw [List.append_nil]
      exact flatMap_sent hfail fun c hc herr => (hok c hc herr).2
    have hlen : ∀ f ∈ delivered calls, f.payload.length ≤ 65535 := by
      intro f hf
      obtain ⟨c, hc, rfl⟩ := List.mem_map.mp hf
      rw [List.mem_filter] at hc
      exact (hok c hc.1 (by simpa using hc.2)).1
    obtain ⟨s, hreads, hend⟩ := Source.readFrames_bytes hlen
      (show (Source.mk (calls.flatMap Call.sent) split 0).rest = _ from hstream)
    refine ⟨s, ?_, Source.readFrame_closed hend⟩
    rw [delivered, List.length_map] at hreads
    exact hreads

/-- A request of 65536 bytes is sent whole and without an error, and the daemon's side reads an empty
one. -/
theorem long_payload_truncated :
    ¬ RoundTrips [⟨.sendFrame (.ok 65539), 0x00, List.replicate 65536 32⟩] := by
  intro h
  have hwhole := h.whole List.mem_cons_self
  have hlen : (List.replicate 65536 (32 : UInt8)).length = 65536 := List.length_replicate
  rcases hwhole with ⟨-, hnone⟩ | ⟨hshort, -⟩
  · have hnone : (65539 : ℕ) = 0 := hnone
    omega
  · have hshort : (List.replicate 65536 (32 : UInt8)).length ≤ 65535 := hshort
    omega

end Conrt.Daemon
