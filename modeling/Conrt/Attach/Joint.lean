import Conrt.Attach.Sending
import Conrt.Daemon.Decode

/-! The client and the daemon's read loop on one stream. -/
namespace Conrt.Attach

open Conrt.Base
open Conrt.Daemon (Bytes Frame Reading ReadLoop headerFields u16ToLe utf8)

/-- The bytes that a read loop has and has not dispatched. -/
def held : Option Reading → Bytes
  | some (.header acc) => acc
  | some (.payload ty acc need) => ty :: u16ToLe need ++ acc
  | none => []

/-- It goes on only while something is missing, or after a header that announces no payload. -/
def Wants : Reading → Prop
  | .header acc => acc.length < 3
  | .payload _ acc need => need ≤ 65535 ∧ (acc.length < need ∨ need = 0 ∧ acc = [])

/-- The read stops where the header ends. -/
def Stops (k : ℕ) : Option Reading → Prop
  | some (.header acc) => acc.length + k ≤ 3
  | _ => True

instance {k : ℕ} : (r : Option Reading) → Decidable (Stops k r)
  | some (.header acc) => inferInstanceAs (Decidable (acc.length + k ≤ 3))
  | some (.payload ..) | none => .isTrue trivial

variable {σ : Type}

structure Joint (σ : Type) where
  client : Client
  daemon : ReadLoop σ

namespace Joint

/-- A step of the client, or a read of the daemon that returns so many bytes. -/
inductive Event
  | client (e : Attach.Event)
  | read (k : ℕ)

def start (s : σ) : Joint σ := ⟨.start, .start s []⟩

/-- What the client sends can be read from then on. -/
def step (codec : Codec) (args : Args) (dispatch : σ → Frame → σ × Bool) (j : Joint σ) :
    Event → Option (Joint σ)
  | .client e =>
    (j.client.step codec args e).map fun c =>
      ⟨c, { j.daemon with rest := j.daemon.rest ++ c.sent.drop j.client.sent.length }⟩
  | .read k => (j.daemon.step dispatch k).map (⟨j.client, ·⟩)

/-- No frame of the size is cut, and no read goes past a header. -/
def Fine (j : Joint σ) : Event → Prop
  | .client e => j.client.cuts e = false
  | .read k => Stops k j.daemon.reading

instance {j : Joint σ} : (e : Event) → Decidable (j.Fine e)
  | .client e => inferInstanceAs (Decidable (j.client.cuts e = false))
  | .read k => inferInstanceAs (Decidable (Stops k j.daemon.reading))

def dispatched (j : Joint σ) : List Frame := j.daemon.log.map Prod.fst

end Joint

/-- What `serde_json` writes is not empty, and what is sent fits in a frame. -/
structure Sound (codec : Codec) (args : Args) : Prop where
  request : args.request ≠ [] ∧ args.request.length ≤ 65535
  winSize : ∀ rows cols, codec.winSize rows cols ≠ [] ∧ (codec.winSize rows cols).length ≤ 65535

section

variable {codec : Codec} {args : Args} {dispatch : σ → Frame → σ × Bool} {s : σ} {j j' : Joint σ}
  {f : Frame} {fs : List Frame} {m : Main} {r r' : Reading} {b : Bytes} {k : ℕ}

theorem Carried.filled (hs : Sound codec args) (h : Carried codec f) :
    f.ty ≠ 0x11 ∧ f.payload ≠ [] ∧ Fits f := by
  rcases h with ⟨hty, hne, hlen⟩ | ⟨hty, rows, cols, hp⟩
  · exact ⟨by rw [hty]; decide, hne, hlen.trans (by decide)⟩
  · obtain ⟨hne, hlen⟩ := hs.winSize rows cols
    refine ⟨by rw [hty]; decide, hp ▸ hne, ?_⟩
    unfold Fits
    rw [hp]
    exact hlen

/-- All frames but the end of stdin, which is the last, have a payload. -/
theorem Shape.filled (hs : Sound codec args) (h : Shape codec args m fs) :
    (∀ f ∈ fs, Fits f ∧ (f.ty = 0x11 → f.payload = []) ∧ (f.payload = [] → f = ⟨0x11, []⟩)) ∧
      ∀ f ∈ fs.dropLast, f.payload ≠ [] := by
  have hreq : ∀ body : List Frame, (∀ f ∈ body, Carried codec f) →
      ∀ f ∈ (⟨0x00, args.request⟩ :: body : List Frame), f.ty ≠ 0x11 ∧ f.payload ≠ [] ∧ Fits f := by
    intro body hbody f hf
    rcases List.mem_cons.mp hf with rfl | hf
    · exact ⟨(by decide : (0x00 : UInt8) ≠ 0x11), hs.request⟩
    · exact (hbody f hf).filled hs
  cases h with
  | silent => simp
  | talking _ hbody =>
    constructor
    · intro f hf
      obtain ⟨hty, hne, hfits⟩ := hreq _ hbody f hf
      exact ⟨hfits, fun h => absurd h hty, fun h => absurd h hne⟩
    · exact fun f hf => (hreq _ hbody f (List.dropLast_subset _ hf)).2.1
  | ended hbody =>
    constructor
    · intro f hf
      rcases List.mem_append.mp hf with hf | hf
      · obtain ⟨hty, hne, hfits⟩ := hreq _ hbody f hf
        exact ⟨hfits, fun h => absurd h hty, fun h => absurd h hne⟩
      · obtain rfl := List.mem_singleton.mp hf
        exact ⟨Nat.zero_le _, fun _ => rfl, fun _ => rfl⟩
    · rw [List.dropLast_concat]
      exact fun f hf => (hreq _ hbody f hf).2.1

/-- A frame whose payload is still missing, if it has one. -/
def Awaits : Reading → Prop
  | .header _ => True
  | .payload _ acc need => acc.length < need

theorem feed_inl (h : Wants r) (hstops : Stops b.length (some r)) (hf : r.feed b = .inl r') :
    held (some r') = held (some r) ++ b ∧ Wants r' := by
  cases r with
  | header acc =>
    have hle : acc.length + b.length ≤ 3 := hstops
    cases hh : headerFields (acc ++ b) with
    | none =>
      simp only [Reading.feed, hh] at hf
      obtain rfl := Sum.inl.inj hf
      exact ⟨rfl, headerFields_long hh⟩
    | some p =>
      obtain ⟨ty, len⟩ := p
      simp only [Reading.feed, hh] at hf
      obtain rfl := Sum.inl.inj hf
      obtain ⟨hbytes, hlen⟩ := FrameReader.header_exact h (by omega) hh
      refine ⟨?_, hlen, ?_⟩
      · change ty :: u16ToLe len ++ [] = acc ++ b
        rw [List.append_nil, hbytes]
      · rcases Nat.eq_zero_or_pos len with hzero | hpos
        · exact .inr ⟨hzero, rfl⟩
        · exact .inl hpos
  | payload ty acc need =>
    simp only [Reading.feed] at hf
    split_ifs at hf with hlt
    obtain rfl := Sum.inl.inj hf
    exact ⟨(List.append_assoc _ _ _).symm, h.1, .inl hlt⟩

theorem feed_inr (h : Wants r) (ha : Awaits r) (hb : b.length ≤ r.want) (hf : r.feed b = .inr f) :
    f.bytes = held (some r) ++ b ∧ Fits f ∧ f.payload ≠ [] := by
  cases r with
  | header acc =>
    simp only [Reading.feed] at hf
    split at hf <;> cases hf
  | payload ty acc need =>
    have hneed : need ≤ 65535 := h.1
    have hacc : acc.length < need := ha
    have hb : b.length ≤ max (need - acc.length) 1 := hb
    simp only [Reading.feed] at hf
    split_ifs at hf with hlt
    obtain rfl := Sum.inr.inj hf
    have hlen : (acc ++ b).length = need := by
      rw [List.length_append] at hlt ⊢
      omega
    refine ⟨?_, hlen.le.trans hneed, ?_⟩
    · rw [header_bytes]
      change ty :: u16ToLe (acc ++ b).length ++ (acc ++ b) = ty :: u16ToLe need ++ acc ++ b
      rw [hlen, List.append_assoc]
    · change acc ++ b ≠ []
      rw [← List.length_pos_iff]
      omega

/-- Every byte sent is in a dispatched frame, with the read loop or still to be read. -/
structure Follows (codec : Codec) (args : Args) (j : Joint σ) : Prop where
  sends : Sends codec args j.client
  bytes : j.client.sent = j.dispatched.flatMap Frame.bytes ++ (held j.daemon.reading ++ j.daemon.rest)
  filled : ∀ f ∈ j.dispatched, Fits f ∧ f.payload ≠ []
  wants : ∀ r, j.daemon.reading = some r → Wants r

namespace Follows

/-- The frames that are still to be dispatched. -/
theorem ahead (hs : Sound codec args) (h : Follows codec args j) : ∃ more,
    j.client.frames = j.dispatched ++ more ∧ held j.daemon.reading ++ j.daemon.rest <+: more.flatMap Frame.bytes := by
  refine frames_code.split (fun f hf => (h.filled f hf).1) (fun f hf => ?_) (h.bytes ▸ h.sends.sent)
  exact ((h.sends.shape.filled hs).1 f hf).1

/-- A header that announces no payload is the end of stdin: nothing comes after it. -/
theorem empty_last (hs : Sound codec args) (h : Follows codec args j) {ty : UInt8}
    (hr : j.daemon.reading = some (.payload ty [] 0)) :
    j.client.frames = j.dispatched ++ [⟨0x11, []⟩] ∧ ty = 0x11 ∧ j.daemon.rest = [] := by
  obtain ⟨more, hmore, hp⟩ := h.ahead hs
  obtain ⟨hall, hbefore⟩ := h.sends.shape.filled hs
  rw [hr] at hp
  cases more with
  | nil => simp [held] at hp
  | cons f more =>
    have hf : f ∈ j.client.frames := by simp [hmore]
    rw [List.flatMap_cons] at hp
    have hp : (ty :: u16ToLe 0) ++ j.daemon.rest <+: f.bytes ++ more.flatMap Frame.bytes := by
      simpa [held] using hp
    obtain ⟨hty, hlen, hrest⟩ := of_header (Nat.zero_le _) (hall f hf).1 hp
    have hnil := List.length_eq_zero_iff.mp hlen
    obtain rfl := (hall f hf).2.2 hnil
    cases more with
    | nil =>
      refine ⟨hmore, hty.symm, ?_⟩
      simpa using hrest
    | cons g more =>
      refine absurd hnil (hbefore _ ?_)
      rw [hmore]
      simp

theorem client (h : Follows codec args j) {e : Attach.Event} {c : Client}
    (hcut : j.client.cuts e = false) (hst : j.client.step codec args e = some c) :
    Follows codec args
      ⟨c, { j.daemon with rest := j.daemon.rest ++ c.sent.drop j.client.sent.length }⟩ := by
  constructor
  case sends => exact h.sends.step hcut hst
  case bytes =>
    obtain ⟨more, hmore⟩ := sent_step hst
    have hbytes := h.bytes
    change c.sent = j.dispatched.flatMap Frame.bytes ++
      (held j.daemon.reading ++ (j.daemon.rest ++ c.sent.drop j.client.sent.length))
    rw [← hmore, List.drop_left, ← List.append_assoc (held _), ← List.append_assoc, ← hbytes]
  case filled => exact h.filled
  case wants => exact h.wants

private theorem awaits (hs : Sound codec args) (h : Follows codec args j) (hr : j.daemon.reading = some r)
    (hrest : j.daemon.rest ≠ []) : Awaits r := by
  have hw := h.wants r hr
  cases r with
  | header => trivial
  | payload ty acc need =>
    rcases hw.2 with hlt | ⟨rfl, rfl⟩
    · exact hlt
    · exact absurd (h.empty_last hs hr).2.2 hrest

theorem read (hs : Sound codec args) (h : Follows codec args j) {l : ReadLoop σ}
    (hstops : Stops k j.daemon.reading) (hst : j.daemon.step dispatch k = some l) :
    Follows codec args ⟨j.client, l⟩ := by
  obtain ⟨r, hr, hk, hwant, hlen, hstep⟩ := ReadLoop.step_cases hst
  have hrest : j.daemon.rest ≠ [] := by
    rw [← List.length_pos_iff]
    omega
  have hblen : (j.daemon.rest.take k).length = k := List.length_take_of_le hlen
  have hbytes := h.bytes
  rw [hr, ← List.take_append_drop k j.daemon.rest] at hbytes
  rcases hstep with ⟨r', hfeed, rfl⟩ | ⟨f, hfeed, rfl⟩
  · rw [hr] at hstops
    obtain ⟨hheld, hw⟩ := feed_inl (h.wants r hr) (hblen.symm ▸ hstops) hfeed
    constructor
    case sends => exact h.sends
    case bytes =>
      change j.client.sent = j.dispatched.flatMap Frame.bytes ++ (held (some r') ++ j.daemon.rest.drop k)
      rw [hheld, List.append_assoc (held _)]
      exact hbytes
    case filled => exact h.filled
    case wants =>
      intro r hr
      obtain rfl := Option.some.inj hr
      exact hw
  · obtain ⟨hf, hfits, hne⟩ := feed_inr (h.wants r hr) (h.awaits hs hr hrest) (hblen.symm ▸ hwant) hfeed
    constructor
    case sends => exact h.sends
    case bytes =>
      have hnone : held (if (dispatch j.daemon.state f).2 then some (.header []) else none) = [] := by
        split_ifs <;> rfl
      simp only [Joint.dispatched, List.map_append, List.map_singleton, List.flatMap_append,
        List.flatMap_singleton, hf, hnone, List.nil_append]
      rw [hbytes]
      simp [Joint.dispatched]
    case filled =>
      intro g hg
      simp only [Joint.dispatched, List.map_append, List.map_singleton, List.mem_append,
        List.mem_singleton] at hg
      rcases hg with hg | rfl
      · exact h.filled g hg
      · exact ⟨hfits, hne⟩
    case wants =>
      intro r hr
      dsimp only at hr
      split_ifs at hr
      obtain rfl := Option.some.inj hr
      exact Nat.zero_lt_succ 2

theorem step (hs : Sound codec args) (h : Follows codec args j) {e : Joint.Event} (hfine : j.Fine e)
    (hst : j.step codec args dispatch e = some j') : Follows codec args j' := by
  cases e with
  | client e =>
    obtain ⟨c, hc, rfl⟩ := Option.map_eq_some_iff.mp hst
    exact h.client hfine hc
  | read k =>
    obtain ⟨l, hl, rfl⟩ := Option.map_eq_some_iff.mp hst
    exact h.read hs hfine hl

theorem start : Follows codec args (Joint.start s) where
  sends := sends_start
  bytes := rfl
  filled := by simp [Joint.dispatched, Joint.start, ReadLoop.start]
  wants := by
    intro r hr
    obtain rfl := Option.some.inj hr
    exact Nat.zero_lt_succ 2

end Follows

/-- A read loop has no whole frame in hand, unless it announces no payload. -/
theorem held_whole (h : Wants r) (hf : Fits f) {y : Bytes} (hheld : held (some r) = f.bytes ++ y) :
    ∃ ty, r = .payload ty [] 0 := by
  have hsize : 3 + f.payload.length ≤ (held (some r)).length := by
    rw [hheld, List.length_append, Frame.length_bytes]
    exact Nat.le_add_right _ _
  cases r with
  | header acc =>
    have hacc : acc.length < 3 := h
    change 3 + f.payload.length ≤ acc.length at hsize
    omega
  | payload ty acc need =>
    have hp : (ty :: u16ToLe need) ++ acc <+: f.bytes ++ y := hheld ▸ List.prefix_rfl
    obtain ⟨-, hlen, -⟩ := of_header h.1 hf hp
    have hheld : (held (some (.payload ty acc need))).length = 3 + acc.length := by
      simp [held, u16ToLe]
      omega
    rcases h.2 with hlt | ⟨rfl, rfl⟩
    · omega
    · exact ⟨ty, rfl⟩

/-- Once everything has been read, at most the end of stdin has not been dispatched. -/
theorem Follows.read_up (hs : Sound codec args) (h : Follows codec args j)
    (hwhole : j.client.sent = j.client.frames.flatMap Frame.bytes) (hrest : j.daemon.rest = [])
    (hopen : j.daemon.reading = some r) :
    j.client.frames = j.dispatched ∨
      j.client.frames = j.dispatched ++ [⟨0x11, []⟩] ∧ r = .payload 0x11 [] 0 := by
  obtain ⟨more, hmore, -⟩ := h.ahead hs
  have hbytes := h.bytes
  rw [hwhole, hmore, List.flatMap_append, hrest, List.append_nil, hopen] at hbytes
  have hheld := List.append_cancel_left hbytes
  cases more with
  | nil => exact .inl (by rw [hmore, List.append_nil])
  | cons f more =>
    have hf : f ∈ j.client.frames := by simp [hmore]
    obtain ⟨ty, rfl⟩ := held_whole (h.wants r hopen) ((h.sends.shape.filled hs).1 f hf).1 hheld.symm
    obtain ⟨hlast, rfl, -⟩ := h.empty_last hs hopen
    exact .inr ⟨hlast, rfl⟩

theorem follows (hs : Sound codec args)
    (h : Reaches (Joint.step codec args dispatch) Joint.Fine (Joint.start s) j) : Follows codec args j :=
  h.invariant .start fun _ _ _ hx hfine hst => hx.step hs hfine hst

/-- The daemon dispatches the frames the client sends, in order; of their payloads the stdin is the
client's; and while the client is in its loop none is held back once it has been read. -/
theorem run_dispatches (hs : Sound codec args)
    (h : Reaches (Joint.step codec args dispatch) Joint.Fine (Joint.start s) j) :
    j.dispatched <+: j.client.frames ∧ dataOf j.dispatched <+: j.client.typed ∧
      (j.client.left = false → j.daemon.rest = [] → j.daemon.reading ≠ none →
        j.dispatched = j.client.frames ∧ dataOf j.dispatched ++ j.client.main.unsent = j.client.typed) := by
  have hx := follows hs h
  obtain ⟨more, hmore, -⟩ := hx.ahead hs
  have hpre : j.dispatched <+: j.client.frames := ⟨more, hmore.symm⟩
  refine ⟨hpre, ?_, fun hleft hrest hopen => ?_⟩
  · have htyped := hx.sends.typed
    rw [hmore, dataOf_append] at htyped
    exact (List.prefix_append _ _).trans htyped
  · obtain ⟨r, hr⟩ := Option.ne_none_iff_exists'.mp hopen
    have hall : j.client.frames = j.dispatched := by
      rcases hx.read_up hs (hx.sends.whole hleft) hrest hr with hall | ⟨hall, -⟩
      · exact hall
      · have hj : j.client.main ≠ .joining := by
          intro hj
          simp [Client.left, hj] at hleft
        have hend : (⟨0x11, []⟩ : Frame) ∈ j.client.frames := by simp [hall]
        exact absurd rfl (hx.sends.shape.no_end hj _ hend)
    exact ⟨hall.symm, hall ▸ hx.sends.kept hleft⟩

/-- The end of stdin is never dispatched: when the client has sent it and everything has been read, the
daemon waits for one more byte. -/
theorem run_end_waits (hs : Sound codec args)
    (h : Reaches (Joint.step codec args dispatch) Joint.Fine (Joint.start s) j) :
    (∀ f ∈ j.dispatched, f.ty ≠ 0x11) ∧
      (⟨0x11, []⟩ ∈ j.client.frames → j.client.sent = j.client.frames.flatMap Frame.bytes →
        j.daemon.rest = [] → j.daemon.reading ≠ none →
          j.daemon.reading = some (.payload 0x11 [] 0) ∧ dataOf j.dispatched = j.client.typed) := by
  have hx := follows hs h
  have hnever : ∀ f ∈ j.dispatched, f.ty ≠ 0x11 := by
    intro f hf hty
    obtain ⟨more, hmore, -⟩ := hx.ahead hs
    have hframes : f ∈ j.client.frames := hmore ▸ List.mem_append_left _ hf
    exact (hx.filled f hf).2 (((hx.sends.shape.filled hs).1 f hframes).2.1 hty)
  refine ⟨hnever, fun hend hwhole hrest hopen => ?_⟩
  obtain ⟨r, hr⟩ := Option.ne_none_iff_exists'.mp hopen
  rcases hx.read_up hs hwhole hrest hr with hall | ⟨hall, rfl⟩
  · exact absurd rfl (hnever _ (hall ▸ hend))
  · refine ⟨hr, ?_⟩
    have hlast := hx.sends.last hend
    rwa [hall, dataOf_append, dataOf_other (by decide), List.append_nil] at hlast

end

theorem sampleSound : Sound sampleCodec sampleArgs where
  request := by decide +kernel
  winSize := by
    intro rows cols
    have hdigits : ∀ n : UInt16, (decimal n.toNat).length ≤ 5 := by
      intro n
      have hlt : n.toNat < 10 ^ 5 := n.toNat_lt.trans (by decide)
      have hlen := (Nat.length_toDigits_le_iff (b := 10) (by decide) (by decide)).mpr hlt
      rwa [decimal, List.length_map]
    have hcols : (utf8 "\x7b\"cols\":").length = 8 := by decide +kernel
    have hrows : (utf8 ",\"rows\":").length = 8 := by decide +kernel
    have hend : (utf8 "\x7d").length = 1 := by decide +kernel
    have hlen : (sampleCodec.winSize rows cols).length =
        8 + (decimal cols.toNat).length + 8 + (decimal rows.toNat).length + 1 := by
      simp only [sampleCodec, List.length_append, hcols, hrows, hend]
    have hc := hdigits cols
    have hr := hdigits rows
    constructor
    · rw [← List.length_pos_iff]
      omega
    · omega

/-- Four bytes of stdin, which the daemon reads in parts. -/
theorem run_dispatches_parts : ∃ j : Joint Unit, j.client.left = false ∧ j.daemon.rest = [] ∧
    j.dispatched = j.client.frames ∧ dataOf j.dispatched = [65, 66, 67, 68] := by
  obtain ⟨j₀, j, h₀, hr, ht⟩ := exists_of_executes
    (Joint.step sampleCodec sampleArgs fun s _ => (s, true)) Joint.Fine (some (Joint.start ()))
    (attached.map .client ++ [.read 1, .read 2, .read 20, .read 5] ++
      [.polled (.ok (true, false)), .stdin (.ok [65, 66, 67, 68]), .write (.ok 7)].map .client ++
        [.read 3, .read 3, .read 1])
    (fun _ j => decide (j.client.left = false ∧ j.daemon.rest = [] ∧ j.daemon.reading ≠ none ∧
      j.client.typed = [65, 66, 67, 68] ∧ j.client.main.unsent = [])) (by decide +kernel)
  obtain rfl := Option.some.inj h₀
  obtain ⟨hleft, hrest, hopen, htyped, hunsent⟩ := of_decide_eq_true ht
  obtain ⟨-, -, hall⟩ := run_dispatches sampleSound hr
  obtain ⟨hframes, hstdin⟩ := hall hleft hrest hopen
  rw [htyped, hunsent, List.append_nil] at hstdin
  exact ⟨j, hleft, hrest, hframes, hstdin⟩

/-- A byte of stdin and its end, of which the daemon has read everything. -/
theorem run_end_waits_read : ∃ j : Joint Unit, ⟨0x11, []⟩ ∈ j.client.frames ∧ j.daemon.rest = [] ∧
    j.daemon.reading = some (.payload 0x11 [] 0) ∧ dataOf j.dispatched = [65] := by
  obtain ⟨j₀, j, h₀, hr, ht⟩ := exists_of_executes
    (Joint.step sampleCodec sampleArgs fun s _ => (s, true)) Joint.Fine (some (Joint.start ()))
    (attached.map .client ++ [.read 3, .read 25] ++
      [.polled (.ok (true, false)), .stdin (.ok [65]), .write (.ok 4), .polled (.ok (true, false)),
        .stdin (.ok []), .write (.ok 3)].map .client ++ [.read 3, .read 1, .read 3])
    (fun _ j => decide (⟨0x11, []⟩ ∈ j.client.frames ∧
      j.client.sent = j.client.frames.flatMap Frame.bytes ∧ j.daemon.rest = [] ∧
        j.daemon.reading ≠ none ∧ j.client.typed = [65])) (by decide +kernel)
  obtain rfl := Option.some.inj h₀
  obtain ⟨hend, hwhole, hrest, hopen, htyped⟩ := of_decide_eq_true ht
  obtain ⟨-, hwaits⟩ := run_end_waits sampleSound hr
  obtain ⟨hreading, hstdin⟩ := hwaits hend hwhole hrest hopen
  exact ⟨j, hend, hrest, hreading, hstdin.trans htyped⟩

end Conrt.Attach
