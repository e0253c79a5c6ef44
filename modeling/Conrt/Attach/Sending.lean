import Conrt.Attach.Framing
import Conrt.Daemon.Session

/-! What the client sends: its request, then its stdin in whole frames, then the end of it. -/
namespace Conrt.Attach

open Conrt.Base
open Conrt.Daemon (Bytes Frame exitPayload runResponse utf8)

/-- A frame sent from the loop, other than the last. -/
def Carried (codec : Codec) (f : Frame) : Prop :=
  f.ty = 0x10 ∧ f.payload ≠ [] ∧ f.payload.length ≤ 4096 ∨
    f.ty = 0x20 ∧ ∃ rows cols, f.payload = codec.winSize rows cols

/-- The frames sent by the time the main thread is at `m`: the request comes first, and the end of stdin
is the last frame there is. -/
inductive Shape (codec : Codec) (args : Args) : Main → List Frame → Prop
  | silent {m : Main} : m = .request ∨ m = .failed → Shape codec args m []
  | talking {m : Main} {body : List Frame} : m ≠ .request → (∀ f ∈ body, Carried codec f) →
      Shape codec args m (⟨0x00, args.request⟩ :: body)
  | ended {body : List Frame} : (∀ f ∈ body, Carried codec f) →
      Shape codec args .joining (⟨0x00, args.request⟩ :: body ++ [⟨0x11, []⟩])

/-- What has been read from stdin and not been given to `send_frame`. -/
def Main.unsent : Main → Bytes
  | .data b => b
  | _ => []

/-- What is about to be sent from the loop is fit to be. -/
def Main.Ready (codec : Codec) : Main → Prop
  | .data b => b ≠ [] ∧ b.length ≤ 4096
  | .resize payload => ∃ rows cols, payload = codec.winSize rows cols
  | _ => True

/-- While the main thread is in its loop the stream consists of whole frames with all of stdin that was
read; afterwards the last frame may be cut. The end of stdin follows all of it. -/
structure Sends (codec : Codec) (args : Args) (c : Client) : Prop where
  sent : c.sent <+: c.frames.flatMap Frame.bytes
  whole : c.left = false → c.sent = c.frames.flatMap Frame.bytes
  shape : Shape codec args c.main c.frames
  typed : dataOf c.frames <+: c.typed
  kept : c.left = false → dataOf c.frames ++ c.main.unsent = c.typed
  last : ⟨0x11, []⟩ ∈ c.frames → dataOf c.frames = c.typed
  ready : c.main.Ready codec

/-- The reader thread leaves the main thread and what it sends alone. -/
structure Aside (c c' : Client) : Prop where
  main : c'.main = c.main
  typed : c'.typed = c.typed
  calls : c'.calls = c.calls

/-- The main thread goes on, without a frame or stdin. -/
structure Moves (codec : Codec) (c c' : Client) : Prop where
  old : c.main ≠ .request ∧ c.main ≠ .failed ∧ c.main ≠ .joining ∧ c.main.unsent = []
  new : c'.main ≠ .request ∧ c'.main.unsent = [] ∧ c'.main.Ready codec
  typed : c'.typed = c.typed
  calls : c'.calls = c.calls

section

variable {codec : Codec} {args : Args} {c c' : Client} {f : Frame} {fs gs : List Frame} {n : ℕ}
  {e : Event} {m m' : Main} {reader : FrameReader}

theorem dataOf_append : dataOf (fs ++ gs) = dataOf fs ++ dataOf gs := by
  simp [dataOf]

private theorem dataOf_data {b : Bytes} : dataOf [⟨0x10, b⟩] = b := by
  simp [dataOf]

theorem dataOf_other (h : f.ty ≠ 0x10) : dataOf [f] = [] := by
  simp [dataOf, h]

theorem Shape.other (h : Shape codec args m fs) (hm : m ≠ .request) (hf : m ≠ .failed)
    (hj : m ≠ .joining) (hm' : m' ≠ .request) : Shape codec args m' fs := by
  cases h with
  | silent h => exact absurd h (not_or.mpr ⟨hm, hf⟩)
  | talking _ hbody => exact .talking hm' hbody
  | ended => exact absurd rfl hj

theorem Shape.push (h : Shape codec args m fs) (hm : m ≠ .request) (hf : m ≠ .failed)
    (hj : m ≠ .joining) (hc : Carried codec f) (hm' : m' ≠ .request) :
    Shape codec args m' (fs ++ [f]) := by
  cases h with
  | silent h => exact absurd h (not_or.mpr ⟨hm, hf⟩)
  | talking _ hbody =>
    refine .talking hm' fun g hg => ?_
    rcases List.mem_append.mp hg with hg | hg
    · exact hbody g hg
    · exact List.mem_singleton.mp hg ▸ hc
  | ended => exact absurd rfl hj

/-- A client that is still sending has not sent the end of stdin. -/
theorem Shape.no_end (h : Shape codec args m fs) (hj : m ≠ .joining) (f : Frame)
    (hf : f ∈ fs) : f.ty ≠ 0x11 := by
  cases h with
  | silent => cases hf
  | talking _ hbody =>
    rcases List.mem_cons.mp hf with rfl | hf
    · exact (by decide : (0x00 : UInt8) ≠ 0x11)
    · rcases hbody f hf with ⟨hty, -⟩ | ⟨hty, -⟩ <;> rw [hty] <;> decide
  | ended => exact absurd rfl hj

theorem Shape.finish (h : Shape codec args .eof fs) : Shape codec args .joining (fs ++ [⟨0x11, []⟩]) := by
  cases h with
  | silent h => simp at h
  | talking _ hbody => exact .ended hbody

theorem Shape.nothing (h : Shape codec args .request fs) : fs = [] := by
  cases h with
  | silent => rfl
  | talking hm => exact absurd rfl hm

namespace Client

/-- One more call of `send_frame`. -/
def called (c : Client) (f : Frame) (n : ℕ) : Client := { c with calls := c.calls ++ [(f, n)] }

private theorem sent_called : (c.called f n).sent = c.sent ++ f.bytes.take n := by
  simp [sent, called]

theorem frames_called : (c.called f n).frames = c.frames ++ if 0 < n then [f] else [] := by
  unfold frames called
  rw [List.filter_append, List.map_append]
  by_cases hn : 0 < n <;> simp [hn]

theorem left_false (hj : c.main ≠ .joining) (hf : c.main ≠ .failed) : c.left = false := by
  simp [left, hj, hf]

end Client

namespace Sends

/-- Only the main thread, what it has read and what it has sent matter. -/
theorem congr (h : Sends codec args c) (ha : Aside c c') : Sends codec args c' := by
  have hsent : c'.sent = c.sent := by simp [Client.sent, ha.calls]
  have hframes : c'.frames = c.frames := by simp [Client.frames, ha.calls]
  have hleft : c'.left = c.left := by simp [Client.left, ha.main]
  constructor
  case sent => simpa only [hsent, hframes] using h.sent
  case whole => simpa only [hsent, hframes, hleft] using h.whole
  case shape => simpa only [ha.main, hframes] using h.shape
  case typed => simpa only [ha.typed, hframes] using h.typed
  case kept => simpa only [ha.main, ha.typed, hframes, hleft] using h.kept
  case last => simpa only [ha.typed, hframes] using h.last
  case ready => simpa only [ha.main] using h.ready

theorem move (h : Sends codec args c) (hmoves : Moves codec c c') : Sends codec args c' := by
  obtain ⟨hq, hf, hj, hu⟩ := hmoves.old
  obtain ⟨hm, hu', hr⟩ := hmoves.new
  have hsent : c'.sent = c.sent := by simp [Client.sent, hmoves.calls]
  have hframes : c'.frames = c.frames := by simp [Client.frames, hmoves.calls]
  have hleft := Client.left_false hj hf
  constructor
  case sent => simpa only [hsent, hframes] using h.sent
  case whole =>
    intro _
    rw [hsent, hframes]
    exact h.whole hleft
  case shape =>
    rw [hframes]
    exact h.shape.other hq hf hj hm
  case typed => simpa only [hmoves.typed, hframes] using h.typed
  case kept =>
    intro _
    rw [hframes, hmoves.typed, hu', ← hu]
    exact h.kept hleft
  case last => simpa only [hmoves.typed, hframes] using h.last
  case ready => exact hr

/-- A read from stdin, which is sent next. -/
theorem data (h : Sends codec args c) (hm : c.main = .read) {b : Bytes} (hb : b ≠ [])
    (hlen : b.length ≤ 4096) : Sends codec args { c with main := .data b, typed := c.typed ++ b } := by
  have hleft : c.left = false := by simp [Client.left, hm]
  have hshape := h.shape
  rw [hm] at hshape
  have hall : dataOf c.frames = c.typed := by
    have hkept := h.kept hleft
    rw [hm] at hkept
    simpa [Main.unsent] using hkept
  constructor
  case sent => exact h.sent
  case whole => exact fun _ => h.whole hleft
  case shape => exact hshape.other (by simp) (by simp) (by simp) (by simp)
  case typed => exact h.typed.trans (List.prefix_append _ _)
  case kept =>
    intro _
    change dataOf c.frames ++ b = c.typed ++ b
    rw [hall]
  case last => exact fun hend => absurd rfl (hshape.no_end (by simp) _ hend)
  case ready => exact ⟨hb, hlen⟩

/-- After a call of `send_frame` the stream is still within whole frames, and it is whole unless the
frame was cut. -/
theorem stream_called (h : Sends codec args c) (hleft : c.left = false) :
    (c.called f n).sent <+: (c.called f n).frames.flatMap Frame.bytes ∧
      (n = 0 ∨ n = f.bytes.length →
        (c.called f n).sent = (c.called f n).frames.flatMap Frame.bytes) := by
  have hwhole := h.whole hleft
  rw [Client.sent_called, Client.frames_called, hwhole]
  by_cases hn : 0 < n
  · simp only [if_pos hn, List.flatMap_append, List.flatMap_singleton]
    refine ⟨(List.prefix_append_right_inj _).mpr (List.take_prefix _ _), ?_⟩
    rintro (rfl | rfl)
    · exact absurd hn (lt_irrefl 0)
    · rw [List.take_length]
  · obtain rfl : n = 0 := by omega
    simp

/-- A frame that is not the first or the last: the loop is left if it is a cut one of stdin. -/
theorem carry (h : Sends codec args c) (hq : c.main ≠ .request) (hf : c.main ≠ .failed)
    (hj : c.main ≠ .joining) (hc : Carried codec f) (hu : dataOf [f] = c.main.unsent)
    (hm : m = .poll ∧ (n = 0 ∧ c.main.unsent = [] ∨ n = f.bytes.length) ∨ m = .joining) :
    Sends codec args { c.called f n with main := m } := by
  have hleft := Client.left_false hj hf
  obtain ⟨hpart, hwhole⟩ := h.stream_called hleft
  have hkept := h.kept hleft
  have hframes := c.frames_called (f := f) (n := n)
  have hty : f.ty ≠ 0x11 := by
    rcases hc with ⟨hty, -⟩ | ⟨hty, -⟩ <;> rw [hty] <;> decide
  constructor
  case sent => exact hpart
  case whole =>
    intro hl
    rcases hm with ⟨-, ⟨hn, -⟩ | hn⟩ | rfl
    · exact hwhole (.inl hn)
    · exact hwhole (.inr hn)
    · simp [Client.left] at hl
  case shape =>
    have hm' : m ≠ .request := by
      rcases hm with ⟨rfl, -⟩ | rfl <;> simp
    change Shape codec args m (c.called f n).frames
    rw [hframes]
    split_ifs
    · exact h.shape.push hq hf hj hc hm'
    · rw [List.append_nil]
      exact h.shape.other hq hf hj hm'
  case typed =>
    change dataOf (c.called f n).frames <+: c.typed
    rw [hframes, ← hkept, dataOf_append, ← hu]
    refine (List.prefix_append_right_inj _).mpr ?_
    split_ifs
    · exact List.prefix_rfl
    · exact List.nil_prefix
  case kept =>
    intro hl
    change dataOf (c.called f n).frames ++ m.unsent = c.typed
    rcases hm with ⟨rfl, hn⟩ | rfl
    · rw [hframes, ← hkept, dataOf_append]
      rcases hn with ⟨rfl, hnone⟩ | rfl
      · rw [hnone]
        simp [Main.unsent, dataOf]
      · have hpos : 0 < f.bytes.length := List.length_pos_iff.mpr (List.cons_ne_nil _ _)
        rw [if_pos hpos, hu]
        simp [Main.unsent]
    · simp [Client.left] at hl
  case last =>
    intro hend
    change ⟨0x11, []⟩ ∈ (c.called f n).frames at hend
    rw [hframes] at hend
    rcases List.mem_append.mp hend with hend | hend
    · exact absurd rfl (h.shape.no_end hj _ hend)
    · split_ifs at hend
      · obtain rfl := List.mem_singleton.mp hend
        exact absurd rfl hty
      · cases hend
  case ready =>
    rcases hm with ⟨rfl, -⟩ | rfl <;> trivial

/-- The end of stdin. -/
theorem eof (h : Sends codec args c) (hm : c.main = .eof) :
    Sends codec args { c.called ⟨0x11, []⟩ n with main := .joining } := by
  have hleft : c.left = false := by simp [Client.left, hm]
  have hframes := c.frames_called (f := ⟨0x11, []⟩) (n := n)
  have hkept : dataOf c.frames = c.typed := by
    have hkept := h.kept hleft
    rw [hm] at hkept
    simpa [Main.unsent] using hkept
  have hsame : dataOf (c.called ⟨0x11, []⟩ n).frames = c.typed := by
    rw [hframes, dataOf_append, hkept]
    split_ifs <;> simp [dataOf]
  have hshape := h.shape
  rw [hm] at hshape
  constructor
  case sent => exact (h.stream_called hleft).1
  case whole => simp [Client.left]
  case shape =>
    change Shape codec args .joining (c.called ⟨0x11, []⟩ n).frames
    rw [hframes]
    split_ifs
    · exact hshape.finish
    · rw [List.append_nil]
      exact hshape.other (by simp) (by simp) (by simp) (by simp)
  case typed => exact hsame ▸ List.prefix_rfl
  case kept => simp [Client.left]
  case last => exact fun _ => hsame
  case ready => trivial

/-- The request: unless it is whole, nothing more is sent. -/
theorem request (h : Sends codec args c) (hm : c.main = .request) :
    Sends codec args { c.called ⟨0x00, args.request⟩ n with
      main := if n = (Frame.mk 0x00 args.request).bytes.length then .response (.header []) else .failed } := by
  have hleft : c.left = false := by simp [Client.left, hm]
  obtain ⟨hpart, hwhole⟩ := h.stream_called hleft
  have hshape := h.shape
  rw [hm] at hshape
  have hnone := hshape.nothing
  have htyped : c.typed = [] := by
    have hkept := h.kept hleft
    rw [hm, hnone] at hkept
    exact hkept.symm
  have hframes := c.frames_called (f := ⟨0x00, args.request⟩) (n := n)
  rw [hnone, List.nil_append] at hframes
  have hstdin : dataOf (c.called ⟨0x00, args.request⟩ n).frames = [] := by
    rw [hframes]
    split_ifs <;> simp [dataOf]
  constructor
  case sent => exact hpart
  case whole =>
    intro hl
    refine hwhole (.inr ?_)
    by_contra hn
    simp [Client.left, hn] at hl
  case shape =>
    change Shape codec args _ (c.called ⟨0x00, args.request⟩ n).frames
    rw [hframes]
    split_ifs with hn hpos hpos
    · exact .talking (by simp) (by simp)
    · exact absurd (hn ▸ List.length_pos_iff.mpr (List.cons_ne_nil _ _)) hpos
    · exact .talking (by simp) (by simp)
    · exact .silent (.inr rfl)
  case typed => exact (hstdin.trans htyped.symm) ▸ List.prefix_rfl
  case kept =>
    intro _
    change dataOf (c.called ⟨0x00, args.request⟩ n).frames ++ Main.unsent _ = c.typed
    rw [hstdin, htyped]
    split_ifs <;> rfl
  case last => exact fun _ => hstdin.trans htyped.symm
  case ready => split_ifs <;> trivial

theorem afterSend (h : Sends codec args c) (hf : c.main.frame args.request = some f)
    (hn : n = 0 ∨ n = f.bytes.length ∨ ∀ payload, c.main ≠ .resize payload) :
    Sends codec args ((c.called f n).afterSend (n = f.bytes.length)) := by
  have hready := h.ready
  cases hm : c.main with
  | request =>
    rw [hm] at hf
    obtain rfl := Option.some.inj hf
    refine (h.request (n := n) hm).congr ⟨?_, ?_, ?_⟩ <;> simp [Client.afterSend, Client.called, hm]
  | resize payload =>
    rw [hm] at hf hn hready
    obtain rfl := Option.some.inj hf
    have hn : n = 0 ∨ n = (Frame.mk 0x20 payload).bytes.length :=
      hn.imp_right (·.resolve_right fun h => h payload rfl)
    have hu : c.main.unsent = [] := by rw [hm]; rfl
    have hc : Carried codec ⟨0x20, payload⟩ := .inr ⟨rfl, hready⟩
    refine (h.carry (m := .poll) (by simp [hm]) (by simp [hm]) (by simp [hm]) hc
      (hu ▸ dataOf_other (by decide : (0x20 : UInt8) ≠ 0x10))
      (.inl ⟨rfl, hn.imp_left (⟨·, hu⟩)⟩)).congr ⟨?_, ?_, ?_⟩ <;>
      simp [Client.afterSend, Client.loop, Client.called, hm]
  | data b =>
    rw [hm] at hf hready
    obtain rfl := Option.some.inj hf
    have hu : dataOf [⟨0x10, b⟩] = c.main.unsent := by rw [hm]; exact dataOf_data
    have hc : Carried codec ⟨0x10, b⟩ := .inl ⟨rfl, hready⟩
    refine (h.carry (n := n)
      (m := if n = (Frame.mk 0x10 b).bytes.length then .poll else .joining) (by simp [hm])
      (by simp [hm]) (by simp [hm]) hc hu ?_).congr ⟨?_, ?_, ?_⟩
    · split_ifs with hwhole
      · exact .inl ⟨rfl, .inr hwhole⟩
      · exact .inr rfl
    all_goals simp [Client.afterSend, Client.called, hm]
  | eof =>
    rw [hm] at hf
    obtain rfl := Option.some.inj hf
    refine (h.eof (n := n) hm).congr ⟨?_, ?_, ?_⟩ <;> simp [Client.afterSend, Client.called, hm]
  | _ =>
    rw [hm] at hf
    cases hf

end Sends

theorem sends_start : Sends codec args Client.start := by
  constructor
  case sent => exact List.prefix_rfl
  case whole => exact fun _ => rfl
  case shape => exact .silent (.inl rfl)
  case typed => exact List.prefix_rfl
  case kept => exact fun _ => rfl
  case last => exact fun h => absurd h List.not_mem_nil
  case ready => trivial

/-- A write that does not cut a frame of the size. -/
theorem Sends.send (h : Sends codec args c) {r : Except Errno ℕ}
    (hf : c.main.frame args.request = some f) (hcut : c.cuts (.write r) = false)
    (hs : c.send f r = some c') : Sends codec args c' := by
  cases r with
  | ok n =>
    simp only [Client.send] at hs
    split_ifs at hs with hle
    obtain rfl := Option.some.inj hs
    refine h.afterSend hf ?_
    by_contra hno
    push Not at hno
    obtain ⟨hpos, hlen, payload, hm⟩ := hno
    rw [hm] at hf
    obtain rfl := Option.some.inj hf
    simp only [Client.cuts, hm] at hcut
    have hlt := lt_of_le_of_ne hle hlen
    simp [hlt, Nat.pos_of_ne_zero hpos] at hcut
  | error err =>
    obtain rfl := Option.some.inj hs
    have hne : (0 : ℕ) ≠ f.bytes.length := (List.length_pos_iff.mpr (List.cons_ne_nil _ _)).ne
    have hsend := h.afterSend (n := 0) hf (.inl rfl)
    rw [decide_eq_false hne] at hsend
    exact hsend

theorem respond_moves {r : Except Errno Bytes} (hm : c.main = .response reader)
    (h : c.respond codec args reader r = some c') : Moves codec c c' := by
  have hold : c.main ≠ .request ∧ c.main ≠ .failed ∧ c.main ≠ .joining ∧ c.main.unsent = [] := by
    simp [hm, Main.unsent]
  unfold Client.respond at h
  split at h
  case h_3 b _ =>
    by_cases hlen : b.length ≤ reader.want
    · rw [if_pos hlen] at h
      cases hfeed : reader.feed b with
      | inl r' =>
        simp only [hfeed] at h
        obtain rfl := Option.some.inj h
        exact ⟨hold, by simp [Main.unsent, Main.Ready], rfl, rfl⟩
      | inr f =>
        simp only [hfeed] at h
        split_ifs at h <;> obtain rfl := Option.some.inj h <;>
          exact ⟨hold, by simp [Client.loop, Main.unsent, Main.Ready], rfl, rfl⟩
    · rw [if_neg hlen] at h
      cases h
  all_goals
    obtain rfl := Option.some.inj h
    exact ⟨hold, by simp [Main.unsent, Main.Ready], rfl, rfl⟩

theorem polled_moves {r : Except Errno (Bool × Bool)} (hm : c.main = .poll)
    (h : c.polled r = some c') : Moves codec c c' := by
  have hold : c.main ≠ .request ∧ c.main ≠ .failed ∧ c.main ≠ .joining ∧ c.main.unsent = [] := by
    simp [hm, Main.unsent]
  have hnew : c.main ≠ .request ∧ c.main.unsent = [] ∧ c.main.Ready codec := by
    simp [hm, Main.unsent, Main.Ready]
  cases r with
  | error e =>
    simp only [Client.polled] at h
    split_ifs at h <;> obtain rfl := Option.some.inj h
    · exact ⟨hold, by simp [Main.unsent, Main.Ready], rfl, rfl⟩
    · exact ⟨hold, hnew, rfl, rfl⟩
    · exact ⟨hold, by simp [Main.unsent, Main.Ready], rfl, rfl⟩
  | ok ready =>
    simp only [Client.polled] at h
    split_ifs at h
    · split at h
      · obtain rfl := Option.some.inj h
        exact ⟨hold, by simp [Main.unsent, Main.Ready], rfl, rfl⟩
      · cases h
    · obtain rfl := Option.some.inj h
      exact ⟨hold, by simp [Main.unsent, Main.Ready], rfl, rfl⟩
    · obtain rfl := Option.some.inj h
      exact ⟨hold, hnew, rfl, rfl⟩

theorem hear_aside : Aside c (c.hear codec f) := by
  unfold Client.hear
  split_ifs <;> exact ⟨rfl, rfl, rfl⟩

theorem receive_aside {r : Except Errno Bytes} (h : c.receive codec reader r = some c') :
    Aside c c' := by
  unfold Client.receive at h
  split at h
  case h_3 b _ =>
    split_ifs at h with hlen
    cases hfeed : reader.feed b with
    | inl r' =>
      simp only [hfeed] at h
      obtain rfl := Option.some.inj h
      exact ⟨rfl, rfl, rfl⟩
    | inr f =>
      simp only [hfeed] at h
      obtain rfl := Option.some.inj h
      have ha : Aside c (Client.hear codec { c with received := c.received ++ b } f) :=
        ⟨hear_aside.main, hear_aside.typed, hear_aside.calls⟩
      exact ha
  all_goals
    obtain rfl := Option.some.inj h
    exact ⟨rfl, rfl, rfl⟩

theorem print_aside {data : Bytes} {off : ℕ} {r : Except Errno ℕ} (h : c.print data off r = some c') :
    Aside c c' := by
  cases r with
  | ok n =>
    simp only [Client.print] at h
    split_ifs at h <;> obtain rfl := Option.some.inj h <;> exact ⟨rfl, rfl, rfl⟩
  | error e =>
    obtain rfl := Option.some.inj h
    exact ⟨rfl, rfl, rfl⟩

/-- What a step does to what the client sends. -/
inductive Does (codec : Codec) (args : Args) (c : Client) : Event → Client → Prop
  | aside {e : Event} {c' : Client} : Aside c c' → Does codec args c e c'
  | moves {e : Event} {c' : Client} : Moves codec c c' → Does codec args c e c'
  | data {e : Event} {b : Bytes} : c.main = .read → b ≠ [] → b.length ≤ 4096 →
      Does codec args c e { c with main := .data b, typed := c.typed ++ b }
  | sends {f : Frame} {r : Except Errno ℕ} {c' : Client} : c.main.frame args.request = some f →
      c.send f r = some c' → Does codec args c (.write r) c'

theorem readStdin_does {r : Except Errno Bytes} (hm : c.main = .read)
    (hs : c.readStdin r = some c') : Does codec args c e c' := by
  have hold : c.main ≠ .request ∧ c.main ≠ .failed ∧ c.main ≠ .joining ∧ c.main.unsent = [] := by
    simp [hm, Main.unsent]
  unfold Client.readStdin at hs
  split at hs
  case h_1 =>
    obtain rfl := Option.some.inj hs
    exact .moves ⟨hold, by simp [Main.unsent, Main.Ready], rfl, rfl⟩
  case h_2 b hb =>
    split_ifs at hs with hlen
    obtain rfl := Option.some.inj hs
    exact .data hm hb hlen
  case h_3 =>
    obtain rfl := Option.some.inj hs
    refine .moves ⟨hold, ?_, rfl, rfl⟩
    dsimp only
    split_ifs <;> simp [Main.unsent, Main.Ready]

theorem step_does (hs : c.step codec args e = some c') : Does codec args c e c' := by
  cases e with
  | write r =>
    simp only [Client.step] at hs
    split at hs
    · exact .sends ‹_› hs
    · cases hs
  | respond r =>
    simp only [Client.step] at hs
    split at hs
    · exact .moves (respond_moves ‹_› hs)
    · cases hs
  | size rows cols =>
    simp only [Client.step] at hs
    split at hs
    · obtain rfl := Option.some.inj hs
      refine .moves ⟨?_, ?_, rfl, rfl⟩
      · simp [*, Main.unsent]
      · exact ⟨by simp, rfl, rows, cols, rfl⟩
    · cases hs
  | polled r =>
    simp only [Client.step] at hs
    split at hs
    · exact .moves (polled_moves ‹_› hs)
    · cases hs
  | stdin r =>
    simp only [Client.step] at hs
    split at hs
    · exact readStdin_does ‹_› hs
    · cases hs
  | receive r =>
    simp only [Client.step] at hs
    split at hs
    · exact .aside (receive_aside hs)
    · cases hs
  | print r =>
    simp only [Client.step] at hs
    split at hs
    · exact .aside (print_aside hs)
    · cases hs
  | winch =>
    simp only [Client.step] at hs
    split_ifs at hs
    obtain rfl := Option.some.inj hs
    exact .aside ⟨rfl, rfl, rfl⟩

theorem Sends.step (h : Sends codec args c) (hcut : c.cuts e = false)
    (hs : c.step codec args e = some c') : Sends codec args c' := by
  cases step_does hs with
  | aside ha => exact h.congr ha
  | moves hmoves => exact h.move hmoves
  | data hm hb hlen => exact h.data hm hb hlen
  | sends hf hs => exact h.send hf hcut hs

theorem send_calls {r : Except Errno ℕ} (hs : c.send f r = some c') :
    ∃ n, c'.calls = c.calls ++ [(f, n)] := by
  have hafter : ∀ (c : Client) (whole : Bool), (c.afterSend whole).calls = c.calls := by
    intro c whole
    unfold Client.afterSend
    split <;> rfl
  cases r with
  | ok n =>
    simp only [Client.send] at hs
    split_ifs at hs
    obtain rfl := Option.some.inj hs
    exact ⟨n, hafter _ _⟩
  | error err =>
    obtain rfl := Option.some.inj hs
    exact ⟨0, hafter _ _⟩

/-- The stream only grows. -/
theorem sent_step (hs : c.step codec args e = some c') : c.sent <+: c'.sent := by
  have hsame : c'.calls = c.calls → c.sent <+: c'.sent := by
    intro hc
    rw [Client.sent, Client.sent, hc]
  cases step_does hs with
  | aside ha => exact hsame ha.calls
  | moves hmoves => exact hsame hmoves.calls
  | data => exact List.prefix_rfl
  | sends hf hs =>
    obtain ⟨n, hc⟩ := send_calls hs
    rw [Client.sent, Client.sent, hc, List.flatMap_append]
    exact List.prefix_append _ _

/-- Over any run: the stream is the request and then whole frames with the stdin that has been read, of
which the last may be cut once the loop is left; the end of stdin comes last, after all of it. -/
theorem run_sends
    (h : Reaches (Client.step codec args) (fun c e => c.cuts e = false) Client.start c) :
    Sends codec args c :=
  h.invariant sends_start fun _ _ _ hs hcut hst => hs.step hcut hst

end

def decimal (n : ℕ) : Bytes := (Nat.toDigits 10 n).map fun d => UInt8.ofNat d.toNat

/-- The JSON of the source; exit codes are only looked for up to 255. -/
def sampleCodec : Codec where
  winSize rows cols :=
    utf8 "\x7b\"cols\":" ++ decimal cols.toNat ++ utf8 ",\"rows\":" ++ decimal rows.toNat ++ utf8 "\x7d"
  accepts b := (utf8 "\x7b\"ok\":true").isPrefixOf b
  exitCode b := ((List.range 256).map Int.ofNat).find? fun code => exitPayload code = b

/-- `attach` to a container; the terminal stays as it is. -/
def sampleArgs : Args := ⟨utf8 "\x7b\"type\":\"Attach\",\"pid\":7\x7d", false⟩

def accepted : Bytes := (Frame.mk 0x01 (runResponse 7)).bytes

def attached : List Event :=
  [.write (.ok 28), .respond (.ok (accepted.take 3)), .respond (.ok (accepted.drop 3))]

theorem run_sends_cut : ∃ c : Client, c.left = true ∧ c.typed = [65, 66, 67, 68] ∧
    dataOf c.frames = [65, 66, 67, 68] ∧ c.sent <+: c.frames.flatMap Frame.bytes ∧
      c.sent ≠ c.frames.flatMap Frame.bytes ∧ Sends sampleCodec sampleArgs c := by
  obtain ⟨c₀, c, h₀, hr, ht⟩ := exists_of_executes (Client.step sampleCodec sampleArgs)
    (fun c e => c.cuts e = false) (some .start)
    (attached ++ [.polled (.ok (true, false)), .stdin (.ok [65, 66]), .write (.ok 5),
      .polled (.error eintr), .polled (.ok (true, false)), .stdin (.ok [67, 68]), .write (.ok 4)])
    (fun _ c => decide (c.left = true ∧ c.typed = [65, 66, 67, 68] ∧
      dataOf c.frames = [65, 66, 67, 68] ∧ c.sent ≠ c.frames.flatMap Frame.bytes)) (by decide +kernel)
  obtain rfl := Option.some.inj h₀
  obtain ⟨hleft, htyped, hstdin, hne⟩ := of_decide_eq_true ht
  have hsends := run_sends hr
  exact ⟨c, hleft, htyped, hstdin, hsends.sent, hne, hsends⟩

end Conrt.Attach
