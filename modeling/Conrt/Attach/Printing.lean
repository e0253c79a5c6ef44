import Conrt.Attach.Sending

/-! What the client prints: the data the daemon sends it, and at the end the exit code. -/
namespace Conrt.Attach

open Conrt.Base
open Conrt.Daemon (Bytes Frame exitPayload runResponse)

def Main.Split : Main → Prop
  | .request | .response _ | .failed => False
  | _ => True

/-- A response and then data. -/
def Opened (fs : List Frame) : Prop :=
  ∃ f data, fs = f :: data ∧ f.ty = 0x01 ∧ ∀ d ∈ data, d.ty = 0x10

/-- The frames taken off the stream and the bytes after them, with what has been printed, by where the
two threads are. Only where something can be lost does the reader thread end without a last frame. -/
inductive Heard (codec : Codec) (lossy : Prop) : Main → Printer → List Frame → Bytes → Bytes → Prop
  | request : Heard codec lossy .request .unborn [] [] []
  | response {r : FrameReader} : r.Wants → Heard codec lossy (.response r) .unborn [] r.held []
  | failed {fs : List Frame} {part : Bytes} : Heard codec lossy .failed .unborn fs part []
  | sizing {m : Main} {f : Frame} : (m = .measure ∨ ∃ payload, m = .resize payload) → f.ty = 0x01 →
      Heard codec lossy m .unborn [f] [] []
  | reading {m : Main} {fs : List Frame} {r : FrameReader} : m.Split → Opened fs → r.Wants →
      Heard codec lossy m (.reading r) fs r.held (dataOf fs)
  | printing {m : Main} {fs : List Frame} {d : Frame} {off : ℕ} : m.Split → Opened fs → d.ty = 0x10 →
      Heard codec lossy m (.printing d.payload off) (fs ++ [d]) [] (dataOf fs ++ d.payload.take off)
  | exited {m : Main} {fs : List Frame} {p : Bytes} : m.Split → Opened fs →
      Heard codec lossy m (.exited ((codec.exitCode p).getD 1)) (fs ++ [⟨0x02, p⟩]) [] (dataOf fs)
  | unexpected {m : Main} {fs : List Frame} {f : Frame} : m.Split → Opened fs → f.ty ≠ 0x10 →
      f.ty ≠ 0x02 → Heard codec lossy m (.exited 1) (fs ++ [f]) [] (dataOf fs)
  | lost {m : Main} {fs : List Frame} {part printed : Bytes} : lossy → m.Split →
      printed <+: dataOf fs → Heard codec lossy m (.exited 1) fs part printed

/-- What has been received is whole frames and a part of one. -/
def Hears (codec : Codec) (lossy : Prop) (c : Client) : Prop :=
  ∃ fs part, (∀ f ∈ fs, Fits f) ∧ c.received = fs.flatMap Frame.bytes ++ part ∧
    Heard codec lossy c.main c.printer fs part c.printed

/-- The reader thread gets what it reads, and can print. -/
def Event.healthy : Event → Bool
  | .receive (.ok []) | .receive (.error _) | .print (.error _) => false
  | _ => true

section

variable {codec : Codec} {args : Args} {lossy : Prop} {c c' : Client} {f d : Frame} {fs : List Frame}
  {e : Event} {m m' : Main} {p : Printer} {part printed : Bytes} {reader : FrameReader}

theorem Opened.push (h : Opened fs) (hd : d.ty = 0x10) : Opened (fs ++ [d]) := by
  obtain ⟨f, data, rfl, hf, hdata⟩ := h
  refine ⟨f, data ++ [d], rfl, hf, fun x hx => ?_⟩
  rcases List.mem_append.mp hx with hx | hx
  · exact hdata x hx
  · exact List.mem_singleton.mp hx ▸ hd

namespace Heard

private theorem of_request (h : Heard codec lossy .request p fs part printed) :
    p = .unborn ∧ fs = [] ∧ part = [] ∧ printed = [] := by
  cases h with
  | request => exact ⟨rfl, rfl, rfl, rfl⟩
  | sizing hs => simp at hs
  | reading hm | printing hm | exited hm | unexpected hm | lost _ hm => exact hm.elim

private theorem of_response (h : Heard codec lossy (.response reader) p fs part printed) :
    p = .unborn ∧ reader.Wants ∧ fs = [] ∧ part = reader.held ∧ printed = [] := by
  cases h with
  | response hw => exact ⟨rfl, hw, rfl, rfl, rfl⟩
  | sizing hs => simp at hs
  | reading hm | printing hm | exited hm | unexpected hm | lost _ hm => exact hm.elim

theorem of_reading (h : Heard codec lossy m (.reading reader) fs part printed) :
    m.Split ∧ Opened fs ∧ reader.Wants ∧ part = reader.held ∧ printed = dataOf fs := by
  cases h with
  | reading hm ho hw => exact ⟨hm, ho, hw, rfl, rfl⟩

private theorem of_printing {b : Bytes} {off : ℕ} (h : Heard codec lossy m (.printing b off) fs part printed) :
    ∃ before d, fs = before ++ [d] ∧ m.Split ∧ Opened before ∧ d.ty = 0x10 ∧ b = d.payload ∧ part = [] ∧
      printed = dataOf before ++ b.take off := by
  cases h with
  | @printing _ before d _ hm ho hd => exact ⟨before, d, rfl, hm, ho, hd, rfl, rfl, rfl⟩

/-- The main thread goes on in its loop. -/
theorem main (h : Heard codec lossy m p fs part printed) (hp : p ≠ .unborn) (hm : m'.Split) :
    Heard codec lossy m' p fs part printed := by
  cases h with
  | request | response | failed | sizing => exact absurd rfl hp
  | reading _ ho hw => exact .reading hm ho hw
  | printing _ ho hd => exact .printing hm ho hd
  | exited _ ho => exact .exited hm ho
  | unexpected _ ho h10 h02 => exact .unexpected hm ho h10 h02
  | lost hl _ hp => exact .lost hl hm hp

/-- Within the loop the reader thread is there. -/
theorem born (h : Heard codec lossy m p fs part printed) (hm : m.Split) (hq : m ≠ .measure)
    (hr : ∀ payload, m ≠ .resize payload) : p ≠ .unborn := by
  cases h with
  | request | response | failed => exact hm.elim
  | sizing hs =>
    rcases hs with rfl | ⟨payload, rfl⟩
    · exact absurd rfl hq
    · exact absurd rfl (hr payload)
  | _ => exact Printer.noConfusion

theorem resized {payload : Bytes} (h : Heard codec lossy .measure p fs part printed) :
    Heard codec lossy (.resize payload) p fs part printed := by
  by_cases hp : p = .unborn
  · subst hp
    cases h with
    | sizing _ hf => exact .sizing (.inr ⟨payload, rfl⟩) hf
  · exact h.main hp trivial

theorem loop (h : Heard codec lossy m p fs part printed) (hm : m.Split) :
    Heard codec lossy .poll (if p = .unborn then .reading (.header []) else p) fs part printed := by
  by_cases hp : p = .unborn
  · rw [if_pos hp]
    subst hp
    cases h with
    | request | response | failed => exact hm.elim
    | @sizing _ f _ hf =>
      have hdata : dataOf [f] = [] := dataOf_other (by rw [hf]; decide)
      have hread : Heard codec lossy .poll (.reading (.header [])) [f] (FrameReader.header []).held
          (dataOf [f]) := .reading trivial ⟨f, [], rfl, hf, by simp⟩ (Nat.zero_lt_succ 2)
      rwa [hdata] at hread
  · rw [if_neg hp]
    exact h.main hp trivial

end Heard

namespace Hears

theorem start : Hears codec lossy Client.start := ⟨[], [], by simp, rfl, .request⟩

/-- The stream and the output are left alone. -/
theorem keep (h : Hears codec lossy c) (hr : c'.received = c.received) (hp : c'.printed = c.printed)
    (hh : ∀ fs part, Heard codec lossy c.main c.printer fs part c.printed →
      Heard codec lossy c'.main c'.printer fs part c.printed) : Hears codec lossy c' := by
  obtain ⟨fs, part, hfits, hrec, hheard⟩ := h
  exact ⟨fs, part, hfits, hr.trans hrec, hp ▸ hh fs part hheard⟩

/-- The main thread is in its loop, before and after. -/
theorem move (h : Hears codec lossy c) (hm : c.main.Split) (hm' : c'.main.Split) (hq : c.main ≠ .measure)
    (hs : ∀ payload, c.main ≠ .resize payload) (hp : c'.printer = c.printer)
    (hr : c'.received = c.received) (hpr : c'.printed = c.printed) : Hears codec lossy c' :=
  h.keep hr hpr fun _ _ hh => hp ▸ hh.main (hh.born hm hq hs) hm'

theorem loop (h : Hears codec lossy c) (hm : c.main.Split) : Hears codec lossy c.loop :=
  h.keep rfl rfl fun _ _ hh => hh.loop hm

theorem afterSend (h : Hears codec lossy c) (hf : c.main.frame args.request = some f) {whole : Bool} :
    Hears codec lossy (c.afterSend whole) := by
  unfold Client.afterSend
  cases hm : c.main with
  | request =>
    refine h.keep rfl rfl fun fs part hh => ?_
    rw [hm] at hh
    obtain ⟨hp, rfl, rfl, hpr⟩ := hh.of_request
    rw [hp, hpr]
    cases whole with
    | true => exact .response (Nat.zero_lt_succ 2)
    | false => exact .failed
  | resize payload => exact h.loop (by simp [hm, Main.Split])
  | data b =>
    refine h.move ?_ ?_ ?_ ?_ rfl rfl rfl <;> cases whole <;> simp [hm, Main.Split]
  | eof => refine h.move ?_ ?_ ?_ ?_ rfl rfl rfl <;> simp [hm, Main.Split]
  | _ =>
    rw [hm] at hf
    cases hf

theorem send (h : Hears codec lossy c) (hf : c.main.frame args.request = some f) {r : Except Errno ℕ}
    (hs : c.send f r = some c') : Hears codec lossy c' := by
  cases r with
  | ok n =>
    simp only [Client.send] at hs
    split_ifs at hs
    obtain rfl := Option.some.inj hs
    have hsame : Hears codec lossy { c with calls := c.calls ++ [(f, n)] } := h
    exact hsame.afterSend hf
  | error err =>
    obtain rfl := Option.some.inj hs
    have hsame : Hears codec lossy { c with calls := c.calls ++ [(f, 0)] } := h
    exact hsame.afterSend hf

/-- A response that is not an accepting one ends the client. -/
theorem respond (h : Hears codec lossy c) (hm : c.main = .response reader) {r : Except Errno Bytes}
    (hs : c.respond codec args reader r = some c') : Hears codec lossy c' := by
  obtain ⟨fs, part, hfits, hrec, hh⟩ := h
  rw [hm] at hh
  obtain ⟨hp, hw, rfl, rfl, hpr⟩ := hh.of_response
  have hrec : c.received = reader.held := hrec
  have hend : ∀ {c' : Client}, c'.main = .failed → c'.printer = .unborn → c'.printed = [] →
      Hears codec lossy c' := by
    intro c' hm' hp' hpr'
    refine ⟨[], c'.received, by simp, rfl, ?_⟩
    rw [hm', hp', hpr']
    exact .failed
  unfold Client.respond at hs
  split at hs
  case h_3 b _ =>
    by_cases hlen : b.length ≤ reader.want
    · rw [if_pos hlen] at hs
      cases hfeed : reader.feed b with
      | inl r' =>
        simp only [hfeed] at hs
        obtain rfl := Option.some.inj hs
        obtain ⟨hheld, hw'⟩ := FrameReader.feed_inl hw hlen hfeed
        refine ⟨[], r'.held, by simp, ?_, ?_⟩
        · rw [hheld, ← hrec]
          rfl
        · rw [hp, hpr]
          exact .response hw'
      | inr f =>
        simp only [hfeed] at hs
        obtain ⟨hf, hfitsf⟩ := FrameReader.feed_inr hw hlen hfeed
        by_cases haccepts : f.ty = 0x01 ∧ codec.accepts f.payload = true
        · rw [if_pos haccepts] at hs
          have hready : Hears codec lossy { c with main := .measure, received := c.received ++ b } := by
            refine ⟨[f], [], by simpa using hfitsf, ?_, ?_⟩
            · simp [hf, hrec]
            · rw [hp, hpr]
              exact .sizing (.inl rfl) haccepts.1
          split_ifs at hs
          · obtain rfl := Option.some.inj hs
            exact hready
          · obtain rfl := Option.some.inj hs
            exact hready.loop trivial
        · rw [if_neg haccepts] at hs
          obtain rfl := Option.some.inj hs
          exact hend rfl hp hpr
    · rw [if_neg hlen] at hs
      cases hs
  all_goals
    obtain rfl := Option.some.inj hs
    exact hend rfl hp hpr

theorem polled (h : Hears codec lossy c) (hm : c.main = .poll) {r : Except Errno (Bool × Bool)}
    (hs : c.polled r = some c') : Hears codec lossy c' := by
  have hmove : ∀ {c' : Client}, c'.main.Split → c'.printer = c.printer → c'.received = c.received →
      c'.printed = c.printed → Hears codec lossy c' := fun hm' hp hr hpr =>
    h.move (by simp [hm, Main.Split]) hm' (by simp [hm]) (by simp [hm]) hp hr hpr
  cases r with
  | error err =>
    simp only [Client.polled] at hs
    split_ifs at hs <;> obtain rfl := Option.some.inj hs
    · exact hmove trivial rfl rfl rfl
    · exact h
    · exact hmove trivial rfl rfl rfl
  | ok ready =>
    simp only [Client.polled] at hs
    split_ifs at hs
    · split at hs
      · obtain rfl := Option.some.inj hs
        exact hmove trivial rfl rfl rfl
      · cases hs
    · obtain rfl := Option.some.inj hs
      exact hmove trivial rfl rfl rfl
    · obtain rfl := Option.some.inj hs
      exact h

theorem readStdin (h : Hears codec lossy c) (hm : c.main = .read) {r : Except Errno Bytes}
    (hs : c.readStdin r = some c') : Hears codec lossy c' := by
  have hmove : ∀ {c' : Client}, c'.main.Split → c'.printer = c.printer → c'.received = c.received →
      c'.printed = c.printed → Hears codec lossy c' := fun hm' hp hr hpr =>
    h.move (by simp [hm, Main.Split]) hm' (by simp [hm]) (by simp [hm]) hp hr hpr
  unfold Client.readStdin at hs
  split at hs
  · obtain rfl := Option.some.inj hs
    exact hmove trivial rfl rfl rfl
  · split_ifs at hs
    obtain rfl := Option.some.inj hs
    exact hmove trivial rfl rfl rfl
  · obtain rfl := Option.some.inj hs
    refine hmove ?_ rfl rfl rfl
    dsimp only
    split_ifs <;> trivial

theorem hear (hm : c.main.Split) (ho : Opened fs) (hfits : ∀ g ∈ fs, Fits g) (hf : Fits f)
    (hpr : c.printed = dataOf fs) (hrec : c.received = (fs ++ [f]).flatMap Frame.bytes) :
    Hears codec lossy (c.hear codec f) := by
  have hfits' : ∀ g ∈ fs ++ [f], Fits g := by
    intro g hg
    rcases List.mem_append.mp hg with hg | hg
    · exact hfits g hg
    · exact List.mem_singleton.mp hg ▸ hf
  have hrec' : c.received = (fs ++ [f]).flatMap Frame.bytes ++ [] := by rw [hrec, List.append_nil]
  unfold Client.hear
  split_ifs with h10 hnil h02
  · refine ⟨fs ++ [f], [], hfits', hrec', ?_⟩
    have hdata : dataOf (fs ++ [f]) = dataOf fs := by
      rw [dataOf_append]
      simp [dataOf, hnil]
    rw [hpr, ← hdata]
    exact .reading hm (ho.push h10) (Nat.zero_lt_succ 2)
  · refine ⟨fs ++ [f], [], hfits', hrec', ?_⟩
    have hprint : Heard codec lossy c.main (.printing f.payload 0) (fs ++ [f]) []
        (dataOf fs ++ f.payload.take 0) := .printing hm ho h10
    rw [List.take_zero, List.append_nil, ← hpr] at hprint
    exact hprint
  · refine ⟨fs ++ [f], [], hfits', hrec', ?_⟩
    obtain ⟨ty, p⟩ := f
    obtain rfl : ty = 0x02 := h02
    rw [hpr]
    exact .exited hm ho
  · refine ⟨fs ++ [f], [], hfits', hrec', ?_⟩
    rw [hpr]
    exact .unexpected hm ho h10 h02

theorem receive (h : Hears codec lossy c) (hp : c.printer = .reading reader) {r : Except Errno Bytes}
    (hl : lossy ∨ (Event.receive r).healthy = true) (hs : c.receive codec reader r = some c') :
    Hears codec lossy c' := by
  obtain ⟨fs, part, hfits, hrec, hh⟩ := h
  rw [hp] at hh
  obtain ⟨hm, ho, hw, rfl, hpr⟩ := hh.of_reading
  unfold Client.receive at hs
  split at hs
  case h_1 =>
    obtain rfl := Option.some.inj hs
    exact ⟨fs, reader.held, hfits, hrec, .lost (hl.resolve_right (by simp [Event.healthy])) hm (hpr ▸ List.prefix_rfl)⟩
  case h_2 =>
    obtain rfl := Option.some.inj hs
    exact ⟨fs, reader.held, hfits, hrec, .lost (hl.resolve_right (by simp [Event.healthy])) hm (hpr ▸ List.prefix_rfl)⟩
  case h_3 b _ =>
    by_cases hlen : b.length ≤ reader.want
    · rw [if_pos hlen] at hs
      cases hfeed : reader.feed b with
      | inl r' =>
        simp only [hfeed] at hs
        obtain rfl := Option.some.inj hs
        obtain ⟨hheld, hw'⟩ := FrameReader.feed_inl hw hlen hfeed
        refine ⟨fs, r'.held, hfits, ?_, ?_⟩
        · rw [hheld, ← List.append_assoc, ← hrec]
        · rw [hpr]
          exact .reading hm ho hw'
      | inr f =>
        simp only [hfeed] at hs
        obtain rfl := Option.some.inj hs
        obtain ⟨hf, hfitsf⟩ := FrameReader.feed_inr hw hlen hfeed
        refine hear hm ho hfits hfitsf hpr ?_
        rw [List.flatMap_append, List.flatMap_singleton, hf, ← List.append_assoc, ← hrec]
    · rw [if_neg hlen] at hs
      cases hs

theorem print {b : Bytes} {off : ℕ} (h : Hears codec lossy c) (hp : c.printer = .printing b off)
    {r : Except Errno ℕ} (hl : lossy ∨ (Event.print r).healthy = true) (hs : c.print b off r = some c') :
    Hears codec lossy c' := by
  obtain ⟨fs, part, hfits, hrec, hh⟩ := h
  rw [hp] at hh
  obtain ⟨before, d, rfl, hm, ho, hd, rfl, rfl, hpr⟩ := hh.of_printing
  have hdata : dataOf (before ++ [d]) = dataOf before ++ d.payload := by
    rw [dataOf_append]
    simp [dataOf, hd]
  cases r with
  | ok n =>
    simp only [Client.print] at hs
    split_ifs at hs with hle hmore
    · obtain rfl := Option.some.inj hs
      refine ⟨before ++ [d], [], hfits, hrec, ?_⟩
      rw [hpr, List.append_assoc, ← List.take_add]
      exact .printing hm ho hd
    · obtain rfl := Option.some.inj hs
      refine ⟨before ++ [d], [], hfits, hrec, ?_⟩
      rw [hpr, List.append_assoc, ← List.take_add, List.take_of_length_le (by omega), ← hdata]
      exact .reading hm (ho.push hd) (Nat.zero_lt_succ 2)
  | error err =>
    obtain rfl := Option.some.inj hs
    refine ⟨before ++ [d], [], hfits, hrec, .lost (hl.resolve_right (by simp [Event.healthy])) hm ?_⟩
    rw [hpr, hdata]
    exact (List.prefix_append_right_inj _).mpr (List.take_prefix _ _)

theorem step (h : Hears codec lossy c) (hl : lossy ∨ e.healthy = true)
    (hs : c.step codec args e = some c') : Hears codec lossy c' := by
  cases e with
  | write r =>
    simp only [Client.step] at hs
    split at hs
    · exact h.send ‹_› hs
    · cases hs
  | respond r =>
    simp only [Client.step] at hs
    split at hs
    · exact h.respond ‹_› hs
    · cases hs
  | size rows cols =>
    simp only [Client.step] at hs
    split at hs
    · rename_i hm
      obtain rfl := Option.some.inj hs
      refine h.keep rfl rfl fun fs part hh => ?_
      rw [hm] at hh
      exact hh.resized
    · cases hs
  | polled r =>
    simp only [Client.step] at hs
    split at hs
    · exact h.polled ‹_› hs
    · cases hs
  | stdin r =>
    simp only [Client.step] at hs
    split at hs
    · exact h.readStdin ‹_› hs
    · cases hs
  | receive r =>
    simp only [Client.step] at hs
    split at hs
    · exact h.receive ‹_› hl hs
    · cases hs
  | print r =>
    simp only [Client.step] at hs
    split at hs
    · exact h.print ‹_› hl hs
    · cases hs
  | winch =>
    simp only [Client.step] at hs
    split_ifs at hs
    obtain rfl := Option.some.inj hs
    exact h

end Hears

theorem run_hears (h : Reaches (Client.step codec args) (fun _ e => lossy ∨ e.healthy = true) Client.start c) :
    Hears codec lossy c := h.invariant .start fun _ _ _ hx hl hst => hx.step hl hst

theorem dataOf_mono {gs : List Frame} (h : fs <+: gs) : dataOf fs <+: dataOf gs := by
  obtain ⟨more, rfl⟩ := h
  rw [dataOf_append]
  exact List.prefix_append _ _

private theorem Heard.prefix_data (h : Heard codec lossy m p fs part printed) : printed <+: dataOf fs := by
  cases h with
  | request | response | failed | sizing => exact List.nil_prefix
  | reading => exact List.prefix_rfl
  | @printing _ before d off _ _ hd =>
    rw [dataOf_append]
    refine (List.prefix_append_right_inj _).mpr ?_
    have hdata : dataOf [d] = d.payload := by simp [dataOf, hd]
    rw [hdata]
    exact List.take_prefix _ _
  | exited => exact dataOf_mono (List.prefix_append _ _)
  | unexpected => exact dataOf_mono (List.prefix_append _ _)
  | lost _ _ hp => exact hp

/-- What is heard on a stream of whole frames are its first frames. -/
theorem Hears.split {gs : List Frame} (h : Hears codec lossy c) (hfits : ∀ g ∈ gs, Fits g)
    (hr : c.received <+: gs.flatMap Frame.bytes) : ∃ fs more part, gs = fs ++ more ∧
      c.received = fs.flatMap Frame.bytes ++ part ∧ part <+: more.flatMap Frame.bytes ∧
        Heard codec lossy c.main c.printer fs part c.printed := by
  obtain ⟨fs, part, hf, hrec, hh⟩ := h
  obtain ⟨more, hmore, hpart⟩ := frames_code.split hf hfits (hrec ▸ hr)
  exact ⟨fs, more, part, hmore, hrec, hpart, hh⟩

/-- Whatever happens, what is printed is the beginning of the data that the daemon sends. -/
theorem run_prints {gs : List Frame} (h : Reaches (Client.step codec args) (fun _ _ => True) Client.start c)
    (hfits : ∀ g ∈ gs, Fits g) (hr : c.received <+: gs.flatMap Frame.bytes) : c.printed <+: dataOf gs := by
  have hx : Hears codec True c := run_hears (h.mono fun _ _ _ => .inl trivial)
  obtain ⟨fs, more, part, rfl, -, -, hh⟩ := hx.split hfits hr
  exact hh.prefix_data.trans (dataOf_mono (List.prefix_append _ _))

/-- The stream of a container: a response, its output, its exit code. -/
structure Ends (gs : List Frame) (p : Bytes) : Prop where
  fits : ∀ g ∈ gs, Fits g
  frames : ∃ fs, Opened fs ∧ gs = fs ++ [⟨0x02, p⟩]

theorem Opened.ty (h : Opened fs) (hf : f ∈ fs) : f.ty ≠ 0x02 := by
  obtain ⟨g, data, rfl, hg, hdata⟩ := h
  rcases List.mem_cons.mp hf with rfl | hf
  · rw [hg]
    decide
  · rw [hdata f hf]
    decide

/-- A frame that is neither the response nor data is the last. -/
theorem Ends.last {gs before more : List Frame} {q : Bytes} (h : Ends gs q) (ho : Opened before)
    (hf : f.ty ≠ 0x10) (hgs : gs = before ++ f :: more) : f = ⟨0x02, q⟩ ∧ more = [] := by
  obtain ⟨fs, ⟨g, data, rfl, -, hdata⟩, hend⟩ := h.frames
  obtain ⟨g', data', rfl, -, -⟩ := ho
  obtain ⟨-, htail⟩ := List.cons.inj (hend.symm.trans hgs)
  rcases List.eq_nil_or_concat more with rfl | ⟨more, l, rfl⟩
  · obtain ⟨-, hlast⟩ := List.append_inj' htail rfl
    exact ⟨(List.cons.inj hlast).1.symm, rfl⟩
  · have htail' : data ++ [⟨0x02, q⟩] = (data' ++ f :: more) ++ [l] := by simpa using htail
    obtain ⟨hdata', -⟩ := List.append_inj' htail' rfl
    exact absurd (hdata f (by simp [hdata'])) hf

end

def shortStream : List Frame := [⟨0x01, runResponse 7⟩, ⟨0x10, [72, 105]⟩, ⟨0x02, exitPayload 3⟩]

theorem shortEnds : Ends shortStream (exitPayload 3) where
  fits := (by decide +kernel : ∀ g ∈ shortStream, g.payload.length ≤ 65535)
  frames := ⟨[⟨0x01, runResponse 7⟩, ⟨0x10, [72, 105]⟩], ⟨_, _, rfl, rfl, by simp⟩, rfl⟩

/-- Printing fails after the first byte. -/
theorem run_prints_failed : ∃ c : Client, c.printer = .exited 1 ∧ c.printed = [72] ∧
    c.printed <+: dataOf shortStream := by
  obtain ⟨c₀, c, h₀, hr, ht⟩ := exists_of_executes (Client.step sampleCodec sampleArgs)
    (fun _ _ => True) (some .start)
    (attached ++ [.receive (.ok [0x10, 2, 0]), .receive (.ok [72, 105]), .print (.ok 1),
      .print (.error 32)])
    (fun _ c => decide (c.received <+: shortStream.flatMap Frame.bytes ∧
      c.printer = .exited 1 ∧ c.printed = [72])) (by decide +kernel)
  obtain rfl := Option.some.inj h₀
  obtain ⟨hrec, hprinter, hprinted⟩ := of_decide_eq_true ht
  exact ⟨c, hprinter, hprinted, run_prints hr shortEnds.fits hrec⟩

end Conrt.Attach
