import Conrt.Base.Turns
import Conrt.Daemon.Origins

/-! What is written to the sessions' streams: frame after frame, of which the first is the response. -/
namespace Conrt.Daemon

open Conrt.Base

variable {τ : Terms} {h h' : List Token} {w w' w₀ : World} {codec : Codec} {answers : List Answer}
  {sid : ℕ} {sess : AttachSession} {tr tr' : List Entry} {f : File} {frame : Frame}
  {stream : Fd .stream} {loc loc' : OpLocal} {fd : Option Handle} {want id : ℕ} {ok : Bool}
  {op : InFlight} {r : Result} {d : Handle} {e : Entry}

structure World.Apart (w : World) : Prop where
  below : ∀ n f, w.fds.lookup n = some f → f.gen < w.nextGen
  single : ∀ n n' f, w.fds.lookup n = some f → w.fds.lookup n' = some f → n = n'

namespace World.Apart

theorem init : World.Apart .init := by
  constructor
  · intro n f hf
    cases hf
  · intro n n' f hf
    cases hf

theorem mono (hx : w.Apart) (hfds : ∀ n f, w'.fds.lookup n = some f → w.fds.lookup n = some f)
    (hgen : w.nextGen ≤ w'.nextGen) : w'.Apart := by
  constructor
  · intro n f hf
    have hlt := hx.below n f (hfds n f hf)
    omega
  · intro n n' f hf hf'
    exact hx.single n n' f (hfds n f hf) (hfds n' f hf')

theorem same (hx : w.Apart) (hfds : w'.fds = w.fds) (hgen : w'.nextGen = w.nextGen) : w'.Apart := by
  refine hx.mono (fun n f hf => ?_) hgen.ge
  rw [← hfds]
  exact hf

theorem openFd {k : FileKind} {n : ℕ} (hx : w.Apart) : (w.openFd k n).Apart := by
  have hlook : ∀ m g, (w.openFd k n).fds.lookup m = some g →
      m = n ∧ g = ⟨k, w.nextGen⟩ ∨ w.fds.lookup m = some g := by
    intro m g hg
    have hl : (w.fds.insert n ⟨k, w.nextGen⟩).lookup m = some g := hg
    rw [Table.lookup_insert_ite] at hl
    split_ifs at hl with hm
    · exact .inl ⟨hm, (Option.some.inj hl).symm⟩
    · exact .inr hl
  constructor
  · intro m g hg
    change g.gen < w.nextGen + 1
    rcases hlook m g hg with ⟨-, rfl⟩ | hold
    · exact Nat.lt_succ_self _
    · have hlt := hx.below m g hold
      omega
  · intro m m' g hg hg'
    rcases hlook m g hg with ⟨hm, hnew⟩ | hold
    · rcases hlook m' g hg' with ⟨hm', -⟩ | hold'
      · rw [hm, hm']
      · have hlt := hx.below m' g hold'
        rw [hnew] at hlt
        exact absurd hlt (Nat.lt_irrefl _)
    · rcases hlook m' g hg' with ⟨-, hnew⟩ | hold'
      · have hlt := hx.below m g hold
        rw [hnew] at hlt
        exact absurd hlt (Nat.lt_irrefl _)
      · exact hx.single m m' g hold hold'

theorem closeFd (hx : w.Apart) : (w.closeFd d).Apart := by
  refine hx.mono (fun n g hg => ?_) le_rfl
  have hl : (w.fds.erase d.1).lookup n = some g := hg
  rw [Table.lookup_erase_ite] at hl
  split_ifs at hl
  exact hl

theorem perform (hx : w.Apart) : (w.perform op r).Apart := by
  by_cases hacc : ∃ fd, r = .accepted fd
  · obtain ⟨fd, rfl⟩ := hacc
    have hx₁ : (w.openFd .stream fd.num).Apart := hx.openFd
    exact hx₁.same rfl rfl
  · rw [not_exists] at hacc
    obtain ⟨hfds, hgen⟩ := @World.perform_other w op r hacc
    exact hx.same hfds hgen

end World.Apart

theorem Move.apart (hm : Move τ (h, w) (h', w')) (hx : w.Apart) : w'.Apart := by
  cases hm with
  | acquire => exact hx.openFd
  | release => exact hx.closeFd
  | eofBorrowed => exact World.Apart.closeFd (hx.same rfl rfl)
  | respond | data | reaped => exact hx.same (by simp) (by simp)
  | finish =>
    apply hx.same
    · rw [World.fds_beginFrame]
      rfl
    · rw [World.nextGen_beginFrame]
      rfl
  | @buryReaped _ _ pid exitCode told =>
    have hx₁ : (w.reap pid exitCode told).Apart := hx.same World.fds_reap World.nextGen_reap
    exact hx₁.same rfl rfl
  | _ => exact hx.same rfl rfl

/-- Two sessions' streams are two openings. -/
theorem ownStreams (hl : Ledger h w) (hx : w.Apart) : OwnStreams w := by
  intro s s' sess sess' hs hs' hfile
  by_contra hne
  have hmem : ∀ {s sess}, w.g.attachSessions.lookup s = some sess →
      w.fds.lookup sess.streamFd.handle.1 = some sess.streamFd.handle.2 := fun hs =>
    hl.owns.current _ (held_of_owned (World.mem_owned_session hs List.mem_cons_self))
  have hnum : sess.streamFd.handle.1 = sess'.streamFd.handle.1 :=
    hx.single _ _ _ (hmem hs) (hfile ▸ hmem hs')
  have hsame : sess.streamFd.handle = sess'.streamFd.handle := Prod.ext hnum hfile
  have hone := hl.owns.single sess.streamFd.handle
  have htwo : 2 ≤ w.inSessions sess.streamFd.handle := by
    have hs'' : (w.g.attachSessions.erase s).lookup s' = some sess' := by
      rw [Table.lookup_erase_ite, if_neg (Ne.symm hne)]
      exact hs'
    have hcount : ∀ sess : AttachSession, 1 ≤ sess.handles.count sess.streamFd.handle := fun sess =>
      List.count_pos_iff.mpr List.mem_cons_self
    have h₁ := hcount sess
    have h₂ := hcount sess'
    rw [← hsame] at h₂
    have hle := Table.le_total (f := fun sess => sess.handles.count sess'.streamFd.handle) hs''
    unfold World.inSessions
    rw [Table.total_erase hs]
    rw [← hsame] at hle
    omega
  rw [held_eq] at hone
  omega

/-- What has been written to the stream is a prefix of frames begun there, of which the first is a
response. -/
def Framed (f : File) (tr : List Entry) : Prop :=
  ∃ frames : List Frame, frames.Sublist (framesOn f tr) ∧
    bytesOn f tr <+: frames.flatMap Frame.bytes ∧ ∀ frame ∈ frames.head?, frame.ty = 0x01

def Entry.putsOn (f : File) : Entry → Bool
  | .wrote _ g _ | .wroteNow g _ => g = f
  | _ => false

private theorem bytesOn_silent (he : e.putsOn f = false) : bytesOn f (tr ++ [e]) = bytesOn f tr := by
  rw [bytesOn_append]
  cases e with
  | wrote loc g b | wroteNow g b =>
    have hne : g ≠ f := by simpa [Entry.putsOn] using he
    simp [bytesOn, hne]
  | _ => exact List.append_nil _

theorem bytesOn_quiet (hq : Quiet (Entry.putsOn f) tr tr') : bytesOn f tr' = bytesOn f tr :=
  hq.eq fun _ _ he => bytesOn_silent he

theorem framesOn_quiet (hq : Quiet (Entry.putsOn f) tr tr') :
    (framesOn f tr).Sublist (framesOn f tr') := by
  obtain ⟨new, rfl, -⟩ := hq
  rw [framesOn_append]
  exact List.sublist_append_left _ _

theorem Framed.quiet (hx : Framed f tr) (hq : Quiet (Entry.putsOn f) tr tr') : Framed f tr' := by
  obtain ⟨frames, hsub, hpre, hhead⟩ := hx
  refine ⟨frames, hsub.trans (framesOn_quiet hq), ?_, hhead⟩
  rw [bytesOn_quiet hq]
  exact hpre

/-- The stream is framed whatever has happened last. -/
def FramedThen (f : File) (before : List Entry) (e : Entry) : Prop := Framed f (before ++ [e])

theorem framed_history (hq : Quiet (Entry.putsOn f) tr tr') (hf : Framed f tr)
    (hh : Always (FramedThen f) tr) : Always (FramedThen f) tr' := by
  have hkeep := hq.keeps (I := fun tr => Always (FramedThen f) tr ∧ Framed f tr)
    (fun before e he hx => ?_) ⟨hh, hf⟩
  · exact hkeep.1
  have hone : Framed f (before ++ [e]) := hx.2.quiet (quiet_append.mpr (by simpa using he))
  exact ⟨Always.concat_iff.mpr ⟨hx.1, hone⟩, hone⟩

def OpLocal.writesTo (f : File) (loc : OpLocal) : Bool := loc.stream.any fun s => s.2.handle.2 = f

/-- Once the op has written `n` bytes, some of its frame has been written. -/
def OpLocal.begun (n : ℕ) : OpLocal → Bool
  | .sessionFrame _ _ _ off | .sessionDataHeader _ _ _ _ off => 0 < off + n
  | .sessionDataPayload .. => true
  | _ => false

def InFlight.begun (op : InFlight) : Prop := op.loc.begun (taken op.result) = true

/-- A write fails or is not accepted when some of its frame has been written, or a frame is written by
one call. -/
def Entry.breaks (f : File) : Entry → Bool
  | .failed loc | .submitted loc _ _ false => loc.writesTo f && loc.begun 0
  | .wroteNow g _ => g = f
  | _ => false

/-- A frame on the stream may have been broken off. -/
def Broken (f : File) (tr : List Entry) : Prop := ∃ e ∈ tr, e.breaks f = true

theorem Broken.mono (hb : Broken f tr) (hsub : tr ⊆ tr') : Broken f tr' := by
  obtain ⟨e, he, hbreaks⟩ := hb
  exact ⟨e, hsub he, hbreaks⟩

namespace World

def streamOps (w : World) (f : File) : List InFlight := w.opsWhere (·.writesTo f)

/-- The frames that have been begun on a stream, and what of them has been written. -/
def Writes (w : World) (f : File) (frames : List Frame) : Prop :=
  Turns InFlight.unsent InFlight.begun (Broken f w.trace) (frames.map Frame.bytes) (bytesOn f w.trace)
    (w.streamOps f)

/-- A frame may be begun on a stream: no write in flight there has anything left, no frame has been
broken off, and something has been written, unless the frame is a response. -/
structure Ready (w : World) (f : File) (ty : UInt8) : Prop where
  idle : ∀ op ∈ w.ops, op.loc.writesTo f = true → op.unsent = []
  whole : ¬ Broken f w.trace
  after : ty = 0x01 ∨ bytesOn f w.trace ≠ []

end World

theorem writesTo_iff : loc.writesTo f = true ↔ ∃ sid stream, loc.stream = some (sid, stream) ∧
    stream.handle.2 = f := by
  unfold OpLocal.writesTo
  rw [Option.any_eq_true]
  constructor
  · rintro ⟨⟨sid, stream⟩, hs, hf⟩
    exact ⟨sid, stream, hs, by simpa using hf⟩
  · rintro ⟨sid, stream, hs, hf⟩
    exact ⟨(sid, stream), hs, by simpa using hf⟩

theorem writesTo_of_resumes {stdinFd : ℕ → Option Handle} {n : ℕ}
    (hr : Resumes stdinFd n loc loc' fd) : loc'.writesTo f = loc.writesTo f := by
  unfold OpLocal.writesTo
  rw [stream_of_resumes hr]

/-- What is left is what is submitted next, and it is as far begun. -/
theorem Resumes.frameRest {stdinFd : ℕ → Option Handle} {n : ℕ}
    (hr : Resumes stdinFd n loc loc' fd) (hw : loc.writesTo f = true) :
    loc'.unsent 0 = loc.unsent n ∧ (loc.begun n = true → loc'.begun 0 = true) := by
  cases hr with
  | frame | header => exact ⟨rfl, id⟩
  | payload hle =>
    refine ⟨?_, fun _ => rfl⟩
    simp [OpLocal.unsent, List.drop_eq_nil_of_le hle]
  | data => exact ⟨rfl, id⟩
  | stdin | follow => cases hw

/-- A frame write that stops has nothing left, unless it has failed. -/
theorem unsent_of_stopped {n : ℕ} (hw : loc.writesTo f = true)
    (hstop : loc.continues (.count n) = false) : loc.unsent n = [] := by
  cases loc with
  | sessionFrame sid stream buf off | sessionDataPayload sid stream buf off =>
    have hle : buf.length ≤ off + n := by simpa [OpLocal.continues] using hstop
    exact List.drop_eq_nil_of_le hle
  | sessionDataHeader => cases hstop
  | _ => cases hw

/-- Where a frame may be begun, nothing is left of the earlier ones. -/
theorem World.Clear.idle {ty : UInt8} (hc : w.Clear f ty) : ∀ op ∈ w.streamOps f, op.unsent = [] := by
  intro op hop
  obtain ⟨hmem, hwrites⟩ := World.mem_opsWhere.mp hop
  obtain ⟨sid, s, hs, hf⟩ := writesTo_iff.mp hwrites
  exact hc.2 op hmem sid s hs hf

theorem head_response {frames : List Frame}
    (hhead : (frames.map Frame.ty ++ [frame.ty]).head? = some 0x01) :
    ∀ fr ∈ (frames ++ [frame]).head?, fr.ty = 0x01 := by
  intro fr hfr
  have hty : fr.ty ∈ (frames.map Frame.ty ++ [frame.ty]).head? := by
    rw [← List.map_singleton, ← List.map_append, List.head?_map]
    exact Option.mem_map_of_mem Frame.ty hfr
  rw [hhead] at hty
  exact (Option.some.inj hty).symm

/-- Frames are written to a stream one after the other, a response first. -/
structure StreamFlow (w : World) (f : File) : Prop where
  writes : ∃ frames : List Frame, frames.Sublist (framesOn f w.trace) ∧
    (∀ frame ∈ frames.head?, frame.ty = 0x01) ∧ w.Writes f frames
  ended : ∀ op ∈ w.streamOps f, ∀ r, op.result = some r →
    (∃ n, r = .count n) ∨ .failed op.loc ∈ w.trace
  history : Always (FramedThen f) w.trace

namespace StreamFlow

theorem init : StreamFlow .init f where
  writes := ⟨[], List.nil_sublist _, by simp, .init⟩
  ended := by
    intro op hop
    cases hop
  history := .nil

theorem framed (hx : StreamFlow w f) : Framed f w.trace := by
  obtain ⟨frames, hsub, hhead, hw⟩ := hx.writes
  refine ⟨frames, hsub, ?_, hhead⟩
  rw [List.flatMap_def]
  exact hw.prefix_messages

/-- Nothing is written to the stream, and no write of it comes or goes. -/
theorem same (hx : StreamFlow w f) (hops : w'.streamOps f = w.streamOps f)
    (htr : Quiet (Entry.putsOn f) w.trace w'.trace) : StreamFlow w' f := by
  obtain ⟨frames, hsub, hhead, hw⟩ := hx.writes
  constructor
  · refine ⟨frames, hsub.trans (framesOn_quiet htr), hhead, ?_⟩
    unfold World.Writes
    rw [bytesOn_quiet htr, hops]
    exact Turns.mono hw fun hb => hb.mono htr.subset
  · rw [hops]
    intro op hop r hr
    rcases hx.ended op hop r hr with hcount | hfailed
    · exact .inl hcount
    · exact .inr (htr.subset hfailed)
  · exact framed_history htr hx.framed hx.history

/-- A write leaves. If its frame is begun and not finished, the frame has been broken off. -/
theorem takeOp (hx : StreamFlow w f) (hop : w.findOp id = some op)
    (hrest : op.loc.writesTo f = true → op.unsent ≠ [] → op.begun → Broken f w.trace) :
    StreamFlow (w.takeOp id) f := by
  cases hloc : op.loc.writesTo f with
  | false => exact hx.same (World.opsWhere_takeOther hop hloc) quiet_refl
  | true =>
    have hperm : (w.streamOps f).Perm (op :: (w.takeOp id).streamOps f) :=
      World.opsWhere_taken hop hloc
    obtain ⟨frames, hsub, hhead, hw⟩ := hx.writes
    obtain ⟨ms, hms, hturns⟩ := hw.leave hperm (hrest hloc)
    have htake : ms = (frames.take ms.length).map Frame.bytes := by
      rw [List.map_take]
      exact List.prefix_iff_eq_take.mp hms
    constructor
    · refine ⟨frames.take ms.length, (List.take_sublist _ _).trans hsub, fun frame hframe => ?_, ?_⟩
      · apply hhead
        rw [List.head?_take] at hframe
        split_ifs at hframe
        · cases hframe
        · exact hframe
      · unfold World.Writes
        rw [← htake]
        exact hturns
    · exact fun o ho => hx.ended o (hperm.mem_iff.mpr (List.mem_cons_of_mem op ho))
    · exact hx.history

/-- A frame is begun where another one may be. -/
theorem begin {stream : Fd .stream} (hx : StreamFlow w f) (hclear : w.Clear f frame.ty)
    (hstream : stream.handle.2 = f) (hloc : loc.writesTo f = true) (hrest : loc.unsent 0 = frame.bytes) :
    StreamFlow (w.beginFrame stream frame loc want true) f := by
  have hidle := hclear.idle
  obtain ⟨⟨frames, hsub, hbytes, hhead⟩, -⟩ := hclear
  obtain ⟨new, hnew⟩ : ∃ new : InFlight,
      new = ⟨w.nextOp, loc, some stream.handle, want, none⟩ := ⟨_, rfl⟩
  have hops : (w.beginFrame stream frame loc want true).streamOps f = w.streamOps f ++ [new] := by
    rw [hnew]
    exact World.opsWhere_beginFrame.trans (World.opsWhere_submit hloc)
  have hquiet : Quiet (Entry.putsOn f) w.trace (w.beginFrame stream frame loc want true).trace := by
    rw [World.trace_beginFrame]
    simp [Entry.putsOn]
  have hframes : framesOn f (w.beginFrame stream frame loc want true).trace =
      framesOn f w.trace ++ [frame] := by
    rw [World.trace_beginFrame]
    simp [framesOn, hstream]
  constructor
  · refine ⟨frames ++ [frame], ?_, fun fr hfr => ?_, ?_⟩
    · rw [hframes]
      exact hsub.append_right [frame]
    · exact head_response hhead fr hfr
    · have hunsent : new.unsent = frame.bytes := by
        rw [hnew]
        exact hrest
      unfold World.Writes
      rw [bytesOn_quiet hquiet, hops, hbytes, List.flatMap_def, List.map_append, List.map_singleton,
        ← hunsent]
      exact Turns.start (List.perm_append_singleton _ _) hidle
  · rw [hops]
    intro op hop r hr
    rcases List.mem_append.mp hop with hold | hlast
    · rcases hx.ended op hold r hr with hcount | hfailed
      · exact .inl hcount
      · exact .inr (hquiet.subset hfailed)
    · rw [List.mem_singleton.mp hlast, hnew] at hr
      cases hr
  · exact framed_history hquiet hx.framed hx.history

/-- A frame is written by one call, and what is left of it is given up. -/
theorem writeNow {n : ℕ} (hx : StreamFlow w f) (hclear : w.Clear f frame.ty)
    (hstream : stream.handle.2 = f) :
    StreamFlow ((w.note (.begun stream frame)).note (.wroteNow f (frame.bytes.take n))) f := by
  have hidle := hclear.idle
  obtain ⟨⟨frames, hsub, hbytes, hhead⟩, -⟩ := hclear
  have hframes : framesOn f ((w.note (.begun stream frame)).note
      (.wroteNow f (frame.bytes.take n))).trace = framesOn f w.trace ++ [frame] := by
    simp [framesOn, hstream]
  have hx₁ : StreamFlow (w.note (.begun stream frame)) f := hx.same rfl (by simp [Entry.putsOn])
  have hwrites : (frames ++ [frame]).Sublist (framesOn f ((w.note (.begun stream frame)).note
        (.wroteNow f (frame.bytes.take n))).trace) ∧
      (∀ fr ∈ (frames ++ [frame]).head?, fr.ty = 0x01) ∧ World.Writes ((w.note (.begun stream frame)).note
        (.wroteNow f (frame.bytes.take n))) f (frames ++ [frame]) := by
    refine ⟨?_, fun fr hfr => ?_, ?_⟩
    · rw [hframes]
      exact hsub.append_right [frame]
    · exact head_response hhead fr hfr
    · refine .off ⟨.wroteNow f (frame.bytes.take n), by simp, by simp [Entry.breaks]⟩ ?_ hidle
      have hb : bytesOn f ((w.note (.begun stream frame)).note
          (.wroteNow f (frame.bytes.take n))).trace = bytesOn f w.trace ++ frame.bytes.take n := by
        simp [bytesOn]
      rw [hb, hbytes, ← List.flatMap_def, List.flatMap_append, List.flatMap_singleton]
      exact (List.prefix_append_right_inj _).mpr (List.take_prefix _ _)
  have hlast : Framed f ((w.note (.begun stream frame)).note
      (.wroteNow f (frame.bytes.take n))).trace := by
    obtain ⟨hsub', hhead', hw⟩ := hwrites
    refine ⟨frames ++ [frame], hsub', ?_, hhead'⟩
    rw [List.flatMap_def]
    exact hw.prefix_messages
  constructor
  · exact ⟨_, hwrites⟩
  · intro op hop r hr
    rcases hx₁.ended op hop r hr with hcount | hfailed
    · exact .inl hcount
    · exact .inr (List.mem_append_left _ hfailed)
  · exact Always.concat_iff.mpr ⟨hx₁.history, hlast⟩

/-- The rest of a short write is submitted. -/
theorem resume {n : ℕ} (hx : StreamFlow w f) (hop : w.findOp id = some op)
    (hr : op.result = some (.count n)) (hres : Resumes w.stdinFd n op.loc loc fd) :
    StreamFlow ((w.takeOp id).submit loc fd want true) f := by
  have hsame : loc.writesTo f = op.loc.writesTo f := writesTo_of_resumes hres
  have hquiet : Quiet (Entry.putsOn f) w.trace ((w.takeOp id).submit loc fd want true).trace := by
    rw [World.trace_submit]
    simp [Entry.putsOn]
  cases hloc : op.loc.writesTo f with
  | false =>
    refine hx.same ?_ hquiet
    exact (World.opsWhere_submitOther (hsame.trans hloc)).trans (World.opsWhere_takeOther hop hloc)
  | true =>
    obtain ⟨hnext, hbegun⟩ := hres.frameRest hloc
    have hperm : (w.streamOps f).Perm (op :: (w.takeOp id).streamOps f) :=
      World.opsWhere_taken hop hloc
    obtain ⟨new, hnew⟩ : ∃ new : InFlight, new = ⟨w.nextOp, loc, fd, want, none⟩ := ⟨_, rfl⟩
    have hops : ((w.takeOp id).submit loc fd want true).streamOps f =
        (w.takeOp id).streamOps f ++ [new] := by
      rw [hnew]
      exact World.opsWhere_submit (hsame.trans hloc)
    have hrest : op.unsent = [] ++ new.unsent := by
      unfold InFlight.unsent
      rw [hr, hnew]
      exact hnext.symm
    have hgoes : op.begun → new.begun := by
      unfold InFlight.begun
      rw [hr, hnew]
      exact hbegun
    obtain ⟨frames, hsub, hhead, hw⟩ := hx.writes
    constructor
    · refine ⟨frames, hsub.trans (framesOn_quiet hquiet), hhead, ?_⟩
      have hturns := Turns.send hw hperm ((List.perm_append_singleton new _).trans (.refl _)) hrest hgoes
        fun hne => (hne rfl).elim
      unfold World.Writes
      rw [bytesOn_quiet hquiet, hops, ← List.append_nil (bytesOn f w.trace)]
      exact hturns.mono fun hb => hb.mono hquiet.subset
    · rw [hops]
      intro o ho res hres'
      rcases List.mem_append.mp ho with hold | hlast
      · have hmem : o ∈ w.streamOps f := hperm.mem_iff.mpr (List.mem_cons_of_mem op hold)
        rcases hx.ended o hmem res hres' with hcount | hfailed
        · exact .inl hcount
        · exact .inr (hquiet.subset hfailed)
      · rw [List.mem_singleton.mp hlast, hnew] at hres'
        cases hres'
    · exact framed_history hquiet hx.framed hx.history

/-- A write that is not to go on leaves. -/
theorem stopped (hx : StreamFlow w f) (hop : w.findOp id = some op) (hr : op.result = some r)
    (hrest : op.loc.writesTo f = true → op.loc.continues r = true → w.RestRefused op.loc r) :
    StreamFlow (w.takeOp id) f := by
  refine hx.takeOp hop fun hloc hne hbegun => ?_
  have hmem : op ∈ w.streamOps f := World.mem_opsWhere.mpr ⟨List.mem_of_find?_eq_some hop, hloc⟩
  have hunsent : op.unsent = op.loc.unsent (taken (some r)) := by
    unfold InFlight.unsent
    rw [hr]
  have hbegun' : op.loc.begun (taken (some r)) = true := by
    rw [← hr]
    exact hbegun
  by_cases hcont : op.loc.continues r = true
  · obtain ⟨n, loc', fd, file, rfl, hres, hmem'⟩ := hrest hloc hcont
    refine ⟨_, hmem', ?_⟩
    simp [Entry.breaks, writesTo_of_resumes hres, hloc, (hres.frameRest hloc).2 hbegun']
  · have hno : ∀ n, r ≠ .count n := by
      rintro n rfl
      exact hne (hunsent.trans (unsent_of_stopped (n := n) hloc (by simpa using hcont)))
    have hzero : taken (some r) = 0 := by
      cases r with
      | count n => exact (hno n rfl).elim
      | _ => rfl
    rw [hzero] at hbegun'
    rcases hx.ended op hmem r hr with ⟨n, hn⟩ | hfailed
    · exact (hno n hn).elim
    · exact ⟨_, hfailed, by simp [Entry.breaks, hloc, hbegun']⟩

/-- What the kernel takes of a write is no longer left. -/
theorem sent (hloc : op.loc.writesTo f = true) (hfile : ∀ g, w.reached op = some g → g = f)
    (hr : op.result = none) (hallows : w.allows op r = true) :
    ∃ b, bytesOn f (w.perform op r).trace = bytesOn f w.trace ++ b ∧
      op.unsent = b ++ { op with result := some r }.unsent ∧
        (op.begun → { op with result := some r }.begun) ∧
          (b ≠ [] → { op with result := some r }.begun) ∧
            ((∃ n, r = .count n) ∨ .failed op.loc ∈ (w.perform op r).trace) := by
  rw [World.trace_perform, bytesOn_append]
  unfold InFlight.unsent InFlight.begun World.performed
  rw [hr]
  cases r with
  | count n =>
    obtain ⟨g, hg⟩ : ∃ g, w.reached op = some g := by
      apply Option.isSome_iff_exists.mp
      simp only [World.allows, Bool.and_eq_true] at hallows
      exact hallows.1
    obtain rfl := hfile g hg
    have hsplit : op.loc.unsent 0 = op.loc.pending.take n ++ op.loc.unsent n := by
      cases hl : op.loc with
      | sessionFrame | sessionDataHeader | sessionDataPayload =>
        simp [OpLocal.unsent, OpLocal.pending, ← List.drop_drop, ← List.append_assoc]
      | _ =>
        rw [hl] at hloc
        cases hloc
    have hbegun : op.loc.begun 0 = true → op.loc.begun n = true := by
      cases op.loc with
      | sessionFrame | sessionDataHeader =>
        simp only [OpLocal.begun, decide_eq_true_eq]
        omega
      | _ => exact id
    have hnew : op.loc.pending.take n ≠ [] → op.loc.begun n = true := by
      intro hne
      have hn : 0 < n := by
        by_contra hzero
        obtain rfl : n = 0 := by omega
        exact hne List.take_zero
      cases hl : op.loc with
      | sessionFrame | sessionDataHeader =>
        simp only [OpLocal.begun, decide_eq_true_eq]
        omega
      | sessionDataPayload => rfl
      | _ =>
        rw [hl] at hloc
        cases hloc
    refine ⟨op.loc.pending.take n, ?_, hsplit, hbegun, hnew, .inl ⟨n, rfl⟩⟩
    simp only [hg]
    split_ifs with hp
    · simp [hp, bytesOn]
    · simp [bytesOn]
  | failed e =>
    refine ⟨[], ?_, rfl, id, fun hne => (hne rfl).elim, .inr (by simp)⟩
    simp [bytesOn]
  | _ =>
    simp only [World.allows, Bool.and_eq_true] at hallows
    cases hl : op.loc <;> rw [hl] at hloc hallows <;> first | cases hloc | simp at hallows

/-- The kernel completes an op. -/
theorem perform (hx : StreamFlow w f) (hn : w.Numbered) (hop : w.findOp op.id = some op)
    (hr : op.result = none) (hallows : w.allows op r = true)
    (hfile : op.loc.writesTo f = true → ∀ g, w.reached op = some g → g = f)
    (hother : op.loc.writesTo f = false → op.loc.pending ≠ [] → ∀ g, w.reached op = some g → g ≠ f) :
    StreamFlow (w.perform op r) f := by
  have hsub : w.trace ⊆ (w.perform op r).trace := by
    rw [World.trace_perform]
    exact List.subset_append_left _ _
  cases hloc : op.loc.writesTo f with
  | false =>
    refine hx.same (World.opsWhere_performOther hn hop hloc) ?_
    rw [World.trace_perform, quiet_append]
    intro e he
    unfold World.performed at he
    split at he
    · rw [List.mem_singleton.mp he]
      rfl
    · rename_i n g hg
      split_ifs at he with hp
      · cases he
      · rw [List.mem_singleton.mp he]
        simpa [Entry.putsOn] using hother hloc hp g hg
    · rw [List.mem_singleton.mp he]
      rfl
    · rw [List.mem_singleton.mp he]
      rfl
    · cases he
  | true =>
    obtain ⟨b, hbytes, hrest, hbegun, hnew, hended⟩ := sent (w := w) hloc (hfile hloc) hr hallows
    obtain ⟨idle, hperm, hperm'⟩ : ∃ idle, (w.streamOps f).Perm (op :: idle) ∧
        ((w.perform op r).streamOps f).Perm ({ op with result := some r } :: idle) :=
      World.opsWhere_perform hn hop hloc
    obtain ⟨frames, hframes, hhead, hw⟩ := hx.writes
    have hframes' : frames.Sublist (framesOn f (w.perform op r).trace) := by
      rw [World.trace_perform, framesOn_append]
      exact hframes.trans (List.sublist_append_left _ _)
    have hw' : (w.perform op r).Writes f frames := by
      unfold World.Writes
      rw [hbytes]
      exact (Turns.send hw hperm hperm' hrest hbegun hnew).mono fun hb => hb.mono hsub
    have hlast : Framed f (w.perform op r).trace := by
      refine ⟨frames, hframes', ?_, hhead⟩
      rw [List.flatMap_def]
      exact hw'.prefix_messages
    constructor
    · exact ⟨frames, hframes', hhead, hw'⟩
    · intro o ho res hres
      rcases List.mem_cons.mp (hperm'.mem_iff.mp ho) with rfl | hold
      · obtain rfl := Option.some.inj hres
        exact hended
      · have hmem : o ∈ w.streamOps f := hperm.mem_iff.mpr (List.mem_cons_of_mem op hold)
        rcases hx.ended o hmem res hres with hcount | hfailed
        · exact .inl hcount
        · exact .inr (hsub hfailed)
    · rcases w.trace_perform_cases op r with htr | ⟨e, htr, -⟩
      · rw [htr]
        exact hx.history
      · rw [htr] at hlast ⊢
        exact Always.concat_iff.mpr ⟨hx.history, hlast⟩

/-- A frame may be begun when the op at hand, which is not to go on, has left. -/
theorem clear {ty : UInt8} (hx : StreamFlow w f) (hop : w.findOp id = some op)
    (hr : op.result = some r) (hstop : op.loc.continues r = false)
    (hready : (w.takeOp id).Ready f ty) : (w.takeOp id).Clear f ty := by
  have hx' : StreamFlow (w.takeOp id) f := hx.stopped hop hr fun _ hcont => by
    rw [hstop] at hcont
    cases hcont
  obtain ⟨frames, hsub, hhead, hw⟩ := hx'.writes
  have hbytes : bytesOn f (w.takeOp id).trace = frames.flatMap Frame.bytes := by
    rw [List.flatMap_def]
    refine hw.sent_eq hready.whole fun o ho => ?_
    obtain ⟨hmem, hloc⟩ := World.mem_opsWhere.mp ho
    exact hready.idle o hmem hloc
  refine ⟨⟨frames, hsub, hbytes, ?_⟩, fun o ho sid stream hs hf => ?_⟩
  · cases frames with
    | nil =>
      rcases hready.after with rfl | hne
      · rfl
      · exact (hne hbytes).elim
    | cons frame frames => exact congrArg some (hhead frame rfl)
  · exact hready.idle o ho (writesTo_iff.mpr ⟨sid, stream, hs, hf⟩)

end StreamFlow

def World.Away (w : World) : Prop :=
  ∀ op ∈ w.ops, op.loc.stdinOf ≠ none → ∀ d, op.fd = some d → d.2.kind ≠ .stream

namespace World.Away

theorem congr (hx : w.Away) (hops : w'.ops ⊆ w.ops) : w'.Away := fun op hop => hx op (hops hop)

theorem submit (hx : w.Away) (hnew : loc.stdinOf ≠ none → ∀ d, fd = some d → d.2.kind ≠ .stream) :
    (w.submit loc fd want ok).Away := by
  intro op hop
  rw [World.ops_submit] at hop
  split_ifs at hop
  · rcases List.mem_append.mp hop with hold | hlast
    · exact hx op hold
    · rw [List.mem_singleton.mp hlast]
      exact hnew
  · exact hx op hop

theorem submitOther (hx : w.Away) (hnew : loc.stdinOf = none) : (w.submit loc fd want ok).Away :=
  hx.submit fun hne => (hne hnew).elim

theorem beginFrame (hx : w.Away) (hnew : loc.stdinOf = none) :
    (w.beginFrame stream frame loc want ok).Away := by
  unfold World.beginFrame
  split_ifs
  · exact (hx.submitOther hnew).congr (List.Subset.refl _)
  · exact hx.submitOther hnew

theorem perform (hx : w.Away) : (w.perform op r).Away := by
  intro o ho
  rw [World.perform_frame.2.2.2] at ho
  obtain ⟨o', ho', rfl⟩ := List.mem_map.mp ho
  split_ifs <;> exact hx o' ho'

end World.Away

/-- A session's stdin is a terminal or a pipe. -/
theorem kind_stdinFd (hd : w.stdinFd sid = some d) : d.2.kind ≠ .stream := by
  obtain ⟨sess, -, hs⟩ := Option.bind_eq_some_iff.mp hd
  unfold AttachSession.stdinFd at hs
  split at hs
  · obtain rfl := Option.some.inj hs
    exact FileKind.noConfusion
  · obtain ⟨i, -, rfl⟩ := Option.map_eq_some_iff.mp hs
    cases i <;> exact FileKind.noConfusion

theorem Resumes.kind {n : ℕ} (hr : Resumes w.stdinFd n loc loc' fd) (hne : loc'.stdinOf ≠ none)
    (hd : fd = some d) : d.2.kind ≠ .stream := by
  cases hr with
  | stdin => exact kind_stdinFd hd
  | _ => exact (hne rfl).elim

theorem Move.away (hm : Move τ (h, w) (h', w')) (hx : w.Away) : w'.Away := by
  cases hm with
  | refused | denied => exact hx.congr (List.Subset.refl _)
  | read hr => exact hx.submitOther (by cases ‹OpLocal› <;> first | rfl | cases hr)
  | output | passFd | follow => exact hx.submitOther rfl
  | @rearm _ _ kind => exact hx.submitOther (by cases kind <;> rfl)
  | relisten hl => exact hx.submitOther (by cases ‹OpLocal› <;> first | rfl | cases hl)
  | @resume _ _ id n want op loc fd hop hr hres =>
    have hx₁ : (w.takeOp id).Away := hx.congr List.eraseP_subset
    exact hx₁.submit fun hne d hd => hres.kind hne hd
  | retire => exact hx.congr List.eraseP_subset
  | respond | data => exact hx.beginFrame rfl
  | finish => exact World.Away.beginFrame hx rfl
  | @offer _ _ sid want fd payload ok hfd =>
    refine World.Away.submit hx fun _ d hd => ?_
    obtain rfl := Option.some.inj hd
    exact kind_stdinFd hfd
  | reaped => exact hx.congr (by simp)
  | @buryReaped _ _ pid exitCode told =>
    have hx₁ : (w.reap pid exitCode told).Away := hx.congr (by simp)
    exact hx₁.congr (List.Subset.refl _)
  | _ => exact hx.congr (List.Subset.refl _)

/-- What an op names is what it was meant for. -/
theorem Named.file (hx : Named h w) (hop : op ∈ w.ops) {g : File} (hg : w.reached op = some g) :
    ∃ d, op.fd = some d ∧ d.2 = g ∧ ∀ t, op.loc.target = some t → d = t := by
  obtain ⟨d, hd, hdg⟩ := Option.map_eq_some_iff.mp (hx.own op hop g hg)
  exact ⟨d, hd, hdg, hx.target hop d hd⟩

/-- Only the frames of a stream are written to it. -/
theorem Named.other (hx : Named h w) (ha : w.Away) (hf : f.kind = .stream) (hop : op ∈ w.ops)
    (hloc : op.loc.writesTo f = false) (hpending : op.loc.pending ≠ []) :
    ∀ g, w.reached op = some g → g ≠ f := by
  intro g hg hgf
  obtain ⟨d, hd, rfl, htarget⟩ := hx.file hop hg
  cases hl : op.loc with
  | sessionFrame sid stream | sessionDataHeader sid stream | sessionDataPayload sid stream =>
    rw [hl] at htarget hloc
    have hne : stream.handle.2 ≠ f := by simpa [OpLocal.writesTo, OpLocal.stream] using hloc
    rw [htarget _ rfl] at hgf
    exact hne hgf
  | followWrite pid pipeId pipe =>
    rw [hl] at htarget
    rw [htarget _ rfl] at hgf
    rw [← hgf] at hf
    cases hf
  | sessionStdin =>
    have hkind := ha op hop (by rw [hl]; exact Option.some_ne_none _) d hd
    rw [hgf] at hkind
    exact hkind hf
  | _ =>
    rw [hl] at hpending
    exact hpending rfl

theorem Named.streams (hx : Named h w) (hop : op ∈ w.ops) (hloc : op.loc.writesTo f = true) :
    ∀ g, w.reached op = some g → g = f := by
  intro g hg
  obtain ⟨d, hd, rfl, htarget⟩ := hx.file hop hg
  obtain ⟨sid, stream, hs, rfl⟩ := writesTo_iff.mp hloc
  have ht : op.loc.target = some stream.handle := by
    unfold OpLocal.target
    rw [hs]
  rw [htarget _ ht]

theorem writesTo_of_for {t : Token} (ht : t.For loc) : loc.writesTo f = false := by
  cases ht with
  | @drain kind => cases kind <;> rfl
  | @loop l loc hl => cases loc <;> first | rfl | cases hl
  | _ => rfl

theorem Move.streamFlow (hfr : τ.framed) (hm : Move τ (h, w) (h', w')) (hn : Named h w)
    (hf : f.kind = .stream) (hx : StreamFlow w f) : StreamFlow w' f := by
  have hother : ∀ {loc : OpLocal} {fd : Option Handle} {want : ℕ} {ok : Bool},
      loc.writesTo f = false → StreamFlow (w.submit loc fd want ok) f := by
    intro loc fd want ok hloc
    refine hx.same (World.opsWhere_submitOther hloc) ?_
    rw [World.trace_submit]
    simp [Entry.putsOn]
  have hframe : ∀ {sid : ℕ} {stream : Fd .stream} {frame : Frame} {loc : OpLocal} {want : ℕ}
      {w : World}, StreamFlow w f → w.Clear stream.handle.2 frame.ty →
        loc.stream = some (sid, stream) → loc.unsent 0 = frame.bytes →
          StreamFlow (w.beginFrame stream frame loc want true) f := by
    intro sid stream frame loc want w hx hclear hstream hrest
    by_cases hsame : stream.handle.2 = f
    · have hloc : loc.writesTo f = true := writesTo_iff.mpr ⟨sid, stream, hstream, hsame⟩
      exact hx.begin (hsame ▸ hclear) hsame hloc hrest
    · have hloc : loc.writesTo f = false := by
        unfold OpLocal.writesTo
        rw [hstream]
        simpa using hsame
      refine hx.same (World.opsWhere_beginFrame.trans (World.opsWhere_submitOther hloc)) ?_
      rw [World.trace_beginFrame]
      simp [Entry.putsOn]
  cases hm with
  | @note _ _ e he =>
    refine hx.same rfl ?_
    cases e <;> first | exact he.elim | simp [Entry.putsOn]
  | @writeNow hand _ d g b c hkind hg =>
    have hheld : 0 < held (.fresh d b :: hand) w d := by
      have hone : 0 < (handlesOf (.fresh d b :: hand)).count d :=
        List.count_pos_iff.mpr List.mem_cons_self
      unfold held
      omega
    have hcurrent := hn.ledger.owns.current d hheld
    have hgd : g = d.2 := Option.some.inj (hg.symm.trans hcurrent)
    refine hx.same rfl ?_
    have hne : g ≠ f := by
      rintro rfl
      rw [hgd, hkind] at hf
      cases hf
    simp [Entry.putsOn, hne]
  | refused =>
    refine hx.same World.opsWhere_refused ?_
    rw [World.trace_submit]
    simp [Entry.putsOn]
  | denied ht => exact hother (writesTo_of_for ht)
  | read hr => exact hother (by cases ‹OpLocal› <;> first | rfl | cases hr)
  | output | passFd | follow => exact hother rfl
  | @rearm _ _ kind => exact hother (by cases kind <;> rfl)
  | relisten hl => exact hother (by cases ‹OpLocal› <;> first | rfl | cases hl)
  | resume hop hr hres => exact hx.resume hop hr hres
  | @retire _ _ id op r hop hr hrefused =>
    refine hx.stopped hop hr fun hloc => hrefused ?_
    cases hl : op.loc <;> rw [hl] at hloc <;> first | rfl | cases hloc
  | respond hs hc | data hs hc => exact hframe hx (hc hfr) rfl rfl
  | @finish _ _ sid want sess ok hs hd he hsent hc =>
    have hx₁ : StreamFlow (w.modifySession sid ({ · with exitSent := true })) f := hx.same rfl quiet_refl
    cases ok with
    | true => exact hframe hx₁ (hc hfr) rfl rfl
    | false =>
      refine hx₁.same World.opsWhere_beginFrame ?_
      rw [World.trace_beginFrame]
      simp [Entry.putsOn]
  | @refuseNow _ _ sid n sess payload g hs hg hc =>
    have hcurrent := hn.ledger.owns.current sess.streamFd.handle
      (held_of_owned (World.mem_owned_session hs List.mem_cons_self))
    obtain rfl : g = sess.streamFd.handle.2 := Option.some.inj (hg.symm.trans hcurrent)
    by_cases hsame : sess.streamFd.handle.2 = f
    · rw [hsame]
      exact hx.writeNow (hsame ▸ hc hfr) hsame
    · refine hx.same rfl ?_
      rw [World.trace_note, World.trace_note, List.append_assoc]
      simpa [Entry.putsOn] using hsame
  | @offer _ _ sid want fd payload ok =>
    refine hx.same (World.opsWhere_submitOther rfl) ?_
    rw [World.trace_submit, World.trace_note, List.append_assoc]
    simp [Entry.putsOn]
  | reaped => exact hx.same (World.opsWhere_congr (by simp)) (by simp [Entry.putsOn])
  | @buryReaped _ _ pid exitCode told info =>
    have hx₁ : StreamFlow (w.reap pid exitCode told) f :=
      hx.same (World.opsWhere_congr (by simp)) (by simp [Entry.putsOn])
    exact hx₁.same rfl (quiet_append.mpr (by simp [Entry.putsOn]))
  | _ => exact hx.same rfl (by simp [Entry.putsOn])

def OpLocal.outputRead (loc : OpLocal) (r : Result) : Option ℕ :=
  match loc, r with
  | .sessionOutputRead sid, .bytes (_ :: _) => some sid
  | _, _ => none

/-- The session whose exit frame is due once a sweep has told it. -/
def World.tells (w : World) (a : Answer) : Option ℕ :=
  match a with
  | .wait (some (pid, _, sid)) =>
    if sid ∈ sessionsOf w pid ∧ (w.g.attachSessions.lookup sid).any fun sess =>
      sess.drainDone && !sess.exitSent then some sid else none
  | _ => none

/-- The frames that a callback may begin: the session of each, and its type. -/
def OpLocal.begins (codec : Codec) (w : World) (loc : OpLocal) (r : Result) : List (ℕ × UInt8) :=
  ((loc.frame r).toList.filter (codec.opens ·.2)).map (·.1, 0x01) ++
    (loc.outputRead r).toList.map (·, 0x10) ++
      ((loc.drained w r).toList.filter fun sid =>
        (w.g.attachSessions.lookup sid).any fun sess => sess.childExited && !sess.exitSent).map (·, 0x02) ++
        (if loc = .sigchld then w.answers.filterMap w.tells else []).map (·, 0x02)

/-- What the frames of a stream rely on: descriptors are named that are still there, and a frame is
begun only where the earlier ones have been written. -/
structure StreamStep (codec : Codec) (w : World) (op : InFlight) (r : Result) : Prop where
  naming : NamingStep w op r
  ready : ∀ x ∈ op.loc.begins codec w r, ∀ sess, w.g.attachSessions.lookup x.1 = some sess →
    (w.takeOp op.id).Ready sess.streamFd.handle.2 x.2

/-- Frames are written to every stream one after the other. -/
structure Streaming (h : List Token) (w : World) : Prop where
  named : Named h w
  apart : w.Apart
  away : w.Away
  flows : ∀ f : File, f.kind = .stream → StreamFlow w f

theorem Streaming.init : Streaming [] .init where
  named := .init
  apart := .init
  away := by
    intro op hop
    cases hop
  flows _ _ := .init

theorem Streaming.perform (hx : Streaming [] w) (hn : w.Numbered) (hop : w.findOp op.id = some op)
    (hr : op.result = none) (hallows : w.allows op r = true) : Streaming [] (w.perform op r) where
  named := hx.named.perform hn hop hr hallows
  apart := hx.apart.perform
  away := hx.away.perform
  flows f hf :=
    have hmem := List.mem_of_find?_eq_some hop
    (hx.flows f hf).perform hn hop hr hallows (hx.named.streams hmem)
      fun hloc hpending => hx.named.other hx.away hf hmem hloc hpending

section

variable {x : ℕ × UInt8} {ty : UInt8} {f' : Frame}

private theorem begins_asked (hf : loc.frame r = some (sid, f')) (ha : codec.opens f' = true) :
    (sid, 0x01) ∈ loc.begins codec w r := by
  simp [OpLocal.begins, hf, ha]

private theorem begins_data (hr : loc.outputRead r = some sid) : (sid, 0x10) ∈ loc.begins codec w r := by
  simp [OpLocal.begins, hr]

private theorem begins_drained (hd : loc.drained w r = some sid)
    (hs : w.g.attachSessions.lookup sid = some sess) (hexited : sess.childExited = true)
    (hsent : sess.exitSent = false) : (sid, 0x02) ∈ loc.begins codec w r := by
  simp [OpLocal.begins, hd, hs, hexited, hsent]

private theorem begins_told {pid : Pid} {status : ℕ} (hloc : loc = .sigchld)
    (ha : .wait (some (pid, status, sid)) ∈ w.answers) (hs : sid ∈ sessionsOf w pid)
    (hl : w.g.attachSessions.lookup sid = some sess) (hd : sess.drainDone = true)
    (hsent : sess.exitSent = false) : (sid, 0x02) ∈ loc.begins codec w r := by
  have htells : w.tells (.wait (some (pid, status, sid))) = some sid := by
    simp [World.tells, hs, hl, hd, hsent]
  have hmem : sid ∈ w.answers.filterMap w.tells := List.mem_filterMap.mpr ⟨_, ha, htells⟩
  unfold OpLocal.begins
  rw [if_pos hloc]
  exact List.mem_append_right _ (List.mem_map_of_mem hmem)

end

/-- A callback that begins a frame goes on with no write. -/
theorem continues_of_frame {x : ℕ × Frame} (hf : loc.frame r = some x) : loc.continues r = false := by
  cases loc <;> first | rfl | cases hf

private theorem continues_of_drained (hd : loc.drained w r = some sid) : loc.continues r = false := by
  cases loc with
  | sessionDataHeader =>
    cases r with
    | count n => cases hd
    | _ => rfl
  | sessionDataPayload s stream payload off =>
    cases r with
    | count n =>
      unfold OpLocal.drained at hd
      simp only at hd
      split_ifs at hd with hc
      rw [not_or] at hc
      simpa [OpLocal.continues] using hc.1
    | _ => rfl
  | _ => first | rfl | cases hd

/-- Where frames are begun only when the stream is ready, they are begun only where the previous one
ends. -/
theorem framedStep (hx : Streaming [] w) (hop : w.findOp op.id = some op) (hr : op.result = some r)
    (hok : StreamStep codec { w with answers := answers } op r) :
    FramedStep codec { w with answers := answers } op r := by
  obtain ⟨w₁, hw₁⟩ : ∃ w₁ : World, w₁ = { w with answers := answers } := ⟨_, rfl⟩
  rw [← hw₁] at hok ⊢
  have hflows : ∀ f : File, f.kind = .stream → StreamFlow w₁ f := by
    rw [hw₁]
    exact fun f hf => (hx.flows f hf).same rfl quiet_refl
  have hop₁ : w₁.findOp op.id = some op := by
    rw [hw₁]
    exact hop
  have hclear : ∀ {sid sess ty}, op.loc.continues r = false → (sid, ty) ∈ op.loc.begins codec w₁ r →
      w₁.g.attachSessions.lookup sid = some sess → (w₁.takeOp op.id).Clear sess.streamFd.handle.2 ty :=
    fun hstop hbegins hs => (hflows _ rfl).clear hop₁ hr hstop (hok.ready _ hbegins _ hs)
  constructor
  · rw [hw₁]
    exact ownStreams (w := w) hx.named.ledger hx.apart
  · intro sid f sess hf ha hs
    exact hclear (continues_of_frame hf) (begins_asked hf ha) hs
  · intro sid sess b bs hloc hb hs
    have hread : op.loc.outputRead r = some sid := by
      rw [hloc, hb]
      rfl
    exact hclear (by rw [hloc]; rfl) (begins_data hread) hs
  · intro sid sess hd hs hexited hsent
    exact hclear (continues_of_drained hd) (begins_drained hd hs hexited hsent) hs
  · intro hloc pid status s ha hs sess hl hd hsent
    exact hclear (by rw [hloc]; rfl) (begins_told hloc ha hs hl hd hsent) hl

def Terms.streaming : Terms := { Terms.none with owned := True, live := True, framed := True }

theorem streaming_invariant : Invariant .streaming codec
    (fun w e => (Delivers (StreamStep codec) w e ∧ EntersOpen w e) ∧ w.Numbered) Streaming where
  move hx hm :=
    { named := hm.named trivial trivial hx.named
      apart := hm.apart hx.apart
      away := hm.away hx.away
      flows := fun f hf => hm.streamFlow trivial hx.named hf (hx.flows f hf) }
  enter hx hok :=
    { named := hx.named.enter hok.2 hok.1.2
      apart := hx.apart.same rfl rfl
      away := hx.away
      flows := fun f hf => (hx.flows f hf).same rfl quiet_refl }
  perform hx hop hr hallows hok := hx.perform hok.2 hop hr hallows
  fits hx hop hr hok :=
    { Fits.none with
      owned := fun _ => (hok.1.1 _ _ hop hr).naming.owned
      live := fun _ => (hok.1.1 _ _ hop hr).naming.live
      framed := fun _ => framedStep hx hop hr (hok.1.1 _ _ hop hr) }

/-- As long as a frame is begun on a stream only when the earlier ones there have been written, and no
descriptor is closed while an op on it is queued, what is written to every stream is at all times a
prefix of whole frames, of which the first is a response. -/
theorem run_frames (hb : booted answers = some w₀)
    (hr : Reaches (step codec) (fun w e => Delivers (StreamStep codec) w e ∧ EntersOpen w e) w₀ w)
    (f : File) (hf : f.kind = .stream) : Always (FramedThen f) w.trace :=
  ((streaming_invariant.reaches .init hb hr).flows f hf).history

instance : Decidable (Broken f tr) := inferInstanceAs (Decidable (∃ e ∈ tr, e.breaks f = true))

theorem ready_iff {ty : UInt8} : ((∀ op ∈ w.ops, op.loc.writesTo f = true → op.unsent = []) ∧
    ¬ Broken f w.trace ∧ (ty = 0x01 ∨ bytesOn f w.trace ≠ [])) ↔ w.Ready f ty :=
  ⟨fun hx => ⟨hx.1, hx.2.1, hx.2.2⟩, fun hx => ⟨hx.idle, hx.whole, hx.after⟩⟩

instance {ty : UInt8} : Decidable (w.Ready f ty) := decidable_of_iff _ ready_iff

theorem streamStep_iff : (NamingStep w op r ∧ ∀ x ∈ op.loc.begins codec w r,
    ∀ sess ∈ w.g.attachSessions.lookup x.1, (w.takeOp op.id).Ready sess.streamFd.handle.2 x.2) ↔
      StreamStep codec w op r := ⟨fun hx => ⟨hx.1, hx.2⟩, fun hx => ⟨hx.naming, hx.ready⟩⟩

instance : Decidable (StreamStep codec w op r) := decidable_of_iff _ streamStep_iff

/-- A client runs a container; its response is written in two parts, and then the first output. -/
theorem run_frames_in_parts : ∃ w₀ w, booted quietBoot = some w₀ ∧
    Reaches (step sampleCodec)
      (fun w e => Delivers (StreamStep sampleCodec) w e ∧ EntersOpen w e) w₀ w ∧
      (bytesOn ⟨.stream, 3⟩ w.trace).drop 24 = [0x10, 1, 0, 65] ∧
        Always (FramedThen ⟨.stream, 3⟩) w.trace := by
  obtain ⟨w₀, w, hb, hr, ht⟩ := exists_of_executes (step sampleCodec)
    (fun w e => Delivers (StreamStep sampleCodec) w e ∧ EntersOpen w e) (booted quietBoot)
    (connect 1 20 3 ++ clientFrame 3 5 0x00 [5] runAttached ++
      turn 6 (.count 2) [.submit true] ++ turn 9 (.count 22) [] ++
      turn 7 (.bytes [65]) [.submit true] ++ turn 10 (.count 3) [.submit true] ++
      [.enter, .perform 11 (.count 1)])
    (fun _ w => decide ((bytesOn ⟨.stream, 3⟩ w.trace).drop 24 = [0x10, 1, 0, 65]))
    (by decide +kernel)
  exact ⟨w₀, w, hb, hr, of_decide_eq_true ht, run_frames hb hr ⟨.stream, 3⟩ rfl⟩

/-- A stream that is framed starts with a response. -/
theorem Framed.head (hx : Framed f tr) : ∀ b ∈ (bytesOn f tr).head?, b = 0x01 := by
  obtain ⟨frames, -, ⟨more, hmore⟩, hhead⟩ := hx
  intro b hb
  cases frames with
  | nil =>
    have hnil := (List.append_eq_nil_iff.mp hmore).1
    rw [hnil] at hb
    cases hb
  | cons frame frames =>
    have hfirst : (bytesOn f tr ++ more).head? = some frame.ty := by
      rw [hmore]
      rfl
    rw [List.head?_append_of_ne_nil _ (List.ne_nil_of_mem (List.mem_of_mem_head? hb))] at hfirst
    rw [hfirst] at hb
    rw [← Option.some.inj hb]
    exact hhead frame rfl

/-- The first output is written before the response is. -/
theorem output_overtakes_response : ∃ w₀ w, booted quietBoot = some w₀ ∧
    Reaches (step sampleCodec) (fun _ _ => True) w₀ w ∧
      ¬ Always (FramedThen ⟨.stream, 3⟩) w.trace := by
  obtain ⟨w₀, w, hb, hr, ht⟩ := exists_of_executes (step sampleCodec) (fun _ _ => True)
    (booted quietBoot)
    (connect 1 20 3 ++ clientFrame 3 5 0x00 [5] runAttached ++
      turn 7 (.bytes [65]) [.submit true] ++ [.enter, .perform 9 (.count 3)])
    (fun _ w => decide (bytesOn ⟨.stream, 3⟩ w.trace = [0x10, 1, 0])) (by decide +kernel)
  refine ⟨w₀, w, hb, hr, fun hx => ?_⟩
  have hbytes := of_decide_eq_true ht
  have hne : w.trace ≠ [] := by
    intro hnil
    rw [hnil] at hbytes
    cases hbytes
  have hlast : FramedThen ⟨.stream, 3⟩ w.trace.dropLast (w.trace.getLast hne) := by
    apply hx
    rw [List.dropLast_append_getLast]
  unfold FramedThen at hlast
  rw [List.dropLast_append_getLast] at hlast
  have hfirst := hlast.head 0x10 (by rw [hbytes]; rfl)
  cases hfirst

end Conrt.Daemon
