import Conrt.Daemon.RequestMoves

/-! The moves of a step: the callbacks of the reads and of the loops, and what each step relies
on. -/
namespace Conrt.Daemon

open Conrt.Base

def Codec.asked (codec : Codec) (f : Frame) : Option Request :=
  if f.ty = 0x00 then (codec.request f.payload).toOption else none

/-- A frame that asks for a container. -/
def Codec.opens (codec : Codec) (f : Frame) : Bool :=
  match codec.asked f with
  | some (.run _) | some (.attach _) => true
  | _ => false

def Codec.kills (codec : Codec) (loc : OpLocal) (r : Result) : Option Pid :=
  match loc, r with
  | .datagram _, .received b _ =>
    match codec.request b with
    | .ok (.kill pid) => some pid
    | _ => none
  | _, _ => none

def OpLocal.closes (w : World) (loc : OpLocal) (r : Result) : Option ℕ :=
  match loc, r with
  | .sessionFrame sid _ buf off, .count n =>
    if buf.length ≤ off + n ∧ (w.g.attachSessions.lookup sid).any (·.exitSent) then some sid else none
  | .sessionFrame sid _ _ _, _ => some sid
  | .sessionHeader _ _, .bytes (_ :: _) => none
  | .sessionHeader sid _, _ => some sid
  | .sessionPayload sid frameType acc need, .bytes (b :: bs) =>
    match OpLocal.frame (.sessionPayload sid frameType acc need) (.bytes (b :: bs)) with
    | some (_, f) => if f.ty = 0x10 ∨ f.ty = 0x11 ∨ f.ty = 0x20 then none else some sid
    | none => none
  | .sessionPayload sid _ _ _, _ => some sid
  | _, _ => none

def OpLocal.drained (w : World) (loc : OpLocal) (r : Result) : Option ℕ :=
  match loc, r with
  | .sessionOutputRead _, .bytes (_ :: _) => none
  | .sessionOutputRead sid, _ => some sid
  | .sessionDataHeader _ _ _ _ _, .count _ => none
  | .sessionDataHeader sid _ _ _ _, _ => some sid
  | .sessionDataPayload sid _ payload off, .count n =>
    if off + n < payload.length ∨
      ((w.g.attachSessions.lookup sid).bind AttachSession.outputFd).isSome then none else some sid
  | .sessionDataPayload sid _ _ _, _ => some sid
  | _, _ => none

def OpLocal.ends (loc : OpLocal) (r : Result) : Option Pid :=
  match loc, r with
  | .containerOutput _ _, .bytes (_ :: _) | .containerPtyOutput _ _, .bytes (_ :: _) => none
  | .containerOutput pid _, _ | .containerPtyOutput pid _, _ => some pid
  | _, _ => none

section

variable (codec : Codec) (w : World) (op : InFlight) (r : Result)

/-- No borrowed stdin is closed. -/
def OwnedStep : Prop :=
  ∀ sid payload sess, op.loc.frame r = some (sid, ⟨0x11, payload⟩) →
    w.g.attachSessions.lookup sid = some sess → sess.ptmFd = none → sess.inputFd = none

/-- A write goes on, or begins on a stdin, only while its descriptor is still there. -/
structure LiveStep : Prop where
  goesOn : op.loc.continues r = true → w.backed op.loc = true
  begins : ∀ sid payload, op.loc.frame r = some (sid, ⟨0x10, payload⟩) → payload ≠ [] →
    w.backed (.sessionStdin sid payload 0) = true

/-- If the session may be closed, it has had its exit frame, or never had a container. -/
def OrderlyStep (sid : ℕ) : Prop :=
  op.loc.closes w r = some sid → w.g.attachSessions.lookup sid ≠ none → Settled sid w.trace

/-- Each child about to be reaped has at most one session, and none attaches to a reaped one. -/
structure ToldStep : Prop where
  lone : op.loc = .sigchld → LoneReaps w
  alive : ∀ sid f pid, op.loc.frame r = some (sid, f) → codec.asked f = some (.attach pid) →
    w.g.containers.lookup pid ≠ none → exitOf pid w.trace = none

/-- A frame is started only where the previous one ends. -/
structure FramedStep : Prop where
  own : OwnStreams w
  asked : ∀ sid f sess, op.loc.frame r = some (sid, f) → codec.opens f = true →
    w.g.attachSessions.lookup sid = some sess →
      (w.takeOp op.id).Clear sess.streamFd.handle.2 0x01
  data : ∀ sid sess b bs, op.loc = .sessionOutputRead sid → r = .bytes (b :: bs) →
    w.g.attachSessions.lookup sid = some sess →
      (w.takeOp op.id).Clear sess.streamFd.handle.2 0x10
  drained : ∀ sid sess, op.loc.drained w r = some sid → w.g.attachSessions.lookup sid = some sess →
    sess.childExited = true → sess.exitSent = false →
      (w.takeOp op.id).Clear sess.streamFd.handle.2 0x02
  told : op.loc = .sigchld → ∀ pid status s, Answer.wait (some (pid, status, s)) ∈ w.answers →
    s ∈ sessionsOf w pid → TellClear (w.takeOp op.id) s

/-- Stdin frames wait until the earlier ones are written. -/
structure CalmStep : Prop where
  data : ∀ sid payload, op.loc.frame r = some (sid, ⟨0x10, payload⟩) → payload ≠ [] →
    StdinClear sid w.trace
  eof : ∀ sid payload sess, op.loc.frame r = some (sid, ⟨0x11, payload⟩) →
    w.g.attachSessions.lookup sid = some sess → sess.stdinFd ≠ none →
      w.StdinIdle sid ∧ ∀ payload, .offered sid none payload ∉ w.trace
  asked : ∀ sid f, op.loc.frame r = some (sid, f) → codec.opens f = true → w.StdinIdle sid

/-- A child to be killed that still has drains running has not been reaped. -/
def KnownStep : Prop :=
  ∀ pid info, codec.kills op.loc r = some pid → w.g.containers.lookup pid = some info →
    0 < info.drainsPending → pid ∈ w.children

/-- The last drain of a container ends after its child has been reaped. -/
def OutlivedStep : Prop :=
  ∀ pid info, op.loc.ends r = some pid → w.g.containers.lookup pid = some info →
    info.drainsPending ≤ 1 → pid ∉ w.children

/-- No child gets the pid of a container in the table. -/
def FreshStep : Prop :=
  ∀ pid, Answer.clone (.ok pid) ∈ w.answers → w.g.containers.lookup pid = none

/-- No child gets the pid of a container whose log is kept. -/
def NovelStep : Prop :=
  ∀ pid, Answer.clone (.ok pid) ∈ w.answers → w.g.logGraveyard.lookup pid = none

/-- A session that may be closed holds no descriptor but its stream, a container whose last drain
ends has no death pipe, and no session that is gone attaches. -/
structure TidyStep : Prop where
  session : ∀ sid sess, op.loc.closes w r = some sid →
    w.g.attachSessions.lookup sid = some sess → sess.ptmFd = none ∧ sess.logReadFd = none
  container : ∀ pid info, op.loc.ends r = some pid → w.g.containers.lookup pid = some info →
    info.drainsPending ≤ 1 → info.deathPipeWrite = none
  attach : ∀ sid f pid, op.loc.frame r = some (sid, f) → codec.asked f = some (.attach pid) →
    w.g.containers.lookup pid ≠ none → w.g.attachSessions.lookup sid ≠ none

/-- No session is given a second container; a drain is a session's only one, and began after it was
given a container. -/
structure SingleStep : Prop where
  asked : ∀ sid f, op.loc.frame r = some (sid, f) → codec.opens f = true →
    ¬ Adopted sid w.trace ∧ w.Undrained sid
  drain : ∀ sid, op.loc.outputOf = some sid → (w.takeOp op.id).Draining sid

end

structure Fits (τ : Terms) (codec : Codec) (w : World) (op : InFlight) (r : Result) : Prop where
  owned : τ.owned → OwnedStep w op r
  live : τ.live → LiveStep w op r
  orderly : ∀ sid, τ.orderly sid → OrderlyStep w op r sid
  told : τ.told → ToldStep codec w op r
  framed : τ.framed → FramedStep codec w op r
  calm : τ.calm → CalmStep codec w op r
  known : τ.known → KnownStep codec w op r
  outlived : τ.outlived → OutlivedStep w op r
  fresh : τ.fresh → FreshStep w
  novel : τ.novel → NovelStep w
  tidy : τ.tidy → TidyStep codec w op r
  single : τ.single → SingleStep codec w op r

variable {τ : Terms} {h : List Token} {w w' : World} {sid : ℕ} {sess : AttachSession}
  {codec : Codec}

theorem sessionStream_bind {β : Type} {b : List Token × World} {f : Option Handle → M β}
    {P : β → List Token → World → Prop} (hf : Trail (Move τ) b w (f (w.streamFd sid)) P) :
    Trail (Move τ) b w (sessionStream sid >>= f) P := by
  unfold sessionStream
  rw [bind_assoc]
  refine findSession_bind ?_
  rw [pure_bind]
  exact hf

private theorem reader_sessionLocal {rd : Reading} : (sessionLocal sid rd).reader = some sid := by
  cases rd <;> rfl

theorem submitReading_steady {fd : Option Handle} {rd : Reading} (hfd : fd = w.streamFd sid) :
    Steady τ h w (submitReading sid fd rd) := by
  subst hfd
  unfold submitReading
  refine submitFor_steady ?_ fun as => .read reader_sessionLocal
  cases rd <;> rfl

theorem armSessionRead_steady : Steady τ h w (armSessionRead sid) := by
  unfold armSessionRead
  refine sessionStream_bind ?_
  cases hs : w.streamFd sid with
  | none => exact Trail.pure rfl
  | some fd => exact submitReading_steady hs.symm

/-- Two changes that do the same to the session do the same to the state. -/
theorem modifySession_congr {f : AttachSession → AttachSession} (f' : AttachSession → AttachSession)
    (hs : w.g.attachSessions.lookup sid = some sess) (hf : f sess = f' sess) :
    w.modifySession sid f = w.modifySession sid f' := by
  unfold World.modifySession
  rw [Table.update_of_some hs, Table.update_of_some hs, hf]

theorem dispatchStdin_steady {payload : Bytes}
    (hlive : τ.live → payload ≠ [] → w.backed (.sessionStdin sid payload 0) = true)
    (hcalm : τ.calm → payload ≠ [] → StdinClear sid w.trace) :
    Steady τ h w (dispatchStdin sid payload) := by
  unfold dispatchStdin
  refine Trail.ite (fun hne => ?_) fun _ => Trail.pure rfl
  refine sessionStdin_bind (note_bind ?_)
  cases hfd : w.stdinFd sid with
  | none => exact Trail.commit (.ignore hfd) (Trail.pure rfl)
  | some fd =>
    refine submit_discard fun as ok _ => Trail.move (idle_answers as) ?_
    exact Trail.commit (.offer hfd (fun ht => hlive ht hne) fun ht => hcalm ht hne) (Trail.pure rfl)

theorem dispatchEof_steady
    (howned : τ.owned → ∀ sess, w.g.attachSessions.lookup sid = some sess → sess.ptmFd = none →
      sess.inputFd = none)
    (hcalm : τ.calm → ∀ sess, w.g.attachSessions.lookup sid = some sess → sess.stdinFd ≠ none →
      w.StdinIdle sid ∧ ∀ payload, .offered sid none payload ∉ w.trace) :
    Steady τ h w (dispatchEof sid) := by
  unfold dispatchEof
  refine findSession_bind ?_
  cases hs : w.g.attachSessions.lookup sid with
  | none => exact Trail.pure rfl
  | some sess =>
    have hcalm' : sess.stdinFd ≠ none → τ.calm → w.StdinIdle sid ∧
        ∀ payload, .offered sid none payload ∉ w.trace := fun hfd ht => hcalm ht sess hs hfd
    unfold AttachSession.stdinFd at hcalm' ⊢
    cases hp : sess.ptmFd with
    | some fd =>
      rw [hp] at hcalm'
      simp only [hp]
      refine Trail.modify_bind ?_
      rw [modifySession_congr ({ · with ptmFd := none }) hs (by simp [hp])]
      refine note_bind (Trail.commit (.eofOwn hs hp (hcalm' (by simp))) ?_)
      exact Trail.update (.release rfl) rfl
    | none =>
      rw [hp] at hcalm'
      simp only [hp]
      cases hi : sess.inputFd with
      | none => exact Trail.pure rfl
      | some i =>
        rw [hi] at hcalm'
        simp only [Option.map_some]
        have hborrowed : ¬ τ.owned := fun ht => by
          have := howned ht sess hs hp
          rw [hi] at this
          cases this
        refine Trail.modify_bind ?_
        rw [modifySession_congr ({ · with inputFd := none }) hs (by simp [hp])]
        refine note_bind (Trail.modify_bind ?_)
        exact Trail.commit (.eofBorrowed hs hp hi hborrowed (hcalm' (by simp))) (Trail.pure rfl)

theorem dispatchWinSize_steady {payload : Bytes} : Steady τ h w (dispatchWinSize codec sid payload) := by
  unfold dispatchWinSize
  split
  · exact Trail.pure rfl
  · refine findSession_bind ?_
    split
    · exact Trail.update (.note trivial) rfl
    · exact Trail.pure rfl

structure FrameFits (τ : Terms) (codec : Codec) (w : World) (sid : ℕ) (f : Frame) : Prop where
  asked : codec.opens f = true → Requested τ w sid
  run : ∀ args, codec.asked f = some (.run args) → CloneNew τ w
  attach : ∀ pid, codec.asked f = some (.attach pid) → Attachable τ w sid pid
  malformed : ¬ (f.ty = 0x10 ∨ f.ty = 0x11 ∨ f.ty = 0x20) → Closable τ w sid
  live : τ.live → f.ty = 0x10 → f.payload ≠ [] → w.backed (.sessionStdin sid f.payload 0) = true
  calm : τ.calm → f.ty = 0x10 → f.payload ≠ [] → StdinClear sid w.trace
  owned : τ.owned → f.ty = 0x11 → ∀ sess, w.g.attachSessions.lookup sid = some sess →
    sess.ptmFd = none → sess.inputFd = none
  eof : τ.calm → f.ty = 0x11 → ∀ sess, w.g.attachSessions.lookup sid = some sess →
    sess.stdinFd ≠ none → w.StdinIdle sid ∧ ∀ payload, .offered sid none payload ∉ w.trace

/-- When the frame closes the session, the session may be closed. -/
theorem dispatchFrame_trail {f : Frame} (hx : FrameFits τ codec w sid f) :
    Trail (Move τ) (h, w) w (dispatchFrame codec sid f) fun r h' w' =>
      h' = h ∧ (r = false → Closable τ w' sid) := by
  have hclosed : ∀ {w' : World}, w'.g.attachSessions.lookup sid = none → Closable τ w' sid := by
    intro w' hnone sess hs
    rw [hnone] at hs
    cases hs
  have htrue : ∀ {m : M Unit}, Steady τ h w m →
      Trail (Move τ) (h, w) w (m >>= fun _ => pure true) fun r h' w' =>
        h' = h ∧ (r = false → Closable τ w' sid) := fun hm =>
    hm.bind fun _ _ _ hh => Trail.pure ⟨hh, fun hr => by cases hr⟩
  unfold dispatchFrame
  refine Trail.ite (fun hty => ?_) fun hty => ?_
  · have hasked : codec.asked f = (codec.request f.payload).toOption := if_pos hty
    have hmalformed : Closable τ w sid := hx.malformed (by rw [hty]; decide)
    split
    · rename_i args hreq
      have ha : codec.asked f = some (.run args) := by rw [hasked, hreq]; rfl
      have hopens : codec.opens f = true := by unfold Codec.opens; rw [ha]
      exact (handleRunAttach_answers (hx.run args ha) (hx.asked hopens)).post
        fun _ _ _ hw => ⟨hw.1, fun hr => hclosed (hw.2 hr)⟩
    · rename_i pid hreq
      have ha : codec.asked f = some (.attach pid) := by rw [hasked, hreq]; rfl
      have hopens : codec.opens f = true := by unfold Codec.opens; rw [ha]
      exact (handleAttach_answers (hx.asked hopens) (hx.attach pid ha)).post
        fun _ _ _ hw => ⟨hw.1, fun hr => hclosed (hw.2 hr)⟩
    · exact Trail.pure ⟨rfl, fun _ => hmalformed⟩
  · refine Trail.ite (fun hty' => htrue ?_) fun hty' => ?_
    · exact dispatchStdin_steady (fun ht => hx.live ht hty') fun ht => hx.calm ht hty'
    · refine Trail.ite (fun hty₂ => htrue ?_) fun hty₂ => ?_
      · exact dispatchEof_steady (fun ht => hx.owned ht hty₂) fun ht => hx.eof ht hty₂
      · refine Trail.ite (fun hty₃ => htrue dispatchWinSize_steady) fun hty₃ => ?_
        refine Trail.pure ⟨rfl, fun _ => hx.malformed ?_⟩
        rintro (h | h | h)
        · exact hty' h
        · exact hty₂ h
        · exact hty₃ h

theorem FrameFits.storeOp {f : Frame} {which : SessionOp} {op : Option ℕ}
    (hx : FrameFits τ codec w sid f) :
    FrameFits τ codec (w.modifySession sid (·.storeOp which op)) sid f := by
  have hnone : (w.modifySession sid (·.storeOp which op)).g.attachSessions.lookup sid = none ↔
      w.g.attachSessions.lookup sid = none := by
    change (w.g.attachSessions.update sid _).lookup sid = none ↔ _
    rw [Table.lookup_update_ite, if_pos rfl, Option.map_eq_none_iff]
  refine ⟨fun ha => ?_, fun args ha => ?_, fun pid ha => ?_, fun hm => (hx.malformed hm).storeOp,
    fun ht hty hne => ?_, hx.calm, fun ht hty sess hs hp => ?_, fun ht hty sess hs hfd => ?_⟩
  · have hr := hx.asked ha
    refine ⟨hr.closable.storeOp, fun ht sess hs => ?_, hr.calm, fun ht => ?_⟩
    · obtain ⟨s, readOp, outputOp, hs', rfl⟩ := lookup_storeOp hs
      exact hr.clear ht s hs'
    · obtain ⟨hnew, hidle, hpending⟩ := hr.single ht
      refine ⟨hnew, hidle, fun sess hs => ?_⟩
      obtain ⟨s, readOp, outputOp, hs', rfl⟩ := lookup_storeOp hs
      exact hpending s hs'
  · exact ⟨(hx.run args ha).fresh, (hx.run args ha).novel⟩
  · refine ⟨(hx.attach pid ha).told, fun ht hl hs => ?_⟩
    exact (hx.attach pid ha).listed ht hl (hnone.mp hs)
  · have hb := hx.live ht hty hne
    unfold World.backed at hb ⊢
    simp only at hb ⊢
    cases hs : (w.modifySession sid (·.storeOp which op)).g.attachSessions.lookup sid with
    | none => rfl
    | some sess =>
      obtain ⟨s, readOp, outputOp, hs', rfl⟩ := lookup_storeOp hs
      rw [hs'] at hb
      exact hb
  · obtain ⟨s, readOp, outputOp, hs', rfl⟩ := lookup_storeOp hs
    exact hx.owned ht hty s hs' hp
  · obtain ⟨s, readOp, outputOp, hs', rfl⟩ := lookup_storeOp hs
    exact hx.eof ht hty s hs' hfd

theorem onFrame_steady {f : Frame} (hx : FrameFits τ codec w sid f) :
    Steady τ h w (onFrame codec sid f) := by
  unfold onFrame
  refine storeSessionOp_bind ((dispatchFrame_trail hx.storeOp).bind fun r h' w' hw => ?_)
  obtain ⟨rfl, hclose⟩ := hw
  cases r with
  | true => exact armSessionRead_steady
  | false => exact closeSession_steady (hclose rfl)

private theorem streamFd_storeOp {which : SessionOp} {op : Option ℕ} :
    (w.modifySession sid (·.storeOp which op)).streamFd sid = w.streamFd sid := by
  unfold World.streamFd
  change ((w.g.attachSessions.update sid _).lookup sid).map _ = _
  rw [Table.lookup_update_ite, if_pos rfl, Option.map_map]
  cases which <;> rfl

theorem onSessionRead_steady {rd : Reading} {r : Result}
    (hf : ∀ b bs f, r = .bytes (b :: bs) → rd.feed (b :: bs) = .inr f → FrameFits τ codec w sid f)
    (hx : (∀ b bs, r ≠ .bytes (b :: bs)) → Closable τ w sid) :
    Steady τ h w (onSessionRead codec sid rd r) := by
  unfold onSessionRead
  split
  · rename_i b bs
    split
    · rename_i frameType acc need hfeed
      refine sessionStream_bind (storeSessionOp_bind ?_)
      exact submitReading_steady streamFd_storeOp.symm
    · rename_i rd' hfeed
      exact sessionStream_bind (submitReading_steady rfl)
    · rename_i f hfeed
      exact onFrame_steady (hf b bs f rfl hfeed)
  · rename_i hno
    exact closeSession_steady (hx hno)

theorem relisten_steady {l : Loop} {loc : OpLocal} {fd : Option Handle} {want : ℕ}
    (hl : loc.loop = some l) (hloose : loc.loose = false) (hfd : fd = w.loopFd l) :
    Trail (Move τ) (.loop l :: h, w) w (discard <| submit loc fd want) fun _ h' _ => h' = h := by
  subst hfd
  refine submit_discard fun as ok _ => Trail.move (idle_answers as) ?_
  cases ok with
  | true => exact Trail.commit (.relisten hl) (Trail.pure rfl)
  | false => exact Trail.commit (.denied (.loop hl hloose)) (Trail.pure rfl)

theorem armAccept_steady :
    Trail (Move τ) (.loop .accept :: h, w) w armAccept fun _ h' _ => h' = h := by
  unfold armAccept
  exact Trail.get_bind (relisten_steady rfl rfl rfl)

theorem armSigchld_steady :
    Trail (Move τ) (.loop .sigchld :: h, w) w armSigchld fun _ h' _ => h' = h := by
  unfold armSigchld
  refine call_calls.bind fun r h' w' hw => ?_
  obtain ⟨rfl, hk⟩ := hw
  cases r with
  | error e => exact Trail.update (.starved (.loop rfl rfl)) rfl
  | ok _ => exact Trail.get_bind (relisten_steady rfl rfl rfl)

theorem armDatagram_steady :
    Trail (Move τ) (.loop .datagram :: h, w) w armDatagram fun _ h' _ => h' = h := by
  unfold armDatagram
  refine call_calls.bind fun r h' w' hw => ?_
  obtain ⟨rfl, hk⟩ := hw
  cases r with
  | error e => exact Trail.update (.starved (.loop rfl rfl)) rfl
  | ok _ => exact Trail.get_bind (relisten_steady rfl rfl rfl)

theorem onAccept_trail {r : Result} :
    Trail (Move τ) (.loop .accept :: (hold r.handles ++ h), w) w (onAccept r)
      fun _ h' _ => h' = h := by
  unfold onAccept
  split
  · rename_i fd
    refine Trail.move (.perm (List.Perm.swap (.loop .accept) (.fd fd.handle) h)) ?_
    refine Trail.get_bind (Trail.modify_bind (Trail.commit .accept ?_))
    refine armSessionRead_steady.bind fun _ h' w' hh => ?_
    rw [hh]
    exact armAccept_steady
  · rename_i hno
    have hnil : r.handles = [] := by
      cases r with
      | accepted fd => exact (hno fd rfl).elim
      | _ => rfl
    rw [hnil]
    exact armAccept_steady

theorem onSigchld_trail {r : Result} (hx : ∀ b bs, r = .bytes (b :: bs) → Sweepable τ w) :
    Trail (Move τ) (OpLocal.tokens r .sigchld ++ h, w) w (onSigchld r) fun _ h' _ => h' = h := by
  unfold onSigchld
  split
  · rename_i b bs
    refine (reapChildren_steady (hx b bs rfl)).bind fun _ h' w' hh => ?_
    rw [hh]
    exact armSigchld_steady
  · exact armSigchld_steady
  · rename_i hno hno'
    have hnil : OpLocal.tokens r .sigchld = [] := by
      cases r with
      | bytes b =>
        cases b with
        | nil => exact (hno' rfl).elim
        | cons b bs => exact (hno b bs rfl).elim
      | _ => rfl
    rw [hnil]
    exact Trail.pure rfl

theorem onDatagramPeek_trail {r : Result} :
    Trail (Move τ) (.loop .datagram :: h, w) w (onDatagramPeek r) fun _ h' _ => h' = h := by
  unfold onDatagramPeek
  split
  · rename_i n
    refine Trail.get_bind (submit_bind fun as ok _ => Trail.move (idle_answers as) ?_)
    cases ok with
    | true => exact Trail.commit (.relisten rfl) (Trail.pure rfl)
    | false => exact Trail.commit (.refused rfl) armDatagram_steady
  · exact armDatagram_steady

theorem onDatagram_trail {r : Result}
    (hx : ∀ b sender request, r = .received b sender → codec.request b = .ok request →
      RequestFits τ w request) :
    Trail (Move τ) (.loop .datagram :: h, w) w (onDatagram codec r) fun _ h' _ => h' = h := by
  unfold onDatagram
  split
  · rename_i b bs sender
    split
    · refine replyDatagram_spares.bind fun _ h' w' hw => ?_
      obtain ⟨rfl, hk⟩ := hw
      exact armDatagram_steady
    · rename_i request hreq
      refine (handleDatagram_steady (hx _ sender request rfl hreq)).bind fun _ h' w' hh => ?_
      rw [hh]
      exact armDatagram_steady
  · exact armDatagram_steady

section

variable {id : ℕ} {op : InFlight} {r : Result}

theorem Fits.closable (hx : Fits τ codec w op r) {sid : ℕ} (hc : op.loc.closes w r = some sid) :
    Closable τ (w.takeOp op.id) sid := by
  intro sess hs
  refine ⟨fun ht => hx.orderly sid ht hc ?_, fun ht => (hx.tidy ht).session sid sess hc hs⟩
  have hs' : w.g.attachSessions.lookup sid = some sess := hs
  rw [hs']
  exact Option.some_ne_none sess

theorem Fits.exitClear (hx : Fits τ codec w op r) {sid : ℕ} (hd : op.loc.drained w r = some sid) :
    ExitClear τ (w.takeOp op.id) sid :=
  fun ht sess hs => (hx.framed ht).drained sid sess hd hs

theorem Fits.drainCloses (hx : Fits τ codec w op r) {pid : Pid} (he : op.loc.ends r = some pid) :
    DrainCloses τ (w.takeOp op.id) pid := fun info hi hle =>
  ⟨fun ht => hx.outlived ht pid info he hi hle, fun ht => (hx.tidy ht).container pid info he hi hle⟩

theorem Fits.cloneNew (hx : Fits τ codec w op r) : CloneNew τ (w.takeOp op.id) :=
  ⟨fun ht => hx.fresh ht, fun ht => hx.novel ht⟩

theorem takeOp_stdinIdle {sid : ℕ} (hi : w.StdinIdle sid) : (w.takeOp id).StdinIdle sid :=
  fun o ho => hi o (List.mem_of_mem_eraseP ho)

theorem Fits.frame (hx : Fits τ codec w op r) {sid : ℕ} {f : Frame}
    (hf : op.loc.frame r = some (sid, f)) : FrameFits τ codec (w.takeOp op.id) sid f := by
  have hcloses : ¬ (f.ty = 0x10 ∨ f.ty = 0x11 ∨ f.ty = 0x20) → op.loc.closes w r = some sid := by
    intro hty
    unfold OpLocal.frame at hf
    split at hf
    · rename_i s frameType acc need b bs hloc
      unfold OpLocal.closes
      split at hf
      · cases hf
      · rename_i f' hfeed
        obtain ⟨rfl, rfl⟩ := Prod.mk.inj (Option.some.inj hf)
        rw [hloc]
        simp only [OpLocal.frame, hfeed, hty, if_false]
    · cases hf
  refine ⟨fun ha => ?_, fun _ _ => hx.cloneNew, fun pid ha => ?_,
    fun hty => hx.closable (hcloses hty), fun ht hty hne => ?_, fun ht hty hne => ?_,
    fun ht hty sess hs hp => ?_, fun ht hty sess hs hfd => ?_⟩
  · have hty : ¬ (f.ty = 0x10 ∨ f.ty = 0x11 ∨ f.ty = 0x20) := by
      intro hty
      unfold Codec.opens Codec.asked at ha
      rcases hty with hty | hty | hty <;> rw [hty] at ha <;> simp at ha
    refine ⟨hx.closable (hcloses hty), fun ht sess hs => ?_, fun ht => ?_, fun ht => ?_⟩
    · exact (hx.framed ht).asked sid f sess hf ha hs
    · exact takeOp_stdinIdle ((hx.calm ht).asked sid f hf ha)
    · obtain ⟨hnew, hidle, hpending⟩ := (hx.single ht).asked sid f hf ha
      exact ⟨hnew, fun o ho => hidle o (List.mem_of_mem_eraseP ho), hpending⟩
  · exact ⟨fun ht hl => (hx.told ht).alive sid f pid hf ha hl,
      fun ht hl => (hx.tidy ht).attach sid f pid hf ha hl⟩
  · have hframe : op.loc.frame r = some (sid, ⟨0x10, f.payload⟩) := by rw [hf, ← hty]
    exact (hx.live ht).begins sid f.payload hframe hne
  · have hframe : op.loc.frame r = some (sid, ⟨0x10, f.payload⟩) := by rw [hf, ← hty]
    exact (hx.calm ht).data sid f.payload hframe hne
  · have hframe : op.loc.frame r = some (sid, ⟨0x11, f.payload⟩) := by rw [hf, ← hty]
    exact hx.owned ht sid f.payload sess hframe hs hp
  · have hframe : op.loc.frame r = some (sid, ⟨0x11, f.payload⟩) := by rw [hf, ← hty]
    obtain ⟨hi, hnone⟩ := (hx.calm ht).eof sid f.payload sess hframe hs hfd
    exact ⟨takeOp_stdinIdle hi, hnone⟩

theorem findOp_id (hop : w.findOp id = some op) : op.id = id := by
  simpa using List.find?_some hop

/-- A read that brings nothing. -/
theorem Result.nothing_cases (hno : ∀ b bs, r ≠ .bytes (b :: bs)) :
    r = .bytes [] ∨ (∃ n, r = .count n) ∨ (∃ fd, r = .accepted fd) ∨
      (∃ b sender, r = .received b sender) ∨ ∃ errno, r = .failed errno := by
  cases r with
  | bytes b =>
    cases b with
    | nil => exact .inl rfl
    | cons b bs => exact (hno b bs rfl).elim
  | count n => exact .inr (.inl ⟨n, rfl⟩)
  | accepted fd => exact .inr (.inr (.inl ⟨fd, rfl⟩))
  | received b sender => exact .inr (.inr (.inr (.inl ⟨b, sender, rfl⟩)))
  | failed errno => exact .inr (.inr (.inr (.inr ⟨errno, rfl⟩)))

theorem OpLocal.ends_nothing {kind : Drain} {pid : Pid} {lineBuf : Bytes}
    (hno : ∀ b bs, r ≠ .bytes (b :: bs)) : (kind.loc pid lineBuf).ends r = some pid := by
  obtain rfl | ⟨n, rfl⟩ | ⟨fd, rfl⟩ | ⟨b, sender, rfl⟩ | ⟨errno, rfl⟩ := Result.nothing_cases hno <;>
    cases kind <;> rfl

theorem OpLocal.closes_nothing {loc : OpLocal} {sid : ℕ} (hl : loc.reader = some sid)
    (hno : ∀ b bs, r ≠ .bytes (b :: bs)) : loc.closes w r = some sid := by
  cases loc <;> cases hl <;>
    obtain rfl | ⟨n, rfl⟩ | ⟨fd, rfl⟩ | ⟨b, sender, rfl⟩ | ⟨errno, rfl⟩ := Result.nothing_cases hno <;>
    rfl

private theorem OpLocal.drained_nothing {sid : ℕ} (hno : ∀ b bs, r ≠ .bytes (b :: bs)) :
    (OpLocal.sessionOutputRead sid).drained w r = some sid := by
  obtain rfl | ⟨n, rfl⟩ | ⟨fd, rfl⟩ | ⟨b, sender, rfl⟩ | ⟨errno, rfl⟩ := Result.nothing_cases hno <;>
    rfl

/-- Every callback is a sequence of moves that leaves nothing in hand. -/
theorem callback_completes (hop : w.findOp id = some op) (hr : op.result = some r)
    (hx : Fits τ codec w op r) : Completes τ h w id (callback codec r op.loc) := by
  obtain rfl := findOp_id hop
  obtain ⟨id, loc, fd, want, result⟩ := op
  have hlive : τ.live → loc.continues r → w.backed loc := fun ht => (hx.live ht).goesOn
  have hdraining : ∀ {sid}, loc.outputOf = some sid → τ.single → (w.takeOp id).Draining sid :=
    fun ho ht => (hx.single ht).drain _ ho
  have hret : ∀ {m : M Unit}, loc.continues r = false →
      (Trail (Move τ) (loc.tokens r ++ h, w.takeOp id) (w.takeOp id) m fun _ h' _ => h' = h) →
        Completes τ h w id m := fun hstop => retire_completes hop hr (.inr hstop)
  cases loc with
  | datagram size =>
    refine hret rfl (onDatagram_trail fun b sender request hb hreq => ⟨fun _ _ => hx.cloneNew, ?_⟩)
    intro pid hk ht info hi hpos
    refine hx.known ht pid info ?_ hi hpos
    simp only [Codec.kills, hb, hreq, hk]
  | datagramPeek => exact hret rfl onDatagramPeek_trail
  | followSend closeAfter => exact hret rfl (Trail.update (.release rfl) rfl)
  | accept => exact hret rfl onAccept_trail
  | sigchld =>
    refine hret rfl (onSigchld_trail fun b bs hb => ⟨fun ht => ?_, fun ht => ?_, fun ht => ?_⟩)
    · exact (hx.told ht).lone rfl
    · exact (hx.framed ht).own
    · exact (hx.framed ht).told rfl
  | containerOutput pid lineBuf =>
    have hends : (∀ b bs, r ≠ .bytes (b :: bs)) → (Drain.output.loc pid lineBuf).ends r = some pid :=
      OpLocal.ends_nothing
    exact onContainerOutput_completes hop rfl hr fun hno => hx.drainCloses (hends hno)
  | containerPtyOutput pid lineBuf =>
    have hends : (∀ b bs, r ≠ .bytes (b :: bs)) → (Drain.pty.loc pid lineBuf).ends r = some pid :=
      OpLocal.ends_nothing
    exact onContainerPtyOutput_completes hop rfl hr fun hno => hx.drainCloses (hends hno)
  | followWrite pid pipeId fd chunks => exact onFollowWrite_completes hop rfl hr hlive
  -- the client's frames
  | sessionHeader sid acc =>
    refine hret rfl (onSessionRead_steady (fun b bs f _ hfeed => ?_) fun hno => hx.closable ?_)
    · unfold Reading.feed at hfeed
      simp only at hfeed
      split at hfeed <;> cases hfeed
    · exact OpLocal.closes_nothing rfl hno
  | sessionPayload sid frameType acc need =>
    refine hret rfl (onSessionRead_steady (fun b bs f hb hfeed => hx.frame ?_) fun hno =>
      hx.closable ?_)
    · simp only [hb, OpLocal.frame, hfeed]
    · exact OpLocal.closes_nothing rfl hno
  -- the frames to the client
  | sessionFrame sid stream buf off =>
    refine onSessionFrame_completes hop rfl hr hlive ?_
    by_cases hc : OpLocal.closes w (.sessionFrame sid stream buf off) r = some sid
    · exact .inl (hx.closable hc)
    · cases r with
      | count n =>
        refine .inr ⟨n, rfl, fun hle => ?_⟩
        by_contra hexit
        rw [Bool.not_eq_false] at hexit
        exact hc (if_pos ⟨hle, hexit⟩)
      | _ => exact (hc rfl).elim
  | sessionDataHeader sid stream header payload off =>
    refine onSessionDataHeader_completes hop rfl hr hlive (fun hno => hx.exitClear ?_) (hdraining rfl)
    cases r with
    | count n => exact (hno n rfl).elim
    | _ => rfl
  | sessionDataPayload sid stream payload off =>
    refine onSessionDataPayload_completes hop rfl hr hlive (fun hcont hout => hx.exitClear ?_)
      (hdraining rfl)
    cases r with
    | count n =>
      have hnone := hout ⟨n, rfl⟩
      have hlt : ¬ off + n < payload.length := by simpa [OpLocal.continues] using hcont
      unfold OpLocal.drained
      simp only [hnone, hlt, Option.isSome_none, Bool.false_eq_true, or_self, if_false]
    | _ => rfl
  | sessionOutputRead sid =>
    refine hret rfl (onSessionOutput_steady (hdraining rfl) (fun ht b bs hb sess hs => ?_) fun hno =>
      hx.exitClear (OpLocal.drained_nothing hno))
    exact (hx.framed ht).data sid sess b bs rfl hb hs
  | sessionStdin sid buf off => exact onSessionStdin_completes hop rfl hr hlive

/-- A delivery is a sequence of moves. -/
theorem deliver_path {answers : List Answer} {m : M Unit} (hop : w.findOp id = some op)
    (hr : op.result = some r) (hx : Fits τ codec { w with answers := answers } op r)
    (hm : m = callback codec r op.loc) (he : (w.takeOp id).exec answers m = some w') :
    Path τ ([], w) ([], w') := by
  subst hm
  have hc : Completes τ [] { w with answers := answers } id (callback codec r op.loc) :=
    callback_completes hop hr hx
  unfold World.exec at he
  split at he
  · rename_i u w'' hrun
    obtain rfl := Option.some.inj he
    obtain ⟨h', hp, rfl⟩ := hc.path hrun
    exact (Relation.ReflTransGen.single (.idle answers w.nextOverlay)).trans hp
  · cases he

end

theorem boot_steady (hl : w.g.listeners = []) : Steady τ h w boot := by
  unfold boot
  refine call_calls.bind fun r h' w₁ hw => ?_
  obtain ⟨rfl, hk₁⟩ := hw
  cases r with
  | error e => exact Trail.pure rfl
  | ok _ =>
    refine openOne_calls.bind fun r h' w₂ hw => ?_
    obtain ⟨rfl, hk₂⟩ := hw
    cases r with
    | error e => exact Trail.pure rfl
    | ok datagram =>
      refine openOne_calls.bind fun r h' w₃ hw => ?_
      obtain ⟨rfl, hk₃⟩ := hw
      cases r with
      | error e => exact Trail.update (.release rfl) rfl
      | ok listener =>
        refine openOne_calls.bind fun r h' w₄ hw => ?_
        obtain ⟨rfl, hk₄⟩ := hw
        cases r with
        | error e => exact closeFresh_spares.post fun _ _ _ hw => hw.1
        | ok signal =>
          have hl₄ : w₄.g.listeners = [] := by
            rw [(((hk₁.trans hk₂).trans hk₃).trans hk₄).g]
            exact hl
          refine Trail.modify_bind (Trail.commit (.listen hl₄) ?_)
          refine armDatagram_steady.bind fun _ h' _ hh => ?_
          rw [hh]
          refine armAccept_steady.bind fun _ h' _ hh => ?_
          rw [hh]
          exact armSigchld_steady

theorem boot_path {answers : List Answer} (hb : booted answers = some w) :
    Path τ ([], World.init) ([], w) := by
  have hs : Steady τ [] { World.init with answers := answers } boot := boot_steady rfl
  unfold booted World.exec at hb
  split at hb
  · rename_i u w' hrun
    obtain rfl := Option.some.inj hb
    obtain ⟨h', hp, rfl⟩ := hs.path hrun
    exact (Relation.ReflTransGen.single (.idle answers World.init.nextOverlay)).trans hp
  · cases hb

/-- What every move keeps, a path keeps. -/
theorem path_keeps {I : List Token → World → Prop}
    (hI : ∀ {h h' w w'}, I h w → Move τ (h, w) (h', w') → I h' w') {x y : List Token × World}
    (h0 : I x.1 x.2) (hp : Path τ x y) : I y.1 y.2 := by
  induction hp with
  | refl => exact h0
  | tail _ hm ih => exact hI ih hm

/-- A condition on the completions that are delivered, and on the answers to their callbacks. -/
def Delivers (P : World → InFlight → Result → Prop) (w : World) : Event → Prop
  | .enter | .perform _ _ => True
  | .deliver id answers => ∀ op r, w.findOp id = some op → op.result = some r →
      P { w with answers := answers } op r

instance {P : World → InFlight → Result → Prop} [∀ w op r, Decidable (P w op r)] {e : Event} :
    Decidable (Delivers P w e) :=
  match e with
  | .enter | .perform _ _ => .isTrue trivial
  | .deliver id answers =>
    decidable_of_iff (∀ op ∈ w.findOp id, ∀ r ∈ op.result, P { w with answers := answers } op r)
      ⟨fun hp op r hop hr => hp op hop r hr, fun hp op hop r hr => hp op r hop hr⟩

/-- A property of the state and of what is in hand that every move keeps, and all that the kernel does;
it also says enough for the steps to meet the terms. -/
structure Invariant (τ : Terms) (codec : Codec) (ok : World → Event → Prop)
    (I : List Token → World → Prop) : Prop where
  move : ∀ {h h' w w'}, I h w → Move τ (h, w) (h', w') → I h' w'
  enter : ∀ {w}, I [] w → ok w .enter → I [] w.enter
  perform : ∀ {w op r}, I [] w → w.findOp op.id = some op → op.result = none →
    w.allows op r = true → ok w (.perform op.id r) → I [] (w.perform op r)
  fits : ∀ {w op r answers}, I [] w → w.findOp op.id = some op → op.result = some r →
    ok w (.deliver op.id answers) → Fits τ codec { w with answers := answers } op r

namespace Invariant

variable {ok : World → Event → Prop} {I : List Token → World → Prop} {w₀ : World}

theorem path (hI : Invariant τ codec ok I) {x y : List Token × World} (h0 : I x.1 x.2)
    (hp : Path τ x y) : I y.1 y.2 := path_keeps hI.move h0 hp

/-- What the booted daemon satisfies. -/
theorem booted {answers : List Answer} (hI : Invariant τ codec ok I) (h0 : I [] World.init)
    (hb : booted answers = some w) : I [] w := hI.path h0 (boot_path hb)

theorem step {e : Event} (hI : Invariant τ codec ok I) (h0 : I [] w) (hok : ok w e)
    (hs : step codec w e = some w') : I [] w' := by
  cases e with
  | enter =>
    obtain rfl := Option.some.inj hs
    exact hI.enter h0 hok
  | perform id r =>
    simp only [Daemon.step] at hs
    cases hop : w.findOp id with
    | none =>
      rw [hop] at hs
      cases hs
    | some op =>
      rw [hop] at hs
      simp only at hs
      split_ifs at hs with hc
      obtain rfl := findOp_id hop
      obtain rfl := Option.some.inj hs
      exact hI.perform h0 hop hc.1 hc.2.2 hok
  | deliver id answers =>
    simp only [Daemon.step] at hs
    cases hop : w.findOp id with
    | none =>
      rw [hop] at hs
      cases hs
    | some op =>
      rw [hop] at hs
      simp only at hs
      cases hr : op.result with
      | none =>
        rw [hr] at hs
        cases hs
      | some r =>
        rw [hr] at hs
        simp only at hs
        obtain rfl := findOp_id hop
        exact hI.path h0 (deliver_path hop hr (hI.fits h0 hop hr hok) rfl hs)

theorem run (hI : Invariant τ codec ok I) (h0 : I [] w₀)
    (hr : Reaches (Daemon.step codec) ok w₀ w) : I [] w :=
  hr.invariant h0 fun _ _ _ h hok hs => hI.step h hok hs

end Invariant

end Conrt.Daemon
