import Conrt.Base.Ownership
import Conrt.Base.Trail
import Conrt.Daemon.History

/-! What the daemon can do: its callbacks as sequences of moves on the state and on what a callback
has in hand. -/
namespace Conrt.Daemon

open Conrt.Base

inductive Drain
  | output | pty
deriving DecidableEq

/-- The loops that run for as long as the daemon does. -/
inductive Loop
  | datagram | accept | sigchld
deriving DecidableEq

/-- What a running callback has yet to put somewhere: a descriptor that belongs to a container or a
session; a fresh one that does not, with what was written to it; a drain with the lines it has read
and its partial line; a line for a follow pipe; a finished write to one; a loop to arm again; a
session that may be over; an overlay to remove. -/
inductive Token
  | fd (d : Handle)
  | fresh (d : Handle) (written : Bytes)
  | drain (kind : Drain) (pid : Pid) (lines : List Bytes) (lineBuf : Bytes) (ended : Bool)
  | line (pid : Pid) (pipeId : ℕ) (line : Bytes)
  | written (pid : Pid) (pipeId : ℕ) (ok : Bool)
  | loop (l : Loop)
  | check (sid : ℕ)
  | overlay (dir : ℕ)
deriving DecidableEq

def Token.handle : Token → Option Handle
  | .fd d | .fresh d _ => some d
  | _ => none

def handlesOf (h : List Token) : List Handle := h.filterMap Token.handle

def hold (hs : List Handle) : List Token := hs.map .fd

def holdFresh (hs : List Handle) : List Token := hs.map (.fresh · [])

@[simp] theorem handlesOf_append (h h' : List Token) :
    handlesOf (h ++ h') = handlesOf h ++ handlesOf h' := List.filterMap_append ..

@[simp] theorem handlesOf_hold (hs : List Handle) : handlesOf (hold hs) = hs := by
  simp [handlesOf, hold, Token.handle, List.filterMap_map, Function.comp_def]

@[simp] theorem handlesOf_holdFresh (hs : List Handle) : handlesOf (holdFresh hs) = hs := by
  simp [handlesOf, holdFresh, Token.handle, List.filterMap_map, Function.comp_def]

/-- When a drain is started: before any other one, or on a terminal. -/
def Drain.First (info : ContainerInfo) : Drain → Prop
  | .output => info.drainsPending = 0
  | .pty => info.ptmFd ≠ none

def Drain.loc : Drain → Pid → Bytes → OpLocal
  | .output => .containerOutput
  | .pty => .containerPtyOutput

def drainToken (kind : Drain) (pid : Pid) (lineBuf : Bytes) : Result → Token
  | .bytes (b :: bs) =>
    let (lines, lineBuf) := drainLines lineBuf (b :: bs)
    .drain kind pid lines lineBuf false
  | _ => .drain kind pid [] lineBuf true

def Result.handles : Result → List Handle
  | .accepted fd => [fd.handle]
  | _ => []

def OpLocal.finished : OpLocal → Result → Bool
  | .followWrite _ _ _ chunks, .count n => (advance n chunks).isEmpty
  | _, _ => false

/-- What a completed op leaves in the hands of its callback. -/
def OpLocal.tokens (r : Result) : OpLocal → List Token
  | .containerOutput pid lineBuf => [drainToken .output pid lineBuf r]
  | .containerPtyOutput pid lineBuf => [drainToken .pty pid lineBuf r]
  | .followWrite pid pipeId fd chunks =>
    [.written pid pipeId (OpLocal.finished (.followWrite pid pipeId fd chunks) r)]
  | .followSend closeAfter => [.fd closeAfter.handle]
  | .datagram _ | .datagramPeek => [.loop .datagram]
  | .accept => .loop .accept :: hold r.handles
  | .sigchld =>
    match r with
    | .bytes _ => [.loop .sigchld]
    | _ => []
  | _ => []

def OpLocal.loop : OpLocal → Option Loop
  | .datagram _ | .datagramPeek => some .datagram
  | .accept => some .accept
  | .sigchld => some .sigchld
  | _ => none

/-- Nothing hangs on the op but itself. -/
def OpLocal.loose : OpLocal → Bool
  | .datagram _ | .sessionHeader .. | .sessionPayload .. | .sessionFrame .. | .sessionDataHeader ..
  | .sessionDataPayload .. | .sessionOutputRead _ | .sessionStdin .. => true
  | _ => false

/-- The op that a token is to become. -/
inductive Token.For : Token → OpLocal → Prop
  | followSend {fd : Fd .pipe} : For (.fd fd.handle) (.followSend fd)
  | drain {kind : Drain} {pid : Pid} {lineBuf : Bytes} :
      For (.drain kind pid [] lineBuf false) (kind.loc pid lineBuf)
  | line {pid : Pid} {pipeId : ℕ} {fd : Fd .pipe} {line stale : Bytes} :
      For (.line pid pipeId line) (.followWrite pid pipeId fd (splitLine stale line))
  | written {pid : Pid} {pipeId : ℕ} {fd : Fd .pipe} {chunks : List Bytes} :
      For (.written pid pipeId false) (.followWrite pid pipeId fd chunks)
  | loop {l : Loop} {loc : OpLocal} : loc.loop = some l → loc.loose = false → For (.loop l) loc

def ContainerInfo.overlay (info : ContainerInfo) : Option ℕ :=
  if info.save then none else info.overlayDir

/-- A session's stdin is not among them: it belongs to the container. -/
def AttachSession.handles (sess : AttachSession) : List Handle :=
  sess.streamFd.handle :: (RawFd.handles sess.ptmFd ++ RawFd.handles sess.logReadFd)

def InFlight.handles (op : InFlight) : List Handle :=
  match op.loc with
  | .followSend closeAfter => [closeAfter.handle]
  | .accept => op.result.toList.flatMap Result.handles
  | _ => []

def DaemonState.listeners (g : DaemonState) : List Handle :=
  RawFd.handles g.datagramFd ++ RawFd.handles g.attachListenerFd ++ RawFd.handles g.sigchldFd

namespace World

/-- Every descriptor the daemon's state is responsible for. -/
def owned (w : World) : List Handle :=
  w.g.listeners ++ w.g.containers.values.flatMap ContainerInfo.handles ++
    w.g.outputs.values.map (·.fd.handle) ++ w.g.attachSessions.values.flatMap AttachSession.handles ++
    w.ops.flatMap InFlight.handles

def loopFd (w : World) : Loop → Option Handle
  | .datagram => RawFd.handle w.g.datagramFd
  | .accept => RawFd.handle w.g.attachListenerFd
  | .sigchld => RawFd.handle w.g.sigchldFd

def drainFd (w : World) (pid : Pid) : Drain → Option Handle
  | .output => (w.g.outputs.lookup pid).map (·.fd.handle)
  | .pty => RawFd.handle ((w.g.containers.lookup pid).bind (·.ptmFd))

def streamFd (w : World) (sid : ℕ) : Option Handle :=
  (w.g.attachSessions.lookup sid).map (·.streamFd.handle)

/-- The session's descriptors come before the container's. -/
def stdinFd (w : World) (sid : ℕ) : Option Handle :=
  (w.g.attachSessions.lookup sid).bind AttachSession.stdinFd

def Registered (w : World) (pid : Pid) (pipeId : ℕ) (fd : Fd .pipe) : Prop :=
  ∃ info, w.g.containers.lookup pid = some info ∧
    ∃ p ∈ info.gateway.pipes, p.id = pipeId ∧ p.fd = fd

/-- Some container still has the descriptor as its pty master or stdin pipe. -/
def lists (w : World) (d : Handle) : Bool :=
  w.g.containers.values.any fun info =>
    d ∈ RawFd.handles info.ptmFd ++ RawFd.handles info.stdinFd

/-- The record that a write op took its descriptor from is still there: the session, the pipe in its
gateway, the container whose stdin a session has borrowed. -/
def backed (w : World) : OpLocal → Bool
  | .sessionFrame sid _ _ _ | .sessionDataHeader sid _ _ _ _ | .sessionDataPayload sid _ _ _ =>
    (w.g.attachSessions.lookup sid).isSome
  | .followWrite pid pipeId _ _ =>
    (w.g.containers.lookup pid).any fun info => info.gateway.pipes.any (·.id = pipeId)
  | .sessionStdin sid _ _ =>
    (w.g.attachSessions.lookup sid).all fun sess =>
      sess.ptmFd.isSome || sess.inputFd.all fun i => w.lists i.handle
  | _ => true

def attachPipe (w : World) (pid : Pid) (pipeId : ℕ) (fd : Fd .pipe) : World :=
  { w with g.nextPipeId := pipeId + 1 }.modifyContainer pid (·.attachPipe ⟨pipeId, fd, false⟩)

/-- A frame of the given type may be started on a stream: what was written there is a whole number
of the frames started so far, a 0x01 frame comes first, and no write in flight has more to write. -/
def Clear (w : World) (f : File) (ty : UInt8) : Prop :=
  (∃ frames : List Frame, frames.Sublist (framesOn f w.trace) ∧
    bytesOn f w.trace = frames.flatMap Frame.bytes ∧
    (frames.map Frame.ty ++ [ty]).head? = some 0x01) ∧
  ∀ op ∈ w.ops, ∀ sid stream, op.loc.stream = some (sid, stream) → stream.handle.2 = f →
    op.unsent = []

/-- The session's output has not been drained, and no op in flight drains it. -/
def Undrained (w : World) (sid : ℕ) : Prop :=
  (∀ op ∈ w.ops, op.loc.outputOf ≠ some sid) ∧
    ∀ sess, w.g.attachSessions.lookup sid = some sess → sess.drainDone = false

/-- The drain of the session's output is in the hands of the callback. -/
def Draining (w : World) (sid : ℕ) : Prop := Adopted sid w.trace ∧ w.Undrained sid

/-- `told` is the session met first among those of the pid. -/
def Meets (w : World) (pid : Pid) (told : Option ℕ) : Prop :=
  match told with
  | some sid => sid ∈ sessionsOf w pid
  | none => sessionsOf w pid = []

end World

def OpLocal.reader : OpLocal → Option ℕ
  | .sessionHeader sid _ | .sessionPayload sid _ _ _ => some sid
  | _ => none

/-- How a write goes on after `n` more bytes: the op local and the descriptor it names. -/
inductive Resumes (stdinFd : ℕ → Option Handle) (n : ℕ) :
    OpLocal → OpLocal → Option Handle → Prop
  | frame {sid : ℕ} {stream : Fd .stream} {buf : Bytes} {off : ℕ} : off + n < buf.length →
      Resumes stdinFd n (.sessionFrame sid stream buf off) (.sessionFrame sid stream buf (off + n))
        stream.handle
  | header {sid : ℕ} {stream : Fd .stream} {header payload : Bytes} {off : ℕ} :
      off + n < header.length →
      Resumes stdinFd n (.sessionDataHeader sid stream header payload off)
        (.sessionDataHeader sid stream header payload (off + n)) stream.handle
  | payload {sid : ℕ} {stream : Fd .stream} {header payload : Bytes} {off : ℕ} :
      header.length ≤ off + n →
      Resumes stdinFd n (.sessionDataHeader sid stream header payload off)
        (.sessionDataPayload sid stream payload 0) stream.handle
  | data {sid : ℕ} {stream : Fd .stream} {payload : Bytes} {off : ℕ} :
      off + n < payload.length →
      Resumes stdinFd n (.sessionDataPayload sid stream payload off)
        (.sessionDataPayload sid stream payload (off + n)) stream.handle
  | stdin {sid : ℕ} {buf : Bytes} {off : ℕ} : off + n < buf.length →
      Resumes stdinFd n (.sessionStdin sid buf off) (.sessionStdin sid buf (off + n)) (stdinFd sid)
  | follow {pid : Pid} {pipeId : ℕ} {fd : Fd .pipe} {chunks rest : List Bytes} {chunk : Bytes} :
      advance n chunks = chunk :: rest →
      Resumes stdinFd n (.followWrite pid pipeId fd chunks)
        (.followWrite pid pipeId fd (chunk :: rest)) fd.handle

def World.RestRefused (w : World) (loc : OpLocal) (r : Result) : Prop :=
  ∃ n loc' fd file, r = .count n ∧ Resumes w.stdinFd n loc loc' fd ∧
    .submitted loc' fd file false ∈ w.trace

def OpLocal.continues : OpLocal → Result → Bool
  | .sessionFrame _ _ buf off, .count n => off + n < buf.length
  | .sessionDataHeader .., .count _ => true
  | .sessionDataPayload _ _ payload off, .count n => off + n < payload.length
  | .sessionStdin _ buf off, .count n => off + n < buf.length
  | .followWrite _ _ _ chunks, .count n => !(advance n chunks).isEmpty
  | _, _ => false

/-- The client frame that a completed read makes whole. -/
def OpLocal.frame : OpLocal → Result → Option (ℕ × Frame)
  | .sessionPayload sid frameType acc need, .bytes (b :: bs) =>
    match (Reading.payload frameType acc need).feed (b :: bs) with
    | .inl _ => none
    | .inr f => some (sid, f)
  | _, _ => none

/-- What may be relied on about the steps of a run; a move says more where more is relied on. -/
structure Terms where
  /-- No borrowed stdin is closed. -/
  owned : Prop
  /-- Writes go on only while their descriptor is still there. -/
  live : Prop
  /-- The session is closed only after its exit frame, if it has a container. -/
  orderly : ℕ → Prop
  /-- A reaped child has at most one session, which attached before. -/
  told : Prop
  /-- A frame is started only where the previous one ends. -/
  framed : Prop
  /-- Stdin frames wait for the earlier ones. -/
  calm : Prop
  /-- A child with drains running that is killed has not been reaped. -/
  known : Prop
  /-- The last drain of a container ends after its child has been reaped. -/
  outlived : Prop
  /-- No child gets the pid of a container in the tables. -/
  fresh : Prop
  /-- No child gets the pid of a container whose log is kept. -/
  novel : Prop
  /-- No descriptor of a container or a session is left behind. -/
  tidy : Prop
  /-- No session is given a second container. -/
  single : Prop

variable {τ : Terms}

/-- The first component is what the callback has in hand. -/
inductive Move (τ : Terms) : List Token × World → List Token × World → Prop
  | idle {h : List Token} {w : World} (answers : List Answer) (overlay : ℕ) :
      Move τ (h, w) (h, { w with answers := answers, nextOverlay := overlay })
  | note {h : List Token} {w : World} {e : Entry} : e.Plain → Move τ (h, w) (h, w.note e)
  | perm {h h' : List Token} {w : World} : h'.Perm h → Move τ (h, w) (h', w)
  -- descriptors
  | acquire {h : List Token} {w : World} {k : FileKind} {n : ℕ} : w.fds.lookup n = none →
      Move τ (h, w) (.fresh (n, ⟨k, w.nextGen⟩) [] :: h, w.openFd k n)
  | forget {h : List Token} {w : World} {d : Handle} {b : Bytes} :
      Move τ (.fresh d b :: h, w) (h, w)
  | leak {h : List Token} {w : World} {d : Handle} : ¬ τ.tidy → Move τ (.fd d :: h, w) (h, w)
  | release {h : List Token} {w : World} {t : Token} {d : Handle} : t.handle = some d →
      Move τ (t :: h, w) (h, w.closeFd d)
  | writeNow {h : List Token} {w : World} {d : Handle} {f : File} {b c : Bytes} :
      d.2.kind = .pipe → w.file (some d) = some f →
      Move τ (.fresh d b :: h, w) (.fresh d (b ++ c) :: h, w.note (.wroteNow f c))
  -- submissions
  | refused {h : List Token} {w : World} {loc : OpLocal} {fd : Option Handle} {want : ℕ} :
      loc.loose = true → Move τ (h, w) (h, w.submit loc fd want false)
  | denied {h : List Token} {w : World} {t : Token} {loc : OpLocal} {fd : Option Handle}
      {want : ℕ} : t.For loc → Move τ (t :: h, w) (h, w.submit loc fd want false)
  | starved {h : List Token} {w : World} {t : Token} {loc : OpLocal} : t.For loc →
      Move τ (t :: h, w) (h, w.note (.starved loc))
  | read {h : List Token} {w : World} {loc : OpLocal} {sid want : ℕ} : loc.reader = some sid →
      Move τ (h, w) (h, w.submit loc (w.streamFd sid) want true)
  | output {h : List Token} {w : World} {sid : ℕ} {sess : AttachSession} {fd : Handle}
      {want : ℕ} : w.g.attachSessions.lookup sid = some sess → sess.outputFd = some fd →
      (τ.single → w.Draining sid) →
      Move τ (h, w) (h, w.submit (.sessionOutputRead sid) (some fd) want true)
  | passFd {h : List Token} {w : World} {fd : Fd .pipe} {want : ℕ} :
      Move τ (.fd fd.handle :: h, w)
        (h, w.submit (.followSend fd) (RawFd.handle w.g.datagramFd) want true)
  -- completions
  | resume {h : List Token} {w : World} {id n want : ℕ} {op : InFlight} {loc : OpLocal}
      {fd : Option Handle} : w.findOp id = some op → op.result = some (.count n) →
      Resumes w.stdinFd n op.loc loc fd → (τ.live → w.backed op.loc) →
      Move τ (h, w) (h, (w.takeOp id).submit loc fd want true)
  | retire {h : List Token} {w : World} {id : ℕ} {op : InFlight} {r : Result} :
      w.findOp id = some op → op.result = some r →
      (op.loc.loose = true → op.loc.continues r = true → w.RestRefused op.loc r) →
      Move τ (h, w) (op.loc.tokens r ++ h, w.takeOp id)
  -- loops
  | listen {h : List Token} {w : World} {datagram : Fd .datagram} {listener : Fd .listener}
      {signal : Fd .signal} : w.g.listeners = [] →
      Move τ (holdFresh [signal.handle, listener.handle, datagram.handle] ++ h, w)
        (.loop .datagram :: .loop .accept :: .loop .sigchld :: h, { w with
          g.datagramFd := some datagram
          g.attachListenerFd := some listener
          g.sigchldFd := some signal })
  | relisten {h : List Token} {w : World} {l : Loop} {loc : OpLocal} {want : ℕ} :
      loc.loop = some l →
      Move τ (.loop l :: h, w) (h, w.submit loc (w.loopFd l) want true)
  -- frames
  | respond {h : List Token} {w : World} {sid want : ℕ} {sess : AttachSession} {payload : Bytes} :
      w.g.attachSessions.lookup sid = some sess →
      (τ.framed → w.Clear sess.streamFd.handle.2 0x01) →
      Move τ (h, w) (h, w.beginFrame sess.streamFd ⟨0x01, payload⟩
        (.sessionFrame sid sess.streamFd (Frame.bytes ⟨0x01, payload⟩) 0) want true)
  | refuse {h : List Token} {w : World} {sid : ℕ} {sess : AttachSession} {payload : Bytes} :
      w.g.attachSessions.lookup sid = some sess →
      Move τ (h, w) (h, w.note (.begun sess.streamFd ⟨0x01, payload⟩))
  | refuseNow {h : List Token} {w : World} {sid n : ℕ} {sess : AttachSession} {payload : Bytes}
      {f : File} : w.g.attachSessions.lookup sid = some sess →
      w.file (some sess.streamFd.handle) = some f →
      (τ.framed → w.Clear sess.streamFd.handle.2 0x01) →
      Move τ (h, w) (h, (w.note (.begun sess.streamFd ⟨0x01, payload⟩)).note
        (.wroteNow f ((Frame.bytes ⟨0x01, payload⟩).take n)))
  | data {h : List Token} {w : World} {sid want : ℕ} {sess : AttachSession} {payload : Bytes} :
      w.g.attachSessions.lookup sid = some sess →
      (τ.framed → w.Clear sess.streamFd.handle.2 0x10) → (τ.single → w.Draining sid) →
      Move τ (h, w) (h, w.beginFrame sess.streamFd ⟨0x10, payload⟩
        (.sessionDataHeader sid sess.streamFd (0x10 :: u16ToLe payload.length) payload 0) want true)
  | finish {h : List Token} {w : World} {sid want : ℕ} {sess : AttachSession} {ok : Bool} :
      w.g.attachSessions.lookup sid = some sess → sess.drainDone = true →
      sess.childExited = true → sess.exitSent = false →
      (τ.framed → w.Clear sess.streamFd.handle.2 0x02) →
      Move τ (.check sid :: h, w) (h, (w.modifySession sid ({ · with exitSent := true })).beginFrame
        sess.streamFd ⟨0x02, exitPayload (sess.exitCode.getD 0)⟩
        (.sessionFrame sid sess.streamFd
          (Frame.bytes ⟨0x02, exitPayload (sess.exitCode.getD 0)⟩) 0) want ok)
  | unfinished {h : List Token} {w : World} {sid : ℕ} :
      (∀ sess, w.g.attachSessions.lookup sid = some sess → sess.drainDone = true →
        sess.childExited = true → sess.exitSent = true) → Move τ (.check sid :: h, w) (h, w)
  -- sessions
  | accept {h : List Token} {w : World} {fd : Fd .stream} :
      Move τ (.fd fd.handle :: h, w) (h, { w with
        g.nextSessionId := w.g.nextSessionId + 1
        g.attachSessions := w.g.attachSessions.insert w.g.nextSessionId (.new fd) })
  | close {h : List Token} {w : World} {sid : ℕ} {sess : AttachSession} :
      w.g.attachSessions.lookup sid = some sess → (τ.orderly sid → Settled sid w.trace) →
      (τ.tidy → sess.ptmFd = none ∧ sess.logReadFd = none) →
      Move τ (h, w) (.fd sess.streamFd.handle :: h, w.dropSession sid)
  | storeOp {h : List Token} {w : World} {sid : ℕ} {which : SessionOp} {op : Option ℕ} :
      Move τ (h, w) (h, w.modifySession sid (·.storeOp which op))
  | drained {h : List Token} {w : World} {sid : ℕ} : (τ.single → w.Draining sid) →
      Move τ (h, w) (.check sid :: h, w.modifySession sid ({ · with drainDone := true }))
  | adoptRun {h : List Token} {w : World} {sid : ℕ} {sess : AttachSession} {pid : Pid}
      {ptm : RawFd .pty} {log : RawFd .pipe} : w.g.attachSessions.lookup sid = some sess →
      (τ.told → exitOf pid w.trace = none) → (τ.calm → w.StdinIdle sid) →
      (τ.tidy → sess.ptmFd = none ∧ sess.logReadFd = none) →
      (τ.single → ¬ Adopted sid w.trace ∧ w.Undrained sid) →
      Move τ (holdFresh (RawFd.handles ptm ++ RawFd.handles log) ++ h, w)
        (h, (w.modifySession sid
          ({ · with ptmFd := ptm, logReadFd := log, containerPid := pid })).note
          (.adopted sid pid (RawFd.handles ptm ++ RawFd.handles log)))
  | adoptAttach {h : List Token} {w : World} {sid : ℕ} {sess : AttachSession} {pid : Pid}
      {info : ContainerInfo} {read write : Fd .pipe} : w.g.attachSessions.lookup sid = some sess →
      w.g.containers.lookup pid = some info → (τ.told → exitOf pid w.trace = none) →
      (τ.calm → w.StdinIdle sid) → (τ.tidy → sess.logReadFd = none) →
      (τ.single → ¬ Adopted sid w.trace ∧ w.Undrained sid) →
      Move τ (holdFresh [write.handle, read.handle] ++ h, w)
        (h, ((w.attachPipe pid w.g.nextPipeId write).modifySession sid
          ({ · with logReadFd := some read, inputFd := info.input, containerPid := pid })).note
          (.adopted sid pid [read.handle, write.handle]))
  | attachGone {h : List Token} {w : World} {sid : ℕ} {pid : Pid} {info : ContainerInfo}
      {read write : Fd .pipe} : w.g.attachSessions.lookup sid = none →
      w.g.containers.lookup pid = some info → ¬ τ.tidy →
      Move τ (holdFresh [write.handle, read.handle] ++ h, w)
        (h, (w.attachPipe pid w.g.nextPipeId write).note
          (.adopted sid pid [read.handle, write.handle]))
  -- stdin
  | offer {h : List Token} {w : World} {sid want : ℕ} {fd : Handle} {payload : Bytes} {ok : Bool} :
      w.stdinFd sid = some fd → (τ.live → w.backed (.sessionStdin sid payload 0)) →
      (τ.calm → StdinClear sid w.trace) →
      Move τ (h, w) (h, (w.note (.offered sid (some fd) payload)).submit
        (.sessionStdin sid payload 0) fd want ok)
  | ignore {h : List Token} {w : World} {sid : ℕ} {payload : Bytes} : w.stdinFd sid = none →
      Move τ (h, w) (h, w.note (.offered sid none payload))
  | eofOwn {h : List Token} {w : World} {sid : ℕ} {sess : AttachSession} {fd : Fd .pty} :
      w.g.attachSessions.lookup sid = some sess → sess.ptmFd = some fd →
      (τ.calm → w.StdinIdle sid ∧ ∀ payload, .offered sid none payload ∉ w.trace) →
      Move τ (h, w) (.fd fd.handle :: h, (w.modifySession sid ({ · with ptmFd := none })).note
        (.stdinClosed sid fd.handle))
  | eofBorrowed {h : List Token} {w : World} {sid : ℕ} {sess : AttachSession} {i : Input} :
      w.g.attachSessions.lookup sid = some sess → sess.ptmFd = none → sess.inputFd = some i →
      ¬ τ.owned →
      (τ.calm → w.StdinIdle sid ∧ ∀ payload, .offered sid none payload ∉ w.trace) →
      Move τ (h, w) (h, ((w.modifySession sid ({ · with inputFd := none })).note
        (.stdinClosed sid i.handle)).closeFd i.handle)
  -- containers
  | installDetached {h : List Token} {w : World} {pid : Pid} {info : ContainerInfo}
      {log : Fd .pipe} {tty : Bool} : info.gateway = .new logCapacity → info.drainsPending = 0 →
      pid ∈ w.children → (τ.fresh → w.g.containers.lookup pid = none) →
      (τ.novel → w.g.logGraveyard.lookup pid = none) → tty = info.ptmFd.isSome →
      Move τ (holdFresh (log.handle :: info.handles) ++ h, w) (h, { w with
        g.outputs := w.g.outputs.insert pid ⟨log⟩
        g.containers := w.g.containers.insert pid info }.note
          (.installed pid true tty (log.handle :: info.handles)))
  | installAttached {h : List Token} {w : World} {pid : Pid} {info : ContainerInfo} {tty : Bool} :
      info.gateway = .new logCapacity → info.drainsPending = 0 →
      pid ∈ w.children → (τ.fresh → w.g.containers.lookup pid = none) →
      (τ.novel → w.g.logGraveyard.lookup pid = none) →
      Move τ (holdFresh info.handles ++ h, w)
        (h, { w with g.containers := w.g.containers.insert pid info }.note
          (.installed pid false tty info.handles))
  | dropOutput {h : List Token} {w : World} {pid : Pid} {o : Output} :
      w.g.outputs.lookup pid = some o →
      Move τ (h, w) (.fd o.fd.handle :: h, { w with g.outputs := w.g.outputs.erase pid })
  | dropPtm {h : List Token} {w : World} {pid : Pid} {info : ContainerInfo} {fd : Fd .pty} :
      w.g.containers.lookup pid = some info → info.ptmFd = some fd →
      Move τ (h, w) (.fd fd.handle :: h, w.modifyContainer pid ({ · with ptmFd := none }))
  | unmount {h : List Token} {w : World} {dir : ℕ} :
      Move τ (.overlay dir :: h, w) (h, w.note (.overlayRemoved dir))
  -- drains
  | addDrain {h : List Token} {w : World} (kind : Drain) {pid : Pid} {info : ContainerInfo} :
      w.g.containers.lookup pid = some info → kind.First info →
      Move τ (h, w) (.drain kind pid [] [] false :: h, w.modifyContainer pid
        fun info => { info with drainsPending := info.drainsPending + 1 })
  | rearm {h : List Token} {w : World} {kind : Drain} {pid : Pid} {lineBuf : Bytes} {want : ℕ} :
      Move τ (.drain kind pid [] lineBuf false :: h, w)
        (h, w.submit (kind.loc pid lineBuf) (w.drainFd pid kind) want true)
  | drainGone {h : List Token} {w : World} {kind : Drain} {pid : Pid} {lineBuf : Bytes}
      {ended : Bool} : w.g.containers.lookup pid = none →
      Move τ (.drain kind pid [] lineBuf ended :: h, w) (h, w)
  | drainEnds {h : List Token} {w : World} {kind : Drain} {pid : Pid} {lineBuf : Bytes}
      {ended : Bool} {info : ContainerInfo} : w.g.containers.lookup pid = some info →
      1 < info.drainsPending →
      Move τ (.drain kind pid [] lineBuf ended :: h, w) (h, w.modifyContainer pid
        ({ · with drainsPending := info.drainsPending - 1 }))
  | buryDrained {h : List Token} {w : World} {kind : Drain} {pid : Pid} {lineBuf : Bytes}
      {ended : Bool} {info : ContainerInfo} : w.g.containers.lookup pid = some info →
      info.drainsPending ≤ 1 → (τ.outlived → pid ∉ w.children) →
      Move τ (.drain kind pid [] lineBuf ended :: h, w)
        (hold info.handles ++ (info.overlay.toList.map .overlay ++ h), w.buryContainer pid info)
  -- lines
  | pushLine {h : List Token} {w : World} {kind : Drain} {pid : Pid} {line lineBuf : Bytes}
      {lines : List Bytes} {info : ContainerInfo} {gateway : LogGateway} {ids : List ℕ} :
      w.g.containers.lookup pid = some info → info.gateway.push line = some (gateway, ids) →
      Move τ (.drain kind pid (line :: lines) lineBuf false :: h, w)
        (((ids.filterMap fun id => (gateway.pipeFd id).map (id, ·)).map fun target =>
          .line pid target.1 line) ++ .drain kind pid lines lineBuf false :: h,
          (w.modifyContainer pid ({ · with gateway := gateway })).note
            (.pushed pid line w.followIds))
  | pushBuried {h : List Token} {w : World} {kind : Drain} {pid : Pid} {line lineBuf : Bytes}
      {lines : List Bytes} {cache cache' : LogCache} : w.g.containers.lookup pid = none →
      w.g.logGraveyard.lookup pid = some cache → cache.push line = some cache' →
      Move τ (.drain kind pid (line :: lines) lineBuf false :: h, w)
        (.drain kind pid lines lineBuf false :: h,
          { w with g.logGraveyard := w.g.logGraveyard.insert pid cache' })
  | pushLost {h : List Token} {w : World} {kind : Drain} {pid : Pid} {line lineBuf : Bytes}
      {lines : List Bytes} : w.g.containers.lookup pid = none →
      w.g.logGraveyard.lookup pid = none →
      Move τ (.drain kind pid (line :: lines) lineBuf false :: h, w)
        (.drain kind pid lines lineBuf false :: h, w)
  -- follow pipes
  | follow {h : List Token} {w : World} {pid : Pid} {pipeId : ℕ} {fd : Fd .pipe}
      {line stale : Bytes} {want : ℕ} : w.Registered pid pipeId fd →
      Move τ (.line pid pipeId line :: h, w)
        (h, w.submit (.followWrite pid pipeId fd (splitLine stale line)) (some fd.handle) want true)
  | wrote {h : List Token} {w : World} {pid : Pid} {pipeId : ℕ} {info : ContainerInfo} {ok : Bool} :
      w.g.containers.lookup pid = some info →
      Move τ (.written pid pipeId ok :: h, w)
        (hold (info.gateway.completeWrite pipeId ok).2 ++ h,
          w.modifyContainer pid ({ · with gateway := (info.gateway.completeWrite pipeId ok).1 }))
  | writtenGone {h : List Token} {w : World} {pid : Pid} {pipeId : ℕ} {ok : Bool} :
      w.g.containers.lookup pid = none → Move τ (.written pid pipeId ok :: h, w) (h, w)
  | followPipe {h : List Token} {w : World} {pid : Pid} {info : ContainerInfo}
      {read write : Fd .pipe} {b : Bytes} : w.g.containers.lookup pid = some info →
      (b = info.gateway.cache.snapshot ∨ ∃ f, .wroteNow f [] ∈ w.trace ∧ f.kind = .pipe) →
      Move τ (.fresh write.handle b :: .fresh read.handle [] :: h, w)
        (.fd read.handle :: h, (w.attachPipe pid w.g.nextPipeId write).note
          (.followed pid w.g.nextPipeId write.handle read.handle info.gateway.cache.snapshot))
  -- children
  | started {h : List Token} {w : World} {pid : Pid} : 0 < pid → pid ∉ w.children →
      (τ.fresh → w.g.containers.lookup pid = none) →
      (τ.novel → w.g.logGraveyard.lookup pid = none) →
      Move τ (h, w) (h, { w with children := pid :: w.children }.note (.started pid))
  | reaped {h : List Token} {w : World} {pid : Pid} {exitCode : ℤ} {told : Option ℕ} :
      pid ∈ w.children → w.Meets pid told →
      (τ.told → ∀ sid ∈ sessionsOf w pid, told = some sid) →
      (∀ info, w.g.containers.lookup pid = some info → 0 < info.drainsPending) →
      Move τ (h, w) (told.toList.map .check ++ h, w.reap pid exitCode told)
  | buryReaped {h : List Token} {w : World} {pid : Pid} {exitCode : ℤ} {told : Option ℕ}
      {info : ContainerInfo} : pid ∈ w.children → w.Meets pid told →
      (τ.told → ∀ sid ∈ sessionsOf w pid, told = some sid) →
      w.g.containers.lookup pid = some info → info.drainsPending = 0 →
      Move τ (h, w) (hold info.handles ++ (info.overlay.toList.map .overlay ++
        (told.toList.map .check ++ h)), (w.reap pid exitCode told).buryContainer pid info)
  | killed {h : List Token} {w : World} {pid : Pid} {info : ContainerInfo} :
      w.g.containers.lookup pid = some info →
      (τ.known → 0 < info.drainsPending → pid ∈ w.children) →
      Move τ (h, w) (h, w.note (.killed pid))

abbrev Path (τ : Terms) := Relation.ReflTransGen (Move τ)

end Conrt.Daemon
