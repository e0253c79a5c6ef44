import Conrt.Base.Run
import Conrt.Daemon.Requests

/-! The callback of every op, the persistent loops, and the steps of a running daemon. -/
namespace Conrt.Daemon

open Conrt.Base

structure Codec where
  request : Bytes → Except String Request
  winSize : Bytes → Option (ℕ × ℕ)

def sessionLocal (sid : ℕ) : Reading → OpLocal
  | .header acc => .sessionHeader sid acc
  | .payload frameType acc need => .sessionPayload sid frameType acc need

def submitReading (sid : ℕ) (fd : Option Handle) (r : Reading) : M Unit :=
  submitFor sid .read (sessionLocal sid r) fd r.want

def armSessionRead (sid : ℕ) : M Unit := do
  match ← sessionStream sid with
  | none => pure ()
  | some fd => submitReading sid (some fd) (.header [])

def dispatchStdin (sid : ℕ) (payload : Bytes) : M Unit := do
  if payload ≠ [] then
    let fd ← sessionStdin sid
    note (.offered sid fd payload)
    match fd with
    | some fd => armSessionStdin sid fd payload
    | none => pure ()

/-- The client's end of file. A borrowed number is closed like an owned one. -/
def dispatchEof (sid : ℕ) : M Unit := do
  match ← findSession sid with
  | none => pure ()
  | some sess =>
    match sess.stdinFd with
    | none => pure ()
    | some fd =>
      modifySession sid fun sess =>
        if sess.ptmFd.isSome then { sess with ptmFd := none } else { sess with inputFd := none }
      note (.stdinClosed sid fd)
      closeFd fd

def dispatchWinSize (codec : Codec) (sid : ℕ) (payload : Bytes) : M Unit := do
  match codec.winSize payload with
  | none => pure ()
  | some (rows, cols) =>
    match (← findSession sid).bind (·.ptmFd) with
    | some ptm => note (.winsize ptm.handle rows cols)
    | none => pure ()

/-- Whether the session stays open. -/
def dispatchFrame (codec : Codec) (sid : ℕ) (f : Frame) : M Bool := do
  if f.ty = 0x00 then
    match codec.request f.payload with
    | .ok (.run args) => handleRunAttach sid args
    | .ok (.attach pid) => handleAttach sid pid
    | _ => pure false
  else if f.ty = 0x10 then
    dispatchStdin sid f.payload
    pure true
  else if f.ty = 0x11 then
    dispatchEof sid
    pure true
  else if f.ty = 0x20 then
    dispatchWinSize codec sid f.payload
    pure true
  else pure false

/-- A complete frame: the session goes on reading unless the frame closes it. -/
def onFrame (codec : Codec) (sid : ℕ) (f : Frame) : M Unit := do
  storeSessionOp sid .read none
  if ← dispatchFrame codec sid f then armSessionRead sid else closeSession sid

/-- A read of the session's stream; the two callbacks differ only in what they accumulate. -/
def onSessionRead (codec : Codec) (sid : ℕ) (r : Reading) : Result → M Unit
  | .bytes (b :: bs) => do
    match r, r.feed (b :: bs) with
    | .header _, .inl (.payload frameType acc need) =>
      let fd ← sessionStream sid
      storeSessionOp sid .read none
      submitReading sid fd (.payload frameType acc need)
    | _, .inl r => submitReading sid (← sessionStream sid) r
    | _, .inr f => onFrame codec sid f
  | _ => closeSession sid

def onSessionHeader (codec : Codec) (sid : ℕ) (acc : Bytes) : Result → M Unit :=
  onSessionRead codec sid (.header acc)

def onSessionPayload (codec : Codec) (sid : ℕ) (frameType : UInt8) (acc : Bytes) (need : ℕ) :
    Result → M Unit :=
  onSessionRead codec sid (.payload frameType acc need)

def armAccept : M Unit := do
  discard <| submit .accept (RawFd.handle (← get).g.attachListenerFd) 0

def onAccept : Result → M Unit
  | .accepted fd => do
    let sid := (← get).g.nextSessionId
    modify fun w =>
      { w with
        g.nextSessionId := sid + 1
        g.attachSessions := w.g.attachSessions.insert sid (.new fd) }
    armSessionRead sid
    armAccept
  | _ => armAccept

/-- No read is armed when its buffer cannot be allocated. -/
def armSigchld : M Unit := do
  match ← call with
  | .error _ => note (.starved .sigchld)
  | .ok () => discard <| submit .sigchld (RawFd.handle (← get).g.sigchldFd) 128

def onSigchld : Result → M Unit
  | .bytes (_ :: _) => do
    reapChildren
    armSigchld
  | .bytes [] => armSigchld
  | _ => pure ()

def armDatagram : M Unit := do
  match ← call with
  | .error _ => note (.starved .datagramPeek)
  | .ok () => discard <| submit .datagramPeek (RawFd.handle (← get).g.datagramFd) 0

/-- Once the size is known, a receive of exactly that size. -/
def onDatagramPeek : Result → M Unit
  | .count n => do
    match ← submit (.datagram n) (RawFd.handle (← get).g.datagramFd) n with
    | some _ => pure ()
    | none => armDatagram
  | _ => armDatagram

def onDatagram (codec : Codec) : Result → M Unit
  | .received (b :: bs) sender => do
    match codec.request (b :: bs) with
    | .error e => replyDatagram sender (.error ("invalid request: " ++ e))
    | .ok request => handleDatagram sender request
    armDatagram
  | _ => armDatagram

def onFollowSend (closeAfter : Fd .pipe) : M Unit := closeFd closeAfter.handle

def callback (codec : Codec) (res : Result) : OpLocal → M Unit
  | .datagram _ => onDatagram codec res
  | .datagramPeek => onDatagramPeek res
  | .followSend closeAfter => onFollowSend closeAfter
  | .accept => onAccept res
  | .sigchld => onSigchld res
  | .containerOutput pid lineBuf => onContainerOutput pid lineBuf res
  | .containerPtyOutput pid lineBuf => onContainerPtyOutput pid lineBuf res
  | .followWrite pid pipeId fd chunks => onFollowWrite pid pipeId fd chunks res
  | .sessionHeader sid acc => onSessionHeader codec sid acc res
  | .sessionPayload sid frameType acc need => onSessionPayload codec sid frameType acc need res
  | .sessionFrame sid streamFd buf off => onSessionFrame sid streamFd buf off res
  | .sessionDataHeader sid streamFd header payload off =>
    onSessionDataHeader sid streamFd header payload off res
  | .sessionDataPayload sid streamFd payload off => onSessionDataPayload sid streamFd payload off res
  | .sessionOutputRead sid => onSessionOutput sid res
  | .sessionStdin sid buf off => onSessionStdin sid buf off res

/-- The sockets, the signal descriptor, and the three persistent loops. A socket bound before a
later step fails is closed again. -/
def boot : M Unit := do
  match ← call with
  | .error _ => pure ()
  | .ok () =>
    match ← openOne .datagram with
    | .error _ => pure ()
    | .ok datagram =>
      match ← openOne .listener with
      | .error _ => closeFd datagram.handle
      | .ok listener =>
        match ← openOne .signal with
        | .error _ => closeAll [listener.handle, datagram.handle]
        | .ok signal =>
          modify fun w =>
            { w with
              g.datagramFd := some datagram
              g.attachListenerFd := some listener
              g.sigchldFd := some signal }
          armDatagram
          armAccept
          armSigchld

namespace World

def exec (w : World) (answers : List Answer) (m : M Unit) : Option World :=
  match m { w with answers := answers } with
  | .ok () w => some w
  | .error _ _ => none

def findOp (w : World) (id : ℕ) : Option InFlight := w.ops.find? (·.id = id)

def takeOp (w : World) (id : ℕ) : World := { w with ops := w.ops.eraseP (·.id = id) }

/-- Whether the kernel can give an op this result. An op on a number that stood for nothing can only
fail. -/
def allows (w : World) (op : InFlight) : Result → Bool
  | .failed _ => true
  | .count n =>
    (w.reached op).isSome &&
      match op.loc with
      | .followWrite .. | .sessionFrame .. | .sessionDataHeader .. | .sessionDataPayload ..
      | .sessionStdin .. => n ≤ op.loc.pending.length
      | .datagramPeek | .followSend _ => true
      | _ => false
  | .bytes b =>
    (w.reached op).isSome && b.length ≤ op.want &&
      match op.loc with
      | .containerOutput .. | .containerPtyOutput .. | .sessionHeader .. | .sessionPayload ..
      | .sessionOutputRead _ | .sigchld => true
      | _ => false
  | .accepted fd =>
    (w.reached op).isSome && op.loc = .accept && w.fds.lookup fd.num = none && fd.gen = w.nextGen
  | .received b _ =>
    (w.reached op).isSome &&
      match op.loc with
      | .datagram size => b.length ≤ size
      | _ => false

/-- The kernel completes an op: a write's bytes reach the file, an accept makes a descriptor. -/
def perform (w : World) (op : InFlight) (r : Result) : World :=
  let done :=
    { w with ops := w.ops.map fun o => if o.id = op.id then { o with result := some r } else o }
  match r, w.reached op with
  | .accepted fd, _ => done.openFd .stream fd.num
  | .count n, some f =>
    if op.loc.pending = [] then done else done.note (.wrote op.loc f (op.loc.pending.take n))
  | .bytes b, _ => done.note (.read op.loc b)
  | .failed _, _ => done.note (.failed op.loc)
  | _, _ => done

end World

inductive Event
  | enter
  | perform (id : ℕ) (r : Result)
  | deliver (id : ℕ) (answers : List Answer)

/-- The kernel takes up what is queued, it completes an op, or the runtime delivers a completion to its
callback. -/
def step (codec : Codec) (w : World) : Event → Option World
  | .enter => some w.enter
  | .perform id r =>
    match w.findOp id with
    | some op =>
      if op.result = none ∧ op ∉ w.queued ∧ w.allows op r then some (w.perform op r) else none
    | none => none
  | .deliver id answers =>
    match w.findOp id with
    | some op =>
      match op.result with
      | some r => (w.takeOp id).exec answers (callback codec r op.loc)
      | none => none
    | none => none

def booted (answers : List Answer) : Option World := World.init.exec answers boot

end Conrt.Daemon
