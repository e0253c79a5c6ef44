import Conrt.Daemon.Kernel

/-! Attach sessions: framed writes to the stream, stdin writes, the output drain, the exit frame. -/
namespace Conrt.Daemon

open Conrt.Base

def utf8 (s : String) : Bytes := s.toUTF8.toList

def jsonEscape (c : Char) : String :=
  if c.toNat = 34 then "\\\""
  else if c.toNat = 92 then "\\\\"
  else if c.toNat = 8 then "\\b"
  else if c.toNat = 9 then "\\t"
  else if c.toNat = 10 then "\\n"
  else if c.toNat = 12 then "\\f"
  else if c.toNat = 13 then "\\r"
  else if c.toNat < 32 then
    "\\u00" ++ String.ofList [Nat.digitChar (c.toNat / 16), Nat.digitChar (c.toNat % 16)]
  else c.toString

def jsonString (s : String) : String := "\"" ++ String.join (s.toList.map jsonEscape) ++ "\""

def exitPayload (exitCode : ℤ) : Bytes :=
  utf8 ("\x7b\"exit_code\":" ++ toString exitCode ++ "\x7d")

def runResponse (pid : Pid) : Bytes :=
  utf8 ("\x7b\"ok\":true,\"pid\":" ++ toString pid ++ "\x7d")

def errorResponse (msg : String) : Bytes :=
  utf8 ("\x7b\"ok\":false,\"error\":" ++ jsonString msg ++ "\x7d")

/-- Where client bytes go. -/
def AttachSession.stdinFd (sess : AttachSession) : Option Handle :=
  match sess.ptmFd with
  | some fd => some fd.handle
  | none => sess.inputFd.map Input.handle

def AttachSession.outputFd (sess : AttachSession) : Option Handle :=
  match sess.ptmFd with
  | some fd => some fd.handle
  | none => RawFd.handle sess.logReadFd

def AttachSession.new (streamFd : Fd .stream) : AttachSession :=
  { streamFd := streamFd
    ptmFd := none
    inputFd := none
    logReadFd := none
    containerPid := 0
    childExited := false
    exitCode := none
    drainDone := false
    exitSent := false
    readOp := none
    outputOp := none }

/-- The descriptor of a session's stream; -1 once the session is gone. -/
def sessionStream (sid : ℕ) : M (Option Handle) := do
  return (← findSession sid).map (·.streamFd.handle)

def sessionStdin (sid : ℕ) : M (Option Handle) := do
  return (← findSession sid).bind AttachSession.stdinFd

/-- The cancel requests only make the two reads likely to fail, which any op may do anyway. -/
def closeSession (sid : ℕ) : M Unit := do
  match ← findSession sid with
  | none => pure ()
  | some sess =>
    modify (·.dropSession sid)
    forEach (fun op => note (.cancelled op)) (sess.readOp.toList ++ sess.outputOp.toList)
    closeFd sess.streamFd.handle

inductive SessionOp
  | read | output
deriving DecidableEq

def AttachSession.storeOp (which : SessionOp) (op : Option ℕ) (sess : AttachSession) :
    AttachSession :=
  match which with
  | .read => { sess with readOp := op }
  | .output => { sess with outputOp := op }

def storeSessionOp (sid : ℕ) (which : SessionOp) (op : Option ℕ) : M Unit :=
  modifySession sid (·.storeOp which op)

def submitFor (sid : ℕ) (which : SessionOp) (loc : OpLocal) (fd : Option Handle) (want : ℕ) :
    M Unit := do
  match ← submit loc fd want with
  | some op => storeSessionOp sid which (some op)
  | none => pure ()

def armSessionFrame (sid : ℕ) (streamFd : Fd .stream) (frameType : UInt8) (payload : Bytes) :
    M Unit := do
  let frame : Frame := ⟨frameType, payload⟩
  discard <| beginFrame streamFd frame (.sessionFrame sid streamFd frame.bytes 0) frame.bytes.length

/-- The last of the drain's end and the child's exit sends the exit frame. -/
def maybeFinishSession (sid : ℕ) : M Unit := do
  match ← findSession sid with
  | none => pure ()
  | some sess =>
    if !(sess.drainDone && sess.childExited) || sess.exitSent then pure ()
    else
      modifySession sid ({ · with exitSent := true })
      armSessionFrame sid sess.streamFd 0x02 (exitPayload (sess.exitCode.getD 0))

/-- It only looks at the flag, not at which frame was written. -/
def sessionIsExit (sid : ℕ) : M Bool := do
  return (← findSession sid).any (·.exitSent)

def onSessionFrame (sid : ℕ) (streamFd : Fd .stream) (buf : Bytes) (off : ℕ) :
    Result → M Unit
  | .count n => do
    let off := off + n
    if buf.length ≤ off then
      if ← sessionIsExit sid then closeSession sid
    else
      discard <| submit (.sessionFrame sid streamFd buf off) streamFd.handle (buf.length - off)
  | _ => closeSession sid

/-- A frame written by one synchronous call, on the way to closing the session. -/
def writeFrameNow (streamFd : Fd .stream) (frameType : UInt8) (payload : Bytes) : M Unit := do
  let frame : Frame := ⟨frameType, payload⟩
  note (.begun streamFd frame)
  discard <| writeNow streamFd.handle frame.bytes

def finishSessionOutput (sid : ℕ) : M Unit := do
  modifySession sid ({ · with drainDone := true })
  maybeFinishSession sid

def armSessionOutput (sid : ℕ) : M Unit := do
  match (← findSession sid).bind AttachSession.outputFd with
  | none => finishSessionOutput sid
  | some fd => submitFor sid .output (.sessionOutputRead sid) (some fd) 4096

def onSessionOutput (sid : ℕ) (res : Result) : M Unit := do
  storeSessionOp sid .output none
  match res with
  | .bytes (b :: bs) =>
    match ← findSession sid with
    | none => finishSessionOutput sid
    | some sess =>
      let bytes := b :: bs
      let header := 0x10 :: u16ToLe bytes.length
      let op ← beginFrame sess.streamFd ⟨0x10, bytes⟩
        (.sessionDataHeader sid sess.streamFd header bytes 0) 3
      if op = none then finishSessionOutput sid
  | _ => finishSessionOutput sid

def onSessionDataHeader (sid : ℕ) (streamFd : Fd .stream) (header payload : Bytes) (off : ℕ) :
    Result → M Unit
  | .count n => do
    let off := off + n
    if off < header.length then
      discard <| submit (.sessionDataHeader sid streamFd header payload off) streamFd.handle
        (header.length - off)
    else
      discard <| submit (.sessionDataPayload sid streamFd payload 0) streamFd.handle payload.length
  | _ => finishSessionOutput sid

def onSessionDataPayload (sid : ℕ) (streamFd : Fd .stream) (payload : Bytes) (off : ℕ) :
    Result → M Unit
  | .count n => do
    let off := off + n
    if payload.length ≤ off then armSessionOutput sid
    else
      discard <| submit (.sessionDataPayload sid streamFd payload off) streamFd.handle
        (payload.length - off)
  | _ => finishSessionOutput sid

def armSessionStdin (sid : ℕ) (fd : Handle) (buf : Bytes) : M Unit :=
  discard <| submit (.sessionStdin sid buf 0) fd buf.length

/-- The rest of a short write goes to the stdin the session has by then. -/
def onSessionStdin (sid : ℕ) (buf : Bytes) (off : ℕ) : Result → M Unit
  | .count n => do
    let off := off + n
    if off < buf.length then
      discard <| submit (.sessionStdin sid buf off) (← sessionStdin sid) (buf.length - off)
  | _ => pure ()

end Conrt.Daemon
