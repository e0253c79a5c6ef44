import Conrt.Base.Table
import Conrt.Daemon.Log

/-! The daemon's shared state, its op locals, and the kernel it runs on. -/
namespace Conrt.Daemon

open Conrt.Base

abbrev Pid := ℤ

inductive FileKind
  | datagram | listener | signal | stream | pty | pipe | ns
deriving DecidableEq

/-- An open file. No two openings share a `gen`. -/
structure File where
  kind : FileKind
  gen : ℕ
deriving DecidableEq

/-- A descriptor variable of the daemon: a number, and (not in the source) which opening of that
number it came from. -/
structure Fd (k : FileKind) where
  num : ℕ
  gen : ℕ
deriving DecidableEq

abbrev Handle := ℕ × File

def Fd.handle {k : FileKind} (fd : Fd k) : Handle := (fd.num, ⟨k, fd.gen⟩)

/-- `none` is the source's -1. -/
abbrev RawFd (k : FileKind) := Option (Fd k)

def RawFd.handle {k : FileKind} (fd : RawFd k) : Option Handle := fd.map Fd.handle

def RawFd.handles {k : FileKind} (fd : RawFd k) : List Handle := (RawFd.handle fd).toList

inductive OpLocal
  | datagram (size : ℕ)
  | datagramPeek
  | followSend (closeAfter : Fd .pipe)
  | accept
  | sigchld
  | containerOutput (pid : Pid) (lineBuf : Bytes)
  | containerPtyOutput (pid : Pid) (lineBuf : Bytes)
  | followWrite (pid : Pid) (pipeId : ℕ) (fd : Fd .pipe) (chunks : List Bytes)
  | sessionHeader (sessionId : ℕ) (acc : Bytes)
  | sessionPayload (sessionId : ℕ) (frameType : UInt8) (acc : Bytes) (need : ℕ)
  | sessionFrame (sessionId : ℕ) (streamFd : Fd .stream) (buf : Bytes) (off : ℕ)
  | sessionDataHeader (sessionId : ℕ) (streamFd : Fd .stream) (header payload : Bytes) (off : ℕ)
  | sessionDataPayload (sessionId : ℕ) (streamFd : Fd .stream) (payload : Bytes) (off : ℕ)
  | sessionOutputRead (sessionId : ℕ)
  | sessionStdin (sessionId : ℕ) (buf : Bytes) (off : ℕ)
deriving DecidableEq

def OpLocal.pending : OpLocal → Bytes
  | .followWrite _ _ _ chunks => chunks.headD []
  | .sessionFrame _ _ buf off => buf.drop off
  | .sessionDataHeader _ _ header _ off => header.drop off
  | .sessionDataPayload _ _ payload off => payload.drop off
  | .sessionStdin _ buf off => buf.drop off
  | _ => []

inductive Result
  | bytes (b : Bytes)
  | count (n : ℕ)
  | accepted (fd : Fd .stream)
  | received (b : Bytes) (sender : ℕ)
  | failed (errno : ℕ)
deriving DecidableEq

/-- An op in flight: the descriptor it names, and its result once the kernel has one. -/
structure InFlight where
  id : ℕ
  loc : OpLocal
  fd : Option Handle
  want : ℕ
  result : Option Result
deriving DecidableEq

structure AsyncPipeWriter where
  id : ℕ
  fd : Fd .pipe
  inFlight : Bool
deriving DecidableEq

structure LogGateway where
  cache : LogCache
  pipes : List AsyncPipeWriter
deriving DecidableEq

structure ContainerInfo where
  pid : Pid
  command : Bytes
  overlayDir : Option ℕ
  save : Bool
  startTime : ℕ
  gateway : LogGateway
  stdinFd : RawFd .pipe
  ptmFd : RawFd .pty
  deathPipeWrite : RawFd .pipe
  drainsPending : ℕ
deriving DecidableEq

structure Output where
  fd : Fd .pipe
deriving DecidableEq

inductive Input
  | ptm (fd : Fd .pty)
  | pipe (fd : Fd .pipe)
deriving DecidableEq

def Input.handle : Input → Handle
  | .ptm fd => fd.handle
  | .pipe fd => fd.handle

structure AttachSession where
  streamFd : Fd .stream
  ptmFd : RawFd .pty
  inputFd : Option Input
  logReadFd : RawFd .pipe
  containerPid : Pid
  childExited : Bool
  exitCode : Option ℤ
  drainDone : Bool
  exitSent : Bool
  readOp : Option ℕ
  outputOp : Option ℕ
deriving DecidableEq

structure DaemonState where
  datagramFd : RawFd .datagram
  attachListenerFd : RawFd .listener
  sigchldFd : RawFd .signal
  containers : Table Pid ContainerInfo
  outputs : Table Pid Output
  logGraveyard : Table Pid LogCache
  nextPipeId : ℕ
  attachSessions : Table ℕ AttachSession
  nextSessionId : ℕ

def DaemonState.new : DaemonState :=
  { datagramFd := none
    attachListenerFd := none
    sigchldFd := none
    containers := ∅
    outputs := ∅
    logGraveyard := ∅
    nextPipeId := 0
    attachSessions := ∅
    nextSessionId := 0 }

structure ContainerSummary where
  pid : Pid
  command : Bytes
  age : ℕ
deriving DecidableEq

inductive Reply
  | run (pid : Pid)
  | list (containers : List ContainerSummary)
  | kill (error : Option String)
  | logs (lines : List Bytes)
  | error (msg : String)
deriving DecidableEq

inductive Namespace
  | user | net
deriving DecidableEq

/-- What an observer of the daemon and the kernel sees, in order. -/
inductive Entry
  | opened (h : Handle)
  | closed (h : Handle) (victim : Option File)
  | submitted (loc : OpLocal) (fd : Option Handle) (file : Option File) (accepted : Bool)
  | read (loc : OpLocal) (bytes : Bytes)
  | wrote (loc : OpLocal) (file : File) (bytes : Bytes)
  | wroteNow (file : File) (bytes : Bytes)
  | failed (loc : OpLocal)
  | starved (loc : OpLocal)
  | begun (stream : Fd .stream) (frame : Frame)
  | offered (sessionId : ℕ) (stdin : Option Handle) (payload : Bytes)
  | stdinClosed (sessionId : ℕ) (stdin : Handle)
  | cancelled (op : ℕ)
  | adopted (sessionId : ℕ) (pid : Pid) (fds : List Handle)
  | sessionClosed (sessionId : ℕ)
  | started (pid : Pid)
  | installed (pid : Pid) (detached tty : Bool) (fds : List Handle)
  | retired (pid : Pid) (overlay : Option ℕ)
  | reaped (pid : Pid) (exitCode : ℤ)
  | killed (pid : Pid)
  | pushed (pid : Pid) (line : Bytes) (busy : List ℕ)
  | followed (pid : Pid) (pipeId : ℕ) (write read : Handle) (snapshot : Bytes)
  | replied (sender : ℕ) (reply : Reply)
  | joined (pid : Pid) (ns : Namespace)
  | overlayMade (dir : ℕ)
  | overlayRemoved (dir : ℕ)
  | winsize (ptm : Handle) (rows cols : ℕ)
deriving DecidableEq

/-- What the system does at one call of the daemon: whether a submission is accepted, the
descriptor numbers a call returns, the bytes a synchronous write takes, a reaped child with its
status and the session the lookup meets first, the pid of a new child, the clock, old pool bytes. -/
inductive Answer
  | submit (accepted : Bool)
  | call (r : Except String (List ℕ))
  | write (r : Except String ℕ)
  | wait (child : Option (Pid × ℕ × ℕ))
  | clone (r : Except String Pid)
  | clock (now : ℕ)
  | stale (b : Bytes)

/-- The daemon's state and the kernel's: open numbers, ops in flight, what the kernel found behind the
number of each op it has taken up, children not yet reaped. The answers are those of the running
callback; the trace is not in the source. -/
structure World where
  g : DaemonState
  fds : Table ℕ File
  nextGen : ℕ
  ops : List InFlight
  nextOp : ℕ
  resolved : Table ℕ (Option File)
  children : List Pid
  nextOverlay : ℕ
  answers : List Answer
  trace : List Entry

def World.init : World :=
  { g := .new
    fds := ∅
    nextGen := 0
    ops := []
    nextOp := 0
    resolved := ∅
    children := []
    nextOverlay := 0
    answers := []
    trace := [] }

/-- How a callback can fail to return: an answer the system cannot give, or a panic or endless loop
in the log cache. -/
inductive Panic
  | answer
  | cache
deriving DecidableEq

abbrev M := EStateM Panic World

end Conrt.Daemon
