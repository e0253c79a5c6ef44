import Conrt.Base.Hoare
import Conrt.Daemon.State

/-! The system calls and submissions the daemon makes. -/
namespace Conrt.Daemon

open Conrt.Base

namespace World

def note (w : World) (e : Entry) : World := { w with trace := w.trace ++ [e] }

/-- The file a descriptor number stands for now. -/
def file (w : World) (fd : Option Handle) : Option File := fd.bind fun h => w.fds.lookup h.1

def openFd (w : World) (k : FileKind) (num : ℕ) : World :=
  { w with
    fds := w.fds.insert num ⟨k, w.nextGen⟩
    nextGen := w.nextGen + 1 }.note (.opened (num, ⟨k, w.nextGen⟩))

/-- `close` frees whatever the number stands for, whoever opened it. -/
def closeFd (w : World) (h : Handle) : World :=
  { w with fds := w.fds.erase h.1 }.note (.closed h (w.file (some h)))

/-- `Uring::arm` queues the op; the entry notes what the number stands for then. -/
def submit (w : World) (loc : OpLocal) (fd : Option Handle) (want : ℕ) (accepted : Bool) : World :=
  let op : InFlight := { id := w.nextOp, loc := loc, fd := fd, want := want, result := none }
  { w with
    ops := if accepted then w.ops ++ [op] else w.ops
    nextOp := if accepted then w.nextOp + 1 else w.nextOp }.note
    (.submitted loc fd (w.file fd) accepted)

def beginFrame (w : World) (stream : Fd .stream) (frame : Frame) (loc : OpLocal) (want : ℕ)
    (accepted : Bool) : World :=
  let w := w.submit loc (some stream.handle) want accepted
  if accepted then w.note (.begun stream frame) else w

/-- The ops that the kernel has not taken up. -/
def queued (w : World) : List InFlight :=
  w.ops.filter fun op => (w.resolved.lookup op.id).isNone

/-- `Uring::wait` hands the queue to the kernel, which looks up each number only then. -/
def enter (w : World) : World :=
  { w with resolved := w.resolved.insertAll InFlight.id (fun op => w.file op.fd) w.queued }

/-- The file that an op reached when the kernel took it up. -/
def reached (w : World) (op : InFlight) : Option File := (w.resolved.lookup op.id).join

def modifySession (w : World) (sid : ℕ) (f : AttachSession → AttachSession) : World :=
  { w with g.attachSessions := w.g.attachSessions.update sid f }

def dropSession (w : World) (sid : ℕ) : World :=
  { w with g.attachSessions := w.g.attachSessions.erase sid }.note (.sessionClosed sid)

def modifyContainer (w : World) (pid : Pid) (f : ContainerInfo → ContainerInfo) : World :=
  { w with g.containers := w.g.containers.update pid f }

/-- Takes the container out of the table and keeps its log. -/
def buryContainer (w : World) (pid : Pid) (info : ContainerInfo) : World :=
  { w with
    g.containers := w.g.containers.erase pid
    g.logGraveyard := w.g.logGraveyard.insert pid info.gateway.cache }.note
    (.retired pid (if info.save then none else info.overlayDir))

/-- A child has been reaped, and a session is told, if there is one. -/
def reap (w : World) (pid : Pid) (exitCode : ℤ) (told : Option ℕ) : World :=
  let w := { w with children := w.children.erase pid }.note (.reaped pid exitCode)
  match told with
  | some sid => w.modifySession sid ({ · with childExited := true, exitCode := some exitCode })
  | none => w

/-- The follow pipes with a write in flight. -/
def followIds (w : World) : List ℕ :=
  w.ops.filterMap fun op =>
    match op.loc with
    | .followWrite _ pipeId _ _ => some pipeId
    | _ => none

end World

def note (e : Entry) : M Unit := modify (·.note e)

def ask : M Answer := do
  match (← get).answers with
  | [] => throw .answer
  | a :: as =>
    modify fun w => { w with answers := as }
    pure a

def call : M (Except String Unit) := do
  match ← ask with
  | .call (.ok []) => pure (.ok ())
  | .call (.error e) => pure (.error e)
  | _ => throw .answer

/-- The kernel hands out numbers that are not in use. -/
def openFd (k : FileKind) (num : ℕ) : M (Fd k) := do
  let w ← get
  if w.fds.lookup num = none then
    modify (·.openFd k num)
    pure ⟨num, w.nextGen⟩
  else throw .answer

def openOne (k : FileKind) : M (Except String (Fd k)) := do
  match ← ask with
  | .call (.ok [a]) =>
    let fd ← openFd k a
    pure (.ok fd)
  | .call (.error e) => pure (.error e)
  | _ => throw .answer

/-- `pipe2` as (read, write), `openpty` as (master, slave). -/
def openPair (k : FileKind) : M (Except String (Fd k × Fd k)) := do
  match ← ask with
  | .call (.ok [a, b]) =>
    let first ← openFd k a
    let second ← openFd k b
    pure (.ok (first, second))
  | .call (.error e) => pure (.error e)
  | _ => throw .answer

def closeFd (h : Handle) : M Unit := modify (·.closeFd h)

def closeAll (hs : List Handle) : M Unit := forEach closeFd hs

/-- The new op's handle, or `none` when the submission is refused. -/
def submit (loc : OpLocal) (fd : Option Handle) (want : ℕ) : M (Option ℕ) := do
  match ← ask with
  | .submit accepted =>
    let w ← get
    modify (·.submit loc fd want accepted)
    pure (if accepted then some w.nextOp else none)
  | _ => throw .answer

def beginFrame (stream : Fd .stream) (frame : Frame) (loc : OpLocal) (want : ℕ) :
    M (Option ℕ) := do
  match ← submit loc stream.handle want with
  | some op =>
    note (.begun stream frame)
    pure (some op)
  | none => pure none

/-- A synchronous write; the bytes taken are a prefix of `b`. -/
def writeNow (h : Handle) (b : Bytes) : M (Except String ℕ) := do
  match ← ask with
  | .write (.ok n) =>
    match (← get).file (some h) with
    | some f =>
      if n ≤ b.length then
        note (.wroteNow f (b.take n))
        pure (.ok n)
      else throw .answer
    | none => throw .answer
  | .write (.error e) => pure (.error e)
  | _ => throw .answer

/-- `clone3`; the kernel gives no new child the pid of one that has not been reaped. -/
def clone3Container : M (Except String Pid) := do
  match ← ask with
  | .clone (.ok pid) =>
    if 0 < pid ∧ pid ∉ (← get).children then
      modify fun w => { w with children := pid :: w.children }.note (.started pid)
      pure (.ok pid)
    else throw .answer
  | .clone (.error e) => pure (.error e)
  | _ => throw .answer

def now : M ℕ := do
  match ← ask with
  | .clock t => pure t
  | _ => throw .answer

def staleBytes : M Bytes := do
  match ← ask with
  | .stale b => pure b
  | _ => throw .answer

def modifySession (sid : ℕ) (f : AttachSession → AttachSession) : M Unit :=
  modify (·.modifySession sid f)

def modifyContainer (pid : Pid) (f : ContainerInfo → ContainerInfo) : M Unit :=
  modify (·.modifyContainer pid f)

def findSession (sid : ℕ) : M (Option AttachSession) := do
  return (← get).g.attachSessions.lookup sid

def findContainer (pid : Pid) : M (Option ContainerInfo) := do
  return (← get).g.containers.lookup pid

def replyDatagram (sender : ℕ) (reply : Reply) : M Unit := note (.replied sender reply)

end Conrt.Daemon
