import Conrt.Daemon.Session

/-! Containers: follow pipes, output drains, and the reaper. -/
namespace Conrt.Daemon

open Conrt.Base

/-- `Vec::swap_remove`: the last element takes the removed one's place. -/
def swapRemove {α : Type} (l : List α) (i : ℕ) : List α :=
  match l.getLast? with
  | some a => (l.set i a).dropLast
  | none => []

namespace LogGateway

def new (cap : ℕ) : LogGateway := { cache := .new cap, pipes := [] }

/-- The new gateway and the ids of the pipes that were idle. -/
def push (g : LogGateway) (line : Bytes) : Option (LogGateway × List ℕ) := do
  let cache ← g.cache.push line
  pure ({ cache := cache, pipes := g.pipes.map ({ · with inFlight := true }) },
    (g.pipes.filter (!·.inFlight)).map (·.id))

def pipeFd (g : LogGateway) (pipeId : ℕ) : Option (Fd .pipe) :=
  (g.pipes.find? (·.id = pipeId)).map (·.fd)

/-- After a write: the pipe is idle again, or it is removed and its descriptor is to be closed. -/
def completeWrite (g : LogGateway) (pipeId : ℕ) (ok : Bool) : LogGateway × List Handle :=
  let i := g.pipes.findIdx (·.id = pipeId)
  match g.pipes[i]? with
  | none => (g, [])
  | some p =>
    if ok then ({ g with pipes := g.pipes.set i { p with inFlight := false } }, [])
    else ({ g with pipes := swapRemove g.pipes i }, [p.fd.handle])

def attach (g : LogGateway) (p : AsyncPipeWriter) : LogGateway :=
  { g with pipes := g.pipes ++ [p] }

def handles (g : LogGateway) : List Handle := g.pipes.map (·.fd.handle)

end LogGateway

def ContainerInfo.handles (info : ContainerInfo) : List Handle :=
  RawFd.handles info.ptmFd ++ RawFd.handles info.stdinFd ++ RawFd.handles info.deathPipeWrite ++
    info.gateway.handles

def ContainerInfo.attachPipe (p : AsyncPipeWriter) (info : ContainerInfo) : ContainerInfo :=
  { info with gateway := info.gateway.attach p }

/-- Moves the log to the graveyard; `fds` are the descriptors this path closes besides the pipes. -/
def retire (pid : Pid) (info : ContainerInfo) (fds : List Handle) : M Unit := do
  modify (·.buryContainer pid info)
  closeAll (fds ++ info.gateway.handles)
  match info.overlayDir with
  | some dir => if !info.save then note (.overlayRemoved dir)
  | none => pure ()

/-- One drain has ended; the last one retires the container. It leaves the death pipe open. -/
def finishDrain (pid : Pid) : M Unit := do
  match ← findContainer pid with
  | none => pure ()
  | some info =>
    if info.drainsPending - 1 > 0 then
      modifyContainer pid ({ · with drainsPending := info.drainsPending - 1 })
    else retire pid info (RawFd.handles info.ptmFd ++ RawFd.handles info.stdinFd)

def completeWrite (pid : Pid) (pipeId : ℕ) (ok : Bool) : M Unit := do
  match ← findContainer pid with
  | none => pure ()
  | some info =>
    let (gateway, fds) := info.gateway.completeWrite pipeId ok
    modifyContainer pid ({ · with gateway := gateway })
    closeAll fds

def armFollowWrite (pid : Pid) (pipeId : ℕ) (fd : Fd .pipe) (chunks : List Bytes) : M Unit :=
  match chunks with
  | [] => completeWrite pid pipeId true
  | chunk :: _ =>
    discard <| submit (.followWrite pid pipeId fd chunks) (some fd.handle) chunk.length

/-- The chunks left after `n` bytes of the first one have been taken. -/
def advance (n : ℕ) : List Bytes → List Bytes
  | [] => []
  | chunk :: rest =>
    if chunk.length ≤ n then rest else if 0 < n then chunk.drop n :: rest else chunk :: rest

def onFollowWrite (pid : Pid) (pipeId : ℕ) (fd : Fd .pipe) (chunks : List Bytes) :
    Result → M Unit
  | .count n =>
    match advance n chunks with
    | [] => completeWrite pid pipeId true
    | chunk :: rest => armFollowWrite pid pipeId fd (chunk :: rest)
  | _ => completeWrite pid pipeId false

def followLine (pid : Pid) (line : Bytes) (target : ℕ × Fd .pipe) : M Unit := do
  let stale ← staleBytes
  armFollowWrite pid target.1 target.2 (splitLine stale line)

def writeLine (pid : Pid) (line : Bytes) : M Unit := do
  match ← findContainer pid with
  | some info =>
    let (gateway, ids) ← ofOption .cache (info.gateway.push line)
    modify fun w =>
      (w.modifyContainer pid ({ · with gateway := gateway })).note (.pushed pid line w.followIds)
    forEach (followLine pid line) (ids.filterMap fun id => (gateway.pipeFd id).map (id, ·))
  | none =>
    match (← get).g.logGraveyard.lookup pid with
    | some cache =>
      let cache ← ofOption .cache (cache.push line)
      modify fun w => { w with g.logGraveyard := w.g.logGraveyard.insert pid cache }
    | none => pure ()

def writeLines (pid : Pid) (lines : List Bytes) : M Unit := forEach (writeLine pid) lines

def outputFd (pid : Pid) : M (RawFd .pipe) := do
  return ((← get).g.outputs.lookup pid).map (·.fd)

def containerPtm (pid : Pid) : M (RawFd .pty) := do
  return (← findContainer pid).bind (·.ptmFd)

def armContainerOutput (pid : Pid) : M Unit := do
  match ← outputFd pid with
  | none => finishDrain pid
  | some fd => discard <| submit (.containerOutput pid []) (some fd.handle) 4096

def finishContainerOutput (pid : Pid) : M Unit := do
  match ← outputFd pid with
  | none => pure ()
  | some fd =>
    modify fun w => { w with g.outputs := w.g.outputs.erase pid }
    closeFd fd.handle
  finishDrain pid

def onContainerOutput (pid : Pid) (lineBuf : Bytes) : Result → M Unit
  | .bytes (b :: bs) => do
    let (lines, lineBuf) := drainLines lineBuf (b :: bs)
    writeLines pid lines
    discard <| submit (.containerOutput pid lineBuf) (RawFd.handle (← outputFd pid)) 4096
  | _ => finishContainerOutput pid

def armContainerPtyOutput (pid : Pid) : M Unit := do
  match ← containerPtm pid with
  | none => finishDrain pid
  | some fd => discard <| submit (.containerPtyOutput pid []) (some fd.handle) 4096

def finishContainerPtyOutput (pid : Pid) : M Unit := do
  match ← containerPtm pid with
  | none => pure ()
  | some fd =>
    modifyContainer pid ({ · with ptmFd := none })
    closeFd fd.handle
  finishDrain pid

def onContainerPtyOutput (pid : Pid) (lineBuf : Bytes) : Result → M Unit
  | .bytes (b :: bs) => do
    let (lines, lineBuf) := drainLines lineBuf (b :: bs)
    writeLines pid lines
    discard <| submit (.containerPtyOutput pid lineBuf) (RawFd.handle (← containerPtm pid)) 4096
  | _ => finishContainerPtyOutput pid

/-- `WIFEXITED`, `WEXITSTATUS`, `WIFSIGNALED` and `WTERMSIG` of a wait status. -/
def exitCodeOf (status : ℕ) : ℤ :=
  if status % 128 = 0 then (status / 256 % 256 : ℕ)
  else if status % 128 ≠ 127 then 128 + (status % 128 : ℕ)
  else 1

/-- The sessions of the pid. -/
def sessionsOf (w : World) (pid : Pid) : List ℕ :=
  w.g.attachSessions.keys.filter fun id =>
    (w.g.attachSessions.lookup id).any (·.containerPid = pid)

/-- `wait4` with `WNOHANG`: a child that has exited, with its status, and the session of its pid that
the map's order meets first. -/
def wait4 : M (Option (Pid × ℤ × Option ℕ)) := do
  match ← ask with
  | .wait none => pure none
  | .wait (some (pid, status, first)) =>
    let w ← get
    if pid ∈ w.children ∧ (first ∈ sessionsOf w pid ∨ sessionsOf w pid = []) then
      modify fun w =>
        { w with children := w.children.erase pid }.note (.reaped pid (exitCodeOf status))
      pure (some (pid, exitCodeOf status, if first ∈ sessionsOf w pid then some first else none))
    else throw .answer
  | _ => throw .answer

/-- A container without drains is retired when it is reaped. -/
def reapContainer (pid : Pid) : M Unit := do
  match ← findContainer pid with
  | none => pure ()
  | some info =>
    if info.drainsPending > 0 then pure ()
    else
      let fds := RawFd.handles info.ptmFd ++ RawFd.handles info.stdinFd
      retire pid info (fds ++ RawFd.handles info.deathPipeWrite)

/-- The sweep over all exited children, in at most `fuel` calls of `wait4`: the sessions told. -/
def reapLoop : ℕ → List ℕ → M (List ℕ)
  | 0, _ => throw .answer
  | fuel + 1, finished => do
    match ← wait4 with
    | none => pure finished
    | some (pid, exitCode, found) =>
      match found with
      | some sid =>
        modifySession sid ({ · with childExited := true, exitCode := some exitCode })
        reapContainer pid
        reapLoop fuel (finished ++ [sid])
      | none =>
        reapContainer pid
        reapLoop fuel finished

/-- Every turn of the sweep takes an answer, so they bound it. -/
def reapChildren : M Unit := do
  let finished ← reapLoop ((← get).answers.length + 1) []
  forEach maybeFinishSession finished

end Conrt.Daemon
