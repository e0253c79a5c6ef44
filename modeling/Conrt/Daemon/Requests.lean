import Conrt.Daemon.Container

/-! Client requests: starting containers, attaching to them, following their logs. -/
namespace Conrt.Daemon

open Conrt.Base

structure RunArgs where
  rootfs : Option String
  netPid : Option Pid
  save : Bool
  command : List Bytes
  tty : Bool
  interactive : Bool
  noInit : Bool
  initPath : Option String
deriving DecidableEq

inductive Request
  | run (args : RunArgs)
  | list
  | kill (pid : Pid)
  | logs (pid : Pid) (follow : Bool)
  | attach (pid : Pid)
deriving DecidableEq

section

variable {k : FileKind}

def openWhen (wanted : Bool) (k : FileKind) : M (Except String (Option (Fd k × Fd k))) := do
  if wanted then
    match ← openPair k with
    | .ok pair => pure (.ok (some pair))
    | .error e => pure (.error e)
  else pure (.ok none)

def firstOf (pair : Option (Fd k × Fd k)) : RawFd k := pair.map (·.1)

def secondOf (pair : Option (Fd k × Fd k)) : RawFd k := pair.map (·.2)

def firstHandles (pair : Option (Fd k × Fd k)) : List Handle := RawFd.handles (firstOf pair)

def secondHandles (pair : Option (Fd k × Fd k)) : List Handle := RawFd.handles (secondOf pair)

def pairHandles (pair : Option (Fd k × Fd k)) : List Handle :=
  firstHandles pair ++ secondHandles pair

end

/-- What a run has before `clone3`. Only the child uses the rest. -/
structure PreparedResources where
  overlayDir : Option ℕ
  signal : Fd .pipe × Fd .pipe
  needsUsernsMaps : Bool
  command : List Bytes
  deathPipe : Option (Fd .pipe × Fd .pipe)

/-- `OneshotSignal` closes both its ends, by `signal` or when it is dropped. -/
def dropSignal (signal : Fd .pipe × Fd .pipe) : M Unit :=
  closeAll [signal.1.handle, signal.2.handle]

def prepareRootfs (rootfs : Option String) : M (Except String (Option ℕ)) := do
  match rootfs with
  | none => pure (.ok none)
  | some _ =>
    match ← call with
    | .error e => pure (.error ("invalid rootfs path: " ++ e))
    | .ok () =>
      match ← call with
      | .error e => pure (.error ("cannot create overlay tempdir: " ++ e))
      | .ok () =>
        let dir := (← get).nextOverlay
        modify fun w => { w with nextOverlay := dir + 1 }.note (.overlayMade dir)
        pure (.ok (some dir))

def setns (pid : Pid) : M (Except String Unit) := do
  match ← call with
  | .error e =>
    pure (.error ("setns(CLONE_NEWUSER) into pid " ++ toString pid ++ " failed: " ++ e))
  | .ok () =>
    note (.joined pid .user)
    match ← call with
    | .error e =>
      pure (.error ("setns(CLONE_NEWNET) into pid " ++ toString pid ++ " failed: " ++ e))
    | .ok () =>
      note (.joined pid .net)
      pure (.ok ())

/-- The daemon itself joins the namespaces of `pid`. -/
def joinNamespaces (pid : Pid) : M (Except String Unit) := do
  match ← openOne .ns with
  | .error e => pure (.error ("cannot open pid " ++ toString pid ++ " user ns: " ++ e))
  | .ok user =>
    match ← openOne .ns with
    | .error e =>
      closeAll [user.handle]
      pure (.error ("cannot open pid " ++ toString pid ++ " net ns: " ++ e))
    | .ok net =>
      let r ← setns pid
      closeAll [net.handle, user.handle]
      pure r

def prepareNamespaces (netPid : Option Pid) : M (Except String Bool) := do
  match netPid with
  | none => pure (.ok true)
  | some pid =>
    match ← joinNamespaces pid with
    | .error e => pure (.error e)
    | .ok () => pure (.ok false)

/-- The death pipe is left open on every error after this. -/
def prepareRun (args : RunArgs) : M (Except String PreparedResources) := do
  if args.noInit && args.initPath.isSome then
    pure (.error "--init and --no-init are mutually exclusive")
  else
    match ← prepareRootfs args.rootfs with
    | .error e => pure (.error e)
    | .ok overlayDir =>
      match ← openPair .pipe with
      | .error e => pure (.error ("sync pipe creation failed: " ++ e))
      | .ok signal =>
        match ← prepareNamespaces args.netPid with
        | .error e =>
          dropSignal signal
          pure (.error e)
        | .ok needsUsernsMaps =>
          match ← openWhen (args.initPath.isNone && !args.noInit) .pipe with
          | .error e =>
            dropSignal signal
            pure (.error ("death pipe creation failed: " ++ e))
          | .ok deathPipe =>
            pure (.ok ⟨overlayDir, signal, needsUsernsMaps, args.command, deathPipe⟩)

def parentSetupMapsAndSignal (prep : PreparedResources) : M (Except String Unit) := do
  let r ← if prep.needsUsernsMaps then call else pure (.ok ())
  dropSignal prep.signal
  match r with
  | .error e => pure (.error ("uid_map write failed: " ++ e))
  | .ok () => pure (.ok ())

def commandText (command : List Bytes) : Bytes := List.intercalate [32] command

def ContainerInfo.new (pid : Pid) (args : RunArgs) (prep : PreparedResources) (startTime : ℕ)
    (stdinFd : RawFd .pipe) (ptmFd : RawFd .pty) : ContainerInfo :=
  { pid := pid
    command := commandText prep.command
    overlayDir := prep.overlayDir
    save := args.save
    startTime := startTime
    gateway := .new logCapacity
    stdinFd := stdinFd
    ptmFd := ptmFd
    deathPipeWrite := secondOf prep.deathPipe
    drainsPending := 0 }

def addDrain (pid : Pid) : M Unit :=
  modifyContainer pid fun info => { info with drainsPending := info.drainsPending + 1 }

/-- The parent's side of `clone3`. -/
def startDetached (sender : ℕ) (args : RunArgs) (prep : PreparedResources)
    (stdin : Option (Fd .pipe × Fd .pipe)) (pty : Option (Fd .pty × Fd .pty))
    (log : Fd .pipe × Fd .pipe) (pid : Pid) : M Unit := do
  closeAll (log.2.handle :: secondHandles pty ++ firstHandles prep.deathPipe ++ firstHandles stdin)
  match ← parentSetupMapsAndSignal prep with
  | .error e =>
    closeAll (log.1.handle :: secondHandles stdin ++ firstHandles pty ++
      secondHandles prep.deathPipe)
    replyDatagram sender (.error ("container aborted: " ++ e))
  | .ok () =>
    let startTime ← now
    let info := ContainerInfo.new pid args prep startTime (secondOf stdin) (firstOf pty)
    modify fun w =>
      { w with
        g.outputs := w.g.outputs.insert pid ⟨log.1⟩
        g.containers := w.g.containers.insert pid info }.note
        (.installed pid true pty.isSome (log.1.handle :: info.handles))
    addDrain pid
    armContainerOutput pid
    if pty.isSome then
      addDrain pid
      armContainerPtyOutput pid
    replyDatagram sender (.run pid)

/-- A run whose stdin pipe, pty or log pipe cannot be made leaves the earlier pipes open. -/
def handleRun (sender : ℕ) (args : RunArgs) : M Unit := do
  match ← prepareRun args with
  | .error e => replyDatagram sender (.error e)
  | .ok prep =>
    match ← openWhen (args.interactive && !args.tty) .pipe with
    | .error e =>
      replyDatagram sender (.error ("stdin pipe creation failed: " ++ e))
      dropSignal prep.signal
    | .ok stdin =>
      match ← openWhen args.tty .pty with
      | .error e =>
        replyDatagram sender (.error ("pty allocation failed: " ++ e))
        dropSignal prep.signal
      | .ok pty =>
        match ← openPair .pipe with
        | .error e =>
          replyDatagram sender (.error ("log pipe creation failed: " ++ e))
          closeAll (pairHandles pty)
          dropSignal prep.signal
        | .ok log =>
          match ← clone3Container with
          | .error e =>
            closeAll (log.1.handle :: log.2.handle :: pairHandles stdin ++ pairHandles pty ++
              pairHandles prep.deathPipe)
            replyDatagram sender (.error ("clone3 failed: " ++ e))
            dropSignal prep.signal
          | .ok pid => startDetached sender args prep stdin pty log pid

def refuseRun (sid : ℕ) (streamFd : Fd .stream) (msg : String) : M Unit := do
  writeFrameNow streamFd 0x01 (errorResponse msg)
  closeSession sid

def startAttached (sid : ℕ) (streamFd : Fd .stream) (args : RunArgs) (prep : PreparedResources)
    (pty : Option (Fd .pty × Fd .pty)) (log : Option (Fd .pipe × Fd .pipe)) (pid : Pid) :
    M Bool := do
  closeAll (secondHandles pty ++ firstHandles prep.deathPipe)
  match ← parentSetupMapsAndSignal prep with
  | .error e =>
    closeAll (secondHandles prep.deathPipe)
    refuseRun sid streamFd ("container aborted: " ++ e)
    closeAll (firstHandles pty)
    pure false
  | .ok () =>
    closeAll (secondHandles log)
    let startTime ← now
    let info := ContainerInfo.new pid args prep startTime none none
    modify fun w =>
      { w with g.containers := w.g.containers.insert pid info }.note
        (.installed pid false pty.isSome info.handles)
    modifySession sid fun sess =>
      { sess with ptmFd := firstOf pty, logReadFd := firstOf log, containerPid := pid }
    note (.adopted sid pid (firstHandles pty ++ firstHandles log))
    armSessionFrame sid streamFd 0x01 (runResponse pid)
    armSessionOutput sid
    pure true

def handleRunAttach (sid : ℕ) (args : RunArgs) : M Bool := do
  match ← findSession sid with
  | none => pure false
  | some sess =>
    match ← prepareRun args with
    | .error e =>
      refuseRun sid sess.streamFd e
      pure false
    | .ok prep =>
      match ← openWhen (args.tty || args.interactive) .pty with
      | .error e =>
        refuseRun sid sess.streamFd ("pty allocation failed: " ++ e)
        dropSignal prep.signal
        pure false
      | .ok pty =>
        match ← openWhen (!(args.tty || args.interactive)) .pipe with
        | .error e =>
          refuseRun sid sess.streamFd ("log pipe creation failed: " ++ e)
          dropSignal prep.signal
          pure false
        | .ok log =>
          match ← clone3Container with
          | .error e =>
            closeAll (pairHandles log ++ pairHandles prep.deathPipe)
            refuseRun sid sess.streamFd ("clone3 failed: " ++ e)
            closeAll (pairHandles pty)
            dropSignal prep.signal
            pure false
          | .ok pid => startAttached sid sess.streamFd args prep pty log pid

/-- The container's own descriptor, not a copy of it. -/
def ContainerInfo.input (info : ContainerInfo) : Option Input :=
  match info.ptmFd with
  | some fd => some (.ptm fd)
  | none => info.stdinFd.map .pipe

def newPipeId : M ℕ := do
  let id := (← get).g.nextPipeId
  modify fun w => { w with g.nextPipeId := id + 1 }
  pure id

def attachPipe (pid : Pid) (pipeId : ℕ) (fd : Fd .pipe) : M Unit :=
  modifyContainer pid (·.attachPipe ⟨pipeId, fd, false⟩)

def notFound (pid : Pid) : String := "container " ++ toString pid ++ " not found"

def handleAttach (sid : ℕ) (pid : Pid) : M Bool := do
  match ← findContainer pid with
  | none =>
    match ← findSession sid with
    | some sess => writeFrameNow sess.streamFd 0x01 (errorResponse (notFound pid))
    | none => pure ()
    closeSession sid
    pure false
  | some info =>
    match ← openPair .pipe with
    | .error _ =>
      closeSession sid
      pure false
    | .ok (read, write) =>
      let pipeId ← newPipeId
      attachPipe pid pipeId write
      modifySession sid fun sess =>
        { sess with logReadFd := some read, inputFd := info.input, containerPid := pid }
      note (.adopted sid pid [read.handle, write.handle])
      match ← findSession sid with
      | none =>
        closeSession sid
        pure false
      | some sess =>
        armSessionFrame sid sess.streamFd 0x01 (runResponse pid)
        armSessionOutput sid
        pure true

/-- Writes the backlog until it is done or a write takes nothing. -/
def writeBacklog (h : Handle) : ℕ → Bytes → M (Except String Unit)
  | 0, _ => throw .answer
  | fuel + 1, backlog => do
    if backlog = [] then pure (.ok ())
    else
      match ← writeNow h backlog with
      | .error e => pure (.error e)
      | .ok 0 => pure (.ok ())
      | .ok (n + 1) => writeBacklog h fuel (backlog.drop (n + 1))

def handleFollow (sender : ℕ) (pid : Pid) : M Unit := do
  match ← findContainer pid with
  | none => replyDatagram sender (.error (notFound pid))
  | some info =>
    let backlog := info.gateway.cache.snapshot
    match ← openPair .pipe with
    | .error e => replyDatagram sender (.error ("pipe creation failed: " ++ e))
    | .ok (read, write) =>
      match ← writeBacklog write.handle (backlog.length + 1) backlog with
      | .error _ => closeAll [write.handle, read.handle]
      | .ok () =>
        let pipeId ← newPipeId
        attachPipe pid pipeId write
        note (.followed pid pipeId write.handle read.handle backlog)
        -- the message that carries the read end
        match ← call with
        | .error _ => note (.starved (.followSend read))
        | .ok () =>
          discard <| submit (.followSend read) (RawFd.handle (← get).g.datagramFd) 0

def handleKill (sender : ℕ) (pid : Pid) : M Unit := do
  match ← findContainer pid with
  | none => replyDatagram sender (.kill (some (notFound pid)))
  | some _ =>
    note (.killed pid)
    match ← call with
    | .error e => replyDatagram sender (.kill (some ("kill failed: " ++ e)))
    | .ok () => replyDatagram sender (.kill none)

def handleLogs (sender : ℕ) (pid : Pid) : M Unit := do
  let w ← get
  let cache := ((w.g.containers.lookup pid).map (·.gateway.cache)).or (w.g.logGraveyard.lookup pid)
  match cache with
  | none => replyDatagram sender (.error (notFound pid))
  | some cache => replyDatagram sender (.logs cache.collectLines)

def handleList (sender : ℕ) : M Unit := do
  let t ← now
  let summary (info : ContainerInfo) : ContainerSummary :=
    ⟨info.pid, info.command, t - info.startTime⟩
  replyDatagram sender (.list ((← get).g.containers.values.map summary))

def handleDatagram (sender : ℕ) : Request → M Unit
  | .run args => handleRun sender args
  | .list => handleList sender
  | .kill pid => handleKill sender pid
  | .logs pid follow => if follow then handleFollow sender pid else handleLogs sender pid
  | .attach _ => replyDatagram sender (.error "attach must be sent over the stream socket")

end Conrt.Daemon
