import Conrt.Daemon.Step

/-! What the trace says of each child, stream and stdin, and what the ops in flight still owe. -/
namespace Conrt.Daemon

def noteExit (pid : Pid) (last : Option ℤ) : Entry → Option ℤ
  | .started p => if p = pid then none else last
  | .reaped p exitCode => if p = pid then some exitCode else last
  | _ => last

/-- The exit code of `pid`, if it has been reaped since it was last started. -/
def exitOf (pid : Pid) (tr : List Entry) : Option ℤ := tr.foldl (noteExit pid) none

def framesOn (f : File) (tr : List Entry) : List Frame :=
  tr.filterMap fun
    | .begun stream frame => if stream.handle.2 = f then some frame else none
    | _ => none

def bytesOn (f : File) (tr : List Entry) : Bytes :=
  tr.flatMap fun
    | .wrote _ g b => if g = f then b else []
    | .wroteNow g b => if g = f then b else []
    | _ => []

/-- The bytes that a session's exit frame has put on its stream. -/
def exitBytes (sid : ℕ) (tr : List Entry) : Bytes :=
  tr.flatMap fun
    | .wrote (.sessionFrame s stream buf _) g b =>
      if s = sid ∧ buf.head? = some 0x02 ∧ g = stream.handle.2 then b else []
    | _ => []

def ExitDone (sid : ℕ) (tr : List Entry) : Prop :=
  ∃ exitCode, exitBytes sid tr = (Frame.mk 0x02 (exitPayload exitCode)).bytes

/-- The exit frame is out, or the session never had a container. -/
def Settled (sid : ℕ) (tr : List Entry) : Prop :=
  ExitDone sid tr ∨ ∀ pid fds, .adopted sid pid fds ∉ tr

def Adopted (sid : ℕ) (tr : List Entry) : Prop := ∃ pid fds, .adopted sid pid fds ∈ tr

/-- The payloads of a session's stdin frames, each byte with the file it was meant for. -/
def offered (sid : ℕ) (tr : List Entry) : List (List (Option File × UInt8)) :=
  tr.filterMap fun
    | .offered s stdin payload =>
      if s = sid then some (payload.map ((stdin.map Prod.snd, ·))) else none
    | _ => none

/-- The bytes written for a session's stdin frames, each with the file it reached. -/
def accepted (sid : ℕ) (tr : List Entry) : List (Option File × UInt8) :=
  tr.flatMap fun
    | .wrote (.sessionStdin s _ _) g b => if s = sid then b.map ((some g, ·)) else []
    | _ => []

def OpLocal.stdinOf : OpLocal → Option ℕ
  | .sessionStdin sid _ _ => some sid
  | _ => none

/-- A stdin write of the session has not been accepted. -/
def StdinRefused (sid : ℕ) (tr : List Entry) : Prop :=
  ∃ loc fd file, loc.stdinOf = some sid ∧ .submitted loc fd file false ∈ tr

/-- Entries that say nothing about descriptors, streams, stdin or children. -/
def Entry.Plain : Entry → Prop
  | .cancelled _ | .replied _ _ | .joined _ _ | .overlayMade _ | .winsize _ _ _ => True
  | _ => False

section

variable {tr tr' : List Entry} {pid : Pid} {f : File} {sid : ℕ} {e : Entry}

@[simp] theorem exitOf_append : exitOf pid (tr ++ tr') = tr'.foldl (noteExit pid) (exitOf pid tr) :=
  List.foldl_append ..

@[simp] theorem framesOn_append : framesOn f (tr ++ tr') = framesOn f tr ++ framesOn f tr' :=
  List.filterMap_append ..

@[simp] theorem bytesOn_append : bytesOn f (tr ++ tr') = bytesOn f tr ++ bytesOn f tr' :=
  List.flatMap_append ..

@[simp] theorem exitBytes_append : exitBytes sid (tr ++ tr') = exitBytes sid tr ++ exitBytes sid tr' :=
  List.flatMap_append ..

@[simp] theorem offered_append : offered sid (tr ++ tr') = offered sid tr ++ offered sid tr' :=
  List.filterMap_append ..

@[simp] theorem accepted_append : accepted sid (tr ++ tr') = accepted sid tr ++ accepted sid tr' :=
  List.flatMap_append ..

end

def taken : Option Result → ℕ
  | some (.count n) => n
  | _ => 0

/-- What a write op and its continuations have yet to write, once `n` bytes have been taken. -/
def OpLocal.unsent (n : ℕ) : OpLocal → Bytes
  | .sessionFrame _ _ buf off => buf.drop (off + n)
  | .sessionDataHeader _ _ header payload off => header.drop (off + n) ++ payload
  | .sessionDataPayload _ _ payload off => payload.drop (off + n)
  | .sessionStdin _ buf off => buf.drop (off + n)
  | _ => []

def InFlight.unsent (op : InFlight) : Bytes := op.loc.unsent (taken op.result)

def OpLocal.stream : OpLocal → Option (ℕ × Fd .stream)
  | .sessionFrame sid stream _ _ | .sessionDataHeader sid stream _ _ _
  | .sessionDataPayload sid stream _ _ => some (sid, stream)
  | _ => none

def OpLocal.outputOf : OpLocal → Option ℕ
  | .sessionOutputRead sid | .sessionDataHeader sid _ _ _ _ | .sessionDataPayload sid _ _ _ =>
    some sid
  | _ => none

/-- Nothing is left to write by the stdin writes of a session that are in flight. -/
def World.StdinIdle (w : World) (sid : ℕ) : Prop :=
  ∀ op ∈ w.ops, op.loc.stdinOf = some sid → op.unsent = []

/-- Every byte a session has offered so far has been written. -/
def StdinClear (sid : ℕ) (tr : List Entry) : Prop :=
  (offered sid tr).flatten.length ≤ (accepted sid tr).length

end Conrt.Daemon
