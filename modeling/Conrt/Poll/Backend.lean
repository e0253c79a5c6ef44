import Conrt.Base.Table

/-! The readiness backend: armed operations, the poller's registry, decided completions. -/
namespace Conrt.Poll

open Conrt.Base

abbrev RawFd := ℤ

abbrev Errno := ℕ

def eintr : Errno := 4

def eagain : Errno := 11

def eexist : Errno := 17

def ecanceled : Errno := 125

inductive Interest
  | readable | writable
deriving DecidableEq

/-- The syscall an armed operation will issue once its descriptor is ready. -/
inductive Req
  | read (fd : RawFd) (addr len : ℕ)
  | write (fd : RawFd) (addr len : ℕ)
  | accept (listenerFd : RawFd)
deriving DecidableEq

def Req.fd : Req → RawFd
  | .read fd _ _ | .write fd _ _ | .accept fd => fd

def Req.interest : Req → Interest
  | .read .. | .accept _ => .readable
  | .write .. => .writable

/-- `op` numbers the operations in the order they are armed; it is not in the source. -/
structure Registration where
  fd : RawFd
  token : ℕ
  interest : Interest
  op : ℕ
deriving DecidableEq

structure PendingOp where
  reg : Registration
  req : Req
deriving DecidableEq

/-- `op` is the operation completed; a cancel request's own completion has none. -/
structure Completion where
  slot : ℕ
  result : ℤ
  flags : ℕ
  cls : ℕ
  cancel : Bool
  cancelled : Bool
  op : Option ℕ
deriving DecidableEq

/-- What has happened to the operations, in order. -/
inductive Entry
  | armed (op : ℕ)
  | performed (op : ℕ)
  | cancelled (op : ℕ)
  | returned (op : ℕ)
deriving DecidableEq

/-- The registry is the kernel's: one registration for each descriptor. -/
structure Mio where
  registry : Table RawFd Registration
  events : List ℕ
  pending : List (Option PendingOp)
  ready : List Completion
  nextOp : ℕ
  log : List Entry

namespace Mio

def new : Mio :=
  { registry := ∅
    events := []
    pending := []
    ready := []
    nextOp := 0
    log := [] }

def at? (m : Mio) (slot : ℕ) : Option PendingOp := (m.pending[slot]?).join

def record (m : Mio) (e : Entry) : Mio := { m with log := m.log ++ [e] }

def push (m : Mio) (c : Completion) : Mio := { m with ready := m.ready ++ [c] }

/-- Fails for a descriptor that is registered already, or for reasons of the kernel's own. -/
def attach (m : Mio) (reg : Registration) (refused : Option Errno) : Except Errno Mio :=
  match refused, m.registry.lookup reg.fd with
  | some e, _ => .error e
  | none, some _ => .error eexist
  | none, none => .ok { m with registry := m.registry.insert reg.fd reg }

def detach (m : Mio) (reg : Registration) : Mio :=
  { m with registry := m.registry.erase reg.fd }

def grown (m : Mio) (slot : ℕ) : List (Option PendingOp) :=
  m.pending ++ List.replicate (slot + 1 - m.pending.length) none

def arm (m : Mio) (slot : ℕ) (req : Req) (refused : Option Errno) : Except Errno Mio := do
  let reg : Registration := ⟨req.fd, slot, req.interest, m.nextOp⟩
  let m ← m.attach reg refused
  pure ({ m with
    pending := (m.grown slot).set slot (some ⟨reg, req⟩)
    nextOp := m.nextOp + 1 }.record (.armed m.nextOp))

/-- Removes an operation's registration and returns it, if it is still armed. -/
def takePending (m : Mio) (slot : ℕ) : Option (PendingOp × Mio) :=
  match m.at? slot with
  | none => none
  | some op => some (op, { m with pending := m.pending.set slot none }.detach op.reg)

/-- The polls up to the first that no signal interrupted; `none` while the poller still blocks. -/
def pollLoop : List (Except Errno (List ℕ)) → Option (Except Errno (List ℕ))
  | [] => none
  | .ok events :: _ => some (.ok events)
  | .error e :: polls => if e = eintr then pollLoop polls else some (.error e)

/-- Clears the event buffer, then fills it. -/
def wait (m : Mio) (polls : List (Except Errno (List ℕ))) : Option (Except Errno Unit × Mio) :=
  match pollLoop polls with
  | none => none
  | some (.ok events) => some (.ok (), { m with events := events })
  | some (.error e) => some (.error e, { m with events := [] })

/-- Decided work first, then the event at the front of the buffer. `events.iter()` starts at the
first event on every call. -/
def nextCompletion (m : Mio) (perform : Req → Except Errno ℕ) : Option Completion × Mio :=
  match m.ready with
  | c :: ready =>
    let m := { m with ready := ready }
    (some c, c.op.elim m fun op => m.record (.returned op))
  | [] =>
    match m.events with
    | [] => (none, m)
    | token :: _ =>
      match m.takePending token with
      | none => (none, m)
      | some (op, m) =>
        let m := m.record (.performed op.reg.op)
        let decided (result : ℤ) : Completion :=
          ⟨token, result, 0, 0, false, false, some op.reg.op⟩
        match perform op.req with
        | .ok n => (some (decided n), m.record (.returned op.reg.op))
        | .error e =>
          -- the entry goes back, its registration does not
          if e = eagain then (none, { m with pending := m.pending.set token (some op) })
          else (some (decided (-e)), m.record (.returned op.reg.op))

/-- Whether the target was still armed; the two completions it leads to are decided at once. -/
def cancel (m : Mio) (cancelSlot targetSlot cls : ℕ) : Bool × Mio :=
  match m.takePending targetSlot with
  | none => (false, m)
  | some (op, m) =>
    let m := m.push ⟨cancelSlot, 0, 0, 0, true, false, none⟩
    let m := m.push ⟨targetSlot, -ecanceled, 0, cls, false, true, some op.reg.op⟩
    (true, m.record (.cancelled op.reg.op))

/-- The runtime arms an operation only in a slot it has freed: the completion of the slot's last
operation has been returned. -/
def vacant (m : Mio) (slot : ℕ) : Bool :=
  (m.at? slot).isNone && m.ready.all fun c => c.cancel || c.slot != slot

end Mio

/-- The runtime's calls, with what the kernel answers. -/
inductive Call
  | arm (slot : ℕ) (req : Req) (refused : Option Errno)
  | cancel (cancelSlot targetSlot cls : ℕ)
deriving DecidableEq

def Call.exec (m : Mio) : Call → Option Mio
  | .arm slot req refused =>
    if m.vacant slot then
      match m.arm slot req refused with
      | .ok m => some m
      | .error _ => some m
    else none
  | .cancel cancelSlot targetSlot cls => some (m.cancel cancelSlot targetSlot cls).2

end Conrt.Poll
