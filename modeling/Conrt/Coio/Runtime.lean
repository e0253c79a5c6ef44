import Conrt.Base.Hoare
import Conrt.Coio.Slots

/-! The callback runtime: op and cancel slabs, the cancel protocol, completion dispatch. -/
namespace Conrt.Coio

open Conrt.Base

inductive OpOutcome
  | completed (result : ℤ) (flags : ℕ)
  | cancelled
deriving DecidableEq

structure OpShimArgs (L : Type) where
  loc : L
  bufs : List IoBufErased
  outcome : OpOutcome
  done : ℕ
  cls : ℕ
deriving DecidableEq

/-- The backend as its contract describes it: op requests `(slot, id)` and cancel requests
`(cancel slot, id, target id)` accepted and not yet completed, and what it has said of each target:
whether that op's own completion is flagged cancelled. -/
structure Ledger where
  armed : List (ℕ × ℕ)
  cancels : List (ℕ × ℕ × ℕ)
  verdicts : List (ℕ × Bool)
deriving DecidableEq

/-- What an observer of the runtime sees, in order. -/
inductive Entry (L : Type)
  | registered (id shim done : ℕ) (loc : L) (bufs : List IoBufErased)
  | refused (id : ℕ) (bufs : List IoBufErased)
  | cancelCall (call target done : ℕ) (accepted : Bool)
  | completed (id : ℕ) (cancelled : Bool)
  | cancelRan (call target done : ℕ) (before after : L)
  | cancelDropped (call : ℕ)
  | shim (id shim : ℕ) (args : OpShimArgs L)
deriving DecidableEq

/-- `calls` numbers the `cancel` calls and `log` records what has been seen; neither is in the
source. -/
structure Runtime (L : Type) where
  backend : Ledger
  ioSlab : List (IoSlot L)
  freeSlotsHead : ℕ
  cancelSlab : List (CancelSlot L)
  freeCancelsHead : ℕ
  inflightOps : ℕ
  inflightCancels : ℕ
  bufArena : BufArena
  nextOpId : NonZeroU64
  calls : ℕ
  log : List (Entry L)
deriving DecidableEq

def Runtime.new {L : Type} : Runtime L :=
  { backend := ⟨[], [], []⟩
    ioSlab := []
    freeSlotsHead := freeNone
    cancelSlab := []
    freeCancelsHead := freeNone
    inflightOps := 0
    inflightCancels := 0
    bufArena := .new
    nextOpId := ⟨1, Nat.one_ne_zero⟩
    calls := 0
    log := [] }

abbrev M (L : Type) := EStateM Panic (Runtime L)

/-- One call a callback makes, with the backend's answer to the request it leads to. -/
inductive Call (L : Type)
  | register (shim done : ℕ) (loc : L) (cls : ℕ) (bufs : List IoBufErased) (accepted : Bool)
  | cancel (op : Op) (loc : L) (done : ℕ) (accepted : Bool)
deriving DecidableEq

/-- What the callbacks of one completion do: the local the cancel callback leaves behind, and the
calls of either callback. -/
structure Reaction (L : Type) where
  left : L → L → L
  doneCalls : List (Call L)
  shimCalls : List (Call L)

section

variable {L : Type}

def record (entry : Entry L) : M L Unit := modify fun rt => { rt with log := rt.log ++ [entry] }

/-- `u32` increment with the overflow check of the repository's builds. -/
def incr (n : ℕ) : M L ℕ := ofOption .overflow (if n + 1 < 2 ^ 32 then some (n + 1) else none)

def decr (n : ℕ) : M L ℕ := ofOption .overflow (if 0 < n then some (n - 1) else none)

def ioSlot (index : ℕ) : M L (IoSlot L) := do
  let rt ← get
  ofOption .slab rt.ioSlab[index]?

def setIoSlot (index : ℕ) (slot : IoSlot L) : M L Unit :=
  modify fun rt => { rt with ioSlab := rt.ioSlab.set index slot }

def cancelSlot (index : ℕ) : M L (CancelSlot L) := do
  let rt ← get
  ofOption .slab rt.cancelSlab[index]?

def setCancelSlot (index : ℕ) (slot : CancelSlot L) : M L Unit :=
  modify fun rt => { rt with cancelSlab := rt.cancelSlab.set index slot }

def nextOpId : M L NonZeroU64 := do
  let rt ← get
  let id := rt.nextOpId
  if id < maxOpId then
    modify fun rt => { rt with nextOpId := ⟨id + 1, Nat.succ_ne_zero id⟩ }
    pure id
  else throw .assertion

def allocOpSlot : M L ℕ := do
  let rt ← get
  let inflight ← incr rt.inflightOps
  modify fun rt => { rt with inflightOps := inflight }
  if rt.freeSlotsHead ≠ freeNone then
    let slot ← ioSlot rt.freeSlotsHead
    let next ← ofExcept slot.freeNext
    modify fun rt => { rt with freeSlotsHead := next }
    pure rt.freeSlotsHead
  else
    modify fun rt => { rt with ioSlab := rt.ioSlab ++ [.initFree freeNone] }
    pure (toU32 rt.ioSlab.length)

/-- Puts a slot whose local has been moved out back on the free stack. -/
def freeOpSlotTaken (index : ℕ) : M L Unit := do
  let rt ← get
  let inflight ← decr rt.inflightOps
  modify fun rt => { rt with inflightOps := inflight }
  let slot ← ioSlot index
  let slot ← ofExcept (slot.pushFree rt.freeSlotsHead)
  setIoSlot index slot
  modify fun rt => { rt with freeSlotsHead := index }

/-- Drops the local the slot still owns, then frees it. -/
def freeOpSlot (index : ℕ) : M L Unit := do
  let slot ← ioSlot index
  let _ ← ofOption .uninit slot.loc
  setIoSlot index { slot with loc := none }
  freeOpSlotTaken index

def allocCancelSlot : M L ℕ := do
  let rt ← get
  let inflight ← incr rt.inflightCancels
  modify fun rt => { rt with inflightCancels := inflight }
  if rt.freeCancelsHead ≠ freeNone then
    let slot ← cancelSlot rt.freeCancelsHead
    let next ← ofExcept slot.freeNext
    modify fun rt => { rt with freeCancelsHead := next }
    pure rt.freeCancelsHead
  else
    modify fun rt => { rt with cancelSlab := rt.cancelSlab ++ [.initFree freeNone] }
    pure (toU32 rt.cancelSlab.length)

/-- Frees a cancel slot whose local has been moved out. -/
def freeCancelSlot (index : ℕ) : M L Unit := do
  let rt ← get
  let inflight ← decr rt.inflightCancels
  modify fun rt => { rt with inflightCancels := inflight }
  let slot ← cancelSlot index
  let slot ← ofExcept (slot.pushFree rt.freeCancelsHead)
  setCancelSlot index slot
  modify fun rt => { rt with freeCancelsHead := index }

/-- Moves the local of a cancel slot out. -/
def takeCancelLocal (index : ℕ) : M L (ℕ × L) := do
  let slot ← cancelSlot index
  let taken ← ofExcept slot.takeLocal
  setCancelSlot index taken.2
  pure taken.1

/-- Frees a cancel slot and drops the local it holds. -/
def freeCancelSlotDroppingLocal (index : ℕ) : M L Unit := do
  let loc ← takeCancelLocal index
  freeCancelSlot index
  record (.cancelDropped loc.1)

def releaseRun (run : Option (ℕ × ℕ)) : M L Unit := do
  let rt ← get
  let arena ← ofExcept (rt.bufArena.giveBack run)
  modify fun rt => { rt with bufArena := arena }

def claimOpSlot (index : ℕ) (id : NonZeroU64) (shim done : ℕ) (loc : L)
    (run : Option (ℕ × ℕ)) : M L Unit := do
  let named := run.getD (bufNone, 0)
  let slot ← ioSlot index
  let slot ← ofExcept (slot.claim id shim done loc named.1 named.2)
  setIoSlot index slot

def takeBufRun (index : ℕ) : M L (Option (ℕ × ℕ)) := do
  let slot ← ioSlot index
  setIoSlot index slot.takeBufRun.2
  pure slot.takeBufRun.1

def takeLocal (index : ℕ) : M L L := do
  let slot ← ioSlot index
  let taken ← ofExcept slot.takeLocal
  setIoSlot index taken.2
  pure taken.1

def registerOp (shim done : ℕ) (loc : L) (cls : ℕ) (bufs : List IoBufErased) (accepted : Bool) :
    M L (Option Op) := do
  let index ← allocOpSlot
  let id ← nextOpId
  let rt ← get
  let carved ← ofExcept (rt.bufArena.allocBufRun bufs)
  modify fun rt => { rt with bufArena := carved.2 }
  claimOpSlot index id shim done loc carved.1
  if accepted then
    modify fun rt => { rt with backend.armed := (index, id.val) :: rt.backend.armed }
    record (.registered id shim done loc bufs)
    pure (some ⟨index, cls, id⟩)
  else
    let run ← takeBufRun index
    releaseRun run
    freeOpSlot index
    record (.refused id bufs)
    pure none

/-- Whether the cancellation of `victim` was submitted. -/
def submitCancel (victim : Op) (done : ℕ) (loc : ℕ × L) (accepted : Bool) : M L Bool := do
  let index ← allocCancelSlot
  let id ← nextOpId
  let slot ← cancelSlot index
  let slot ← ofExcept (slot.claim id victim.slot victim.id done loc)
  setCancelSlot index slot
  if accepted then
    modify fun rt =>
      { rt with backend.cancels := (index, id.val, victim.id.val) :: rt.backend.cancels }
    pure true
  else
    freeCancelSlotDroppingLocal index
    pure false

def Runtime.cancellable (rt : Runtime L) (op : Op) : Bool :=
  match rt.ioSlab[op.slot]? with
  | some slot => idBits slot.id == op.id && !isCancelPending slot.id
  | none => false

def cancel (op : Op) (loc : L) (done : ℕ) (accepted : Bool) : M L Unit := do
  let rt ← get
  let call := rt.calls
  modify fun rt => { rt with calls := call + 1 }
  if rt.cancellable op then
    let submitted ← submitCancel op done (call, loc) accepted
    record (.cancelCall call op.id done submitted)
    if submitted then
      let slot ← ioSlot op.slot
      setIoSlot op.slot { slot with id := slot.id ||| cancelPending }
  else
    record (.cancelCall call op.id done false)
    record (.cancelDropped call)

def Call.exec : Call L → M L Unit
  | .register shim done loc cls bufs accepted => do
    let _ ← registerOp shim done loc cls bufs accepted
  | .cancel op loc done accepted => Coio.cancel op loc done accepted

def Runtime.findCancelOf (rt : Runtime L) (index : ℕ) : Option ℕ :=
  match rt.ioSlab[index]? with
  | some slot =>
    if isFree slot.id then none
    else rt.cancelSlab.findIdx? fun c =>
      !isFree c.id && c.target == index && c.targetId == idBits slot.id
  | none => none

/-- Runs the cancel callback of `index`, which may change `victim`. -/
def dispatchCancelOf (index : ℕ) (victim : L) (r : Reaction L) : M L L := do
  let rt ← get
  match rt.findCancelOf index with
  | none => pure victim
  | some cancel =>
    let slot ← cancelSlot cancel
    match slot.body with
    | .free _ => throw .uninit
    | .live done =>
      let loc ← takeCancelLocal cancel
      freeCancelSlot cancel
      record (.cancelRan loc.1 slot.targetId done victim (r.left victim loc.2))
      forEach Call.exec r.doneCalls
      pure (r.left victim loc.2)

def dropCancelOf (index : ℕ) : M L Unit := do
  let rt ← get
  match rt.findCancelOf index with
  | none => pure ()
  | some cancel => freeCancelSlotDroppingLocal cancel

/-- Hands one op's buffers to its shim. The arena is moved aside meanwhile, so the shim's own calls
work on an empty one. -/
def dispatchShim (id shim : ℕ) (run : Option (ℕ × ℕ)) (outcome : OpOutcome) (done : ℕ) (loc : L)
    (cls : ℕ) (calls : List (Call L)) : M L Unit := do
  let rt ← get
  let arena := rt.bufArena
  modify fun rt => { rt with bufArena := .new }
  let bufs ← ofOption .arena (arena.bufsOf run)
  record (.shim id shim ⟨loc, bufs, outcome, done, cls⟩)
  forEach Call.exec calls
  modify fun rt => { rt with bufArena := arena }
  releaseRun run

structure CompletedOp where
  result : ℤ
  flags : ℕ
  cls : ℕ
  cancelled : Bool
deriving DecidableEq

def clearPending (index : ℕ) : M L Unit := do
  let slot ← ioSlot index
  setIoSlot index { slot with id := idBits slot.id }

/-- Settles the cancellation of an op whose completion has come, if one is pending: its callback
runs, or its local is dropped. -/
def settleCancel (index : ℕ) (pending cancelled : Bool) (loc : L) (r : Reaction L) : M L L := do
  if pending then
    if cancelled then
      let loc ← dispatchCancelOf index loc r
      clearPending index
      pure loc
    else
      dropCancelOf index
      clearPending index
      pure loc
  else pure loc

def completeOp (index : ℕ) (completion : CompletedOp) (r : Reaction L) : M L Unit := do
  let rt ← get
  match rt.ioSlab[index]? with
  | none => pure ()
  | some slot =>
    if isFree slot.id then pure ()
    else
      let pending := isCancelPending slot.id
      let cancelled := pending && completion.cancelled
      match slot.body with
      | .free _ => throw .uninit
      | .live shim done =>
        let run ← takeBufRun index
        let loc ← takeLocal index
        record (.completed (idBits slot.id) completion.cancelled)
        let loc ← settleCancel index pending cancelled loc r
        freeOpSlotTaken index
        let outcome := if cancelled then .cancelled
          else .completed completion.result completion.flags
        dispatchShim (idBits slot.id) shim run outcome done loc completion.cls r.shimCalls

def completeCancel (index : ℕ) (result : ℤ) : M L Unit := do
  let rt ← get
  match rt.cancelSlab[index]? with
  | none => pure ()
  | some slot =>
    if isFree slot.id then pure ()
    else if result = 0 then pure ()
    else
      let loc ← takeCancelLocal index
      record (.cancelDropped loc.1)
      freeCancelSlot index
      let rt ← get
      match rt.ioSlab[slot.target]? with
      | some victim =>
        if isCancelPending victim.id ∧ idBits victim.id = slot.targetId then
          setIoSlot slot.target { victim with id := idBits victim.id }
      | none => pure ()

/-- The assertion on a completion that names an op slot. -/
def assertNamesLive (index : ℕ) : M L Unit := do
  let slot ← ioSlot index
  if isFree slot.id then throw .assertion

/-- What happens next: calls made outside any callback, or the delivery of one completion. -/
inductive Event (L : Type)
  | outside (calls : List (Call L))
  | op (slot id : ℕ) (completion : CompletedOp) (r : Reaction L)
  | cancel (slot id targetId : ℕ) (result : ℤ)

/-- The backend's contract: it completes requests it accepted, each once, and a cancel request
reports zero exactly when the target's own completion is flagged cancelled, whichever of the two
comes first. -/
def Ledger.allows (b : Ledger) : Event L → Bool
  | .outside _ => true
  | .op slot id completion _ =>
    (slot, id) ∈ b.armed && b.verdicts.all fun v => v.1 != id || v.2 == completion.cancelled
  | .cancel slot id targetId result =>
    (slot, id, targetId) ∈ b.cancels &&
      b.verdicts.all fun v => v.1 != targetId || v.2 == decide (result = 0)

def Ledger.owes (b : Ledger) : Event L → Bool
  | .outside _ => true
  | .op slot id _ _ => (slot, id) ∈ b.armed
  | .cancel slot id targetId _ => (slot, id, targetId) ∈ b.cancels

/-- `take_completion` for one delivery. -/
def Event.exec : Event L → M L Unit
  | .outside calls => forEach Call.exec calls
  | .op slot id completion r => do
    modify fun rt => { rt with
      backend.armed := rt.backend.armed.erase (slot, id)
      backend.verdicts := (id, completion.cancelled) :: rt.backend.verdicts }
    assertNamesLive slot
    completeOp slot completion r
  | .cancel slot id targetId result => do
    modify fun rt => { rt with
      backend.cancels := rt.backend.cancels.erase (slot, id, targetId)
      backend.verdicts := (targetId, decide (result = 0)) :: rt.backend.verdicts }
    let _ ← cancelSlot slot
    completeCancel slot result

/-- One event over a backend that delivers only what `may` admits; `none` when it may not deliver it
or the runtime panics. -/
def stepUnder (may : Ledger → Event L → Bool) (rt : Runtime L) (e : Event L) : Option (Runtime L) :=
  if may rt.backend e then
    match e.exec rt with
    | .ok _ rt' => some rt'
    | .error _ _ => none
  else none

/-- One event over a backend that says the same of each cancellation to both sides. -/
def step : Runtime L → Event L → Option (Runtime L) := stepUnder Ledger.allows

/-- One event over a backend of which no more is known than that it completes each request once. -/
def owedStep : Runtime L → Event L → Option (Runtime L) := stepUnder Ledger.owes

theorem exec_of_stepUnder {may : Ledger → Event L → Bool} {rt rt' : Runtime L} {e : Event L}
    (h : stepUnder may rt e = some rt') : may rt.backend e = true ∧ e.exec rt = .ok () rt' := by
  unfold stepUnder at h
  split_ifs at h with ha
  refine ⟨ha, ?_⟩
  cases hexec : e.exec rt with
  | ok _ _ =>
    rw [hexec] at h
    cases h
    rfl
  | error _ _ =>
    rw [hexec] at h
    cases h

theorem exec_of_step {rt rt' : Runtime L} {e : Event L} (h : step rt e = some rt') :
    rt.backend.allows e = true ∧ e.exec rt = .ok () rt' :=
  exec_of_stepUnder h

theorem exec_of_owedStep {rt rt' : Runtime L} {e : Event L} (h : owedStep rt e = some rt') :
    rt.backend.owes e = true ∧ e.exec rt = .ok () rt' :=
  exec_of_stepUnder h

end

end Conrt.Coio
