import Conrt.Base.Quota
import Conrt.Buf.Classes
import Conrt.Daemon.Ledger

/-! The fixed buffer pool under the daemon: which buffers its writes hold, and when one is missing. -/
namespace Conrt.Daemon

open Conrt.Base

def defaultSizeClasses : List Buf.SizeClass :=
  [⟨64, 1024⟩, ⟨256, 1024⟩, ⟨1024, 256⟩, ⟨4096, 64⟩, ⟨16384, 8⟩, ⟨65536, 1⟩]

/-- The class `alloc_bytes` serves a size from. -/
def classOf (size : ℕ) : Option ℕ := Buf.classFor defaultSizeClasses size

def slots (cls : Option ℕ) : ℕ := ((cls.bind (defaultSizeClasses[·]?)).map (·.count)).getD 0

/-- The sizes of the buffers that a local needs when its op is new. A message has a `msghdr` and one
`iovec`, or one that passes a descriptor has a control message of 24 bytes. -/
def OpLocal.buffers : OpLocal → List ℕ
  | .datagram _ | .datagramPeek => [56, 16]
  | .followSend _ => [56, 24]
  | .sigchld => [128]
  | .followWrite _ _ _ chunks => chunks.map List.length
  | .sessionFrame _ _ buf _ | .sessionStdin _ buf _ => [buf.length]
  | .sessionDataHeader _ _ header _ _ => [header.length]
  | _ => []

/-- `alloc_bytes` for the reaper and `with_capacity` for a message may fail; the others are
`pool_alloc`s. -/
def OpLocal.spared : OpLocal → Bool
  | .datagram _ | .datagramPeek | .followSend _ | .sigchld => true
  | _ => false

/-- A write that goes on with the buffers of the one before it; the receive keeps the peek's. -/
def OpLocal.resumes : OpLocal → OpLocal → Bool
  | .datagramPeek, .datagram _
  | .followWrite .., .followWrite .. | .sessionFrame .., .sessionFrame ..
  | .sessionDataHeader .., .sessionDataHeader .. | .sessionStdin .., .sessionStdin .. => true
  | _, _ => false

/-- The buffers alive during a callback, by the size they were asked for: in the locals of ops in
flight, in the local that the callback was given, and the copy of the frame it dispatches. The draws
are those made so far. -/
structure Hand where
  given : Option OpLocal
  nextOp : ℕ
  held : List (ℕ × ℕ)
  own : List ℕ
  frame : List ℕ
  draws : List (Draw (Option ℕ))

namespace Hand

/-- `pool_alloc`, for each size in turn. -/
def alloc (h : Hand) (sizes : List ℕ) : Hand :=
  { h with draws := h.draws ++ (sizes.map classOf).map .take }

def drop (h : Hand) (sizes : List ℕ) : Hand :=
  { h with draws := h.draws ++ (sizes.map classOf).map .give }

/-- Asks for all of the sizes, and gives back what it has got when one is missing. -/
def attempt (h : Hand) (sizes : List ℕ) (got : Bool) : Hand :=
  { h with draws := h.draws ++ [.attempt (sizes.map classOf) got] }

/-- The buffers of a new op's local. The rest of a write keeps those of its chunks that are left, and
stdin gets the frame's copy. -/
def fill (h : Hand) (loc : OpLocal) : Hand × List ℕ :=
  if h.given.any (·.resumes loc) then
    let done := h.own.length - loc.buffers.length
    ({ h with own := [] }.drop (h.own.take done), h.own.drop done)
  else
    match loc with
    | .sessionStdin .. => ({ h with frame := [] }, h.frame)
    | loc =>
      (if loc.spared then h.attempt loc.buffers true else h.alloc loc.buffers, loc.buffers)

/-- A refused op's local is dropped at once. -/
def submit (h : Hand) (loc : OpLocal) (accepted : Bool) : Hand :=
  let (h, sizes) := h.fill loc
  if accepted then
    { h with held := h.held ++ sizes.map (h.nextOp, ·), nextOp := h.nextOp + 1 }
  else h.drop sizes

/-- What the callback does next. -/
def note (h : Hand) : Entry → Hand
  | .submitted loc _ _ accepted => h.submit loc accepted
  | .starved loc => h.attempt loc.buffers false
  | _ => h

/-- The local given to the callback and the frame's copy live until it returns. -/
def finish (h : Hand) : Hand := { h with own := [], frame := [] }.drop (h.own ++ h.frame)

def alive (h : Hand) : List (Option ℕ) := (h.held.map (·.2) ++ h.own ++ h.frame).map classOf

end Hand

/-- The daemon, the free buffers of each class, the buffers held by ops in flight, and whether a
`pool_alloc` has failed. -/
structure Pooled where
  world : World
  free : Option ℕ → ℕ
  held : List (ℕ × ℕ)
  aborted : Bool

namespace Pooled

def out (p : Pooled) : List (Option ℕ) := p.held.map fun b => classOf b.2

/-- At the start of a callback; a frame that a read makes whole is copied first. -/
def hand (p : Pooled) (op : InFlight) (r : Result) : Hand :=
  let frame := (op.loc.frame r).toList.map fun f => max f.2.payload.length 1
  { given := some op.loc
    nextOp := p.world.nextOp
    held := p.held.filter (·.1 ≠ op.id)
    own := (p.held.filter (·.1 = op.id)).map (·.2)
    frame := frame
    draws := (frame.map classOf).map .take }

/-- What a callback has done when it returned, or when it could not go on. -/
def played (p : Pooled) (h : Hand) : EStateM.Result Panic World Unit → Hand
  | .ok _ w => ((w.trace.drop p.world.trace.length).foldl Hand.note h).finish
  | .error _ w => (w.trace.drop p.world.trace.length).foldl Hand.note h

/-- The world after a callback whose draws are these, unless one that had to succeed did not. -/
def settle (p : Pooled) (h : Hand) : EStateM.Result Panic World Unit → Option Pooled
  | .ok _ w =>
    match serveAll p.free h.draws with
    | .left free => some { world := w, free := free, held := h.held, aborted := false }
    | .short => some { p with aborted := true }
    | .never => none
  | .error _ _ =>
    match serveAll p.free h.draws with
    | .short => some { p with aborted := true }
    | _ => none

end Pooled

def deliverPooled (codec : Codec) (p : Pooled) (op : InFlight) (r : Result)
    (answers : List Answer) : Option Pooled :=
  let res := callback codec r op.loc { p.world.takeOp op.id with answers := answers }
  p.settle (p.played (p.hand op r) res) res

def pooledStep (codec : Codec) (p : Pooled) : Event → Option Pooled
  | .enter => if p.aborted then none else some { p with world := p.world.enter }
  | .perform id r =>
    if p.aborted then none
    else (step codec p.world (.perform id r)).map ({ p with world := · })
  | .deliver id answers =>
    if p.aborted then none
    else
      match p.world.findOp id with
      | some op =>
        match op.result with
        | some r => deliverPooled codec p op r answers
        | none => none
      | none => none

def bootedPooled (answers : List Answer) : Option Pooled := do
  let w ← booted answers
  let p : Pooled := { world := .init, free := slots, held := [], aborted := false }
  let h : Hand := { given := none, nextOp := 0, held := [], own := [], frame := [], draws := [] }
  p.settle (p.played h (.ok () w)) (.ok () w)

/-- What the callback of an event asks of the pool, and gives back, in order. -/
def Pooled.draws (codec : Codec) (p : Pooled) : Event → List (Draw (Option ℕ))
  | .enter | .perform _ _ => []
  | .deliver id answers =>
    match p.world.findOp id with
    | some op =>
      match op.result with
      | some r =>
        let res := callback codec r op.loc { p.world.takeOp op.id with answers := answers }
        (p.played (p.hand op r) res).draws
      | none => []
    | none => []

/-- Each `pool_alloc` of the callback finds a class for its size, with fewer of its buffers alive, in
the locals of ops in flight and in the callback's own hands, than the class has. -/
def Roomy (codec : Codec) (p : Pooled) (e : Event) : Prop := Affords slots p.out (p.draws codec e)

instance Roomy.decidable (codec : Codec) (p : Pooled) (e : Event) : Decidable (Roomy codec p e) :=
  inferInstanceAs (Decidable (Affords _ _ _))

variable {codec : Codec} {w : World} {loc : OpLocal} {answers : List Answer} {e : Event}
  {op : InFlight} {r : Result} {p p' p₀ : Pooled} {h : Hand} {out : List (Option ℕ)}
  {sizes : List ℕ}

namespace Hand

/-- The draws of a callback leave the buffers that are alive out, and those of a local that is not
submitted yet. -/
def Sound (out : List (Option ℕ)) (h : Hand) (sizes : List ℕ) : Prop :=
  Leaves out h.draws (sizes.map classOf ++ h.alive)

theorem Sound.alloc (hs : h.Sound out []) (sizes : List ℕ) : (h.alloc sizes).Sound out sizes :=
  Leaves.takes hs _

theorem Sound.drop (hs : h.Sound out sizes) : (h.drop sizes).Sound out [] := Leaves.gives hs

/-- The buffers of the local given to the callback go into a new one, but for those that are done. -/
theorem Sound.resume (hs : h.Sound out []) (n : ℕ) :
    ({ h with own := [] }.drop (h.own.take n)).Sound out (h.own.drop n) := by
  have hgives : Leaves out h.draws
      ((h.own.take n).map classOf ++ ((h.own.drop n).map classOf ++ { h with own := [] }.alive)) := by
    apply hs.perm
    rw [← List.append_assoc, ← List.map_append, List.take_append_drop]
    simp only [alive, List.map_append, List.map_nil, List.nil_append, List.append_nil]
    rw [← List.append_assoc]
    exact List.perm_append_comm.append_right _
  exact Leaves.gives hgives

theorem Sound.fill (hs : h.Sound out []) (loc : OpLocal) :
    (h.fill loc).1.Sound out (h.fill loc).2 := by
  unfold Hand.fill
  split_ifs with hr
  · exact hs.resume _
  · split
    · apply Leaves.perm hs
      simp only [alive, List.map_append, List.map_nil, List.nil_append, List.append_nil]
      exact List.perm_append_comm
    · split_ifs
      · exact Leaves.attempt hs _
      · exact hs.alloc _

theorem Sound.submit (hs : h.Sound out []) (loc : OpLocal) (accepted : Bool) :
    (h.submit loc accepted).Sound out [] := by
  have hf := hs.fill loc
  unfold Hand.submit
  generalize h.fill loc = f at hf ⊢
  obtain ⟨h', sizes⟩ := f
  cases accepted with
  | true =>
    apply Leaves.perm hf
    have hsnd : (sizes.map fun n => (h'.nextOp, n)).map (·.2) = sizes := by
      rw [List.map_map]
      exact List.map_id _
    simp only [alive, if_true, List.map_nil, List.nil_append, List.map_append, hsnd,
      List.append_assoc]
    rw [← List.append_assoc, ← List.append_assoc (List.map classOf _)]
    exact List.perm_append_comm.append_right _
  | false => exact hf.drop

theorem Sound.note (hs : h.Sound out []) (e : Entry) : (h.note e).Sound out [] := by
  unfold Hand.note
  split
  · exact hs.submit _ _
  · exact Leaves.fail hs
  · exact hs

theorem Sound.notes (hs : h.Sound out []) (tr : List Entry) :
    (tr.foldl Hand.note h).Sound out [] := by
  induction tr generalizing h with
  | nil => exact hs
  | cons e tr ih => exact ih (hs.note e)

theorem Sound.finish (hs : h.Sound out []) : h.finish.Sound out [] := by
  apply Sound.drop
  apply Leaves.perm hs
  simp only [alive, List.map_append, List.map_nil, List.nil_append, List.append_nil]
  rw [List.append_assoc]
  exact List.perm_append_comm

end Hand

theorem Pooled.hand_sound (p : Pooled) (op : InFlight) (r : Result) :
    (p.hand op r).Sound p.out [] := by
  have hsplit : (p.held.filter (·.1 ≠ op.id) ++ p.held.filter (·.1 = op.id)).Perm p.held := by
    have hperm := List.filter_append_perm (fun b : ℕ × ℕ => decide (b.1 = op.id)) p.held
    simp only [← decide_not] at hperm
    exact List.perm_append_comm.trans hperm
  have hout := (hsplit.map fun b => classOf b.2).symm
  have htakes := Leaves.takes (Leaves.nil.perm hout)
    (((op.loc.frame r).toList.map fun f => max f.2.payload.length 1).map classOf)
  apply htakes.perm
  simp only [hand, Hand.alive, List.map_nil, List.nil_append, List.map_append, List.map_map,
    Function.comp_def]
  exact List.perm_append_comm

theorem Pooled.played_sound (hs : h.Sound out []) (res : EStateM.Result Panic World Unit) :
    (p.played h res).Sound out [] := by
  cases res with
  | ok u w => exact (hs.notes _).finish
  | error x w => exact hs.notes _

namespace Pooled

/-- Every buffer is free or held by an op in flight. -/
def Sound (p : Pooled) : Prop := Balanced slots p.free p.out

/-- A callback keeps the balance, and fails just when a buffer it has to have is missing. -/
theorem Sound.settle (hp : p.Sound) {res : EStateM.Result Panic World Unit}
    (hs : h.Sound p.out []) (hfin : ∀ u w, res = .ok u w → h.own = [] ∧ h.frame = [])
    (hset : p.settle h res = some p') :
    p'.Sound ∧ (p'.aborted = false ↔ Affords slots p.out h.draws) := by
  have hshort (hr : serveAll p.free h.draws = .short) (hp' : some { p with aborted := true } = some p') :
      p'.Sound ∧ (p'.aborted = false ↔ Affords slots p.out h.draws) := by
    have hno := hp.not_affords hs.1 hr
    cases hp'
    exact ⟨hp, by simp, fun ha => absurd ha hno⟩
  cases res with
  | error x w =>
    simp only [Pooled.settle] at hset
    cases hr : serveAll p.free h.draws with
    | short =>
      simp only [hr] at hset
      exact hshort hr hset
    | left free => simp [hr] at hset
    | never => simp [hr] at hset
  | ok u w =>
    obtain ⟨hown, hframe⟩ := hfin u w rfl
    simp only [Pooled.settle] at hset
    cases hr : serveAll p.free h.draws with
    | short =>
      simp only [hr] at hset
      exact hshort hr hset
    | left free =>
      simp only [hr] at hset
      obtain ⟨hafford, hbal⟩ := hp.serveAll hs.1 hr
      cases hset
      have halive : h.alive = h.held.map fun b => classOf b.2 := by
        rw [Hand.alive, hown, hframe, List.append_nil, List.append_nil, List.map_map]
        rfl
      refine ⟨hbal.perm ?_, by simp [hafford]⟩
      have hperm := hs.2
      rw [List.map_nil, List.nil_append, halive] at hperm
      exact hperm
    | never => simp [hr] at hset

theorem Sound.played (hp : p.Sound) (hs : h.Sound p.out [])
    {res : EStateM.Result Panic World Unit} (hset : p.settle (p.played h res) res = some p') :
    p'.Sound ∧ (p'.aborted = false ↔ Affords slots p.out (p.played h res).draws) := by
  apply hp.settle (played_sound hs res) _ hset
  intro u w hres
  subst hres
  exact ⟨rfl, rfl⟩

/-- One step keeps the balance, and fails just when there is no room. -/
theorem Sound.step (hp : p.Sound) (hst : pooledStep codec p e = some p') :
    p'.Sound ∧ (p'.aborted = false ↔ Roomy codec p e) := by
  cases e with
  | enter =>
    simp only [pooledStep] at hst
    split_ifs at hst with ha
    obtain rfl := Option.some.inj hst
    exact ⟨hp, fun _ => trivial, fun _ => Bool.eq_false_of_not_eq_true ha⟩
  | perform id r =>
    simp only [pooledStep] at hst
    split_ifs at hst with ha
    obtain ⟨w, -, rfl⟩ := Option.map_eq_some_iff.mp hst
    exact ⟨hp, fun _ => trivial, fun _ => Bool.eq_false_of_not_eq_true ha⟩
  | deliver id answers =>
    simp only [pooledStep] at hst
    split_ifs at hst with ha
    unfold Roomy Pooled.draws
    cases hop : p.world.findOp id with
    | none => simp [hop] at hst
    | some op =>
      simp only [hop] at hst ⊢
      cases hres : op.result with
      | none => simp [hres] at hst
      | some r =>
        simp only [hres] at hst ⊢
        exact hp.played (p.hand_sound op r) hst

/-- A step that leaves the daemon alive is a step of the daemon. -/
theorem step_of_alive (hst : pooledStep codec p e = some p') (ha : p'.aborted = false) :
    Daemon.step codec p.world e = some p'.world := by
  cases e with
  | enter =>
    simp only [pooledStep] at hst
    split_ifs at hst
    obtain rfl := Option.some.inj hst
    rfl
  | perform id r =>
    simp only [pooledStep] at hst
    split_ifs at hst
    obtain ⟨w, hw, rfl⟩ := Option.map_eq_some_iff.mp hst
    exact hw
  | deliver id answers =>
    simp only [pooledStep] at hst
    split_ifs at hst
    simp only [Daemon.step]
    cases hop : p.world.findOp id with
    | none => simp [hop] at hst
    | some op =>
      simp only [hop] at hst ⊢
      cases hres : op.result with
      | none => simp [hres] at hst
      | some r =>
        have hid : op.id = id := by simpa using List.find?_some hop
        simp only [hres, deliverPooled, hid] at hst ⊢
        unfold World.exec
        cases hrun : callback codec r op.loc { p.world.takeOp id with answers := answers } with
        | ok u w =>
          simp only [hrun, settle] at hst ⊢
          split at hst
          · cases hst
            rfl
          · cases hst
            cases ha
          · cases hst
        | error x w =>
          simp only [hrun, settle] at hst
          split at hst
          · cases hst
            cases ha
          · cases hst

/-- A daemon whose pool has failed does nothing more. -/
theorem alive_of_step (hst : pooledStep codec p e = some p') : p.aborted = false := by
  cases e <;> simp only [pooledStep] at hst <;> split_ifs at hst with ha <;> simpa using ha

end Pooled

/-- What the boot submits has no buffer, or one that it can do without. -/
theorem Hand.note_boots {e : Entry} (he : e.Boots) (hg : h.given = none) (hd : ∀ k, .take k ∉ h.draws) :
    (h.note e).given = none ∧ ∀ k, .take k ∉ (h.note e).draws := by
  unfold Hand.note
  split
  · rename_i loc _ _ accepted
    have hloc : loc.loop.isSome := he
    cases loc <;> simp [OpLocal.loop] at hloc <;> cases accepted <;>
      simp [Hand.submit, Hand.fill, Hand.attempt, Hand.alloc, Hand.drop, OpLocal.buffers,
        OpLocal.spared, hg, hd]
  · simp [Hand.attempt, hg, hd]
  · exact ⟨hg, hd⟩

private theorem Hand.notes_boot {tr : List Entry} (he : ∀ e ∈ tr, e.Boots) (hg : h.given = none)
    (hd : ∀ k, .take k ∉ h.draws) : ∀ k, .take k ∉ (tr.foldl Hand.note h).draws := by
  induction tr generalizing h with
  | nil => exact hd
  | cons e tr ih =>
    obtain ⟨hg', hd'⟩ := note_boots (he e List.mem_cons_self) hg hd
    exact ih (fun e' he' => he e' (List.mem_cons_of_mem e he')) hg' hd'

/-- The daemon boots with all its buffers. -/
theorem Pooled.booted (hb : bootedPooled answers = some p₀) : p₀.Sound ∧ p₀.aborted = false := by
  obtain ⟨w, hw, hset⟩ := Option.bind_eq_some_iff.mp hb
  have hfresh : Pooled.Sound { world := .init, free := slots, held := [], aborted := false } :=
    fun k => Nat.add_zero _
  have hidle : Hand.Sound [] ⟨none, 0, [], [], [], []⟩ [] := .nil
  obtain ⟨hs, ha⟩ := hfresh.played hidle hset
  refine ⟨hs, ha.mpr (affords_of_no_take fun k hk => ?_)⟩
  have hdraws : ∀ tr : List Entry, (∀ e ∈ tr, e.Boots) → ∀ k, .take k ∉
      ((tr.foldl Hand.note ⟨none, 0, [], [], [], []⟩).finish).draws := by
    intro tr htr k
    have hidle : ∀ k, .take k ∉ (⟨none, 0, [], [], [], []⟩ : Hand).draws := by simp
    have hnotes := Hand.notes_boot htr rfl hidle k
    simp [Hand.finish, Hand.drop, hnotes]
  exact hdraws _ (fun e he => booted_trace hw e (List.mem_of_mem_drop he)) k hk

/-- Until the pool has failed, the daemon on its pool is the daemon. -/
theorem Pooled.reaches_world {ok : Pooled → Event → Prop} (hr : Reaches (pooledStep codec) ok p₀ p)
    (ha : p.aborted = false) : Reaches (Daemon.step codec) (fun _ _ => True) p₀.world p.world := by
  induction hr with
  | start => exact .start
  | next _ _ hst ih => exact (ih (alive_of_step hst)).next trivial (step_of_alive hst ha)

end Conrt.Daemon
