import Conrt.Daemon.RequestAsks

/-! Runs in which the pool has all the buffers that callbacks ask for. -/
namespace Conrt.Daemon

open Conrt.Base

variable {codec : Codec} {op : InFlight} {r : Result} {p p₀ : Pooled} {e : Event}
  {answers : List Answer} {w : World} {loc : OpLocal}

/-- The frame's copy is drawn before the callback runs. -/
theorem Pooled.hand_within (hadm : Admits slots p.out (op.loc.copyAsks r)) :
    (p.hand op r).Within p.out ((op.loc.copyAsks r).foldl Ask.after p.out) := by
  obtain ⟨ks, hks⟩ : ∃ ks, ks =
    ((op.loc.frame r).toList.map fun f => max f.2.payload.length 1).map classOf := ⟨_, rfl⟩
  have hdraws : (p.hand op r).draws = ks.map .take := by rw [hks]; rfl
  have hnow : (op.loc.copyAsks r).foldl Ask.after p.out = ks ++ p.out := by
    rw [hks]
    unfold OpLocal.copyAsks
    cases op.loc.frame r <;> rfl
  have hfits : (Ask.mk ks true true).Fits slots p.out := by
    rw [hks]
    unfold OpLocal.copyAsks at hadm
    cases hf : op.loc.frame r with
    | none => simp [Ask.Fits]
    | some f =>
      rw [hf] at hadm
      exact hadm.1
  have hsound := p.hand_sound op r
  refine ⟨hsound, ?_, ?_⟩
  · rw [hdraws]
    exact affords_takes (hfits rfl)
  · have hleaves : Leaves p.out (ks.map .take) (ks ++ p.out) := Leaves.nil.takes ks
    have hsub := hsound.2
    rw [hdraws] at hsub
    rw [hnow]
    exact (hsub.symm.trans hleaves.2).subperm

private theorem RoomStep.roomy (h : RoomStep codec p e) : Roomy codec p e := by
  cases e with
  | enter => trivial
  | perform id r => trivial
  | deliver id answers =>
    unfold Roomy Pooled.draws
    dsimp only
    cases hop : p.world.findOp id with
    | none => trivial
    | some op =>
      dsimp only
      cases hr : op.result with
      | none => trivial
      | some r =>
        obtain ⟨hcopy, hasks⟩ := admits_append.mp (h op hop r hr)
        obtain ⟨w, hw⟩ : ∃ w : World, w = { p.world.takeOp op.id with answers := answers } := ⟨_, rfl⟩
        rw [← hw]
        have hcall : Asks (some op.loc) (callback codec r op.loc) w
            (p.world.opAsks codec op.loc r answers) := by
          rw [hw]
          exact callback_asks
        obtain ⟨es, htr, hes⟩ := hcall
        have hnotes := (p.hand_within hcopy).notes (hes _ hasks)
        have htrace : w.trace = p.world.trace := by rw [hw]; rfl
        unfold finalState at htr
        cases hres : callback codec r op.loc w with
        | ok u w' =>
          rw [hres, htrace] at htr
          change Affords slots p.out (p.played (p.hand op r) (callback codec r op.loc w)).draws
          rw [hres]
          change Affords slots p.out ((w'.trace.drop p.world.trace.length).foldl Hand.note _).finish.draws
          rw [htr, List.drop_left]
          exact hnotes.append (by simp)
        | error x w' =>
          rw [hres, htrace] at htr
          change Affords slots p.out (p.played (p.hand op r) (callback codec r op.loc w)).draws
          rw [hres]
          change Affords slots p.out ((w'.trace.drop p.world.trace.length).foldl Hand.note _).draws
          rw [htr, List.drop_left]
          exact hnotes

/-- As long as the pool has what each callback asks for, it never aborts the daemon. -/
theorem run_pool_serves (hb : bootedPooled answers = some p₀)
    (hr : Reaches (pooledStep codec) (RoomStep codec) p₀ p) : p.aborted = false := by
  have hkept : p.Sound ∧ p.aborted = false := by
    refine hr.invariant (P := fun p => p.Sound ∧ p.aborted = false) (Pooled.booted hb) fun s e t hs hroom hst => ?_
    obtain ⟨ht, habort⟩ := hs.1.step hst
    exact ⟨ht, habort.mpr hroom.roomy⟩
  exact hkept.2

/-- A client runs a container on a terminal and sends two stdin frames; the terminal takes nothing. -/
def typeTwice (b : Bytes) : List Event :=
  connect 1 20 3 ++ clientFrame 3 5 0x00 [5] runAttached ++
    clientFrame 8 9 0x10 b [.submit true, .submit true] ++
      clientFrame 11 12 0x10 b [.submit true, .submit true]

theorem run_pool_serves_short_frames : ∃ p₀ p, bootedPooled quietBoot = some p₀ ∧
    Reaches (pooledStep sampleCodec) (RoomStep sampleCodec) p₀ p ∧ p.aborted = false ∧
      (p.held.filter (·.2 = 1)).length = 2 := by
  obtain ⟨p₀, p, hb, hr, hheld⟩ := exists_of_executes (pooledStep sampleCodec) (RoomStep sampleCodec)
    (bootedPooled quietBoot) (typeTwice [0]) (fun _ p => (p.held.filter (·.2 = 1)).length == 2)
    (by decide +kernel)
  exact ⟨p₀, p, hb, hr, run_pool_serves hb hr, by simpa using hheld⟩

/-- The second frame of 16385 bytes finds the only buffer of its class in use. -/
theorem long_frames_abort : ∃ p₀ p, bootedPooled quietBoot = some p₀ ∧
    Reaches (pooledStep sampleCodec) (fun _ _ => True) p₀ p ∧ p.aborted = true := by
  obtain ⟨p₀, p, hb, hr, ht⟩ := exists_of_executes (pooledStep sampleCodec) (fun _ _ => True)
    (bootedPooled quietBoot) (typeTwice (List.replicate 16385 0)) (fun _ p => p.aborted)
    (by decide +kernel)
  exact ⟨p₀, p, hb, hr, ht⟩

end Conrt.Daemon
