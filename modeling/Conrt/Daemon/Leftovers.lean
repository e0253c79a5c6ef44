import Conrt.Daemon.Loops
import Conrt.Daemon.Stages

/-! A run that fails to start, detached or in a session: what it leaves behind, for every step at
which it fails. -/
namespace Conrt.Daemon

open Conrt.Base

/-- What has happened is not taken back. -/
def Grows {α : Type} (m : M α) : Prop :=
  ∀ tr, Triple (fun w => tr <+: w.trace) m (fun _ w => tr <+: w.trace) fun _ => True

section

variable {α β : Type} {m : M α} {pid : Pid} {sid : ℕ}

theorem Grows.bind {f : α → M β} (hm : Grows m) (hf : ∀ a, Grows (f a)) : Grows (m >>= f) :=
  fun tr => (hm tr).bind fun a => hf a tr

theorem Grows.pure {a : α} : Grows (Pure.pure a : M α) := fun _ => .pure fun _ h => h

theorem Grows.get : Grows (get : M World) := fun _ _ h => h

theorem Grows.update {g : World → World} (hg : ∀ w, w.trace <+: (g w).trace) : Grows (modify g) :=
  fun _ => .update fun w h => h.trans (hg w)

theorem Grows.forEach {g : α → M Unit} {as : List α} (hg : ∀ a, Grows (g a)) :
    Grows (Base.forEach g as) := fun tr => .forEach fun a _ => hg a tr

theorem ask_grows : Grows ask := by
  intro tr
  refine Triple.of_eq fun w hw => ask_spec.post fun a w' ha => ?_
  obtain ⟨as, -, rfl⟩ := ha
  exact hw

theorem note_grows {e : Entry} : Grows (note e) := .update fun _ => List.prefix_append ..

theorem closeAll_grows {hs : List Handle} : Grows (closeAll hs) :=
  .forEach fun _ => .update fun _ => List.prefix_append ..

theorem submit_grows {loc : OpLocal} {fd : Option Handle} {want : ℕ} : Grows (submit loc fd want) := by
  refine ask_grows.bind fun a => ?_
  split
  · exact Grows.get.bind fun w => Grows.bind (.update fun _ => List.prefix_append ..) fun _ => .pure
  · exact fun _ => .throw fun _ _ => trivial

theorem discard_grows (hm : Grows m) : Grows (discard m) := hm.bind fun _ => .pure

theorem modifySession_grows {u : AttachSession → AttachSession} : Grows (modifySession sid u) :=
  .update fun _ => List.prefix_refl _

theorem modifyContainer_grows {u : ContainerInfo → ContainerInfo} : Grows (modifyContainer pid u) :=
  .update fun _ => List.prefix_refl _

theorem findSession_grows : Grows (findSession sid) := Grows.get.bind fun _ => .pure

theorem findContainer_grows : Grows (findContainer pid) := Grows.get.bind fun _ => .pure

theorem finishDrain_grows : Grows (finishDrain pid) := by
  refine findContainer_grows.bind fun info => ?_
  cases info with
  | none => exact .pure
  | some info =>
    dsimp only
    split_ifs
    · exact modifyContainer_grows
    · refine Grows.bind (.update fun _ => List.prefix_append ..) fun _ => ?_
      refine closeAll_grows.bind fun _ => ?_
      split
      · split_ifs
        · exact note_grows
        · exact .pure
      · exact .pure

theorem armContainerOutput_grows : Grows (armContainerOutput pid) := by
  refine Grows.bind (Grows.get.bind fun _ => .pure) fun fd => ?_
  cases fd with
  | none => exact finishDrain_grows
  | some fd => exact discard_grows submit_grows

theorem armContainerPtyOutput_grows : Grows (armContainerPtyOutput pid) := by
  refine Grows.bind (findContainer_grows.bind fun _ => .pure) fun fd => ?_
  cases fd with
  | none => exact finishDrain_grows
  | some fd => exact discard_grows submit_grows

theorem armSessionFrame_grows {stream : Fd .stream} {ty : UInt8} {payload : Bytes} :
    Grows (armSessionFrame sid stream ty payload) := by
  refine discard_grows (submit_grows.bind fun op => ?_)
  cases op with
  | none => exact .pure
  | some op => exact note_grows.bind fun _ => .pure

theorem armSessionOutput_grows : Grows (armSessionOutput sid) := by
  refine findSession_grows.bind fun sess => ?_
  split
  · refine modifySession_grows.bind fun _ => findSession_grows.bind fun sess => ?_
    split
    · exact .pure
    · split_ifs
      · exact .pure
      · exact modifySession_grows.bind fun _ => armSessionFrame_grows
  · refine submit_grows.bind fun op => ?_
    split
    · exact modifySession_grows
    · exact .pure

def Installed (w₀ w : World) : Prop :=
  ∃ pid detached tty fds, .installed pid detached tty fds ∈ w₀.since w

def Ended (w₀ : World) (f : Option Stage) (clean : Stage → Prop) (w : World) : Prop :=
  f = none ∧ Installed w₀ w ∨ Fails w₀ f clean w

variable {w₀ w : World} {f : Option Stage} {left : List Resource} {clean : Stage → Prop}

/-- Once the container is in the table. -/
theorem Grows.ended (hm : Grows m) (hf : f = none) : Triple
    (fun w => w₀.trace <+: w.trace ∧ Installed w₀ w) m (fun _ => Ended w₀ f clean) fun _ => True := by
  refine Triple.of_eq fun w hw => ?_
  obtain ⟨hgrow, pid, detached, tty, fds, hmem⟩ := hw
  refine (hm w.trace).conseq (fun s hs => hs ▸ List.prefix_refl _) (fun _ w' hw' => .inl ⟨hf, ?_⟩)
    fun _ he => he
  exact ⟨pid, detached, tty, fds, (hw'.drop _).subset hmem⟩

/-- All the calls have succeeded. -/
theorem started {next : M α} (hm : f = none → Triple (fun w => w₀.trace <+: w.trace) next
    (fun _ => Ended w₀ f clean) fun _ => True) :
    Triple (Owes w₀ f (.todo []) left) next (fun _ => Ended w₀ f clean) fun _ => True :=
  fun w hx => hm hx.leads.symm w hx.grows

theorem now_grows : Grows now := by
  refine ask_grows.bind fun a => ?_
  split
  · exact .pure
  · exact fun _ => .throw fun _ _ => trivial

theorem install_shown {g : World → World} {detached tty : Bool} {fds : List Handle}
    (hg : ∀ w, (g w).trace = w.trace) : Triple (fun w => w₀.trace <+: w.trace)
    (modify fun w => (g w).note (.installed pid detached tty fds) : M Unit)
    (fun _ w => w₀.trace <+: w.trace ∧ Installed w₀ w) fun _ => True := by
  refine .update fun w hw => ?_
  have hgrow : w₀.trace <+: (g w).trace := (hg w).symm ▸ hw
  refine ⟨hgrow.trans (List.prefix_append ..), pid, detached, tty, fds, ?_⟩
  exact (mem_since_concat hgrow).mpr (.inr rfl)

end

section

variable {w₀ w : World} {f : Option Stage} {left rest : List Resource} {args : RunArgs}
  {prep : PreparedResources} {sender : ℕ} {pid : Pid} {stdin : Option (Fd .pipe × Fd .pipe)}
  {pty : Option (Fd .pty × Fd .pty)} {log : Fd .pipe × Fd .pipe}

theorem startDetached_owes (hprep : Prepared args prep) : Triple
    (Owes w₀ f (.todo args.mapStages) (fdsOf [log.1.handle, log.2.handle] ++
      (fdsOf (pairHandles pty) ++ (fdsOf (pairHandles stdin) ++ prep.resources))))
    (startDetached sender args prep stdin pty log pid)
    (fun _ => Ended w₀ f (CleansUp args (.datagram sender))) fun _ => True := by
  have hparent : (fdsOf [log.1.handle, log.2.handle] ++ (fdsOf (pairHandles pty) ++
      (fdsOf (pairHandles stdin) ++ prep.resources))).Perm
      (fdsOf (log.2.handle :: secondHandles pty ++ firstHandles prep.deathPipe ++ firstHandles stdin) ++
        (fdsOf prep.signalFds ++ (fdsOf (log.1.handle :: secondHandles stdin ++ firstHandles pty ++
          secondHandles prep.deathPipe) ++ overlaysOf prep.overlayDir))) := by
    rw [List.perm_iff_count]
    intro r
    simp only [fdsOf, pairHandles, PreparedResources.resources, PreparedResources.signalFds,
      List.map_append, List.map_cons, List.map_nil, List.cons_append, List.count_append,
      List.count_cons, List.nil_append]
    omega
  unfold startDetached
  refine (closeAll_owes hparent).bind fun _ => ?_
  refine (parentSetupMapsAndSignal_owes hprep (List.Perm.refl _)).bind fun r => ?_
  cases r with
  | error e =>
    refine (broke_of_owes fun _ => closeAll_owes (List.Perm.refl _)).bind fun _ => ?_
    refine (broke_of_owes fun _ => note_owes rfl).post fun _ w hx => .inr (hx.fails fun stage hs => ?_)
    rw [List.mem_singleton.mp hs]
    simpa [CleansUp] using overlaysOf_eq_nil hprep.overlayDir
  | ok _ =>
    refine started fun hf => (now_grows _).bind fun startTime => ?_
    refine (install_shown ?_).bind fun _ => Grows.ended ?_ hf
    · exact fun _ => rfl
    refine modifyContainer_grows.bind fun _ => armContainerOutput_grows.bind fun _ => ?_
    have hreply : Grows (replyDatagram sender (.run pid)) := note_grows
    split_ifs
    · exact modifyContainer_grows.bind fun _ => armContainerPtyOutput_grows.bind fun _ => hreply
    · exact hreply

/-- The death pipe and the overlay, when both are there. -/
theorem left_eq_nil (hprep : Prepared args prep) :
    fdsOf (pairHandles prep.deathPipe) ++ overlaysOf prep.overlayDir = [] ↔
      args.rootfs = none ∧ args.defaultInit = false := by
  rw [List.append_eq_nil_iff, fdsOf_eq_nil hprep.deathPipe, overlaysOf_eq_nil hprep.overlayDir]
  exact and_comm

theorem dropSignal_perm : prep.resources.Perm
    (fdsOf prep.signalFds ++ (fdsOf (pairHandles prep.deathPipe) ++ overlaysOf prep.overlayDir)) := by
  unfold PreparedResources.resources
  exact (List.perm_append_comm_assoc ..)

theorem dropSignal_behind {before : List Resource} : (before ++ prep.resources).Perm
    (fdsOf prep.signalFds ++
      (before ++ (fdsOf (pairHandles prep.deathPipe) ++ overlaysOf prep.overlayDir))) :=
  (dropSignal_perm.append_left before).trans (List.perm_append_comm_assoc ..)

theorem handleRun_owes : Triple (Owes w₀ f (args.begin (.datagram sender)) []) (handleRun sender args)
    (fun _ => Ended w₀ f (CleansUp args (.datagram sender))) fun _ => True := by
  have hreply (reply : Reply) (p : Progress) (left : List Resource) : Triple (Owes w₀ f p left)
      (replyDatagram sender reply) (fun _ => Owes w₀ f p left) fun _ => True := note_owes rfl
  unfold handleRun
  refine prepareRun_owes.bind fun r => ?_
  cases r with
  | error e => exact (fails_of_owes fun _ _ => hreply _ _ _).post fun _ _ hx => .inr hx
  | ok prep =>
    refine Triple.assume fun hprep => ?_
    refine ((openWhen_obtains (by decide)).and openWhen_wanted).bind fun r => Triple.assume fun hin => ?_
    cases r with
    | error e =>
      refine (broke_of_owes fun _ => hreply _ _ _).bind fun _ => ?_
      refine (broke_of_owes fun _ => closeAll_owes dropSignal_perm).post fun _ w hx => .inr ?_
      refine hx.fails fun stage hs => ?_
      rw [stageIf_mem hs]
      exact left_eq_nil hprep
    | ok stdin =>
      refine ((openWhen_obtains (by decide)).and openWhen_wanted).bind fun r => Triple.assume fun hpty => ?_
      cases r with
      | error e =>
        refine (broke_of_owes fun _ => hreply _ _ _).bind fun _ => ?_
        refine (broke_of_owes fun _ => closeAll_owes dropSignal_behind).post fun _ w hx => .inr ?_
        refine hx.fails fun stage hs => ?_
        -- a run on a terminal has no stdin pipe
        have htty : args.tty = true := stageIf_wanted hs
        have hnone : args.stdinPipe (.datagram sender) = false := by simp [RunArgs.stdinPipe, htty]
        rw [stageIf_mem hs, List.append_eq_nil_iff, left_eq_nil hprep, fdsOf_eq_nil (hin stdin rfl)]
        exact and_iff_right hnone
      | ok pty =>
        refine (openPair_obtains (by decide)).bind fun r => ?_
        cases r with
        | error e =>
          refine (broke_of_owes fun _ => hreply _ _ _).bind fun _ => ?_
          refine (broke_of_owes fun _ => closeAll_owes (List.Perm.refl _)).bind fun _ => ?_
          refine (broke_of_owes fun _ => closeAll_owes dropSignal_behind).post fun _ w hx => .inr ?_
          refine hx.fails fun stage hs => ?_
          rw [List.mem_singleton.mp hs, List.append_eq_nil_iff, left_eq_nil hprep,
            fdsOf_eq_nil (hin stdin rfl), and_comm, and_assoc]
          exact Iff.rfl
        | ok log =>
          refine clone3Container_obtains.bind fun r => ?_
          cases r with
          | error e =>
            have hclone : (fdsOf [log.1.handle, log.2.handle] ++ (fdsOf (pairHandles pty) ++
                (fdsOf (pairHandles stdin) ++ prep.resources))).Perm
                (fdsOf (log.1.handle :: log.2.handle :: pairHandles stdin ++ pairHandles pty ++
                  pairHandles prep.deathPipe) ++
                  (fdsOf prep.signalFds ++ overlaysOf prep.overlayDir)) := by
              rw [List.perm_iff_count]
              intro r
              simp only [fdsOf, PreparedResources.resources, List.map_append, List.map_cons,
                List.map_nil, List.cons_append, List.count_append, List.count_cons, List.nil_append]
              omega
            refine (broke_of_owes fun _ => closeAll_owes hclone).bind fun _ => ?_
            refine (broke_of_owes fun _ => hreply _ _ _).bind fun _ => ?_
            refine (broke_of_owes fun _ => closeAll_owes (List.Perm.refl _)).post fun _ w hx => .inr ?_
            refine hx.fails fun stage hs => ?_
            rw [List.mem_singleton.mp hs]
            exact overlaysOf_eq_nil hprep.overlayDir
          | ok pid => exact startDetached_owes hprep

end

section

variable {w₀ w : World} {f : Option Stage} {left rest : List Resource} {args : RunArgs}
  {prep : PreparedResources} {sid : ℕ} {pid : Pid} {stream : Fd .stream} {stage : Stage}
  {pty : Option (Fd .pty × Fd .pty)} {log : Option (Fd .pipe × Fd .pipe)}

theorem ask_failed : Triple (Owes w₀ f (.failed stage) left) ask
    (fun _ => Owes w₀ f (.failed stage) left) fun _ => True := by
  refine Triple.of_eq fun w hx => ask_spec.post fun a w' ha => ?_
  obtain ⟨as, -, rfl⟩ := ha
  exact { hx with }

theorem writeNow_failed {h : Handle} {b : Bytes} : Triple (Owes w₀ f (.failed stage) left)
    (writeNow h b) (fun _ => Owes w₀ f (.failed stage) left) fun _ => True := by
  refine ask_failed.bind fun a => ?_
  split
  · refine Triple.of_eq fun w hx => Triple.get_bind ?_
    split
    · refine Triple.ite (fun _ => ?_) fun _ => .throw fun _ _ => trivial
      exact Triple.modify_bind (.pure fun s hs => hs ▸ hx.note rfl)
    · exact .throw fun _ _ => trivial
  · exact .pure fun _ hx => hx
  · exact .throw fun _ _ => trivial

theorem closeSession_failed : Triple (Owes w₀ f (.failed stage) left) (closeSession sid)
    (fun _ => Owes w₀ f (.failed stage) left) fun _ => True := by
  unfold closeSession findSession
  simp only [bind_assoc, pure_bind]
  refine Triple.of_eq fun w hx => Triple.get_bind ?_
  split
  · exact .pure fun s hs => hs ▸ hx
  · have hdrop : Owes w₀ f (.failed stage) left (w.dropSession sid) :=
      { hx.note (e := .sessionClosed sid) rfl with }
    refine Triple.modify_bind (Triple.bind (Q := fun _ => Owes w₀ f (.failed stage) left) ?_ fun _ => ?_)
    · refine (Triple.forEach fun _ _ => note_owes rfl).conseq (fun s hs => hs ▸ hdrop) (fun _ _ h => h)
        fun _ h => h
    · exact .update fun _ hx => hx.closeStream

theorem refuseRun_failed {msg : String} : Triple (Owes w₀ f (.failed stage) left)
    (refuseRun sid stream msg) (fun _ => Owes w₀ f (.failed stage) left) fun _ => True := by
  refine Triple.bind ?_ fun _ => closeSession_failed
  exact (note_owes rfl).bind fun _ => writeNow_failed.bind fun _ => .pure fun _ hx => hx

theorem startAttached_owes (hprep : Prepared args prep)
    (hlog : log.isSome = args.logPipe (.session sid)) : Triple
    (Owes w₀ f (.todo args.mapStages) (fdsOf (pairHandles log) ++
      (fdsOf (pairHandles pty) ++ prep.resources)))
    (startAttached sid stream args prep pty log pid)
    (fun _ => Ended w₀ f (CleansUp args (.session sid))) fun _ => True := by
  have hparent : (fdsOf (pairHandles log) ++ (fdsOf (pairHandles pty) ++ prep.resources)).Perm
      (fdsOf (secondHandles pty ++ firstHandles prep.deathPipe) ++ (fdsOf prep.signalFds ++
        (fdsOf (secondHandles prep.deathPipe) ++ (fdsOf (firstHandles pty) ++
          (fdsOf (pairHandles log) ++ overlaysOf prep.overlayDir))))) := by
    rw [List.perm_iff_count]
    intro r
    simp only [fdsOf, pairHandles, PreparedResources.resources, List.map_append, List.count_append]
    omega
  unfold startAttached
  refine (closeAll_owes hparent).bind fun _ => ?_
  refine (parentSetupMapsAndSignal_owes hprep (List.Perm.refl _)).bind fun r => ?_
  cases r with
  | error e =>
    refine (broke_of_owes fun _ => closeAll_owes (List.Perm.refl _)).bind fun _ => ?_
    refine (broke_of_owes fun _ => refuseRun_failed).bind fun _ => ?_
    refine (broke_of_owes fun _ => closeAll_owes (List.Perm.refl _)).bind fun _ => ?_
    refine .pure fun w hx => .inr (hx.fails fun stage hs => ?_)
    rw [List.mem_singleton.mp hs, List.append_eq_nil_iff, fdsOf_eq_nil hlog,
      overlaysOf_eq_nil hprep.overlayDir]
    exact and_comm
  | ok _ =>
    refine started fun hf => (closeAll_grows _).bind fun _ => (now_grows _).bind fun startTime => ?_
    refine (install_shown ?_).bind fun _ => Grows.ended ?_ hf
    · exact fun _ => rfl
    exact modifySession_grows.bind fun _ => note_grows.bind fun _ =>
      armSessionFrame_grows.bind fun _ => armSessionOutput_grows.bind fun _ => .pure

theorem handleRunAttach_owes : Triple
    (fun w => Owes w₀ f (args.begin (.session sid)) [] w ∧ w.g.attachSessions.lookup sid ≠ none)
    (handleRunAttach sid args) (fun _ => Ended w₀ f (CleansUp args (.session sid)))
    fun _ => True := by
  unfold handleRunAttach findSession
  simp only [bind_assoc, pure_bind]
  refine Triple.of_eq fun w hx => Triple.get_bind ?_
  split
  · rename_i hnone
    exact absurd hnone hx.2
  rename_i sess _
  refine Triple.bind (prepareRun_owes.conseq (fun s hs => hs ▸ hx.1) (fun _ _ h => h) fun _ h => h)
    fun r => ?_
  cases r with
  | error e =>
    refine (fails_of_owes fun _ _ => refuseRun_failed).bind fun _ => ?_
    exact .pure fun _ hx => .inr hx
  | ok prep =>
    refine Triple.assume fun hprep => ?_
    have hlater : args.laterStages (.session sid) = stageIf (args.tty || args.interactive) .pty ++
        (stageIf (!(args.tty || args.interactive)) .logPipe ++ (.clone :: args.mapStages)) := rfl
    rw [hlater]
    refine ((openWhen_obtains (k := .pty) (by decide)).and openWhen_wanted).bind fun r =>
      Triple.assume fun hpty => ?_
    cases r with
    | error e =>
      refine (broke_of_owes fun _ => refuseRun_failed).bind fun _ => ?_
      refine (broke_of_owes fun _ => closeAll_owes dropSignal_perm).bind fun _ => ?_
      refine .pure fun w hx => .inr (hx.fails fun stage hs => ?_)
      rw [stageIf_mem hs]
      exact left_eq_nil hprep
    | ok pty =>
      refine ((openWhen_obtains (k := .pipe) (by decide)).and openWhen_wanted).bind fun r =>
        Triple.assume fun hlog => ?_
      cases r with
      | error e =>
        refine (broke_of_owes fun _ => refuseRun_failed).bind fun _ => ?_
        refine (broke_of_owes fun _ => closeAll_owes dropSignal_behind).bind fun _ => ?_
        refine .pure fun w hx => .inr (hx.fails fun stage hs => ?_)
        -- without a terminal there is a log pipe, and no pty
        have hnone : (args.tty || args.interactive) = false := by simpa using stageIf_wanted hs
        rw [stageIf_mem hs, List.append_eq_nil_iff, left_eq_nil hprep, fdsOf_eq_nil (hpty pty rfl),
          and_iff_right hnone]
        simp [CleansUp, RunArgs.stdinPipe]
      | ok log =>
        refine clone3Container_obtains.bind fun r => ?_
        cases r with
        | error e =>
          have hclone : (fdsOf (pairHandles log) ++ (fdsOf (pairHandles pty) ++ prep.resources)).Perm
              (fdsOf (pairHandles log ++ pairHandles prep.deathPipe) ++ (fdsOf (pairHandles pty) ++
                (fdsOf prep.signalFds ++ overlaysOf prep.overlayDir))) := by
            rw [List.perm_iff_count]
            intro r
            simp only [fdsOf, PreparedResources.resources, List.map_append, List.count_append]
            omega
          refine (broke_of_owes fun _ => closeAll_owes hclone).bind fun _ => ?_
          refine (broke_of_owes fun _ => refuseRun_failed).bind fun _ => ?_
          refine (broke_of_owes fun _ => closeAll_owes (List.Perm.refl _)).bind fun _ => ?_
          refine (broke_of_owes fun _ => closeAll_owes (List.Perm.refl _)).bind fun _ => ?_
          refine .pure fun w hx => .inr (hx.fails fun stage hs => ?_)
          rw [List.mem_singleton.mp hs]
          exact overlaysOf_eq_nil hprep.overlayDir
        | ok pid => exact startAttached_owes hprep (hlog log rfl)

end

section

variable {w w' w₀ : World} {f : Option Stage} {args : RunArgs} {client : Client} {stage : Stage}
  {left : List Resource}

theorem startRun_owes : Triple
    (fun w => Owes w₀ f (args.begin client) [] w ∧ client.Present w) (startRun args client)
    (fun _ => Ended w₀ f (CleansUp args client)) fun _ => True := by
  cases client with
  | datagram sender => exact handleRun_owes.conseq (fun _ hx => hx.1) (fun _ _ h => h) fun _ h => h
  | session sid => exact handleRunAttach_owes.bind fun _ => .pure fun _ h => h

private theorem begin_leads : (args.begin client).Leads (w.failsAt args client) w.answers := by
  unfold RunArgs.begin World.failsAt
  split_ifs <;> rfl

/-- Nothing is left exactly when the run is undone. -/
theorem Owes.undone_iff (hx : Owes w f (.failed stage) left w') : Undone w w' ↔ left = [] := by
  constructor
  · intro hu
    have hp := hx.settled
    rw [hu.settled] at hp
    exact hp.nil_eq.symm
  · rintro rfl
    refine ⟨hx.containers, hx.outputs, hx.settled.eq_nil, fun d hd => ?_⟩
    rcases hx.closed d hd with hmem | hgone
    · cases hmem
    · exact hgone

/-- A run that is not installed has failed at one of its steps, and is undone exactly when that step
cleans up. -/
theorem failed_run_undone_iff (hp : client.Present w) (hr : startRun args client w = .ok () w')
    (hfail : ¬ Installed w w') : ∃ stage, w.failsAt args client = some stage ∧
      (Undone w w' ↔ CleansUp args client stage) := by
  have hend : Ended w (w.failsAt args client) (CleansUp args client) w' :=
    startRun_owes.ok ⟨.start begin_leads, hp⟩ hr
  rcases hend with ⟨-, hin⟩ | ⟨stage, left, hx, hclean⟩
  · exact absurd hin hfail
  · exact ⟨stage, hx.leads, hx.undone_iff.trans hclean⟩

end

def Entry.installs : Entry → Bool
  | .installed _ _ _ _ => true
  | _ => false

/-- Runs a program from a booted daemon that gets the given answers, and tests how it returns. -/
def returns (boot answers : List Answer) (m : M Unit) (test : World → World → Bool) : Bool :=
  (booted boot).any fun w₀ =>
    match m { w₀ with answers := answers } with
    | .ok () w' => (w₀.since w').all (!·.installs) && test w₀ w'
    | .error _ _ => false

theorem exists_of_returns (boot answers : List Answer) (m : M Unit) (test : World → World → Bool)
    (h : returns boot answers m test = true) : ∃ w₀ w', booted boot = some w₀ ∧
      m { w₀ with answers := answers } = .ok () w' ∧
      ¬ Installed { w₀ with answers := answers } w' ∧ test w₀ w' = true := by
  obtain ⟨w₀, hb, hret⟩ := (Option.any_eq_true _ _).mp h
  cases hm : m { w₀ with answers := answers } with
  | error e w' =>
    simp only [hm] at hret
    cases hret
  | ok u w' =>
    simp only [hm] at hret
    obtain ⟨hall, ht⟩ := Bool.and_eq_true_iff.mp hret
    refine ⟨w₀, w', hb, hm, ?_, ht⟩
    rintro ⟨pid, detached, tty, fds, hmem⟩
    have hno := List.all_eq_true.mp hall _ hmem
    cases hno

/-- A detached container on a root directory, with the default init. -/
def rootfsRun : RunArgs :=
  { rootfs := some "/img"
    netPid := none
    save := false
    command := []
    tty := false
    interactive := false
    noInit := false
    initPath := none }

def signalRefused : List Answer :=
  [.call (.ok []), .call (.ok []), .call (.error "Too many open files")]

/-- The client is told of the error. -/
theorem failed_run_undone_iff_signal : ∃ w₀ w', booted quietBoot = some w₀ ∧
    startRun rootfsRun (.datagram 9) { w₀ with answers := signalRefused } = .ok () w' ∧
      .replied 9 (.error "sync pipe creation failed: Too many open files") ∈ w'.trace ∧
        ∃ stage, World.failsAt { w₀ with answers := signalRefused } rootfsRun (.datagram 9) =
          some stage ∧ (Undone { w₀ with answers := signalRefused } w' ↔
            CleansUp rootfsRun (.datagram 9) stage) := by
  obtain ⟨w₀, w', hb, hr, hno, ht⟩ := exists_of_returns quietBoot signalRefused
    (startRun rootfsRun (.datagram 9)) (fun _ w' => decide
      (.replied 9 (.error "sync pipe creation failed: Too many open files") ∈ w'.trace))
    (by decide +kernel)
  exact ⟨w₀, w', hb, hr, of_decide_eq_true ht, failed_run_undone_iff trivial hr hno⟩

/-- The overlay directory of a run without a sync pipe stays. -/
theorem overlay_left_behind : ∃ w₀ w', booted quietBoot = some w₀ ∧
    startRun rootfsRun (.datagram 9) { w₀ with answers := signalRefused } = .ok () w' ∧
      ¬ Installed { w₀ with answers := signalRefused } w' ∧
        ¬ Undone { w₀ with answers := signalRefused } w' := by
  obtain ⟨w₀, w', hb, hr, hno, ht⟩ := exists_of_returns quietBoot signalRefused
    (startRun rootfsRun (.datagram 9)) (fun w w' => decide
      (outstanding Entry.deed (w.since w') ≠ [])) (by decide +kernel)
  refine ⟨w₀, w', hb, hr, hno, fun hu => ?_⟩
  exact of_decide_eq_true ht hu.settled

end Conrt.Daemon
