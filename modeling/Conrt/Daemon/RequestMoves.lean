import Conrt.Daemon.ContainerMoves

/-! The moves of a client's requests. -/
namespace Conrt.Daemon

open Conrt.Base

variable {τ : Terms} {h : List Token} {w w' : World} {pid : Pid} {sid : ℕ} {α : Type}

theorem replyDatagram_spares {sender : ℕ} {reply : Reply} :
    Spares τ h w (replyDatagram sender reply) := note_spares trivial

/-- Closing some fresh descriptors, with those left named. -/
theorem closeRest {hs all : List Handle} (rest : List Handle) (hp : (hs ++ rest).Perm all) :
    Trail (Move τ) (holdFresh all ++ h, w) w (closeAll hs) fun _ h' w' =>
      h' = holdFresh rest ++ h ∧ Kept w w' := by
  refine closeSome ?_
  rw [← List.append_assoc]
  have hmap : (holdFresh hs ++ holdFresh rest).Perm (holdFresh all) := by
    unfold holdFresh
    rw [← List.map_append]
    exact hp.map _
  exact hmap.append_right h

/-- Fresh descriptors in another order. -/
theorem permFresh {hs hs' : List Handle} (hp : hs.Perm hs') :
    Move τ (holdFresh hs ++ h, w) (holdFresh hs' ++ h, w) :=
  .perm ((hp.symm.map _).append_right h)

theorem holdFresh_append {hs hs' : List Handle} :
    holdFresh hs ++ (holdFresh hs' ++ h) = holdFresh (hs ++ hs') ++ h := by
  unfold holdFresh
  rw [List.map_append, List.append_assoc]

/-- A program whose fresh descriptors are forgotten once it has returned. -/
theorem forgetting {m : M α} {b : List Token × World} {hs : List Handle} {P : World → Prop}
    (hm : Trail (Move τ) b w m fun _ h' w' => h' = holdFresh hs ++ h ∧ P w') :
    Trail (Move τ) b w m fun _ h' w' => h' = h ∧ P w' := by
  refine Triple.post hm fun a w' hw => ?_
  obtain ⟨h', hp, rfl, hP⟩ := hw
  exact ⟨h, hp.trans forgetFresh, rfl, hP⟩

/-- Closing some fresh descriptors and forgetting the rest. -/
theorem closeLast {hs all : List Handle} (rest : List Handle) (hp : (hs ++ rest).Perm all) :
    Trail (Move τ) (holdFresh all ++ h, w) w (closeAll hs) fun _ h' w' => h' = h ∧ Kept w w' :=
  forgetting (closeRest rest hp)

section

variable {k : FileKind}

/-- The pair is there exactly if it was wanted. -/
theorem openWhen_calls {wanted : Bool} : Trail (Move τ) (h, w) w (openWhen wanted k) fun r h' w' =>
    (h' = holdFresh (okHandles pairHandles r) ++ h ∧ Kept w w') ∧
      ∀ pair, r = .ok pair → pair.isSome = wanted := by
  unfold openWhen
  cases wanted with
  | false =>
    refine Trail.pure ⟨⟨rfl, .refl⟩, fun pair hp => ?_⟩
    obtain rfl := Except.ok.inj hp
    rfl
  | true =>
    refine openPair_calls.bind fun r h' w' hw => ?_
    obtain ⟨rfl, hk⟩ := hw
    cases r with
    | error e => exact Trail.pure ⟨⟨rfl, hk⟩, fun pair hp => by cases hp⟩
    | ok pair =>
      refine Trail.move (permFresh (List.Perm.swap pair.1.handle pair.2.handle [])) ?_
      refine Trail.pure ⟨⟨rfl, hk⟩, fun pair' hp => ?_⟩
      obtain rfl := Except.ok.inj hp
      rfl

end

def signalHandles (prep : PreparedResources) : List Handle :=
  [prep.signal.1.handle, prep.signal.2.handle]

def prepHandles (prep : PreparedResources) : List Handle :=
  signalHandles prep ++ pairHandles prep.deathPipe

theorem prepareRootfs_calls {rootfs : Option String} :
    Calls τ h w (prepareRootfs rootfs) fun _ => [] := by
  unfold prepareRootfs
  split
  · exact Trail.pure ⟨rfl, .refl⟩
  · refine call_calls.bind fun r h' w' hw => ?_
    obtain ⟨rfl, hk⟩ := hw
    cases r with
    | error e => exact Trail.pure ⟨rfl, hk⟩
    | ok _ =>
      refine call_calls.bind fun r h' w'' hw => ?_
      obtain ⟨rfl, hk'⟩ := hw
      cases r with
      | error e => exact Trail.pure ⟨rfl, hk.trans hk'⟩
      | ok _ =>
        refine Trail.get_bind (Trail.modify_bind ?_)
        refine Trail.move (.idle w''.answers (w''.nextOverlay + 1)) ?_
        refine Trail.commit (.note trivial) (Trail.pure ⟨rfl, (hk.trans hk').trans ?_⟩)
        exact .of_note (e := .overlayMade w''.nextOverlay) trivial rfl rfl rfl rfl rfl

theorem setns_calls : Calls τ h w (setns pid) fun _ => [] := by
  unfold setns
  refine call_calls.bind fun r h' w' hw => ?_
  obtain ⟨rfl, hk⟩ := hw
  cases r with
  | error e => exact Trail.pure ⟨rfl, hk⟩
  | ok _ =>
    refine note_bind (Trail.commit (.note trivial) ?_)
    refine call_calls.bind fun r h' w'' hw => ?_
    obtain ⟨rfl, hk'⟩ := hw
    have hall := (hk.trans (.note (e := .joined pid .user) trivial)).trans hk'
    cases r with
    | error e => exact Trail.pure ⟨rfl, hall⟩
    | ok _ =>
      refine note_bind (Trail.commit (.note trivial) (Trail.pure ⟨rfl, ?_⟩))
      exact hall.trans (.note trivial)

theorem joinNamespaces_calls : Calls τ h w (joinNamespaces pid) fun _ => [] := by
  unfold joinNamespaces
  refine openOne_calls.bind fun r h' w' hw => ?_
  obtain ⟨rfl, hk⟩ := hw
  cases r with
  | error e => exact Trail.pure ⟨rfl, hk⟩
  | ok user =>
    refine openOne_calls.bind fun r h' w'' hw => ?_
    obtain ⟨rfl, hk'⟩ := hw
    cases r with
    | error e =>
      refine closeFresh_spares.bind fun _ h' w₃ hw => ?_
      obtain ⟨rfl, hk₃⟩ := hw
      exact Trail.pure ⟨rfl, (hk.trans hk').trans hk₃⟩
    | ok net =>
      refine setns_calls.bind fun r h' w₃ hw => ?_
      obtain ⟨rfl, hk₃⟩ := hw
      have hnil : okHandles (fun _ : Unit => ([] : List Handle)) r = [] := by
        cases r <;> rfl
      rw [hnil]
      refine closeFresh_spares.bind fun _ h' w₄ hw => ?_
      obtain ⟨rfl, hk₄⟩ := hw
      refine Trail.pure ⟨?_, ((hk.trans hk').trans hk₃).trans hk₄⟩
      rw [hnil]
      rfl

theorem prepareNamespaces_calls {netPid : Option Pid} :
    Calls τ h w (prepareNamespaces netPid) fun _ => [] := by
  unfold prepareNamespaces
  split
  · exact Trail.pure ⟨rfl, .refl⟩
  · refine joinNamespaces_calls.bind fun r h' w' hw => ?_
    obtain ⟨rfl, hk⟩ := hw
    cases r <;> exact Trail.pure ⟨rfl, hk⟩

theorem prepareRun_calls {args : RunArgs} : Calls τ h w (prepareRun args) prepHandles := by
  unfold prepareRun
  refine Trail.ite (fun _ => Trail.pure ⟨rfl, .refl⟩) fun _ => ?_
  refine prepareRootfs_calls.bind fun r h' w₁ hw => ?_
  obtain ⟨rfl, hk₁⟩ := hw
  cases r with
  | error e => exact Trail.pure ⟨rfl, hk₁⟩
  | ok overlayDir =>
    refine openPair_calls.bind fun r h' w₂ hw => ?_
    obtain ⟨rfl, hk₂⟩ := hw
    cases r with
    | error e => exact Trail.pure ⟨rfl, hk₁.trans hk₂⟩
    | ok signal =>
      refine Trail.move (permFresh (List.Perm.swap signal.1.handle signal.2.handle [])) ?_
      refine prepareNamespaces_calls.bind fun r h' w₃ hw => ?_
      obtain ⟨rfl, hk₃⟩ := hw
      have hk := (hk₁.trans hk₂).trans hk₃
      cases r with
      | error e =>
        refine closeFresh_spares.bind fun _ h' w₄ hw => ?_
        obtain ⟨rfl, hk₄⟩ := hw
        exact Trail.pure ⟨rfl, hk.trans hk₄⟩
      | ok needsUsernsMaps =>
        refine openWhen_calls.bind fun r h' w₄ hw => ?_
        obtain ⟨⟨rfl, hk₄⟩, -⟩ := hw
        cases r with
        | error e =>
          refine closeFresh_spares.bind fun _ h' w₅ hw => ?_
          obtain ⟨rfl, hk₅⟩ := hw
          exact Trail.pure ⟨rfl, (hk.trans hk₄).trans hk₅⟩
        | ok deathPipe =>
          have hp : (holdFresh (prepHandles ⟨overlayDir, signal, needsUsernsMaps, args.command,
              deathPipe⟩) ++ h).Perm (holdFresh (pairHandles deathPipe) ++
                (holdFresh [signal.1.handle, signal.2.handle] ++ h)) := by
            rw [← List.append_assoc]
            refine List.Perm.append_right h ?_
            unfold prepHandles holdFresh
            rw [← List.map_append]
            exact (List.perm_append_comm).map _
          exact Trail.move (.perm hp) (Trail.pure ⟨rfl, hk.trans hk₄⟩)

/-- The signal pipe is closed whether or not the maps could be written. -/
theorem signalled_calls {prep : PreparedResources} (r : Except String Unit) {u : World}
    (hk : Kept w u) : Trail (Move τ) (holdFresh (signalHandles prep) ++ h, u) u (do
      dropSignal prep.signal
      match r with
      | .error e => pure (.error ("uid_map write failed: " ++ e))
      | .ok () => pure (.ok ()) : M (Except String Unit)) fun _ h' w' => h' = h ∧ Kept w w' := by
  refine closeFresh_spares.bind fun _ h' w' hw => ?_
  obtain ⟨rfl, hk'⟩ := hw
  cases r <;> exact Trail.pure ⟨rfl, hk.trans hk'⟩

/-- The parent's side of the sync. -/
theorem parentSetupMapsAndSignal_calls {prep : PreparedResources} :
    Trail (Move τ) (holdFresh (signalHandles prep) ++ h, w) w (parentSetupMapsAndSignal prep)
      fun _ h' w' => h' = h ∧ Kept w w' := by
  unfold parentSetupMapsAndSignal
  cases prep.needsUsernsMaps with
  | false => exact signalled_calls (.ok ()) .refl
  | true =>
    refine call_calls.bind fun r h' w' hw => ?_
    obtain ⟨rfl, hk⟩ := hw
    have hnil : okHandles (fun _ : Unit => ([] : List Handle)) r = [] := by
      cases r <;> rfl
    rw [hnil]
    exact signalled_calls r hk

/-- The pids of new children are not in the tables. -/
structure CloneNew (τ : Terms) (w : World) : Prop where
  fresh : τ.fresh → ∀ pid, Answer.clone (.ok pid) ∈ w.answers → w.g.containers.lookup pid = none
  novel : τ.novel → ∀ pid, Answer.clone (.ok pid) ∈ w.answers → w.g.logGraveyard.lookup pid = none

theorem CloneNew.kept (hn : CloneNew τ w) (k : Kept w w') : CloneNew τ w' := by
  constructor
  · intro ht pid ha
    rw [k.g]
    exact hn.fresh ht pid (k.answers ha)
  · intro ht pid ha
    rw [k.g]
    exact hn.novel ht pid (k.answers ha)

structure Cloned (τ : Terms) (w : World) (pid : Pid) : Prop where
  member : pid ∈ w.children
  running : exitOf pid w.trace = none
  fresh : τ.fresh → w.g.containers.lookup pid = none
  novel : τ.novel → w.g.logGraveyard.lookup pid = none

theorem Cloned.kept (hc : Cloned τ w pid) (k : Kept w w') : Cloned τ w' pid where
  member := by rw [k.children]; exact hc.member
  running := by rw [k.exitOf]; exact hc.running
  fresh ht := by rw [k.g]; exact hc.fresh ht
  novel ht := by rw [k.g]; exact hc.novel ht

structure Untouched (w w' : World) : Prop where
  sessions : w'.g.attachSessions = w.g.attachSessions
  ops : w'.ops = w.ops
  frames : ∀ f, framesOn f w'.trace = framesOn f w.trace
  bytes : ∀ f, bytesOn f w'.trace = bytesOn f w.trace
  exits : ∀ sid, exitBytes sid w'.trace = exitBytes sid w.trace
  adopted : ∀ sid pid fds, .adopted sid pid fds ∈ w'.trace → .adopted sid pid fds ∈ w.trace

theorem Untouched.of_kept (k : Kept w w') : Untouched w w' where
  sessions := by rw [k.g]
  ops := k.ops
  frames := k.framesOn
  bytes := k.bytesOn
  exits := k.exitBytes
  adopted _ _ _ := (k.mem_trace id).mp

theorem Untouched.of_entry {e : Entry} (hs : w'.g.attachSessions = w.g.attachSessions)
    (ho : w'.ops = w.ops) (ht : w'.trace = w.trace ++ [e]) (hf : ∀ f, framesOn f [e] = [])
    (hb : ∀ f, bytesOn f [e] = []) (hx : ∀ s, exitBytes s [e] = [])
    (ha : ∀ s p fds, e ≠ .adopted s p fds) : Untouched w w' where
  sessions := hs
  ops := ho
  frames f := by rw [ht, framesOn_append, hf, List.append_nil]
  bytes f := by rw [ht, bytesOn_append, hb, List.append_nil]
  exits s := by rw [ht, exitBytes_append, hx, List.append_nil]
  adopted s p fds hm := by
    rw [ht, List.mem_append, List.mem_singleton] at hm
    exact hm.resolve_right fun he => ha s p fds he.symm

theorem clone3Container_trail (hn : CloneNew τ w) :
    Trail (Move τ) (h, w) w clone3Container fun r h' w' => h' = h ∧ Untouched w w' ∧
      match r with
      | .ok pid => Cloned τ w' pid
      | .error _ => Kept w w' := by
  refine ask_bind fun a as ha => (Trail.move (idle_answers as) ?_)
  split
  · rename_i pid
    refine Trail.get_bind ?_
    split_ifs with hc
    · have hmem : Answer.clone (.ok pid) ∈ w.answers := by
        rw [ha]
        exact List.mem_cons_self
      have hfresh := fun ht => hn.fresh ht pid hmem
      have hnovel := fun ht => hn.novel ht pid hmem
      refine Trail.modify_bind (Trail.commit (.started hc.1 hc.2 hfresh hnovel) ?_)
      have hsame : Untouched w ({ w with
          answers := as
          children := pid :: w.children }.note (.started pid)) :=
        .of_entry rfl rfl rfl (fun _ => rfl) (fun _ => rfl) (fun _ => rfl) (by simp)
      refine Trail.pure ⟨rfl, hsame, List.mem_cons_self, ?_, hfresh, hnovel⟩
      simp [World.note, noteExit]
    · exact Trail.throw
  · exact Trail.pure ⟨rfl, .of_kept (.spend ha), .spend ha⟩
  · exact Trail.throw

section

variable {args : RunArgs} {prep : PreparedResources} {stdin : Option (Fd .pipe × Fd .pipe)}
  {pty : Option (Fd .pty × Fd .pty)} {log : Fd .pipe × Fd .pipe}

def runHandles (prep : PreparedResources) (stdin : Option (Fd .pipe × Fd .pipe))
    (pty : Option (Fd .pty × Fd .pty)) (log : Fd .pipe × Fd .pipe) : List Handle :=
  [log.2.handle, log.1.handle] ++ (pairHandles pty ++ (pairHandles stdin ++ prepHandles prep))

def keptHandles (prep : PreparedResources) (stdin : Option (Fd .pipe × Fd .pipe))
    (pty : Option (Fd .pty × Fd .pty)) (log : Fd .pipe × Fd .pipe) : List Handle :=
  log.1.handle :: secondHandles stdin ++ firstHandles pty ++ secondHandles prep.deathPipe

theorem handles_new {startTime : ℕ} {stdinFd : RawFd .pipe} {ptmFd : RawFd .pty} :
    (ContainerInfo.new pid args prep startTime stdinFd ptmFd).handles =
      RawFd.handles ptmFd ++ RawFd.handles stdinFd ++ secondHandles prep.deathPipe := by
  simp [ContainerInfo.new, ContainerInfo.handles, LogGateway.new, LogGateway.handles,
    secondHandles]

theorem armContainerOutput_steady {o : Output} (ho : w.g.outputs.lookup pid = some o) :
    Trail (Move τ) (.drain .output pid [] [] false :: h, w) w (armContainerOutput pid)
      fun _ h' w' => h' = h ∧ w'.g = w.g := by
  unfold armContainerOutput
  refine outputFd_bind ?_
  rw [ho]
  refine (drain_steady rfl ?_).post fun _ _ _ hw => ⟨hw.1, hw.2.1⟩
  simp [World.drainFd, ho]

theorem armContainerPtyOutput_steady {info : ContainerInfo} {fd : Fd .pty}
    (hi : w.g.containers.lookup pid = some info) (hfd : info.ptmFd = some fd) :
    Trail (Move τ) (.drain .pty pid [] [] false :: h, w) w (armContainerPtyOutput pid)
      fun _ h' _ => h' = h := by
  unfold armContainerPtyOutput
  refine containerPtm_bind ?_
  have hb : (w.g.containers.lookup pid).bind (·.ptmFd) = some fd := by rw [hi, Option.bind_some, hfd]
  rw [hb]
  refine (drain_steady rfl ?_).post fun _ _ _ hw => hw.1
  simp [World.drainFd, hb, RawFd.handle]

theorem startDetached_steady {sender : ℕ} (hc : Cloned τ w pid) :
    Trail (Move τ) (holdFresh (runHandles prep stdin pty log) ++ h, w) w
      (startDetached sender args prep stdin pty log pid) fun _ h' _ => h' = h := by
  have hsplit : ((log.2.handle :: secondHandles pty ++ firstHandles prep.deathPipe ++
      firstHandles stdin) ++ (signalHandles prep ++ keptHandles prep stdin pty log)).Perm
      (runHandles prep stdin pty log) := by
    rw [List.perm_iff_count]
    intro d
    simp only [runHandles, keptHandles, prepHandles, pairHandles, List.cons_append,
      List.count_append, List.count_cons, List.nil_append]
    omega
  unfold startDetached
  refine (closeRest _ hsplit).bind fun _ h' w₁ hw => ?_
  obtain ⟨rfl, hk₁⟩ := hw
  rw [← holdFresh_append]
  refine parentSetupMapsAndSignal_calls.bind fun r h' w₂ hw => ?_
  obtain ⟨rfl, hk₂⟩ := hw
  cases r with
  | error e =>
    refine closeFresh_spares.bind fun _ h' w₃ hw => ?_
    obtain ⟨rfl, hk₃⟩ := hw
    exact replyDatagram_spares.post fun _ _ _ hw => hw.1
  | ok _ =>
    refine now_spares.bind fun startTime h' w₃ hw => ?_
    obtain ⟨rfl, hk₃⟩ := hw
    have hc₃ := hc.kept ((hk₁.trans hk₂).trans hk₃)
    set info := ContainerInfo.new pid args prep startTime (secondOf stdin) (firstOf pty) with hinfo
    have hperm : (keptHandles prep stdin pty log).Perm (log.1.handle :: info.handles) := by
      rw [List.perm_iff_count, hinfo, handles_new]
      intro d
      simp only [keptHandles, List.cons_append, List.count_append, List.count_cons,
        firstHandles, secondHandles]
      omega
    refine Trail.move (permFresh hperm) (Trail.modify_bind ?_)
    have htty : pty.isSome = info.ptmFd.isSome := (Option.isSome_map ..).symm
    refine Trail.commit (.installDetached rfl rfl hc₃.member hc₃.fresh hc₃.novel htty) ?_
    refine Trail.modify_bind (Trail.commit (.addDrain .output (AList.lookup_insert _) rfl) ?_)
    refine (armContainerOutput_steady (AList.lookup_insert _)).bind fun _ h' w₄ hw => ?_
    obtain ⟨rfl, hg⟩ := hw
    cases pty with
    | none => exact replyDatagram_spares.post fun _ _ _ hw => hw.1
    | some pair =>
      have hi₄ : w₄.g.containers.lookup pid = some { info with drainsPending := 1 } := by
        rw [hg]
        exact lookup_modifyContainer (AList.lookup_insert _)
      refine Trail.modify_bind (Trail.commit (.addDrain .pty hi₄ (by simp [hinfo, ContainerInfo.new, firstOf, Drain.First])) ?_)
      refine (armContainerPtyOutput_steady (lookup_modifyContainer hi₄) rfl).bind
        fun _ h' w₅ hh => ?_
      rw [hh]
      exact replyDatagram_spares.post fun _ _ _ hw => hw.1

theorem handleRun_steady {sender : ℕ} (hn : CloneNew τ w) :
    Steady τ h w (handleRun sender args) := by
  unfold handleRun
  refine prepareRun_calls.bind fun r h' w₁ hw => ?_
  obtain ⟨rfl, hk₁⟩ := hw
  cases r with
  | error e => exact replyDatagram_spares.post fun _ _ _ hw => hw.1
  | ok prep =>
    refine openWhen_calls.bind fun r h' w₂ hw => ?_
    obtain ⟨⟨rfl, hk₂⟩, -⟩ := hw
    cases r with
    | error e =>
      refine replyDatagram_spares.bind fun _ h' w₃ hw => ?_
      obtain ⟨rfl, hk₃⟩ := hw
      exact (closeLast (pairHandles prep.deathPipe) (List.Perm.refl _)).post fun _ _ _ hw => hw.1
    | ok stdin =>
      refine openWhen_calls.bind fun r h' w₃ hw => ?_
      obtain ⟨⟨rfl, hk₃⟩, -⟩ := hw
      simp only [okHandles, holdFresh_append]
      cases r with
      | error e =>
        refine replyDatagram_spares.bind fun _ h' w₄ hw => ?_
        obtain ⟨rfl, hk₄⟩ := hw
        refine (closeLast (pairHandles stdin ++ pairHandles prep.deathPipe) ?_).post
          fun _ _ _ hw => hw.1
        rw [List.perm_iff_count]
        intro d
        simp only [prepHandles, signalHandles, List.count_append, List.nil_append]
        omega
      | ok pty =>
        refine openPair_calls.bind fun r h' w₄ hw => ?_
        obtain ⟨rfl, hk₄⟩ := hw
        simp only [okHandles, holdFresh_append]
        cases r with
        | error e =>
          refine replyDatagram_spares.bind fun _ h' w₅ hw => ?_
          obtain ⟨rfl, hk₅⟩ := hw
          refine (closeRest (pairHandles stdin ++ prepHandles prep) (List.Perm.refl _)).bind
            fun _ h' w₆ hw => ?_
          obtain ⟨rfl, hk₆⟩ := hw
          refine (closeLast (pairHandles stdin ++ pairHandles prep.deathPipe) ?_).post
            fun _ _ _ hw => hw.1
          rw [List.perm_iff_count]
          intro d
          simp only [prepHandles, signalHandles, List.count_append]
          omega
        | ok log =>
          have hn' := hn.kept (((hk₁.trans hk₂).trans hk₃).trans hk₄)
          refine (clone3Container_trail hn').bind fun r h' w₅ hw => ?_
          obtain ⟨rfl, -, hr⟩ := hw
          cases r with
          | error e =>
            refine (closeRest (signalHandles prep) ?_).bind fun _ h' w₆ hw => ?_
            · rw [List.perm_iff_count]
              intro d
              simp only [prepHandles, List.cons_append, List.nil_append, List.count_append,
                List.count_cons]
              omega
            · obtain ⟨rfl, hk₆⟩ := hw
              refine replyDatagram_spares.bind fun _ h' w₇ hw => ?_
              obtain ⟨rfl, hk₇⟩ := hw
              exact closeFresh_spares.post fun _ _ _ hw => hw.1
          | ok pid => exact startDetached_steady hr

end

/-- A request that is refused has closed its session. -/
abbrev Answers (τ : Terms) (b : List Token × World) (h : List Token) (w : World) (sid : ℕ)
    (m : M Bool) : Prop :=
  Trail (Move τ) b w m fun r h' w' => h' = h ∧ (r = false → w'.g.attachSessions.lookup sid = none)

structure Requested (τ : Terms) (w : World) (sid : ℕ) : Prop where
  closable : Closable τ w sid
  clear : τ.framed → ∀ sess, w.g.attachSessions.lookup sid = some sess →
    w.Clear sess.streamFd.handle.2 0x01
  calm : τ.calm → w.StdinIdle sid
  single : τ.single → ¬ Adopted sid w.trace ∧ w.Undrained sid

theorem Closable.of_same (hx : Closable τ w sid)
    (hg : w'.g.attachSessions = w.g.attachSessions)
    (he : exitBytes sid w'.trace = exitBytes sid w.trace)
    (ha : ∀ pid fds, .adopted sid pid fds ∈ w'.trace → .adopted sid pid fds ∈ w.trace) :
    Closable τ w' sid := by
  intro sess hs
  rw [hg] at hs
  refine ⟨fun ht => ?_, (hx sess hs).2⟩
  rcases (hx sess hs).1 ht with ⟨code, hdone⟩ | hnone
  · exact .inl ⟨code, he.trans hdone⟩
  · exact .inr fun pid fds hm => hnone pid fds (ha pid fds hm)

theorem Requested.of_untouched (hx : Requested τ w sid) (k : Untouched w w') :
    Requested τ w' sid where
  closable := hx.closable.of_same k.sessions (k.exits sid) (k.adopted sid)
  clear ht sess hs := by
    rw [k.sessions] at hs
    exact (hx.clear ht sess hs).congr (k.frames _) (k.bytes _) k.ops
  calm ht := by
    have hi := hx.calm ht
    unfold World.StdinIdle at hi ⊢
    rw [k.ops]
    exact hi
  single ht := by
    have hs := k.sessions
    obtain ⟨hnew, hidle, hpending⟩ := hx.single ht
    refine ⟨fun ⟨pid, fds, hm⟩ => hnew ⟨pid, fds, k.adopted sid pid fds hm⟩, ?_, ?_⟩
    · rw [k.ops]
      exact hidle
    · rw [hs]
      exact hpending

theorem Requested.kept (hx : Requested τ w sid) (k : Kept w w') : Requested τ w' sid :=
  hx.of_untouched (.of_kept k)

section

variable {sess : AttachSession} {args : RunArgs} {prep : PreparedResources}
  {pty : Option (Fd .pty × Fd .pty)} {log : Option (Fd .pipe × Fd .pipe)}

theorem refuseRun_trail {msg : String} (hx : Requested τ w sid)
    (hs : w.g.attachSessions.lookup sid = some sess) :
    Trail (Move τ) (h, w) w (refuseRun sid sess.streamFd msg) fun _ h' w' =>
      h' = h ∧ w'.g.attachSessions.lookup sid = none := by
  unfold refuseRun
  refine (writeFrameNow_refused hs (fun ht => hx.clear ht sess hs) _).bind fun _ h' w' hw => ?_
  obtain ⟨rfl, hr⟩ := hw
  exact closeSession_trail (hx.closable.of_same (by rw [hr.g]) (hr.exits sid) (hr.adopted sid))

/-- The session after a run has been installed in it. -/
theorem lookup_adopted {f : AttachSession → AttachSession}
    (hs : w.g.attachSessions.lookup sid = some sess) :
    (w.modifySession sid f).g.attachSessions.lookup sid = some (f sess) := by
  change (w.g.attachSessions.update sid f).lookup sid = some (f sess)
  rw [Table.lookup_update_ite, if_pos rfl, hs, Option.map_some]

/-- The response, and the first read of the container's output. -/
theorem answerSession_steady {stream : Fd .stream}
    (hs : w.g.attachSessions.lookup sid = some sess) (hstream : sess.streamFd = stream)
    (hc : τ.framed → w.Clear stream.handle.2 0x01) (hd : τ.single → w.Draining sid)
    (hout : sess.outputFd ≠ none) : Answers τ (h, w) h w sid (do
      armSessionFrame sid stream 0x01 (runResponse pid)
      armSessionOutput sid
      pure true) := by
  refine (armSessionFrame_respond hs hstream hc _).bind fun _ h' w' hw => ?_
  obtain ⟨rfl, hg, hdrain⟩ := hw
  refine (armSessionOutput_steady (fun hnone => ?_) fun ht => hdrain sid (hd ht)).bind
    fun _ h' _ hh => Trail.pure ⟨hh, fun hr => by cases hr⟩
  rw [hg, hs] at hnone
  exact (hout hnone).elim

/-- Once the session has its container, its output is there to be drained. -/
theorem World.Draining.adopt {f : AttachSession → AttachSession} {fds : List Handle}
    (hu : w.Undrained sid) (hf : ∀ sess, (f sess).drainDone = sess.drainDone) :
    ((w.modifySession sid f).note (.adopted sid pid fds)).Draining sid := by
  refine ⟨⟨pid, fds, by simp [World.note]⟩, hu.1, fun sess hs => ?_⟩
  have hs' : (w.modifySession sid f).g.attachSessions.lookup sid = some sess := hs
  obtain ⟨s, hsess, rfl⟩ := lookup_modifySession hs'
  exact (hf s).trans (hu.2 s hsess)

/-- The session gets its container and answers the client. -/
theorem runSession_steady (hs : w.g.attachSessions.lookup sid = some sess)
    (hrun : τ.told → exitOf pid w.trace = none) (hx : Requested τ w sid)
    (hout : pty.isSome || log.isSome) :
    Answers τ (holdFresh (firstHandles pty ++ firstHandles log) ++ h, w) h w sid (do
      modifySession sid fun sess =>
        { sess with ptmFd := firstOf pty, logReadFd := firstOf log, containerPid := pid }
      note (.adopted sid pid (firstHandles pty ++ firstHandles log))
      armSessionFrame sid sess.streamFd 0x01 (runResponse pid)
      armSessionOutput sid
      pure true) := by
  refine Trail.modify_bind (note_bind ?_)
  refine Trail.commit (.adoptRun hs hrun hx.calm (hx.closable sess hs).2 hx.single) ?_
  have hl : ∀ e, ((w.modifySession sid fun sess => { sess with
      ptmFd := firstOf pty, logReadFd := firstOf log, containerPid := pid }).note
      e).g.attachSessions.lookup sid = some { sess with
        ptmFd := firstOf pty, logReadFd := firstOf log, containerPid := pid } :=
    fun _ => lookup_adopted hs
  refine answerSession_steady (hl _) rfl (fun ht => ?_) (fun ht => ?_) ?_
  · have hclear : (w.modifySession sid fun sess => { sess with
        ptmFd := firstOf pty, logReadFd := firstOf log, containerPid := pid }).Clear
        sess.streamFd.handle.2 0x01 := hx.clear ht sess hs
    exact hclear.note rfl rfl
  · exact .adopt (hx.single ht).2 fun _ => rfl
  · unfold AttachSession.outputFd
    cases pty with
    | some pair => simp [firstOf]
    | none =>
      cases log with
      | some pair => simp [firstOf, RawFd.handle]
      | none => cases hout

/-- A pty or a log pipe: where the session reads its container's output. -/
theorem startAttached_steady (hc : Cloned τ w pid) (hx : Requested τ w sid)
    (hs : w.g.attachSessions.lookup sid = some sess) (hout : pty.isSome || log.isSome) :
    Answers τ (holdFresh (pairHandles log ++ (pairHandles pty ++ prepHandles prep)) ++ h, w) h w sid
      (startAttached sid sess.streamFd args prep pty log pid) := by
  have hsplit : ((secondHandles pty ++ firstHandles prep.deathPipe) ++ (signalHandles prep ++
      (secondHandles prep.deathPipe ++ (firstHandles pty ++ pairHandles log)))).Perm
      (pairHandles log ++ (pairHandles pty ++ prepHandles prep)) := by
    rw [List.perm_iff_count]
    intro d
    simp only [prepHandles, pairHandles, List.count_append]
    omega
  unfold startAttached
  refine (closeRest _ hsplit).bind fun _ h' w₁ hw => ?_
  obtain ⟨rfl, hk₁⟩ := hw
  rw [← holdFresh_append]
  refine parentSetupMapsAndSignal_calls.bind fun r h' w₂ hw => ?_
  obtain ⟨rfl, hk₂⟩ := hw
  cases r with
  | error e =>
    refine (closeRest _ (List.Perm.refl _)).bind fun _ h' w₃ hw => ?_
    obtain ⟨rfl, hk₃⟩ := hw
    have hk := (hk₁.trans hk₂).trans hk₃
    refine (refuseRun_trail (hx.kept hk) (by rw [hk.g]; exact hs)).bind fun _ h' w₄ hw => ?_
    obtain ⟨rfl, hgone⟩ := hw
    refine (closeLast (pairHandles log) (List.Perm.refl _)).bind fun _ h' w₅ hw => ?_
    exact Trail.pure ⟨hw.1, fun _ => by rw [hw.2.g]; exact hgone⟩
  | ok _ =>
    have hsplit' : (secondHandles log ++ (secondHandles prep.deathPipe ++ (firstHandles pty ++
        firstHandles log))).Perm (secondHandles prep.deathPipe ++ (firstHandles pty ++
          pairHandles log)) := by
      rw [List.perm_iff_count]
      intro d
      simp only [pairHandles, List.count_append]
      omega
    refine (closeRest _ hsplit').bind fun _ h' w₃ hw => ?_
    obtain ⟨rfl, hk₃⟩ := hw
    refine now_spares.bind fun startTime h' w₄ hw => ?_
    obtain ⟨rfl, hk₄⟩ := hw
    have hk := ((hk₁.trans hk₂).trans hk₃).trans hk₄
    have hc₄ := hc.kept hk
    have hx₄ := hx.kept hk
    have hs₄ : w₄.g.attachSessions.lookup sid = some sess := by
      rw [hk.g]
      exact hs
    set info := ContainerInfo.new pid args prep startTime none none with hinfo
    have hhandles : info.handles = secondHandles prep.deathPipe := by
      rw [hinfo, handles_new]
      rfl
    rw [← hhandles, ← holdFresh_append]
    refine Trail.modify_bind ?_
    refine Trail.commit (.installAttached rfl rfl hc₄.member hc₄.fresh hc₄.novel) ?_
    refine runSession_steady hs₄ ?_ (hx₄.of_untouched ?_) hout
    · rw [World.note, exitOf_append]
      exact fun _ => hc₄.running
    · exact .of_entry rfl rfl rfl (fun _ => rfl) (fun _ => rfl) (fun _ => rfl) (by simp)

theorem handleRunAttach_answers (hn : CloneNew τ w) (hx : Requested τ w sid) :
    Answers τ (h, w) h w sid (handleRunAttach sid args) := by
  unfold handleRunAttach
  refine findSession_bind ?_
  cases hs : w.g.attachSessions.lookup sid with
  | none => exact Trail.pure ⟨rfl, fun _ => hs⟩
  | some sess =>
    refine prepareRun_calls.bind fun r h' w₁ hw => ?_
    obtain ⟨rfl, hk₁⟩ := hw
    cases r with
    | error e =>
      refine (refuseRun_trail (hx.kept hk₁) (by rw [hk₁.g]; exact hs)).bind fun _ h' _ hw => ?_
      exact Trail.pure ⟨hw.1, fun _ => hw.2⟩
    | ok prep =>
      refine openWhen_calls.bind fun r h' w₂ hw => ?_
      obtain ⟨⟨rfl, hk₂⟩, hpty⟩ := hw
      have hk := hk₁.trans hk₂
      cases r with
      | error e =>
        refine (refuseRun_trail (hx.kept hk) (by rw [hk.g]; exact hs)).bind fun _ h' _ hw => ?_
        obtain ⟨rfl, hgone⟩ := hw
        refine (closeLast (pairHandles prep.deathPipe) (List.Perm.refl _)).bind fun _ h' _ hw => ?_
        exact Trail.pure ⟨hw.1, fun _ => by rw [hw.2.g]; exact hgone⟩
      | ok pty =>
        refine openWhen_calls.bind fun r h' w₃ hw => ?_
        obtain ⟨⟨rfl, hk₃⟩, hlog⟩ := hw
        have hk' := hk.trans hk₃
        simp only [okHandles, holdFresh_append]
        cases r with
        | error e =>
          refine (refuseRun_trail (hx.kept hk') (by rw [hk'.g]; exact hs)).bind
            fun _ h' _ hw => ?_
          obtain ⟨rfl, hgone⟩ := hw
          refine (closeLast (pairHandles pty ++ pairHandles prep.deathPipe) ?_).bind
            fun _ h' _ hw => Trail.pure ⟨hw.1, fun _ => by rw [hw.2.g]; exact hgone⟩
          rw [List.perm_iff_count]
          intro d
          simp only [prepHandles, signalHandles, List.count_append, List.nil_append]
          omega
        | ok log =>
          refine (clone3Container_trail (hn.kept hk')).bind fun r h' w₄ hw => ?_
          obtain ⟨rfl, hu, hr⟩ := hw
          have hx₄ := (hx.kept hk').of_untouched hu
          have hs₄ : w₄.g.attachSessions.lookup sid = some sess := by
            rw [hu.sessions, hk'.g]
            exact hs
          cases r with
          | error e =>
            refine (closeRest (pairHandles pty ++ signalHandles prep) ?_).bind fun _ h' w₅ hw => ?_
            · rw [List.perm_iff_count]
              intro d
              simp only [prepHandles, List.count_append]
              omega
            · obtain ⟨rfl, hk₅⟩ := hw
              refine (refuseRun_trail (hx₄.kept hk₅) (by rw [hk₅.g]; exact hs₄)).bind
                fun _ h' _ hw => ?_
              obtain ⟨rfl, hgone⟩ := hw
              refine (closeRest _ (List.Perm.refl _)).bind fun _ h' _ hw => ?_
              obtain ⟨rfl, hk₆⟩ := hw
              exact closeFresh_spares.bind fun _ h' _ hw =>
                Trail.pure ⟨hw.1, fun _ => by rw [(hk₆.trans hw.2).g]; exact hgone⟩
          | ok pid =>
            simp only
            refine startAttached_steady hr hx₄ hs₄ ?_
            rw [hpty pty rfl, hlog log rfl]
            cases args.tty <;> cases args.interactive <;> rfl

end

theorem newPipeId_bind {β : Type} {b : List Token × World} {f : ℕ → M β}
    {P : β → List Token → World → Prop}
    (hf : Trail (Move τ) b { w with g.nextPipeId := w.g.nextPipeId + 1 } (f w.g.nextPipeId) P) :
    Trail (Move τ) b w (newPipeId >>= f) P := by
  unfold newPipeId
  rw [bind_assoc]
  refine Trail.get_bind ?_
  rw [bind_assoc]
  refine Trail.modify_bind ?_
  rw [pure_bind]
  exact hf

theorem modifySession_of_none {f : AttachSession → AttachSession}
    (hs : w.g.attachSessions.lookup sid = none) : w.modifySession sid f = w := by
  unfold World.modifySession
  rw [Table.update_of_none hs]

structure Attachable (τ : Terms) (w : World) (sid : ℕ) (pid : Pid) : Prop where
  told : τ.told → w.g.containers.lookup pid ≠ none → exitOf pid w.trace = none
  listed : τ.tidy → w.g.containers.lookup pid ≠ none → w.g.attachSessions.lookup sid ≠ none

section

variable {info : ContainerInfo} {read write : Fd .pipe}

theorem attachSession_trail {m : M Bool} {f : AttachSession → AttachSession}
    {P : Bool → List Token → World → Prop} (hx : Requested τ w sid) (ha : Attachable τ w sid pid)
    (hi : w.g.containers.lookup pid = some info)
    (hf : f = ({ · with logReadFd := some read, inputFd := info.input, containerPid := pid }))
    (hm : ∀ w', w'.g.attachSessions.lookup sid = (w.g.attachSessions.lookup sid).map f →
      (∀ sess, w.g.attachSessions.lookup sid = some sess → τ.framed →
        w'.Clear sess.streamFd.handle.2 0x01) → (τ.single → w'.Draining sid) → Trail (Move τ) (h, w') w' m P) :
    Trail (Move τ) (holdFresh [write.handle, read.handle] ++ h, w) w (do
      let pipeId ← newPipeId
      attachPipe pid pipeId write
      modifySession sid f
      note (.adopted sid pid [read.handle, write.handle])
      m) P := by
  have hpid : w.g.containers.lookup pid ≠ none := by
    rw [hi]
    exact Option.some_ne_none info
  refine newPipeId_bind (Trail.modify_bind (Trail.modify_bind (note_bind ?_)))
  change Trail (Move τ) (holdFresh [write.handle, read.handle] ++ h, w)
    (((w.attachPipe pid w.g.nextPipeId write).modifySession sid f).note
      (.adopted sid pid [read.handle, write.handle])) m P
  have hlook : (((w.attachPipe pid w.g.nextPipeId write).modifySession sid f).note
      (.adopted sid pid [read.handle, write.handle])).g.attachSessions.lookup sid =
      (w.g.attachSessions.lookup sid).map f := by
    change (w.g.attachSessions.update sid f).lookup sid = _
    rw [Table.lookup_update_ite, if_pos rfl]
  refine Trail.commit ?_ (hm _ hlook (fun sess hs ht => ?_) fun ht => ?_)
  · cases hs : w.g.attachSessions.lookup sid with
    | none =>
      have hgone : ¬ τ.tidy := fun ht => ha.listed ht hpid hs
      have hs' : (w.attachPipe pid w.g.nextPipeId write).g.attachSessions.lookup sid = none := hs
      rw [modifySession_of_none hs']
      exact .attachGone hs hi hgone
    | some sess =>
      subst hf
      exact .adoptAttach hs hi (fun ht => ha.told ht hpid) hx.calm
        (fun ht => ((hx.closable sess hs).2 ht).2) hx.single
  · have hclear : ((w.attachPipe pid w.g.nextPipeId write).modifySession sid f).Clear
        sess.streamFd.handle.2 0x01 := hx.clear ht sess hs
    exact hclear.note rfl rfl
  · have hu : (w.attachPipe pid w.g.nextPipeId write).Undrained sid := (hx.single ht).2
    exact .adopt hu fun sess => by rw [hf]

theorem handleAttach_answers (hx : Requested τ w sid) (ha : Attachable τ w sid pid) :
    Answers τ (h, w) h w sid (handleAttach sid pid) := by
  unfold handleAttach
  refine findContainer_bind ?_
  cases hi : w.g.containers.lookup pid with
  | none =>
    refine findSession_bind ?_
    cases hs : w.g.attachSessions.lookup sid with
    | none =>
      exact (closeSession_trail hx.closable).bind fun _ _ _ hw => Trail.pure ⟨hw.1, fun _ => hw.2⟩
    | some sess =>
      refine (writeFrameNow_refused hs (fun ht => hx.clear ht sess hs) _).bind fun _ h' w' hw => ?_
      obtain ⟨rfl, hr⟩ := hw
      refine (closeSession_trail ?_).bind fun _ _ _ hw => Trail.pure ⟨hw.1, fun _ => hw.2⟩
      exact hx.closable.of_same (by rw [hr.g]) (hr.exits sid) (hr.adopted sid)
  | some info =>
    refine openPair_calls.bind fun r h' w₁ hw => ?_
    obtain ⟨rfl, hk⟩ := hw
    cases r with
    | error e =>
      exact (closeSession_trail (hx.kept hk).closable).bind fun _ _ _ hw =>
        Trail.pure ⟨hw.1, fun _ => hw.2⟩
    | ok pair =>
      have hi₁ : w₁.g.containers.lookup pid = some info := by
        rw [hk.g]
        exact hi
      have ha₁ : Attachable τ w₁ sid pid := by
        constructor
        · rw [hk.g, hk.exitOf]
          exact ha.told
        · rw [hk.g]
          exact ha.listed
      refine attachSession_trail (hx.kept hk) ha₁ hi₁ rfl fun w₂ hlook hclear hdrain => ?_
      refine findSession_bind ?_
      rw [hlook]
      cases hs : w₁.g.attachSessions.lookup sid with
      | none =>
        refine (closeSession_trail fun sess hs' => ?_).bind fun _ _ _ hw =>
          Trail.pure ⟨hw.1, fun _ => hw.2⟩
        rw [hlook, hs] at hs'
        cases hs'
      | some sess =>
        rw [hs] at hlook
        refine answerSession_steady hlook rfl (hclear sess hs) hdrain ?_
        unfold AttachSession.outputFd
        cases sess.ptmFd <;> simp [RawFd.handle]

end

/-- The backlog is written in full, or a write took nothing. -/
theorem writeBacklog_trail {fd : Fd .pipe} {fuel : ℕ} {b backlog : Bytes}
    (hf : w.file (some fd.handle) = some fd.handle.2) :
    Trail (Move τ) (.fresh fd.handle b :: h, w) w (writeBacklog fd.handle fuel backlog)
      fun r h' w' => w'.g = w.g ∧ ∃ c, h' = .fresh fd.handle c :: h ∧ (r = .ok () →
        c = b ++ backlog ∨ ∃ f, .wroteNow f [] ∈ w'.trace ∧ f.kind = .pipe) := by
  induction fuel generalizing w b backlog with
  | zero => exact Trail.throw
  | succ fuel ih =>
    unfold writeBacklog
    refine Trail.ite (fun hnil => Trail.pure ⟨rfl, b, rfl, fun _ => .inl (by simp [hnil])⟩) fun _ => ?_
    unfold writeNow
    rw [bind_assoc]
    refine ask_bind fun a as ha => Trail.move (idle_answers as) ?_
    clear ha
    split
    · rename_i n
      rw [bind_assoc]
      refine Trail.get_bind ?_
      have hf' : World.file { w with answers := as } (some fd.handle) = some fd.handle.2 := hf
      rw [hf']
      simp only
      split_ifs with hn
      · rw [bind_assoc]
        refine note_bind (Trail.move (.writeNow (c := backlog.take n) rfl hf') ?_)
        rw [pure_bind]
        cases n with
        | zero =>
          refine Trail.pure ⟨rfl, _, rfl, fun _ => .inr ⟨fd.handle.2, ?_, rfl⟩⟩
          simp [World.note]
        | succ n =>
          refine (ih ?_).post fun r h' w' hw => ?_
          · exact hf
          · obtain ⟨hg, c, rfl, hc⟩ := hw
            refine ⟨hg, c, rfl, fun hr => ?_⟩
            have htake : b ++ backlog.take (n + 1) ++ backlog.drop (n + 1) = b ++ backlog := by
              rw [List.append_assoc, List.take_append_drop]
            rw [← htake]
            exact hc hr
      · exact Trail.throw
    · rw [pure_bind]
      exact Trail.pure ⟨rfl, b, rfl, fun hr => by cases hr⟩
    · exact Trail.throw

theorem handleFollow_steady {sender : ℕ} : Steady τ h w (handleFollow sender pid) := by
  unfold handleFollow
  refine findContainer_bind ?_
  cases hi : w.g.containers.lookup pid with
  | none => exact replyDatagram_spares.post fun _ _ _ hw => hw.1
  | some info =>
    refine openPair_trail.bind fun r h' w₁ hw => ?_
    obtain ⟨⟨rfl, hk⟩, hfile⟩ := hw
    cases r with
    | error e => exact replyDatagram_spares.post fun _ _ _ hw => hw.1
    | ok pair =>
      obtain ⟨read, write⟩ := pair
      refine (writeBacklog_trail (b := []) (hfile _ rfl)).bind fun r h' w₂ hw => ?_
      obtain ⟨hg, c, rfl, hc⟩ := hw
      cases r with
      | error e =>
        refine Trail.modify_bind (Trail.commit (.release rfl) ?_)
        exact Trail.modify_bind (Trail.commit (.release rfl) (Trail.pure rfl))
      | ok _ =>
        have hi₂ : w₂.g.containers.lookup pid = some info := by
          rw [hg, hk.g]
          exact hi
        refine newPipeId_bind (Trail.modify_bind (note_bind ?_))
        refine Trail.commit (.followPipe hi₂ (hc rfl)) ?_
        refine call_calls.bind fun r h' w₃ hw => ?_
        obtain ⟨rfl, hk₃⟩ := hw
        cases r with
        | error e => exact Trail.update (.starved .followSend) rfl
        | ok _ =>
          refine Trail.get_bind (submit_discard fun as ok _ => Trail.move (idle_answers as) ?_)
          cases ok with
          | true => exact Trail.commit .passFd (Trail.pure rfl)
          | false => exact Trail.commit (.denied .followSend) (Trail.pure rfl)

/-- A child to be killed that still has drains running has not been reaped. -/
def KillFits (τ : Terms) (w : World) (pid : Pid) : Prop :=
  τ.known → ∀ info, w.g.containers.lookup pid = some info → 0 < info.drainsPending →
    pid ∈ w.children

theorem handleKill_steady {sender : ℕ} (hx : KillFits τ w pid) :
    Steady τ h w (handleKill sender pid) := by
  unfold handleKill
  refine findContainer_bind ?_
  cases hi : w.g.containers.lookup pid with
  | none => exact replyDatagram_spares.post fun _ _ _ hw => hw.1
  | some info =>
    refine note_bind (Trail.commit (.killed hi fun ht => hx ht info hi) ?_)
    refine call_calls.bind fun r h' w₁ hw => ?_
    obtain ⟨rfl, hk⟩ := hw
    cases r <;> exact replyDatagram_spares.post fun _ _ _ hw => hw.1

theorem handleLogs_steady {sender : ℕ} : Steady τ h w (handleLogs sender pid) := by
  unfold handleLogs
  refine Trail.get_bind ?_
  simp only
  split <;> exact replyDatagram_spares.post fun _ _ _ hw => hw.1

theorem handleList_steady {sender : ℕ} : Steady τ h w (handleList sender) := by
  unfold handleList
  refine now_spares.bind fun t h' w' hw => ?_
  obtain ⟨rfl, hk⟩ := hw
  exact Trail.get_bind (replyDatagram_spares.post fun _ _ _ hw => hw.1)

structure RequestFits (τ : Terms) (w : World) (request : Request) : Prop where
  clone : ∀ args, request = .run args → CloneNew τ w
  kill : ∀ pid, request = .kill pid → KillFits τ w pid

theorem handleDatagram_steady {sender : ℕ} {request : Request} (hx : RequestFits τ w request) :
    Steady τ h w (handleDatagram sender request) := by
  unfold handleDatagram
  split
  · exact handleRun_steady (hx.clone _ rfl)
  · exact handleList_steady
  · exact handleKill_steady (hx.kill _ rfl)
  · refine Trail.ite (fun _ => handleFollow_steady) fun _ => handleLogs_steady
  · exact replyDatagram_spares.post fun _ _ _ hw => hw.1

end Conrt.Daemon
