import Conrt.Daemon.SessionMoves

/-! The moves of the output drains, the follow pipes, and the reaper. -/
namespace Conrt.Daemon

open Conrt.Base

variable {τ : Terms} {h : List Token} {w w' : World} {pid : Pid} {info : ContainerInfo}

def ContainerInfo.overlayTokens (info : ContainerInfo) : List Token :=
  info.overlay.toList.map .overlay

/-- What retiring does once the container has left the table. -/
theorem retire_trail {b : List Token × World} {fds : List Handle}
    (hp : Path τ b (hold (fds ++ info.gateway.handles) ++ (info.overlayTokens ++ h),
      w.buryContainer pid info)) :
    Trail (Move τ) b w (retire pid info fds) fun _ h' w' =>
      h' = h ∧ Kept (w.buryContainer pid info) w' := by
  unfold retire
  refine Trail.modify_bind (Trail.moves hp ?_)
  refine closeHeld_spares.bind fun _ h' w' hw => ?_
  obtain ⟨rfl, hk⟩ := hw
  unfold ContainerInfo.overlayTokens ContainerInfo.overlay
  cases info.overlayDir with
  | none => exact Trail.pure ⟨by simp, hk⟩
  | some dir =>
    cases info.save with
    | true => exact Trail.pure ⟨by simp, hk⟩
    | false => exact Trail.update .unmount ⟨rfl, hk.trans (.note trivial)⟩

/-- Leaving descriptors behind, if there are any. -/
theorem leakHeld (hs : List Handle) (hl : τ.tidy → hs = []) : Path τ (hold hs ++ h, w) (h, w) := by
  by_cases ht : τ.tidy
  · rw [hl ht]
    exact .refl
  · clear hl
    induction hs with
    | nil => exact .refl
    | cons d hs ih => exact (Relation.ReflTransGen.single (.leak ht)).trans ih

/-- The last drain of the container may end now. -/
def DrainCloses (τ : Terms) (w : World) (pid : Pid) : Prop :=
  ∀ info, w.g.containers.lookup pid = some info → info.drainsPending ≤ 1 →
    (τ.outlived → pid ∉ w.children) ∧ (τ.tidy → info.deathPipeWrite = none)

private theorem handles_perm (info : ContainerInfo) :
    (RawFd.handles info.deathPipeWrite ++ (RawFd.handles info.ptmFd ++
      RawFd.handles info.stdinFd ++ info.gateway.handles)).Perm info.handles := by
  unfold ContainerInfo.handles
  rw [← List.append_assoc]
  exact (List.perm_append_comm).append_right _

theorem finishDrain_steady {kind : Drain} {lineBuf : Bytes} {ended : Bool}
    (hx : DrainCloses τ w pid) :
    Trail (Move τ) (.drain kind pid [] lineBuf ended :: h, w) w (finishDrain pid)
      fun _ h' _ => h' = h := by
  unfold finishDrain
  refine findContainer_bind ?_
  cases hi : w.g.containers.lookup pid with
  | none => exact Trail.move (.drainGone hi) (Trail.pure rfl)
  | some info =>
    refine Trail.ite (fun hlt => ?_) fun hle => ?_
    · exact Trail.update (.drainEnds hi (by omega)) rfl
    · have hle' : info.drainsPending ≤ 1 := by omega
      obtain ⟨houtlived, htidy⟩ := hx info hi hle'
      refine (retire_trail ?_).post fun _ h' w' hw => hw.1
      refine (Relation.ReflTransGen.single (.buryDrained hi hle' houtlived)).trans ?_
      refine (Relation.ReflTransGen.single (.perm ?_)).trans
        (leakHeld (RawFd.handles info.deathPipeWrite) fun ht => by rw [htidy ht]; rfl)
      rw [← List.append_assoc]
      have hperm : (hold (RawFd.handles info.deathPipeWrite) ++ hold (RawFd.handles info.ptmFd ++
          RawFd.handles info.stdinFd ++ info.gateway.handles)).Perm (hold info.handles) := by
        unfold hold
        rw [← List.map_append]
        exact (handles_perm info).map _
      exact hperm.append_right _

theorem completeWrite_steady {pipeId : ℕ} {ok : Bool} :
    Trail (Move τ) (.written pid pipeId ok :: h, w) w (completeWrite pid pipeId ok)
      fun _ h' _ => h' = h := by
  unfold completeWrite
  refine findContainer_bind ?_
  cases hi : w.g.containers.lookup pid with
  | none => exact Trail.move (.writtenGone hi) (Trail.pure rfl)
  | some info =>
    refine Trail.modify_bind (Trail.commit (.wrote hi) ?_)
    exact closeHeld_spares.post fun _ h' w' hw => hw.1

theorem onFollowWrite_completes {id : ℕ} {op : InFlight} {r : Result} {pipeId : ℕ} {fd : Fd .pipe}
    {chunks : List Bytes} (hop : w.findOp id = some op)
    (hloc : op.loc = .followWrite pid pipeId fd chunks) (hr : op.result = some r)
    (hlive : τ.live → op.loc.continues r → w.backed op.loc) :
    Completes τ h w id (onFollowWrite pid pipeId fd chunks r) := by
  have htokens : op.loc.tokens r = [.written pid pipeId (op.loc.finished r)] := by
    rw [hloc]
    rfl
  have hdone : ∀ ok, op.loc.finished r = ok →
      Completes τ h w id (completeWrite pid pipeId ok) := by
    intro ok hok
    refine retire_completes hop hr (.inl (by rw [hloc]; rfl)) ?_
    rw [htokens, hok]
    exact completeWrite_steady
  unfold onFollowWrite
  split
  · rename_i n
    split
    · rename_i hadv
      refine hdone true ?_
      rw [hloc]
      simp [OpLocal.finished, hadv]
    · rename_i chunk rest hadv
      have hfin : op.loc.finished (.count n) = false := by
        rw [hloc]
        simp [OpLocal.finished, hadv]
      have hres : Resumes w.stdinFd n op.loc (.followWrite pid pipeId fd (chunk :: rest))
          fd.handle := hloc ▸ .follow hadv
      have hcont : τ.live → w.backed op.loc := fun ht => hlive ht (by
        rw [hloc]
        simp [OpLocal.continues, hadv])
      refine submit_discard fun as ok _ => Trail.move (idle_answers as) ?_
      cases ok with
      | true => exact Trail.commit (.resume hop hr hres hcont) (Trail.pure rfl)
      | false =>
        have hfollow : op.loc.loose = false := by
          rw [hloc]
          rfl
        refine Trail.move (.retire hop hr fun hl => ?_) ?_
        · rw [hfollow] at hl
          cases hl
        rw [htokens, hfin]
        exact Trail.commit (.denied .written) (Trail.pure rfl)
  · rename_i hno
    refine hdone false ?_
    rw [hloc]
    cases r with
    | count n => exact (hno n rfl).elim
    | _ => rfl

private theorem pipeFd_registered {gateway : LogGateway} {id : ℕ} {fd : Fd .pipe}
    (hi : w.g.containers.lookup pid = some info) (hg : info.gateway = gateway)
    (hfd : gateway.pipeFd id = some fd) : w.Registered pid id fd := by
  obtain ⟨p, hp, rfl⟩ := Option.map_eq_some_iff.mp hfd
  have hid : p.id = id := by simpa using List.find?_some hp
  exact ⟨info, hi, p, hg ▸ List.mem_of_find?_eq_some hp, hid, rfl⟩

private theorem splitLine_ne_nil (stale line : Bytes) : splitLine stale line ≠ [] := by
  unfold splitLine splitFrom
  simp only
  split_ifs <;> simp

theorem followLine_trail {line : Bytes} {target : ℕ × Fd .pipe}
    (hreg : w.Registered pid target.1 target.2) :
    Trail (Move τ) (.line pid target.1 line :: h, w) w (followLine pid line target)
      fun _ h' w' => h' = h ∧ w'.g = w.g := by
  unfold followLine
  refine staleBytes_spares.bind fun stale h' w' hw => ?_
  obtain ⟨rfl, hk⟩ := hw
  unfold armFollowWrite
  split
  · rename_i hnil
    exact (splitLine_ne_nil _ _ hnil).elim
  · have hreg' : w'.Registered pid target.1 target.2 := by
      unfold World.Registered
      rw [hk.g]
      exact hreg
    refine submit_discard fun as ok _ => Trail.move (idle_answers as) ?_
    cases ok with
    | true => exact Trail.commit (.follow hreg') (Trail.pure ⟨rfl, hk.g⟩)
    | false => exact Trail.commit (.denied .line) (Trail.pure ⟨rfl, hk.g⟩)

theorem followTargets_steady {line : Bytes} {targets : List (ℕ × Fd .pipe)}
    (hreg : ∀ t ∈ targets, w.Registered pid t.1 t.2) :
    Trail (Move τ) ((targets.map fun t => .line pid t.1 line) ++ h, w) w
      (forEach (followLine pid line) targets) fun _ h' _ => h' = h := by
  induction targets generalizing w with
  | nil => exact Trail.pure rfl
  | cons t targets ih =>
    refine (followLine_trail (hreg t List.mem_cons_self)).bind fun _ h' w' hw => ?_
    obtain ⟨rfl, hg⟩ := hw
    refine ih fun t' ht' => ?_
    unfold World.Registered
    rw [hg]
    exact hreg t' (List.mem_cons_of_mem t ht')

theorem lookup_modifyContainer {f : ContainerInfo → ContainerInfo}
    (hi : w.g.containers.lookup pid = some info) :
    (w.modifyContainer pid f).g.containers.lookup pid = some (f info) := by
  change (w.g.containers.update pid f).lookup pid = some (f info)
  rw [Table.lookup_update_ite, if_pos rfl, hi, Option.map_some]

section

variable {kind : Drain} {lineBuf : Bytes}

theorem writeLine_trail {line : Bytes} {lines : List Bytes} :
    Trail (Move τ) (.drain kind pid (line :: lines) lineBuf false :: h, w) w (writeLine pid line)
      fun _ h' _ => h' = .drain kind pid lines lineBuf false :: h := by
  unfold writeLine
  refine findContainer_bind ?_
  cases hi : w.g.containers.lookup pid with
  | none =>
    refine Trail.get_bind ?_
    split
    · rename_i cache hc
      exact Trail.ofOption_bind fun cache' hpush => Trail.update (.pushBuried hi hc hpush) rfl
    · rename_i hc
      exact Trail.move (.pushLost hi hc) (Trail.pure rfl)
  | some info =>
    refine Trail.ofOption_bind fun res hpush => ?_
    obtain ⟨gateway, ids⟩ := res
    refine Trail.modify_bind (Trail.commit (.pushLine hi hpush) ?_)
    refine followTargets_steady fun target htarget => ?_
    obtain ⟨id, -, hid⟩ := List.mem_filterMap.mp htarget
    obtain ⟨fd, hfd, rfl⟩ := Option.map_eq_some_iff.mp hid
    have hi' := lookup_modifyContainer (f := ({ · with gateway := gateway })) hi
    exact pipeFd_registered hi' rfl hfd

theorem writeLines_trail {lines : List Bytes} :
    Trail (Move τ) (.drain kind pid lines lineBuf false :: h, w) w (writeLines pid lines)
      fun _ h' _ => h' = .drain kind pid [] lineBuf false :: h := by
  induction lines generalizing w with
  | nil => exact Trail.pure rfl
  | cons line lines ih =>
    refine writeLine_trail.bind fun _ h' w' hw => ?_
    rw [hw]
    exact ih

end

section

variable {β : Type} {b : List Token × World} {P : β → List Token → World → Prop}

theorem outputFd_bind {f : RawFd .pipe → M β}
    (hf : Trail (Move τ) b w (f ((w.g.outputs.lookup pid).map (·.fd))) P) :
    Trail (Move τ) b w (outputFd pid >>= f) P := by
  unfold outputFd
  rw [bind_assoc]
  refine Trail.get_bind ?_
  rw [pure_bind]
  exact hf

theorem containerPtm_bind {f : RawFd .pty → M β}
    (hf : Trail (Move τ) b w (f ((w.g.containers.lookup pid).bind (·.ptmFd))) P) :
    Trail (Move τ) b w (containerPtm pid >>= f) P := by
  unfold containerPtm
  rw [bind_assoc]
  refine findContainer_bind ?_
  rw [pure_bind]
  exact hf

end

theorem drain_steady {kind : Drain} {lineBuf : Bytes} {loc : OpLocal} {fd : Option Handle}
    {want : ℕ} (hloc : loc = kind.loc pid lineBuf) (hfd : fd = w.drainFd pid kind) :
    Trail (Move τ) (.drain kind pid [] lineBuf false :: h, w) w (discard <| submit loc fd want)
      fun _ h' w' => h' = h ∧ w'.g = w.g ∧ w'.children = w.children := by
  subst hloc hfd
  refine submit_discard fun as ok _ => Trail.move (idle_answers as) ?_
  cases ok with
  | true => exact Trail.commit .rearm (Trail.pure ⟨rfl, rfl, rfl⟩)
  | false => exact Trail.commit (.denied .drain) (Trail.pure ⟨rfl, rfl, rfl⟩)

/-- Taking a drain's descriptor out leaves the other things that decide how it may end. -/
theorem DrainCloses.of_same (hx : DrainCloses τ w pid) (hch : w'.children = w.children)
    (hi : ∀ info', w'.g.containers.lookup pid = some info' →
      ∃ info, w.g.containers.lookup pid = some info ∧ info.drainsPending = info'.drainsPending ∧
        info.deathPipeWrite = info'.deathPipeWrite) : DrainCloses τ w' pid := by
  intro info' hl hle
  obtain ⟨info, hl', hpending, hpipe⟩ := hi info' hl
  rw [hch, ← hpipe]
  exact hx info hl' (hpending ▸ hle)

theorem finishContainerOutput_steady {lineBuf : Bytes} (hx : DrainCloses τ w pid) :
    Trail (Move τ) (.drain .output pid [] lineBuf true :: h, w) w (finishContainerOutput pid)
      fun _ h' _ => h' = h := by
  unfold finishContainerOutput
  refine outputFd_bind ?_
  cases ho : w.g.outputs.lookup pid with
  | none => exact finishDrain_steady hx
  | some o =>
    refine Trail.modify_bind (Trail.commit (.dropOutput ho) ?_)
    refine Trail.modify_bind (Trail.commit (.release rfl) (finishDrain_steady ?_))
    exact hx

theorem finishContainerPtyOutput_steady {lineBuf : Bytes} (hx : DrainCloses τ w pid) :
    Trail (Move τ) (.drain .pty pid [] lineBuf true :: h, w) w (finishContainerPtyOutput pid)
      fun _ h' _ => h' = h := by
  unfold finishContainerPtyOutput
  refine containerPtm_bind ?_
  cases hp : (w.g.containers.lookup pid).bind (·.ptmFd) with
  | none => exact finishDrain_steady hx
  | some fd =>
    obtain ⟨info, hi, hfd⟩ := Option.bind_eq_some_iff.mp hp
    refine Trail.modify_bind (Trail.commit (.dropPtm hi hfd) ?_)
    refine Trail.modify_bind (Trail.commit (.release rfl) (finishDrain_steady ?_))
    refine hx.of_same rfl fun info' hl => ⟨info, hi, ?_⟩
    have hl' := (lookup_modifyContainer (f := ({ · with ptmFd := none })) hi).symm.trans hl
    obtain rfl := Option.some.inj hl'
    exact ⟨rfl, rfl⟩

theorem drainToken_ended {kind : Drain} {lineBuf : Bytes} {r : Result}
    (hno : ∀ b bs, r ≠ .bytes (b :: bs)) :
    drainToken kind pid lineBuf r = .drain kind pid [] lineBuf true := by
  unfold drainToken
  split
  · rename_i b bs
    exact (hno b bs rfl).elim
  · rfl

section

variable {id : ℕ} {op : InFlight} {r : Result} {lineBuf : Bytes}

theorem onContainerOutput_completes (hop : w.findOp id = some op)
    (hloc : op.loc = .containerOutput pid lineBuf) (hr : op.result = some r)
    (hx : (∀ b bs, r ≠ .bytes (b :: bs)) → DrainCloses τ w pid) :
    Completes τ h w id (onContainerOutput pid lineBuf r) := by
  refine retire_completes hop hr (.inl (by rw [hloc]; rfl)) ?_
  rw [hloc]
  unfold onContainerOutput
  split
  · refine writeLines_trail.bind fun _ h' w' hw => ?_
    rw [hw]
    refine outputFd_bind ((drain_steady rfl ?_).post fun _ _ _ hp => hp.1)
    simp [World.drainFd, RawFd.handle, Function.comp_def]
  · rename_i hno
    have htoken : OpLocal.tokens r (.containerOutput pid lineBuf) =
        [.drain .output pid [] lineBuf true] := congrArg (fun t => [t]) (drainToken_ended hno)
    rw [htoken]
    exact finishContainerOutput_steady (hx hno)

theorem onContainerPtyOutput_completes (hop : w.findOp id = some op)
    (hloc : op.loc = .containerPtyOutput pid lineBuf) (hr : op.result = some r)
    (hx : (∀ b bs, r ≠ .bytes (b :: bs)) → DrainCloses τ w pid) :
    Completes τ h w id (onContainerPtyOutput pid lineBuf r) := by
  refine retire_completes hop hr (.inl (by rw [hloc]; rfl)) ?_
  rw [hloc]
  unfold onContainerPtyOutput
  split
  · refine writeLines_trail.bind fun _ h' w' hw => ?_
    rw [hw]
    exact containerPtm_bind ((drain_steady rfl rfl).post fun _ _ _ hp => hp.1)
  · rename_i hno
    have htoken : OpLocal.tokens r (.containerPtyOutput pid lineBuf) =
        [.drain .pty pid [] lineBuf true] := congrArg (fun t => [t]) (drainToken_ended hno)
    rw [htoken]
    exact finishContainerPtyOutput_steady (hx hno)

end

theorem mem_sessionsOf {sid : ℕ} : sid ∈ sessionsOf w pid ↔
    ∃ sess, w.g.attachSessions.lookup sid = some sess ∧ sess.containerPid = pid := by
  unfold sessionsOf
  rw [List.mem_filter]
  constructor
  · rintro ⟨-, hany⟩
    cases hs : w.g.attachSessions.lookup sid with
    | none => simp [hs] at hany
    | some sess => exact ⟨sess, rfl, by simpa [hs] using hany⟩
  · rintro ⟨sess, hs, hpid⟩
    refine ⟨?_, by simp [hs, hpid]⟩
    exact AList.mem_keys.mpr (AList.lookup_isSome.mp (by rw [hs]; rfl))

/-- What a sweep leaves of the state it began in. -/
structure Swept (w w' : World) : Prop where
  ops : w'.ops = w.ops
  answers : w'.answers ⊆ w.answers
  frames : ∀ f, framesOn f w'.trace = framesOn f w.trace
  bytes : ∀ f, bytesOn f w'.trace = bytesOn f w.trace
  sessions : ∀ s sess', w'.g.attachSessions.lookup s = some sess' →
    ∃ sess exited code, w.g.attachSessions.lookup s = some sess ∧
      sess' = { sess with childExited := exited, exitCode := code }
  kept : ∀ s, w'.g.attachSessions.lookup s = none → w.g.attachSessions.lookup s = none

namespace Swept

theorem refl : Swept w w where
  ops := rfl
  answers := List.Subset.refl _
  frames _ := rfl
  bytes _ := rfl
  sessions _ sess hs := ⟨sess, sess.childExited, sess.exitCode, hs, rfl⟩
  kept _ hs := hs

theorem trans {w'' : World} (h₁ : Swept w w') (h₂ : Swept w' w'') : Swept w w'' where
  ops := h₂.ops.trans h₁.ops
  answers _ ha := h₁.answers (h₂.answers ha)
  frames f := (h₂.frames f).trans (h₁.frames f)
  bytes f := (h₂.bytes f).trans (h₁.bytes f)
  sessions s sess'' hs := by
    obtain ⟨sess', exited, code, hs', rfl⟩ := h₂.sessions s sess'' hs
    obtain ⟨sess, _, _, hs₀, rfl⟩ := h₁.sessions s sess' hs'
    exact ⟨sess, exited, code, hs₀, rfl⟩
  kept s hs := h₁.kept s (h₂.kept s hs)

theorem of_kept (k : Kept w w') : Swept w w' where
  ops := k.ops
  answers := k.answers
  frames := k.framesOn
  bytes := k.bytesOn
  sessions _ sess hs := ⟨sess, sess.childExited, sess.exitCode, by rw [← k.g]; exact hs, rfl⟩
  kept _ hs := by rw [← k.g]; exact hs

theorem reap (exitCode : ℤ) (told : Option ℕ) : Swept w (w.reap pid exitCode told) := by
  have htrace : (w.reap pid exitCode told).trace = w.trace ++ [.reaped pid exitCode] := by
    cases told <;> rfl
  constructor
  · cases told <;> rfl
  · cases told <;> exact List.Subset.refl _
  · intro f
    rw [htrace, framesOn_append]
    exact List.append_nil _
  · intro f
    rw [htrace, bytesOn_append]
    exact List.append_nil _
  · intro s sess' hs
    cases told with
    | none => exact ⟨sess', sess'.childExited, sess'.exitCode, hs, rfl⟩
    | some sid =>
      have hl : (w.g.attachSessions.update sid _).lookup s = some sess' := hs
      rw [Table.lookup_update_ite] at hl
      split_ifs at hl with h
      · obtain ⟨sess, hs', rfl⟩ := Option.map_eq_some_iff.mp hl
        exact ⟨sess, true, some exitCode, h ▸ hs', rfl⟩
      · exact ⟨sess', sess'.childExited, sess'.exitCode, hl, rfl⟩
  · intro s hs
    cases told with
    | none => exact hs
    | some sid =>
      have hl : (w.g.attachSessions.update sid _).lookup s = none := hs
      rw [Table.lookup_update_ite] at hl
      split_ifs at hl with h
      · exact h ▸ Option.map_eq_none_iff.mp hl
      · exact hl

theorem bury : Swept w (w.buryContainer pid info) where
  ops := rfl
  answers := List.Subset.refl _
  frames f := by
    change framesOn f (w.trace ++ _) = _
    rw [framesOn_append]
    exact List.append_nil _
  bytes f := by
    change bytesOn f (w.trace ++ _) = _
    rw [bytesOn_append]
    exact List.append_nil _
  sessions _ sess hs := ⟨sess, sess.childExited, sess.exitCode, hs, rfl⟩
  kept _ hs := hs

theorem mem_sessionsOf (k : Swept w w') {s : ℕ} : s ∈ sessionsOf w' pid ↔ s ∈ sessionsOf w pid := by
  rw [Daemon.mem_sessionsOf, Daemon.mem_sessionsOf]
  constructor
  · rintro ⟨sess', hs', hpid⟩
    obtain ⟨sess, exited, code, hs, rfl⟩ := k.sessions s sess' hs'
    exact ⟨sess, hs, hpid⟩
  · rintro ⟨sess, hs, hpid⟩
    cases hs' : w'.g.attachSessions.lookup s with
    | none =>
      rw [k.kept s hs'] at hs
      cases hs
    | some sess' =>
      obtain ⟨sess₀, exited, code, hs₀, rfl⟩ := k.sessions s sess' hs'
      obtain rfl := Option.some.inj (hs.symm.trans hs₀)
      exact ⟨_, rfl, hpid⟩

theorem ownStreams (k : Swept w w') (hown : OwnStreams w) : OwnStreams w' := by
  intro s s' t t' ht ht' heq
  obtain ⟨t₀, _, _, ht₀, rfl⟩ := k.sessions s t ht
  obtain ⟨t₁, _, _, ht₁, rfl⟩ := k.sessions s' t' ht'
  exact hown s s' t₀ t₁ ht₀ ht₁ heq

end Swept

/-- Each child about to be reaped has at most one session. -/
def LoneReaps (w : World) : Prop :=
  ∀ pid status first, Answer.wait (some (pid, status, first)) ∈ w.answers →
    ∀ s ∈ sessionsOf w pid, s = first

/-- The session's exit frame may be started, should it be due once the child has exited. -/
def TellClear (w : World) (s : ℕ) : Prop :=
  ∀ sess, w.g.attachSessions.lookup s = some sess → sess.drainDone = true →
    sess.exitSent = false → w.Clear sess.streamFd.handle.2 0x02

/-- What a sweep relies on. -/
structure Sweepable (τ : Terms) (w : World) : Prop where
  told : τ.told → LoneReaps w
  own : τ.framed → OwnStreams w
  clear : τ.framed → ∀ pid status s, Answer.wait (some (pid, status, s)) ∈ w.answers →
    s ∈ sessionsOf w pid → TellClear w s

theorem TellClear.swept {s : ℕ} (hx : TellClear w s) (k : Swept w w') : TellClear w' s := by
  intro sess' hl hd he
  obtain ⟨sess, exited, code, hs, rfl⟩ := k.sessions s sess' hl
  exact (hx sess hs hd he).congr (k.frames _) (k.bytes _) k.ops

theorem Sweepable.swept (hx : Sweepable τ w) (k : Swept w w') : Sweepable τ w' where
  told ht pid status first ha s hs := hx.told ht pid status first (k.answers ha) s
    (k.mem_sessionsOf.mp hs)
  own ht := k.ownStreams (hx.own ht)
  clear ht pid status s ha hs := (hx.clear ht pid status s (k.answers ha)
    (k.mem_sessionsOf.mp hs)).swept k

/-- One child of the sweep. -/
theorem reapContainer_trail {b : List Token × World} (exitCode : ℤ) (told : Option ℕ)
    (hr : (∀ info, w.g.containers.lookup pid = some info → 0 < info.drainsPending) →
      Move τ b (told.toList.map .check ++ h, w.reap pid exitCode told))
    (hb : ∀ info, w.g.containers.lookup pid = some info → info.drainsPending = 0 →
      Move τ b (hold info.handles ++ (info.overlay.toList.map .overlay ++
        (told.toList.map .check ++ h)), (w.reap pid exitCode told).buryContainer pid info)) :
    Trail (Move τ) b (w.reap pid exitCode told) (reapContainer pid) fun _ h' w' =>
      h' = told.toList.map .check ++ h ∧ Swept (w.reap pid exitCode told) w' := by
  have hg : (w.reap pid exitCode told).g.containers = w.g.containers := by
    cases told <;> rfl
  unfold reapContainer
  refine findContainer_bind ?_
  rw [hg]
  cases hi : w.g.containers.lookup pid with
  | none =>
    refine Trail.commit (hr fun info hi' => ?_) (Trail.pure ⟨rfl, .refl⟩)
    rw [hi] at hi'
    cases hi'
  | some info =>
    refine Trail.ite (fun hpos => ?_) fun hle => ?_
    · refine Trail.commit (hr fun info' hi' => ?_) (Trail.pure ⟨rfl, .refl⟩)
      obtain rfl := Option.some.inj (hi.symm.trans hi')
      exact hpos
    · refine (retire_trail ?_).post fun _ h' w' hw => ⟨hw.1, Swept.bury.trans (.of_kept hw.2)⟩
      exact .single (hb info hi (by omega))

/-- The sessions told so far, with what finishing them relies on. -/
structure Sweeping (τ : Terms) (finished : List ℕ) (h h' : List Token) (w : World) : Prop where
  tokens : h'.Perm (finished.map .check ++ h)
  sweepable : Sweepable τ w
  clear : τ.framed → ∀ s ∈ finished, TellClear w s

theorem Sweeping.swept {finished : List ℕ} {h₀ : List Token} (hx : Sweeping τ finished h₀ h w)
    (k : Swept w w') : Sweeping τ finished h₀ h w' where
  tokens := hx.tokens
  sweepable := hx.sweepable.swept k
  clear ht s hs := (hx.clear ht s hs).swept k

theorem reapLoop_trail {fuel : ℕ} {finished : List ℕ} {h₀ : List Token}
    (hx : Sweeping τ finished h₀ h w) :
    Trail (Move τ) (h, w) w (reapLoop fuel finished) fun finished' h' w' =>
      Sweeping τ finished' h₀ h' w' := by
  induction fuel generalizing w h finished with
  | zero => exact Trail.throw
  | succ fuel ih =>
    unfold reapLoop wait4
    rw [bind_assoc]
    refine ask_bind fun a as ha => Trail.move (idle_answers as) ?_
    have hk : Swept w { w with answers := as } := .of_kept (.spend ha)
    split
    · rw [pure_bind]
      exact Trail.pure (hx.swept hk)
    · rename_i pid status first
      rw [bind_assoc]
      refine Trail.get_bind ?_
      have htold : τ.told → ∀ s ∈ sessionsOf w pid, s = first := fun ht =>
        hx.sweepable.told ht pid status first (by rw [ha]; exact List.mem_cons_self)
      split_ifs with hc hfirst
      · rw [bind_assoc]
        refine Trail.modify_bind ?_
        rw [pure_bind]
        refine Trail.modify_bind ((reapContainer_trail (h := h) (exitCodeOf status) (some first)
          ?_ ?_).bind ?_)
        · exact fun hpos => .reaped hc.1 hfirst
            (fun ht s hs => congrArg some (htold ht s hs).symm) hpos
        · exact fun info hi h0 => .buryReaped hc.1 hfirst
            (fun ht s hs => congrArg some (htold ht s hs).symm) hi h0
        · rintro _ h' w' ⟨rfl, hw⟩
          have hall := (hk.trans (.reap (exitCodeOf status) (some first))).trans hw
          refine ih ⟨?_, hx.sweepable.swept hall, fun ht s hs => ?_⟩
          · have hp := hx.tokens.cons (.check first)
            refine hp.trans ?_
            rw [List.map_append, List.append_assoc]
            exact List.perm_middle.symm
          · rcases List.mem_append.mp hs with hs | hs
            · exact (hx.clear ht s hs).swept hall
            · obtain rfl := List.mem_singleton.mp hs
              exact (hx.sweepable.clear ht pid status s (by rw [ha]; exact List.mem_cons_self)
                hfirst).swept hall
      · rw [bind_assoc]
        refine Trail.modify_bind ?_
        rw [pure_bind]
        have hnil : sessionsOf { w with answers := as } pid = [] := hc.2.resolve_left hfirst
        have hnone : τ.told → ∀ s ∈ sessionsOf { w with answers := as } pid, none = some s := by
          intro _ s hs
          rw [hnil] at hs
          cases hs
        refine (reapContainer_trail (h := h) (exitCodeOf status) none ?_ ?_).bind ?_
        · exact fun hpos => .reaped hc.1 hnil hnone hpos
        · exact fun info hi h0 => .buryReaped hc.1 hnil hnone hi h0
        · rintro _ h' w' ⟨rfl, hw⟩
          exact ih (hx.swept ((hk.trans (.reap (exitCodeOf status) none)).trans hw))
      · exact Trail.throw
    · exact Trail.throw

theorem reapChildren_steady (hx : Sweepable τ w) : Steady τ h w reapChildren := by
  unfold reapChildren
  refine Trail.get_bind ?_
  have hstart : Sweeping τ [] h h w := ⟨List.Perm.refl _, hx, fun _ s hs => by cases hs⟩
  refine (reapLoop_trail hstart).bind fun finished h' w' hw => ?_
  refine Trail.move (.perm hw.tokens.symm) (finishAll_steady hw.sweepable.own fun s hs => ?_)
  exact fun ht sess hl hd _ he => hw.clear ht s hs sess hl hd he

end Conrt.Daemon
