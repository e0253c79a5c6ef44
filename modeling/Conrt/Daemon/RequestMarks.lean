import Conrt.Daemon.Marks

/-! The marked entries that containers, client requests and the loops may add. -/
namespace Conrt.Daemon

open Conrt.Base

section

variable {q : Entry → Bool} {c : Mark → Bool} {w w' : World} {sid want : ℕ} {pid : Pid}
  {k : FileKind} {loc : OpLocal} {fd : Option Handle} {streamFd : Fd .stream} {res : Result}
  (hq : ∀ e, q e = true → e.mark.any c = true)
include hq

omit hq in
theorem outputFd_mute : Mute q (outputFd pid) := Through.get.bind fun _ => .pure

omit hq in
theorem containerPtm_mute : Mute q (containerPtm pid) := findContainer_mute.bind fun _ => .pure

theorem retire_mute {info : ContainerInfo} {fds : List Handle} : Mute q (retire pid info fds) := by
  unfold retire
  refine Through.bind (.update fun _ => .of_note (ignores hq rfl) rfl rfl) fun _ => ?_
  refine (closeAll_mute hq).bind fun _ => ?_
  split
  · exact .ite (note_mute (ignores hq rfl)) .pure
  · exact .pure

theorem finishDrain_mute : Mute q (finishDrain pid) := by
  unfold finishDrain
  refine findContainer_mute.bind fun info => ?_
  cases info with
  | none => exact .pure
  | some info => exact .ite modifyContainer_mute (retire_mute hq)

theorem completeWrite_mute {pipeId : ℕ} {ok : Bool} : Mute q (completeWrite pid pipeId ok) := by
  unfold completeWrite
  refine findContainer_mute.bind fun info => ?_
  cases info with
  | none => exact .pure
  | some info => exact modifyContainer_mute.bind fun _ => closeAll_mute hq

theorem armFollowWrite_mute (hline : c .line = false) {pipeId : ℕ} {fd : Fd .pipe} {chunks : List Bytes} :
    Mute q (armFollowWrite pid pipeId fd chunks) := by
  unfold armFollowWrite
  split
  · exact completeWrite_mute hq
  · exact .discard (submit_mute hq hline)

theorem onFollowWrite_mute (hline : c .line = false) {pipeId : ℕ} {fd : Fd .pipe} {chunks : List Bytes} :
    Mute q (onFollowWrite pid pipeId fd chunks res) := by
  unfold onFollowWrite
  split
  · split
    · exact completeWrite_mute hq
    · exact armFollowWrite_mute hq hline
  · exact completeWrite_mute hq

theorem writeLine_mute (hline : c .line = false) {line : Bytes} : Mute q (writeLine pid line) := by
  unfold writeLine
  refine findContainer_mute.bind fun info => ?_
  cases info with
  | some info =>
    refine Through.ofOption.bind fun r => ?_
    refine Through.bind (.update fun _ => .of_note (ignores hq rfl) rfl rfl) fun _ => ?_
    exact .forEach fun target => staleBytes_mute.bind fun _ => armFollowWrite_mute hq hline
  | none =>
    refine Through.get.bind fun w => ?_
    split
    · exact Through.ofOption.bind fun cache => .update fun _ => .of_eq rfl rfl
    · exact .pure

theorem writeLines_mute (hline : c .line = false) {lines : List Bytes} : Mute q (writeLines pid lines) :=
  .forEach fun _ => writeLine_mute hq hline

theorem armContainerOutput_mute : Mute q (armContainerOutput pid) := by
  unfold armContainerOutput
  refine outputFd_mute.bind fun fd => ?_
  cases fd with
  | none => exact finishDrain_mute hq
  | some fd => exact .discard (submit_mute hq rfl)

theorem armContainerPtyOutput_mute : Mute q (armContainerPtyOutput pid) := by
  unfold armContainerPtyOutput
  refine containerPtm_mute.bind fun fd => ?_
  cases fd with
  | none => exact finishDrain_mute hq
  | some fd => exact .discard (submit_mute hq rfl)

theorem finishContainerOutput_mute : Mute q (finishContainerOutput pid) := by
  unfold finishContainerOutput
  refine outputFd_mute.bind fun fd => ?_
  cases fd with
  | none => exact finishDrain_mute hq
  | some fd =>
    refine Through.bind (.update fun _ => .of_eq rfl rfl) fun _ => ?_
    exact (closeFd_mute hq).bind fun _ => finishDrain_mute hq

theorem finishContainerPtyOutput_mute : Mute q (finishContainerPtyOutput pid) := by
  unfold finishContainerPtyOutput
  refine containerPtm_mute.bind fun fd => ?_
  cases fd with
  | none => exact finishDrain_mute hq
  | some fd =>
    exact modifyContainer_mute.bind fun _ => (closeFd_mute hq).bind fun _ => finishDrain_mute hq

theorem onContainerOutput_mute (hline : c .line = false) {lineBuf : Bytes} :
    Mute q (onContainerOutput pid lineBuf res) := by
  unfold onContainerOutput
  split
  · refine (writeLines_mute hq hline).bind fun _ => outputFd_mute.bind fun fd => ?_
    exact .discard (submit_mute hq rfl)
  · exact finishContainerOutput_mute hq

theorem onContainerPtyOutput_mute (hline : c .line = false) {lineBuf : Bytes} :
    Mute q (onContainerPtyOutput pid lineBuf res) := by
  unfold onContainerPtyOutput
  split
  · refine (writeLines_mute hq hline).bind fun _ => containerPtm_mute.bind fun fd => ?_
    exact .discard (submit_mute hq rfl)
  · exact finishContainerPtyOutput_mute hq

theorem wait4_mute : Mute q wait4 := by
  unfold wait4
  refine ask_mute.bind fun a => ?_
  split
  · exact .pure
  · refine Through.get.bind fun w => .ite ?_ .throw
    exact Through.bind (.update fun _ => .of_note (ignores hq rfl) rfl rfl) fun _ => .pure
  · exact .throw

theorem reapContainer_mute : Mute q (reapContainer pid) := by
  unfold reapContainer
  refine findContainer_mute.bind fun info => ?_
  cases info with
  | none => exact .pure
  | some info => exact .ite .pure (retire_mute hq)

theorem reapLoop_mute {fuel : ℕ} {finished : List ℕ} : Mute q (reapLoop fuel finished) := by
  induction fuel generalizing finished with
  | zero => exact .throw
  | succ fuel ih =>
    unfold reapLoop
    refine (wait4_mute hq).bind fun r => ?_
    split
    · exact .pure
    · split
      · exact modifySession_mute.bind fun _ => (reapContainer_mute hq).bind fun _ => ih
      · exact (reapContainer_mute hq).bind fun _ => ih

theorem reapChildren_mute (hframe : c .frame = false) : Mute q reapChildren := by
  unfold reapChildren
  refine Through.get.bind fun w => (reapLoop_mute hq).bind fun finished => ?_
  exact .forEach fun _ => maybeFinishSession_mute hq hframe

theorem dropSignal_mute {signal : Fd .pipe × Fd .pipe} : Mute q (dropSignal signal) :=
  closeAll_mute hq

theorem prepareRootfs_mute {rootfs : Option String} : Mute q (prepareRootfs rootfs) := by
  unfold prepareRootfs
  split
  · exact .pure
  · refine call_mute.bind fun r => ?_
    cases r with
    | error e => exact .pure
    | ok u =>
      refine call_mute.bind fun r => ?_
      cases r with
      | error e => exact .pure
      | ok u =>
        refine Through.get.bind fun w => ?_
        exact Through.bind (.update fun _ => .of_note (ignores hq rfl) rfl rfl) fun _ => .pure

theorem parentSetupMapsAndSignal_mute {prep : PreparedResources} :
    Mute q (parentSetupMapsAndSignal prep) := by
  unfold parentSetupMapsAndSignal
  refine .ite (call_mute.bind fun r => ?_) (Through.bind .pure fun r => ?_) <;>
  · refine (dropSignal_mute hq).bind fun _ => ?_
    split
    · exact .pure
    · exact .pure

theorem joinNamespaces_mute (hjoin : c .join = false) : Mute q (joinNamespaces pid) := by
  have hnote {ns : Namespace} : Mute q (note (.joined pid ns)) := note_mute (ignores hq hjoin)
  have hset : Mute q (setns pid) := by
    unfold setns
    refine call_mute.bind fun r => ?_
    cases r with
    | error e => exact .pure
    | ok u =>
      refine hnote.bind fun _ => call_mute.bind fun r => ?_
      cases r with
      | error e => exact .pure
      | ok u => exact hnote.bind fun _ => .pure
  unfold joinNamespaces
  refine (openOne_mute hq).bind fun user => ?_
  cases user with
  | error e => exact .pure
  | ok user =>
    refine (openOne_mute hq).bind fun net => ?_
    cases net with
    | error e => exact (closeAll_mute hq).bind fun _ => .pure
    | ok net => exact hset.bind fun _ => (closeAll_mute hq).bind fun _ => .pure

theorem prepareNamespaces_mute (hjoin : c .join = false) {netPid : Option Pid} :
    Mute q (prepareNamespaces netPid) := by
  unfold prepareNamespaces
  split
  · exact .pure
  · refine (joinNamespaces_mute hq hjoin).bind fun r => ?_
    cases r with
    | error e => exact .pure
    | ok u => exact .pure

theorem prepareRun_mute (hjoin : c .join = false) {args : RunArgs} : Mute q (prepareRun args) := by
  unfold prepareRun
  refine .ite .pure ((prepareRootfs_mute hq).bind fun root => ?_)
  cases root with
  | error e => exact .pure
  | ok dir =>
    refine (openPair_mute hq).bind fun signal => ?_
    cases signal with
    | error e => exact .pure
    | ok signal =>
      refine (prepareNamespaces_mute hq hjoin).bind fun maps => ?_
      cases maps with
      | error e => exact (dropSignal_mute hq).bind fun _ => .pure
      | ok maps =>
        refine (openWhen_mute hq).bind fun death => ?_
        cases death with
        | error e => exact (dropSignal_mute hq).bind fun _ => .pure
        | ok death => exact .pure

theorem refuseRun_mute {msg : String} : Mute q (refuseRun sid streamFd msg) :=
  (writeFrameNow_mute hq).bind fun _ => closeSession_mute hq

theorem startAttached_mute (hframe : c .frame = false) {args : RunArgs} {prep : PreparedResources}
    {pty : Option (Fd .pty × Fd .pty)} {log : Option (Fd .pipe × Fd .pipe)} :
    Mute q (startAttached sid streamFd args prep pty log pid) := by
  unfold startAttached
  refine (closeAll_mute hq).bind fun _ => (parentSetupMapsAndSignal_mute hq).bind fun r => ?_
  cases r with
  | error e =>
    refine (closeAll_mute hq).bind fun _ => (refuseRun_mute hq).bind fun _ => ?_
    exact (closeAll_mute hq).bind fun _ => .pure
  | ok u =>
    refine (closeAll_mute hq).bind fun _ => now_mute.bind fun t => ?_
    refine Through.bind (.update fun _ => .of_note (ignores hq rfl) rfl rfl) fun _ => ?_
    refine modifySession_mute.bind fun _ => Through.bind (note_mute (ignores hq rfl)) fun _ => ?_
    refine (armSessionFrame_mute hq hframe).bind fun _ => ?_
    exact (armSessionOutput_mute hq hframe).bind fun _ => .pure

omit hq in
theorem newPipeId_mute : Mute q newPipeId := by
  unfold newPipeId
  exact Through.get.bind fun _ => Through.bind (.update fun _ => .of_eq rfl rfl) fun _ => .pure

theorem handleAttach_mute (hframe : c .frame = false) : Mute q (handleAttach sid pid) := by
  unfold handleAttach
  refine findContainer_mute.bind fun info => ?_
  cases info with
  | none =>
    refine findSession_mute.bind fun s => ?_
    cases s with
    | none => exact (closeSession_mute hq).bind fun _ => .pure
    | some sess =>
      exact (writeFrameNow_mute hq).bind fun _ => (closeSession_mute hq).bind fun _ => .pure
  | some info =>
    refine (openPair_mute hq).bind fun r => ?_
    cases r with
    | error e => exact (closeSession_mute hq).bind fun _ => .pure
    | ok pipe =>
      refine newPipeId_mute.bind fun pipeId => ?_
      refine modifyContainer_mute.bind fun _ => modifySession_mute.bind fun _ => ?_
      refine Through.bind (note_mute (ignores hq rfl)) fun _ => findSession_mute.bind fun s => ?_
      cases s with
      | none => exact (closeSession_mute hq).bind fun _ => .pure
      | some sess =>
        refine (armSessionFrame_mute hq hframe).bind fun _ => ?_
        exact (armSessionOutput_mute hq hframe).bind fun _ => .pure

theorem writeBacklog_mute {d : Handle} {fuel : ℕ} {backlog : Bytes} :
    Mute q (writeBacklog d fuel backlog) := by
  induction fuel generalizing backlog with
  | zero => exact .throw
  | succ fuel ih =>
    unfold writeBacklog
    refine .ite .pure ((writeNow_mute hq).bind fun r => ?_)
    split
    · exact .pure
    · exact .pure
    · exact ih

variable {sender : ℕ} {args : RunArgs}

theorem replyDatagram_mute (hreply : c .reply = false) {reply : Reply} :
    Mute q (replyDatagram sender reply) := note_mute (ignores hq hreply)

theorem startDetached_mute (hreply : c .reply = false) {prep : PreparedResources}
    {stdin : Option (Fd .pipe × Fd .pipe)} {pty : Option (Fd .pty × Fd .pty)}
    {log : Fd .pipe × Fd .pipe} : Mute q (startDetached sender args prep stdin pty log pid) := by
  have hanswer {reply : Reply} : Mute q (replyDatagram sender reply) := replyDatagram_mute hq hreply
  unfold startDetached addDrain
  refine (closeAll_mute hq).bind fun _ => (parentSetupMapsAndSignal_mute hq).bind fun r => ?_
  cases r with
  | error e => exact (closeAll_mute hq).bind fun _ => hanswer
  | ok u =>
    refine now_mute.bind fun t => ?_
    refine Through.bind (.update fun _ => .of_note (ignores hq rfl) rfl rfl) fun _ => ?_
    refine modifyContainer_mute.bind fun _ => (armContainerOutput_mute hq).bind fun _ => ?_
    refine .ite ?_ hanswer
    refine modifyContainer_mute.bind fun _ => ?_
    exact (armContainerPtyOutput_mute hq).bind fun _ => hanswer

/-- A detached run is prepared, and joins nothing afterwards. -/
theorem handleRun_prepares (hreply : c .reply = false) :
    ∃ k, handleRun sender args = prepareRun args >>= k ∧ ∀ b, Mute q (k b) := by
  have hanswer {reply : Reply} : Mute q (replyDatagram sender reply) := replyDatagram_mute hq hreply
  refine ⟨_, rfl, fun b => ?_⟩
  cases b with
  | error e => exact hanswer
  | ok prep =>
    refine (openWhen_mute hq).bind fun stdin => ?_
    cases stdin with
    | error e => exact hanswer.bind fun _ => dropSignal_mute hq
    | ok stdin =>
      refine (openWhen_mute hq).bind fun pty => ?_
      cases pty with
      | error e => exact hanswer.bind fun _ => dropSignal_mute hq
      | ok pty =>
        refine (openPair_mute hq).bind fun log => ?_
        cases log with
        | error e =>
          exact hanswer.bind fun _ => (closeAll_mute hq).bind fun _ => dropSignal_mute hq
        | ok log =>
          refine (clone3Container_mute hq).bind fun child => ?_
          cases child with
          | error e =>
            exact (closeAll_mute hq).bind fun _ => hanswer.bind fun _ => dropSignal_mute hq
          | ok pid => exact startDetached_mute hq hreply

theorem handleFollow_mute (hreply : c .reply = false) (hsend : c .send = false) :
    Mute q (handleFollow sender pid) := by
  unfold handleFollow
  refine findContainer_mute.bind fun info => ?_
  cases info with
  | none => exact replyDatagram_mute hq hreply
  | some info =>
    refine (openPair_mute hq).bind fun pair => ?_
    cases pair with
    | error e => exact replyDatagram_mute hq hreply
    | ok pair =>
      refine (writeBacklog_mute hq).bind fun r => ?_
      cases r with
      | error e => exact closeAll_mute hq
      | ok u =>
        refine newPipeId_mute.bind fun pipeId => ?_
        refine modifyContainer_mute.bind fun _ => Through.bind (note_mute (ignores hq rfl)) fun _ => ?_
        refine call_mute.bind fun r => ?_
        cases r with
        | error e => exact note_mute (ignores hq rfl)
        | ok u => exact Through.get.bind fun w => .discard (submit_mute hq hsend)

theorem handleKill_mute (hreply : c .reply = false) : Mute q (handleKill sender pid) := by
  unfold handleKill
  refine findContainer_mute.bind fun info => ?_
  cases info with
  | none => exact replyDatagram_mute hq hreply
  | some info =>
    refine Through.bind (note_mute (ignores hq rfl)) fun _ => call_mute.bind fun r => ?_
    cases r with
    | error e => exact replyDatagram_mute hq hreply
    | ok u => exact replyDatagram_mute hq hreply

theorem handleLogs_mute (hreply : c .reply = false) : Mute q (handleLogs sender pid) := by
  unfold handleLogs
  refine Through.get.bind fun w => ?_
  dsimp only
  split
  · exact replyDatagram_mute hq hreply
  · exact replyDatagram_mute hq hreply

theorem handleList_mute (hreply : c .reply = false) : Mute q (handleList sender) :=
  now_mute.bind fun _ => Through.get.bind fun _ => replyDatagram_mute hq hreply

theorem submitReading_mute {rd : Reading} : Mute q (submitReading sid fd rd) :=
  submitFor_mute hq (by cases rd <;> rfl)

theorem armSessionRead_mute : Mute q (armSessionRead sid) := by
  unfold armSessionRead
  refine sessionStream_mute.bind fun fd => ?_
  cases fd with
  | none => exact .pure
  | some fd => exact submitReading_mute hq

theorem dispatchStdin_mute {payload : Bytes} : Mute q (dispatchStdin sid payload) := by
  unfold dispatchStdin
  refine .ite ?_ .pure
  refine sessionStdin_mute.bind fun fd => Through.bind (note_mute (ignores hq rfl)) fun _ => ?_
  cases fd with
  | none => exact .pure
  | some fd => exact .discard (submit_mute hq rfl)

theorem dispatchEof_mute : Mute q (dispatchEof sid) := by
  unfold dispatchEof
  refine findSession_mute.bind fun s => ?_
  cases s with
  | none => exact .pure
  | some sess =>
    dsimp only
    split
    · exact .pure
    · refine modifySession_mute.bind fun _ => Through.bind (note_mute (ignores hq rfl)) fun _ => ?_
      exact closeFd_mute hq

theorem dispatchWinSize_mute {codec : Codec} {payload : Bytes} :
    Mute q (dispatchWinSize codec sid payload) := by
  unfold dispatchWinSize
  split
  · exact .pure
  · refine findSession_mute.bind fun s => ?_
    split
    · exact note_mute (ignores hq rfl)
    · exact .pure

theorem armAccept_mute : Mute q armAccept :=
  Through.get.bind fun _ => .discard (submit_mute hq rfl)

theorem onAccept_mute : Mute q (onAccept res) := by
  unfold onAccept
  split
  · refine Through.get.bind fun w => Through.bind (.update fun _ => .of_eq rfl rfl) fun _ => ?_
    exact (armSessionRead_mute hq).bind fun _ => armAccept_mute hq
  · exact armAccept_mute hq

theorem armSigchld_mute (hloop : c .loop = false) : Mute q armSigchld := by
  unfold armSigchld
  refine call_mute.bind fun r => ?_
  cases r with
  | error e => exact note_mute (ignores hq rfl)
  | ok u => exact Through.get.bind fun _ => .discard (submit_mute hq hloop)

theorem onSigchld_mute (hframe : c .frame = false) (hloop : c .loop = false) : Mute q (onSigchld res) := by
  unfold onSigchld
  split
  · exact (reapChildren_mute hq hframe).bind fun _ => armSigchld_mute hq hloop
  · exact armSigchld_mute hq hloop
  · exact .pure

theorem armDatagram_mute (hloop : c .loop = false) : Mute q armDatagram := by
  unfold armDatagram
  refine call_mute.bind fun r => ?_
  cases r with
  | error e => exact note_mute (ignores hq rfl)
  | ok u => exact Through.get.bind fun _ => .discard (submit_mute hq hloop)

theorem onDatagramPeek_mute (hloop : c .loop = false) : Mute q (onDatagramPeek res) := by
  unfold onDatagramPeek
  split
  · refine Through.get.bind fun w => Through.bind (submit_mute hq hloop) fun op => ?_
    cases op with
    | none => exact armDatagram_mute hq hloop
    | some op => exact .pure
  · exact armDatagram_mute hq hloop

end

end Conrt.Daemon
