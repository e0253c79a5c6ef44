import Conrt.Daemon.Asks
import Conrt.Daemon.Stages

/-! What client requests ask of the pool, and every callback. -/
namespace Conrt.Daemon

open Conrt.Base

variable {codec : Codec} {w w' : World} {given : Option OpLocal} {as : List (Ask (Option ℕ))}
  {sid : ℕ} {pid : Pid} {streamFd : Fd .stream} {args : RunArgs} {prep : PreparedResources}
  {answers rest : List Answer}

/-- A child runs unless its id maps were refused. -/
theorem mem_startedPids (hsuf : .clone (.ok pid) :: rest <:+ answers)
    (hno : ∀ e as, rest ≠ .call (.error e) :: as) : pid ∈ startedPids answers := by
  fun_induction startedPids answers with
  | case1 _ e as ih =>
    rcases List.suffix_cons_iff.mp hsuf with heq | hsuf
    · exact absurd (List.cons.inj heq).2 (hno e as)
    · rcases List.suffix_cons_iff.mp hsuf with heq | hsuf
      · cases (List.cons.inj heq).1
      · exact ih hsuf
  | case2 pid' as _ ih =>
    rcases List.suffix_cons_iff.mp hsuf with heq | hsuf
    · cases heq
      exact List.mem_cons_self
    · exact List.mem_cons_of_mem _ (ih hsuf)
  | case3 a as _ hclone ih =>
    rcases List.suffix_cons_iff.mp hsuf with heq | hsuf
    · cases heq
      exact absurd rfl (hclone pid)
    · exact ih hsuf
  | case4 => cases List.eq_nil_of_suffix_nil hsuf

theorem clone3Container_eq_ok (h : clone3Container w = .ok (.ok pid) w') :
    w.answers = .clone (.ok pid) :: w'.answers := by
  unfold clone3Container at h
  obtain ⟨a, w₁, hask, h⟩ := bind_eq_ok.mp h
  obtain ⟨as, ha, rfl⟩ := ask_eq_ok hask
  split at h
  · obtain ⟨w₂, w₃, hget, h⟩ := bind_eq_ok.mp h
    cases hget
    split_ifs at h
    · cases h
      exact ha
    · cases h
  · cases h
  · cases h

theorem closeAll_same {hs : List Handle} : Through (Same World.answers) (closeAll hs) :=
  .forEach fun _ _ => rfl

/-- The id maps of a child that runs were not refused. -/
theorem not_refused {u : Unit} {t : ℕ} {w₁ w₂ w₃ : World}
    (hmaps : parentSetupMapsAndSignal prep w = .ok (.ok u) w₁) (hsame : w₂.answers = w₁.answers)
    (hnow : now w₂ = .ok t w₃) : ∀ e as, w.answers ≠ .call (.error e) :: as := by
  intro e as ha
  unfold parentSetupMapsAndSignal at hmaps
  split_ifs at hmaps
  · obtain ⟨r, w₄, hcall, hmaps⟩ := bind_eq_ok.mp hmaps
    unfold call at hcall
    obtain ⟨a, w₅, hask, hcall⟩ := bind_eq_ok.mp hcall
    obtain ⟨as', ha', rfl⟩ := ask_eq_ok hask
    obtain rfl := (List.cons.inj (ha.symm.trans ha')).1
    cases hcall
    obtain ⟨v, w₆, hdrop, hmaps⟩ := bind_eq_ok.mp hmaps
    cases hmaps
  · obtain ⟨r, w₄, hpure, hmaps⟩ := bind_eq_ok.mp hmaps
    cases hpure
    obtain ⟨v, w₅, hdrop, hmaps⟩ := bind_eq_ok.mp hmaps
    cases hmaps
    unfold now at hnow
    obtain ⟨a, w₆, hask, hnow⟩ := bind_eq_ok.mp hnow
    obtain ⟨as', ha', -⟩ := ask_eq_ok hask
    rw [hsame, closeAll_same.ok hdrop, ha] at ha'
    obtain rfl := (List.cons.inj ha').1
    cases hnow

private theorem armSessionOutput_adopted
    (h : ∀ sess ∈ w.g.attachSessions.lookup sid, sess.outputFd.isSome = true) :
    Asks given (armSessionOutput sid) w [] := by
  refine armSessionOutput_asks.mono fun out _ => ?_
  unfold World.exitAsks World.exitSizes
  cases hs : w.g.attachSessions.lookup sid with
  | none => trivial
  | some sess =>
    rw [Option.bind_some, if_pos (h sess hs)]
    trivial

theorem submit_same {loc : OpLocal} {fd : Option Handle} {want : ℕ} :
    Through (Same World.g) (submit loc fd want) := by
  unfold submit
  refine (ask_through fun _ _ _ _ => rfl).bind fun a => ?_
  split
  · exact Through.get.bind fun _ => Through.bind (.update fun _ => rfl) fun _ => .pure
  · exact .throw

theorem armSessionFrame_same {ty : UInt8} {payload : Bytes} :
    Through (Same World.g) (armSessionFrame sid streamFd ty payload) := by
  refine .discard (submit_same.bind fun op => ?_)
  cases op with
  | none => exact .pure
  | some op => exact Through.bind (.update fun _ => rfl) fun _ => .pure

/-- The response, and the session's first read, which finds its output open. -/
theorem respond_asks {b : Bool}
    (h : ∀ sess ∈ w.g.attachSessions.lookup sid, sess.outputFd.isSome = true)
    (hmem : askFor [responseSize pid] true ∈ as) :
    Asks given (do
      armSessionFrame sid streamFd 0x01 (runResponse pid)
      armSessionOutput sid
      pure b) w as := by
  refine ((armSessionFrame_asks true).mono fun out hadm => hadm.of_mem hmem).before fun _ w' hw => ?_
  have hg : w'.g = w.g := armSessionFrame_same.ok hw
  exact (armSessionOutput_adopted (hg.symm ▸ h)).before fun _ _ _ => .pure

theorem modifySession_lookup {f : AttachSession → AttachSession} {u : Unit}
    (h : modifySession sid f w = .ok u w') :
    w'.g.attachSessions.lookup sid = (w.g.attachSessions.lookup sid).map f := by
  cases h
  change (w.g.attachSessions.update sid f).lookup sid = _
  rw [Table.lookup_update_ite, if_pos rfl]

theorem startAttached_asks {pty : Option (Fd .pty × Fd .pty)} {log : Option (Fd .pipe × Fd .pipe)}
    (hout : pty.isSome = true ∨ log.isSome = true)
    (hmem : (∀ e rest, w.answers ≠ .call (.error e) :: rest) → askFor [responseSize pid] true ∈ as) :
    Asks given (startAttached sid streamFd args prep pty log pid) w as := by
  unfold startAttached
  refine .after (closeAll_mute asking_mark) fun _ w₁ h₁ => ?_
  refine .after (parentSetupMapsAndSignal_mute asking_mark) fun r w₂ h₂ => ?_
  cases r with
  | error e =>
    refine .of_mute ((closeAll_mute taking_mark).bind fun _ => (refuseRun_mute taking_mark).bind ?_)
    exact fun _ => (closeAll_mute taking_mark).bind fun _ => .pure
  | ok u =>
    refine .after (closeAll_mute asking_mark) fun _ w₃ h₃ => ?_
    refine .after now_mute fun t w₄ h₄ => ?_
    refine .after (.update fun _ => .of_note rfl rfl rfl) fun _ w₅ h₅ => ?_
    refine .after modifySession_mute fun _ w₆ h₆ => ?_
    refine .after (note_mute rfl) fun _ w₇ h₇ => ?_
    refine respond_asks (fun sess hsess => ?_) (hmem ?_)
    · cases h₇
      change sess ∈ w₆.g.attachSessions.lookup sid at hsess
      rw [modifySession_lookup h₆] at hsess
      obtain ⟨sess₀, -, rfl⟩ := Option.map_eq_some_iff.mp hsess
      unfold AttachSession.outputFd
      cases pty with
      | some pair => rfl
      | none =>
        cases log with
        | some pair => rfl
        | none => simp at hout
    · have hno := not_refused h₂ (closeAll_same.ok h₃) h₄
      rwa [closeAll_same.ok h₁] at hno

theorem handleRunAttach_asks : Asks given (handleRunAttach sid args) w
    ((startedPids w.answers).map fun pid => askFor [responseSize pid] true) := by
  have hprep : Mute (Entry.asking given) (prepareRun args) := prepareRun_mute asking_mark rfl
  have hopen {wanted : Bool} {k : FileKind} : Mute (Entry.asking given) (openWhen wanted k) :=
    openWhen_mute asking_mark
  unfold handleRunAttach
  refine .step rfl rfl ?_
  cases w.g.attachSessions.lookup sid with
  | none => exact .pure
  | some sess =>
    refine .after hprep fun r w₁ h₁ => ?_
    cases r with
    | error e => exact .of_mute ((refuseRun_mute taking_mark).bind fun _ => .pure)
    | ok prep =>
      refine .after hopen fun r w₂ h₂ => ?_
      cases r with
      | error e =>
        refine .of_mute ((refuseRun_mute taking_mark).bind fun _ => ?_)
        exact (dropSignal_mute taking_mark).bind fun _ => .pure
      | ok pty =>
        refine .after hopen fun r w₃ h₃ => ?_
        cases r with
        | error e =>
          refine .of_mute ((refuseRun_mute taking_mark).bind fun _ => ?_)
          exact (dropSignal_mute taking_mark).bind fun _ => .pure
        | ok log =>
          refine .after (clone3Container_mute asking_mark) fun r w₄ h₄ => ?_
          cases r with
          | error e =>
            refine .of_mute ((closeAll_mute taking_mark).bind fun _ => (refuseRun_mute taking_mark).bind ?_)
            refine fun _ => (closeAll_mute taking_mark).bind fun _ => ?_
            exact (dropSignal_mute taking_mark).bind fun _ => .pure
          | ok pid =>
            have ha := clone3Container_eq_ok h₄
            have hsuf : w₃.answers <:+ w.answers := by
              have hs₂ := (hopen.ok h₂).answers.trans (hprep.ok h₁).answers
              exact (hopen.ok h₃).answers.trans hs₂
            refine startAttached_asks ?_ fun hno => ?_
            · have hpty := Triple.ok (openWhen_wanted (P := fun _ => True)) trivial h₂ pty rfl
              have hlog := Triple.ok (openWhen_wanted (P := fun _ => True)) trivial h₃ log rfl
              rw [hpty, hlog]
              cases args.tty || args.interactive <;> simp
            · exact List.mem_map_of_mem (mem_startedPids (ha ▸ hsuf) hno)

theorem openPair_eq_ok {k : FileKind} {pair : Fd k × Fd k} (h : openPair k w = .ok (.ok pair) w') :
    ∃ ns as, w.answers = .call (.ok ns) :: as := by
  unfold openPair at h
  obtain ⟨a, w₁, hask, h⟩ := bind_eq_ok.mp h
  obtain ⟨as, ha, -⟩ := ask_eq_ok hask
  split at h
  · exact ⟨_, as, ha⟩
  · cases h
  · cases h

theorem openPair_same {k : FileKind} : Through (Same World.g) (openPair k) := by
  have hopen {n : ℕ} : Through (Same World.g) (openFd k n) := by
    unfold openFd
    refine Through.get.bind fun w => .ite ?_ .throw
    exact Through.bind (.update fun _ => rfl) fun _ => .pure
  unfold openPair
  refine (ask_through fun _ _ _ _ => rfl).bind fun a => ?_
  split
  · exact hopen.bind fun _ => hopen.bind fun _ => .pure
  · exact .pure
  · exact .throw

/-- What the client is answered when it attaches to the container. -/
theorem handleAttach_asks {f : Frame} (hasked : codec.asked f = some (.attach pid)) :
    Asks given (handleAttach sid pid) w
      ((codec.responses w sid f w.answers).map fun n => askFor [n] true) := by
  unfold handleAttach
  refine .step rfl rfl ?_
  cases hinfo : w.g.containers.lookup pid with
  | none =>
    refine .of_mute (findSession_mute.bind fun s => ?_)
    cases s with
    | none => exact (closeSession_mute taking_mark).bind fun _ => .pure
    | some sess =>
      refine (writeFrameNow_mute taking_mark).bind fun _ => ?_
      exact (closeSession_mute taking_mark).bind fun _ => .pure
  | some info =>
    refine .after (openPair_mute asking_mark) fun r w₁ h₁ => ?_
    cases r with
    | error e => exact .of_mute ((closeSession_mute taking_mark).bind fun _ => .pure)
    | ok pair =>
      obtain ⟨ns, rest, ha⟩ := openPair_eq_ok h₁
      have hg : w₁.g = w.g := openPair_same.ok h₁
      refine .after newPipeId_mute fun pipeId w₂ h₂ => ?_
      refine .after modifyContainer_mute fun _ w₃ h₃ => ?_
      refine .after modifySession_mute fun _ w₄ h₄ => ?_
      refine .after (note_mute rfl) fun _ w₅ h₅ => .step rfl rfl ?_
      have hg₃ : w₃.g.attachSessions = w.g.attachSessions := by
        rw [← hg]
        cases h₃
        cases h₂
        rfl
      have hg₅ : w₅.g = w₄.g := by
        cases h₅
        rfl
      have hl := modifySession_lookup h₄
      rw [← hg₅, hg₃] at hl
      rw [hl]
      cases hs : w.g.attachSessions.lookup sid with
      | none => exact .of_mute ((closeSession_mute taking_mark).bind fun _ => .pure)
      | some sess =>
        refine respond_asks (fun sess' hsess => ?_) ?_
        · rw [hl, hs] at hsess
          cases hsess
          unfold AttachSession.outputFd
          cases sess.ptmFd <;> rfl
        · simp [Codec.responses, hasked, hinfo, hs, ha]

/-- The response to a request, and nothing for another frame. -/
theorem dispatchFrame_asks {f : Frame} : Asks given (dispatchFrame codec sid f) w
    ((codec.responses w sid f w.answers).map fun n => askFor [n] true) := by
  unfold dispatchFrame
  split_ifs with hty
  · have hasked : codec.asked f = (codec.request f.payload).toOption := if_pos hty
    cases hreq : codec.request f.payload with
    | error e => exact .pure
    | ok request =>
      rw [hreq] at hasked
      cases request with
      | run args =>
        unfold Codec.responses
        rw [show codec.asked f = some (.run args) from hasked, List.map_map]
        exact handleRunAttach_asks
      | attach pid => exact handleAttach_asks hasked
      | _ => exact .pure
  · exact .of_mute ((dispatchStdin_mute taking_mark).bind fun _ => .pure)
  · exact .of_mute ((dispatchEof_mute taking_mark).bind fun _ => .pure)
  · exact .of_mute ((dispatchWinSize_mute taking_mark).bind fun _ => .pure)
  · exact .pure

theorem onFrame_asks {f : Frame} : Asks given (onFrame codec sid f) w
    ((codec.responses w sid f w.answers).map fun n => askFor [n] true) := by
  have hsame : codec.responses (w.modifySession sid (·.storeOp .read none)) sid f w.answers =
      codec.responses w sid f w.answers := by
    unfold Codec.responses
    have hlisted : ((w.modifySession sid (·.storeOp .read none)).g.attachSessions.lookup sid).isSome =
        (w.g.attachSessions.lookup sid).isSome := by
      change ((w.g.attachSessions.update sid _).lookup sid).isSome = _
      rw [Table.lookup_update_ite, if_pos rfl, Option.isSome_map]
    rw [hlisted]
    rfl
  unfold onFrame
  refine .step rfl rfl ?_
  rw [← hsame]
  refine dispatchFrame_asks.before fun keep w' _ => .of_mute ?_
  exact .ite (armSessionRead_mute taking_mark) (closeSession_mute taking_mark)

/-- A read that ends a frame has to be a payload's. -/
theorem onSessionRead_asks (rd : Reading) {res : Result} :
    Asks given (onSessionRead codec sid rd res) w (w.opAsks codec (sessionLocal sid rd) res w.answers) := by
  have hread {fd : Option Handle} {rd : Reading} :
      Mute (Entry.taking given) (submitReading sid fd rd) := submitReading_mute taking_mark
  have hclose : Mute (Entry.taking given) (closeSession sid) := closeSession_mute taking_mark
  cases res with
  | bytes bs =>
    cases bs with
    | nil => exact .of_mute hclose
    | cons b bs =>
      cases hfeed : rd.feed (b :: bs) with
      | inl rd' =>
        refine .of_mute ?_
        simp only [onSessionRead, hfeed]
        split
        · exact sessionStream_mute.bind fun _ => storeSessionOp_mute.bind fun _ => hread
        · exact sessionStream_mute.bind fun _ => hread
        · contradiction
      | inr f =>
        cases rd with
        | header acc =>
          obtain ⟨rd', hrd'⟩ := Reading.feed_header acc (b :: bs)
          rw [hrd'] at hfeed
          cases hfeed
        | payload ty acc need =>
          have hframe : OpLocal.frame (.sessionPayload sid ty acc need) (.bytes (b :: bs)) =
              some (sid, f) := by simp [OpLocal.frame, hfeed]
          simp only [onSessionRead, hfeed]
          refine onFrame_asks.mono fun out hadm => ?_
          simpa [World.opAsks, sessionLocal, hframe] using hadm
  | _ => exact .of_mute hclose

/-- Datagrams ask for nothing that has to be there. -/
theorem handleDatagram_taking {sender : ℕ} {request : Request} :
    Mute (Entry.taking given) (handleDatagram sender request) := by
  cases request with
  | run args =>
    obtain ⟨k, hk, hmute⟩ : ∃ k, handleRun sender args = prepareRun args >>= k ∧
        ∀ b, Mute (Entry.taking given) (k b) := handleRun_prepares taking_mark rfl
    change Mute _ (handleRun sender args)
    rw [hk]
    exact (prepareRun_mute taking_mark rfl).bind hmute
  | list => exact handleList_mute taking_mark rfl
  | kill pid => exact handleKill_mute taking_mark rfl
  | logs pid follow =>
    cases follow with
    | true => exact handleFollow_mute taking_mark rfl rfl
    | false => exact handleLogs_mute taking_mark rfl
  | attach pid => exact replyDatagram_mute taking_mark rfl

private theorem onDatagram_taking {res : Result} : Mute (Entry.taking given) (onDatagram codec res) := by
  unfold onDatagram
  split
  · split
    · exact (replyDatagram_mute taking_mark rfl).bind fun _ => armDatagram_mute taking_mark rfl
    · exact handleDatagram_taking.bind fun _ => armDatagram_mute taking_mark rfl
  · exact armDatagram_mute taking_mark rfl

/-- What any callback asks of the pool is what its completion says. -/
theorem callback_asks {loc : OpLocal} {res : Result} :
    Asks (some loc) (callback codec res loc) w (w.opAsks codec loc res w.answers) := by
  cases loc with
  | datagram size => exact .of_mute onDatagram_taking
  | datagramPeek => exact .of_mute (onDatagramPeek_mute taking_mark rfl)
  | followSend closeAfter => exact .of_mute (closeFd_mute taking_mark)
  | accept => exact .of_mute (onAccept_mute taking_mark)
  | sigchld => exact onSigchld_asks
  | containerOutput pid lineBuf => exact onContainerOutput_asks
  | containerPtyOutput pid lineBuf => exact onContainerPtyOutput_asks
  | followWrite pid pipeId fd chunks => exact onFollowWrite_asks
  | sessionHeader sid acc => exact onSessionRead_asks (.header acc)
  | sessionPayload sid ty acc need => exact onSessionRead_asks (.payload ty acc need)
  | sessionFrame sid streamFd buf off => exact onSessionFrame_asks
  | sessionDataHeader sid streamFd header payload off => exact onSessionDataHeader_asks
  | sessionDataPayload sid streamFd payload off => exact onSessionDataPayload_asks
  | sessionOutputRead sid => exact onSessionOutput_asks
  | sessionStdin sid buf off => exact .of_mute (onSessionStdin_mute taking_mark)

end Conrt.Daemon
