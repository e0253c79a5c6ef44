import Conrt.Base.Issued
import Conrt.Daemon.Exits

/-! Which opening each number named by a submission comes from: session and pipe ids are given out
once, so a write that goes on still finds the record of its own descriptor. -/
namespace Conrt.Daemon

open Conrt.Base

variable {τ : Terms} {h h' : List Token} {w w' w₀ : World} {codec : Codec} {answers : List Answer}
  {pid : Pid} {sid pipeId : ℕ} {loc : OpLocal} {fd : Option Handle} {want id : ℕ} {ok : Bool}
  {op : InFlight} {r : Result} {d : Handle} {stream : Fd .stream} {pipe : Fd .pipe}

def OpLocal.followPipe : OpLocal → Option (ℕ × Fd .pipe)
  | .followWrite _ pipeId fd _ => some (pipeId, fd)
  | _ => none

namespace World

def locals (w : World) : List OpLocal := w.ops.map InFlight.loc

/-- A session has the stream, or a write for it is still in flight. -/
def Streams (w : World) (sid : ℕ) (stream : Fd .stream) : Prop :=
  (w.g.attachSessions.lookup sid).map AttachSession.streamFd = some stream ∨
    ∃ loc ∈ w.locals, loc.stream = some (sid, stream)

/-- A gateway has the pipe, or a write to it is still in flight. -/
def Pipes (w : World) (pipeId : ℕ) (pipe : Fd .pipe) : Prop :=
  (∃ pid, w.Registered pid pipeId pipe) ∨ ∃ loc ∈ w.locals, loc.followPipe = some (pipeId, pipe)

theorem locals_submit : (w.submit loc fd want ok).locals = w.locals ++ if ok then [loc] else [] := by
  unfold locals
  rw [ops_submit]
  cases ok with
  | true => simp
  | false => simp

theorem locals_takeOp : (w.takeOp id).locals ⊆ w.locals :=
  List.map_subset _ List.eraseP_subset

theorem locals_perform : (w.perform op r).locals = w.locals := by
  unfold locals
  rw [perform_frame.2.2.2, List.map_map]
  apply List.map_congr_left
  intro o _
  simp only [Function.comp_def]
  split_ifs <;> rfl

/-- A change that keeps the stream of every session. -/
theorem streams_modifySession {u : AttachSession → AttachSession}
    (hu : ∀ sess, (u sess).streamFd = sess.streamFd) {s : ℕ} :
    ((w.modifySession sid u).g.attachSessions.lookup s).map AttachSession.streamFd =
      (w.g.attachSessions.lookup s).map AttachSession.streamFd := by
  change ((w.g.attachSessions.update sid u).lookup s).map _ = _
  rw [Table.lookup_update_ite]
  split_ifs with hs
  · rw [hs]
    cases w.g.attachSessions.lookup sid with
    | none => rfl
    | some sess => exact congrArg some (hu sess)
  · rfl

/-- The pipes of the changed container are those of another one's gateway. -/
theorem registered_modifyContainer {f : ContainerInfo → ContainerInfo} {info : ContainerInfo}
    (hi : w.g.containers.lookup pid = some info)
    (hf : ∀ p ∈ (f info).gateway.pipes, ∃ q ∈ info.gateway.pipes, q.id = p.id ∧ q.fd = p.fd)
    {p : Pid} (hr : (w.modifyContainer pid f).Registered p pipeId pipe) :
    w.Registered p pipeId pipe := by
  obtain ⟨info', hi', q, hq, hid, hfd⟩ := hr
  have hl : (w.g.containers.update pid f).lookup p = some info' := hi'
  rw [Table.lookup_update_ite] at hl
  split_ifs at hl with hp
  · rw [hi] at hl
    obtain rfl := Option.some.inj hl
    obtain ⟨q', hq', hid', hfd'⟩ := hf q hq
    exact ⟨info, hp ▸ hi, q', hq', hid'.trans hid, hfd'.trans hfd⟩
  · exact ⟨info', hl, q, hq, hid, hfd⟩

end World

/-- The ids of sessions and of follow pipes are given out once. -/
structure Origins (w : World) : Prop where
  streams : Issued w.Streams w.g.nextSessionId
  pipes : Issued w.Pipes w.g.nextPipeId

namespace Origins

theorem init : Origins .init := by
  constructor
  · apply Issued.none
    rintro sid stream (hs | ⟨loc, hloc, -⟩)
    · cases hs
    · cases hloc
  · apply Issued.none
    rintro pipeId pipe (⟨pid, info, hi, -⟩ | ⟨loc, hloc, -⟩)
    · cases hi
    · cases hloc

/-- No session, no pipe and no write is new. -/
theorem mono (hx : Origins w)
    (hs : ∀ s stream, (w'.g.attachSessions.lookup s).map AttachSession.streamFd = some stream →
      (w.g.attachSessions.lookup s).map AttachSession.streamFd = some stream)
    (hp : ∀ p id pipe, w'.Registered p id pipe → w.Registered p id pipe)
    (hl : w'.locals ⊆ w.locals) (hnexts : w'.g.nextSessionId = w.g.nextSessionId)
    (hnextp : w'.g.nextPipeId = w.g.nextPipeId) : Origins w' := by
  constructor
  · refine hx.streams.mono ?_ hnexts.ge
    rintro s stream (hsess | ⟨loc, hloc, hstream⟩)
    · exact .inl (hs s stream hsess)
    · exact .inr ⟨loc, hl hloc, hstream⟩
  · refine hx.pipes.mono ?_ hnextp.ge
    rintro id pipe (⟨p, hreg⟩ | ⟨loc, hloc, hpipe⟩)
    · exact .inl ⟨p, hp p id pipe hreg⟩
    · exact .inr ⟨loc, hl hloc, hpipe⟩

theorem congr (hx : Origins w) (hg : w'.g = w.g) (hl : w'.locals ⊆ w.locals) : Origins w' := by
  refine hx.mono (fun s stream hs => ?_) (fun p id pipe hr => ?_) hl (by rw [hg]) (by rw [hg])
  · rw [hg] at hs
    exact hs
  · unfold World.Registered at hr
    rw [hg] at hr
    exact hr

/-- A new op writes to a stream or a pipe that is known by its id. -/
theorem submit (hx : Origins w) (hs : ∀ s stream, loc.stream = some (s, stream) → w.Streams s stream)
    (hp : ∀ id pipe, loc.followPipe = some (id, pipe) → w.Pipes id pipe) :
    Origins (w.submit loc fd want ok) := by
  have hmem : ∀ l ∈ (w.submit loc fd want ok).locals, l ∈ w.locals ∨ l = loc := by
    intro l hl
    rw [World.locals_submit, List.mem_append] at hl
    cases ok with
    | false => exact .inl (by simpa using hl)
    | true => simpa using hl
  constructor
  · refine hx.streams.mono ?_ le_rfl
    rintro s stream (hsess | ⟨l, hl, hstream⟩)
    · exact .inl hsess
    · rcases hmem l hl with hl | rfl
      · exact .inr ⟨l, hl, hstream⟩
      · exact hs s stream hstream
  · refine hx.pipes.mono ?_ le_rfl
    rintro id pipe (hreg | ⟨l, hl, hpipe⟩)
    · exact .inl hreg
    · rcases hmem l hl with hl | rfl
      · exact .inr ⟨l, hl, hpipe⟩
      · exact hp id pipe hpipe

/-- The new op writes to no stream and to no follow pipe. -/
theorem submitOther (hx : Origins w) (hs : loc.stream = none) (hp : loc.followPipe = none) :
    Origins (w.submit loc fd want ok) := by
  apply hx.submit
  · intro s stream hstream
    rw [hs] at hstream
    cases hstream
  · intro id pipe hpipe
    rw [hp] at hpipe
    cases hpipe

theorem note (hx : Origins w) (e : Entry) : Origins (w.note e) :=
  hx.congr rfl fun _ hl => hl

/-- A frame on the stream of a session. -/
theorem beginFrame {sess : AttachSession} {frame : Frame} (hx : Origins w)
    (hs : w.g.attachSessions.lookup sid = some sess) (hloc : loc.stream = some (sid, sess.streamFd))
    (hp : loc.followPipe = none) : Origins (w.beginFrame stream frame loc want ok) := by
  have hsub : Origins (w.submit loc (some stream.handle) want ok) := by
    apply hx.submit
    · intro s stream' hstream
      rw [hloc] at hstream
      obtain ⟨rfl, rfl⟩ := Prod.mk.inj (Option.some.inj hstream)
      left
      rw [hs]
      rfl
    · intro id pipe hpipe
      rw [hp] at hpipe
      cases hpipe
  unfold World.beginFrame
  split_ifs
  · exact hsub.note _
  · exact hsub

theorem modifySession {u : AttachSession → AttachSession} (hx : Origins w)
    (hu : ∀ sess, (u sess).streamFd = sess.streamFd) : Origins (w.modifySession sid u) := by
  refine hx.mono (fun s stream hs => ?_) (fun _ _ _ hr => hr) (fun _ hl => hl) rfl rfl
  rw [World.streams_modifySession hu] at hs
  exact hs

theorem modifyContainer {f : ContainerInfo → ContainerInfo} {info : ContainerInfo} (hx : Origins w)
    (hi : w.g.containers.lookup pid = some info)
    (hf : ∀ p ∈ (f info).gateway.pipes, ∃ q ∈ info.gateway.pipes, q.id = p.id ∧ q.fd = p.fd) :
    Origins (w.modifyContainer pid f) :=
  hx.mono (fun _ _ hs => hs) (fun _ _ _ hr => World.registered_modifyContainer hi hf hr)
    (fun _ hl => hl) rfl rfl

/-- The container's pipes are not touched. -/
theorem modifySame {f : ContainerInfo → ContainerInfo} (hx : Origins w)
    (hf : ∀ info, (f info).gateway = info.gateway) : Origins (w.modifyContainer pid f) := by
  cases hi : w.g.containers.lookup pid with
  | none =>
    have hsame : w.g.containers.update pid f = w.g.containers := Table.update_of_none hi
    refine hx.mono (fun _ _ hs => hs) (fun p id pipe hr => ?_) (fun _ hl => hl) rfl rfl
    unfold World.Registered World.modifyContainer at hr
    rw [hsame] at hr
    exact hr
  | some info =>
    apply hx.modifyContainer hi
    intro p hp
    rw [hf] at hp
    exact ⟨p, hp, rfl, rfl⟩

theorem reap {exitCode : ℤ} {told : Option ℕ} (hx : Origins w) :
    Origins (w.reap pid exitCode told) := by
  have hx₁ : Origins ({ w with children := w.children.erase pid }.note (.reaped pid exitCode)) :=
    hx.congr rfl fun _ hl => hl
  cases told with
  | none => exact hx₁
  | some sid => exact hx₁.modifySession fun _ => rfl

theorem bury {info : ContainerInfo} (hx : Origins w) : Origins (w.buryContainer pid info) := by
  refine hx.mono (fun _ _ hs => hs) (fun p id pipe hr => ?_) (fun _ hl => hl) rfl rfl
  obtain ⟨info', hi, hp⟩ := hr
  have hl : (w.g.containers.erase pid).lookup p = some info' := hi
  rw [Table.lookup_erase_ite] at hl
  split_ifs at hl
  exact ⟨info', hl, hp⟩

/-- A new container has no follow pipes. -/
theorem install {info : ContainerInfo} (hx : Origins w) (hnew : info.gateway = .new logCapacity)
    (hg : w'.g.containers = w.g.containers.insert pid info)
    (hs : w'.g.attachSessions = w.g.attachSessions) (hl : w'.locals ⊆ w.locals)
    (hnexts : w'.g.nextSessionId = w.g.nextSessionId)
    (hnextp : w'.g.nextPipeId = w.g.nextPipeId) : Origins w' := by
  refine hx.mono (fun s stream hstream => ?_) (fun p id pipe hr => ?_) hl hnexts hnextp
  · rw [hs] at hstream
    exact hstream
  · obtain ⟨info', hi, q, hq, hid, hfd⟩ := hr
    rw [hg, Table.lookup_insert_ite] at hi
    split_ifs at hi
    · obtain rfl := Option.some.inj hi
      rw [hnew] at hq
      cases hq
    · exact ⟨info', hi, q, hq, hid, hfd⟩

/-- A client connects: the stream gets the next id. -/
theorem accept (hx : Origins w) : Origins { w with
    g.nextSessionId := w.g.nextSessionId + 1
    g.attachSessions := w.g.attachSessions.insert w.g.nextSessionId (.new stream) } := by
  constructor
  · refine hx.streams.issue (a := stream) ?_
    rintro s stream' (hs | hloc)
    · change ((w.g.attachSessions.insert w.g.nextSessionId (.new stream)).lookup s).map _ = _ at hs
      rw [Table.lookup_insert_ite] at hs
      split_ifs at hs with hsid
      · exact .inr ⟨hsid, (Option.some.inj hs).symm⟩
      · exact .inl (.inl hs)
    · exact .inl (.inr hloc)
  · exact hx.pipes

/-- A follow pipe gets the next id. -/
theorem attachPipe {info : ContainerInfo} (hx : Origins w)
    (hi : w.g.containers.lookup pid = some info) :
    Origins (w.attachPipe pid w.g.nextPipeId pipe) := by
  constructor
  · exact hx.streams
  · refine hx.pipes.issue (a := pipe) ?_
    rintro id pipe' (⟨p, info', hi', q, hq, hid, hfd⟩ | hloc)
    · change (w.g.containers.update pid _).lookup p = some info' at hi'
      rw [Table.lookup_update_ite] at hi'
      split_ifs at hi' with hp
      · rw [hi] at hi'
        obtain rfl := Option.some.inj hi'
        have hmem : q ∈ info.gateway.pipes ++ [⟨w.g.nextPipeId, pipe, false⟩] := hq
        rcases List.mem_append.mp hmem with hold | hnew
        · exact .inl (.inl ⟨p, info, hp ▸ hi, q, hold, hid, hfd⟩)
        · obtain rfl := List.mem_singleton.mp hnew
          exact .inr ⟨hid.symm, hfd.symm⟩
      · exact .inl (.inl ⟨p, info', hi', q, hq, hid, hfd⟩)
    · exact .inl (.inr hloc)

theorem perform (hx : Origins w) : Origins (w.perform op r) := by
  apply hx.congr World.g_perform
  rw [World.locals_perform]
  exact List.Subset.refl _

end Origins

theorem stream_of_resumes {stdinFd : ℕ → Option Handle} {n : ℕ} {loc' : OpLocal}
    (hr : Resumes stdinFd n loc loc' fd) : loc'.stream = loc.stream := by cases hr <;> rfl

theorem followPipe_of_resumes {stdinFd : ℕ → Option Handle} {n : ℕ} {loc' : OpLocal}
    (hr : Resumes stdinFd n loc loc' fd) : loc'.followPipe = loc.followPipe := by cases hr <;> rfl

theorem names_of_reader (hr : loc.reader = some sid) : loc.stream = none ∧ loc.followPipe = none := by
  cases loc <;> first | exact ⟨rfl, rfl⟩ | cases hr

theorem names_of_loop {l : Loop} (hl : loc.loop = some l) :
    loc.stream = none ∧ loc.followPipe = none := by
  cases loc <;> first | exact ⟨rfl, rfl⟩ | cases hl

theorem World.mem_locals (hop : w.findOp id = some op) : op.loc ∈ w.locals :=
  List.mem_map_of_mem (List.mem_of_find?_eq_some hop)

private theorem pipes_push {info : ContainerInfo} {g : LogGateway} {line : Bytes} {ids : List ℕ}
    (hpush : info.gateway.push line = some (g, ids)) :
    ∀ p ∈ g.pipes, ∃ q ∈ info.gateway.pipes, q.id = p.id ∧ q.fd = p.fd := by
  intro p hp
  rw [(LogGateway.push_eq hpush).1] at hp
  obtain ⟨q, hq, rfl⟩ := List.mem_map.mp hp
  exact ⟨q, hq, rfl, rfl⟩

private theorem pipes_completeWrite {g : LogGateway} {x : ℕ} :
    ∀ p ∈ (g.completeWrite x ok).1.pipes, ∃ q ∈ g.pipes, q.id = p.id ∧ q.fd = p.fd := by
  intro p hp
  rcases g.completeWrite_cases x ok with ⟨-, heq⟩ | ⟨q, rest, -, hperm, -, hpipes⟩
  · rw [heq] at hp
    exact ⟨p, hp, rfl, rfl⟩
  · have hmem := hpipes.mem_iff.mp hp
    cases ok with
    | true =>
      rcases List.mem_cons.mp hmem with rfl | hrest
      · exact ⟨q, hperm.mem_iff.mpr List.mem_cons_self, rfl, rfl⟩
      · exact ⟨p, hperm.mem_iff.mpr (List.mem_cons_of_mem q hrest), rfl, rfl⟩
    | false => exact ⟨p, hperm.mem_iff.mpr (List.mem_cons_of_mem q hmem), rfl, rfl⟩

theorem Move.origins (hm : Move τ (h, w) (h', w')) (hx : Origins w) : Origins w' := by
  cases hm with
  | refused | denied => exact hx.congr rfl fun _ hl => by simpa [World.locals_submit] using hl
  | read hr =>
    obtain ⟨hs, hp⟩ := names_of_reader hr
    exact hx.submitOther hs hp
  | output | passFd => exact hx.submitOther rfl rfl
  | offer => exact Origins.submitOther (hx.note _) rfl rfl
  | @rearm _ _ kind => cases kind <;> exact hx.submitOther rfl rfl
  | relisten hl =>
    obtain ⟨hs, hp⟩ := names_of_loop hl
    exact hx.submitOther hs hp
  | @resume _ _ id n want op loc fd hop hr hres =>
    have hmem := World.mem_locals hop
    have hsub : Origins (w.submit loc fd want true) := by
      apply hx.submit
      · intro s stream hs
        rw [stream_of_resumes hres] at hs
        exact .inr ⟨op.loc, hmem, hs⟩
      · intro id pipe hp
        rw [followPipe_of_resumes hres] at hp
        exact .inr ⟨op.loc, hmem, hp⟩
    refine hsub.congr rfl ?_
    rw [World.locals_submit, World.locals_submit]
    intro l hl
    rcases List.mem_append.mp hl with hold | hnew
    · exact List.mem_append_left _ (World.locals_takeOp hold)
    · exact List.mem_append_right _ hnew
  | retire => exact hx.congr rfl World.locals_takeOp
  | respond hs | data hs => exact hx.beginFrame hs rfl rfl
  | @finish _ _ sid want sess ok hs =>
    have hx₁ : Origins (w.modifySession sid ({ · with exitSent := true })) :=
      hx.modifySession fun _ => rfl
    have hs₁ : (w.modifySession sid ({ · with exitSent := true })).g.attachSessions.lookup sid =
        some { sess with exitSent := true } := by
      change (w.g.attachSessions.update sid _).lookup sid = _
      rw [Table.lookup_update_ite, if_pos rfl, hs]
      rfl
    exact hx₁.beginFrame hs₁ rfl rfl
  | accept => exact hx.accept
  | @close _ _ sid sess hs =>
    refine hx.mono (fun s stream hstream => ?_) (fun _ _ _ hr => hr) (fun _ hl => hl) rfl rfl
    change ((w.g.attachSessions.erase sid).lookup s).map _ = _ at hstream
    rw [Table.lookup_erase_ite] at hstream
    split_ifs at hstream
    · cases hstream
    · exact hstream
  | @storeOp _ _ sid which =>
    apply hx.modifySession
    intro sess
    cases which <;> rfl
  | drained => exact hx.modifySession fun _ => rfl
  | adoptRun | eofOwn =>
    apply Origins.note
    exact hx.modifySession fun _ => rfl
  | adoptAttach hs hi =>
    apply Origins.note
    exact (hx.attachPipe hi).modifySession fun _ => rfl
  | attachGone hs hi | followPipe hi => exact (hx.attachPipe hi).note _
  | @eofBorrowed _ _ sid =>
    have hx₁ : Origins (w.modifySession sid ({ · with inputFd := none })) :=
      hx.modifySession fun _ => rfl
    exact hx₁.congr rfl fun _ hl => hl
  | installDetached hnew | installAttached hnew =>
    exact hx.install hnew rfl rfl (fun _ hl => hl) rfl rfl
  | dropPtm | addDrain | drainEnds => exact hx.modifySame fun _ => rfl
  | buryDrained => exact hx.bury
  | pushLine hi hpush =>
    apply Origins.note
    exact hx.modifyContainer hi (pipes_push hpush)
  | follow hreg =>
    apply hx.submit
    · intro s stream hs
      cases hs
    · intro id pipe hp
      obtain ⟨rfl, rfl⟩ := Prod.mk.inj (Option.some.inj hp)
      exact .inl ⟨_, hreg⟩
  | wrote hi => exact hx.modifyContainer hi pipes_completeWrite
  | reaped => exact hx.reap
  | buryReaped => exact hx.reap.bury
  | _ =>
    exact hx.mono (fun _ _ hs => hs) (fun _ _ _ hr => hr) (fun _ hl => hl) rfl rfl

def World.Recorded (w : World) : Prop := ∀ n f, w.fds.lookup n = some f → .opened (n, f) ∈ w.trace

theorem World.Recorded.congr (hr : w.Recorded)
    (hfds : ∀ n f, w'.fds.lookup n = some f → w.fds.lookup n = some f ∨ .opened (n, f) ∈ w'.trace)
    (htr : w.trace ⊆ w'.trace) : w'.Recorded := by
  intro n f hf
  rcases hfds n f hf with hold | hnew
  · exact htr (hr n f hold)
  · exact hnew

theorem World.Recorded.closeFd (hr : w.Recorded) : (w.closeFd d).Recorded := by
  refine hr.congr (fun n f hf => .inl ?_) (List.subset_append_left _ _)
  change (w.fds.erase d.1).lookup n = some f at hf
  rw [Table.lookup_erase_ite] at hf
  split_ifs at hf
  exact hf

/-- Nothing is opened or closed. -/
theorem World.Recorded.same (hr : w.Recorded) (hfds : w'.fds = w.fds)
    (htr : w.trace ⊆ w'.trace) : w'.Recorded := by
  apply hr.congr _ htr
  intro n f hf
  rw [hfds] at hf
  exact .inl hf

theorem World.Recorded.openFd {k : FileKind} {n : ℕ} (hr : w.Recorded) : (w.openFd k n).Recorded := by
  refine hr.congr (fun m f hf => ?_) (List.subset_append_left _ _)
  change (w.fds.insert n ⟨k, w.nextGen⟩).lookup m = some f at hf
  rw [Table.lookup_insert_ite] at hf
  split_ifs at hf with hm
  · obtain rfl := Option.some.inj hf
    right
    simp [hm]
  · exact .inl hf

theorem Move.recorded (hm : Move τ (h, w) (h', w')) (hr : w.Recorded) : w'.Recorded := by
  cases hm with
  | acquire => exact hr.openFd
  | release => exact hr.closeFd
  | eofBorrowed =>
    apply World.Recorded.closeFd
    exact hr.same rfl (List.subset_append_left _ _)
  | respond | data | reaped => exact hr.same (by simp) (by simp)
  | finish =>
    apply hr.same
    · rw [World.fds_beginFrame]
      rfl
    · simp
  | @buryReaped _ _ pid exitCode told =>
    have hr₁ : (w.reap pid exitCode told).Recorded := hr.same World.fds_reap (by simp)
    exact hr₁.same rfl (List.subset_append_left _ _)
  | idle | perm | forget | leak | retire | listen | unfinished | accept | storeOp | drained
  | dropOutput | dropPtm | addDrain | drainGone | drainEnds | pushBuried | pushLost | wrote
  | writtenGone => exact hr.same rfl (List.Subset.refl _)
  | _ => exact hr.same rfl (by simp)

theorem World.Recorded.perform (hr : w.Recorded) : (w.perform op r).Recorded := by
  by_cases hacc : ∃ fd, r = .accepted fd
  · obtain ⟨fd, rfl⟩ := hacc
    have hr₁ : (w.openFd .stream fd.num).Recorded := hr.openFd
    exact hr₁
  · rw [not_exists] at hacc
    apply hr.same (World.perform_other hacc).1
    rw [World.trace_perform]
    exact List.subset_append_left _ _

namespace World

def Holds (w : World) (fd : Option Handle) : Prop := ∀ d, fd = some d → d ∈ w.owned

theorem mem_owned_session {sess : AttachSession} (hs : w.g.attachSessions.lookup sid = some sess)
    (hd : d ∈ sess.handles) : d ∈ w.owned := by
  have hmem := Table.mem_flatMap hs hd
  simp only [owned, List.mem_append]
  tauto

theorem mem_owned_container {info : ContainerInfo} (hi : w.g.containers.lookup pid = some info)
    (hd : d ∈ info.handles) : d ∈ w.owned := by
  have hmem := Table.mem_flatMap hi hd
  simp only [owned, List.mem_append]
  tauto

private theorem mem_owned_output {o : Output} (ho : w.g.outputs.lookup pid = some o) :
    o.fd.handle ∈ w.owned := by
  have hmem : o.fd.handle ∈ w.g.outputs.values.map (·.fd.handle) :=
    List.mem_map_of_mem (Table.mem_values.mpr ⟨pid, ho⟩)
  simp only [owned, List.mem_append]
  tauto

private theorem mem_owned_listener (hd : d ∈ w.g.listeners) : d ∈ w.owned := by
  simp only [owned, List.mem_append]
  tauto

theorem mem_handles {k : FileKind} {fd : RawFd k} : d ∈ RawFd.handles fd ↔ RawFd.handle fd = some d :=
  Option.mem_toList

private theorem holds_streamFd : w.Holds (w.streamFd sid) := by
  intro d hd
  obtain ⟨sess, hs, rfl⟩ := Option.map_eq_some_iff.mp hd
  exact mem_owned_session hs List.mem_cons_self

theorem holds_stream {sess : AttachSession} (hs : w.g.attachSessions.lookup sid = some sess) :
    w.Holds (some sess.streamFd.handle) := by
  intro d hd
  obtain rfl := Option.some.inj hd
  exact mem_owned_session hs List.mem_cons_self

private theorem holds_outputFd {sess : AttachSession} (hs : w.g.attachSessions.lookup sid = some sess) :
    w.Holds sess.outputFd := by
  intro d hd
  apply mem_owned_session hs
  unfold AttachSession.handles
  unfold AttachSession.outputFd at hd
  cases hp : sess.ptmFd with
  | some fd =>
    rw [hp] at hd
    obtain rfl := Option.some.inj hd
    simp [RawFd.handles, RawFd.handle]
  | none =>
    rw [hp] at hd
    have hlog : d ∈ RawFd.handles sess.logReadFd := mem_handles.mpr hd
    simp [hlog]

/-- A stdin is held by the session itself, or by the container that it was borrowed from. -/
theorem holds_stdinFd {buf : Bytes} {off : ℕ} (hb : w.backed (.sessionStdin sid buf off) = true) :
    w.Holds (w.stdinFd sid) := by
  intro d hd
  obtain ⟨sess, hs, hin⟩ := Option.bind_eq_some_iff.mp hd
  have hb' : (sess.ptmFd.isSome || sess.inputFd.all fun i => w.lists i.handle) = true := by
    simpa [backed, hs] using hb
  unfold AttachSession.stdinFd at hin
  cases hp : sess.ptmFd with
  | some fd =>
    rw [hp] at hin
    obtain rfl := Option.some.inj hin
    apply mem_owned_session hs
    simp [AttachSession.handles, RawFd.handles, RawFd.handle, hp]
  | none =>
    rw [hp] at hin hb'
    obtain ⟨i, hi, rfl⟩ := Option.map_eq_some_iff.mp hin
    have hl : w.lists i.handle = true := by simpa [hi] using hb'
    obtain ⟨info, hmem, hlist⟩ := List.any_eq_true.mp hl
    obtain ⟨pid, hinfo⟩ := Table.mem_values.mp hmem
    apply mem_owned_container hinfo
    have hlist' : i.handle ∈ RawFd.handles info.ptmFd ++ RawFd.handles info.stdinFd := by
      simpa using hlist
    unfold ContainerInfo.handles
    exact List.mem_append_left _ (List.mem_append_left _ hlist')

theorem holds_loopFd {l : Loop} : w.Holds (w.loopFd l) := by
  intro d hd
  apply mem_owned_listener
  unfold DaemonState.listeners
  cases l <;> simp only [List.mem_append, mem_handles] <;> tauto

private theorem holds_drainFd {kind : Drain} : w.Holds (w.drainFd pid kind) := by
  intro d hd
  cases kind with
  | output =>
    obtain ⟨o, ho, rfl⟩ := Option.map_eq_some_iff.mp hd
    exact mem_owned_output ho
  | pty =>
    obtain ⟨fd, hfd, rfl⟩ := Option.map_eq_some_iff.mp hd
    obtain ⟨info, hi, hptm⟩ := Option.bind_eq_some_iff.mp hfd
    apply mem_owned_container hi
    simp [ContainerInfo.handles, RawFd.handles, RawFd.handle, hptm]

theorem holds_pipe (hr : w.Registered pid pipeId pipe) : w.Holds (some pipe.handle) := by
  intro d hd
  obtain rfl := Option.some.inj hd
  obtain ⟨info, hi, p, hp, -, rfl⟩ := hr
  apply mem_owned_container hi
  unfold ContainerInfo.handles
  exact List.mem_append_right _ (List.mem_map_of_mem hp)

end World

/-- The write that goes on finds the record of its own descriptor. -/
theorem Resumes.holds {n : ℕ} {loc' : OpLocal} (hx : Origins w) (hr : Resumes w.stdinFd n loc loc' fd)
    (hloc : loc ∈ w.locals) (hb : w.backed loc = true) : w.Holds fd := by
  have hstream : ∀ sid stream, loc.stream = some (sid, stream) →
      (w.g.attachSessions.lookup sid).isSome = true → w.Holds (some stream.handle) := by
    intro sid stream hs hsome
    obtain ⟨sess, hsess⟩ := Option.isSome_iff_exists.mp hsome
    have hown : sess.streamFd = stream := by
      apply hx.streams.single sid
      · left
        rw [hsess]
        rfl
      · exact .inr ⟨loc, hloc, hs⟩
    rw [← hown]
    exact World.holds_stream hsess
  cases hr with
  | frame | header | payload | data => exact hstream _ _ rfl hb
  | stdin => exact World.holds_stdinFd hb
  | @follow pid pipeId pipe =>
    obtain ⟨info, hi, hpipes⟩ := (Option.any_eq_true _ _).mp hb
    obtain ⟨p, hp, hid⟩ := List.any_eq_true.mp hpipes
    obtain rfl : p.id = pipeId := by simpa using hid
    have hreg : w.Registered pid p.id p.fd := ⟨info, hi, p, hp, rfl, rfl⟩
    have hown : p.fd = pipe := hx.pipes.single p.id p.fd pipe (.inl ⟨pid, hreg⟩) (.inr ⟨_, hloc, rfl⟩)
    rw [← hown]
    exact World.holds_pipe hreg

def OpLocal.target (loc : OpLocal) : Option Handle :=
  match loc.stream, loc.followPipe with
  | some (_, stream), _ => some stream.handle
  | none, some (_, pipe) => some pipe.handle
  | none, none => none

/-- An op that is armed names no descriptor, or one that has been opened and not closed since, and so
stands for what it was opened as. -/
def ArmsOwn (before : List Entry) : Entry → Prop
  | .submitted loc fd file true => file = fd.map Prod.snd ∧ ∀ d, fd = some d →
      .opened d ∈ before ∧ (∀ v, .closed d v ∉ before) ∧ ∀ t, loc.target = some t → d = t
  | _ => True

/-- A write reaches what its op has named. -/
def WritesOwn (before : List Entry) : Entry → Prop
  | .wrote loc f _ => ∃ d, d.2 = f ∧ .submitted loc (some d) (some f) true ∈ before
  | _ => True

def Entry.isWrote : Entry → Bool
  | .wrote .. => true
  | _ => false

theorem held_of_owned (hd : d ∈ w.owned) : 0 < held h w d := by
  have hpos := List.count_pos_iff.mpr hd
  unfold held
  omega

/-- The descriptors of the state may be named. -/
theorem armsOwn_of_holds (hx : Ledger h w) (hr : w.Recorded) (hh : w.Holds fd)
    (ht : ∀ t, loc.target = some t → fd = some t) :
    ArmsOwn w.trace (.submitted loc fd (w.file fd) true) := by
  have hcurrent : ∀ d, fd = some d → w.fds.lookup d.1 = some d.2 := fun d hd =>
    hx.owns.current d (held_of_owned (hh d hd))
  constructor
  · cases hfd : fd with
    | none => rfl
    | some d => exact hcurrent d hfd
  · intro d hd
    refine ⟨hr d.1 d.2 (hcurrent d hd), fun v hclosed => ?_, fun t htarget => ?_⟩
    · have hzero := (hx.closed d v hclosed).2
      have hpos := held_of_owned (h := h) (hh d hd)
      omega
    · exact Option.some.inj (hd.symm.trans (ht t htarget))

/-- Every op in flight has been submitted. -/
def World.Sent (w : World) : Prop :=
  ∀ op ∈ w.ops, ∃ file, .submitted op.loc op.fd file true ∈ w.trace

namespace World.Sent

theorem congr (hs : w.Sent) (hops : w'.ops ⊆ w.ops) (htr : w.trace ⊆ w'.trace) : w'.Sent := by
  intro op hop
  obtain ⟨file, hmem⟩ := hs op (hops hop)
  exact ⟨file, htr hmem⟩

theorem submit (hs : w.Sent) : (w.submit loc fd want ok).Sent := by
  have hold : ∀ op ∈ w.ops,
      ∃ file, .submitted op.loc op.fd file true ∈ (w.submit loc fd want ok).trace := by
    intro op hop
    obtain ⟨file, hmem⟩ := hs op hop
    exact ⟨file, List.mem_append_left _ hmem⟩
  intro op hop
  rw [ops_submit] at hop
  cases ok with
  | false => exact hold op hop
  | true =>
    rw [if_pos rfl] at hop
    rcases List.mem_append.mp hop with hop | hop
    · exact hold op hop
    · obtain rfl := List.mem_singleton.mp hop
      exact ⟨w.file fd, by simp⟩

theorem beginFrame {frame : Frame} (hs : w.Sent) : (w.beginFrame stream frame loc want ok).Sent := by
  unfold World.beginFrame
  split_ifs
  · exact hs.submit.congr (List.Subset.refl _) (List.subset_append_left _ _)
  · exact hs.submit

theorem takeOp (hs : w.Sent) : (w.takeOp id).Sent :=
  hs.congr List.eraseP_subset (List.Subset.refl _)

theorem perform (hs : w.Sent) : (w.perform op r).Sent := by
  intro o ho
  rw [perform_frame.2.2.2] at ho
  rw [trace_perform]
  obtain ⟨o', ho', rfl⟩ := List.mem_map.mp ho
  obtain ⟨file, hsent⟩ := hs o' ho'
  split_ifs <;> exact ⟨file, List.mem_append_left _ hsent⟩

end World.Sent

theorem Move.sent (hm : Move τ (h, w) (h', w')) (hs : w.Sent) : w'.Sent := by
  cases hm with
  | refused | denied | read | output | passFd | relisten | rearm | follow => exact hs.submit
  | resume => exact hs.takeOp.submit
  | retire => exact hs.takeOp
  | respond | data => exact hs.beginFrame
  | finish => exact World.Sent.beginFrame hs
  | offer => exact World.Sent.submit (hs.congr (List.Subset.refl _) (List.subset_append_left _ _))
  | reaped => exact hs.congr (by simp) (by simp)
  | @buryReaped _ _ pid exitCode told =>
    have hs₁ : (w.reap pid exitCode told).Sent := hs.congr (by simp) (by simp)
    exact hs₁.congr (List.Subset.refl _) (List.subset_append_left _ _)
  | idle | perm | forget | leak | listen | unfinished | accept | storeOp | drained | dropOutput
  | dropPtm | addDrain | drainGone | drainEnds | pushBuried | pushLost | wrote | writtenGone =>
    exact hs
  | _ => exact hs.congr (List.Subset.refl _) (by simp)

namespace World

/-- No op is taken up, and each new one has an id of its own. -/
structure Onward (w w' : World) : Prop where
  resolved : w'.resolved = w.resolved
  nextOp : w.nextOp ≤ w'.nextOp
  ops : ∀ op ∈ w'.ops, op ∈ w.ops ∨ w.nextOp ≤ op.id

namespace Onward

theorem same (hr : w'.resolved = w.resolved) (hn : w'.nextOp = w.nextOp) (hops : w'.ops ⊆ w.ops) :
    w.Onward w' :=
  ⟨hr, hn.ge, fun _ hop => .inl (hops hop)⟩

theorem trans {w₁ : World} (h₁ : w.Onward w₁) (h₂ : w₁.Onward w') : w.Onward w' := by
  refine ⟨h₂.resolved.trans h₁.resolved, h₁.nextOp.trans h₂.nextOp, fun op hop => ?_⟩
  rcases h₂.ops op hop with hop | hle
  · exact h₁.ops op hop
  · exact .inr (h₁.nextOp.trans hle)

theorem submit : w.Onward (w.submit loc fd want ok) := by
  refine ⟨rfl, ?_, fun op hop => ?_⟩
  · cases ok <;> simp [World.submit, World.note]
  · rw [ops_submit] at hop
    split_ifs at hop
    · rcases List.mem_append.mp hop with hop | hop
      · exact .inl hop
      · obtain rfl := List.mem_singleton.mp hop
        exact .inr le_rfl
    · exact .inl hop

theorem beginFrame {frame : Frame} : w.Onward (w.beginFrame stream frame loc want ok) := by
  unfold World.beginFrame
  split_ifs
  · exact submit.trans (.same rfl rfl (List.Subset.refl _))
  · exact submit

theorem reap {exitCode : ℤ} {told : Option ℕ} : w.Onward (w.reap pid exitCode told) := by
  cases told <;> exact .same rfl rfl (List.Subset.refl _)

end Onward

end World

theorem Move.onward (hm : Move τ (h, w) (h', w')) : w.Onward w' := by
  have hsame : ∀ {w' : World}, w'.resolved = w.resolved → w'.nextOp = w.nextOp → w'.ops = w.ops →
      w.Onward w' := fun hr hn hops => .same hr hn (hops ▸ List.Subset.refl _)
  cases hm with
  | refused | denied | read | output | passFd | relisten | rearm | follow => exact .submit
  | @resume _ _ id n want op loc fd =>
    have htake : w.Onward (w.takeOp id) := .same rfl rfl List.eraseP_subset
    exact htake.trans .submit
  | retire => exact .same rfl rfl List.eraseP_subset
  | respond | data => exact .beginFrame
  | finish =>
    refine World.Onward.trans ?_ .beginFrame
    exact hsame rfl rfl rfl
  | offer =>
    refine World.Onward.trans ?_ .submit
    exact hsame rfl rfl rfl
  | reaped => exact .reap
  | buryReaped => exact World.Onward.reap.trans (.same rfl rfl (List.Subset.refl _))
  | _ => exact hsame rfl rfl rfl

/-- What the daemon's own records say of the descriptors it names. -/
structure Armed (h : List Token) (w : World) : Prop where
  ledger : Ledger h w
  origins : Origins w
  recorded : w.Recorded
  sent : w.Sent
  fresh : ∀ id, w.nextOp ≤ id → w.resolved.lookup id = none
  arms : Always ArmsOwn w.trace

/-- What the kernel has found behind each number is what the op named. -/
structure Named (h : List Token) (w : World) : Prop extends Armed h w where
  own : ∀ op ∈ w.ops, ∀ f, w.reached op = some f → op.fd.map Prod.snd = some f
  writes : Always WritesOwn w.trace

theorem Armed.init : Armed [] .init where
  ledger := .init
  origins := .init
  recorded := by
    intro n f hf
    cases hf
  sent := by
    intro op hop
    cases hop
  fresh _ _ := rfl
  arms := .nil

theorem Named.init : Named [] .init where
  toArmed := .init
  own := by
    intro op hop
    cases hop
  writes := .nil

/-- What is said of an op in flight when it is armed. -/
theorem Armed.target (hx : Armed h w) (hop : op ∈ w.ops) :
    ∀ d, op.fd = some d → ∀ t, op.loc.target = some t → d = t := by
  intro d hd
  obtain ⟨file, hsent⟩ := hx.sent op hop
  obtain ⟨before, -, -, hown⟩ := hx.arms.of_mem hsent
  exact (hown d hd).2.2

theorem target_eq_none (hs : loc.stream = none) (hp : loc.followPipe = none) : loc.target = none := by
  unfold OpLocal.target
  rw [hs, hp]

theorem Resumes.target {stdinFd : ℕ → Option Handle} {n : ℕ} {loc' : OpLocal}
    (hr : Resumes stdinFd n loc loc' fd) : ∀ t, loc'.target = some t → fd = some t := by
  intro t ht
  cases hr with
  | stdin => cases ht
  | _ => exact ht

/-- What is said of a submission stays true until something is closed. -/
theorem ArmsOwn.later {tr : List Entry} {file : Option File} {e : Entry}
    (hn : ArmsOwn tr (.submitted loc fd file ok)) (he : ∀ d v, e ≠ .closed d v) :
    ArmsOwn (tr ++ [e]) (.submitted loc fd file ok) := by
  cases ok with
  | false => trivial
  | true =>
    obtain ⟨hfile, hown⟩ := hn
    refine ⟨hfile, fun d hd => ?_⟩
    obtain ⟨hopened, hclosed, ht⟩ := hown d hd
    refine ⟨List.mem_append_left _ hopened, fun v hmem => ?_, ht⟩
    rcases List.mem_append.mp hmem with hmem | hmem
    · exact hclosed v hmem
    · exact he d v (List.mem_singleton.mp hmem).symm

theorem Move.armsOwn (hl : τ.live) (hm : Move τ (h, w) (h', w')) (hx : Armed h w) :
    Always ArmsOwn w'.trace := by
  have hown : ∀ {loc : OpLocal} {fd : Option Handle}, w.Holds fd →
      (∀ t, loc.target = some t → fd = some t) →
        ArmsOwn w.trace (.submitted loc fd (w.file fd) true) := fun hh ht =>
    armsOwn_of_holds hx.ledger hx.recorded hh ht
  have hfree : ∀ {loc : OpLocal} {fd : Option Handle}, w.Holds fd → loc.target = none →
      ArmsOwn w.trace (.submitted loc fd (w.file fd) true) := by
    intro loc fd hh ht
    refine hown hh fun t ht' => ?_
    rw [ht] at ht'
    cases ht'
  have hsubmit : ∀ {loc : OpLocal} {fd : Option Handle},
      ArmsOwn w.trace (.submitted loc fd (w.file fd) true) →
        Always ArmsOwn (w.trace ++ [.submitted loc fd (w.file fd) true]) := fun hn =>
    Always.concat_iff.mpr ⟨hx.arms, hn⟩
  have hframe : ∀ {sid : ℕ} {sess : AttachSession} {frame : Frame} {loc : OpLocal} {ok : Bool},
      w.g.attachSessions.lookup sid = some sess → loc.target = some sess.streamFd.handle →
        Always ArmsOwn (w.trace ++ .submitted loc (some sess.streamFd.handle)
          (w.file (some sess.streamFd.handle)) ok ::
            if ok then [.begun sess.streamFd frame] else []) := by
    intro sid sess frame loc ok hs ht
    have hn : ArmsOwn w.trace (.submitted loc (some sess.streamFd.handle)
        (w.file (some sess.streamFd.handle)) true) :=
      hown (World.holds_stream hs) fun t ht' => by rw [← ht', ht]
    cases ok with
    | true => exact Always.pair_iff.mpr ⟨hx.arms, hn, trivial⟩
    | false => exact Always.concat_iff.mpr ⟨hx.arms, trivial⟩
  cases hm with
  | @note _ _ e he =>
    refine Always.concat_iff.mpr ⟨hx.arms, ?_⟩
    cases e <;> first | exact he.elim | trivial
  | read hr =>
    obtain ⟨hs, hp⟩ := names_of_reader hr
    exact hsubmit (hfree World.holds_streamFd (target_eq_none hs hp))
  | output hs hfd =>
    apply hsubmit
    rw [← hfd]
    exact hfree (World.holds_outputFd hs) rfl
  | passFd => exact hsubmit (hfree (World.holds_loopFd (l := .datagram)) rfl)
  | resume hop hr hres hb =>
    have hmem := World.mem_locals hop
    exact hsubmit (hown (hres.holds hx.origins hmem (hb hl)) hres.target)
  | relisten hloop =>
    obtain ⟨hs, hp⟩ := names_of_loop hloop
    exact hsubmit (hfree World.holds_loopFd (target_eq_none hs hp))
  | respond hs | data hs | finish hs =>
    rw [World.trace_beginFrame]
    exact hframe hs rfl
  | @offer _ _ sid want fd payload ok hfd hb =>
    have hn : ArmsOwn w.trace (.submitted (.sessionStdin sid payload 0) (some fd)
        (w.file (some fd)) true) := by
      rw [← hfd]
      exact hfree (World.holds_stdinFd (hb hl)) rfl
    refine Always.concat_iff.mpr ⟨Always.concat_iff.mpr ⟨hx.arms, trivial⟩, ?_⟩
    apply ArmsOwn.later
    · cases ok with
      | true => exact hn
      | false => trivial
    · intro d v he
      cases he
  | @rearm _ _ kind =>
    apply hsubmit
    cases kind <;> exact hfree World.holds_drainFd rfl
  | follow hreg => exact hsubmit (hown (World.holds_pipe hreg) fun t ht => ht)
  | idle | perm | forget | leak | retire | listen | unfinished | accept | storeOp | drained | dropOutput
  | dropPtm | addDrain | drainGone | drainEnds | pushBuried | pushLost | wrote | writtenGone =>
    exact hx.arms
  | _ => simp [ArmsOwn, hx.arms]

theorem Move.armed (ho : τ.owned) (hl : τ.live) (hm : Move τ (h, w) (h', w')) (hx : Armed h w) :
    Armed h' w' where
  ledger := hm.ledger ho hx.ledger
  origins := hm.origins hx.origins
  recorded := hm.recorded hx.recorded
  sent := hm.sent hx.sent
  fresh id hle := by
    rw [hm.onward.resolved]
    exact hx.fresh id (hm.onward.nextOp.trans hle)
  arms := hm.armsOwn hl hx

theorem unwritten_beginFrame {frame : Frame} :
    Quiet Entry.isWrote w.trace (w.beginFrame stream frame loc want ok).trace := by
  rw [World.trace_beginFrame]
  cases ok <;> simp [Entry.isWrote]

/-- The daemon itself writes nothing by an op. -/
theorem Move.unwritten (hm : Move τ (h, w) (h', w')) : Quiet Entry.isWrote w.trace w'.trace := by
  cases hm with
  | @note _ _ e he => cases e <;> first | exact he.elim | simp [Entry.isWrote]
  | respond | data | finish => exact unwritten_beginFrame
  | offer => exact ⟨_, List.append_assoc .., by simp [Entry.isWrote]⟩
  | _ => simp [Entry.isWrote]

theorem Move.named (ho : τ.owned) (hl : τ.live) (hm : Move τ (h, w) (h', w')) (hx : Named h w) :
    Named h' w' where
  toArmed := hm.armed ho hl hx.toArmed
  own op hop f hf := by
    unfold World.reached at hf
    rw [hm.onward.resolved] at hf
    rcases hm.onward.ops op hop with hop | hle
    · exact hx.own op hop f hf
    · rw [hx.fresh op.id hle] at hf
      cases hf
  writes := by
    refine hm.unwritten.keeps (fun before e he hw => Always.concat_iff.mpr ⟨hw, ?_⟩) hx.writes
    cases e <;> trivial

theorem Armed.enter (hx : Armed h w) (hn : w.Numbered) : Armed h w.enter where
  ledger := hx.ledger.enter
  origins := ⟨hx.origins.streams, hx.origins.pipes⟩
  recorded := hx.recorded
  sent := hx.sent
  fresh id hle := by
    refine Eq.trans (Table.lookup_insertAll_of_notMem fun hmem => ?_) (hx.fresh id hle)
    obtain ⟨op, hop, rfl⟩ := List.mem_map.mp hmem
    have hlt := hn.below op (World.mem_queued.mp hop).1
    have hle' : w.nextOp ≤ op.id := hle
    omega
  arms := hx.arms

/-- No descriptor that a queued op names has been closed since it was armed. -/
def EntersOpen (w : World) : Event → Prop
  | .enter => ∀ op ∈ w.queued, ∀ d, op.fd = some d → w.fds.lookup d.1 = some d.2
  | _ => True

instance {e : Event} : Decidable (EntersOpen w e) :=
  match e with
  | .enter => decidable_of_iff (∀ op ∈ w.queued, ∀ d ∈ op.fd, w.fds.lookup d.1 = some d.2) Iff.rfl
  | .perform _ _ | .deliver _ _ => .isTrue trivial

theorem Named.enter (hx : Named h w) (hn : w.Numbered) (hopen : EntersOpen w .enter) :
    Named h w.enter where
  toArmed := hx.toArmed.enter hn
  own op hop f hf := by
    by_cases hq : op ∈ w.queued
    · rw [World.reached_enter_of_queued hn hq] at hf
      cases hfd : op.fd with
      | none =>
        rw [hfd] at hf
        cases hf
      | some d =>
        rw [hfd] at hf
        exact (hopen op hq d hfd).symm.trans hf
    · rw [World.reached_enter_of_taken hn hop hq] at hf
      exact hx.own op hop f hf
  writes := hx.writes

theorem Armed.perform (hx : Armed [] w) (hn : w.Numbered) (hop : w.findOp op.id = some op)
    (hr : op.result = none) (hallows : w.allows op r = true) : Armed [] (w.perform op r) where
  ledger := hx.ledger.perform hn hop hr hallows
  origins := hx.origins.perform
  recorded := hx.recorded.perform
  sent := hx.sent.perform
  fresh id hle := by
    rw [World.resolved_perform]
    rw [World.perform_frame.2.2.1] at hle
    exact hx.fresh id hle
  arms := by
    rcases w.trace_perform_cases op r with htr | ⟨e, htr, hout⟩
    · rw [htr]
      exact hx.arms
    · rw [htr]
      refine Always.concat_iff.mpr ⟨hx.arms, ?_⟩
      cases e <;> first | exact hout.elim | trivial

theorem Named.perform (hx : Named [] w) (hn : w.Numbered) (hop : w.findOp op.id = some op)
    (hr : op.result = none) (hallows : w.allows op r = true) : Named [] (w.perform op r) where
  toArmed := hx.toArmed.perform hn hop hr hallows
  own o ho f hf := by
    unfold World.reached at hf
    rw [World.resolved_perform] at hf
    rw [World.perform_frame.2.2.2] at ho
    obtain ⟨o', ho', rfl⟩ := List.mem_map.mp ho
    obtain ⟨hid, hfd⟩ : (if o'.id = op.id then { o' with result := some r } else o').id = o'.id ∧
        (if o'.id = op.id then { o' with result := some r } else o').fd = o'.fd := by
      split_ifs <;> exact ⟨rfl, rfl⟩
    rw [hid] at hf
    rw [hfd]
    exact hx.own o' ho' f hf
  writes := by
    have hmem := List.mem_of_find?_eq_some hop
    obtain ⟨file, hsent⟩ := hx.sent op hmem
    obtain ⟨before, -, hfile, -⟩ := hx.arms.of_mem hsent
    rw [World.trace_perform]
    unfold World.performed
    cases r with
    | count n =>
      cases hf : w.reached op with
      | none => simpa using hx.writes
      | some f =>
        simp only
        split_ifs
        · simpa using hx.writes
        · refine Always.concat_iff.mpr ⟨hx.writes, ?_⟩
          have hown := hx.own op hmem f hf
          rw [hfile, hown] at hsent
          obtain ⟨d, hd, hdf⟩ := Option.map_eq_some_iff.mp hown
          rw [hd] at hsent
          exact ⟨d, hdf, hsent⟩
    | received => simpa using hx.writes
    | _ => exact Always.concat_iff.mpr ⟨hx.writes, trivial⟩

def Terms.naming : Terms := { Terms.none with owned := True, live := True }

/-- What the daemon relies on to name its own descriptors. -/
structure NamingStep (w : World) (op : InFlight) (r : Result) : Prop where
  owned : OwnedStep w op r
  live : LiveStep w op r

theorem namingStep_iff : ((∀ x ∈ op.loc.frame r, x.2.ty = 0x10 → x.2.payload ≠ [] →
      w.backed (.sessionStdin x.1 x.2.payload 0) = true) ∧
        (op.loc.continues r = true → w.backed op.loc = true)) ∧ OwnedStep w op r ↔
      NamingStep w op r := by
  constructor
  · rintro ⟨⟨hbegins, hgoes⟩, howned⟩
    exact ⟨howned, hgoes, fun sid payload hf hne => hbegins _ hf rfl hne⟩
  · rintro ⟨howned, hgoes, hbegins⟩
    refine ⟨⟨fun x hf hty hne => ?_, hgoes⟩, howned⟩
    obtain ⟨sid, ty, payload⟩ := x
    obtain rfl : ty = 0x10 := hty
    exact hbegins sid payload hf hne

instance : Decidable (NamingStep w op r) := decidable_of_iff _ namingStep_iff

end Conrt.Daemon
