import Conrt.Base.Always
import Conrt.Daemon.Children
import Conrt.Daemon.Ledger

/-! The exit frame of a session: at most one, after the child has been reaped and the output drained,
and nothing of the output after it. -/
namespace Conrt.Daemon

open Conrt.Base

variable {τ : Terms} {h h' : List Token} {w w' w₀ : World} {codec : Codec} {answers : List Answer}
  {sid : ℕ} {sess : AttachSession} {pid : Pid} {tr es : List Entry} {e : Entry} {loc : OpLocal}
  {fd : Option Handle} {want id : ℕ} {ok : Bool} {op : InFlight} {r : Result}

/-- Whether the last entry armed a write on the session's stream, and the exit frames started. -/
def noteExitFrame (sid : ℕ) (st : Bool × ℕ) : Entry → Bool × ℕ
  | .submitted loc _ _ accepted => (accepted && loc.stream.any (·.1 = sid), st.2)
  | .begun _ frame => (false, if st.1 && frame.ty = 0x02 then st.2 + 1 else st.2)
  | _ => (false, st.2)

def exitFrames (sid : ℕ) (tr : List Entry) : ℕ := (tr.foldl (noteExitFrame sid) (false, 0)).2

def noteChild (sid : ℕ) (last : Option (Pid × Bool)) : Entry → Option (Pid × Bool)
  | .adopted s pid _ => if s = sid then some (pid, false) else last
  | .reaped pid _ => last.map fun c => if c.1 = pid then (c.1, true) else c
  | _ => last

/-- The container a session was given last, and whether it has been reaped since. -/
def childOf (sid : ℕ) (tr : List Entry) : Option (Pid × Bool) := tr.foldl (noteChild sid) none

def Entry.armsOutput (sid : ℕ) : Entry → Bool
  | .submitted loc _ _ true => loc.outputOf = some sid
  | _ => false

/-- An exit frame is the first one and comes after the child has been reaped; output is armed only
before it. -/
def ExitLast (sid : ℕ) (before : List Entry) (e : Entry) : Prop :=
  (exitFrames sid (before ++ [e]) ≠ exitFrames sid before →
    exitFrames sid before = 0 ∧ (childOf sid before).any (·.2) = true) ∧
      (e.armsOutput sid = true → exitFrames sid before = 0)

def Entry.aside (sid : ℕ) : Entry → Bool
  | .begun _ frame => frame.ty ≠ 0x02
  | .adopted s _ _ => s ≠ sid
  | .reaped _ _ => false
  | _ => true

@[simp] theorem exitFrames_nil : exitFrames sid [] = 0 := rfl

@[simp] theorem childOf_nil : childOf sid [] = none := rfl

@[simp] theorem childOf_append : childOf sid (tr ++ es) = es.foldl (noteChild sid) (childOf sid tr) :=
  List.foldl_append ..

private theorem exitFrames_concat : exitFrames sid (tr ++ [e]) =
    (noteExitFrame sid (tr.foldl (noteExitFrame sid) (false, 0)) e).2 := by
  unfold exitFrames
  rw [List.foldl_append]
  rfl

/-- Only a 0x02 frame counts. -/
theorem exitFrames_same (he : ∀ stream frame, e = .begun stream frame → frame.ty ≠ 0x02) :
    exitFrames sid (tr ++ [e]) = exitFrames sid tr := by
  rw [exitFrames_concat]
  cases e with
  | begun stream frame =>
    have hty : frame.ty ≠ 0x02 := he stream frame rfl
    simp [noteExitFrame, exitFrames, hty]
  | _ => rfl

/-- A frame is counted for the session whose stream was written to. -/
theorem exitFrames_frame {file : Option File} {stream : Fd .stream} {frame : Frame} :
    exitFrames sid (tr ++ [.submitted loc fd file true, .begun stream frame]) = exitFrames sid tr +
      if loc.stream.any (·.1 = sid) = true ∧ frame.ty = 0x02 then 1 else 0 := by
  unfold exitFrames
  rw [List.foldl_append]
  simp only [List.foldl_cons, List.foldl_nil, noteExitFrame, Bool.true_and]
  split_ifs with h₁ h₂ h₂
  · rfl
  · exact (h₂ (by simpa using h₁)).elim
  · exact (h₁ (by simpa using h₂)).elim
  · rfl

theorem exitFrames_aside (he : e.aside sid = true) :
    exitFrames sid (tr ++ [e]) = exitFrames sid tr := by
  refine exitFrames_same fun stream frame heq => ?_
  subst heq
  simpa [Entry.aside] using he

theorem childOf_aside (he : e.aside sid = true) : childOf sid (tr ++ [e]) = childOf sid tr := by
  rw [childOf_append]
  cases e with
  | adopted s p fds =>
    have hne : s ≠ sid := by simpa [Entry.aside] using he
    exact if_neg hne
  | reaped p code => simp [Entry.aside] at he
  | _ => rfl

/-- A reaping keeps the session's container, and tells whether it is its child. -/
theorem childOf_reaped (sid : ℕ) (tr : List Entry) (pid : Pid) (exitCode : ℤ) :
    (childOf sid (tr ++ [.reaped pid exitCode])).map (·.1) = (childOf sid tr).map (·.1) ∧
      ((childOf sid tr).any (·.2) = true →
        (childOf sid (tr ++ [.reaped pid exitCode])).any (·.2) = true) ∧
      ((childOf sid tr).map (·.1) = some pid →
        (childOf sid (tr ++ [.reaped pid exitCode])).any (·.2) = true) := by
  have hchild : childOf sid (tr ++ [.reaped pid exitCode]) =
      (childOf sid tr).map fun c => if c.1 = pid then (c.1, true) else c := childOf_append
  rw [hchild]
  cases childOf sid tr with
  | none => exact ⟨rfl, id, by simp⟩
  | some c =>
    simp only [Option.map_some, Option.any_some, Option.some.injEq]
    split_ifs with hpid
    · exact ⟨rfl, fun _ => rfl, fun _ => rfl⟩
    · exact ⟨rfl, id, fun heq => (hpid heq).elim⟩

/-- The trace has grown by entries that are aside, and by output only before the exit frame. -/
def Silent (sid : ℕ) (tr tr' : List Entry) : Prop :=
  ∃ es, tr' = tr ++ es ∧
    ∀ e ∈ es, e.aside sid = true ∧ (e.armsOutput sid = true → exitFrames sid tr = 0)

@[simp] theorem silent_refl : Silent sid tr tr := ⟨[], by simp, by simp⟩

@[simp] theorem silent_append : Silent sid tr (tr ++ es) ↔
    ∀ e ∈ es, e.aside sid = true ∧ (e.armsOutput sid = true → exitFrames sid tr = 0) := by
  constructor
  · rintro ⟨es', heq, hes⟩
    rw [List.append_cancel_left heq]
    exact hes
  · exact fun hes => ⟨es, rfl, hes⟩

theorem Silent.keeps {tr' : List Entry} (hs : Silent sid tr tr') :
    exitFrames sid tr' = exitFrames sid tr ∧ childOf sid tr' = childOf sid tr ∧
      (Always (ExitLast sid) tr → Always (ExitLast sid) tr') := by
  obtain ⟨es, rfl, hes⟩ := hs
  induction es using List.reverseRecOn with
  | nil => simp
  | append_singleton es e ih =>
    obtain ⟨hexit, hchild, horder⟩ := ih fun e' he' => hes e' (List.mem_append_left _ he')
    obtain ⟨he, harms⟩ := hes e (by simp)
    rw [← List.append_assoc]
    refine ⟨?_, ?_, fun ho => ?_⟩
    · rw [exitFrames_aside he, hexit]
    · rw [childOf_aside he, hchild]
    · rw [Always.concat_iff]
      refine ⟨horder ho, fun hne => (hne (exitFrames_aside he)).elim, fun ha => ?_⟩
      exact hexit.trans (harms ha)

theorem adopted_iff : Adopted sid tr ↔ childOf sid tr ≠ none := by
  induction tr using List.reverseRecOn with
  | nil => simp [Adopted]
  | append_singleton tr e ih =>
    unfold Adopted at ih ⊢
    rw [childOf_append]
    cases e with
    | adopted s p fds =>
      by_cases hs : s = sid
      · subst hs
        have hmem : ∃ pid fds', Entry.adopted s pid fds' ∈ tr ++ [.adopted s p fds] :=
          ⟨p, fds, by simp⟩
        exact ⟨fun _ => by simp [noteChild], fun _ => hmem⟩
      · have hne : ∀ pid fds', Entry.adopted sid pid fds' ≠ .adopted s p fds := by
          intro pid fds' heq
          cases heq
          exact hs rfl
        simp only [List.mem_append, List.mem_singleton, hne, or_false]
        simpa [noteChild, hs] using ih
    | reaped p code => simpa [noteChild] using ih
    | _ => simpa [noteChild] using ih

namespace World

def drainOps (w : World) (sid : ℕ) : ℕ := w.opCount fun op => op.loc.outputOf = some sid

theorem drainOps_eq_zero : w.drainOps sid = 0 ↔ ∀ op ∈ w.ops, op.loc.outputOf ≠ some sid := by
  unfold drainOps opCount
  simp [List.countP_eq_zero]

@[simp] theorem drainOps_note {e : Entry} : (w.note e).drainOps sid = w.drainOps sid := rfl

theorem drainOps_submit : (w.submit loc fd want ok).drainOps sid =
    w.drainOps sid + if ok = true ∧ loc.outputOf = some sid then 1 else 0 := by
  unfold drainOps
  rw [opCount_submit]
  simp

theorem drainOps_beginFrame {stream : Fd .stream} {frame : Frame} :
    (w.beginFrame stream frame loc want ok).drainOps sid =
      w.drainOps sid + if ok = true ∧ loc.outputOf = some sid then 1 else 0 := by
  unfold drainOps
  rw [opCount_beginFrame]
  exact drainOps_submit

theorem drainOps_takeOp (sid : ℕ) (hop : w.findOp id = some op) : w.drainOps sid =
    (w.takeOp id).drainOps sid + if op.loc.outputOf = some sid then 1 else 0 := by
  unfold drainOps
  rw [opCount_takeOp hop]
  simp

end World

def AttachSession.exitState (sess : AttachSession) : Pid × Bool × Bool × Bool :=
  (sess.containerPid, sess.childExited, sess.drainDone, sess.exitSent)

/-- What a listed session knows agrees with what has happened. -/
structure AttachSession.Agrees (sess : AttachSession) (sid : ℕ) (tr : List Entry) : Prop where
  given : sess.containerPid = 0 ∨ (childOf sid tr).map (·.1) = some sess.containerPid
  exited : sess.childExited = true → (childOf sid tr).any (·.2) = true
  drained : sess.drainDone = true → childOf sid tr ≠ none
  sent : sess.exitSent = true → sess.drainDone = true ∧ sess.childExited = true
  unsent : sess.exitSent = false → exitFrames sid tr = 0

/-- At most one op drains the session, only before its exit frame; the exit frame is the last. -/
structure ExitOrder (w : World) (sid : ℕ) : Prop where
  new : w.g.nextSessionId ≤ sid → w.g.attachSessions.lookup sid = none ∧ w.drainOps sid = 0 ∧
    exitFrames sid w.trace = 0
  single : w.drainOps sid ≤ 1
  busy : 0 < w.drainOps sid → exitFrames sid w.trace = 0 ∧ childOf sid w.trace ≠ none ∧
    ∀ sess, w.g.attachSessions.lookup sid = some sess → sess.drainDone = false
  agrees : ∀ sess, w.g.attachSessions.lookup sid = some sess → sess.Agrees sid w.trace
  once : exitFrames sid w.trace ≤ 1
  order : Always (ExitLast sid) w.trace

namespace AttachSession.Agrees

variable {s : AttachSession} {tr' : List Entry}

theorem congr (ha : s.Agrees sid tr) (hs : sess.exitState = s.exitState)
    (hexit : exitFrames sid tr' = exitFrames sid tr) (hchild : childOf sid tr' = childOf sid tr) :
    sess.Agrees sid tr' := by
  simp only [exitState, Prod.mk.injEq] at hs
  obtain ⟨hpid, hexited, hdrained, hsent⟩ := hs
  constructor
  · rw [hpid, hchild]
    exact ha.given
  · rw [hexited, hchild]
    exact ha.exited
  · rw [hdrained, hchild]
    exact ha.drained
  · rw [hsent, hdrained, hexited]
    exact ha.sent
  · rw [hsent, hexit]
    exact ha.unsent

end AttachSession.Agrees

namespace ExitOrder

/-- What the invariant speaks of, part by part. -/
theorem of_parts (hx : ExitOrder w sid) (hsingle : w'.drainOps sid ≤ 1)
    (hbusy : 0 < w'.drainOps sid → sid < w.g.nextSessionId ∧ exitFrames sid w.trace = 0 ∧
      childOf sid w.trace ≠ none ∧
        ∀ sess, w.g.attachSessions.lookup sid = some sess → sess.drainDone = false)
    (hnext : w.g.nextSessionId ≤ w'.g.nextSessionId)
    (hs : ∀ sess, w'.g.attachSessions.lookup sid = some sess →
      ∃ s, w.g.attachSessions.lookup sid = some s ∧ sess.exitState = s.exitState)
    (hexit : exitFrames sid w'.trace = exitFrames sid w.trace)
    (hchild : childOf sid w'.trace = childOf sid w.trace)
    (horder : Always (ExitLast sid) w'.trace) : ExitOrder w' sid where
  new hle := by
    obtain ⟨hnone, hidle, hzero⟩ := hx.new (hnext.trans hle)
    refine ⟨Option.eq_none_iff_forall_ne_some.mpr fun sess hsess => ?_, ?_, hexit.trans hzero⟩
    · obtain ⟨s, hs', -⟩ := hs sess hsess
      rw [hnone] at hs'
      cases hs'
    · by_contra hne
      have hlt := (hbusy (Nat.pos_of_ne_zero hne)).1
      omega
  single := hsingle
  busy hpos := by
    obtain ⟨-, hzero, hadopted, hpending⟩ := hbusy hpos
    refine ⟨hexit.trans hzero, hchild ▸ hadopted, fun sess hsess => ?_⟩
    obtain ⟨s, hs', heq⟩ := hs sess hsess
    have hdrain : sess.drainDone = s.drainDone := congrArg (·.2.2.1) heq
    exact hdrain.trans (hpending s hs')
  agrees sess hsess := by
    obtain ⟨s, hs', heq⟩ := hs sess hsess
    exact (hx.agrees s hs').congr heq hexit hchild
  once := hexit ▸ hx.once
  order := horder

theorem below (hx : ExitOrder w sid) (hpos : 0 < w.drainOps sid) : sid < w.g.nextSessionId := by
  by_contra hle
  obtain ⟨-, hidle, -⟩ := hx.new (Nat.le_of_not_lt hle)
  omega

theorem listed (hx : ExitOrder w sid) (hs : w.g.attachSessions.lookup sid = some sess) :
    sid < w.g.nextSessionId := by
  by_contra hle
  obtain ⟨hnone, -, -⟩ := hx.new (Nat.le_of_not_lt hle)
  rw [hs] at hnone
  cases hnone

/-- No op is new, and nothing has changed but what the invariant does not speak of. -/
theorem congr (hx : ExitOrder w sid) (hops : w'.drainOps sid ≤ w.drainOps sid)
    (hnext : w'.g.nextSessionId = w.g.nextSessionId)
    (hs : ∀ sess, w'.g.attachSessions.lookup sid = some sess →
      ∃ s, w.g.attachSessions.lookup sid = some s ∧ sess.exitState = s.exitState)
    (htr : Silent sid w.trace w'.trace) : ExitOrder w' sid := by
  obtain ⟨hexit, hchild, horder⟩ := htr.keeps
  refine hx.of_parts (hops.trans hx.single) (fun hpos => ?_) hnext.ge hs hexit hchild
    (horder hx.order)
  have hpos' : 0 < w.drainOps sid := by omega
  exact ⟨hx.below hpos', hx.busy hpos'⟩

/-- The sessions are the same ones. -/
theorem plain (hx : ExitOrder w sid) (hops : w'.drainOps sid ≤ w.drainOps sid)
    (hnext : w'.g.nextSessionId = w.g.nextSessionId)
    (hs : w'.g.attachSessions = w.g.attachSessions) (htr : Silent sid w.trace w'.trace) :
    ExitOrder w' sid :=
  hx.congr hops hnext (fun sess hsess => ⟨sess, hs ▸ hsess, rfl⟩) htr

theorem submitOther (hx : ExitOrder w sid) (hloc : loc.outputOf ≠ some sid) :
    ExitOrder (w.submit loc fd want ok) sid := by
  refine hx.plain ?_ rfl rfl ?_
  · rw [World.drainOps_submit, if_neg (by simp [hloc]), Nat.add_zero]
  · rw [World.trace_submit, silent_append]
    cases ok <;> simp [Entry.aside, Entry.armsOutput, hloc]

theorem beginOther {stream : Fd .stream} {frame : Frame} (hx : ExitOrder w sid)
    (hloc : loc.outputOf ≠ some sid) (hty : frame.ty ≠ 0x02) :
    ExitOrder (w.beginFrame stream frame loc want ok) sid := by
  refine hx.plain ?_ (by simp) (by simp) ?_
  · rw [World.drainOps_beginFrame, if_neg (by simp [hloc]), Nat.add_zero]
  · rw [World.trace_beginFrame, silent_append]
    cases ok <;> simp [Entry.aside, Entry.armsOutput, hloc, hty]

/-- An op that drains the session is armed by a callback that has the drain in hand. -/
theorem arm (hx : ExitOrder w sid) (hs : w.g.attachSessions.lookup sid = some sess)
    (hd : w.Draining sid) (hops : w'.drainOps sid ≤ w.drainOps sid + 1) (hg : w'.g = w.g)
    (htr : exitFrames sid w.trace = 0 → Silent sid w.trace w'.trace) : ExitOrder w' sid := by
  obtain ⟨hadopted, hidle, hpending⟩ := hd
  have hzero : exitFrames sid w.trace = 0 := by
    refine (hx.agrees sess hs).unsent ?_
    have hundrained := hpending sess hs
    by_contra hsent
    rw [Bool.not_eq_false] at hsent
    rw [((hx.agrees sess hs).sent hsent).1] at hundrained
    cases hundrained
  obtain ⟨hexit, hchild, horder⟩ := (htr hzero).keeps
  have hnone : w.drainOps sid = 0 := World.drainOps_eq_zero.mpr hidle
  refine hx.of_parts (by omega) (fun _ => ?_) (hg ▸ le_refl _)
    (fun sess hsess => ⟨sess, hg ▸ hsess, rfl⟩) hexit hchild (horder hx.order)
  exact ⟨hx.listed hs, hzero, adopted_iff.mp hadopted, hpending⟩

/-- A change of one session that its exit frame does not depend on. -/
theorem modifySession {s : ℕ} {f : AttachSession → AttachSession} (hx : ExitOrder w sid)
    (hf : ∀ sess, s = sid → (f sess).exitState = sess.exitState) :
    ExitOrder (w.modifySession s f) sid := by
  refine hx.congr (le_refl _) rfl (fun sess hsess => ?_) silent_refl
  have hl : (w.g.attachSessions.update s f).lookup sid = some sess := hsess
  rw [Table.lookup_update_ite] at hl
  split_ifs at hl with hsid
  · obtain ⟨sess', hs', rfl⟩ := Option.map_eq_some_iff.mp hl
    exact ⟨sess', hsid ▸ hs', hf sess' hsid.symm⟩
  · exact ⟨sess, hl, rfl⟩

end ExitOrder

theorem Resumes.outputOf {stdinFd : ℕ → Option Handle} {n : ℕ} {loc' : OpLocal}
    (hr : Resumes stdinFd n loc loc' fd) : loc'.outputOf = loc.outputOf := by cases hr <;> rfl

theorem outputOf_of_reader {s : ℕ} (hl : loc.reader = some s) : loc.outputOf ≠ some sid := by
  cases loc <;> first | (cases hl; done) | simp [OpLocal.outputOf]

theorem outputOf_of_loop {l : Loop} (hl : loc.loop = some l) : loc.outputOf ≠ some sid := by
  cases loc <;> first | (cases hl; done) | simp [OpLocal.outputOf]

/-- The first exit frame, once the child has been reaped. -/
theorem finish_order {file : Option File} {stream : Fd .stream} {buf payload : Bytes}
    (ho : Always (ExitLast sid) tr) (hzero : exitFrames sid tr = 0)
    (hchild : (childOf sid tr).any (·.2) = true) :
    exitFrames sid (tr ++ .submitted (.sessionFrame sid stream buf 0) fd file ok ::
        if ok then [.begun stream ⟨0x02, payload⟩] else []) ≤ 1 ∧
      Always (ExitLast sid) (tr ++ .submitted (.sessionFrame sid stream buf 0) fd file ok ::
        if ok then [.begun stream ⟨0x02, payload⟩] else []) := by
  have hsub : Silent sid tr (tr ++ [.submitted (.sessionFrame sid stream buf 0) fd file ok]) := by
    cases ok <;> simp [Entry.aside, Entry.armsOutput, OpLocal.outputOf]
  obtain ⟨hexit, hchild', horder⟩ := hsub.keeps
  cases ok with
  | false => exact ⟨(hexit.trans hzero).le.trans (Nat.zero_le 1), horder ho⟩
  | true =>
    rw [if_pos rfl, exitFrames_frame, hzero, Always.pair_iff]
    refine ⟨by split_ifs <;> omega, ho, ?_, fun _ => ⟨hexit.trans hzero, ?_⟩, fun _ => ?_⟩
    · have hlast := horder ho
      rw [Always.concat_iff] at hlast
      exact hlast.2
    · rw [hchild']
      exact hchild
    · exact hexit.trans hzero

namespace ExitOrder

/-- The exit frame is started, or its submission is refused. -/
theorem finish (hx : ExitOrder w sid) (hs : w.g.attachSessions.lookup sid = some sess)
    (hd : sess.drainDone = true) (hc : sess.childExited = true) (he : sess.exitSent = false)
    {payload buf : Bytes} : ExitOrder ((w.modifySession sid ({ · with exitSent := true })).beginFrame
      sess.streamFd ⟨0x02, payload⟩ (.sessionFrame sid sess.streamFd buf 0) want ok) sid := by
  have hagrees := hx.agrees sess hs
  have hzero := hagrees.unsent he
  have hidle : w.drainOps sid = 0 := by
    by_contra hne
    rw [(hx.busy (Nat.pos_of_ne_zero hne)).2.2 sess hs] at hd
    cases hd
  have hidle' : ((w.modifySession sid ({ · with exitSent := true })).beginFrame
      sess.streamFd ⟨0x02, payload⟩ (.sessionFrame sid sess.streamFd buf 0) want ok).drainOps sid =
        0 := by
    rw [World.drainOps_beginFrame, if_neg (by simp [OpLocal.outputOf])]
    exact hidle
  have hlook := lookup_finished (s := sid) hs
  rw [if_pos rfl] at hlook
  constructor
  · intro hle
    rw [World.g_beginFrame] at hle
    have hlt := hx.listed hs
    have hle' : w.g.nextSessionId ≤ sid := hle
    omega
  · omega
  · omega
  · intro sess' hsess
    rw [World.g_beginFrame, hlook] at hsess
    obtain rfl := Option.some.inj hsess
    refine ⟨?_, fun _ => ?_, fun _ => ?_, fun _ => ⟨hd, hc⟩, fun hfalse => by cases hfalse⟩
    · cases ok <;> simpa [noteChild] using hagrees.given
    · cases ok <;> simpa [noteChild] using hagrees.exited hc
    · cases ok <;> simpa [noteChild] using hagrees.drained hd
  · rw [World.trace_beginFrame]
    exact (finish_order hx.order hzero (hagrees.exited hc)).1
  · rw [World.trace_beginFrame]
    exact (finish_order hx.order hzero (hagrees.exited hc)).2

/-- The exit frame of another session. -/
theorem finishOther {s : ℕ} (hx : ExitOrder w sid) (hne : s ≠ sid)
    {payload buf : Bytes} : ExitOrder ((w.modifySession s ({ · with exitSent := true })).beginFrame
      sess.streamFd ⟨0x02, payload⟩ (.sessionFrame s sess.streamFd buf 0) want ok) sid := by
  have hx₁ : ExitOrder (w.modifySession s ({ · with exitSent := true })) sid :=
    hx.modifySession fun _ hs => (hne hs).elim
  cases ok with
  | false =>
    refine hx₁.plain ?_ rfl rfl (by simp [Entry.aside, Entry.armsOutput])
    rw [World.drainOps_beginFrame, if_neg (by simp), Nat.add_zero]
  | true =>
    have hexit : exitFrames sid ((w.modifySession s ({ · with exitSent := true })).beginFrame
        sess.streamFd ⟨0x02, payload⟩ (.sessionFrame s sess.streamFd buf 0) want true).trace =
          exitFrames sid w.trace := by
      rw [World.trace_beginFrame, if_pos rfl, exitFrames_frame, if_neg (by simp [OpLocal.stream, hne])]
      rfl
    refine hx₁.of_parts ?_ (fun hpos => ?_) ?_ (fun sess hsess => ⟨sess, ?_, rfl⟩) hexit ?_ ?_
    · rw [World.drainOps_beginFrame, if_neg (by simp [OpLocal.outputOf])]
      exact hx₁.single
    · rw [World.drainOps_beginFrame, if_neg (by simp [OpLocal.outputOf])] at hpos
      exact ⟨hx₁.below hpos, hx₁.busy hpos⟩
    · rw [World.g_beginFrame]
    · rw [← hsess, World.g_beginFrame]
    · simp [noteChild]
    · rw [World.trace_beginFrame, if_pos rfl] at hexit ⊢
      rw [Always.pair_iff]
      refine ⟨hx.order, ⟨fun hdiff => (hdiff (exitFrames_aside rfl)).elim, ?_⟩, ?_, ?_⟩
      · intro harms
        simp [Entry.armsOutput, OpLocal.outputOf] at harms
      · intro hdiff
        rw [List.append_assoc, exitFrames_aside rfl] at hdiff
        exact (hdiff hexit).elim
      · intro harms
        simp [Entry.armsOutput] at harms

/-- The session is given its one container. -/
theorem adopt {f : AttachSession → AttachSession} {fds : List Handle} (hx : ExitOrder w sid)
    (hs : w.g.attachSessions.lookup sid = some sess) (hnew : ¬ Adopted sid w.trace)
    (hu : w.Undrained sid) (hf : (f sess).exitState = (pid, sess.exitState.2)) :
    ExitOrder ((w.modifySession sid f).note (.adopted sid pid fds)) sid := by
  have hagrees := hx.agrees sess hs
  have hnone : childOf sid w.trace = none := by
    by_contra hne
    exact hnew (adopted_iff.mpr hne)
  have hidle : w.drainOps sid = 0 := World.drainOps_eq_zero.mpr hu.1
  have hexit : exitFrames sid (w.trace ++ [.adopted sid pid fds]) = exitFrames sid w.trace :=
    exitFrames_same nofun
  have hlook : (w.modifySession sid f).g.attachSessions.lookup sid = some (f sess) :=
    lookup_adopted hs
  simp only [AttachSession.exitState, Prod.mk.injEq] at hf
  obtain ⟨hpid, hexited, hdrained, hsent⟩ := hf
  constructor
  · intro hle
    have hlt := hx.listed hs
    have hle' : w.g.nextSessionId ≤ sid := hle
    omega
  · exact hx.single
  · intro hpos
    have hpos' : 0 < w.drainOps sid := hpos
    omega
  · intro sess' hsess
    have hsame := hlook.symm.trans hsess
    obtain rfl := Option.some.inj hsame
    refine ⟨.inr ?_, fun hc => ?_, fun hd => ?_, fun he => ?_, fun he => ?_⟩
    · simp [noteChild, hpid]
    · rw [hexited] at hc
      have hreaped := hagrees.exited hc
      rw [hnone] at hreaped
      cases hreaped
    · simp [noteChild]
    · rw [hdrained, hexited]
      exact hagrees.sent (hsent ▸ he)
    · exact hexit.trans (hagrees.unsent (hsent ▸ he))
  · exact hexit.le.trans hx.once
  · refine Always.concat_iff.mpr ⟨hx.order, fun hne => (hne hexit).elim, nofun⟩

/-- What a session knows after a reaping: what it knew, or that its child has exited. -/
theorem exitState_reap {exitCode : ℤ} {told : Option ℕ} {sess : AttachSession} (hm : w.Meets pid told)
    (hs : (w.reap pid exitCode told).g.attachSessions.lookup sid = some sess) :
    ∃ s, w.g.attachSessions.lookup sid = some s ∧ (sess.exitState = s.exitState ∨
      s.containerPid = pid ∧ sess.exitState = (pid, true, s.drainDone, s.exitSent)) := by
  cases told with
  | none => exact ⟨sess, hs, .inl rfl⟩
  | some t =>
    have hl : (w.g.attachSessions.update t _).lookup sid = some sess := hs
    rw [Table.lookup_update_ite] at hl
    split_ifs at hl with hsid
    · obtain ⟨s, hs', rfl⟩ := Option.map_eq_some_iff.mp hl
      have hmeets : t ∈ sessionsOf w pid := hm
      have hpid : (w.g.attachSessions.lookup t).any (·.containerPid = pid) = true :=
        (List.mem_filter.mp hmeets).2
      rw [hs', Option.any_some, decide_eq_true_eq] at hpid
      exact ⟨s, hsid ▸ hs', .inr ⟨hpid, by simp [AttachSession.exitState, hpid]⟩⟩
    · exact ⟨sess, hl, .inl rfl⟩

/-- A child is reaped, and a session of its pid is told. -/
theorem reap {exitCode : ℤ} {told : Option ℕ} (hx : ExitOrder w sid) (hpos : 0 < pid)
    (hm : w.Meets pid told) : ExitOrder (w.reap pid exitCode told) sid := by
  have hexit : exitFrames sid (w.trace ++ [.reaped pid exitCode]) = exitFrames sid w.trace :=
    exitFrames_same nofun
  obtain ⟨hfst, hstays, hreaped⟩ := childOf_reaped sid w.trace pid exitCode
  have hnone : childOf sid w.trace ≠ none →
      childOf sid (w.trace ++ [.reaped pid exitCode]) ≠ none := by
    intro hne heq
    rw [heq] at hfst
    exact hne (Option.map_eq_none_iff.mp hfst.symm)
  have hops : (w.reap pid exitCode told).drainOps sid = w.drainOps sid := by
    simp [World.drainOps]
  have hnext : (w.reap pid exitCode told).g.nextSessionId = w.g.nextSessionId := by
    cases told <;> rfl
  constructor
  · intro hle
    rw [hnext] at hle
    obtain ⟨hgone, hidle, hzero⟩ := hx.new hle
    refine ⟨Option.eq_none_iff_forall_ne_some.mpr fun sess hs => ?_, hops.trans hidle, ?_⟩
    · obtain ⟨s, hs', -⟩ := exitState_reap hm hs
      rw [hgone] at hs'
      cases hs'
    · rw [World.trace_reap, hexit, hzero]
  · exact hops ▸ hx.single
  · intro hbusy
    rw [hops] at hbusy
    obtain ⟨hzero, hadopted, hpending⟩ := hx.busy hbusy
    rw [World.trace_reap]
    refine ⟨hexit.trans hzero, hnone hadopted, fun sess hs => ?_⟩
    obtain ⟨s, hs', heq | ⟨-, heq⟩⟩ := exitState_reap hm hs
    · have hdrain : sess.drainDone = s.drainDone := congrArg (·.2.2.1) heq
      exact hdrain.trans (hpending s hs')
    · have hdrain : sess.drainDone = s.drainDone := congrArg (·.2.2.1) heq
      exact hdrain.trans (hpending s hs')
  · intro sess hs
    rw [World.trace_reap]
    obtain ⟨s, hs', hstate⟩ := exitState_reap hm hs
    have hagrees := hx.agrees s hs'
    simp only [AttachSession.exitState, Prod.mk.injEq] at hstate
    rcases hstate with ⟨hsame, hexited, hdrained, hsent⟩ | ⟨hgiven, hsame, hexited, hdrained, hsent⟩
    · refine ⟨?_, fun hc => hstays (hagrees.exited (hexited ▸ hc)),
        fun hd => hnone (hagrees.drained (hdrained ▸ hd)), ?_, fun he => ?_⟩
      · rw [hfst, hsame]
        exact hagrees.given
      · rw [hsent, hdrained, hexited]
        exact hagrees.sent
      · exact hexit.trans (hagrees.unsent (hsent ▸ he))
    · have hmine : (childOf sid w.trace).map (·.1) = some pid := by
        rcases hagrees.given with hzero | hmine
        · exact absurd (hgiven.symm.trans hzero) hpos.ne'
        · rw [hmine, hgiven]
      refine ⟨.inr (by rw [hfst, hmine, hsame]), fun _ => hreaped hmine,
        fun hd => hnone (hagrees.drained (hdrained ▸ hd)), fun he => ?_, fun he => ?_⟩
      · rw [hdrained, hexited]
        exact ⟨(hagrees.sent (hsent ▸ he)).1, rfl⟩
      · exact hexit.trans (hagrees.unsent (hsent ▸ he))
  · rw [World.trace_reap]
    exact hexit.le.trans hx.once
  · rw [World.trace_reap]
    exact Always.concat_iff.mpr ⟨hx.order, fun hne => (hne hexit).elim, nofun⟩

/-- A client connects. -/
theorem connect {stream : Fd .stream} (hx : ExitOrder w sid) : ExitOrder { w with
    g.nextSessionId := w.g.nextSessionId + 1
    g.attachSessions := w.g.attachSessions.insert w.g.nextSessionId (.new stream) } sid := by
  by_cases hsid : sid = w.g.nextSessionId
  · obtain ⟨-, hidle, hzero⟩ := hx.new hsid.ge
    constructor
    · intro hle
      have hle' : w.g.nextSessionId + 1 ≤ sid := hle
      omega
    · exact hx.single
    · intro hpos
      have hpos' : 0 < w.drainOps sid := hpos
      omega
    · intro sess hs
      have hl : (w.g.attachSessions.insert w.g.nextSessionId (.new stream)).lookup sid =
        some sess := hs
      rw [Table.lookup_insert_ite, if_pos hsid] at hl
      obtain rfl := Option.some.inj hl
      exact ⟨.inl rfl, nofun, nofun, nofun, fun _ => hzero⟩
    · exact hx.once
    · exact hx.order
  · refine hx.of_parts hx.single (fun hpos => ⟨hx.below hpos, hx.busy hpos⟩) (Nat.le_succ _)
      (fun sess hs => ⟨sess, ?_, rfl⟩) rfl rfl hx.order
    have hl : (w.g.attachSessions.insert w.g.nextSessionId (.new stream)).lookup sid =
      some sess := hs
    rw [Table.lookup_insert_ite, if_neg hsid] at hl
    exact hl

/-- The drain in hand ends. -/
theorem drained (hx : ExitOrder w sid) (hd : w.Draining sid) :
    ExitOrder (w.modifySession sid ({ · with drainDone := true })) sid := by
  obtain ⟨hadopted, hidle, hpending⟩ := hd
  have hnone : w.drainOps sid = 0 := World.drainOps_eq_zero.mpr hidle
  constructor
  · intro hle
    obtain ⟨hgone, hzero⟩ := hx.new hle
    rw [modifySession_of_none hgone]
    exact ⟨hgone, hzero⟩
  · exact hx.single
  · intro hpos
    have hpos' : 0 < w.drainOps sid := hpos
    omega
  · intro sess hs
    obtain ⟨s, hs', rfl⟩ := lookup_modifySession hs
    have hagrees := hx.agrees s hs'
    exact ⟨hagrees.given, hagrees.exited, fun _ => adopted_iff.mp hadopted,
      fun he => ⟨rfl, (hagrees.sent he).2⟩, hagrees.unsent⟩
  · exact hx.once
  · exact hx.order

/-- An attach for a session that is gone. -/
theorem attachGone {fds : List Handle} (hx : ExitOrder w sid)
    (hs : w.g.attachSessions.lookup sid = none) : ExitOrder (w.note (.adopted sid pid fds)) sid := by
  have hexit : exitFrames sid (w.trace ++ [.adopted sid pid fds]) = exitFrames sid w.trace :=
    exitFrames_same nofun
  constructor
  · intro hle
    obtain ⟨hgone, hidle, hzero⟩ := hx.new hle
    exact ⟨hgone, hidle, hexit.trans hzero⟩
  · exact hx.single
  · intro hpos
    obtain ⟨hzero, -, hpending⟩ := hx.busy hpos
    exact ⟨hexit.trans hzero, by simp [noteChild], hpending⟩
  · intro sess hsess
    have hsess' : w.g.attachSessions.lookup sid = some sess := hsess
    rw [hs] at hsess'
    cases hsess'
  · exact hexit.le.trans hx.once
  · exact Always.concat_iff.mpr ⟨hx.order, fun hne => (hne hexit).elim, nofun⟩

end ExitOrder

theorem Move.exitOrder (hτ : τ.single) (hm : Move τ (h, w) (h', w'))
    (hpids : ∀ p ∈ w.children, 0 < p) (hx : ExitOrder w sid) : ExitOrder w' sid := by
  cases hm with
  | note he =>
    refine hx.plain (le_refl _) rfl rfl ?_
    rename_i e
    cases e <;> first | exact he.elim | simp [Entry.aside, Entry.armsOutput]
  | read hl => exact hx.submitOther (outputOf_of_reader hl)
  | relisten hl => exact hx.submitOther (outputOf_of_loop hl)
  | passFd | follow => exact hx.submitOther (by simp [OpLocal.outputOf])
  | @rearm _ _ kind => exact hx.submitOther (by cases kind <;> simp [Drain.loc, OpLocal.outputOf])
  | offer hfd =>
    exact ExitOrder.submitOther
      (hx.plain (le_refl _) rfl rfl (by simp [Entry.aside, Entry.armsOutput]))
      (by simp [OpLocal.outputOf])
  | @output _ _ s sess fd want hs hf hd =>
    by_cases hsid : s = sid
    · subst hsid
      refine hx.arm hs (hd hτ) ?_ rfl fun hzero => ?_
      · rw [World.drainOps_submit]
        split_ifs <;> omega
      · simp [Entry.aside, hzero]
    · exact hx.submitOther (by simp [OpLocal.outputOf, hsid])
  | @data _ _ s want sess payload hs hc hd =>
    by_cases hsid : s = sid
    · subst hsid
      refine hx.arm hs (hd hτ) ?_ (by simp) fun hzero => ?_
      · rw [World.drainOps_beginFrame]
        split_ifs <;> omega
      · simp [Entry.aside, hzero]
    · exact hx.beginOther (by simp [OpLocal.outputOf, hsid]) (by simp)
  | @resume _ _ id n want op loc fd hop hr hres =>
    have hops := World.drainOps_takeOp sid hop
    refine hx.plain ?_ rfl rfl ?_
    · rw [World.drainOps_submit, hres.outputOf, hops]
      simp
    · rw [World.trace_submit, World.trace_takeOp, silent_append]
      intro e he
      rw [List.mem_singleton.mp he]
      refine ⟨rfl, fun harms => (hx.busy ?_).1⟩
      have hout : op.loc.outputOf = some sid := by
        rw [← hres.outputOf]
        simpa [Entry.armsOutput] using harms
      rw [hops, if_pos hout]
      omega
  | @retire _ _ id op r hop hr =>
    refine hx.plain ?_ rfl rfl (by simp)
    rw [World.drainOps_takeOp sid hop]
    omega
  | respond hs => exact hx.beginOther (by simp [OpLocal.outputOf]) (by simp)
  | @finish _ _ s want sess ok hs hd hc he =>
    by_cases hsid : s = sid
    · subst hsid
      exact hx.finish hs hd hc he
    · exact hx.finishOther hsid
  | accept => exact hx.connect
  | @close _ _ s sess hs =>
    refine hx.congr (le_refl _) rfl (fun sess' hsess => ⟨sess', ?_, rfl⟩)
      (by simp [Entry.aside, Entry.armsOutput])
    have hl : (w.g.attachSessions.erase s).lookup sid = some sess' := hsess
    rw [Table.lookup_erase_ite] at hl
    split_ifs at hl
    exact hl
  | @storeOp _ _ s which op =>
    exact hx.modifySession fun sess _ => by cases which <;> rfl
  | @drained _ _ s hd =>
    by_cases hsid : s = sid
    · subst hsid
      exact hx.drained (hd hτ)
    · exact hx.modifySession fun _ hs => (hsid hs).elim
  | @adoptRun _ _ s sess pid ptm log hs htold hcalm htidy hnew =>
    by_cases hsid : s = sid
    · subst hsid
      exact hx.adopt hs (hnew hτ).1 (hnew hτ).2 rfl
    · refine ExitOrder.plain (hx.modifySession fun _ hs => (hsid hs).elim) (le_refl _) rfl rfl ?_
      simp [Entry.aside, Entry.armsOutput, hsid]
  | @adoptAttach _ _ s sess pid info read write hs hi htold hcalm htidy hnew =>
    have hx₁ : ExitOrder (w.attachPipe pid w.g.nextPipeId write) sid :=
      hx.plain (le_refl _) rfl rfl silent_refl
    by_cases hsid : s = sid
    · subst hsid
      exact hx₁.adopt hs (hnew hτ).1 (hnew hτ).2 rfl
    · refine ExitOrder.plain (hx₁.modifySession fun _ hs => (hsid hs).elim) (le_refl _) rfl rfl ?_
      simp [Entry.aside, Entry.armsOutput, hsid]
  | @attachGone _ _ s pid info read write hs =>
    have hx₁ : ExitOrder (w.attachPipe pid w.g.nextPipeId write) sid :=
      hx.plain (le_refl _) rfl rfl silent_refl
    by_cases hsid : s = sid
    · subst hsid
      exact hx₁.attachGone hs
    · exact hx₁.plain (le_refl _) rfl rfl (by simp [Entry.aside, Entry.armsOutput, hsid])
  | @eofOwn _ _ s sess fd =>
    have hx₁ : ExitOrder (w.modifySession s ({ · with ptmFd := none })) sid :=
      hx.modifySession fun _ _ => rfl
    exact hx₁.plain (le_refl _) rfl rfl (by simp [Entry.aside, Entry.armsOutput])
  | @eofBorrowed _ _ s sess i =>
    have hx₁ : ExitOrder (w.modifySession s ({ · with inputFd := none })) sid :=
      hx.modifySession fun _ _ => rfl
    exact hx₁.plain (le_refl _) rfl rfl (by simp [Entry.aside, Entry.armsOutput])
  | reaped hpid hmeets => exact hx.reap (hpids _ hpid) hmeets
  | @buryReaped _ _ pid exitCode told info hpid hmeets =>
    have hx₁ : ExitOrder (w.reap pid exitCode told) sid := hx.reap (hpids _ hpid) hmeets
    exact hx₁.plain (le_refl _) rfl rfl
      ⟨[.retired pid info.overlay], rfl, by simp [Entry.aside, Entry.armsOutput]⟩
  | _ => exact hx.plain (le_refl _) rfl rfl (by simp [Entry.aside, Entry.armsOutput])

/-- Every session is in order, and the children have pids. -/
structure Exiting (w : World) : Prop where
  pids : ∀ p ∈ w.children, 0 < p
  sessions : ∀ sid, ExitOrder w sid

theorem Exiting.init : Exiting .init := by
  refine ⟨by simp [World.init], fun sid => ⟨fun _ => ⟨rfl, rfl, rfl⟩, Nat.zero_le 1, nofun, ?_,
    Nat.zero_le 1, .nil⟩⟩
  intro sess hs
  cases hs

theorem Move.exiting (hτ : τ.single) (hm : Move τ (h, w) (h', w')) (hx : Exiting w) :
    Exiting w' := by
  refine ⟨?_, fun sid => hm.exitOrder hτ hx.pids (hx.sessions sid)⟩
  cases hm with
  | started hpos => exact List.forall_mem_cons.mpr ⟨hpos, hx.pids⟩
  | finish =>
    rw [World.children_beginFrame]
    exact hx.pids
  | @reaped _ _ pid exitCode told | @buryReaped _ _ pid exitCode told =>
    intro p hp
    have hp' : p ∈ (w.reap pid exitCode told).children := hp
    rw [World.children_reap] at hp'
    exact hx.pids p (List.mem_of_mem_erase hp')
  | respond | data => simpa using hx.pids
  | _ => exact hx.pids

theorem Exiting.perform (hx : Exiting w) (hn : w.Numbered) (hop : w.findOp op.id = some op) :
    Exiting (w.perform op r) := by
  refine ⟨by rw [World.children_perform]; exact hx.pids, fun sid => ?_⟩
  have hops : (w.perform op r).drainOps sid = w.drainOps sid :=
    Nat.add_right_cancel (World.opCount_perform hn hop)
  refine (hx.sessions sid).plain hops.le (by rw [World.g_perform]) (by rw [World.g_perform]) ?_
  rcases w.trace_perform_cases op r with htr | ⟨e, htr, hout⟩
  · rw [htr]
    exact silent_refl
  · rw [htr, silent_append]
    cases e <;> first | exact hout.elim | simp [Entry.aside, Entry.armsOutput]

/-- No request for a container is handled for a session that has been given one. -/
def OnceStep (codec : Codec) (w : World) (op : InFlight) (r : Result) : Prop :=
  ∀ sid f, op.loc.frame r = some (sid, f) → codec.opens f = true → ¬ Adopted sid w.trace

theorem Exiting.fits (hx : Exiting w) (hop : w.findOp op.id = some op)
    (hok : OnceStep codec { w with answers := answers } op r) :
    SingleStep codec { w with answers := answers } op r := by
  refine ⟨fun sid f hf ha => ?_, fun sid hout => ?_⟩
  · have hnew := hok sid f hf ha
    have hnone : ¬ childOf sid w.trace ≠ none := fun hne => hnew (adopted_iff.mpr hne)
    refine ⟨hnew, World.drainOps_eq_zero.mp ?_, fun sess hs => ?_⟩
    · by_contra hne
      exact hnone ((hx.sessions sid).busy (Nat.pos_of_ne_zero hne)).2.1
    · by_contra hd
      rw [Bool.not_eq_false] at hd
      exact hnone (((hx.sessions sid).agrees sess hs).drained hd)
  · have hops := World.drainOps_takeOp sid hop
    rw [if_pos hout] at hops
    have hsingle := (hx.sessions sid).single
    have hidle : (w.takeOp op.id).drainOps sid = 0 := by omega
    obtain ⟨-, hadopted, hpending⟩ := (hx.sessions sid).busy (by omega)
    exact ⟨adopted_iff.mpr hadopted, World.drainOps_eq_zero.mp hidle, hpending⟩

def Terms.lone : Terms := { Terms.none with single := True }

theorem exiting_invariant : Invariant .lone codec
    (fun w e => Delivers (OnceStep codec) w e ∧ w.Numbered) fun _ w => Exiting w where
  move hx hm := hm.exiting trivial hx
  enter hx _ := ⟨hx.pids, fun sid =>
    (hx.sessions sid).congr le_rfl rfl (fun sess hs => ⟨sess, hs, rfl⟩) silent_refl⟩
  perform hx hop _ _ hok := hx.perform hok.2 hop
  fits hx hop hr hok := { Fits.none with single := fun _ => hx.fits hop (hok.1 _ _ hop hr) }

/-- At most one exit frame is armed on the session; it is armed after the child has been reaped and
the output drained, and from then on no output is armed or in flight. -/
structure ExitsLast (w : World) (sid : ℕ) : Prop where
  once : exitFrames sid w.trace ≤ 1
  order : Always (ExitLast sid) w.trace
  quiet : 0 < exitFrames sid w.trace → ∀ op ∈ w.ops, op.loc.outputOf ≠ some sid
  ended : 0 < exitFrames sid w.trace → ∀ sess, w.g.attachSessions.lookup sid = some sess →
    sess.drainDone = true ∧ sess.childExited = true

theorem ExitOrder.exitsLast (hx : ExitOrder w sid) : ExitsLast w sid where
  once := hx.once
  order := hx.order
  quiet hpos := by
    rw [← World.drainOps_eq_zero]
    by_contra hne
    have hzero := (hx.busy (Nat.pos_of_ne_zero hne)).1
    omega
  ended hpos sess hs := by
    refine (hx.agrees sess hs).sent ?_
    by_contra hne
    rw [Bool.not_eq_true] at hne
    have hzero := (hx.agrees sess hs).unsent hne
    omega

/-- As long as no session that has a container asks for another one, the exit frame of every session
is its only one and comes last. -/
theorem run_exits_last (hb : booted answers = some w₀)
    (hr : Reaches (step codec) (Delivers (OnceStep codec)) w₀ w) : ∀ sid, ExitsLast w sid :=
  fun sid => ((exiting_invariant.reaches .init hb hr).sessions sid).exitsLast

instance : Decidable (OnceStep codec w op r) :=
  decidable_of_iff (∀ x ∈ op.loc.frame r, codec.opens x.2 = true → childOf x.1 w.trace = none)
    ⟨fun hk sid f hf ha hadopted => adopted_iff.mp hadopted (hk _ hf ha), fun hk x hf ha => by
      by_contra hne
      exact hk x.1 x.2 hf ha (adopted_iff.mpr hne)⟩

def runToExit : List Event :=
  connect 1 20 3 ++ clientFrame 3 5 0x00 [1] runAttached ++
    turn 2 (.bytes [17]) [.wait (some (100, 0, 0)), .wait none, .call (.ok []), .submit true] ++
    turn 7 (.bytes []) [.submit true]

/-- The exit frame of a session with one run. -/
theorem run_exits_last_once : ∃ w₀ w, booted quietBoot = some w₀ ∧
    Reaches (step sampleCodec) (Delivers (OnceStep sampleCodec)) w₀ w ∧
      exitFrames 0 w.trace = 1 ∧ ∀ sid, ExitsLast w sid := by
  obtain ⟨w₀, w, hb, hr, ht⟩ := exists_of_executes (step sampleCodec)
    (Delivers (OnceStep sampleCodec)) (booted quietBoot) runToExit
    (fun _ w => decide (exitFrames 0 w.trace = 1)) (by decide +kernel)
  exact ⟨w₀, w, hb, hr, of_decide_eq_true ht, run_exits_last hb hr⟩

/-- A second run on the session, while its exit frame is being written: the header of a 0x10 frame is
in flight after it. -/
theorem second_run_follows_exit : ∃ w₀ w, booted quietBoot = some w₀ ∧
    Reaches (step sampleCodec) (fun _ _ => True) w₀ w ∧
      (∃ op ∈ w.ops, ∃ stream header payload off,
        op.loc = .sessionDataHeader 0 stream header payload off) ∧ ¬ ∀ sid, ExitsLast w sid := by
  obtain ⟨w₀, w, hb, hr, ht⟩ := exists_of_executes (step sampleCodec) (fun _ _ => True)
    (booted quietBoot)
    (runToExit ++ clientFrame 8 11 0x00 [1] [.call (.ok [10, 11]), .call (.ok [14, 15]),
      .clone (.ok 101), .call (.ok []), .clock 0, .submit true, .submit true, .submit true] ++
        turn 13 (.bytes [65]) [.submit true])
    (fun _ w => decide (0 < exitFrames 0 w.trace ∧
      ∃ op ∈ w.ops, op.loc = .sessionDataHeader 0 ⟨20, 3⟩ [0x10, 1, 0] [65] 0)) (by decide +kernel)
  obtain ⟨hpos, op, hop, hloc⟩ := of_decide_eq_true ht
  refine ⟨w₀, w, hb, hr, ⟨op, hop, _, _, _, _, hloc⟩, fun hx => ?_⟩
  exact (hx 0).quiet hpos op hop (by rw [hloc]; rfl)

end Conrt.Daemon
