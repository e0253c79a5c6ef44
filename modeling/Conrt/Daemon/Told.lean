import Conrt.Daemon.Exits

/-! What every session knows of the exit of its container's child. -/
namespace Conrt.Daemon

open Conrt.Base

variable {τ : Terms} {h h' : List Token} {w w' w₀ : World} {codec : Codec} {answers : List Answer}
  {sid : ℕ} {sess : AttachSession} {pid : Pid} {tr tr' : List Entry} {loc : OpLocal}
  {fd : Option Handle} {want id : ℕ} {ok : Bool} {op : InFlight} {r : Result} {t : Token}

/-- Once the child has been reaped the session knows, and its exit frame is on the way when its output
has been drained. -/
def AttachSession.Informed (sess : AttachSession) (tr : List Entry) : Prop :=
  0 < sess.containerPid → ∀ exitCode, exitOf sess.containerPid tr = some exitCode →
    sess.childExited = true ∧ sess.exitCode = some exitCode ∧
      (sess.drainDone = true → sess.exitSent = true)

def AttachSession.knows (sess : AttachSession) : Pid × Bool × Option ℤ × Bool × Bool :=
  (sess.containerPid, sess.childExited, sess.exitCode, sess.drainDone, sess.exitSent)

/-- A session has been told of the exit it is to be told of, and if its exit frame is due then the
callback is about to see to it. -/
structure Told (h : List Token) (w : World) (sid : ℕ) : Prop where
  told : ∀ sess, w.g.attachSessions.lookup sid = some sess → 0 < sess.containerPid →
    ∀ exitCode, exitOf sess.containerPid w.trace = some exitCode →
      sess.childExited = true ∧ sess.exitCode = some exitCode
  due : ∀ sess, w.g.attachSessions.lookup sid = some sess → sess.drainDone = true →
    sess.childExited = true → sess.exitSent = false → .check sid ∈ h

namespace Told

theorem init : Told [] .init sid := by
  constructor
  · intro sess hs
    cases hs
  · intro sess hs
    cases hs

theorem informed (hx : Told [] w sid) (hs : w.g.attachSessions.lookup sid = some sess) :
    sess.Informed w.trace := by
  intro hpos exitCode hexit
  obtain ⟨hexited, hcode⟩ := hx.told sess hs hpos exitCode hexit
  refine ⟨hexited, hcode, fun hd => ?_⟩
  by_contra hsent
  have hmem := hx.due sess hs hd hexited (by simpa using hsent)
  cases hmem

/-- Nothing that the sessions know has changed, and no exit is new. -/
theorem congr (hx : Told h w sid) (hs : ∀ sess, w'.g.attachSessions.lookup sid = some sess →
      ∃ s, w.g.attachSessions.lookup sid = some s ∧ sess.knows = s.knows)
    (htr : ∀ pid exitCode, exitOf pid w'.trace = some exitCode → exitOf pid w.trace = some exitCode)
    (hh : .check sid ∈ h → .check sid ∈ h') : Told h' w' sid := by
  constructor
  · intro sess hsess hpos exitCode hexit
    obtain ⟨s, hs', heq⟩ := hs sess hsess
    simp only [AttachSession.knows, Prod.mk.injEq] at heq
    obtain ⟨hpid, hexited, hcode, -, -⟩ := heq
    rw [hpid] at hpos hexit
    rw [hexited, hcode]
    exact hx.told s hs' hpos exitCode (htr _ _ hexit)
  · intro sess hsess hd hc he
    obtain ⟨s, hs', heq⟩ := hs sess hsess
    simp only [AttachSession.knows, Prod.mk.injEq] at heq
    obtain ⟨-, hexited, -, hdrained, hsent⟩ := heq
    exact hh (hx.due s hs' (hdrained ▸ hd) (hexited ▸ hc) (hsent ▸ he))

/-- The sessions are the same ones. -/
theorem plain (hx : Told h w sid) (hs : w'.g.attachSessions = w.g.attachSessions)
    (htr : ∀ pid exitCode, exitOf pid w'.trace = some exitCode → exitOf pid w.trace = some exitCode)
    (hh : .check sid ∈ h → .check sid ∈ h') : Told h' w' sid :=
  hx.congr (fun sess hsess => ⟨sess, hs ▸ hsess, rfl⟩) htr hh

/-- A change of one session that leaves what it knows alone. -/
theorem modifySession {s : ℕ} {f : AttachSession → AttachSession} (hx : Told h w sid)
    (hf : ∀ sess, s = sid → (f sess).knows = sess.knows) : Told h (w.modifySession s f) sid := by
  refine hx.congr (fun sess hsess => ?_) (fun _ _ hexit => hexit) id
  have hl : (w.g.attachSessions.update s f).lookup sid = some sess := hsess
  rw [Table.lookup_update_ite] at hl
  split_ifs at hl with hsid
  · obtain ⟨sess', hs', rfl⟩ := Option.map_eq_some_iff.mp hl
    exact ⟨sess', hsid ▸ hs', hf sess' hsid.symm⟩
  · exact ⟨sess, hl, rfl⟩

/-- The session is given a container whose child has not been reaped. -/
theorem adopt {s : ℕ} {f : AttachSession → AttachSession} (hx : Told h w sid)
    (hnew : exitOf pid w.trace = none)
    (hf : ∀ sess, (f sess).knows = (pid, sess.knows.2)) : Told h (w.modifySession s f) sid := by
  by_cases hsid : s = sid
  · subst hsid
    constructor
    · intro sess hsess hpos exitCode hexit
      obtain ⟨s', hs', rfl⟩ := lookup_modifySession hsess
      have hpid : (f s').containerPid = pid := congrArg Prod.fst (hf s')
      rw [hpid] at hexit
      have hexit' : exitOf pid w.trace = some exitCode := hexit
      rw [hnew] at hexit'
      cases hexit'
    · intro sess hsess hd hc he
      obtain ⟨s', hs', rfl⟩ := lookup_modifySession hsess
      have heq := hf s'
      simp only [AttachSession.knows, Prod.mk.injEq] at heq
      obtain ⟨-, hexited, -, hdrained, hsent⟩ := heq
      exact hx.due s' hs' (hdrained ▸ hd) (hexited ▸ hc) (hsent ▸ he)
  · exact hx.modifySession fun _ hs => (hsid hs).elim

/-- The output has been drained. -/
theorem drained {s : ℕ} (hx : Told h w sid) :
    Told (.check s :: h) (w.modifySession s ({ · with drainDone := true })) sid := by
  by_cases hsid : s = sid
  · subst hsid
    refine ⟨fun sess hsess hpos exitCode hexit => ?_, fun _ _ _ _ _ => List.mem_cons_self⟩
    obtain ⟨s', hs', rfl⟩ := lookup_modifySession hsess
    exact hx.told s' hs' hpos exitCode hexit
  · have hx₁ : Told h (w.modifySession s ({ · with drainDone := true })) sid :=
      hx.modifySession fun _ hs => (hsid hs).elim
    exact hx₁.plain rfl (fun _ _ hexit => hexit) (List.mem_cons_of_mem _)

/-- The exit frame is seen to. -/
theorem finish {s : ℕ} (hx : Told (.check s :: h) w sid) :
    Told h (w.modifySession s ({ · with exitSent := true })) sid := by
  by_cases hsid : s = sid
  · subst hsid
    constructor
    · intro sess hsess hpos exitCode hexit
      obtain ⟨s', hs', rfl⟩ := lookup_modifySession hsess
      exact hx.told s' hs' hpos exitCode hexit
    · intro sess hsess _ _ he
      obtain ⟨s', -, rfl⟩ := lookup_modifySession hsess
      cases he
  · have hx₁ : Told (.check s :: h) (w.modifySession s ({ · with exitSent := true })) sid :=
      hx.modifySession fun _ hs => (hsid hs).elim
    refine hx₁.plain rfl (fun _ _ hexit => hexit) fun hmem => ?_
    rcases List.mem_cons.mp hmem with heq | hmem
    · exact absurd (Token.check.inj heq).symm hsid
    · exact hmem

/-- No exit frame is due. -/
theorem unfinished {s : ℕ} (hx : Told (.check s :: h) w sid)
    (hdue : ∀ sess, w.g.attachSessions.lookup s = some sess → sess.drainDone = true →
      sess.childExited = true → sess.exitSent = true) : Told h w sid := by
  refine ⟨hx.told, fun sess hs hd hc he => ?_⟩
  rcases List.mem_cons.mp (hx.due sess hs hd hc he) with heq | hmem
  · obtain rfl := Token.check.inj heq
    have hsent := hdue sess hs hd hc
    rw [he] at hsent
    cases hsent
  · exact hmem

/-- The child is reaped, and its only session is told. -/
theorem reap {exitCode : ℤ} {told : Option ℕ} (hx : Told h w sid) (hm : w.Meets pid told)
    (hlone : ∀ s ∈ sessionsOf w pid, told = some s) :
    Told (told.toList.map .check ++ h) (w.reap pid exitCode told) sid := by
  have hexit : ∀ p code, p ≠ pid → exitOf p (w.reap pid exitCode told).trace = some code →
      exitOf p w.trace = some code := by
    intro p code hp hexit
    rw [World.trace_reap, exitOf_append] at hexit
    simpa [noteExit, hp.symm] using hexit
  by_cases htold : told = some sid
  · subst htold
    have hmeets : sid ∈ sessionsOf w pid := hm
    obtain ⟨s, hs, hpid⟩ := mem_sessionsOf.mp hmeets
    constructor
    · intro sess hsess hpos code hcode
      obtain ⟨s', hs', rfl⟩ := lookup_modifySession hsess
      have hs'' : w.g.attachSessions.lookup sid = some s' := hs'
      rw [hs] at hs''
      obtain rfl := Option.some.inj hs''
      rw [World.trace_reap, exitOf_append] at hcode
      have heq : exitCode = code := by simpa [noteExit, hpid] using hcode
      exact ⟨rfl, congrArg some heq⟩
    · intro _ _ _ _ _
      simp
  · have hsess : ∀ sess, (w.reap pid exitCode told).g.attachSessions.lookup sid = some sess →
        w.g.attachSessions.lookup sid = some sess := by
      intro sess hs
      cases told with
      | none => exact hs
      | some t =>
        have hl : (w.g.attachSessions.update t _).lookup sid = some sess := hs
        rw [Table.lookup_update_ite, if_neg fun hsid => htold (congrArg some hsid.symm)] at hl
        exact hl
    constructor
    · intro sess hs hpos code hcode
      have hne : sess.containerPid ≠ pid := by
        intro hpid
        exact htold (hlone sid (mem_sessionsOf.mpr ⟨sess, hsess sess hs, hpid⟩))
      exact hx.told sess (hsess sess hs) hpos code (hexit _ _ hne hcode)
    · intro sess hs hd hc he
      exact List.mem_append_right _ (hx.due sess (hsess sess hs) hd hc he)

/-- A client connects. -/
theorem connect {stream : Fd .stream} {s : ℕ} (hx : Told h w sid) : Told h { w with
    g.nextSessionId := s + 1
    g.attachSessions := w.g.attachSessions.insert s (.new stream) } sid := by
  by_cases hsid : sid = s
  · have hnew : ∀ sess, (w.g.attachSessions.insert s (.new stream)).lookup sid = some sess →
        sess = .new stream := by
      intro sess hl
      rw [Table.lookup_insert_ite, if_pos hsid] at hl
      exact (Option.some.inj hl).symm
    constructor
    · intro sess hs hpos
      rw [hnew sess hs] at hpos
      cases hpos
    · intro sess hs hd
      rw [hnew sess hs] at hd
      cases hd
  · refine hx.congr (fun sess hs => ⟨sess, ?_, rfl⟩) (fun _ _ hexit => hexit) id
    have hl : (w.g.attachSessions.insert s (.new stream)).lookup sid = some sess := hs
    rw [Table.lookup_insert_ite, if_neg hsid] at hl
    exact hl

end Told

theorem check_of_for (ht : t.For loc) : t ≠ .check sid := by
  rintro rfl
  cases ht

theorem Move.told (hτ : τ.told) (hm : Move τ (h, w) (h', w')) (hx : Told h w sid) :
    Told h' w' sid := by
  cases hm with
  | perm hp => exact hx.plain rfl (fun _ _ hexit => hexit) hp.mem_iff.mpr
  | note he =>
    refine hx.plain rfl ?_ id
    rename_i e
    cases e <;> first | exact he.elim | simp [noteExit]
  | @release _ _ t d ht =>
    have hne : t ≠ .check sid := by
      rintro rfl
      cases ht
    exact hx.plain rfl (by simp [noteExit]) (by simp [hne.symm])
  | denied ht | starved ht =>
    exact hx.plain rfl (by simp [noteExit]) (by simp [(check_of_for ht).symm])
  | respond | data => exact hx.plain (by simp) (by simp [noteExit]) id
  | @finish _ _ s want sess ok =>
    exact hx.finish.plain (by simp) (by cases ok <;> simp [noteExit]) id
  | unfinished hdue => exact hx.unfinished hdue
  | accept =>
    have hx₁ : Told h' w sid := hx.plain rfl (fun _ _ hexit => hexit) (by simp)
    exact hx₁.connect
  | @close _ _ s sess hs =>
    refine hx.congr (fun sess' hsess => ⟨sess', ?_, rfl⟩) (by simp [noteExit]) (by simp)
    have hl : (w.g.attachSessions.erase s).lookup sid = some sess' := hsess
    rw [Table.lookup_erase_ite] at hl
    split_ifs at hl
    exact hl
  | @storeOp _ _ s which op => exact hx.modifySession fun sess _ => by cases which <;> rfl
  | drained => exact hx.drained
  | @adoptRun _ _ s sess pid ptm log hs hnew =>
    have hx₁ : Told h' w sid := hx.plain rfl (fun _ _ hexit => hexit) (by simp [holdFresh])
    exact (hx₁.adopt (hnew hτ) fun _ => rfl).plain rfl (by simp [noteExit]) id
  | @adoptAttach _ _ s sess pid info read write hs hi hnew =>
    have hx₁ : Told h' (w.attachPipe pid w.g.nextPipeId write) sid :=
      hx.plain rfl (fun _ _ hexit => hexit) (by simp [holdFresh])
    exact (hx₁.adopt (hnew hτ) fun _ => rfl).plain rfl (by simp [noteExit]) id
  | @eofOwn _ _ s sess fd =>
    have hx₁ : Told h (w.modifySession s ({ · with ptmFd := none })) sid :=
      hx.modifySession fun _ _ => rfl
    exact hx₁.plain rfl (by simp [noteExit]) (by simp)
  | @eofBorrowed _ _ s sess i =>
    have hx₁ : Told h (w.modifySession s ({ · with inputFd := none })) sid :=
      hx.modifySession fun _ _ => rfl
    exact hx₁.plain rfl (by simp [noteExit]) id
  | @started _ _ p =>
    refine hx.plain rfl (fun q code hexit => ?_) id
    rw [World.trace_note, exitOf_append] at hexit
    by_cases hq : p = q
    · simp [noteExit, hq] at hexit
    · simpa [noteExit, hq] using hexit
  | reaped hpid hmeets hlone => exact hx.reap hmeets (hlone hτ)
  | @buryReaped _ _ pid exitCode told info hpid hmeets hlone =>
    exact (hx.reap hmeets (hlone hτ)).plain rfl (by simp [noteExit]) (by simp [hold])
  | retire => exact hx.plain rfl (fun _ _ hexit => hexit) (List.mem_append_right _)
  | _ => exact hx.plain rfl (by simp [noteExit]) (by simp [hold, holdFresh])

theorem Told.perform (hx : Told [] w sid) : Told [] (w.perform op r) sid := by
  refine hx.plain (by rw [World.g_perform]) ?_ id
  rcases w.trace_perform_cases op r with htr | ⟨e, htr, hout⟩
  · rw [htr]
    exact fun _ _ hexit => hexit
  · rw [htr]
    cases e <;> first | exact hout.elim | simp [noteExit]

def Terms.telling : Terms := { Terms.none with told := True }

theorem told_invariant : Invariant .telling codec
    (fun w e => Delivers (ToldStep codec) w e ∧ w.Numbered) fun h w => ∀ sid, Told h w sid where
  move hx hm sid := hm.told trivial (hx sid)
  enter hx _ sid := ⟨(hx sid).told, (hx sid).due⟩
  perform hx _ _ _ _ sid := (hx sid).perform
  fits _ hop hr hok := { Fits.none with told := fun _ => hok.1 _ _ hop hr }

/-- As long as each child that is reaped has at most one session, and none attaches to a container
whose child has been reaped, every session knows of the exit of its child. -/
theorem run_informs (hb : booted answers = some w₀)
    (hr : Reaches (step codec) (Delivers (ToldStep codec)) w₀ w) :
    ∀ sid sess, w.g.attachSessions.lookup sid = some sess → sess.Informed w.trace := by
  have hx : ∀ sid, Told [] w sid := told_invariant.reaches (fun _ => .init) hb hr
  intro sid sess hs
  exact (hx sid).informed hs

/-- Whether the child's only session is told, of each child that is reaped. -/
def LoneAnswers (w : World) : List Answer → Bool
  | [] => true
  | .wait (some (pid, _, first)) :: as => (sessionsOf w pid).all (· = first) && LoneAnswers w as
  | _ :: as => LoneAnswers w as

theorem loneAnswers_iff {as : List Answer} : LoneAnswers w as = true ↔
    ∀ pid status first, Answer.wait (some (pid, status, first)) ∈ as →
      ∀ s ∈ sessionsOf w pid, s = first := by
  induction as with
  | nil => simp [LoneAnswers]
  | cons a as ih =>
    unfold LoneAnswers
    split
    · rename_i hnil
      cases hnil
    · rename_i pid status first as' heq
      obtain ⟨rfl, rfl⟩ := List.cons.inj heq
      rw [Bool.and_eq_true, ih]
      constructor
      · rintro ⟨hall, hrest⟩ p st s hmem
        rcases List.mem_cons.mp hmem with hmem | hmem
        · cases hmem
          simpa using hall
        · exact hrest p st s hmem
      · intro hall
        refine ⟨?_, fun p st s hmem => hall p st s (List.mem_cons_of_mem _ hmem)⟩
        simpa using hall pid status first List.mem_cons_self
    · rename_i hno heq
      obtain ⟨rfl, rfl⟩ := List.cons.inj heq
      rw [ih]
      constructor
      · intro hall p st s hmem
        rcases List.mem_cons.mp hmem with hmem | hmem
        · exact (hno p st s hmem.symm).elim
        · exact hall p st s hmem
      · exact fun hall p st s hmem => hall p st s (List.mem_cons_of_mem _ hmem)

def Codec.attaches (codec : Codec) (f : Frame) : Option Pid :=
  match codec.asked f with
  | some (.attach pid) => some pid
  | _ => none

theorem attaches_iff {f : Frame} : codec.attaches f = some pid ↔ codec.asked f = some (.attach pid) := by
  unfold Codec.attaches
  split
  · rename_i p hp
    simp [hp]
  · rename_i hno
    exact ⟨nofun, fun hp => (hno pid hp).elim⟩

instance : Decidable (ToldStep codec w op r) :=
  decidable_of_iff ((op.loc = .sigchld → LoneAnswers w w.answers = true) ∧
    ∀ x ∈ op.loc.frame r, ∀ pid ∈ codec.attaches x.2,
      w.g.containers.lookup pid = none ∨ exitOf pid w.trace = none)
    ⟨fun hk => ⟨fun hl => loneAnswers_iff.mp (hk.1 hl),
      fun _ _ pid hf ha hl => (hk.2 _ hf pid (attaches_iff.mpr ha)).resolve_left hl⟩,
      fun hk => ⟨fun hl => loneAnswers_iff.mpr (hk.lone hl), fun x hf pid ha =>
        or_iff_not_imp_left.mpr fun hl => hk.alive x.1 x.2 pid hf (attaches_iff.mp ha) hl⟩⟩

def attachFrame (header payload read write : ℕ) : List Event :=
  clientFrame header payload 0x00 [4]
    [.call (.ok [read, write]), .submit true, .submit true, .submit true]

def childExits (first : ℕ) : List Event :=
  turn 2 (.bytes [17]) [.wait (some (100, 0, first)), .wait none, .call (.ok []), .submit true]

/-- One client attaches to a container, which exits. -/
theorem run_informs_one : ∃ w₀ w, booted quietBoot = some w₀ ∧
    Reaches (step sampleCodec) (Delivers (ToldStep sampleCodec)) w₀ w ∧
      exitOf 100 w.trace = some 0 ∧
        ∀ sid sess, w.g.attachSessions.lookup sid = some sess → sess.Informed w.trace := by
  obtain ⟨w₀, w, hb, hr, ht⟩ := exists_of_executes (step sampleCodec)
    (Delivers (ToldStep sampleCodec)) (booted quietBoot)
    (datagram 0 3 [1] runDetached ++ connect 1 20 7 ++ attachFrame 6 8 30 31 ++ childExits 0)
    (fun _ w => decide (exitOf 100 w.trace = some 0)) (by decide +kernel)
  exact ⟨w₀, w, hb, hr, of_decide_eq_true ht, run_informs hb hr⟩

/-- Two clients attach to the container, and one of them is told. -/
theorem second_session_not_told : ∃ w₀ w, booted quietBoot = some w₀ ∧
    Reaches (step sampleCodec) (fun _ _ => True) w₀ w ∧
      ¬ ∀ sid sess, w.g.attachSessions.lookup sid = some sess → sess.Informed w.trace := by
  obtain ⟨w₀, w, hb, hr, ht⟩ := exists_of_executes (step sampleCodec) (fun _ _ => True)
    (booted quietBoot)
    (datagram 0 3 [1] runDetached ++ connect 1 20 7 ++ attachFrame 6 8 30 31 ++
      connect 7 21 10 ++ attachFrame 12 14 32 33 ++ childExits 0)
    (fun _ w => (w.g.attachSessions.lookup 1).any fun (sess : AttachSession) =>
      decide (sess.containerPid = 100 ∧ exitOf 100 w.trace = some 0 ∧ sess.childExited = false))
    (by decide +kernel)
  obtain ⟨sess, hs, hsess⟩ := (Option.any_eq_true _ _).mp ht
  obtain ⟨hpid, hexit, hfalse⟩ := of_decide_eq_true hsess
  refine ⟨w₀, w, hb, hr, fun hall => ?_⟩
  have hknown := (hall 1 sess hs (by rw [hpid]; decide) 0 (by rw [hpid]; exact hexit)).1
  rw [hfalse] at hknown
  cases hknown

end Conrt.Daemon
