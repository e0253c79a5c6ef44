import Conrt.Daemon.Exits
import Conrt.Daemon.Streams

/-! A session with a container is closed when its exit frame has been written, and not before. -/
namespace Conrt.Daemon

open Conrt.Base

variable {τ : Terms} {h h' : List Token} {w w' w₀ : World} {codec : Codec} {answers : List Answer}
  {sid : ℕ} {sess : AttachSession} {tr tr' : List Entry} {loc loc' : OpLocal} {fd : Option Handle}
  {want id : ℕ} {ok : Bool} {op : InFlight} {r : Result} {e : Entry}

/-- A session that has a container is closed only when its exit frame has been written. -/
def ClosesLast (sid : ℕ) (before : List Entry) (e : Entry) : Prop :=
  e = .sessionClosed sid → Settled sid before

def OpLocal.writesExit (sid : ℕ) : OpLocal → Bool
  | .sessionFrame s _ buf _ => s = sid ∧ buf.head? = some 0x02
  | _ => false

def World.exitOps (w : World) (sid : ℕ) : List InFlight := w.opsWhere (·.writesExit sid)

/-- Entries that close the session or put bytes of its frames on its stream. -/
def Entry.parts (sid : ℕ) : Entry → Bool
  | .sessionClosed s => s = sid
  | .wrote (.sessionFrame s _ _ _) _ _ => s = sid
  | _ => false

theorem exitBytes_quiet (hq : Quiet (Entry.parts sid) tr tr') : exitBytes sid tr' = exitBytes sid tr := by
  refine hq.eq fun before e he => ?_
  rw [exitBytes_append]
  cases e with
  | wrote loc g b =>
    cases loc with
    | sessionFrame s =>
      have hne : s ≠ sid := by simpa [Entry.parts] using he
      simp [exitBytes, hne]
    | _ => exact List.append_nil _
  | _ => exact List.append_nil _

theorem closesLast_quiet (hq : Quiet (Entry.parts sid) tr tr') (hh : Always (ClosesLast sid) tr) :
    Always (ClosesLast sid) tr' := by
  refine hq.keeps (fun before e he hx => ?_) hh
  refine Always.concat_iff.mpr ⟨hx, fun heq => ?_⟩
  subst heq
  simp [Entry.parts] at he

private theorem writesTo_of_writesExit (hx : loc.writesExit sid = true) : ∃ f, loc.writesTo f = true := by
  cases loc with
  | sessionFrame s stream => exact ⟨stream.handle.2, by simp [OpLocal.writesTo, OpLocal.stream]⟩
  | _ => cases hx

/-- An op that writes to no stream writes no exit frame. -/
theorem writesExit_of_stream (hs : loc.stream = none) : loc.writesExit sid = false := by
  cases loc <;> first | rfl | cases hs

theorem writesExit_of_for {t : Token} (ht : t.For loc) : loc.writesExit sid = false := by
  by_contra hx
  obtain ⟨f, hf⟩ := writesTo_of_writesExit (Bool.eq_true_of_not_eq_false hx)
  rw [writesTo_of_for ht] at hf
  cases hf

/-- What is left of the exit frame is what is submitted next. -/
theorem Resumes.exitRest {stdinFd : ℕ → Option Handle} {n : ℕ} (hr : Resumes stdinFd n loc loc' fd) :
    loc'.writesExit sid = loc.writesExit sid ∧
      (loc.writesExit sid = true → loc'.unsent 0 = loc.unsent n) := by
  cases hr with
  | frame => exact ⟨rfl, fun _ => rfl⟩
  | _ => exact ⟨rfl, nofun⟩

/-- The exit frame of a session is begun once; while the session is there, what has been written of it,
followed by what its one writer has left, is the frame. -/
structure ExitFlow (w : World) (sid : ℕ) : Prop where
  new : w.g.nextSessionId ≤ sid → w.g.attachSessions.lookup sid = none
  unsent : (w.g.nextSessionId ≤ sid ∨
      ∃ sess, w.g.attachSessions.lookup sid = some sess ∧ sess.exitSent = false) →
    w.exitOps sid = [] ∧ exitBytes sid w.trace = []
  writer : w.g.attachSessions.lookup sid ≠ none → w.exitOps sid = [] ∨ ∃ op exitCode,
    w.exitOps sid = [op] ∧
      exitBytes sid w.trace ++ op.unsent = (Frame.mk 0x02 (exitPayload exitCode)).bytes
  history : Always (ClosesLast sid) w.trace

namespace ExitFlow

theorem init : ExitFlow .init sid :=
  ⟨fun _ => rfl, fun _ => ⟨rfl, rfl⟩, fun _ => .inl rfl, .nil⟩

/-- No session is new, and none loses its flag. -/
theorem of_parts (hx : ExitFlow w sid) (hnext : w'.g.nextSessionId = w.g.nextSessionId)
    (hs : ∀ sess, w'.g.attachSessions.lookup sid = some sess →
      ∃ s, w.g.attachSessions.lookup sid = some s ∧ (sess.exitSent = false → s.exitSent = false))
    (hunsent : w.exitOps sid = [] → exitBytes sid w.trace = [] →
      w'.exitOps sid = [] ∧ exitBytes sid w'.trace = [])
    (hwriter : w.g.attachSessions.lookup sid ≠ none → w'.exitOps sid = [] ∨ ∃ op exitCode,
      w'.exitOps sid = [op] ∧
        exitBytes sid w'.trace ++ op.unsent = (Frame.mk 0x02 (exitPayload exitCode)).bytes)
    (hh : Always (ClosesLast sid) w'.trace) : ExitFlow w' sid where
  new hle := by
    refine Option.eq_none_iff_forall_ne_some.mpr fun sess hsess => ?_
    obtain ⟨s, hs', -⟩ := hs sess hsess
    rw [hx.new (hnext ▸ hle)] at hs'
    cases hs'
  unsent hfree := by
    have hfree' : w.g.nextSessionId ≤ sid ∨
        ∃ sess, w.g.attachSessions.lookup sid = some sess ∧ sess.exitSent = false := by
      rcases hfree with hle | ⟨sess, hsess, he⟩
      · exact .inl (hnext ▸ hle)
      · obtain ⟨s, hs', hsent⟩ := hs sess hsess
        exact .inr ⟨s, hs', hsent he⟩
    obtain ⟨hops, hbytes⟩ := hx.unsent hfree'
    exact hunsent hops hbytes
  writer hne := by
    obtain ⟨sess, hsess⟩ := Option.ne_none_iff_exists'.mp hne
    obtain ⟨s, hs', -⟩ := hs sess hsess
    exact hwriter (by rw [hs']; exact Option.some_ne_none s)
  history := hh

/-- Neither the exit frame nor the session is touched. -/
theorem same (hx : ExitFlow w sid) (hops : w'.exitOps sid = w.exitOps sid)
    (hnext : w'.g.nextSessionId = w.g.nextSessionId)
    (hs : ∀ sess, w'.g.attachSessions.lookup sid = some sess →
      ∃ s, w.g.attachSessions.lookup sid = some s ∧ (sess.exitSent = false → s.exitSent = false))
    (htr : Quiet (Entry.parts sid) w.trace w'.trace) : ExitFlow w' sid := by
  have hbytes := exitBytes_quiet htr
  refine hx.of_parts hnext hs (fun ho hb => ⟨hops.trans ho, hbytes.trans hb⟩) ?_
    (closesLast_quiet htr hx.history)
  rw [hops, hbytes]
  exact hx.writer

/-- The sessions are the same ones. -/
theorem plain (hx : ExitFlow w sid) (hops : w'.exitOps sid = w.exitOps sid)
    (hnext : w'.g.nextSessionId = w.g.nextSessionId)
    (hs : w'.g.attachSessions = w.g.attachSessions)
    (htr : Quiet (Entry.parts sid) w.trace w'.trace) : ExitFlow w' sid :=
  hx.same hops hnext (fun sess hsess => ⟨sess, hs ▸ hsess, id⟩) htr

theorem submitOther (hx : ExitFlow w sid) (hloc : loc.writesExit sid = false) :
    ExitFlow (w.submit loc fd want ok) sid := by
  refine hx.plain (World.opsWhere_submitOther hloc) rfl rfl ?_
  rw [World.trace_submit]
  simp [Entry.parts]

theorem beginOther {stream : Fd .stream} {frame : Frame} (hx : ExitFlow w sid)
    (hloc : loc.writesExit sid = false) : ExitFlow (w.beginFrame stream frame loc want ok) sid := by
  refine hx.plain (World.opsWhere_beginFrame.trans (World.opsWhere_submitOther hloc)) (by simp)
    (by simp) ?_
  rw [World.trace_beginFrame]
  cases ok <;> simp [Entry.parts]

/-- A change of one session that does not take its flag back. -/
theorem modified {s : ℕ} (f : AttachSession → AttachSession) (hx : ExitFlow w sid)
    (hf : ∀ sess, (f sess).exitSent = false → sess.exitSent = false)
    (hs : w'.g.attachSessions = w.g.attachSessions.update s f)
    (hops : w'.exitOps sid = w.exitOps sid) (hnext : w'.g.nextSessionId = w.g.nextSessionId)
    (htr : Quiet (Entry.parts sid) w.trace w'.trace) : ExitFlow w' sid := by
  refine hx.same hops hnext (fun sess hsess => ?_) htr
  rw [hs, Table.lookup_update_ite] at hsess
  split_ifs at hsess with hsid
  · obtain ⟨sess', hs', rfl⟩ := Option.map_eq_some_iff.mp hsess
    exact ⟨sess', hsid ▸ hs', hf sess'⟩
  · exact ⟨sess, hsess, id⟩

theorem reap {pid : Pid} {exitCode : ℤ} {told : Option ℕ} (hx : ExitFlow w sid) :
    ExitFlow (w.reap pid exitCode told) sid := by
  have hx₁ : ExitFlow ({ w with children := w.children.erase pid }.note (.reaped pid exitCode)) sid :=
    hx.plain rfl rfl rfl (by simp [Entry.parts])
  cases told with
  | none => exact hx₁
  | some s =>
    exact hx₁.modified ({ · with childExited := true, exitCode := some exitCode }) (fun _ he => he) rfl
      rfl rfl quiet_refl

/-- A client connects. -/
theorem connect {stream : Fd .stream} (hx : ExitFlow w sid) : ExitFlow { w with
    g.nextSessionId := w.g.nextSessionId + 1
    g.attachSessions := w.g.attachSessions.insert w.g.nextSessionId (.new stream) } sid := by
  have hlook : ∀ s, (w.g.attachSessions.insert w.g.nextSessionId (.new stream)).lookup s =
      if s = w.g.nextSessionId then some (.new stream) else w.g.attachSessions.lookup s := fun s =>
    Table.lookup_insert_ite ..
  constructor
  · intro hle
    have hle' : w.g.nextSessionId + 1 ≤ sid := hle
    rw [hlook, if_neg (by omega)]
    exact hx.new (by omega)
  · rintro (hle | ⟨sess, hsess, he⟩)
    · have hle' : w.g.nextSessionId + 1 ≤ sid := hle
      exact hx.unsent (.inl (by omega))
    · rw [hlook] at hsess
      split_ifs at hsess with hsid
      · exact hx.unsent (.inl hsid.ge)
      · exact hx.unsent (.inr ⟨sess, hsess, he⟩)
  · intro hne
    rw [hlook] at hne
    split_ifs at hne with hsid
    · exact .inl (hx.unsent (.inl hsid.ge)).1
    · exact hx.writer hne
  · exact hx.history

/-- The session is closed. -/
theorem close {s : ℕ} (hx : ExitFlow w sid) (hsettled : s = sid → Settled sid w.trace) :
    ExitFlow (w.dropSession s) sid := by
  have hs : ∀ sess, (w.dropSession s).g.attachSessions.lookup sid = some sess →
      w.g.attachSessions.lookup sid = some sess := by
    intro sess hsess
    have hl : (w.g.attachSessions.erase s).lookup sid = some sess := hsess
    rw [Table.lookup_erase_ite] at hl
    split_ifs at hl
    exact hl
  have hbytes : exitBytes sid (w.dropSession s).trace = exitBytes sid w.trace := by
    rw [World.trace_dropSession, exitBytes_append]
    exact List.append_nil _
  refine hx.of_parts rfl (fun sess hsess => ⟨sess, hs sess hsess, id⟩)
    (fun ho hb => ⟨ho, hbytes.trans hb⟩) ?_ ?_
  · rw [hbytes]
    exact hx.writer
  · rw [World.trace_dropSession]
    refine Always.concat_iff.mpr ⟨hx.history, fun heq => hsettled ?_⟩
    exact Entry.sessionClosed.inj heq

/-- The exit frame is begun. -/
theorem finish (hx : ExitFlow w sid) (hs : w.g.attachSessions.lookup sid = some sess)
    (he : sess.exitSent = false) {exitCode : ℤ} :
    ExitFlow ((w.modifySession sid ({ · with exitSent := true })).beginFrame sess.streamFd
      ⟨0x02, exitPayload exitCode⟩ (.sessionFrame sid sess.streamFd
        (Frame.bytes ⟨0x02, exitPayload exitCode⟩) 0) want ok) sid := by
  obtain ⟨hidle, hnone⟩ := hx.unsent (.inr ⟨sess, hs, he⟩)
  obtain ⟨w₁, hw₁⟩ : ∃ w₁, w₁ = w.modifySession sid ({ · with exitSent := true }) := ⟨_, rfl⟩
  rw [← hw₁]
  have hops : w₁.exitOps sid = [] := by
    rw [hw₁]
    exact hidle
  have htr : w₁.trace = w.trace := by
    rw [hw₁]
    rfl
  have hquiet : Quiet (Entry.parts sid) w.trace (w₁.beginFrame sess.streamFd
      ⟨0x02, exitPayload exitCode⟩ (.sessionFrame sid sess.streamFd
        (Frame.bytes ⟨0x02, exitPayload exitCode⟩) 0) want ok).trace := by
    rw [World.trace_beginFrame, htr]
    cases ok <;> simp [Entry.parts]
  have hlook : ∀ s, w₁.g.attachSessions.lookup sid = some s → s.exitSent = true := by
    intro s hs'
    rw [hw₁] at hs'
    obtain ⟨s', -, rfl⟩ := lookup_modifySession hs'
    rfl
  constructor
  · intro hle
    rw [World.g_beginFrame, hw₁] at hle
    have hgone := hx.new hle
    rw [hs] at hgone
    cases hgone
  · rintro (hle | ⟨s, hs', he'⟩)
    · rw [World.g_beginFrame, hw₁] at hle
      have hgone := hx.new hle
      rw [hs] at hgone
      cases hgone
    · rw [World.g_beginFrame] at hs'
      rw [hlook s hs'] at he'
      cases he'
  · intro _
    rw [exitBytes_quiet hquiet, hnone]
    cases ok with
    | false =>
      left
      exact World.opsWhere_beginFrame.trans (World.opsWhere_refused.trans hops)
    | true =>
      right
      obtain ⟨loc, hloc⟩ : ∃ loc, loc = OpLocal.sessionFrame sid sess.streamFd
        (Frame.bytes ⟨0x02, exitPayload exitCode⟩) 0 := ⟨_, rfl⟩
      rw [← hloc]
      have hexit : loc.writesExit sid = true := by
        rw [hloc]
        exact decide_eq_true ⟨rfl, rfl⟩
      refine ⟨⟨w₁.nextOp, loc, some sess.streamFd.handle, want,
        none⟩, exitCode, ?_, ?_⟩
      · refine World.opsWhere_beginFrame.trans ((World.opsWhere_submit hexit).trans ?_)
        exact congrArg (· ++ _) hops
      · rw [hloc]
        rfl
  · exact closesLast_quiet hquiet hx.history

/-- The one writer of the exit frame, and what it has left. -/
theorem sole {others : List InFlight} (hx : ExitFlow w sid)
    (hs : w.g.attachSessions.lookup sid ≠ none) (hperm : (w.exitOps sid).Perm (op :: others)) :
    others = [] ∧ ∃ exitCode,
      exitBytes sid w.trace ++ op.unsent = (Frame.mk 0x02 (exitPayload exitCode)).bytes := by
  rcases hx.writer hs with hw | ⟨o, exitCode, hw, hframe⟩
  · rw [hw] at hperm
    exact absurd hperm.symm.eq_nil (List.cons_ne_nil _ _)
  · rw [hw] at hperm
    obtain ⟨rfl, rfl⟩ := List.cons.inj (List.perm_singleton.mp hperm.symm)
    exact ⟨rfl, exitCode, hframe⟩

theorem busy {others : List InFlight} (hperm : (w.exitOps sid).Perm (op :: others)) :
    w.exitOps sid ≠ [] := by
  intro hnil
  rw [hnil] at hperm
  exact absurd hperm.symm.eq_nil (List.cons_ne_nil _ _)

/-- A write leaves. -/
theorem takeOp (hx : ExitFlow w sid) (hop : w.findOp id = some op) :
    ExitFlow (w.takeOp id) sid := by
  cases hloc : op.loc.writesExit sid with
  | false => exact hx.plain (World.opsWhere_takeOther hop hloc) rfl rfl quiet_refl
  | true =>
    have hperm : (w.exitOps sid).Perm (op :: (w.takeOp id).exitOps sid) :=
      World.opsWhere_taken hop hloc
    exact hx.of_parts rfl (fun sess hsess => ⟨sess, hsess, fun he => he⟩)
      (fun hnil _ => (busy hperm hnil).elim) (fun hs => .inl (hx.sole hs hperm).1) hx.history

/-- The rest of a short write is submitted. -/
theorem resume {n : ℕ} (hx : ExitFlow w sid) (hop : w.findOp id = some op)
    (hr : op.result = some (.count n)) (hres : Resumes w.stdinFd n op.loc loc fd) :
    ExitFlow ((w.takeOp id).submit loc fd want true) sid := by
  obtain ⟨hsame, hrest⟩ : loc.writesExit sid = op.loc.writesExit sid ∧ _ := hres.exitRest
  have hquiet : Quiet (Entry.parts sid) w.trace ((w.takeOp id).submit loc fd want true).trace := by
    rw [World.trace_submit]
    simp [Entry.parts]
  cases hloc : op.loc.writesExit sid with
  | false =>
    refine hx.plain ?_ rfl rfl hquiet
    exact (World.opsWhere_submitOther (hsame.trans hloc)).trans (World.opsWhere_takeOther hop hloc)
  | true =>
    have hperm : (w.exitOps sid).Perm (op :: (w.takeOp id).exitOps sid) :=
      World.opsWhere_taken hop hloc
    obtain ⟨new, hnew⟩ : ∃ new : InFlight, new = ⟨w.nextOp, loc, fd, want, none⟩ := ⟨_, rfl⟩
    have hops : ((w.takeOp id).submit loc fd want true).exitOps sid =
        (w.takeOp id).exitOps sid ++ [new] := by
      rw [hnew]
      exact World.opsWhere_submit (hsame.trans hloc)
    have hunsent : new.unsent = op.unsent := by
      unfold InFlight.unsent
      rw [hr, hnew]
      exact hrest hloc
    refine hx.of_parts rfl (fun sess hsess => ⟨sess, hsess, fun he => he⟩)
      (fun hnil _ => (busy hperm hnil).elim) (fun hs => .inr ?_) (closesLast_quiet hquiet hx.history)
    obtain ⟨hnone, exitCode, hbytes⟩ := hx.sole hs hperm
    refine ⟨new, exitCode, ?_, ?_⟩
    · rw [hops, hnone]
      rfl
    · rw [exitBytes_quiet hquiet, hunsent]
      exact hbytes

/-- What the kernel takes of the exit frame is no longer left. -/
theorem sent (hloc : op.loc.writesExit sid = true)
    (hfile : ∀ g, w.reached op = some g → op.loc.writesTo g = true) (hr : op.result = none)
    (hallows : w.allows op r = true) : ∃ b,
      exitBytes sid (w.perform op r).trace = exitBytes sid w.trace ++ b ∧
        op.unsent = b ++ { op with result := some r }.unsent := by
  obtain ⟨stream, buf, off, hl, hhead⟩ : ∃ stream buf off,
      op.loc = .sessionFrame sid stream buf off ∧ buf.head? = some 0x02 := by
    cases hl : op.loc with
    | sessionFrame s stream buf off =>
      rw [hl] at hloc
      obtain ⟨rfl, hhead⟩ : s = sid ∧ buf.head? = some 0x02 := by simpa [OpLocal.writesExit] using hloc
      exact ⟨stream, buf, off, rfl, hhead⟩
    | _ =>
      rw [hl] at hloc
      cases hloc
  rw [World.trace_perform, exitBytes_append]
  unfold InFlight.unsent World.performed
  rw [hr]
  cases r with
  | count n =>
    obtain ⟨g, hg⟩ : ∃ g, w.reached op = some g := by
      apply Option.isSome_iff_exists.mp
      simp only [World.allows, Bool.and_eq_true] at hallows
      exact hallows.1
    have hgood : g = stream.handle.2 := by
      have hto := hfile g hg
      rw [hl] at hto
      exact (by simpa [OpLocal.writesTo, OpLocal.stream] using hto : stream.handle.2 = g).symm
    refine ⟨op.loc.pending.take n, ?_, ?_⟩
    · simp only [hg]
      split_ifs with hp
      · simp [hp, exitBytes]
      · simp [exitBytes, hl, hhead, hgood]
    · simp [hl, OpLocal.unsent, OpLocal.pending, taken, ← List.drop_drop]
  | failed e => exact ⟨[], by simp [exitBytes], rfl⟩
  | _ => simp [World.allows, hl] at hallows

/-- The kernel completes an op. -/
theorem perform (hx : ExitFlow w sid) (hn : w.Numbered) (hop : w.findOp op.id = some op)
    (hr : op.result = none) (hallows : w.allows op r = true)
    (hfile : w.g.attachSessions.lookup sid ≠ none → op.loc.writesExit sid = true →
      ∀ g, w.reached op = some g → op.loc.writesTo g = true) :
    ExitFlow (w.perform op r) sid := by
  have hopen : ∀ e ∈ w.performed op r, e ≠ .sessionClosed sid := by
    intro e he
    unfold World.performed at he
    split at he
    · rw [List.mem_singleton.mp he]
      exact Entry.noConfusion
    · split_ifs at he
      · cases he
      · rw [List.mem_singleton.mp he]
        exact Entry.noConfusion
    · rw [List.mem_singleton.mp he]
      exact Entry.noConfusion
    · rw [List.mem_singleton.mp he]
      exact Entry.noConfusion
    · cases he
  have hhistory : Always (ClosesLast sid) (w.perform op r).trace := by
    have hquiet : Quiet (fun e => decide (e = .sessionClosed sid)) w.trace (w.perform op r).trace := by
      rw [World.trace_perform, quiet_append]
      exact fun e he => decide_eq_false (hopen e he)
    refine hquiet.keeps (fun before e he hb => Always.concat_iff.mpr ⟨hb, fun heq => ?_⟩) hx.history
    exact absurd heq (of_decide_eq_false he)
  have hsess : ∀ sess, (w.perform op r).g.attachSessions.lookup sid = some sess →
      ∃ s, w.g.attachSessions.lookup sid = some s ∧ (sess.exitSent = false → s.exitSent = false) := by
    intro sess hs
    rw [World.g_perform] at hs
    exact ⟨sess, hs, fun he => he⟩
  have hnext : (w.perform op r).g.nextSessionId = w.g.nextSessionId := by rw [World.g_perform]
  cases hloc : op.loc.writesExit sid with
  | false =>
    have hops : (w.perform op r).exitOps sid = w.exitOps sid := World.opsWhere_performOther hn hop hloc
    have hbytes : exitBytes sid (w.perform op r).trace = exitBytes sid w.trace := by
      rw [World.trace_perform, exitBytes_append]
      unfold World.performed
      split <;> try exact List.append_nil _
      rename_i n g _
      split_ifs with hp
      · exact List.append_nil _
      · cases hl : op.loc with
        | sessionFrame s stream buf off =>
          have hne : ¬ (s = sid ∧ buf.head? = some 0x02) := by
            rw [hl] at hloc
            simpa [OpLocal.writesExit] using hloc
          have hne' : ¬ (s = sid ∧ buf.head? = some 0x02 ∧ g = stream.handle.2) :=
            fun hx => hne ⟨hx.1, hx.2.1⟩
          simp [exitBytes, hne']
        | _ => exact List.append_nil _
    refine hx.of_parts hnext hsess (fun ho hb => ⟨hops.trans ho, hbytes.trans hb⟩) ?_ hhistory
    rw [hops, hbytes]
    exact hx.writer
  | true =>
    obtain ⟨others, hperm, hperm'⟩ : ∃ others, (w.exitOps sid).Perm (op :: others) ∧
        ((w.perform op r).exitOps sid).Perm ({ op with result := some r } :: others) :=
      World.opsWhere_perform hn hop hloc
    refine hx.of_parts hnext hsess (fun hnil _ => (busy hperm hnil).elim) (fun hs => .inr ?_) hhistory
    obtain ⟨rfl, exitCode, hframe⟩ := hx.sole hs hperm
    obtain ⟨b, hbytes, hrest⟩ := sent (w := w) hloc (hfile hs hloc) hr hallows
    refine ⟨_, exitCode, List.perm_singleton.mp hperm', ?_⟩
    rw [hbytes, List.append_assoc, ← hrest]
    exact hframe

/-- The exit frame's one writer has nothing left: the frame has been written. -/
theorem done (hx : ExitFlow w sid) (hs : w.g.attachSessions.lookup sid ≠ none) (hop : op ∈ w.ops)
    (hloc : op.loc.writesExit sid = true) (hrest : op.unsent = []) : ExitDone sid w.trace := by
  have hmem : op ∈ w.exitOps sid := World.mem_opsWhere.mpr ⟨hop, hloc⟩
  rcases hx.writer hs with hw | ⟨o, exitCode, hw, hframe⟩
  · rw [hw] at hmem
    cases hmem
  · rw [hw] at hmem
    obtain rfl := List.mem_singleton.mp hmem
    rw [hrest, List.append_nil] at hframe
    exact ⟨exitCode, hframe⟩

end ExitFlow

theorem Move.exitFlow (hτ : τ.orderly sid) (hm : Move τ (h, w) (h', w')) (hx : ExitFlow w sid) :
    ExitFlow w' sid := by
  cases hm with
  | @note _ _ e he =>
    refine hx.plain rfl rfl rfl ?_
    cases e <;> first | exact he.elim | simp [Entry.parts]
  | refused =>
    refine hx.plain World.opsWhere_refused rfl rfl ?_
    rw [World.trace_submit]
    simp [Entry.parts]
  | denied ht => exact hx.submitOther (writesExit_of_for ht)
  | read hr => exact hx.submitOther (writesExit_of_stream (names_of_reader hr).1)
  | relisten hl => exact hx.submitOther (writesExit_of_stream (names_of_loop hl).1)
  | output | passFd | follow => exact hx.submitOther rfl
  | @rearm _ _ kind => exact hx.submitOther (by cases kind <;> rfl)
  | resume hop hr hres => exact hx.resume hop hr hres
  | retire hop => exact hx.takeOp hop
  | respond | data => exact hx.beginOther (by simp [OpLocal.writesExit, Frame.bytes, buildFrame])
  | @finish _ _ s want sess ok hs hd hc he =>
    by_cases hsid : s = sid
    · subst hsid
      exact hx.finish hs he
    · have hx₁ : ExitFlow (w.modifySession s ({ · with exitSent := true })) sid := by
        refine hx.same rfl rfl (fun sess' hsess => ⟨sess', ?_, fun he => he⟩) quiet_refl
        have hl : (w.g.attachSessions.update s _).lookup sid = some sess' := hsess
        rw [Table.lookup_update_ite, if_neg (Ne.symm hsid)] at hl
        exact hl
      exact hx₁.beginOther (by simp [OpLocal.writesExit, hsid])
  | accept => exact hx.connect
  | close hs hsettled => exact hx.close fun hsid => hsid ▸ hsettled (hsid ▸ hτ)
  | @storeOp _ _ s which op =>
    refine hx.modified (·.storeOp which op) (fun sess he => ?_) rfl rfl rfl quiet_refl
    cases which <;> exact he
  | drained =>
    exact hx.modified ({ · with drainDone := true }) (fun _ he => he) rfl rfl rfl quiet_refl
  | @adoptRun _ _ s sess pid ptm log =>
    exact hx.modified ({ · with ptmFd := ptm, logReadFd := log, containerPid := pid })
      (fun _ he => he) rfl rfl rfl (by simp [Entry.parts])
  | @adoptAttach _ _ s sess pid info read write =>
    exact hx.modified ({ · with logReadFd := some read, inputFd := info.input, containerPid := pid })
      (fun _ he => he) rfl rfl rfl (by simp [Entry.parts])
  | eofOwn =>
    exact hx.modified ({ · with ptmFd := none }) (fun _ he => he) rfl rfl rfl (by simp [Entry.parts])
  | eofBorrowed =>
    exact hx.modified ({ · with inputFd := none }) (fun _ he => he) rfl rfl rfl (by simp [Entry.parts])
  | offer =>
    exact ExitFlow.submitOther (hx.plain rfl rfl rfl (by simp [Entry.parts])) rfl
  | reaped => exact hx.reap
  | @buryReaped _ _ pid exitCode told info =>
    have hx₁ : ExitFlow (w.reap pid exitCode told) sid := hx.reap
    exact hx₁.plain rfl rfl rfl (quiet_append.mpr (by simp [Entry.parts]))
  | _ => exact hx.plain rfl rfl rfl (by simp [Entry.parts])

/-- While the session is there, its exit frame goes to its own stream. -/
def ExitOwn (w : World) (sid : ℕ) : Prop :=
  w.g.attachSessions.lookup sid ≠ none → ∀ op ∈ w.exitOps sid, ∀ g, w.reached op = some g →
    op.loc.writesTo g = true

/-- A session is listed from when its client connects. -/
theorem Move.listed (hm : Move τ (h, w) (h', w')) (hs : w'.g.attachSessions.lookup sid ≠ none) :
    w.g.attachSessions.lookup sid ≠ none ∨ w.g.nextSessionId = sid := by
  have hupdate : ∀ {s : ℕ} {f : AttachSession → AttachSession},
      (w.g.attachSessions.update s f).lookup sid ≠ none → w.g.attachSessions.lookup sid ≠ none := by
    intro s f hl
    rw [Table.lookup_update_ite] at hl
    split_ifs at hl with hsid
    · rw [hsid]
      simpa using hl
    · exact hl
  have hreap : ∀ {pid : Pid} {exitCode : ℤ} {told : Option ℕ},
      (w.reap pid exitCode told).g.attachSessions.lookup sid ≠ none →
        w.g.attachSessions.lookup sid ≠ none := by
    intro pid exitCode told hl
    cases told with
    | none => exact hl
    | some s => exact hupdate hl
  cases hm with
  | accept =>
    rcases eq_or_ne sid w.g.nextSessionId with rfl | hne
    · exact .inr rfl
    · left
      intro hnone
      exact hs ((AList.lookup_insert_ne hne).trans hnone)
  | @close _ _ s =>
    left
    intro hnone
    refine hs ?_
    change (w.g.attachSessions.erase s).lookup sid = none
    rw [Table.lookup_erase_ite, hnone, ite_self]
  | storeOp | drained | adoptRun | adoptAttach | eofOwn | eofBorrowed => exact .inl (hupdate hs)
  | respond | data =>
    rw [World.g_beginFrame] at hs
    exact .inl hs
  | finish =>
    rw [World.g_beginFrame] at hs
    exact .inl (hupdate hs)
  | reaped | buryReaped => exact .inl (hreap hs)
  | _ => exact .inl hs

theorem Move.exitOwn (hm : Move τ (h, w) (h', w')) (ha : Armed h w) (hx : ExitFlow w sid)
    (ho : ExitOwn w sid) : ExitOwn w' sid := by
  intro hs op hop g hg
  obtain ⟨hmem, hloc⟩ := World.mem_opsWhere.mp hop
  have hg' : w.reached op = some g := by
    unfold World.reached at hg
    rw [hm.onward.resolved] at hg
    exact hg
  rcases hm.onward.ops op hmem with hold | hnew
  · have hold' : op ∈ w.exitOps sid := World.mem_opsWhere.mpr ⟨hold, hloc⟩
    rcases hm.listed hs with hlisted | hnext
    · exact ho hlisted op hold' g hg'
    · rw [(hx.unsent (.inl hnext.le)).1] at hold'
      cases hold'
  · unfold World.reached at hg'
    rw [ha.fresh op.id hnew] at hg'
    cases hg'

namespace ExitOwn

/-- A session that is listed still holds its stream, so that the number stands for it. -/
theorem enter (ho : ExitOwn w sid) (ha : Armed h w) (hn : w.Numbered) : ExitOwn w.enter sid := by
  intro hs op hop g hg
  obtain ⟨hmem, hloc⟩ := World.mem_opsWhere.mp hop
  by_cases hq : op ∈ w.queued
  · rw [World.reached_enter_of_queued hn hq] at hg
    obtain ⟨d, hd, hfile⟩ := Option.bind_eq_some_iff.mp hg
    obtain ⟨stream, hstream⟩ : ∃ stream, op.loc.stream = some (sid, stream) := by
      cases hl : op.loc with
      | sessionFrame s stream buf off =>
        rw [hl] at hloc
        obtain ⟨rfl, -⟩ : s = sid ∧ buf.head? = some 0x02 := by simpa [OpLocal.writesExit] using hloc
        exact ⟨stream, rfl⟩
      | _ =>
        rw [hl] at hloc
        cases hloc
    have htarget : op.loc.target = some stream.handle := by
      unfold OpLocal.target
      rw [hstream]
    obtain rfl := ha.target hmem d hd _ htarget
    obtain ⟨sess, hsess⟩ := Option.ne_none_iff_exists'.mp hs
    have hsess' : w.g.attachSessions.lookup sid = some sess := hsess
    have hown : sess.streamFd = stream := by
      apply ha.origins.streams.single sid
      · left
        rw [hsess']
        rfl
      · exact .inr ⟨op.loc, List.mem_map_of_mem hmem, hstream⟩
    have hcurrent : w.fds.lookup stream.handle.1 = some stream.handle.2 := by
      refine ha.ledger.owns.current _ (held_of_owned (World.holds_stream hsess' _ ?_))
      rw [hown]
    have hg' : stream.handle.2 = g := Option.some.inj (hcurrent.symm.trans hfile)
    exact writesTo_iff.mpr ⟨sid, stream, hstream, hg'⟩
  · rw [World.reached_enter_of_taken hn hmem hq] at hg
    exact ho hs op hop g hg

theorem perform (ho : ExitOwn w sid) : ExitOwn (w.perform op r) sid := by
  intro hs o hmem g hg
  rw [World.g_perform] at hs
  unfold World.reached at hg
  rw [World.resolved_perform] at hg
  obtain ⟨hmem, hloc⟩ := World.mem_opsWhere.mp hmem
  rw [World.perform_frame.2.2.2] at hmem
  obtain ⟨o', ho', rfl⟩ := List.mem_map.mp hmem
  obtain ⟨hid, hsame⟩ : (if o'.id = op.id then { o' with result := some r } else o').id = o'.id ∧
      (if o'.id = op.id then { o' with result := some r } else o').loc = o'.loc := by
    split_ifs <;> exact ⟨rfl, rfl⟩
  rw [hid] at hg
  rw [hsame] at hloc ⊢
  exact ho hs o' (World.mem_opsWhere.mpr ⟨ho', hloc⟩) g hg

end ExitOwn

/-- The session, and the frame of which a completion writes the last byte. -/
def OpLocal.finishes : OpLocal → Result → Option (ℕ × Bytes)
  | .sessionFrame sid _ buf off, .count n => if buf.length ≤ off + n then some (sid, buf) else none
  | _, _ => none

def Result.isCount : Result → Bool
  | .count _ => true
  | _ => false

def Result.isData : Result → Bool
  | .bytes (_ :: _) => true
  | _ => false

/-- The client of the session stays, sends well-formed frames and asks for one container, and no write
to its stream fails. -/
structure CivilStep (sid : ℕ) (codec : Codec) (w : World) (op : InFlight) (r : Result) : Prop where
  written : op.loc.stream.any (·.1 = sid) = true → r.isCount = true
  stays : op.loc.reader = some sid → r.isData = true
  formed : ∀ f, op.loc.frame r = some (sid, f) →
    f.ty = 0x10 ∨ f.ty = 0x11 ∨ f.ty = 0x20 ∨ codec.opens f = true
  once : ∀ f, op.loc.frame r = some (sid, f) → codec.opens f = true → ¬ Adopted sid w.trace

/-- What the end of the session relies on: once its exit frame has been armed, no other frame of it
is finished. -/
structure ClosingStep (sid : ℕ) (codec : Codec) (w : World) (op : InFlight) (r : Result) : Prop where
  naming : NamingStep w op r
  civil : CivilStep sid codec w op r
  last : ∀ buf, op.loc.finishes r = some (sid, buf) →
    (w.g.attachSessions.lookup sid).any (·.exitSent) = true → buf.head? = some 0x02

/-- A session is closed when a frame is finished after the exit frame has been armed, when a write to
its stream fails, when its client hangs up, and on a frame that is not to come from a client. -/
theorem closes_cases (hc : loc.closes w r = some sid) :
    (∃ buf, loc.finishes r = some (sid, buf) ∧
        (w.g.attachSessions.lookup sid).any (·.exitSent) = true) ∨
      (loc.stream.any (·.1 = sid) = true ∧ r.isCount = false) ∨
        (loc.reader = some sid ∧ r.isData = false) ∨
          ∃ f, loc.frame r = some (sid, f) ∧ ¬ (f.ty = 0x10 ∨ f.ty = 0x11 ∨ f.ty = 0x20) := by
  cases loc with
  | sessionFrame s stream buf off =>
    cases r with
    | count n =>
      unfold OpLocal.closes at hc
      simp only at hc
      split_ifs at hc with hend
      obtain rfl := Option.some.inj hc
      exact .inl ⟨buf, if_pos hend.1, hend.2⟩
    | _ =>
      obtain rfl : s = sid := Option.some.inj hc
      exact .inr (.inl ⟨by simp [OpLocal.stream], rfl⟩)
  | sessionHeader s acc =>
    right; right; left
    cases r with
    | bytes bs =>
      cases bs with
      | nil => exact ⟨hc, rfl⟩
      | cons => cases hc
    | _ => exact ⟨hc, rfl⟩
  | sessionPayload s frameType acc need =>
    right; right
    cases r with
    | bytes bs =>
      cases bs with
      | nil => exact .inl ⟨hc, rfl⟩
      | cons b bs =>
        right
        cases hf : OpLocal.frame (.sessionPayload s frameType acc need) (.bytes (b :: bs)) with
        | none =>
          simp only [OpLocal.closes, hf] at hc
          cases hc
        | some x =>
          obtain ⟨s', f⟩ := x
          have hs : s' = s := by
            unfold OpLocal.frame at hf
            simp only at hf
            split at hf
            · cases hf
            · exact (Prod.mk.inj (Option.some.inj hf)).1.symm
          simp only [OpLocal.closes, hf] at hc
          split_ifs at hc with hty
          obtain rfl := Option.some.inj hc
          exact ⟨f, by rw [hs], hty⟩
    | _ => exact .inl ⟨hc, rfl⟩
  | _ => cases hc

/-- A completion on which the session is closed is that of its exit frame. -/
theorem ExitFlow.orderly (hx : ExitFlow w sid) (hop : w.findOp op.id = some op)
    (hr : op.result = some r) (hok : ClosingStep sid codec w op r) : OrderlyStep w op r sid := by
  intro hc hlisted
  rcases closes_cases hc with ⟨buf, hf, hsent⟩ | ⟨hs, hno⟩ | ⟨hl, hno⟩ | ⟨f, hf, hty⟩
  · have hhead := hok.last buf hf hsent
    cases hl : op.loc with
    | sessionFrame s stream buf' off =>
      rw [hl] at hf
      cases r with
      | count n =>
        unfold OpLocal.finishes at hf
        simp only at hf
        split_ifs at hf with hend
        obtain ⟨rfl, rfl⟩ := Prod.mk.inj (Option.some.inj hf)
        refine .inl (hx.done hlisted (List.mem_of_find?_eq_some hop) ?_ ?_)
        · rw [hl]
          exact decide_eq_true ⟨rfl, hhead⟩
        · unfold InFlight.unsent
          rw [hr, hl]
          exact List.drop_eq_nil_of_le hend
      | _ => cases hf
    | _ =>
      rw [hl] at hf
      cases hf
  · rw [hok.civil.written hs] at hno
    cases hno
  · rw [hok.civil.stays hl] at hno
    cases hno
  · have hopens : codec.opens f = true := by
      rcases hok.civil.formed f hf with h | h | h | h
      · exact (hty (.inl h)).elim
      · exact (hty (.inr (.inl h))).elim
      · exact (hty (.inr (.inr h))).elim
      · exact h
    refine .inr fun pid fds hmem => ?_
    exact hok.civil.once f hf hopens ⟨pid, fds, hmem⟩

def Terms.closing (sid : ℕ) : Terms := { Terms.naming with orderly := (· = sid) }

theorem closing_invariant : Invariant (.closing sid) codec
    (fun w e => Delivers (ClosingStep sid codec) w e ∧ w.Numbered)
      fun h w => Armed h w ∧ ExitFlow w sid ∧ ExitOwn w sid where
  move hx hm :=
    ⟨hm.armed trivial trivial hx.1, hm.exitFlow rfl hx.2.1, hm.exitOwn hx.1 hx.2.1 hx.2.2⟩
  enter hx hok :=
    ⟨hx.1.enter hok.2, hx.2.1.plain rfl rfl rfl quiet_refl, hx.2.2.enter hx.1 hok.2⟩
  perform hx hop hr hallows hok :=
    ⟨hx.1.perform hok.2 hop hr hallows, hx.2.1.perform hok.2 hop hr hallows fun hs hloc =>
      hx.2.2 hs _ (World.mem_opsWhere.mpr ⟨List.mem_of_find?_eq_some hop, hloc⟩), hx.2.2.perform⟩
  fits {w₁ _ _ answers} hx hop hr hok := by
    have hstep := hok.1 _ _ hop hr
    refine { Fits.none with
      owned := fun _ => hstep.naming.owned
      live := fun _ => hstep.naming.live
      orderly := fun s hs => ?_ }
    obtain rfl : s = sid := hs
    have hx₁ : ExitFlow { w₁ with answers := answers } s := hx.2.1.plain rfl rfl rfl quiet_refl
    exact hx₁.orderly hop hr hstep

/-- As long as the client of a session stays, sends well-formed frames and one request, no write to its
stream fails, and its exit frame is the only one of its frames that is finished once that frame has been
armed, the session is closed only when its exit frame has been written. -/
theorem run_closes_last (hb : booted answers = some w₀)
    (hr : Reaches (step codec) (Delivers (ClosingStep sid codec)) w₀ w) :
    Always (ClosesLast sid) w.trace := by
  have hx : Armed [] w ∧ ExitFlow w sid ∧ ExitOwn w sid :=
    closing_invariant.reaches ⟨.init, .init, fun hs => (hs rfl).elim⟩ hb hr
  exact hx.2.1.history

theorem closingStep_iff : (NamingStep w op r ∧
    ((op.loc.stream.any (·.1 = sid) = true → r.isCount = true) ∧
      (op.loc.reader = some sid → r.isData = true) ∧
        ∀ x ∈ op.loc.frame r, x.1 = sid →
          (x.2.ty = 0x10 ∨ x.2.ty = 0x11 ∨ x.2.ty = 0x20 ∨ codec.opens x.2 = true) ∧
            (codec.opens x.2 = true → childOf sid w.trace = none)) ∧
      ∀ x ∈ op.loc.finishes r, x.1 = sid →
        (w.g.attachSessions.lookup sid).any (·.exitSent) = true → x.2.head? = some 0x02) ↔
      ClosingStep sid codec w op r := by
  constructor
  · rintro ⟨hnaming, ⟨hwritten, hstays, hframe⟩, hlast⟩
    refine ⟨hnaming, ⟨hwritten, hstays, fun f hf => (hframe _ hf rfl).1, fun f hf ha hadopted => ?_⟩,
      fun buf hf => hlast _ hf rfl⟩
    exact adopted_iff.mp hadopted ((hframe _ hf rfl).2 ha)
  · intro hx
    refine ⟨hx.naming, ⟨hx.civil.written, hx.civil.stays, ?_⟩, ?_⟩
    · rintro ⟨s, f⟩ hf rfl
      refine ⟨hx.civil.formed f hf, fun ha => ?_⟩
      by_contra hne
      exact hx.civil.once f hf ha (adopted_iff.mpr hne)
    · rintro ⟨s, buf⟩ hf rfl
      exact hx.last buf hf

instance : Decidable (ClosingStep sid codec w op r) := decidable_of_iff _ closingStep_iff

/-- The response of a run is written, and its child exits; the exit frame is written in two parts. -/
theorem run_closes_last_in_parts : ∃ w₀ w, booted quietBoot = some w₀ ∧
    Reaches (step sampleCodec) (Delivers (ClosingStep 0 sampleCodec)) w₀ w ∧
      .sessionClosed 0 ∈ w.trace ∧ Always (ClosesLast 0) w.trace := by
  obtain ⟨w₀, w, hb, hr, ht⟩ := exists_of_executes (step sampleCodec)
    (Delivers (ClosingStep 0 sampleCodec)) (booted quietBoot)
    (connect 1 20 3 ++ clientFrame 3 5 0x00 [1] runAttached ++
      turn 6 (.count 24) [] ++
      turn 2 (.bytes [17]) [.wait (some (100, 0, 0)), .wait none, .call (.ok []), .submit true] ++
      turn 7 (.bytes []) [.submit true] ++ turn 10 (.count 1) [.submit true] ++
      turn 11 (.count 17) [])
    (fun _ w => decide (.sessionClosed 0 ∈ w.trace)) (by decide +kernel)
  exact ⟨w₀, w, hb, hr, of_decide_eq_true ht, run_closes_last hb hr⟩

/-- The response is finished after the exit frame has been armed: the session is closed with nothing of
that frame written. -/
example : executes (step sampleCodec) (fun _ _ => True) (booted quietBoot)
    (runToExit ++ turn 6 (.count 24) [])
    (fun _ w => decide (exitFrames 0 w.trace = 1 ∧ Entry.sessionClosed 0 ∈ w.trace ∧
      (exitBytes 0 w.trace).length = 0)) = true := by decide +kernel

end Conrt.Daemon
