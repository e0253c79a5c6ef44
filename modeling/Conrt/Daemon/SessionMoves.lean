import Conrt.Daemon.Calls

/-! The moves of a session: closing it, its frames, its output drain, its stdin. -/
namespace Conrt.Daemon

open Conrt.Base

variable {τ : Terms} {h : List Token} {w w' : World} {sid : ℕ} {sess : AttachSession}

/-- Program text that leaves what is in hand as it was. -/
abbrev Steady (τ : Terms) (h : List Token) (w : World) (m : M Unit) : Prop :=
  Trail (Move τ) (h, w) w m fun _ h' _ => h' = h

namespace World.Clear

variable {f : File} {ty : UInt8}

/-- It depends on what was written and on the ops in flight. -/
theorem congr (hc : w.Clear f ty) (hf : framesOn f w'.trace = framesOn f w.trace)
    (hb : bytesOn f w'.trace = bytesOn f w.trace) (hops : w'.ops = w.ops) : w'.Clear f ty := by
  unfold World.Clear at hc ⊢
  rw [hf, hb, hops]
  exact hc

theorem note {e : Entry} (hc : w.Clear f ty) (hf : framesOn f [e] = []) (hb : bytesOn f [e] = []) :
    (w.note e).Clear f ty := by
  refine hc.congr ?_ ?_ rfl
  · change framesOn f (w.trace ++ [e]) = _
    rw [framesOn_append, hf, List.append_nil]
  · change bytesOn f (w.trace ++ [e]) = _
    rw [bytesOn_append, hb, List.append_nil]

theorem refused {loc : OpLocal} {fd : Option Handle} {want : ℕ} (hc : w.Clear f ty) :
    (w.submit loc fd want false).Clear f ty :=
  hc.note (e := .submitted loc fd (w.file fd) false) rfl rfl

/-- Where a frame may follow the first one, so may any other. -/
theorem later (hc : w.Clear f 0x10) : w.Clear f ty := by
  obtain ⟨⟨frames, hsub, hb, hhead⟩, hidle⟩ := hc
  refine ⟨⟨frames, hsub, hb, ?_⟩, hidle⟩
  cases frames with
  | nil => simp at hhead
  | cons fr frames => simpa using hhead

end World.Clear

def Closable (τ : Terms) (w : World) (sid : ℕ) : Prop :=
  ∀ sess, w.g.attachSessions.lookup sid = some sess → (τ.orderly sid → Settled sid w.trace) ∧
    (τ.tidy → sess.ptmFd = none ∧ sess.logReadFd = none)

def FinishClear (τ : Terms) (w : World) (sid : ℕ) : Prop :=
  τ.framed → ∀ sess, w.g.attachSessions.lookup sid = some sess → sess.drainDone = true →
    sess.childExited = true → sess.exitSent = false → w.Clear sess.streamFd.handle.2 0x02

/-- The exit frame may be started, should it be due once the output is drained. -/
def ExitClear (τ : Terms) (w : World) (sid : ℕ) : Prop :=
  τ.framed → ∀ sess, w.g.attachSessions.lookup sid = some sess → sess.childExited = true →
    sess.exitSent = false → w.Clear sess.streamFd.handle.2 0x02

namespace World.Draining

variable {which : SessionOp} {op : Option ℕ}

/-- The drain is still in hand: no op is new, and the session is as far drained as it was. -/
theorem congr (hd : w.Draining sid) (hops : w'.ops = w.ops) (htr : w.trace ⊆ w'.trace)
    (hs : ∀ sess, w'.g.attachSessions.lookup sid = some sess →
      ∃ s, w.g.attachSessions.lookup sid = some s ∧ s.drainDone = sess.drainDone) :
    w'.Draining sid := by
  obtain ⟨⟨pid, fds, hmem⟩, hidle, hpending⟩ := hd
  refine ⟨⟨pid, fds, htr hmem⟩, ?_, fun sess hsess => ?_⟩
  · rw [hops]
    exact hidle
  · obtain ⟨s, hs, heq⟩ := hs sess hsess
    exact heq ▸ hpending s hs

theorem refused {loc : OpLocal} {fd : Option Handle} {want : ℕ} (hd : w.Draining sid) :
    (w.submit loc fd want false).Draining sid :=
  hd.congr rfl (List.subset_append_left _ _) fun sess hs => ⟨sess, hs, rfl⟩

/-- An op that does not drain the session changes nothing. -/
theorem beginFrame {stream : Fd .stream} {frame : Frame} {loc : OpLocal} {want : ℕ} {ok : Bool}
    (hd : w.Draining sid) (hloc : loc.outputOf ≠ some sid) :
    (w.beginFrame stream frame loc want ok).Draining sid := by
  cases ok with
  | false => exact hd.refused
  | true =>
    obtain ⟨⟨pid, fds, hmem⟩, hidle, hpending⟩ := hd
    have htr : w.trace ⊆ (w.beginFrame stream frame loc want true).trace := by
      simp [World.beginFrame, World.submit, World.note]
    refine ⟨⟨pid, fds, htr hmem⟩, fun op hop => ?_, hpending⟩
    have hops : (w.beginFrame stream frame loc want true).ops = w.ops ++
        [{ id := w.nextOp, loc := loc, fd := some stream.handle, want := want, result := none }] := rfl
    rw [hops] at hop
    rcases List.mem_append.mp hop with hop | hop
    · exact hidle op hop
    · rw [List.mem_singleton] at hop
      subst hop
      exact hloc

end World.Draining

theorem closeSession_trail (hx : Closable τ w sid) :
    Trail (Move τ) (h, w) w (closeSession sid) fun _ h' w' =>
      h' = h ∧ w'.g.attachSessions.lookup sid = none := by
  unfold closeSession
  refine findSession_bind ?_
  cases hs : w.g.attachSessions.lookup sid with
  | none => exact Trail.pure ⟨rfl, hs⟩
  | some sess =>
    obtain ⟨hsettled, htidy⟩ := hx sess hs
    refine Trail.modify_bind (Trail.move (.close hs hsettled htidy) ?_)
    have hgone : (w.dropSession sid).g.attachSessions.lookup sid = none := AList.lookup_erase _ _
    have hnotes : Trail (Move τ) (.fd sess.streamFd.handle :: h, w.dropSession sid)
        (w.dropSession sid)
        (forEach (fun op => note (.cancelled op)) (sess.readOp.toList ++ sess.outputOp.toList))
        fun _ h' w' => h' = .fd sess.streamFd.handle :: h ∧
          w'.g.attachSessions.lookup sid = none :=
      Trail.forEach (I := fun h' (w' : World) => h' = .fd sess.streamFd.handle :: h ∧
          w'.g.attachSessions.lookup sid = none)
        (fun _ _ _ _ hI => Trail.update (.note trivial) hI) ⟨rfl, hgone⟩
    refine hnotes.bind fun _ h' w' hw => ?_
    rw [hw.1]
    exact Trail.update (.release rfl) ⟨rfl, hw.2⟩

theorem closeSession_steady (hx : Closable τ w sid) : Steady τ h w (closeSession sid) :=
  (closeSession_trail hx).post fun _ _ _ hw => hw.1

theorem storeSessionOp_steady {which : SessionOp} {op : Option ℕ} :
    Steady τ h w (storeSessionOp sid which op) := Trail.update .storeOp rfl

theorem storeSessionOp_bind {β : Type} {which : SessionOp} {op : Option ℕ} {f : Unit → M β}
    {P : β → List Token → World → Prop}
    (hf : Trail (Move τ) (h, w.modifySession sid (·.storeOp which op))
      (w.modifySession sid (·.storeOp which op)) (f ()) P) :
    Trail (Move τ) (h, w) w (storeSessionOp sid which op >>= f) P :=
  Trail.modify_bind (Trail.move .storeOp hf)

/-- The session after a change to it. -/
theorem lookup_modifySession {f : AttachSession → AttachSession}
    (hs : (w.modifySession sid f).g.attachSessions.lookup sid = some sess) :
    ∃ s, w.g.attachSessions.lookup sid = some s ∧ sess = f s := by
  have hl : (w.g.attachSessions.update sid f).lookup sid = some sess := hs
  rw [Table.lookup_update_ite, if_pos rfl] at hl
  obtain ⟨s, hs', rfl⟩ := Option.map_eq_some_iff.mp hl
  exact ⟨s, hs', rfl⟩

theorem lookup_storeOp {which : SessionOp} {op : Option ℕ}
    (hs : (w.modifySession sid (·.storeOp which op)).g.attachSessions.lookup sid = some sess) :
    ∃ s readOp outputOp, w.g.attachSessions.lookup sid = some s ∧
      sess = { s with readOp := readOp, outputOp := outputOp } := by
  obtain ⟨s, hs', rfl⟩ := lookup_modifySession hs
  cases which with
  | read => exact ⟨s, op, s.outputOp, hs', rfl⟩
  | output => exact ⟨s, s.readOp, op, hs', rfl⟩

theorem Closable.storeOp {which : SessionOp} {op : Option ℕ} (hx : Closable τ w sid) :
    Closable τ (w.modifySession sid (·.storeOp which op)) sid := by
  intro sess hs
  obtain ⟨s, readOp, outputOp, hs', rfl⟩ := lookup_storeOp hs
  exact hx s hs'

theorem World.Draining.storeOp {which : SessionOp} {op : Option ℕ} (hd : w.Draining sid) :
    (w.modifySession sid (·.storeOp which op)).Draining sid := by
  refine hd.congr rfl (List.Subset.refl _) fun sess hs => ?_
  obtain ⟨s, readOp, outputOp, hs', rfl⟩ := lookup_storeOp hs
  exact ⟨s, hs', rfl⟩

theorem ExitClear.storeOp {which : SessionOp} {op : Option ℕ} (hx : ExitClear τ w sid) :
    ExitClear τ (w.modifySession sid (·.storeOp which op)) sid := by
  intro ht sess hs
  obtain ⟨s, readOp, outputOp, hs', rfl⟩ := lookup_storeOp hs
  exact hx ht s hs'

theorem armSessionFrame_respond {stream : Fd .stream}
    (hs : w.g.attachSessions.lookup sid = some sess) (hstream : sess.streamFd = stream)
    (hc : τ.framed → w.Clear stream.handle.2 0x01) (payload : Bytes) :
    Trail (Move τ) (h, w) w (armSessionFrame sid stream 0x01 payload) fun _ h' w' =>
      h' = h ∧ w'.g = w.g ∧ ∀ s, w.Draining s → w'.Draining s := by
  subst hstream
  unfold armSessionFrame
  have hbind : ∀ m : M (Option ℕ), (discard m) = (m >>= fun _ => pure ()) := fun _ => rfl
  simp only [hbind]
  refine beginFrame_bind fun as ok _ => Trail.move (idle_answers as) ?_
  cases ok with
  | true =>
    refine Trail.commit (.respond hs hc) (Trail.pure ⟨rfl, rfl, fun s hd => ?_⟩)
    have hd' : World.Draining { w with answers := as } s := hd
    exact hd'.beginFrame (by simp [OpLocal.outputOf])
  | false =>
    refine Trail.commit (.refused rfl) (Trail.pure ⟨rfl, rfl, fun s hd => ?_⟩)
    have hd' : World.Draining { w with answers := as } s := hd
    exact hd'.refused

/-- Any two sessions have streams of their own. -/
def OwnStreams (w : World) : Prop :=
  ∀ s s' sess sess', w.g.attachSessions.lookup s = some sess →
    w.g.attachSessions.lookup s' = some sess' →
    sess.streamFd.handle.2 = sess'.streamFd.handle.2 → s = s'

structure Finishes (τ : Terms) (w w' : World) : Prop where
  streams : OwnStreams w → OwnStreams w'
  clear : (τ.framed → OwnStreams w) → ∀ s, FinishClear τ w s → FinishClear τ w' s

theorem Finishes.refl : Finishes τ w w := ⟨id, fun _ _ => id⟩

theorem Finishes.of_answers {as : List Answer} (hf : Finishes τ { w with answers := as } w') :
    Finishes τ w w' := ⟨hf.streams, hf.clear⟩

theorem lookup_finished {s : ℕ} (hs : w.g.attachSessions.lookup sid = some sess) :
    (w.modifySession sid ({ · with exitSent := true })).g.attachSessions.lookup s =
      if s = sid then some { sess with exitSent := true } else w.g.attachSessions.lookup s := by
  change (w.g.attachSessions.update sid _).lookup s = _
  rw [Table.lookup_update_ite, hs]
  rfl

private theorem beginFrame_clear {stream : Fd .stream} {frame : Frame} {loc : OpLocal} {want : ℕ} {ok : Bool}
    {f : File} {ty : UInt8} (hne : stream.handle.2 ≠ f)
    (hloc : loc.stream.map (·.2) = some stream) (hc : w.Clear f ty) :
    (w.beginFrame stream frame loc want ok).Clear f ty := by
  cases ok with
  | false => exact hc.refused
  | true =>
    obtain ⟨⟨frames, hsub, hb, hhead⟩, hidle⟩ := hc
    refine ⟨⟨frames, ?_, ?_, hhead⟩, fun op hop sid' stream' hstream hf => ?_⟩
    · simpa [World.beginFrame, World.submit, World.note, framesOn, hne] using hsub
    · simpa [World.beginFrame, World.submit, World.note, bytesOn] using hb
    · have hops : (w.beginFrame stream frame loc want true).ops = w.ops ++
        [{ id := w.nextOp, loc := loc, fd := some stream.handle, want := want, result := none }] := rfl
      rw [hops] at hop
      rcases List.mem_append.mp hop with hop | hop
      · exact hidle op hop sid' stream' hstream hf
      · rw [List.mem_singleton] at hop
        subst hop
        simp only [hstream, Option.map_some, Option.some.injEq] at hloc
        exact (hne (hloc ▸ hf)).elim

private theorem finish_finishes {frame : Frame} {loc : OpLocal} {want : ℕ} {ok : Bool}
    (hs : w.g.attachSessions.lookup sid = some sess)
    (hloc : loc.stream.map (·.2) = some sess.streamFd) :
    Finishes τ w ((w.modifySession sid ({ · with exitSent := true })).beginFrame sess.streamFd
      frame loc want ok) := by
  have hg : ((w.modifySession sid ({ · with exitSent := true })).beginFrame sess.streamFd
      frame loc want ok).g = (w.modifySession sid ({ · with exitSent := true })).g := by
    cases ok <;> rfl
  constructor
  · intro hown s s' t t' ht ht' heq
    rw [hg, lookup_finished hs] at ht ht'
    have hback : ∀ s t, (if s = sid then some { sess with exitSent := true } else
        w.g.attachSessions.lookup s) = some t → ∃ t₀, w.g.attachSessions.lookup s = some t₀ ∧
          t₀.streamFd = t.streamFd := by
      intro s t ht
      split_ifs at ht with h
      · obtain rfl := Option.some.inj ht
        exact ⟨sess, h ▸ hs, rfl⟩
      · exact ⟨t, ht, rfl⟩
    obtain ⟨t₀, ht₀, hfd⟩ := hback s t ht
    obtain ⟨t₁, ht₁, hfd'⟩ := hback s' t' ht'
    exact hown s s' t₀ t₁ ht₀ ht₁ (by rw [hfd, hfd', heq])
  · intro hown s hx ht t hl hd hc he
    rw [hg, lookup_finished hs] at hl
    split_ifs at hl with hsid
    · obtain rfl := Option.some.inj hl
      cases he
    · have hne : sess.streamFd.handle.2 ≠ t.streamFd.handle.2 :=
        fun heq => hsid (hown ht _ _ _ _ hs hl heq).symm
      have hclear : (w.modifySession sid ({ · with exitSent := true })).Clear
          t.streamFd.handle.2 0x02 := hx ht t hl hd hc he
      exact beginFrame_clear hne hloc hclear

/-- The exit frame, if it is due. -/
theorem maybeFinishSession_trail (hx : FinishClear τ w sid) :
    Trail (Move τ) (.check sid :: h, w) w (maybeFinishSession sid) fun _ h' w' =>
      h' = h ∧ Finishes τ w w' := by
  unfold maybeFinishSession
  refine findSession_bind ?_
  cases hs : w.g.attachSessions.lookup sid with
  | none =>
    refine Trail.move (.unfinished fun sess hs' => ?_) (Trail.pure ⟨rfl, .refl⟩)
    rw [hs] at hs'
    cases hs'
  | some sess =>
    refine Trail.ite (fun hc => ?_) fun hc => ?_
    · refine Trail.move (.unfinished fun sess' hs' hd he => ?_) (Trail.pure ⟨rfl, .refl⟩)
      rw [hs] at hs'
      obtain rfl := Option.some.inj hs'
      simpa [hd, he] using hc
    · simp only [Bool.or_eq_true, Bool.not_eq_true', Bool.and_eq_false_iff, not_or,
        Bool.not_eq_false, Bool.not_eq_true] at hc
      have hclear : τ.framed → w.Clear sess.streamFd.handle.2 0x02 :=
        fun ht => hx ht sess hs hc.1.1 hc.1.2 hc.2
      unfold armSessionFrame
      have hbind : ∀ m : M (Option ℕ), (discard m) = (m >>= fun _ => pure ()) := fun _ => rfl
      simp only [hbind]
      refine Trail.modify_bind (beginFrame_bind fun as ok _ => Trail.move (idle_answers as) ?_)
      refine Trail.commit (.finish hs hc.1.1 hc.1.2 hc.2 hclear) (Trail.pure ⟨rfl, ?_⟩)
      have hloc : ∀ buf, (OpLocal.sessionFrame sid sess.streamFd buf 0).stream.map (·.2) =
          some sess.streamFd := fun _ => rfl
      exact Finishes.of_answers (finish_finishes (w := { w with answers := as }) hs (hloc _))

/-- Finishing the sessions that a sweep has told. -/
theorem finishAll_steady {finished : List ℕ} (hown : τ.framed → OwnStreams w)
    (hx : ∀ s ∈ finished, FinishClear τ w s) :
    Trail (Move τ) (finished.map .check ++ h, w) w (forEach maybeFinishSession finished)
      fun _ h' _ => h' = h := by
  induction finished generalizing w with
  | nil => exact Trail.pure rfl
  | cons s finished ih =>
    refine (maybeFinishSession_trail (hx s List.mem_cons_self)).bind fun _ h' w' hw => ?_
    obtain ⟨rfl, hf⟩ := hw
    refine ih (fun ht => hf.streams (hown ht)) fun s' hs' => ?_
    exact hf.clear hown s' (hx s' (List.mem_cons_of_mem s hs'))

theorem sessionIsExit_bind {β : Type} {b : List Token × World} {f : Bool → M β}
    {P : β → List Token → World → Prop}
    (hf : Trail (Move τ) b w (f ((w.g.attachSessions.lookup sid).any (·.exitSent))) P) :
    Trail (Move τ) b w (sessionIsExit sid >>= f) P := by
  unfold sessionIsExit
  rw [bind_assoc]
  refine findSession_bind ?_
  rw [pure_bind]
  exact hf

/-- What a refusal does to the state, its frame written or not. -/
structure Refused (w w' : World) : Prop where
  g : w'.g = w.g
  exits : ∀ sid, exitBytes sid w'.trace = exitBytes sid w.trace
  adopted : ∀ sid pid fds, .adopted sid pid fds ∈ w'.trace → .adopted sid pid fds ∈ w.trace

/-- A frame written at once, as the session is about to be closed. -/
theorem writeFrameNow_refused (hs : w.g.attachSessions.lookup sid = some sess)
    (hc : τ.framed → w.Clear sess.streamFd.handle.2 0x01) (payload : Bytes) :
    Trail (Move τ) (h, w) w (writeFrameNow sess.streamFd 0x01 payload) fun _ h' w' =>
      h' = h ∧ Refused w w' := by
  unfold writeFrameNow
  refine note_bind ?_
  have hbind : ∀ m : M (Except String ℕ), (discard m) = (m >>= fun _ => pure ()) := fun _ => rfl
  rw [hbind]
  unfold writeNow
  rw [bind_assoc]
  refine ask_bind fun a as _ => Trail.move (idle_answers as) ?_
  split
  · rw [bind_assoc]
    refine Trail.get_bind ?_
    split
    · rename_i f hf
      split_ifs with hn
      · rw [bind_assoc]
        refine note_bind ?_
        rw [pure_bind]
        refine Trail.move (.refuseNow hs hf hc) (Trail.pure ⟨rfl, rfl, fun sid => ?_,
          fun sid pid fds hm => ?_⟩)
        · simp [World.note, exitBytes]
        · simpa [World.note] using hm
      · exact Trail.throw
    · exact Trail.throw
  · rw [pure_bind]
    refine Trail.move (.refuse hs) (Trail.pure ⟨rfl, rfl, fun sid => ?_, fun sid pid fds hm => ?_⟩)
    · simp [World.note, exitBytes]
    · simpa [World.note] using hm
  · exact Trail.throw

theorem finishSessionOutput_steady (hx : ExitClear τ w sid) (hd : τ.single → w.Draining sid) :
    Steady τ h w (finishSessionOutput sid) := by
  unfold finishSessionOutput
  refine Trail.modify_bind (Trail.commit (.drained hd) ?_)
  refine (maybeFinishSession_trail fun ht sess hs _ => ?_).post fun _ _ _ hw => hw.1
  obtain ⟨s, hs', rfl⟩ := lookup_modifySession hs
  exact hx ht s hs'

theorem submitFor_steady {which : SessionOp} {loc : OpLocal} {fd : Option Handle} {want : ℕ}
    (hl : loc.loose = true) (hm : ∀ as, Move τ (h, { w with answers := as })
      (h, World.submit { w with answers := as } loc fd want true)) :
    Steady τ h w (submitFor sid which loc fd want) := by
  unfold submitFor
  refine submit_bind fun as ok _ => Trail.move (idle_answers as) ?_
  cases ok with
  | true => exact Trail.commit (hm as) storeSessionOp_steady
  | false => exact Trail.commit (.refused hl) (Trail.pure rfl)

theorem armSessionOutput_steady
    (hx : (w.g.attachSessions.lookup sid).bind AttachSession.outputFd = none → ExitClear τ w sid)
    (hd : τ.single → w.Draining sid) : Steady τ h w (armSessionOutput sid) := by
  unfold armSessionOutput
  refine findSession_bind ?_
  cases hs : w.g.attachSessions.lookup sid with
  | none =>
    refine finishSessionOutput_steady (fun _ sess hs' => ?_) hd
    rw [hs] at hs'
    cases hs'
  | some sess =>
    rw [Option.bind_some]
    rw [hs, Option.bind_some] at hx
    cases hf : sess.outputFd with
    | none => exact finishSessionOutput_steady (hx hf) hd
    | some fd => exact submitFor_steady rfl fun as => .output hs hf hd

theorem onSessionOutput_steady {r : Result} (hdr : τ.single → w.Draining sid)
    (hd : τ.framed → ∀ b bs, r = .bytes (b :: bs) → ∀ sess,
      w.g.attachSessions.lookup sid = some sess → w.Clear sess.streamFd.handle.2 0x10)
    (hx : (∀ b bs, r ≠ .bytes (b :: bs)) → ExitClear τ w sid) :
    Steady τ h w (onSessionOutput sid r) := by
  unfold onSessionOutput
  refine storeSessionOp_bind ?_
  split
  · rename_i b bs
    refine findSession_bind ?_
    cases hs : (w.modifySession sid (·.storeOp .output none)).g.attachSessions.lookup sid with
    | none =>
      refine finishSessionOutput_steady (fun _ sess hs' => ?_) fun ht => (hdr ht).storeOp
      rw [hs] at hs'
      cases hs'
    | some sess =>
      obtain ⟨s, readOp, outputOp, hs', rfl⟩ := lookup_storeOp hs
      have hc : τ.framed → (w.modifySession sid (·.storeOp .output none)).Clear
          s.streamFd.handle.2 0x10 := fun ht => hd ht b bs rfl s hs'
      refine beginFrame_bind fun as ok _ => Trail.move (idle_answers as) ?_
      cases ok with
      | true =>
        refine Trail.commit (.data hs hc fun ht => (hdr ht).storeOp) (Trail.ite (fun hno => ?_) fun _ => Trail.pure rfl)
        simp at hno
      | false =>
        refine Trail.commit (.refused rfl) (Trail.ite (fun _ => ?_) fun _ => Trail.pure rfl)
        refine finishSessionOutput_steady (fun ht sess hsess _ _ => ?_)
          fun ht => ?_
        have hsame := hs.symm.trans hsess
        obtain rfl := Option.some.inj hsame
        · exact (hc ht).later.refused
        · have hd' : World.Draining { w.modifySession sid (·.storeOp .output none) with
            answers := as } sid := (hdr ht).storeOp
          exact hd'.refused
  · rename_i hno
    exact finishSessionOutput_steady (hx hno).storeOp fun ht => (hdr ht).storeOp

/-- A callback, with the op it completes still in the state the moves start from. -/
abbrev Completes (τ : Terms) (h : List Token) (w : World) (id : ℕ) (m : M Unit) : Prop :=
  Trail (Move τ) (h, w) (w.takeOp id) m fun _ h' _ => h' = h

section

variable {id n : ℕ} {op : InFlight} {r : Result} {stream : Fd .stream} {buf header payload : Bytes}
  {off : ℕ}

theorem retire_completes {m : M Unit} (hop : w.findOp id = some op) (hr : op.result = some r)
    (hdone : op.loc.loose = false ∨ op.loc.continues r = false)
    (hm : Trail (Move τ) (op.loc.tokens r ++ h, w.takeOp id) (w.takeOp id) m
      fun _ h' _ => h' = h) : Completes τ h w id m := by
  refine Trail.move (.retire hop hr fun hl hc => ?_) hm
  rcases hdone with htight | hstop
  · rw [htight] at hl
    cases hl
  · rw [hstop] at hc
    cases hc

theorem stdinOf_of_resumes {stdinFd : ℕ → Option Handle} {loc loc' : OpLocal} {fd : Option Handle}
    (hr : Resumes stdinFd n loc loc' fd) : loc'.stdinOf = loc.stdinOf := by cases hr <;> rfl

theorem resume_completes {loc : OpLocal} {fd : Option Handle} {want : ℕ}
    (hop : w.findOp id = some op) (hr : op.result = some (.count n))
    (hres : Resumes w.stdinFd n op.loc loc fd) (hb : τ.live → w.backed op.loc)
    (ht : op.loc.tokens (.count n) = []) (hl : loc.loose = true) :
    Completes τ h w id (discard <| submit loc fd want) := by
  refine submit_discard fun as ok _ => Trail.move (idle_answers as) ?_
  cases ok with
  | true => exact Trail.commit (.resume hop hr hres hb) (Trail.pure rfl)
  | false =>
    -- the rest is refused before the op leaves, which may leave only then
    have hrefused : Move τ (h, { w with answers := as })
        (h, { w with answers := as }.submit loc fd want false) := .refused hl
    have hsame : op.loc.tokens (.count n) ++ h = h := by rw [ht, List.nil_append]
    refine Trail.move hrefused (Trail.commit (.retire hop hr fun _ _ => ?_) (Trail.pure hsame))
    exact ⟨n, loc, fd, w.file fd, rfl, hres, List.mem_append_right _ (List.mem_singleton.mpr rfl)⟩

def FrameCloses (τ : Terms) (w : World) (sid : ℕ) (buf : Bytes) (off : ℕ) (r : Result) : Prop :=
  Closable τ w sid ∨ ∃ n, r = .count n ∧
    (buf.length ≤ off + n → (w.g.attachSessions.lookup sid).any (·.exitSent) = false)

theorem onSessionFrame_completes (hop : w.findOp id = some op)
    (hloc : op.loc = .sessionFrame sid stream buf off) (hr : op.result = some r)
    (hlive : τ.live → op.loc.continues r → w.backed op.loc)
    (hx : FrameCloses τ w sid buf off r) :
    Completes τ h w id (onSessionFrame sid stream buf off r) := by
  have ht : op.loc.tokens r = [] := by rw [hloc]; rfl
  have hmove : ∀ m, op.loc.continues r = false → Steady τ h (w.takeOp id) m →
      Completes τ h w id m := by
    intro m hstop hm
    refine retire_completes hop hr (.inr hstop) ?_
    rw [ht]
    exact hm
  unfold onSessionFrame
  split
  · rename_i n
    refine Trail.ite (fun hle => ?_) fun hlt => ?_
    · have hstop : op.loc.continues (.count n) = false := by
        rw [hloc]
        simpa [OpLocal.continues] using hle
      refine hmove _ hstop (sessionIsExit_bind ?_)
      refine Trail.ite (fun hexit => closeSession_steady ?_) fun _ => Trail.pure rfl
      rcases hx with hclose | ⟨m, hm, hno⟩
      · exact hclose
      · obtain rfl := Result.count.inj hm
        exact (Bool.false_ne_true ((hno hle).symm.trans hexit)).elim
    · have hres : Resumes w.stdinFd n op.loc (.sessionFrame sid stream buf (off + n))
          stream.handle := hloc ▸ .frame (by omega)
      refine resume_completes hop hr hres (fun ht => hlive ht ?_) ht rfl
      rw [hloc]
      simpa [OpLocal.continues] using hlt
  · rename_i hno
    have hstop : op.loc.continues r = false := by
      rw [hloc]
      cases r with
      | count n => exact (hno n rfl).elim
      | _ => rfl
    refine hmove _ hstop (closeSession_steady ?_)
    rcases hx with hclose | ⟨m, rfl, -⟩
    · exact hclose
    · exact (hno m rfl).elim

theorem onSessionDataHeader_completes (hop : w.findOp id = some op)
    (hloc : op.loc = .sessionDataHeader sid stream header payload off)
    (hr : op.result = some r) (hlive : τ.live → op.loc.continues r → w.backed op.loc)
    (hx : (∀ n, r ≠ .count n) → ExitClear τ (w.takeOp id) sid)
    (hd : τ.single → (w.takeOp id).Draining sid) :
    Completes τ h w id (onSessionDataHeader sid stream header payload off r) := by
  have ht : op.loc.tokens r = [] := by rw [hloc]; rfl
  unfold onSessionDataHeader
  split
  · rename_i n
    have hb : τ.live → w.backed op.loc := fun ht => hlive ht (by rw [hloc]; rfl)
    refine Trail.ite (fun hlt => ?_) fun hle => ?_
    · have hres : Resumes w.stdinFd n op.loc
          (.sessionDataHeader sid stream header payload (off + n)) stream.handle :=
        hloc ▸ .header hlt
      exact resume_completes hop hr hres hb ht rfl
    · have hres : Resumes w.stdinFd n op.loc (.sessionDataPayload sid stream payload 0)
          stream.handle := hloc ▸ .payload (by omega)
      exact resume_completes hop hr hres hb ht rfl
  · rename_i hno
    have hstop : op.loc.continues r = false := by
      rw [hloc]
      cases r with
      | count n => exact (hno n rfl).elim
      | _ => rfl
    refine retire_completes hop hr (.inr hstop) ?_
    rw [ht]
    exact finishSessionOutput_steady (hx hno) hd

theorem onSessionDataPayload_completes (hop : w.findOp id = some op)
    (hloc : op.loc = .sessionDataPayload sid stream payload off) (hr : op.result = some r)
    (hlive : τ.live → op.loc.continues r → w.backed op.loc)
    (hx : op.loc.continues r = false → ((∃ n, r = .count n) →
      (w.g.attachSessions.lookup sid).bind AttachSession.outputFd = none) →
      ExitClear τ (w.takeOp id) sid) (hd : τ.single → (w.takeOp id).Draining sid) :
    Completes τ h w id (onSessionDataPayload sid stream payload off r) := by
  have ht : op.loc.tokens r = [] := by rw [hloc]; rfl
  unfold onSessionDataPayload
  split
  · rename_i n
    refine Trail.ite (fun hle => ?_) fun hlt => ?_
    · have hstop : op.loc.continues (.count n) = false := by
        rw [hloc]
        simpa [OpLocal.continues] using hle
      refine retire_completes hop hr (.inr hstop) ?_
      rw [ht]
      exact armSessionOutput_steady (fun hnone => hx hstop fun _ => hnone) hd
    · have hres : Resumes w.stdinFd n op.loc (.sessionDataPayload sid stream payload (off + n))
          stream.handle := hloc ▸ .data (by omega)
      refine resume_completes hop hr hres (fun ht => hlive ht ?_) ht rfl
      rw [hloc]
      simpa [OpLocal.continues] using hlt
  · rename_i hno
    have hstop : op.loc.continues r = false := by
      rw [hloc]
      cases r with
      | count n => exact (hno n rfl).elim
      | _ => rfl
    refine retire_completes hop hr (.inr hstop) ?_
    rw [ht]
    exact finishSessionOutput_steady (hx hstop fun ⟨n, hn⟩ => (hno n hn).elim) hd

theorem sessionStdin_bind {β : Type} {b : List Token × World} {f : Option Handle → M β}
    {P : β → List Token → World → Prop} (hf : Trail (Move τ) b w (f (w.stdinFd sid)) P) :
    Trail (Move τ) b w (sessionStdin sid >>= f) P := by
  unfold sessionStdin
  rw [bind_assoc]
  refine findSession_bind ?_
  rw [pure_bind]
  exact hf

theorem onSessionStdin_completes (hop : w.findOp id = some op)
    (hloc : op.loc = .sessionStdin sid buf off) (hr : op.result = some r)
    (hlive : τ.live → op.loc.continues r → w.backed op.loc) :
    Completes τ h w id (onSessionStdin sid buf off r) := by
  have ht : op.loc.tokens r = [] := by rw [hloc]; rfl
  have hdone : op.loc.continues r = false → Completes τ h w id (pure ()) := by
    intro hstop
    refine retire_completes hop hr (.inr hstop) ?_
    rw [ht]
    exact Trail.pure rfl
  unfold onSessionStdin
  split
  · rename_i n
    refine Trail.ite (fun hlt => sessionStdin_bind ?_) fun hle => hdone ?_
    · have hres : Resumes w.stdinFd n op.loc (.sessionStdin sid buf (off + n)) (w.stdinFd sid) :=
        hloc ▸ .stdin hlt
      refine resume_completes hop hr hres (fun ht => hlive ht ?_) ht rfl
      rw [hloc]
      simpa [OpLocal.continues] using hlt
    · rw [hloc]
      simpa [OpLocal.continues] using hle
  · rename_i hno
    refine hdone ?_
    rw [hloc]
    cases r with
    | count n => exact (hno n rfl).elim
    | _ => rfl

end

end Conrt.Daemon
