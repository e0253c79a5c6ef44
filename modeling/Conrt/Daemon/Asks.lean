import Conrt.Daemon.Demand

/-! Programs and what they ask of the pool: sessions, lines and the reaper. -/
namespace Conrt.Daemon

open Conrt.Base

variable {codec : Codec} {w w' : World} {loc : OpLocal} {e : Entry} {given : Option OpLocal}
  {answers : List Answer}

def Entry.asking (given : Option OpLocal) (e : Entry) : Bool := (e.ask given).isSome

def Entry.taking (given : Option OpLocal) (e : Entry) : Bool := (e.ask given).any (·.must)

/-- Wherever there is room for `as`, there is for what the program asks from `w` on. -/
def Asks (given : Option OpLocal) {α : Type} (m : M α) (w : World) (as : List (Ask (Option ℕ))) :
    Prop :=
  ∃ es, (finalState m w).trace = w.trace ++ es ∧
    ∀ out, Admits slots out as → Admits slots out (asksIn given es)

namespace Asks

variable {α β : Type} {m : M α} {f : α → M β} {as bs : List (Ask (Option ℕ))} {a : α}

theorem mono (hm : Asks given m w as) (hle : ∀ out, Admits slots out bs → Admits slots out as) :
    Asks given m w bs := by
  obtain ⟨es, htr, hes⟩ := hm
  exact ⟨es, htr, fun out hb => hes out (hle out hb)⟩

theorem of_mute (hm : Mute (Entry.taking given) m) : Asks given m w as := by
  obtain ⟨es, htr, hes⟩ := (hm w).trace
  refine ⟨es, htr, fun out _ => admits_of_spare fun a ha => ?_⟩
  obtain ⟨e, he, hask⟩ := List.mem_filterMap.mp ha
  have hno := hes e he
  simpa [Entry.taking, hask] using hno

theorem throw {e : Panic} : Asks given (throw e : M α) w as :=
  ⟨[], (List.append_nil _).symm, fun _ _ => trivial⟩

theorem pure : Asks given (Pure.pure a : M α) w as :=
  ⟨[], (List.append_nil _).symm, fun _ _ => trivial⟩

/-- What asks nothing may come before. -/
theorem after (hm : Mute (Entry.asking given) m)
    (hf : ∀ a w', m w = .ok a w' → Asks given (f a) w' as) : Asks given (m >>= f) w as := by
  have hhush := hm w
  unfold Asks
  rw [finalState_bind]
  unfold finalState at hhush
  cases hr : m w with
  | ok a w' =>
    rw [hr] at hhush
    obtain ⟨es, htr, hes⟩ := hhush.trace
    obtain ⟨es', htr', hes'⟩ := hf a w' hr
    refine ⟨es ++ es', by rw [htr', htr, List.append_assoc], fun out hadm => ?_⟩
    have hnil : asksIn given es = [] := List.filterMap_eq_nil_iff.mpr fun e he => by
      simpa [Entry.asking] using hes e he
    rw [asksIn, List.filterMap_append, ← asksIn, hnil, List.nil_append]
    exact hes' out hadm
  | error e w' =>
    rw [hr] at hhush
    obtain ⟨es, htr, hes⟩ := hhush.trace
    have hnil : asksIn given es = [] := List.filterMap_eq_nil_iff.mpr fun e he => by
      simpa [Entry.asking] using hes e he
    exact ⟨es, htr, fun out _ => hnil ▸ trivial⟩

/-- What needs nothing may come after. -/
theorem before (hm : Asks given m w as) (hf : ∀ a w', m w = .ok a w' → Asks given (f a) w' []) :
    Asks given (m >>= f) w as := by
  obtain ⟨es, htr, hes⟩ := hm
  unfold Asks
  rw [finalState_bind]
  unfold finalState at htr
  cases hr : m w with
  | ok a w' =>
    rw [hr] at htr
    obtain ⟨es', htr', hes'⟩ := hf a w' hr
    refine ⟨es ++ es', by rw [htr', htr, List.append_assoc], fun out hadm => ?_⟩
    rw [asksIn, List.filterMap_append]
    exact admits_append.mpr ⟨hes out hadm, hes' _ trivial⟩
  | error e w' =>
    rw [hr] at htr
    exact ⟨es, htr, hes⟩

theorem step {w' : World} (h : m w = .ok a w') (htr : w'.trace = w.trace)
    (hf : Asks given (f a) w' as) : Asks given (m >>= f) w as := by
  obtain ⟨es, htr', hes⟩ := hf
  unfold Asks
  rw [finalState_bind, h]
  exact ⟨es, htr ▸ htr', hes⟩

/-- A program that fails goes no further. -/
theorem of_ok (hm : Asks given m w as)
    (hok : ∀ a w', m w = .ok a w' → Asks given (m >>= f) w as) : Asks given (m >>= f) w as := by
  cases hr : m w with
  | ok a w' => exact hok a w' hr
  | error e w' =>
    obtain ⟨es, htr, hes⟩ := hm
    unfold finalState at htr
    rw [hr] at htr
    refine ⟨es, ?_, hes⟩
    rw [finalState_bind, hr]
    exact htr

/-- One group comes before the others. -/
theorem cons {w' : World} {x : Ask (Option ℕ)} (h : m w = .ok a w') (htr : w'.trace = w.trace ++ [e])
    (he : ∀ y ∈ e.ask given, y = x) (hf : Asks given (f a) w' as) :
    Asks given (m >>= f) w (x :: as) := by
  obtain ⟨es, htr', hes⟩ := hf
  unfold Asks
  rw [finalState_bind, h]
  refine ⟨e :: es, by rw [htr', htr, List.append_assoc]; rfl, fun out hadm => ?_⟩
  have hrest := hes _ hadm.2
  unfold asksIn at hrest ⊢
  rw [List.filterMap_cons]
  split
  next =>
    refine hrest.anti ?_
    unfold Ask.after
    split_ifs
    · exact (List.sublist_append_right _ _).subperm
    · exact .refl _
  next y hy =>
    obtain rfl := he y hy
    exact ⟨hadm.1, hrest⟩

theorem discard (hm : Asks given m w as) : Asks given (discard m) w as :=
  hm.before fun _ _ _ => pure

theorem discard_bind {f : Unit → M β} (hm : Asks given (m >>= fun _ => f ()) w as) :
    Asks given (Functor.discard m >>= f) w as := by
  change Asks given ((m >>= fun _ => Pure.pure ()) >>= f) w as
  rwa [bind_assoc]

end Asks

/-- The entries that may ask for something. -/
def Mark.asks : Mark → Bool
  | .reply | .join => false
  | _ => true

/-- Those that may ask for what has to be there. -/
def Mark.takes : Mark → Bool
  | .frame | .header | .line => true
  | _ => false

theorem asking_mark (e : Entry) (h : e.asking given = true) : e.mark.any Mark.asks = true := by
  cases e with
  | submitted loc fd file ok =>
    cases loc <;> first | rfl | simp [Entry.asking, Entry.ask, OpLocal.drawn, OpLocal.buffers] at h
  | _ => cases h

theorem taking_mark (e : Entry) (h : e.taking given = true) : e.mark.any Mark.takes = true := by
  cases e with
  | submitted loc fd file ok =>
    unfold Entry.taking Entry.ask at h
    dsimp only at h
    split_ifs at h with hno
    · cases h
    · cases loc <;> first | rfl | exact absurd h Bool.false_ne_true | exact absurd (Bool.or_true _) hno
  | _ => cases h

/-- A write that goes on takes nothing. -/
theorem resumed_mark (given : Option OpLocal) (m : Mark)
    (hres : ∀ loc : OpLocal, loc.mark = some m → given.any (·.resumes loc) = true) (e : Entry)
    (h : e.taking given = true) : e.mark.any (fun k => k.takes && k ≠ m) = true := by
  have htakes := taking_mark e h
  cases hk : e.mark with
  | none =>
    rw [hk] at htakes
    cases htakes
  | some k =>
    rw [hk, Option.any_some] at htakes
    rw [Option.any_some, htakes, Bool.true_and, decide_eq_true_eq]
    rintro rfl
    cases e with
    | submitted loc fd file ok => simp [Entry.taking, Entry.ask, hres loc hk] at h
    | _ => cases h

section

variable {sid want : ℕ} {fd : Option Handle} {kept : Bool}

theorem submit_eq_error {x : Panic} (h : submit loc fd want w = .error x w') :
    w'.trace = w.trace := by
  unfold submit at h
  cases ha : w.answers with
  | nil =>
    change EStateM.bind ask _ w = _ at h
    unfold EStateM.bind at h
    rw [ask_of_nil ha] at h
    cases h
    rfl
  | cons a as =>
    change EStateM.bind ask _ w = _ at h
    unfold EStateM.bind at h
    rw [ask_of_cons ha] at h
    cases a <;> cases h
    all_goals rfl

/-- Whether one group is admitted does not depend on what becomes of it. -/
theorem submit_asks (kept : Bool) :
    Asks given (submit loc fd want) w [askFor loc.drawn kept] := by
  cases hr : submit loc fd want w with
  | error x w' =>
    refine ⟨[], ?_, fun _ _ => trivial⟩
    unfold finalState
    rw [hr, submit_eq_error hr, List.append_nil]
  | ok op w' =>
    obtain ⟨ok, as, -, rfl, rfl⟩ := submit_eq_ok hr
    refine ⟨[.submitted loc fd (w.file fd) ok], by rw [finalState_ok hr]; rfl, fun out hadm => ?_⟩
    unfold asksIn
    rw [List.filterMap_cons, Entry.ask]
    split_ifs
    · trivial
    · exact ⟨fun _ => hadm.1 rfl, trivial⟩

/-- One group, and then those of the `n` ops after it. -/
theorem submits_asks {n : ℕ} {α : Type} {f : Option ℕ → M α} (hspared : loc.spared = false)
    (hf : ∀ op ok w', w.answers = .submit ok :: w'.answers → w'.g = w.g →
      Asks given (f op) w' (asksFor loc.drawn n w'.answers)) :
    Asks given (submit loc fd want >>= f) w (asksFor loc.drawn (n + 1) w.answers) := by
  cases hr : submit loc fd want w with
  | error x w' =>
    refine ⟨[], ?_, fun _ _ => trivial⟩
    rw [finalState_bind, hr, submit_eq_error hr, List.append_nil]
  | ok op w' =>
    obtain ⟨ok, as, ha, rfl, rfl⟩ := submit_eq_ok hr
    rw [ha]
    exact .cons hr rfl (fun _ hy => ask_eq hspared hy) (hf _ ok _ ha rfl)

variable {streamFd : Fd .stream} {ty : UInt8} {payload : Bytes} {frame : Frame}

theorem beginFrame_asks (kept : Bool) :
    Asks given (beginFrame streamFd frame loc want) w [askFor loc.drawn kept] := by
  refine (submit_asks kept).before fun op w' _ => ?_
  cases op with
  | none => exact .pure
  | some op => exact .of_mute (Through.bind (note_mute rfl) fun _ => .pure)

theorem armSessionFrame_asks (kept : Bool) : Asks given (armSessionFrame sid streamFd ty payload) w
    [askFor [Frame.size ⟨ty, payload⟩] kept] := by
  rw [← Frame.length_bytes]
  exact (beginFrame_asks kept).discard

theorem maybeFinishSession_asks : Asks given (maybeFinishSession sid) w (w.exitAsks sid) := by
  unfold maybeFinishSession
  refine .step rfl rfl ?_
  unfold World.exitAsks World.exitSizes
  cases w.g.attachSessions.lookup sid with
  | none => exact .pure
  | some sess =>
    dsimp only
    split_ifs with hdone hdue hdue
    · exact .pure
    · exact .pure
    · exact .step rfl rfl (armSessionFrame_asks true)
    · simp_all

/-- Nothing is due to another session, nor to this one unless its child or its exit frame changes. -/
theorem exitAsks_modifySession {f : AttachSession → AttachSession}
    (hf : ∀ sess, (f sess).childExited = sess.childExited ∧ (f sess).exitSent = sess.exitSent ∧
      (f sess).exitCode = sess.exitCode) :
    (w.modifySession sid f).exitAsks sid = w.exitAsks sid := by
  have hl : (w.modifySession sid f).g.attachSessions.lookup sid =
      (w.g.attachSessions.lookup sid).map f := by
    change (w.g.attachSessions.update sid f).lookup sid = _
    rw [Table.lookup_update_ite, if_pos rfl]
  unfold World.exitAsks World.exitSizes
  rw [hl]
  cases w.g.attachSessions.lookup sid with
  | none => rfl
  | some sess =>
    obtain ⟨hexited, hsent, hcode⟩ := hf sess
    simp only [Option.map_some, hexited, hsent, hcode]

theorem finishSessionOutput_asks : Asks given (finishSessionOutput sid) w (w.exitAsks sid) := by
  refine .step rfl rfl ?_
  rw [← exitAsks_modifySession (f := ({ · with drainDone := true })) fun _ => ⟨rfl, rfl, rfl⟩]
  exact maybeFinishSession_asks

theorem armSessionOutput_asks : Asks given (armSessionOutput sid) w
    (if ((w.g.attachSessions.lookup sid).bind AttachSession.outputFd).isSome then []
      else w.exitAsks sid) := by
  unfold armSessionOutput
  refine .step rfl rfl ?_
  cases (w.g.attachSessions.lookup sid).bind AttachSession.outputFd with
  | none => exact finishSessionOutput_asks
  | some fd => exact .of_mute (submitFor_mute taking_mark rfl)

private theorem exitAsks_congr (hs : w'.g.attachSessions.lookup sid = w.g.attachSessions.lookup sid) :
    w'.exitAsks sid = w.exitAsks sid := by
  rw [World.exitAsks, World.exitAsks, World.exitSizes, World.exitSizes, hs]

/-- Once the callback has noted that the read is over, the same is due. -/
theorem exitAsks_storeOp (which : SessionOp) (op : Option ℕ) :
    (w.modifySession sid (·.storeOp which op)).exitAsks sid = w.exitAsks sid :=
  exitAsks_modifySession fun _ => by cases which <;> exact ⟨rfl, rfl, rfl⟩

private theorem onSessionOutput_read {b : UInt8} {bs : Bytes} :
    Asks given (onSessionOutput sid (.bytes (b :: bs))) w (w.outputAsks sid w.answers) := by
  refine .step rfl rfl (.step rfl rfl ?_)
  have hl : (w.modifySession sid (·.storeOp .output none)).g.attachSessions.lookup sid =
      (w.g.attachSessions.lookup sid).map (·.storeOp .output none) := by
    change (w.g.attachSessions.update sid _).lookup sid = _
    rw [Table.lookup_update_ite, if_pos rfl]
  have hend {w' : World} (hg : w'.g.attachSessions.lookup sid =
      (w.modifySession sid (·.storeOp .output none)).g.attachSessions.lookup sid) :
      Asks given (finishSessionOutput sid) w' (w.exitAsks sid) :=
    (exitAsks_congr hg).trans (exitAsks_storeOp _ _) ▸ finishSessionOutput_asks
  rw [hl]
  unfold World.outputAsks
  cases hs : w.g.attachSessions.lookup sid with
  | none =>
    have hnone : w.exitAsks sid = [] := by simp [World.exitAsks, World.exitSizes, hs]
    exact hnone ▸ hend rfl
  | some sess =>
    dsimp only [Option.map_some]
    unfold beginFrame
    rw [bind_assoc]
    have hhead (kept : Bool) {as : List (Ask (Option ℕ))} :
        Asks given (submit (.sessionDataHeader sid sess.streamFd (0x10 :: u16ToLe (bs.length + 1))
          (b :: bs) 0) sess.streamFd.handle 3) (w.modifySession sid (·.storeOp .output none))
          (askFor [3] kept :: as) := (submit_asks kept).mono fun out hadm => ⟨hadm.1, trivial⟩
    split_ifs with href
    · refine (hhead false).of_ok fun op w' hop => ?_
      obtain ⟨ok, as, hans, rfl, rfl⟩ := submit_eq_ok hop
      obtain rfl : ok = false := by simpa [show w.answers = _ from hans, Answer.submits] using href
      exact .cons hop rfl (fun _ hy => ask_eq rfl hy) (hend rfl)
    · refine (hhead true).before fun op w' hop => ?_
      obtain ⟨ok, as, hans, rfl, rfl⟩ := submit_eq_ok hop
      obtain rfl : ok = true := by simpa [show w.answers = _ from hans, Answer.submits] using href
      simp only [if_true]
      rw [bind_assoc]
      refine .of_mute (Through.bind (note_mute rfl) fun _ => ?_)
      rw [pure_bind, if_neg (by simp)]
      exact .pure

theorem onSessionOutput_asks {res : Result} : Asks given (onSessionOutput sid res) w
    (w.opAsks codec (.sessionOutputRead sid) res w.answers) := by
  have hend : Asks given (storeSessionOp sid .output none >>= fun _ => finishSessionOutput sid) w
      (w.exitAsks sid ++ []) := by
    rw [List.append_nil, ← exitAsks_storeOp .output none]
    exact .step rfl rfl finishSessionOutput_asks
  cases res with
  | bytes bs =>
    cases bs with
    | nil => exact hend
    | cons b bs => exact onSessionOutput_read
  | _ => exact hend

theorem onSessionDataHeader_asks {header payload : Bytes} {off : ℕ} {res : Result} :
    Asks (some (.sessionDataHeader sid streamFd header payload off))
      (onSessionDataHeader sid streamFd header payload off res) w
      (w.opAsks codec (.sessionDataHeader sid streamFd header payload off) res w.answers) := by
  have hend : Asks (some (.sessionDataHeader sid streamFd header payload off))
      (finishSessionOutput sid) w (w.exitAsks sid ++ []) := by
    rw [List.append_nil]
    exact finishSessionOutput_asks
  cases res with
  | count n =>
    have hmark := resumed_mark (some (.sessionDataHeader sid streamFd header payload off))
      .header fun loc hloc => by cases loc <;> first | rfl | cases hloc
    exact .of_mute (.ite (.discard (submit_mute hmark rfl)) (.discard (submit_mute hmark rfl)))
  | _ => exact hend

theorem onSessionDataPayload_asks {payload : Bytes} {off : ℕ} {res : Result} :
    Asks given (onSessionDataPayload sid streamFd payload off res) w
      (w.opAsks codec (.sessionDataPayload sid streamFd payload off) res w.answers) := by
  have hend : Asks given (finishSessionOutput sid) w (w.exitAsks sid ++ []) := by
    rw [List.append_nil]
    exact finishSessionOutput_asks
  cases res with
  | count n =>
    unfold onSessionDataPayload
    dsimp only
    split_ifs with hdone
    · refine armSessionOutput_asks.mono fun out hadm => ?_
      unfold World.opAsks OpLocal.drained at hadm
      simp only [Nat.not_lt.mpr hdone, false_or] at hadm
      split_ifs at hadm ⊢
      · exact hadm
      · simpa using hadm
    · exact .of_mute (.discard (submit_mute taking_mark rfl))
  | _ => exact hend

theorem onSessionFrame_asks {buf : Bytes} {off : ℕ} {res : Result} {as : List (Ask (Option ℕ))} :
    Asks (some (.sessionFrame sid streamFd buf off)) (onSessionFrame sid streamFd buf off res) w as := by
  have hmark := resumed_mark (some (.sessionFrame sid streamFd buf off)) .frame
    fun loc hloc => by cases loc <;> first | rfl | cases hloc
  exact .of_mute (onSessionFrame_mute hmark rfl)

theorem onFollowWrite_asks {pid : Pid} {pipeId : ℕ} {fd : Fd .pipe} {chunks : List Bytes} {res : Result}
    {as : List (Ask (Option ℕ))} :
    Asks (some (.followWrite pid pipeId fd chunks)) (onFollowWrite pid pipeId fd chunks res) w as := by
  have hmark := resumed_mark (some (.followWrite pid pipeId fd chunks)) .line
    fun loc hloc => by cases loc <;> first | rfl | cases hloc
  exact .of_mute (onFollowWrite_mute hmark rfl)

end

section

variable {pid : Pid} {line lineBuf : Bytes} {lines : List Bytes} {target : ℕ × Fd .pipe}
  {targets : List (ℕ × Fd .pipe)} {n : ℕ}

/-- The lengths of a line's buffers do not depend on what their slots held. -/
theorem map_length_splitFrom (stale stale' : Bytes) {rest : Bytes} {fuel : ℕ} :
    (splitFrom stale fuel rest).map List.length = (splitFrom stale' fuel rest).map List.length := by
  induction fuel generalizing stale stale' rest with
  | zero => rfl
  | succ fuel ih =>
    unfold splitFrom
    dsimp only
    split_ifs
    · rfl
    · rw [List.map_cons, List.map_cons, ih stale.tail stale'.tail]
      simp only [List.length_append, List.length_singleton]

theorem armFollowWrite_splitLine {pipeId : ℕ} {fd : Fd .pipe} {stale : Bytes} :
    armFollowWrite pid pipeId fd (splitLine stale line) =
      discard (submit (.followWrite pid pipeId fd (splitLine stale line)) (some fd.handle)
        ((splitLine stale line).headD []).length) := by
  unfold splitLine splitFrom
  dsimp only
  split_ifs <;> rfl

theorem staleBytes_eq_ok {stale : Bytes} (h : staleBytes w = .ok stale w') :
    ∃ as, w.answers = .stale stale :: as ∧ w' = { w with answers := as } := by
  unfold staleBytes at h
  obtain ⟨a, w₁, hask, h⟩ := bind_eq_ok.mp h
  obtain ⟨as, ha, rfl⟩ := ask_eq_ok hask
  cases a with
  | stale b =>
    cases h
    exact ⟨as, ha, rfl⟩
  | _ => cases h

theorem followLines_asks (hn : targets.length ≤ n) : Asks given (forEach (followLine pid line) targets)
    w (asksFor ((splitLine [] line).map List.length) n w.answers) := by
  induction targets generalizing n w with
  | nil => exact .pure
  | cons target targets ih =>
    obtain ⟨n, rfl⟩ := Nat.exists_eq_succ_of_ne_zero (Nat.ne_zero_of_lt hn)
    unfold forEach followLine
    rw [bind_assoc]
    refine .after staleBytes_mute fun stale w₁ hstale => ?_
    obtain ⟨as, ha, rfl⟩ := staleBytes_eq_ok hstale
    have hsizes : (splitLine [] line).map List.length = (splitLine stale line).map List.length :=
      map_length_splitFrom [] stale
    rw [ha, armFollowWrite_splitLine]
    refine .discard_bind ?_
    change Asks given _ _ (asksFor _ (n + 1) as)
    rw [hsizes]
    refine submits_asks rfl fun _ _ w₂ _ _ => ?_
    have hrest := ih (n := n) (w := w₂) (Nat.le_of_succ_le_succ hn)
    rwa [hsizes] at hrest

/-- What a line's pushing leaves: no pipe of the container is idle. -/
def Busy (pid : Pid) (w : World) : Prop :=
  ∀ info ∈ w.g.containers.lookup pid, info.gateway.pipes.countP (!·.inFlight) = 0

private theorem followLine_containers (h : followLine pid line target w = .ok () w') :
    w'.g.containers = w.g.containers := by
  unfold followLine at h
  obtain ⟨stale, w₁, hstale, h⟩ := bind_eq_ok.mp h
  obtain ⟨as, -, rfl⟩ := staleBytes_eq_ok hstale
  rw [armFollowWrite_splitLine] at h
  obtain ⟨op, w₂, hop, h⟩ := bind_eq_ok.mp h
  obtain ⟨ok, as, -, rfl, rfl⟩ := submit_eq_ok hop
  cases h
  rfl

private theorem followLines_containers (h : forEach (followLine pid line) targets w = .ok () w') :
    w'.g.containers = w.g.containers := by
  induction targets generalizing w with
  | nil =>
    cases h
    rfl
  | cons target targets ih =>
    obtain ⟨u, w₁, hfirst, h⟩ := bind_eq_ok.mp h
    exact (ih h).trans (followLine_containers hfirst)

theorem push_pipes {g g' : LogGateway} {ids : List ℕ} (h : g.push line = some (g', ids)) :
    ids.length = g.pipes.countP (!·.inFlight) ∧ g'.pipes.countP (!·.inFlight) = 0 := by
  obtain ⟨cache, -, h⟩ := Option.bind_eq_some_iff.mp h
  cases h
  refine ⟨?_, ?_⟩
  · rw [List.length_map, List.countP_eq_length_filter]
  · simp

theorem writeLine_busy (h : writeLine pid line w = .ok () w') : Busy pid w' := by
  unfold writeLine at h
  obtain ⟨found, w₁, hfind, h⟩ := bind_eq_ok.mp h
  cases hfind
  cases hinfo : w.g.containers.lookup pid with
  | none =>
    have hkeep : w'.g.containers = w.g.containers := by
      rw [hinfo] at h
      obtain ⟨w₂, w₃, hget, h⟩ := bind_eq_ok.mp h
      cases hget
      cases hgrave : w.g.logGraveyard.lookup pid with
      | none =>
        rw [hgrave] at h
        cases h
        rfl
      | some cache =>
        rw [hgrave] at h
        obtain ⟨cache', w₄, hcache, h⟩ := bind_eq_ok.mp h
        obtain ⟨-, rfl⟩ := ofOption_eq_ok hcache
        cases h
        rfl
    intro info hmem
    rw [hkeep, hinfo] at hmem
    cases hmem
  | some info =>
    rw [hinfo] at h
    obtain ⟨⟨gateway, ids⟩, w₂, hpush, h⟩ := bind_eq_ok.mp h
    obtain ⟨hpushed, rfl⟩ := ofOption_eq_ok hpush
    obtain ⟨u, w₃, hmod, h⟩ := bind_eq_ok.mp h
    cases hmod
    have hkeep := followLines_containers h
    intro info' hmem
    rw [hkeep] at hmem
    change info' ∈ (w.g.containers.update pid ({ · with gateway := gateway })).lookup pid at hmem
    rw [Table.lookup_update_ite, if_pos rfl, hinfo] at hmem
    cases hmem
    exact (push_pipes hpushed).2

theorem writeLine_asks : Asks given (writeLine pid line) w (w.lineAsks pid (line :: lines) w.answers) := by
  unfold writeLine
  refine .step rfl rfl ?_
  unfold World.lineAsks
  cases w.g.containers.lookup pid with
  | none =>
    refine .of_mute (Through.get.bind fun w => ?_)
    split
    · exact Through.ofOption.bind fun cache => .update fun _ => .of_eq rfl rfl
    · exact .pure
  | some info =>
    dsimp only
    cases hpush : info.gateway.push line with
    | none => exact .throw
    | some r =>
      obtain ⟨hlen, -⟩ := push_pipes hpush
      refine .step rfl rfl ?_
      refine .after (Through.update fun _ => .of_note rfl rfl rfl) fun _ w₁ h => ?_
      cases h
      exact followLines_asks ((List.length_filterMap_le _ _).trans hlen.le)

private theorem lineAsks_busy (h : Busy pid w) (lines : List Bytes) (as : List Answer) : w.lineAsks pid lines as = [] := by
  unfold World.lineAsks
  split
  · rename_i info line lines hinfo
    rw [h info hinfo]
    rfl
  · rfl

private theorem writeLines_busy (h : Busy pid w) : Asks given (writeLines pid lines) w [] := by
  unfold writeLines
  induction lines generalizing w with
  | nil => exact .pure
  | cons line lines ih =>
    refine .before ?_ fun _ w' hw => ih (writeLine_busy hw)
    have hnone := lineAsks_busy h (line :: lines) w.answers
    exact hnone ▸ writeLine_asks

theorem writeLines_asks : Asks given (writeLines pid lines) w (w.lineAsks pid lines w.answers) := by
  unfold writeLines
  cases lines with
  | nil => exact .pure
  | cons line lines => exact writeLine_asks.before fun _ w' hw => writeLines_busy (writeLine_busy hw)

theorem onContainerOutput_asks {res : Result} : Asks given (onContainerOutput pid lineBuf res) w
    (w.opAsks codec (.containerOutput pid lineBuf) res w.answers) := by
  unfold onContainerOutput
  split
  · refine writeLines_asks.before fun _ _ _ => .of_mute ?_
    exact outputFd_mute.bind fun _ => .discard (submit_mute taking_mark rfl)
  · exact .of_mute (finishContainerOutput_mute taking_mark)

theorem onContainerPtyOutput_asks {res : Result} : Asks given (onContainerPtyOutput pid lineBuf res) w
    (w.opAsks codec (.containerPtyOutput pid lineBuf) res w.answers) := by
  unfold onContainerPtyOutput
  split
  · refine writeLines_asks.before fun _ _ _ => .of_mute ?_
    exact containerPtm_mute.bind fun _ => .discard (submit_mute taking_mark rfl)
  · exact .of_mute (finishContainerPtyOutput_mute taking_mark)

end

section

variable {pid : Pid} {sid n : ℕ} {told finished sids : List ℕ} {w₀ : World}

def Idle (w w' : World) : Prop :=
  w'.g.attachSessions = w.g.attachSessions ∧ w'.answers = w.answers

instance : IsPreorder World Idle where
  refl _ := ⟨rfl, rfl⟩
  trans _ _ _ h h' := ⟨h'.1.trans h.1, h'.2.trans h.2⟩

private theorem retire_idle {info : ContainerInfo} {fds : List Handle} :
    Through Idle (retire pid info fds) := by
  have hclose {d : Handle} : Through Idle (closeFd d) := fun _ => ⟨rfl, rfl⟩
  have hnote {e : Entry} : Through Idle (note e) := fun _ => ⟨rfl, rfl⟩
  unfold retire
  refine Through.bind (.update fun _ => ⟨rfl, rfl⟩) fun _ => ?_
  refine Through.bind (.forEach fun _ => hclose) fun _ => ?_
  split
  · exact .ite hnote .pure
  · exact .pure

theorem reapContainer_idle : Through Idle (reapContainer pid) := by
  have hfind : Through Idle (findContainer pid) := Through.get.bind fun _ => .pure
  unfold reapContainer
  refine hfind.bind fun info => ?_
  cases info with
  | none => exact .pure
  | some info => exact .ite .pure retire_idle

/-- Whether an exit frame is due to a session of the pid once its child has exited. -/
def World.drained (w : World) (pid : Pid) (sid : ℕ) : Bool :=
  (w.g.attachSessions.lookup sid).any fun sess =>
    sess.containerPid = pid && sess.drainDone && !sess.exitSent

private theorem tells_eq {status : ℕ} (hdue : w.drained pid sid = true) :
    w.tells (.wait (some (pid, status, sid))) = some sid := by
  unfold World.drained at hdue
  cases hs : w.g.attachSessions.lookup sid with
  | none =>
    rw [hs] at hdue
    cases hdue
  | some sess =>
    simp only [hs, Option.any_some, Bool.and_eq_true, decide_eq_true_eq] at hdue
    have hmem : sid ∈ sessionsOf w pid := mem_sessionsOf.mpr ⟨sess, hs, hdue.1.1⟩
    simp only [World.tells, hmem, hs, Option.any_some, hdue.1.2, hdue.2, Bool.and_true, and_true,
      if_true]

/-- One turn of the sweep takes one answer, and a child's session is one of its pid's. -/
theorem wait4_eq_ok {child : Option (Pid × ℤ × Option ℕ)} (h : wait4 w = .ok child w') :
    ∃ r as, w.answers = .wait r :: as ∧ Idle { w with answers := as } w' ∧
      ∀ c ∈ child, ∃ pid status first, r = some (pid, status, first) ∧
        c = (pid, exitCodeOf status, if first ∈ sessionsOf w' pid then some first else none) := by
  unfold wait4 at h
  obtain ⟨a, w₁, hask, h⟩ := bind_eq_ok.mp h
  obtain ⟨as, ha, rfl⟩ := ask_eq_ok hask
  split at h
  · cases h
    exact ⟨none, as, ha, ⟨rfl, rfl⟩, fun c hc => by cases hc⟩
  · rename_i pid status first
    obtain ⟨w₂, w₃, hget, h⟩ := bind_eq_ok.mp h
    cases hget
    split at h
    · cases h
      exact ⟨_, as, ha, ⟨rfl, rfl⟩, fun c hc => ⟨pid, status, first, rfl, Option.some.inj hc.symm⟩⟩
    · cases h
  · cases h

/-- In the middle of a sweep from `w₀` that has told the sessions `finished`. -/
structure Sweep (w₀ w : World) (finished : List ℕ) : Prop where
  answers : w.answers <:+ w₀.answers
  submits : w.answers.filterMap Answer.submits = w₀.answers.filterMap Answer.submits
  drained : ∀ pid s, w.drained pid s = w₀.drained pid s
  told : ∀ s ∈ finished, ∀ sess ∈ w.g.attachSessions.lookup s,
    (∃ status, .wait (some (sess.containerPid, status, s)) ∈ w₀.answers) ∧
      ∃ status, sess.exitCode = some (exitCodeOf status)

namespace Sweep

theorem idle (hx : Sweep w₀ w finished) (h : Idle w w') : Sweep w₀ w' finished where
  answers := h.2 ▸ hx.answers
  submits := h.2 ▸ hx.submits
  drained pid s := by
    unfold World.drained
    rw [h.1]
    exact hx.drained pid s
  told := by
    rw [h.1]
    exact hx.told

/-- One more child is asked for. -/
theorem spend (hx : Sweep w₀ w finished) {r : Option (Pid × ℕ × ℕ)} {as : List Answer}
    (ha : w.answers = .wait r :: as) : Sweep w₀ { w with answers := as } finished where
  answers := (ha ▸ List.suffix_cons _ as).trans hx.answers
  submits := by
    rw [← hx.submits, ha]
    rfl
  drained := hx.drained
  told := hx.told

/-- One session is told. -/
theorem tell (hx : Sweep w₀ w finished) {status status' : ℕ}
    (ha : .wait (some (pid, status', sid)) ∈ w₀.answers) (hs : sid ∈ sessionsOf w pid) :
    Sweep w₀ (w.modifySession sid fun sess =>
        { sess with childExited := true, exitCode := some (exitCodeOf status) })
      (finished ++ [sid]) where
  answers := hx.answers
  submits := hx.submits
  drained pid s := by
    rw [← hx.drained]
    unfold World.drained
    change Option.any _ ((w.g.attachSessions.update sid _).lookup s) = _
    rw [Table.lookup_update_ite]
    split_ifs with heq
    · rw [heq]
      cases w.g.attachSessions.lookup sid <;> rfl
    · rfl
  told s hmem sess hsess := by
    change (w.g.attachSessions.update sid _).lookup s = _ at hsess
    rw [Table.lookup_update_ite] at hsess
    split_ifs at hsess with heq
    · obtain ⟨sess₀, hl, rfl⟩ := Option.map_eq_some_iff.mp hsess
      obtain ⟨sess₁, hl₁, rfl⟩ := Daemon.mem_sessionsOf.mp hs
      obtain rfl := Option.some.inj (hl.symm.trans hl₁)
      exact ⟨⟨status', heq ▸ ha⟩, status, rfl⟩
    · have hold := (List.mem_append.mp hmem).resolve_right fun h => heq (List.mem_singleton.mp h)
      exact hx.told s hold sess hsess

/-- The whole sweep. -/
theorem loop {fuel : ℕ} (hx : Sweep w₀ w finished)
    (h : reapLoop fuel finished w = .ok told w') : Sweep w₀ w' told := by
  induction fuel generalizing w finished with
  | zero => cases h
  | succ fuel ih =>
    unfold reapLoop at h
    obtain ⟨child, w₁, hwait, h⟩ := bind_eq_ok.mp h
    obtain ⟨r, as, ha, hidle, hchild⟩ := wait4_eq_ok hwait
    have hx₁ := (hx.spend ha).idle hidle
    cases child with
    | none =>
      cases h
      exact hx₁
    | some c =>
      obtain ⟨pid, status, first, rfl, rfl⟩ := hchild c rfl
      have hmem : .wait (some (pid, status, first)) ∈ w₀.answers :=
        hx.answers.subset (ha ▸ List.mem_cons_self)
      by_cases hfirst : first ∈ sessionsOf w₁ pid
      · rw [if_pos hfirst] at h
        obtain ⟨u, w₂, htell, h⟩ := bind_eq_ok.mp h
        cases htell
        obtain ⟨u, w₃, hreap, h⟩ := bind_eq_ok.mp h
        exact ih ((hx₁.tell hmem hfirst).idle (reapContainer_idle.ok hreap)) h
      · rw [if_neg hfirst] at h
        obtain ⟨u, w₂, hreap, h⟩ := bind_eq_ok.mp h
        exact ih (hx₁.idle (reapContainer_idle.ok hreap)) h

end Sweep

/-- If an exit frame is still due to the session, it is one of `due`, and a child's status says what
the frame reports. -/
def DueIn (due : List ℕ) (w : World) (sid : ℕ) : Prop :=
  ∀ sess ∈ w.g.attachSessions.lookup sid, sess.drainDone = true → sess.exitSent = false →
    sid ∈ due ∧ ∃ status, sess.exitCode = some (exitCodeOf status)

/-- Once the frame has been sent it is due no more. -/
theorem DueIn.sent {due : List ℕ} {s : ℕ} (h : DueIn due w s) (hnodup : due.Nodup)
    (hg : w'.g = (w.modifySession sid ({ · with exitSent := true })).g) :
    DueIn (due.erase sid) w' s := by
  intro sess hsess hdone hsent
  rw [hg] at hsess
  change (w.g.attachSessions.update sid _).lookup s = _ at hsess
  rw [Table.lookup_update_ite] at hsess
  split_ifs at hsess with heq
  · obtain ⟨sess₀, -, rfl⟩ := Option.map_eq_some_iff.mp hsess
    cases hsent
  · obtain ⟨hmem, hcode⟩ := h sess hsess hdone hsent
    exact ⟨hnodup.mem_erase_iff.mpr ⟨heq, hmem⟩, hcode⟩

private theorem exitFrame_size : ∀ n < 256, Frame.size ⟨0x02, exitPayload (n : ℕ)⟩ ≤ 64 := by decide +kernel

private theorem exitCodeOf_lt (status : ℕ) : ∃ n < 256, exitCodeOf status = (n : ℕ) := by
  unfold exitCodeOf
  split_ifs
  · exact ⟨_, Nat.mod_lt _ (by omega), rfl⟩
  · exact ⟨128 + status % 128, by omega, rfl⟩
  · exact ⟨1, by omega, rfl⟩

private theorem classOf_small (h : n ≤ 64) : classOf n = classOf 64 := by
  simp [classOf, Buf.classFor, defaultSizeClasses, List.findIdx?_cons, h]

theorem finishAll_asks {due : List ℕ} (hnodup : due.Nodup) (hlen : due.length ≤ n)
    (hdue : ∀ s ∈ sids, DueIn due w s) :
    Asks given (forEach maybeFinishSession sids) w (asksFor [64] n w.answers) := by
  induction sids generalizing w n due with
  | nil => exact .pure
  | cons sid sids ih =>
    have hrest := fun s hs => hdue s (List.mem_cons_of_mem sid hs)
    unfold forEach maybeFinishSession
    rw [bind_assoc]
    refine .step rfl rfl ?_
    cases hl : w.g.attachSessions.lookup sid with
    | none => exact .step rfl rfl (ih hnodup hlen hrest)
    | some sess =>
      dsimp only
      split_ifs with hdone
      · exact .step rfl rfl (ih hnodup hlen hrest)
      · simp only [Bool.or_eq_true, Bool.not_eq_true', Bool.and_eq_false_iff, not_or,
          Bool.not_eq_false, Bool.not_eq_true] at hdone
        obtain ⟨hmem, status, hcode⟩ := hdue sid List.mem_cons_self sess hl hdone.1.1 hdone.2
        obtain ⟨k, hk, hstatus⟩ := exitCodeOf_lt status
        obtain ⟨n, rfl⟩ := Nat.exists_eq_succ_of_ne_zero
          (Nat.ne_zero_of_lt ((List.length_pos_of_mem hmem).trans_le hlen))
        have hclass {n : ℕ} {as : List Answer} : asksFor [64] n as = asksFor
            (OpLocal.drawn (.sessionFrame sid sess.streamFd
              (Frame.bytes ⟨0x02, exitPayload (sess.exitCode.getD 0)⟩) 0)) n as := by
          have hsize : Frame.size ⟨0x02, exitPayload (sess.exitCode.getD 0)⟩ ≤ 64 := by
            rw [hcode, hstatus]
            exact exitFrame_size k hk
          change _ = asksFor [(Frame.bytes _).length] n as
          unfold asksFor askFor
          rw [Frame.length_bytes, List.map_singleton, List.map_singleton, classOf_small hsize]
        rw [bind_assoc]
        refine .step rfl rfl (.discard_bind ?_)
        unfold beginFrame
        rw [bind_assoc, hclass]
        refine submits_asks rfl fun op _ w' _ hg => ?_
        rw [← hclass]
        have hlen' : (due.erase sid).length ≤ n := by
          rw [List.length_erase_of_mem hmem]
          omega
        have hgo {w'' : World} (hg' : w''.g = w'.g) := ih (w := w'') (hnodup.erase sid) hlen'
          fun s hs => (hrest s hs).sent hnodup (hg'.trans hg)
        cases op with
        | none => exact .step rfl rfl (hgo rfl)
        | some op =>
          rw [bind_assoc]
          refine .after (note_mute rfl) fun _ w'' h => ?_
          cases h
          exact .step rfl rfl (hgo rfl)

/-- What the sweep has told is due, if anything. -/
theorem Sweep.due (hx : Sweep w₀ w told) {s : ℕ} (hs : s ∈ told) :
    DueIn (w₀.answers.filterMap w₀.tells).dedup w s := by
  intro sess hsess hdone hsent
  obtain ⟨⟨status, ha⟩, hcode⟩ := hx.told s hs sess hsess
  refine ⟨List.mem_dedup.mpr (List.mem_filterMap.mpr ⟨_, ha, tells_eq ?_⟩), hcode⟩
  rw [← hx.drained]
  unfold World.drained
  rw [hsess]
  simp [hdone, hsent]

theorem reapChildren_asks : Asks given reapChildren w (w.reapAsks w.answers) := by
  unfold reapChildren
  refine .step rfl rfl (.after (reapLoop_mute asking_mark) fun told w' h => ?_)
  have hx : Sweep w w' told := Sweep.loop
    ⟨List.suffix_rfl, rfl, fun _ _ => rfl, fun s hs => absurd hs List.not_mem_nil⟩ h
  have hasks : w.reapAsks w.answers =
      asksFor [64] (w.answers.filterMap w.tells).dedup.length w'.answers := by
    unfold World.reapAsks asksFor
    rw [hx.submits]
  rw [hasks]
  exact finishAll_asks (List.nodup_dedup _) le_rfl fun s hs => hx.due hs

theorem onSigchld_asks {res : Result} : Asks given (onSigchld res) w
    (w.opAsks codec .sigchld res w.answers) := by
  unfold onSigchld
  split
  · exact reapChildren_asks.before fun _ _ _ => .of_mute (armSigchld_mute taking_mark rfl)
  · exact .of_mute (armSigchld_mute taking_mark rfl)
  · exact .pure

end

end Conrt.Daemon
