import Conrt.Daemon.Pool
import Conrt.Daemon.RequestMarks
import Conrt.Daemon.Streams

/-! What each callback asks of the buffer pool, and the runs in which the pool has it. -/
namespace Conrt.Daemon

open Conrt.Base

def Answer.submits : Answer → Option Bool
  | .submit accepted => some accepted
  | _ => none

/-- Buffers of these sizes, one `pool_alloc` each, and whether the op that gets them is accepted. -/
def askFor (sizes : List ℕ) (kept : Bool) : Ask (Option ℕ) :=
  { units := sizes.map classOf, must := true, kept := kept }

/-- The same for each of `n` ops, submitted one after the other. -/
def asksFor (sizes : List ℕ) (n : ℕ) (answers : List Answer) : List (Ask (Option ℕ)) :=
  ((answers.filterMap Answer.submits).take n).map (askFor sizes)

def startedPids : List Answer → List Pid
  | .clone (.ok _) :: .call (.error _) :: as => startedPids as
  | .clone (.ok pid) :: as => pid :: startedPids as
  | _ :: as => startedPids as
  | [] => []

def responseSize (pid : Pid) : ℕ := Frame.size ⟨0x01, runResponse pid⟩

def Codec.responses (codec : Codec) (w : World) (sid : ℕ) (f : Frame) (answers : List Answer) :
    List ℕ :=
  match codec.asked f with
  | some (.run _) => (startedPids answers).map responseSize
  | some (.attach pid) =>
    if (w.g.containers.lookup pid).isSome && (w.g.attachSessions.lookup sid).isSome then
      match answers with
      | .call (.ok _) :: _ => [responseSize pid]
      | _ => []
    else []
  | _ => []

namespace World

/-- The exit frame of a session whose output has now been drained. -/
def exitSizes (w : World) (sid : ℕ) : List ℕ :=
  match w.g.attachSessions.lookup sid with
  | some sess =>
    if sess.childExited && !sess.exitSent then
      [Frame.size ⟨0x02, exitPayload (sess.exitCode.getD 0)⟩]
    else []
  | none => []

def exitAsks (w : World) (sid : ℕ) : List (Ask (Option ℕ)) :=
  (w.exitSizes sid).map fun n => askFor [n] true

/-- The header of a data frame. When it is refused the drain ends. -/
def outputAsks (w : World) (sid : ℕ) (answers : List Answer) : List (Ask (Option ℕ)) :=
  match w.g.attachSessions.lookup sid with
  | some _ =>
    if (answers.filterMap Answer.submits).head? = some false then
      askFor [3] false :: w.exitAsks sid
    else [askFor [3] true]
  | none => []

/-- An exit frame for each session that a sweep tells and whose output has been drained. The code of
a child that was reaped has three digits at most. -/
def reapAsks (w : World) (answers : List Answer) : List (Ask (Option ℕ)) :=
  asksFor [64] (answers.filterMap w.tells).dedup.length answers

/-- The first of the lines goes to every idle pipe; the lines after it find none idle. -/
def lineAsks (w : World) (pid : Pid) (lines : List Bytes) (answers : List Answer) :
    List (Ask (Option ℕ)) :=
  match w.g.containers.lookup pid, lines with
  | some info, line :: _ =>
    asksFor ((splitLine [] line).map List.length) (info.gateway.pipes.countP (!·.inFlight)) answers
  | _, _ => []

/-- What the callback of a completion asks of the pool, in order. -/
def opAsks (codec : Codec) (w : World) (loc : OpLocal) (r : Result) (answers : List Answer) :
    List (Ask (Option ℕ)) :=
  match loc, r with
  | .sessionPayload sid frameType acc need, r =>
    (OpLocal.frame (.sessionPayload sid frameType acc need) r).toList.flatMap fun f =>
      (codec.responses w f.1 f.2 answers).map fun n => askFor [n] true
  | .sessionOutputRead sid, .bytes (_ :: _) => w.outputAsks sid answers
  | .sigchld, .bytes (_ :: _) => w.reapAsks answers
  | .containerOutput pid lineBuf, .bytes (b :: bs) | .containerPtyOutput pid lineBuf, .bytes (b :: bs) =>
    w.lineAsks pid (drainLines lineBuf (b :: bs)).1 answers
  | loc, r => (loc.drained w r).toList.flatMap w.exitAsks

end World

/-- A client frame is copied first, and the copy lives as long as the callback. -/
def OpLocal.copyAsks (loc : OpLocal) (r : Result) : List (Ask (Option ℕ)) :=
  (loc.frame r).toList.map fun f => askFor [max f.2.payload.length 1] true

/-- Besides the buffers that ops in flight hold, the pool has those that the callback asks for, one
group after the other: each class that serves one of their sizes has that many, and every size has a
class. -/
def RoomStep (codec : Codec) (p : Pooled) : Event → Prop
  | .enter | .perform _ _ => True
  | .deliver id answers =>
    ∀ op ∈ p.world.findOp id, ∀ r ∈ op.result,
      Admits slots p.out (op.loc.copyAsks r ++ p.world.opAsks codec op.loc r answers)

instance RoomStep.decidable (codec : Codec) (p : Pooled) : (e : Event) → Decidable (RoomStep codec p e)
  | .enter => .isTrue trivial
  | .perform _ _ => .isTrue trivial
  | .deliver _ _ => inferInstanceAs (Decidable (∀ op ∈ _, ∀ r ∈ _, Admits _ _ _))

variable {codec : Codec} {w w' : World} {loc : OpLocal} {answers : List Answer} {e : Entry}
  {op : InFlight} {r : Result} {p p' p₀ : Pooled} {h : Hand} {out now : List (Option ℕ)}
  {given : Option OpLocal} {tr : List Entry}

/-- The buffers drawn for a new op: what goes to a stdin comes in the copy of its frame. -/
def OpLocal.drawn : OpLocal → List ℕ
  | .sessionStdin .. => []
  | loc => loc.buffers

theorem OpLocal.drawn_eq (hloc : ∀ sid buf off, loc ≠ .sessionStdin sid buf off) :
    loc.drawn = loc.buffers := by
  cases loc with
  | sessionStdin sid buf off => exact absurd rfl (hloc sid buf off)
  | _ => rfl

/-- What a new op asks for in the callback of `given`. -/
def Entry.ask (given : Option OpLocal) : Entry → Option (Ask (Option ℕ))
  | .submitted loc _ _ accepted =>
    if given.any (·.resumes loc) || loc.drawn.isEmpty then none
    else some { units := loc.drawn.map classOf, must := !loc.spared, kept := accepted }
  | _ => none

theorem ask_eq {fd : Option Handle} {file : Option File} {ok : Bool} {a : Ask (Option ℕ)}
    (hspared : loc.spared = false) (ha : a ∈ (Entry.submitted loc fd file ok).ask given) :
    a = askFor loc.drawn ok := by
  unfold Entry.ask at ha
  dsimp only at ha
  split_ifs at ha
  · cases ha
  · obtain rfl := Option.some.inj ha
    rw [hspared]
    rfl

def asksIn (given : Option OpLocal) (tr : List Entry) : List (Ask (Option ℕ)) :=
  tr.filterMap (Entry.ask given)

namespace Hand

@[simp] theorem alive_drop (sizes : List ℕ) : (h.drop sizes).alive = h.alive := rfl

private theorem given_fill (h : Hand) (loc : OpLocal) : (h.fill loc).1.given = h.given := by
  unfold Hand.fill
  split_ifs
  · rfl
  · split
    · rfl
    · split_ifs <;> rfl

private theorem given_note (h : Hand) (e : Entry) : (h.note e).given = h.given := by
  unfold Hand.note
  split
  · rename_i loc _ _ accepted
    have hf := h.given_fill loc
    cases accepted <;> exact hf
  · rfl
  · rfl

/-- The draws from `h` to `h'` take nothing but these units. -/
def Takes (h h' : Hand) (ks : List (Option ℕ)) : Prop :=
  ∃ ds, h'.draws = h.draws ++ ks.map .take ++ ds ∧ ∀ k, .take k ∉ ds

theorem takes_refl : h.Takes h [] := ⟨[], by simp, by simp⟩

theorem Takes.drop {h' : Hand} {ks : List (Option ℕ)} (ht : h.Takes h' ks) (sizes : List ℕ) :
    h.Takes (h'.drop sizes) ks := by
  obtain ⟨ds, hd, hno⟩ := ht
  refine ⟨ds ++ (sizes.map classOf).map .give, ?_, fun k hk => ?_⟩
  · change h'.draws ++ _ = _
    rw [hd, List.append_assoc]
  · rcases List.mem_append.mp hk with hk | hk
    · exact hno k hk
    · simp at hk

variable {fd : Option Handle} {file : Option File} {ok : Bool} {a : Ask (Option ℕ)}

/-- An op that goes on with a write has the buffers it needs, and so has one that writes the copy of
a frame, or nothing. -/
theorem fill_of_none (hask : (Entry.submitted loc fd file ok).ask h.given = none) :
    h.Takes (h.fill loc).1 [] ∧
      ((h.fill loc).2.map classOf ++ (h.fill loc).1.alive).Subperm h.alive := by
  unfold Hand.fill
  split_ifs with hres
  · refine ⟨takes_refl.drop _, ?_⟩
    rw [alive_drop]
    simp only [alive, ← List.map_append, List.append_nil]
    generalize h.own.length - loc.buffers.length = n
    have hperm : (h.own.drop n ++ h.held.map (·.2) ++ h.frame).Perm
        (h.held.map (·.2) ++ h.own.drop n ++ h.frame) := List.perm_append_comm.append_right _
    have hsub := ((List.Sublist.refl (h.held.map (·.2))).append (List.drop_sublist n h.own)).append
      (List.Sublist.refl h.frame)
    rw [List.append_assoc] at hperm
    exact (hperm.map classOf).subperm.trans (hsub.map classOf).subperm
  · split
    · refine ⟨takes_refl, List.Perm.subperm ?_⟩
      simp only [alive, ← List.map_append, List.append_nil]
      exact List.perm_append_comm.map _
    · rename_i hloc
      have hnil : loc.buffers = [] := by
        rw [← OpLocal.drawn_eq hloc]
        simpa [Entry.ask, hres] using hask
      rw [hnil]
      split_ifs
      · exact ⟨⟨[.attempt [] true], by simp [attempt], by simp⟩, .refl _⟩
      · exact ⟨⟨[], by simp [alloc], by simp⟩, .refl _⟩

private theorem fill_of_some (hask : (Entry.submitted loc fd file ok).ask h.given = some a) :
    h.Takes (h.fill loc).1 (if a.must then a.units else []) ∧ (h.fill loc).2.map classOf = a.units ∧
      (h.fill loc).1.alive = h.alive ∧ a.kept = ok := by
  unfold Entry.ask at hask
  dsimp only at hask
  split_ifs at hask with hnone
  rw [Bool.or_eq_true, not_or] at hnone
  obtain rfl := Option.some.inj hask
  have hdrawn : loc.drawn = loc.buffers := by
    refine OpLocal.drawn_eq ?_
    rintro sid buf off rfl
    exact absurd rfl hnone.2
  unfold Hand.fill
  rw [if_neg hnone.1]
  split
  · exact absurd rfl hnone.2
  · rw [hdrawn]
    cases loc.spared with
    | true =>
      exact ⟨⟨[.attempt (loc.buffers.map classOf) true], by simp [attempt], by simp⟩, rfl, rfl, rfl⟩
    | false => exact ⟨⟨[], by simp [alloc], by simp⟩, rfl, rfl, rfl⟩

/-- An accepted op keeps the buffers of its local. -/
theorem submit_alive (h : Hand) (loc : OpLocal) (ok : Bool) :
    (h.submit loc ok).alive.Perm
      ((if ok then (h.fill loc).2.map classOf else []) ++ (h.fill loc).1.alive) := by
  unfold Hand.submit
  generalize h.fill loc = f
  obtain ⟨h', sizes⟩ := f
  cases ok with
  | true =>
    have hsnd : (sizes.map fun n => (h'.nextOp, n)).map (·.2) = sizes := by
      rw [List.map_map]
      exact List.map_id _
    simp only [if_true, alive, List.map_append, hsnd, List.append_assoc]
    rw [← List.append_assoc, ← List.append_assoc (List.map classOf sizes)]
    exact List.perm_append_comm.append_right _
  | false => exact .refl _

theorem submit_takes {ks : List (Option ℕ)} (ht : h.Takes (h.fill loc).1 ks) (ok : Bool) :
    h.Takes (h.submit loc ok) ks := by
  unfold Hand.submit
  generalize h.fill loc = f at ht ⊢
  obtain ⟨h', sizes⟩ := f
  cases ok with
  | true => exact ht
  | false => exact ht.drop sizes

/-- The callback so far has drawn what it had to, and holds no more than `now`. -/
structure Within (out : List (Option ℕ)) (h : Hand) (now : List (Option ℕ)) : Prop where
  sound : h.Sound out []
  affords : Affords slots out h.draws
  alive : h.alive.Subperm now

theorem Within.takes {h' : Hand} {ks : List (Option ℕ)} (hw : h.Within out now)
    (ht : h.Takes h' ks) (hfit : (Ask.mk ks true true).Fits slots now) :
    Affords slots out h'.draws := by
  obtain ⟨ds, hd, hno⟩ := ht
  rw [hd]
  exact (Leaves.affords_takes hw.sound hw.affords (hfit.anti hw.alive rfl)).append hno

/-- What an entry asks for is there when it fits beside what is out. -/
theorem Within.note (hw : h.Within out now) (hfit : ∀ a ∈ e.ask h.given, a.Fits slots now) :
    (h.note e).Within out ((e.ask h.given).elim now (·.after now)) := by
  cases e with
  | submitted loc fd file ok =>
    cases hask : (Entry.submitted loc fd file ok).ask h.given with
    | none =>
      obtain ⟨ht, hle⟩ := fill_of_none hask
      refine ⟨hw.sound.note _, hw.takes (submit_takes ht ok) (by simp [Ask.Fits]), ?_⟩
      refine (h.submit_alive loc ok).subperm.trans (List.Subperm.trans ?_ (hle.trans hw.alive))
      split_ifs
      · exact .refl _
      · exact (List.sublist_append_right _ _).subperm
    | some a =>
      obtain ⟨ht, hunits, halive, hkept⟩ := fill_of_some hask
      refine ⟨hw.sound.note _, hw.takes (submit_takes ht ok) fun _ k hk => ?_, ?_⟩
      · split_ifs at hk ⊢ with hmust
        · exact hfit a hask hmust k hk
        · cases hk
      · refine (h.submit_alive loc ok).subperm.trans ?_
        rw [hunits, halive]
        change List.Subperm _ (a.after now)
        rw [Ask.after, hkept]
        split_ifs
        · exact (List.subperm_append_left a.units).mpr hw.alive
        · exact hw.alive
  | starved loc => exact ⟨hw.sound.note _, hw.affords.append (by simp), hw.alive⟩
  | _ => exact hw

theorem Within.notes (hw : h.Within out now) (hadm : Admits slots now (asksIn h.given tr)) :
    Affords slots out (tr.foldl Hand.note h).draws := by
  induction tr generalizing h now with
  | nil => exact hw.affords
  | cons e tr ih =>
    have hgiven := h.given_note e
    cases hask : e.ask h.given with
    | none =>
      have hnote := hw.note (e := e) (by simp [hask])
      rw [hask] at hnote
      refine ih hnote ?_
      rwa [hgiven, asksIn, ← List.filterMap_cons_none hask]
    | some a =>
      rw [asksIn, List.filterMap_cons_some hask] at hadm
      have hnote := hw.note (e := e) fun b hb => by
        obtain rfl := Option.some.inj (hask.symm.trans hb)
        exact hadm.1
      rw [hask] at hnote
      refine ih hnote ?_
      rw [hgiven]
      exact hadm.2

end Hand

end Conrt.Daemon
