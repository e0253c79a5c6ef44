import Conrt.Base.Serial
import Conrt.Daemon.Origins

/-! What of a session's stdin frames reaches the container, and in which order. -/
namespace Conrt.Daemon

open Conrt.Base

variable {τ : Terms} {h h' : List Token} {w w' w₀ : World} {codec : Codec} {answers : List Answer}
  {sid : ℕ} {sess : AttachSession} {tr tr' es : List Entry} {e : Entry} {loc : OpLocal}
  {fd : Option Handle} {want id : ℕ} {ok : Bool} {op : InFlight} {r : Result}

def StdinFailed (sid : ℕ) (tr : List Entry) : Prop :=
  (∃ loc, loc.stdinOf = some sid ∧ .failed loc ∈ tr) ∨ StdinRefused sid tr

/-- What is accepted is a prefix of what was offered, and the stdin is closed for the session only when
all of it has been accepted, or a write has failed. -/
def StdinOrder (sid : ℕ) (before : List Entry) (e : Entry) : Prop :=
  accepted sid (before ++ [e]) <+: (offered sid (before ++ [e])).flatten ∧
    ∀ d, e = .stdinClosed sid d → StdinClear sid before ∨ StdinFailed sid before

private theorem accepted_of_order (hx : Always (StdinOrder sid) tr) :
    accepted sid tr <+: (offered sid tr).flatten := by
  cases tr using List.reverseRecOn with
  | nil => exact List.prefix_rfl
  | append_singleton tr e => exact (Always.concat_iff.mp hx).2.1

def Entry.ofStdin (sid : ℕ) : Entry → Bool
  | .offered s _ _ | .stdinClosed s _ => s = sid
  | .wrote loc _ _ => loc.stdinOf = some sid
  | _ => false

theorem StdinFailed.mono (hf : StdinFailed sid tr) (hsub : tr ⊆ tr') : StdinFailed sid tr' := by
  rcases hf with ⟨loc, hloc, hmem⟩ | ⟨loc, fd, file, hloc, hmem⟩
  · exact .inl ⟨loc, hloc, hsub hmem⟩
  · exact .inr ⟨loc, fd, file, hloc, hsub hmem⟩

theorem offered_silent (he : e.ofStdin sid = false) : offered sid (tr ++ [e]) = offered sid tr := by
  rw [offered_append]
  cases e with
  | offered s stdin payload =>
    have hne : s ≠ sid := by simpa [Entry.ofStdin] using he
    simp [offered, hne]
  | _ => exact List.append_nil _

/-- A frame is offered, with the file it is meant for. -/
theorem offered_concat {stdin : Option Handle} {payload : Bytes} :
    offered sid (tr ++ [.offered sid stdin payload]) =
      offered sid tr ++ [payload.map (stdin.map Prod.snd, ·)] := by
  rw [offered_append]
  simp [offered]

theorem accepted_silent (he : e.ofStdin sid = false) : accepted sid (tr ++ [e]) = accepted sid tr := by
  rw [accepted_append]
  cases e with
  | wrote loc f b =>
    have hne : loc.stdinOf ≠ some sid := by simpa [Entry.ofStdin] using he
    cases loc with
    | sessionStdin s buf off =>
      have hs : s ≠ sid := fun hs => hne (congrArg some hs)
      simp [accepted, hs]
    | _ => exact List.append_nil _
  | _ => exact List.append_nil _

theorem quiet_stdin (hq : Quiet (Entry.ofStdin sid) tr tr') :
    offered sid tr' = offered sid tr ∧ accepted sid tr' = accepted sid tr :=
  ⟨hq.eq fun _ _ he => offered_silent he, hq.eq fun _ _ he => accepted_silent he⟩

theorem quiet_history (hq : Quiet (Entry.ofStdin sid) tr tr')
    (hp : accepted sid tr <+: (offered sid tr).flatten) (hh : Always (StdinOrder sid) tr) :
    Always (StdinOrder sid) tr' := by
  have hboth := hq.keeps (I := fun tr => Always (StdinOrder sid) tr ∧
    accepted sid tr <+: (offered sid tr).flatten) (fun before e he hx => ?_) ⟨hh, hp⟩
  · exact hboth.1
  have hp' : accepted sid (before ++ [e]) <+: (offered sid (before ++ [e])).flatten := by
    rw [offered_silent he, accepted_silent he]
    exact hx.2
  refine ⟨Always.concat_iff.mpr ⟨hx.1, hp', fun d hd => ?_⟩, hp'⟩
  rw [hd] at he
  simp [Entry.ofStdin] at he

/-- What a stdin write has left, each byte with the file it is for. -/
def InFlight.stdinLeft (op : InFlight) : List (Option File × UInt8) :=
  match op.fd with
  | some d => op.unsent.map (some d.2, ·)
  | none => []

namespace World

def stdinOps (w : World) (sid : ℕ) : List InFlight := w.opsWhere fun loc => loc.stdinOf = some sid

def stdinLeft (w : World) (sid : ℕ) : List (List (Option File × UInt8)) :=
  (w.stdinOps sid).map InFlight.stdinLeft

theorem mem_stdinOps : op ∈ w.stdinOps sid ↔ op ∈ w.ops ∧ op.loc.stdinOf = some sid :=
  mem_opsWhere.trans (and_congr_right' (by simp))

theorem stdinOps_submitOther (hloc : loc.stdinOf ≠ some sid) :
    (w.submit loc fd want ok).stdinOps sid = w.stdinOps sid := opsWhere_submitOther (by simpa using hloc)

theorem stdinOps_beginFrame {stream : Fd .stream} {frame : Frame} (hloc : loc.stdinOf ≠ some sid) :
    (w.beginFrame stream frame loc want ok).stdinOps sid = w.stdinOps sid :=
  opsWhere_beginFrame.trans (stdinOps_submitOther hloc)

end World

/-- A write of stdin that is not to go on has nothing left. -/
theorem stdinLeft_eq_nil {n : ℕ} (hloc : op.loc.stdinOf = some sid) (hr : op.result = some (.count n))
    (hstop : op.loc.continues (.count n) = false) : op.stdinLeft = [] := by
  have hunsent : op.unsent = [] := by
    unfold InFlight.unsent
    rw [hr]
    cases hl : op.loc with
    | sessionStdin s buf off =>
      rw [hl] at hstop
      have hle : buf.length ≤ off + n := by simpa [OpLocal.continues] using hstop
      exact List.drop_eq_nil_of_le hle
    | _ =>
      rw [hl] at hloc
      cases hloc
  unfold InFlight.stdinLeft
  rw [hunsent]
  cases op.fd <;> rfl

/-- What is left is what is submitted next, to the stdin that the session has by now. -/
theorem Resumes.stdinRest {stdinFd : ℕ → Option Handle} {n : ℕ} {loc' : OpLocal}
    (hr : Resumes stdinFd n loc loc' fd) (hloc : loc.stdinOf = some sid) :
    loc'.unsent 0 = loc.unsent n ∧ loc.unsent n ≠ [] ∧ fd = stdinFd sid := by
  cases hr with
  | @stdin s buf off hlt =>
    obtain rfl := Option.some.inj hloc
    refine ⟨rfl, fun hnil => ?_, rfl⟩
    have hle := List.drop_eq_nil_iff.mp hnil
    omega
  | _ => cases hloc

/-- What was offered and has not been accepted is with a write in flight, unless a write has failed,
something was offered to no stdin, or the session is gone. -/
def World.Whole (w : World) (sid : ℕ) : Prop :=
  (offered sid w.trace).flatten.length =
      (accepted sid w.trace).length + (w.stdinLeft sid).flatten.length ∨
    StdinFailed sid w.trace ∨ (∃ payload, .offered sid none payload ∈ w.trace) ∨
      sid < w.g.nextSessionId ∧ w.g.attachSessions.lookup sid = none

/-- The frames of a session's stdin are written one after the other, each to the stdin that the session
has. -/
structure StdinFlow (w : World) (sid : ℕ) : Prop where
  serial : Serial (offered sid w.trace) (accepted sid w.trace) (w.stdinLeft sid)
  known : ∀ op ∈ w.stdinOps sid, sid < w.g.nextSessionId
  aimed : ∀ op ∈ w.stdinOps sid, op.unsent ≠ [] → ∀ sess,
    w.g.attachSessions.lookup sid = some sess → op.fd = sess.stdinFd
  ended : ∀ op ∈ w.stdinOps sid, ∀ r, op.result = some r →
    (∃ n, r = .count n) ∨ StdinFailed sid w.trace
  whole : w.Whole sid
  history : Always (StdinOrder sid) w.trace

namespace StdinFlow

theorem init : StdinFlow .init sid where
  serial := .init
  known := by
    intro op hop
    cases hop
  aimed := by
    intro op hop
    cases hop
  ended := by
    intro op hop
    cases hop
  whole := .inl rfl
  history := .nil

/-- Nothing is offered or accepted; the session may get another stdin while no write is in flight. -/
theorem congr (hx : StdinFlow w sid) (hops : w'.stdinOps sid = w.stdinOps sid)
    (hnext : w.g.nextSessionId ≤ w'.g.nextSessionId)
    (hs : ∀ sess', w'.g.attachSessions.lookup sid = some sess' → w.StdinIdle sid ∨
      ∃ sess, w.g.attachSessions.lookup sid = some sess ∧ sess.stdinFd = sess'.stdinFd)
    (hgone : sid < w.g.nextSessionId → w.g.attachSessions.lookup sid = none →
      w'.g.attachSessions.lookup sid = none)
    (hoff : offered sid w'.trace = offered sid w.trace)
    (hacc : accepted sid w'.trace = accepted sid w.trace) (hsub : w.trace ⊆ w'.trace)
    (hhist : Always (StdinOrder sid) w'.trace) : StdinFlow w' sid := by
  have hleft : w'.stdinLeft sid = w.stdinLeft sid := congrArg _ hops
  constructor
  · rw [hoff, hacc, hleft]
    exact hx.serial
  · rw [hops]
    intro op hop
    have hlt := hx.known op hop
    omega
  · rw [hops]
    intro op hop hne sess' hs'
    rcases hs sess' hs' with hidle | ⟨sess, hsess, heq⟩
    · obtain ⟨hmem, hloc⟩ := World.mem_stdinOps.mp hop
      exact (hne (hidle op hmem hloc)).elim
    · rw [← heq]
      exact hx.aimed op hop hne sess hsess
  · rw [hops]
    intro op hop r hr
    rcases hx.ended op hop r hr with hcount | hfailed
    · exact .inl hcount
    · exact .inr (hfailed.mono hsub)
  · rcases hx.whole with heq | hfailed | ⟨payload, hmem⟩ | ⟨hlt, hnone⟩
    · left
      rw [hoff, hacc, hleft]
      exact heq
    · exact .inr (.inl (hfailed.mono hsub))
    · exact .inr (.inr (.inl ⟨payload, hsub hmem⟩))
    · exact .inr (.inr (.inr ⟨by omega, hgone hlt hnone⟩))
  · exact hhist

theorem plain (hx : StdinFlow w sid) (hops : w'.stdinOps sid = w.stdinOps sid)
    (hnext : w.g.nextSessionId ≤ w'.g.nextSessionId)
    (hs : ∀ sess', w'.g.attachSessions.lookup sid = some sess' → w.StdinIdle sid ∨
      ∃ sess, w.g.attachSessions.lookup sid = some sess ∧ sess.stdinFd = sess'.stdinFd)
    (hgone : sid < w.g.nextSessionId → w.g.attachSessions.lookup sid = none →
      w'.g.attachSessions.lookup sid = none)
    (htr : Quiet (Entry.ofStdin sid) w.trace w'.trace) : StdinFlow w' sid := by
  obtain ⟨hoff, hacc⟩ := quiet_stdin htr
  exact hx.congr hops hnext hs hgone hoff hacc htr.subset
    (quiet_history htr hx.serial.prefix_started hx.history)

/-- The sessions are the same ones. -/
theorem same (hx : StdinFlow w sid) (hops : w'.stdinOps sid = w.stdinOps sid) (hg : w'.g = w.g)
    (htr : Quiet (Entry.ofStdin sid) w.trace w'.trace) : StdinFlow w' sid := by
  refine hx.plain hops (by rw [hg]) (fun sess' hs' => .inr ⟨sess', ?_, rfl⟩) (fun _ hnone => ?_) htr
  · rw [← hg]
    exact hs'
  · rw [hg]
    exact hnone

/-- A change of one session that leaves its stdin alone. -/
theorem modifySession {s : ℕ} {u : AttachSession → AttachSession} (hx : StdinFlow w sid)
    (hu : ∀ sess, s = sid → w.StdinIdle sid ∨ (u sess).stdinFd = sess.stdinFd) :
    StdinFlow (w.modifySession s u) sid := by
  refine hx.plain rfl le_rfl (fun sess' hs' => ?_) (fun _ hnone => ?_) quiet_refl
  · have hl : (w.g.attachSessions.update s u).lookup sid = some sess' := hs'
    rw [Table.lookup_update_ite] at hl
    split_ifs at hl with hsid
    · obtain ⟨sess, hsess, rfl⟩ := Option.map_eq_some_iff.mp hl
      rcases hu sess hsid.symm with hidle | heq
      · exact .inl hidle
      · exact .inr ⟨sess, hsid ▸ hsess, heq.symm⟩
    · exact .inr ⟨sess', hl, rfl⟩
  · change (w.g.attachSessions.update s u).lookup sid = none
    rw [Table.lookup_update_ite]
    split_ifs with hsid
    · rw [← hsid, hnone]
      rfl
    · exact hnone

/-- A client connects. -/
theorem connect {stream : Fd .stream} (hx : StdinFlow w sid) : StdinFlow { w with
    g.nextSessionId := w.g.nextSessionId + 1
    g.attachSessions := w.g.attachSessions.insert w.g.nextSessionId (.new stream) } sid := by
  have hlook : ∀ s, (w.g.attachSessions.insert w.g.nextSessionId (.new stream)).lookup s =
      if s = w.g.nextSessionId then some (.new stream) else w.g.attachSessions.lookup s :=
    fun s => Table.lookup_insert_ite
  refine hx.plain rfl (Nat.le_succ _) (fun sess' hs' => ?_) (fun hlt hnone => ?_) quiet_refl
  · by_cases hsid : sid = w.g.nextSessionId
    · left
      intro op hop hloc
      have hlt := hx.known op (World.mem_stdinOps.mpr ⟨hop, hloc⟩)
      omega
    · right
      have hs'' := (hlook sid).symm.trans hs'
      rw [if_neg hsid] at hs''
      exact ⟨sess', hs'', rfl⟩
  · refine (hlook sid).trans ?_
    rw [if_neg (by omega)]
    exact hnone

/-- The session is closed. -/
theorem close {s : ℕ} (hx : StdinFlow w sid) : StdinFlow (w.dropSession s) sid := by
  have hlook : ∀ t, (w.dropSession s).g.attachSessions.lookup t =
      if t = s then none else w.g.attachSessions.lookup t := fun t => Table.lookup_erase_ite
  refine hx.plain rfl le_rfl (fun sess' hs' => .inr ⟨sess', ?_, rfl⟩) (fun _ hnone => ?_)
    (by simp [Entry.ofStdin])
  · rw [hlook] at hs'
    split_ifs at hs'
    exact hs'
  · rw [hlook, hnone]
    exact ite_self none

theorem reap {pid : Pid} {exitCode : ℤ} {told : Option ℕ} (hx : StdinFlow w sid) :
    StdinFlow (w.reap pid exitCode told) sid := by
  have hx₁ : StdinFlow ({ w with children := w.children.erase pid }.note (.reaped pid exitCode)) sid :=
    hx.same rfl rfl (by simp [Entry.ofStdin])
  cases told with
  | none => exact hx₁
  | some s => exact hx₁.modifySession fun _ _ => .inr rfl

/-- A frame comes in for no stdin. -/
theorem ignore {payload : Bytes} (hx : StdinFlow w sid) :
    StdinFlow (w.note (.offered sid none payload)) sid := by
  have hacc : accepted sid (w.note (.offered sid none payload)).trace = accepted sid w.trace := by
    rw [World.trace_note, accepted_append]
    exact List.append_nil _
  have hserial : Serial (offered sid (w.note (.offered sid none payload)).trace)
      (accepted sid (w.note (.offered sid none payload)).trace) (w.stdinLeft sid) := by
    rw [hacc, World.trace_note, offered_concat]
    exact hx.serial.giveUp
  constructor
  · exact hserial
  · exact hx.known
  · exact hx.aimed
  · intro op hop r hr
    rcases hx.ended op hop r hr with hcount | hfailed
    · exact .inl hcount
    · exact .inr (hfailed.mono (List.subset_append_left _ _))
  · exact .inr (.inr (.inl ⟨payload, by simp⟩))
  · refine Always.concat_iff.mpr ⟨hx.history, hserial.prefix_started, fun d hd => ?_⟩
    cases hd

/-- A frame comes in, and its write is submitted. -/
theorem offer {d : Handle} {payload : Bytes} (hx : StdinFlow w sid) (hclear : StdinClear sid w.trace)
    (hlt : sid < w.g.nextSessionId) (hfd : w.stdinFd sid = some d) :
    StdinFlow ((w.note (.offered sid (some d) payload)).submit (.sessionStdin sid payload 0) (some d)
      want ok) sid := by
  let w₁ := w.note (.offered sid (some d) payload)
  let w₂ := w₁.submit (.sessionStdin sid payload 0) (some d) want ok
  have hoff₁ : offered sid w₁.trace = offered sid w.trace ++ [payload.map (some d.2, ·)] :=
    offered_concat
  have hacc₁ : accepted sid w₁.trace = accepted sid w.trace := by
    rw [World.trace_note, accepted_append]
    exact List.append_nil _
  have hprefix₁ : accepted sid w₁.trace <+: (offered sid w₁.trace).flatten := by
    rw [hoff₁, hacc₁, List.flatten_append]
    exact hx.serial.prefix_started.trans (List.prefix_append _ _)
  have hhist₁ : Always (StdinOrder sid) w₁.trace := by
    refine Always.concat_iff.mpr ⟨hx.history, hprefix₁, fun d hd => ?_⟩
    cases hd
  have hsilent : Quiet (Entry.ofStdin sid) w₁.trace w₂.trace := by
    change Quiet (Entry.ofStdin sid) w₁.trace (w₁.trace ++ _)
    simp [Entry.ofStdin]
  obtain ⟨hoff₂, hacc₂⟩ := quiet_stdin hsilent
  have hsub : w.trace ⊆ w₂.trace := fun e he => hsilent.subset (List.mem_append_left _ he)
  have hops : w₂.stdinOps sid = w.stdinOps sid ++
      if ok = true then [⟨w.nextOp, .sessionStdin sid payload 0, some d, want, none⟩]
      else [] := by
    cases ok with
    | true => exact World.opsWhere_submit (by simp [OpLocal.stdinOf])
    | false => exact (List.append_nil _).symm
  have hmem : ∀ op ∈ w₂.stdinOps sid, op ∈ w.stdinOps sid ∨ op.fd = some d ∧ op.result = none := by
    intro op hop
    rw [hops] at hop
    rcases List.mem_append.mp hop with hold | hnew
    · exact .inl hold
    · split_ifs at hnew with hok
      · rw [List.mem_singleton.mp hnew]
        exact .inr ⟨rfl, rfl⟩
      · cases hnew
  have hserial : Serial (offered sid w₂.trace) (accepted sid w₂.trace) (w₂.stdinLeft sid) := by
    unfold World.stdinLeft
    rw [hoff₂, hacc₂, hoff₁, hacc₁, hops]
    cases ok with
    | true =>
      rw [if_pos rfl, List.map_append]
      exact (hx.serial.start hclear).perm (List.perm_append_singleton _ _)
    | false =>
      rw [if_neg Bool.false_ne_true, List.append_nil]
      exact hx.serial.giveUp
  have haimed : ∀ sess, w.g.attachSessions.lookup sid = some sess → sess.stdinFd = some d := by
    intro sess hs
    have hbind : (w.g.attachSessions.lookup sid).bind AttachSession.stdinFd = some d := hfd
    rw [hs] at hbind
    exact hbind
  constructor
  · exact hserial
  · exact fun _ _ => hlt
  · intro op hop hne sess hs
    rcases hmem op hop with hold | ⟨hd, -⟩
    · exact hx.aimed op hold hne sess hs
    · rw [hd, haimed sess hs]
  · intro op hop r hr
    rcases hmem op hop with hold | ⟨-, hnone⟩
    · rcases hx.ended op hold r hr with hcount | hfailed
      · exact .inl hcount
      · exact .inr (hfailed.mono hsub)
    · rw [hnone] at hr
      cases hr
  · rcases hx.whole with heq | hfailed | ⟨payload, hoffered⟩ | ⟨hlt, hnone⟩
    · cases ok with
      | true =>
        left
        unfold World.stdinLeft at heq ⊢
        rw [hoff₂, hacc₂, hoff₁, hacc₁, hops, if_pos rfl]
        simp only [List.flatten_append, List.length_append, List.map_append, heq]
        simp [InFlight.stdinLeft, InFlight.unsent, OpLocal.unsent, taken]
        omega
      | false =>
        refine .inr (.inl (.inr ⟨.sessionStdin sid payload 0, some d, w₁.file (some d), rfl, ?_⟩))
        exact List.mem_append_right _ (List.mem_singleton.mpr rfl)
    · exact .inr (.inl (hfailed.mono hsub))
    · exact .inr (.inr (.inl ⟨payload, hsub hoffered⟩))
    · exact .inr (.inr (.inr ⟨hlt, hnone⟩))
  · exact quiet_history hsilent hprefix₁ hhist₁

/-- A stdin write of the session leaves: it has written all it had, or it has failed, or its rest has
been refused. -/
theorem takeOp (hx : StdinFlow w sid) (hop : w.findOp id = some op) (hr : op.result = some r)
    (hrefused : op.loc.stdinOf = some sid → op.loc.continues r = true → StdinRefused sid w.trace) :
    StdinFlow (w.takeOp id) sid := by
  by_cases hloc : op.loc.stdinOf = some sid
  · have hperm : (w.stdinOps sid).Perm (op :: (w.takeOp id).stdinOps sid) :=
      World.opsWhere_taken hop (by simpa using hloc)
    have hold : ∀ o ∈ (w.takeOp id).stdinOps sid, o ∈ w.stdinOps sid := fun o ho =>
      hperm.mem_iff.mpr (List.mem_cons_of_mem op ho)
    have hmem : op ∈ w.stdinOps sid := hperm.mem_iff.mpr List.mem_cons_self
    have hleft : (w.stdinLeft sid).Perm (op.stdinLeft :: (w.takeOp id).stdinLeft sid) :=
      hperm.map InFlight.stdinLeft
    constructor
    · exact (hx.serial.perm hleft.symm).drop
    · exact fun o ho => hx.known o (hold o ho)
    · exact fun o ho => hx.aimed o (hold o ho)
    · exact fun o ho => hx.ended o (hold o ho)
    · rcases hx.whole with heq | hrest
      · rcases hx.ended op hmem r hr with ⟨n, rfl⟩ | hfailed
        · by_cases hcont : op.loc.continues (.count n) = true
          · exact .inr (.inl (.inr (hrefused hloc hcont)))
          · left
            have hnil := stdinLeft_eq_nil hloc hr (by simpa using hcont)
            rw [hleft.flatten.length_eq, List.flatten_cons, hnil] at heq
            exact heq
        · exact .inr (.inl hfailed)
      · exact .inr hrest
    · exact hx.history
  · exact hx.same (World.opsWhere_takeOther hop (by simpa using hloc)) rfl quiet_refl

/-- The rest of a short write goes where the write went, or nowhere when the session is gone. -/
theorem rest {n : ℕ} (hx : StdinFlow w sid) (i want : ℕ) (hmem : op ∈ w.stdinOps sid)
    (hr : op.result = some (.count n)) (hres : Resumes w.stdinFd n op.loc loc fd) :
    w.g.attachSessions.lookup sid = none ∧ (InFlight.mk i loc fd want none).stdinLeft = [] ∨
      (InFlight.mk i loc fd want none).stdinLeft = op.stdinLeft := by
  have hloc := (World.mem_stdinOps.mp hmem).2
  obtain ⟨hnext, hne, hfd⟩ := hres.stdinRest hloc
  have hop : op.unsent = op.loc.unsent n := by
    unfold InFlight.unsent
    rw [hr]
    rfl
  have hstdin : w.stdinFd sid = (w.g.attachSessions.lookup sid).bind AttachSession.stdinFd := rfl
  cases hs : w.g.attachSessions.lookup sid with
  | none =>
    left
    have hnone : fd = none := by
      rw [hfd, hstdin, hs]
      rfl
    refine ⟨rfl, ?_⟩
    rw [hnone]
    rfl
  | some sess =>
    right
    have haim : op.fd = sess.stdinFd := hx.aimed op hmem (by rw [hop]; exact hne) sess hs
    have hfds : fd = op.fd := by
      rw [haim, hfd, hstdin, hs]
      rfl
    unfold InFlight.stdinLeft
    rw [hop, ← hnext, hfds]
    rfl

/-- The rest of a short write is submitted. -/
theorem resume {n : ℕ} (hx : StdinFlow w sid) (hop : w.findOp id = some op)
    (hr : op.result = some (.count n)) (hres : Resumes w.stdinFd n op.loc loc fd) :
    StdinFlow ((w.takeOp id).submit loc fd want true) sid := by
  have hsame : loc.stdinOf = op.loc.stdinOf := stdinOf_of_resumes hres
  have hsilent : Quiet (Entry.ofStdin sid) w.trace ((w.takeOp id).submit loc fd want true).trace := by
    rw [World.trace_submit]
    simp [Entry.ofStdin]
  by_cases hloc : op.loc.stdinOf = some sid
  · obtain ⟨hoff, hacc⟩ := quiet_stdin hsilent
    have hperm : (w.stdinOps sid).Perm (op :: (w.takeOp id).stdinOps sid) :=
      World.opsWhere_taken hop (by simpa using hloc)
    have hmem : op ∈ w.stdinOps sid := hperm.mem_iff.mpr List.mem_cons_self
    have hleft : (w.stdinLeft sid).Perm (op.stdinLeft :: (w.takeOp id).stdinLeft sid) :=
      hperm.map InFlight.stdinLeft
    have hgoes := hx.rest w.nextOp want hmem hr hres
    obtain ⟨new, hnewop⟩ : ∃ new : InFlight, new = ⟨w.nextOp, loc, fd, want, none⟩ := ⟨_, rfl⟩
    rw [← hnewop] at hgoes
    have hops : ((w.takeOp id).submit loc fd want true).stdinOps sid =
        (w.takeOp id).stdinOps sid ++ [new] := by
      rw [hnewop]
      exact World.opsWhere_submit (by simpa [hsame] using hloc)
    have hlefts : ((w.takeOp id).submit loc fd want true).stdinLeft sid =
        (w.takeOp id).stdinLeft sid ++ [new.stdinLeft] := by
      unfold World.stdinLeft
      rw [hops, List.map_append]
      rfl
    have hcases : ∀ o ∈ ((w.takeOp id).submit loc fd want true).stdinOps sid,
        o ∈ w.stdinOps sid ∨ o = new := by
      intro o ho
      rw [hops] at ho
      rcases List.mem_append.mp ho with hold | hlast
      · exact .inl (hperm.mem_iff.mpr (List.mem_cons_of_mem op hold))
      · exact .inr (List.mem_singleton.mp hlast)
    constructor
    · rw [hoff, hacc, hlefts]
      apply Serial.perm _ (List.perm_append_singleton _ _)
      rcases hgoes with ⟨-, hnil⟩ | heq
      · rw [hnil]
        exact (hx.serial.perm hleft.symm).drop.idle
      · rw [heq]
        exact hx.serial.perm hleft.symm
    · exact fun _ _ => hx.known op hmem
    · intro o ho hne sess hs
      rcases hcases o ho with hold | rfl
      · exact hx.aimed o hold hne sess hs
      · have hs' : w.g.attachSessions.lookup sid = some sess := hs
        rw [hnewop]
        change fd = sess.stdinFd
        rw [(hres.stdinRest hloc).2.2]
        unfold World.stdinFd
        rw [hs']
        rfl
    · intro o ho res hres'
      rcases hcases o ho with hold | rfl
      · rcases hx.ended o hold res hres' with hcount | hfailed
        · exact .inl hcount
        · exact .inr (hfailed.mono hsilent.subset)
      · rw [hnewop] at hres'
        cases hres'
    · rcases hx.whole with heq | hfailed | ⟨payload, hmem'⟩ | hgone
      · rcases hgoes with ⟨hnone, -⟩ | hrest
        · exact .inr (.inr (.inr ⟨hx.known op hmem, hnone⟩))
        · left
          rw [hoff, hacc, hlefts, heq, hleft.flatten.length_eq]
          simp only [List.flatten_cons, List.flatten_append, List.flatten_nil, List.length_append, hrest,
            List.length_nil]
          omega
      · exact .inr (.inl (hfailed.mono hsilent.subset))
      · exact .inr (.inr (.inl ⟨payload, hsilent.subset hmem'⟩))
      · exact .inr (.inr (.inr hgone))
    · exact quiet_history hsilent hx.serial.prefix_started hx.history
  · refine hx.same ?_ rfl hsilent
    exact (World.stdinOps_submitOther (by rwa [hsame])).trans
      (World.opsWhere_takeOther hop (by simpa using hloc))

/-- What the kernel takes of a write is no longer left. -/
theorem sent {s : ℕ} {buf : Bytes} {off : ℕ} (hl : op.loc = .sessionStdin s buf off)
    (hown : ∀ f, w.reached op = some f → op.fd.map Prod.snd = some f) (hr : op.result = none)
    (hallows : w.allows op r = true) :
    ∃ b, accepted s (w.perform op r).trace = accepted s w.trace ++ b ∧
      op.stdinLeft = b ++ { op with result := some r }.stdinLeft ∧
        ((∃ n, r = .count n) ∨ .failed op.loc ∈ (w.perform op r).trace) := by
  rw [World.trace_perform, accepted_append]
  unfold InFlight.stdinLeft InFlight.unsent World.performed
  rw [hr]
  cases r with
  | count n =>
    obtain ⟨f, hfile⟩ : ∃ f, w.reached op = some f := by
      apply Option.isSome_iff_exists.mp
      simp only [World.allows, Bool.and_eq_true] at hallows
      exact hallows.1
    obtain ⟨d, hd, rfl⟩ := Option.map_eq_some_iff.mp (hown f hfile)
    refine ⟨((buf.drop off).take n).map (some d.2, ·), ?_, ?_, .inl ⟨n, rfl⟩⟩
    · simp only [hfile]
      split_ifs with hp
      · have hnil : buf.drop off = [] := by
          rw [hl] at hp
          exact hp
        rw [hnil]
        simp [accepted]
      · simp [accepted, hl, OpLocal.pending]
    · simp only [hd, hl, OpLocal.unsent, taken, ← List.map_append, ← List.drop_drop,
        List.take_append_drop, List.drop_zero]
  | failed e =>
    refine ⟨[], ?_, rfl, .inr (by simp)⟩
    simp [accepted]
  | _ => simp [World.allows, hl] at hallows

theorem offered_perform : offered sid (w.perform op r).trace = offered sid w.trace := by
  rcases w.trace_perform_cases op r with htr | ⟨e, htr, hout⟩
  · rw [htr]
  · rw [htr]
    cases e <;> first | exact hout.elim | simp [offered]

/-- The completion of another op says nothing about the session's stdin. -/
theorem ofStdin_performed (hloc : op.loc.stdinOf ≠ some sid) :
    ∀ e ∈ w.performed op r, e.ofStdin sid = false := by
  intro e he
  unfold World.performed at he
  split at he
  · rw [List.mem_singleton.mp he]
    simp [Entry.ofStdin]
  · split_ifs at he
    · cases he
    · rw [List.mem_singleton.mp he]
      simpa [Entry.ofStdin] using hloc
  · rw [List.mem_singleton.mp he]
    simp [Entry.ofStdin]
  · rw [List.mem_singleton.mp he]
    simp [Entry.ofStdin]
  · cases he

/-- The kernel completes a write. -/
theorem perform (hx : StdinFlow w sid) (hn : w.Numbered) (hop : w.findOp op.id = some op)
    (hr : op.result = none) (hallows : w.allows op r = true)
    (hown : ∀ f, w.reached op = some f → op.fd.map Prod.snd = some f) :
    StdinFlow (w.perform op r) sid := by
  have hg : (w.perform op r).g = w.g := World.g_perform
  have hsub : w.trace ⊆ (w.perform op r).trace := by
    rw [World.trace_perform]
    exact List.subset_append_left _ _
  by_cases hloc : op.loc.stdinOf = some sid
  · obtain ⟨s, buf, off, hl⟩ : ∃ s buf off, op.loc = .sessionStdin s buf off := by
      cases hl : op.loc <;> rw [hl] at hloc <;> first | exact ⟨_, _, _, rfl⟩ | cases hloc
    obtain rfl : s = sid := by
      rw [hl] at hloc
      exact Option.some.inj hloc
    obtain ⟨b, hacc, hb, hended⟩ := sent (w := w) hl hown hr hallows
    obtain ⟨rest, hperm, hperm'⟩ : ∃ rest, (w.stdinOps s).Perm (op :: rest) ∧
        ((w.perform op r).stdinOps s).Perm ({ op with result := some r } :: rest) :=
      World.opsWhere_perform hn hop (by simpa using hloc)
    have hmem : op ∈ w.stdinOps s := hperm.mem_iff.mpr List.mem_cons_self
    have hleft : (w.stdinLeft s).Perm (op.stdinLeft :: rest.map InFlight.stdinLeft) :=
      hperm.map InFlight.stdinLeft
    have hleft' : ((w.perform op r).stdinLeft s).Perm
        ({ op with result := some r }.stdinLeft :: rest.map InFlight.stdinLeft) :=
      hperm'.map InFlight.stdinLeft
    have hoff : offered s (w.perform op r).trace = offered s w.trace := offered_perform
    have hserial : Serial (offered s (w.perform op r).trace) (accepted s (w.perform op r).trace)
        ((w.perform op r).stdinLeft s) := by
      rw [hoff, hacc]
      apply Serial.perm _ hleft'
      have hs := hx.serial.perm hleft.symm
      rw [hb] at hs
      exact hs.send
    have hcases : ∀ o ∈ (w.perform op r).stdinOps s, o = { op with result := some r } ∨
        o ∈ w.stdinOps s := by
      intro o ho
      rcases List.mem_cons.mp (hperm'.mem_iff.mp ho) with heq | hrest
      · exact .inl heq
      · exact .inr (hperm.mem_iff.mpr (List.mem_cons_of_mem op hrest))
    constructor
    · exact hserial
    · rw [hg]
      exact fun _ _ => hx.known op hmem
    · rw [hg]
      intro o ho hne sess hs
      rcases hcases o ho with rfl | hold
      · refine hx.aimed op hmem (fun hnil => hne ?_) sess hs
        unfold InFlight.unsent at hnil ⊢
        rw [hr, hl] at hnil
        rw [hl]
        have hle : buf.length ≤ off := List.drop_eq_nil_iff.mp hnil
        exact List.drop_eq_nil_of_le (by omega)
      · exact hx.aimed o hold hne sess hs
    · intro o ho res hres
      rcases hcases o ho with rfl | hold
      · obtain rfl := Option.some.inj hres
        rcases hended with hcount | hfailed
        · exact .inl hcount
        · exact .inr (.inl ⟨op.loc, hloc, hfailed⟩)
      · rcases hx.ended o hold res hres with hcount | hfailed
        · exact .inl hcount
        · exact .inr (hfailed.mono hsub)
    · rcases hx.whole with heq | hfailed | ⟨payload, hmem'⟩ | hgone
      · left
        have hlen := hleft.flatten.length_eq
        rw [List.flatten_cons, List.length_append, hb, List.length_append] at hlen
        rw [hoff, hacc, heq, hlen, hleft'.flatten.length_eq, List.flatten_cons, List.length_append,
          List.length_append]
        omega
      · exact .inr (.inl (hfailed.mono hsub))
      · exact .inr (.inr (.inl ⟨payload, hsub hmem'⟩))
      · rw [World.Whole, hg]
        exact .inr (.inr (.inr hgone))
    · rcases w.trace_perform_cases op r with htr | ⟨e, htr, hout⟩
      · rw [htr]
        exact hx.history
      · have hp := hserial.prefix_started
        rw [htr] at hp ⊢
        refine Always.concat_iff.mpr ⟨hx.history, hp, fun d hd => ?_⟩
        rw [hd] at hout
        exact hout.elim
  · refine hx.same (World.opsWhere_performOther hn hop (by simpa using hloc)) hg ?_
    rw [World.trace_perform, quiet_append]
    exact ofStdin_performed hloc

/-- The session closes its own stdin, for which no write is in flight. -/
theorem eof {s : ℕ} {d : Handle} (hx : StdinFlow w sid)
    (hs : w.g.attachSessions.lookup s = some sess)
    (hidle : w.StdinIdle s ∧ ∀ payload, .offered s none payload ∉ w.trace) :
    StdinFlow ((w.modifySession s ({ · with ptmFd := none })).note (.stdinClosed s d)) sid := by
  by_cases hsid : s = sid
  · subst hsid
    obtain ⟨hidle, hno⟩ := hidle
    have hx₁ : StdinFlow (w.modifySession s ({ · with ptmFd := none })) s :=
      hx.modifySession fun _ _ => .inl hidle
    have hoff : offered s (w.trace ++ [.stdinClosed s d]) = offered s w.trace := by simp [offered]
    have hacc : accepted s (w.trace ++ [.stdinClosed s d]) = accepted s w.trace := by simp [accepted]
    have hdone : StdinClear s w.trace ∨ StdinFailed s w.trace := by
      rcases hx.whole with heq | hfailed | ⟨payload, hmem⟩ | ⟨-, hnone⟩
      · left
        have hnil : (w.stdinLeft s).flatten = [] := by
          rw [List.flatten_eq_nil_iff]
          intro l hl
          obtain ⟨op, hop, rfl⟩ := List.mem_map.mp hl
          obtain ⟨hmem, hloc⟩ := World.mem_stdinOps.mp hop
          unfold InFlight.stdinLeft
          rw [hidle op hmem hloc]
          cases op.fd <;> rfl
        unfold StdinClear
        rw [heq, hnil]
        exact le_rfl
      · exact .inr hfailed
      · exact (hno payload hmem).elim
      · rw [hs] at hnone
        cases hnone
    refine hx₁.congr rfl le_rfl (fun sess' hs' => .inr ⟨sess', hs', rfl⟩) (fun _ hnone => hnone) hoff hacc
      (List.subset_append_left _ _) (Always.concat_iff.mpr ⟨hx.history, ?_, fun _ _ => hdone⟩)
    change accepted s (w.trace ++ [_]) <+: (offered s (w.trace ++ [_])).flatten
    rw [hoff, hacc]
    exact hx.serial.prefix_started
  · have hx₁ : StdinFlow (w.modifySession s ({ · with ptmFd := none })) sid :=
      hx.modifySession fun _ hs => (hsid hs).elim
    exact hx₁.same rfl rfl (by simp [Entry.ofStdin, hsid])

end StdinFlow

theorem stdinOf_of_for {t : Token} (ht : t.For loc) : loc.stdinOf = none := by
  cases ht with
  | @drain kind => cases kind <;> rfl
  | @loop l loc hl => cases loc <;> first | rfl | cases hl
  | _ => rfl

theorem Move.stdinFlow (ho : τ.owned) (hc : τ.calm) (hm : Move τ (h, w) (h', w'))
    (hn : Named h w) (hx : StdinFlow w sid) : StdinFlow w' sid := by
  have hother : ∀ {loc : OpLocal} {fd : Option Handle} {want : ℕ} {ok : Bool}, loc.stdinOf = none →
      StdinFlow (w.submit loc fd want ok) sid := by
    intro loc fd want ok hloc
    refine hx.same (World.stdinOps_submitOther (by simp [hloc])) rfl ?_
    rw [World.trace_submit]
    simp [Entry.ofStdin]
  have hframe : ∀ {stream : Fd .stream} {frame : Frame} {loc : OpLocal} {want : ℕ} {ok : Bool}
      {w : World}, StdinFlow w sid → loc.stdinOf = none →
        StdinFlow (w.beginFrame stream frame loc want ok) sid := by
    intro stream frame loc want ok w hx hloc
    refine hx.same (World.stdinOps_beginFrame (by simp [hloc])) World.g_beginFrame ?_
    rw [World.trace_beginFrame]
    cases ok <;> simp [Entry.ofStdin]
  cases hm with
  | @note _ _ e he =>
    refine hx.same rfl rfl ?_
    cases e <;> first | exact he.elim | simp [Entry.ofStdin]
  | @refused _ _ loc =>
    refine hx.same World.opsWhere_refused rfl ?_
    rw [World.trace_submit]
    simp [Entry.ofStdin]
  | denied ht => exact hother (stdinOf_of_for ht)
  | read hr => exact hother (by cases ‹OpLocal› <;> first | rfl | cases hr)
  | output | passFd | follow => exact hother rfl
  | @rearm _ _ kind => exact hother (by cases kind <;> rfl)
  | relisten hloop => exact hother (by cases ‹OpLocal› <;> first | rfl | cases hloop)
  | resume hop hr hres => exact hx.resume hop hr hres
  | @retire _ _ id op r hop hr hrefused =>
    refine hx.takeOp hop hr fun hloc hcont => ?_
    have hloose : op.loc.loose = true := by
      cases hl : op.loc <;> rw [hl] at hloc <;> first | rfl | cases hloc
    obtain ⟨n, loc', fd, file, -, hres, hmem⟩ := hrefused hloose hcont
    exact ⟨loc', fd, file, (stdinOf_of_resumes hres).trans hloc, hmem⟩
  | respond | data => exact hframe hx rfl
  | finish =>
    apply hframe _ rfl
    exact hx.modifySession fun _ _ => .inr rfl
  | accept => exact hx.connect
  | close => exact hx.close
  | @storeOp _ _ s which => exact hx.modifySession fun _ _ => .inr (by cases which <;> rfl)
  | drained => exact hx.modifySession fun _ _ => .inr rfl
  | @adoptRun _ _ s sess pid ptm log hs htold hidle =>
    have hx₁ : StdinFlow (w.modifySession s
        ({ · with ptmFd := ptm, logReadFd := log, containerPid := pid })) sid :=
      hx.modifySession fun _ hsid => .inl (hsid ▸ hidle hc)
    exact hx₁.same rfl rfl (by simp [Entry.ofStdin])
  | @adoptAttach _ _ s sess pid info read write hs hi htold hidle =>
    have hx₁ : StdinFlow (w.attachPipe pid w.g.nextPipeId write) sid :=
      hx.plain rfl le_rfl (fun sess' hs' => .inr ⟨sess', hs', rfl⟩) (fun _ hnone => hnone)
        quiet_refl
    have hx₂ : StdinFlow ((w.attachPipe pid w.g.nextPipeId write).modifySession s
        ({ · with logReadFd := some read, inputFd := info.input, containerPid := pid })) sid :=
      hx₁.modifySession fun _ hsid => .inl (hsid ▸ hidle hc)
    exact hx₂.same rfl rfl (by simp [Entry.ofStdin])
  | @offer _ _ s want fd payload ok hfd hb hclear =>
    by_cases hsid : s = sid
    · subst hsid
      obtain ⟨sess, hs, -⟩ := Option.bind_eq_some_iff.mp hfd
      have hlt : s < w.g.nextSessionId :=
        hn.origins.streams.below s sess.streamFd (.inl (by rw [hs]; rfl))
      exact hx.offer (hclear hc) hlt hfd
    · refine hx.same (World.stdinOps_submitOther (by simp [OpLocal.stdinOf, hsid])) rfl ?_
      rw [World.trace_submit, World.trace_note, List.append_assoc]
      simp [Entry.ofStdin, hsid]
  | @ignore _ _ s payload =>
    by_cases hsid : s = sid
    · subst hsid
      exact hx.ignore
    · exact hx.same rfl rfl (by simp [Entry.ofStdin, hsid])
  | @eofOwn _ _ s sess fd hs hp hidle => exact hx.eof hs (hidle hc)
  | eofBorrowed hs hp hi hno => exact (hno ho).elim
  | reaped => exact hx.reap
  | @buryReaped _ _ pid exitCode told info =>
    have hx₁ : StdinFlow (w.reap pid exitCode told) sid := hx.reap
    exact hx₁.plain rfl le_rfl (fun sess' hs' => .inr ⟨sess', hs', rfl⟩) (fun _ hnone => hnone)
      (quiet_append.mpr (by simp [Entry.ofStdin]))
  | _ =>
    exact hx.plain rfl le_rfl (fun sess' hs' => .inr ⟨sess', hs', rfl⟩) (fun _ hnone => hnone)
      (by simp [Entry.ofStdin])

def Terms.flowing : Terms := { Terms.none with owned := True, live := True, calm := True }

/-- What the flow of a stdin relies on. -/
structure FlowStep (codec : Codec) (w : World) (op : InFlight) (r : Result) : Prop where
  naming : NamingStep w op r
  calm : CalmStep codec w op r

theorem flow_invariant : Invariant .flowing codec
    (fun w e => (Delivers (FlowStep codec) w e ∧ EntersOpen w e) ∧ w.Numbered)
      fun h w => Named h w ∧ ∀ sid, StdinFlow w sid where
  move hx hm :=
    ⟨hm.named trivial trivial hx.1, fun sid => hm.stdinFlow trivial trivial hx.1 (hx.2 sid)⟩
  enter hx hok :=
    ⟨hx.1.enter hok.2 hok.1.2, fun sid => (hx.2 sid).same rfl rfl quiet_refl⟩
  perform hx hop hr hallows hok :=
    ⟨hx.1.perform hok.2 hop hr hallows, fun sid => (hx.2 sid).perform hok.2 hop hr hallows
      (hx.1.own _ (List.mem_of_find?_eq_some hop))⟩
  fits _ hop hr hok :=
    { Fits.none with
      owned := fun _ => (hok.1.1 _ _ hop hr).naming.owned
      live := fun _ => (hok.1.1 _ _ hop hr).naming.live
      calm := fun _ => (hok.1.1 _ _ hop hr).calm }

/-- As long as stdin frames come in only when the earlier ones have been written, descriptors are named
that are still there, and none is closed while an op on it is queued, what each container's stdin
accepts for a session is a prefix of what the session has sent, and the stdin is closed only after all
of it. -/
theorem run_stdin (hb : booted answers = some w₀)
    (hr : Reaches (step codec) (fun w e => Delivers (FlowStep codec) w e ∧ EntersOpen w e) w₀ w) :
    ∀ sid, Always (StdinOrder sid) w.trace := by
  have hx := flow_invariant.reaches ⟨.init, fun _ => .init⟩ hb hr
  exact fun sid => (hx.2 sid).history

def heard (sid : ℕ) (tr : List Entry) : Bool :=
  tr.all fun
    | .offered s none _ => s ≠ sid
    | _ => true

theorem heard_iff : heard sid tr = true ↔ ∀ payload, .offered sid none payload ∉ tr := by
  unfold heard
  rw [List.all_eq_true]
  constructor
  · intro hall payload hmem
    simpa using hall _ hmem
  · intro hno e he
    split
    · rename_i s payload
      by_contra hs
      obtain rfl : s = sid := by simpa using hs
      exact hno payload he
    · rfl

instance : Decidable (StdinClear sid tr) := inferInstanceAs (Decidable (_ ≤ _))

instance : Decidable (w.StdinIdle sid) :=
  inferInstanceAs (Decidable (∀ op ∈ w.ops, op.loc.stdinOf = some sid → op.unsent = []))

/-- The frame that a step makes whole, if there is one, comes in at a calm moment. -/
def CalmFrame (codec : Codec) (w : World) (sid : ℕ) (f : Frame) : Prop :=
  (f.ty = 0x10 → f.payload ≠ [] → StdinClear sid w.trace) ∧
    (f.ty = 0x11 → (w.stdinFd sid).isSome = true → w.StdinIdle sid ∧ heard sid w.trace = true) ∧
      (codec.opens f = true → w.StdinIdle sid)

instance {f : Frame} : Decidable (CalmFrame codec w sid f) := inferInstanceAs (Decidable (_ ∧ _))

theorem calmStep_iff : (∀ x ∈ op.loc.frame r, CalmFrame codec w x.1 x.2) ↔ CalmStep codec w op r := by
  have hstdin : ∀ sid sess, w.g.attachSessions.lookup sid = some sess →
      w.stdinFd sid = sess.stdinFd := by
    intro sid sess hs
    unfold World.stdinFd
    rw [hs]
    rfl
  constructor
  · intro hall
    refine ⟨fun sid payload hf hne => (hall _ hf).1 rfl hne, fun sid payload sess hf hs hfd => ?_,
      fun sid f hf => (hall _ hf).2.2⟩
    have hsome : (w.stdinFd sid).isSome = true := by
      rw [hstdin sid sess hs]
      exact Option.isSome_iff_ne_none.mpr hfd
    obtain ⟨hidle, hheard⟩ := (hall _ hf).2.1 rfl hsome
    exact ⟨hidle, heard_iff.mp hheard⟩
  · intro hx x hf
    obtain ⟨sid, ty, payload⟩ := x
    refine ⟨fun hty hne => ?_, fun hty hsome => ?_, hx.asked sid ⟨ty, payload⟩ hf⟩
    · obtain rfl : ty = 0x10 := hty
      exact hx.data sid payload hf hne
    · obtain rfl : ty = 0x11 := hty
      obtain ⟨d, hd⟩ := Option.isSome_iff_exists.mp hsome
      obtain ⟨sess, hs, -⟩ := Option.bind_eq_some_iff.mp hd
      have hne : sess.stdinFd ≠ none := by
        rw [← hstdin sid sess hs, hd]
        exact Option.some_ne_none d
      obtain ⟨hidle, hno⟩ := hx.eof sid payload sess hf hs hne
      exact ⟨hidle, heard_iff.mpr hno⟩

theorem flowStep_iff : NamingStep w op r ∧ (∀ x ∈ op.loc.frame r, CalmFrame codec w x.1 x.2) ↔
    FlowStep codec w op r := by
  rw [calmStep_iff]
  exact ⟨fun hx => ⟨hx.1, hx.2⟩, fun hx => ⟨hx.naming, hx.calm⟩⟩

instance : Decidable (FlowStep codec w op r) := decidable_of_iff _ flowStep_iff

/-- A client runs a container on a terminal, sends it two bytes, which are taken one at a time, and
closes its stdin. -/
theorem run_stdin_in_parts : ∃ w₀ w, booted quietBoot = some w₀ ∧
    Reaches (step sampleCodec)
      (fun w e => Delivers (FlowStep sampleCodec) w e ∧ EntersOpen w e) w₀ w ∧
      (accepted 0 w.trace = [(some ⟨.pty, 6⟩, 65), (some ⟨.pty, 6⟩, 66)] ∧
        .stdinClosed 0 (12, ⟨.pty, 6⟩) ∈ w.trace) ∧ ∀ sid, Always (StdinOrder sid) w.trace := by
  obtain ⟨w₀, w, hb, hr, ht⟩ := exists_of_executes (step sampleCodec)
    (fun w e => Delivers (FlowStep sampleCodec) w e ∧ EntersOpen w e) (booted quietBoot)
    (connect 1 20 3 ++ clientFrame 3 5 0x00 [5] runAttached ++
      clientFrame 8 9 0x10 [65, 66] [.submit true, .submit true] ++
        turn 10 (.count 1) [.submit true] ++ turn 12 (.count 1) [] ++
          clientFrame 11 13 0x11 [0] [.submit true])
    (fun _ w => decide (accepted 0 w.trace = [(some ⟨.pty, 6⟩, 65), (some ⟨.pty, 6⟩, 66)] ∧
      .stdinClosed 0 (12, ⟨.pty, 6⟩) ∈ w.trace)) (by decide +kernel)
  exact ⟨w₀, w, hb, hr, of_decide_eq_true ht, run_stdin hb hr⟩

/-- A second frame comes in while the first is still being written: its byte gets between the two bytes
of the first. -/
theorem stdin_frames_overlap : ∃ w₀ w, booted quietBoot = some w₀ ∧
    Reaches (step sampleCodec) (fun _ _ => True) w₀ w ∧ ¬ Always (StdinOrder 0) w.trace := by
  obtain ⟨w₀, w, hb, hr, ht⟩ := exists_of_executes (step sampleCodec) (fun _ _ => True)
    (booted quietBoot)
    (connect 1 20 3 ++ clientFrame 3 5 0x00 [5] runAttached ++
      clientFrame 8 9 0x10 [65, 66] [.submit true, .submit true] ++
        clientFrame 11 12 0x10 [67] [.submit true, .submit true] ++
          turn 10 (.count 1) [.submit true] ++ [.perform 13 (.count 1)])
    (fun _ w => decide (¬ accepted 0 w.trace <+: (offered 0 w.trace).flatten)) (by decide +kernel)
  exact ⟨w₀, w, hb, hr, fun hx => of_decide_eq_true ht (accepted_of_order hx)⟩

end Conrt.Daemon