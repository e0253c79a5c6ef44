import Conrt.Daemon.Children
import Conrt.Daemon.RequestMarks

/-! What a client gets for a datagram: one reply, or the read end of a follow pipe. -/
namespace Conrt.Daemon

open Conrt.Base

variable {w w' : World} {codec : Codec} {answers as : List Answer} {sender : ℕ} {pid : Pid}
  {α β : Type} {k : FileKind} {b : Bytes}

/-- A reply, or a descriptor on its way to the client. -/
def Entry.isAnswer : Entry → Bool
  | .replied _ _ | .submitted (.followSend _) _ _ true => true
  | _ => false

def answersIn (tr : List Entry) : List Entry := tr.filter Entry.isAnswer

/-- The writes of a backlog of `n` bytes, each of what the ones before it left: the answers after
them, unless one fails. -/
def backlogWritten : ℕ → List Answer → Option (List Answer)
  | 0, as => some as
  | _ + 1, .write (.ok 0) :: as => some as
  | n + 1, .write (.ok (k + 1)) :: as => backlogWritten (n - k) as
  | _, _ => none

/-- There is memory for the message that carries the read end, and it is accepted for sending. -/
def readPassed : List Answer → Bool
  | .call (.ok _) :: .submit true :: _ => true
  | _ => false

/-- Unless the pipe cannot be made, the whole backlog is written and the read end is passed. -/
def followServed (backlog : Bytes) : List Answer → Bool
  | .call (.ok _) :: as => (backlogWritten backlog.length as).any readPassed
  | _ => true

/-- From `w` to `w'` the sender of the datagram `b` has got one answer: a reply, or the read end it
has asked for. A follow request that is not passed its read end gets an error, and nothing remains of
the pipe. -/
structure Answered (codec : Codec) (w w' : World) (b : Bytes) (sender : ℕ) : Prop where
  once : ∃ e, answersIn w'.trace = answersIn w.trace ++ [e] ∧
    ((∃ reply, e = .replied sender reply) ∨ (∃ pid, codec.request b = .ok (.logs pid true)) ∧
      ∃ read fd file, e = .submitted (.followSend read) fd file true)
  follow : ∀ pid, codec.request b = .ok (.logs pid true) →
    (∃ read fd file, answersIn w'.trace =
      answersIn w.trace ++ [.submitted (.followSend read) fd file true]) ∨
    ((∃ msg, answersIn w'.trace = answersIn w.trace ++ [.replied sender (.error msg)]) ∧
      (∀ d, .opened d ∈ w'.trace → .opened d ∈ w.trace ∨ w'.file (some d) ≠ some d.2) ∧
      w'.g.containers = w.g.containers)

theorem isAnswer_mark (e : Entry) (h : e.isAnswer = true) :
    e.mark.any (fun m => m = .reply || m = .send) = true := by
  cases e with
  | submitted loc fd file accepted => cases loc <;> first | rfl | cases h
  | replied sender reply => rfl
  | _ => cases h

/-- The program sends one reply. -/
def Replies (sender : ℕ) (m : M α) : Prop :=
  ∀ w w' a, m w = .ok a w' →
    ∃ reply, answersIn w'.trace = answersIn w.trace ++ [.replied sender reply]

namespace Replies

variable {m : M α} {f : α → M β}

theorem after (hm : Mute Entry.isAnswer m) (hf : ∀ a, Replies sender (f a)) :
    Replies sender (m >>= f) := by
  intro w w' c h
  obtain ⟨a, w₁, hma, h⟩ := bind_eq_ok.mp h
  obtain ⟨reply, heq⟩ := hf a w₁ w' c h
  refine ⟨reply, ?_⟩
  rw [heq, answersIn, hm.filter_eq hma]
  rfl

theorem before (hm : Replies sender m) (hf : ∀ a, Mute Entry.isAnswer (f a)) :
    Replies sender (m >>= f) := by
  intro w w' c h
  obtain ⟨a, w₁, hma, h⟩ := bind_eq_ok.mp h
  obtain ⟨reply, heq⟩ := hm w w₁ a hma
  exact ⟨reply, ((hf a).filter_eq h).trans heq⟩

theorem ite {p : Prop} [Decidable p] {n : M α} (hm : Replies sender m) (hn : Replies sender n) :
    Replies sender (if p then m else n) := by
  split_ifs
  · exact hm
  · exact hn

end Replies

theorem replyDatagram_replies {reply : Reply} : Replies sender (replyDatagram sender reply) := by
  intro w w' a h
  cases h
  refine ⟨reply, ?_⟩
  change (w.trace ++ [_]).filter Entry.isAnswer = _
  rw [List.filter_append]
  rfl

section

variable {args : RunArgs} {prep : PreparedResources}

theorem startDetached_replies {stdin : Option (Fd .pipe × Fd .pipe)}
    {pty : Option (Fd .pty × Fd .pty)} {log : Fd .pipe × Fd .pipe} :
    Replies sender (startDetached sender args prep stdin pty log pid) := by
  unfold startDetached
  refine .after (closeAll_mute isAnswer_mark) fun _ => ?_
  refine .after (parentSetupMapsAndSignal_mute isAnswer_mark) fun r => ?_
  cases r with
  | error e => exact .after (closeAll_mute isAnswer_mark) fun _ => replyDatagram_replies
  | ok u =>
    refine .after now_mute fun t => .after (.update fun _ => .of_note rfl rfl rfl) fun _ => ?_
    refine .after modifyContainer_mute fun _ => ?_
    refine .after (armContainerOutput_mute isAnswer_mark) fun _ => .ite ?_ replyDatagram_replies
    refine .after modifyContainer_mute fun _ => ?_
    exact .after (armContainerPtyOutput_mute isAnswer_mark) fun _ => replyDatagram_replies

theorem handleRun_replies : Replies sender (handleRun sender args) := by
  unfold handleRun
  refine .after (prepareRun_mute isAnswer_mark rfl) fun r => ?_
  cases r with
  | error e => exact replyDatagram_replies
  | ok prep =>
    refine .after (openWhen_mute isAnswer_mark) fun stdin => ?_
    cases stdin with
    | error e => exact .before replyDatagram_replies fun _ => dropSignal_mute isAnswer_mark
    | ok stdin =>
      refine .after (openWhen_mute isAnswer_mark) fun pty => ?_
      cases pty with
      | error e => exact .before replyDatagram_replies fun _ => dropSignal_mute isAnswer_mark
      | ok pty =>
        refine .after (openPair_mute isAnswer_mark) fun log => ?_
        cases log with
        | error e =>
          refine .before replyDatagram_replies fun _ => ?_
          exact (closeAll_mute isAnswer_mark).bind fun _ => dropSignal_mute isAnswer_mark
        | ok log =>
          refine .after (clone3Container_mute isAnswer_mark) fun child => ?_
          cases child with
          | error e =>
            refine .after (closeAll_mute isAnswer_mark) fun _ => ?_
            exact .before replyDatagram_replies fun _ => dropSignal_mute isAnswer_mark
          | ok pid => exact startDetached_replies

theorem handleKill_replies : Replies sender (handleKill sender pid) := by
  unfold handleKill
  refine .after findContainer_mute fun info => ?_
  cases info with
  | none => exact replyDatagram_replies
  | some info =>
    refine .after (note_mute rfl) fun _ => .after call_mute fun r => ?_
    cases r with
    | error e => exact replyDatagram_replies
    | ok u => exact replyDatagram_replies

theorem handleLogs_replies : Replies sender (handleLogs sender pid) := by
  unfold handleLogs
  refine .after .get fun w => ?_
  dsimp only
  split
  · exact replyDatagram_replies
  · exact replyDatagram_replies

theorem handleList_replies : Replies sender (handleList sender) :=
  .after now_mute fun _ => .after .get fun _ => replyDatagram_replies

end

theorem ask_answers {a : Answer} (h : ask w = .ok a w') :
    w.answers = a :: w'.answers ∧ w' = { w with answers := w'.answers } := by
  obtain ⟨as, ha, rfl⟩ := ask_spec.ok rfl h
  exact ⟨ha, rfl⟩

theorem call_answers {r : Except String Unit} (h : call w = .ok r w') :
    ∃ c : Except String (List ℕ), w.answers = .call c :: w'.answers ∧ c.toBool = r.toBool := by
  obtain ⟨a, w₁, hask, h⟩ := bind_eq_ok.mp h
  obtain ⟨ha, -⟩ := ask_answers hask
  split at h
  · cases h
    exact ⟨_, ha, rfl⟩
  · cases h
    exact ⟨_, ha, rfl⟩
  · cases h

theorem openPair_answers {r : Except String (Fd k × Fd k)} (h : openPair k w = .ok r w') :
    ∃ c : Except String (List ℕ), w.answers = .call c :: w'.answers ∧ c.toBool = r.toBool ∧
      (r.toBool = false → w' = { w with answers := w'.answers }) := by
  obtain ⟨a, w₁, hask, h⟩ := bind_eq_ok.mp h
  obtain ⟨ha, hw₁⟩ := ask_answers hask
  split at h
  · obtain ⟨fd, w₃, hopen, h⟩ := bind_eq_ok.mp h
    obtain ⟨fd', w₄, hopen', h⟩ := bind_eq_ok.mp h
    cases h
    rw [openFd_answers hopen', openFd_answers hopen]
    exact ⟨_, ha, rfl, nofun⟩
  · cases h
    exact ⟨_, ha, rfl, fun _ => hw₁⟩
  · cases h

theorem findContainer_eq {o : Option ContainerInfo} (h : findContainer pid w = .ok o w') :
    o = w.g.containers.lookup pid ∧ w = w' := by
  cases h
  exact ⟨rfl, rfl⟩

theorem writeNow_answers {d : Handle} {r : Except String ℕ} (h : writeNow d b w = .ok r w') :
    w.answers = .write r :: w'.answers := by
  obtain ⟨a, w₁, hask, h⟩ := bind_eq_ok.mp h
  obtain ⟨ha, -⟩ := ask_answers hask
  split at h
  · obtain ⟨w₀, w₂, hget, h⟩ := bind_eq_ok.mp h
    cases hget
    cases hf : w₁.file (some d) with
    | none =>
      simp only [hf] at h
      cases h
    | some f =>
      simp only [hf] at h
      split_ifs at h
      · cases h
        exact ha
      · cases h
  · cases h
    exact ha
  · cases h

theorem writeBacklog_answers {d : Handle} {fuel : ℕ} {backlog : Bytes} {r : Except String Unit}
    (h : writeBacklog d fuel backlog w = .ok r w') :
    backlogWritten backlog.length w.answers = r.toOption.map fun _ => w'.answers := by
  induction fuel generalizing backlog w with
  | zero => cases h
  | succ fuel ih =>
    unfold writeBacklog at h
    split_ifs at h with hnil
    · cases h
      rw [hnil]
      exact backlogWritten.eq_1 _
    · obtain ⟨x, w₁, hwrite, h⟩ := bind_eq_ok.mp h
      have ha := writeNow_answers hwrite
      obtain ⟨n, hn⟩ : ∃ n, backlog.length = n + 1 := by
        have hpos : 0 < backlog.length := List.length_pos_iff.mpr hnil
        exact ⟨backlog.length - 1, by omega⟩
      rw [hn, ha]
      split at h
      · cases h
        rfl
      · cases h
        rfl
      · rename_i m
        have hrest : n - m = (backlog.drop (m + 1)).length := by
          rw [List.length_drop, hn]
          omega
        rw [← ih h, ← hrest]
        rfl

private theorem writeBacklog_silent {d : Handle} {fuel : ℕ} {backlog : Bytes} :
    Mute Entry.isAnswer (writeBacklog d fuel backlog) := writeBacklog_mute isAnswer_mark

/-- A refused request: an error, nothing opened, no follow pipe. -/
structure FollowRefused (w w' : World) (sender : ℕ) : Prop where
  error : ∃ msg, answersIn w'.trace = answersIn w.trace ++ [.replied sender (.error msg)]
  opened : ∀ d, .opened d ∈ w'.trace → .opened d ∈ w.trace
  containers : w'.g.containers = w.g.containers

theorem refused_reply {msg : String} {u : Unit}
    (h : replyDatagram sender (.error msg) { w with answers := as } = .ok u w') :
    FollowRefused w w' sender := by
  cases h
  refine ⟨⟨msg, ?_⟩, fun d hd => ?_, rfl⟩
  · change (w.trace ++ [_]).filter Entry.isAnswer = _
    rw [List.filter_append]
    rfl
  · rcases List.mem_append.mp hd with hd | hd
    · exact hd
    · rw [List.mem_singleton] at hd
      cases hd

/-- A follow request of a container that is not listed is refused. -/
theorem handleFollow_missing {u : Unit} (hi : w.g.containers.lookup pid = none)
    (h : handleFollow sender pid w = .ok u w') : FollowRefused w w' sender := by
  obtain ⟨o, w₁, hfind, h⟩ := bind_eq_ok.mp h
  obtain ⟨rfl, rfl⟩ := findContainer_eq hfind
  simp only [hi] at h
  have hw : replyDatagram sender (.error (notFound pid)) { w with answers := w.answers } =
      .ok u w' := h
  exact refused_reply hw

/-- The message with the read end is sent, or the client hears nothing. -/
theorem passRead_cases {read : Fd .pipe} {u : Unit}
    (h : (do
      match ← call with
      | .error _ => note (.starved (.followSend read))
      | .ok () => discard <| submit (.followSend read) (RawFd.handle (← get).g.datagramFd) 0 : M Unit)
        w = .ok u w') :
    (readPassed w.answers = true ∧ ∃ fd file, answersIn w'.trace =
      answersIn w.trace ++ [.submitted (.followSend read) fd file true]) ∨
    (readPassed w.answers = false ∧ answersIn w'.trace = answersIn w.trace) := by
  obtain ⟨r, w₁, hcall, h⟩ := bind_eq_ok.mp h
  obtain ⟨c, hc, hcr⟩ := call_answers hcall
  have h₁ : answersIn w₁.trace = answersIn w.trace := call_mute.filter_eq hcall
  rw [hc]
  cases r with
  | error e =>
    right
    cases c with
    | ok l => cases hcr
    | error e' =>
      cases h
      exact ⟨rfl, (filter_note rfl).trans h₁⟩
  | ok u =>
    cases c with
    | error e => cases hcr
    | ok l =>
      obtain ⟨v, w₂, hget, h⟩ := bind_eq_ok.mp h
      cases hget
      obtain ⟨op, w₃, hsub, h⟩ := bind_eq_ok.mp h
      cases h
      obtain ⟨a, w₄, hask, hsub⟩ := bind_eq_ok.mp hsub
      obtain ⟨ha, hw₄⟩ := ask_answers hask
      rw [ha]
      split at hsub
      · rename_i accepted
        cases hsub
        have hsame : answersIn w₄.trace = answersIn w₁.trace := by
          rw [hw₄]
        cases accepted with
        | true =>
          left
          refine ⟨rfl, RawFd.handle w₁.g.datagramFd, w₄.file (RawFd.handle w₁.g.datagramFd), ?_⟩
          rw [← h₁, ← hsame]
          change (w₄.trace ++ [_]).filter Entry.isAnswer = _
          rw [List.filter_append]
          rfl
        | false =>
          right
          exact ⟨rfl, (filter_note rfl).trans (hsame.trans h₁)⟩
      · cases hsub

/-- A follow request is refused, or it passes the read end, or it is not answered at all. -/
theorem handleFollow_cases {info : ContainerInfo} {u : Unit}
    (hi : w.g.containers.lookup pid = some info) (h : handleFollow sender pid w = .ok u w') :
    (followServed info.gateway.cache.snapshot w.answers = true ∧
      (FollowRefused w w' sender ∨ ∃ read fd file, answersIn w'.trace =
        answersIn w.trace ++ [.submitted (.followSend read) fd file true])) ∨
    (followServed info.gateway.cache.snapshot w.answers = false ∧
      answersIn w'.trace = answersIn w.trace) := by
  obtain ⟨o, w₁, hfind, h⟩ := bind_eq_ok.mp h
  obtain ⟨rfl, rfl⟩ := findContainer_eq hfind
  simp only [hi] at h
  obtain ⟨pair, w₂, hpair, h⟩ := bind_eq_ok.mp h
  have h₂ : answersIn w₂.trace = answersIn w.trace :=
    (openPair_mute isAnswer_mark).filter_eq hpair
  obtain ⟨c, hc, hcr, hw₂⟩ := openPair_answers hpair
  cases pair with
  | error e =>
    left
    cases c with
    | ok l => cases hcr
    | error e' =>
      refine ⟨?_, .inl ?_⟩
      · rw [hc]
        rfl
      · rw [hw₂ rfl] at h
        exact refused_reply h
  | ok pair =>
    obtain ⟨read, write⟩ := pair
    obtain ⟨l, rfl⟩ : ∃ l, c = .ok l := by
      cases c with
      | ok l => exact ⟨l, rfl⟩
      | error e => cases hcr
    obtain ⟨r, w₃, hwrite, h⟩ := bind_eq_ok.mp h
    have h₃ : answersIn w₃.trace = answersIn w.trace :=
      (writeBacklog_silent.filter_eq hwrite).trans h₂
    have hback := writeBacklog_answers hwrite
    cases r with
    | error e =>
      right
      refine ⟨?_, ((closeAll_mute isAnswer_mark).filter_eq h).trans h₃⟩
      rw [hc, followServed, hback]
      rfl
    | ok u =>
      obtain ⟨pipeId, w₄, hid, h⟩ := bind_eq_ok.mp h
      obtain ⟨u, w₅, hattach, h⟩ := bind_eq_ok.mp h
      obtain ⟨u, w₆, hnote, h⟩ := bind_eq_ok.mp h
      cases hid
      cases hattach
      cases hnote
      have hserved : followServed info.gateway.cache.snapshot (.call (.ok l) :: w₂.answers) =
          readPassed w₃.answers := by
        rw [followServed, hback]
        rfl
      rw [hc, hserved, ← h₃]
      have hfollowed : answersIn (w₃.note (.followed pid w₃.g.nextPipeId write.handle read.handle
          info.gateway.cache.snapshot)).trace = answersIn w₃.trace := filter_note rfl
      rcases passRead_cases h with ⟨hpass, fd, file, heq⟩ | ⟨hpass, heq⟩
      · exact .inl ⟨hpass, .inr ⟨read, fd, file, heq.trans (congrArg (· ++ _) hfollowed)⟩⟩
      · exact .inr ⟨hpass, heq.trans hfollowed⟩

/-- The program opens nothing and leaves the containers alone. -/
def Settles (m : M α) : Prop :=
  ∀ w w' a, m w = .ok a w' →
    (∀ d, .opened d ∈ w'.trace → .opened d ∈ w.trace) ∧ w'.g.containers = w.g.containers

theorem Settles.bind {m : M α} {f : α → M β} (hm : Settles m) (hf : ∀ a, Settles (f a)) :
    Settles (m >>= f) := by
  intro w w' c h
  obtain ⟨a, w₁, hma, h⟩ := bind_eq_ok.mp h
  obtain ⟨hopen, hcont⟩ := hm w w₁ a hma
  obtain ⟨hopen', hcont'⟩ := hf a w₁ w' c h
  exact ⟨fun d hd => hopen d (hopen' d hd), hcont'.trans hcont⟩

theorem Settles.update {g : World → World} {e : World → Entry}
    (hg : ∀ w, (g w).trace = w.trace ++ [e w] ∧ (g w).g = w.g) (he : ∀ w d, e w ≠ .opened d) :
    Settles (modify g) := by
  intro w w' a h
  cases h
  obtain ⟨htr, hgg⟩ := hg w
  refine ⟨fun d hd => ?_, congrArg DaemonState.containers hgg⟩
  rw [htr] at hd
  rcases List.mem_append.mp hd with hd | hd
  · exact hd
  · exact absurd (List.mem_singleton.mp hd).symm (he w d)

theorem Settles.pure {a : α} : Settles (Pure.pure a : M α) := by
  intro w w' b h
  cases h
  exact ⟨fun _ hd => hd, rfl⟩

theorem Settles.throw {e : Panic} : Settles (throw e : M α) := by
  intro w w' b h
  cases h

theorem Settles.get : Settles (get : M World) := by
  intro w w' b h
  cases h
  exact ⟨fun _ hd => hd, rfl⟩

theorem ask_settles : Settles ask := by
  intro w w' a h
  obtain ⟨-, hw⟩ := ask_answers h
  rw [hw]
  exact ⟨fun _ hd => hd, rfl⟩

/-- Arming the next receive settles. -/
theorem armDatagram_settles : Settles armDatagram := by
  unfold armDatagram
  refine Settles.bind (ask_settles.bind fun a => ?_) fun r => ?_
  · split
    · exact .pure
    · exact .pure
    · exact .throw
  · cases r with
    | error e => exact .update (fun _ => ⟨rfl, rfl⟩) fun _ _ => nofun
    | ok u =>
      refine Settles.get.bind fun w => Settles.bind (ask_settles.bind fun a => ?_) fun _ => .pure
      split
      · refine Settles.get.bind fun v => Settles.bind ?_ fun _ => .pure
        exact .update (fun _ => ⟨World.trace_submit, rfl⟩) fun _ _ => nofun
      · exact .throw

/-- Every request but a follow request is answered by a reply. -/
theorem handleDatagram_replies {request : Request} (hf : ∀ pid, request ≠ .logs pid true) :
    Replies sender (handleDatagram sender request) := by
  cases request with
  | run args => exact handleRun_replies
  | list => exact handleList_replies
  | kill pid => exact handleKill_replies
  | logs pid follow =>
    cases follow with
    | true => exact absurd rfl (hf pid)
    | false => exact handleLogs_replies
  | attach pid => exact replyDatagram_replies

theorem answersIn_ne (tr : List Entry) (e : Entry) : answersIn tr ≠ answersIn tr ++ [e] := by
  intro h
  have hlen := congrArg List.length h
  simp at hlen

/-- A datagram gets its one answer if and only if it is not a follow request of a listed container
whose pipe could be made but whose backlog or message could not be sent. -/
theorem datagram_answered_iff {op : InFlight} {id size : ℕ} (hop : w.findOp id = some op)
    (hloc : op.loc = .datagram size) (hr : op.result = some (.received b sender)) (hb : b ≠ [])
    (h : step codec w (.deliver id answers) = some w') :
    Answered codec w w' b sender ↔
      ∀ pid info, codec.request b = .ok (.logs pid true) → w.g.containers.lookup pid = some info →
        followServed info.gateway.cache.snapshot answers = true := by
  obtain ⟨c, bs, rfl⟩ : ∃ c bs, b = c :: bs := List.exists_cons_of_ne_nil hb
  simp only [step, hop, hr, hloc] at h
  have harm : Mute Entry.isAnswer armDatagram := armDatagram_mute isAnswer_mark rfl
  have hcall := exec_eq_some.mp h
  change onDatagram codec (.received (c :: bs) sender) _ = _ at hcall
  simp only [onDatagram] at hcall
  cases hreq : codec.request (c :: bs) with
  | error e =>
    simp only [hreq] at hcall
    obtain ⟨reply, heq⟩ := (replyDatagram_replies.before fun _ => harm) _ _ _ hcall
    constructor
    · intro _ pid info hpid
      cases hpid
    · intro _
      refine ⟨⟨_, heq, .inl ⟨reply, rfl⟩⟩, fun pid hpid => ?_⟩
      rw [hreq] at hpid
      cases hpid
  | ok request =>
    simp only [hreq] at hcall
    by_cases hfollow : ∃ pid, request = .logs pid true
    · obtain ⟨pid, rfl⟩ := hfollow
      obtain ⟨u, w₁, hhandle, hcall⟩ := bind_eq_ok.mp hcall
      have hmute : answersIn w'.trace = answersIn w₁.trace := harm.filter_eq hcall
      obtain ⟨hopened, hcont⟩ := armDatagram_settles _ _ _ hcall
      have hrefused : FollowRefused { w.takeOp id with answers := answers } w₁ sender →
          Answered codec w w' (c :: bs) sender := by
        intro href
        obtain ⟨msg, hmsg⟩ := href.error
        have heq := hmute.trans hmsg
        refine ⟨⟨_, heq, .inl ⟨_, rfl⟩⟩, fun _ _ => .inr ⟨⟨msg, heq⟩, ?_, ?_⟩⟩
        · intro d hd
          exact .inl (href.opened d (hopened d hd))
        · exact hcont.trans href.containers
      cases hi : w.g.containers.lookup pid with
      | none =>
        constructor
        · intro _ pid' info hpid hi'
          obtain ⟨rfl, -⟩ : pid = pid' ∧ true = true := by simpa using hpid
          rw [hi] at hi'
          cases hi'
        · intro _
          exact hrefused (handleFollow_missing hi hhandle)
      | some info =>
        rcases handleFollow_cases (show ({ w.takeOp id with answers := answers } : World).g.containers.lookup
          pid = some info from hi) hhandle with ⟨hserved, hdone⟩ | ⟨hserved, hnone⟩
        · constructor
          · intro _ pid' info' hpid hi'
            obtain ⟨rfl, -⟩ : pid = pid' ∧ true = true := by simpa using hpid
            rw [hi] at hi'
            obtain rfl := Option.some.inj hi'
            exact hserved
          · intro _
            rcases hdone with href | ⟨read, fd, file, hpass⟩
            · exact hrefused href
            · have heq := hmute.trans hpass
              refine ⟨⟨_, heq, .inr ⟨⟨pid, hreq⟩, read, fd, file, rfl⟩⟩, fun _ _ => .inl ?_⟩
              exact ⟨read, fd, file, heq⟩
        · constructor
          · intro hans
            obtain ⟨e, he, -⟩ := hans.once
            rw [hmute, hnone] at he
            exact absurd he (answersIn_ne _ e)
          · intro hall
            rw [hall pid info rfl hi] at hserved
            cases hserved
    · have hf : ∀ pid, request ≠ .logs pid true := fun pid hp => hfollow ⟨pid, hp⟩
      obtain ⟨reply, heq⟩ := ((handleDatagram_replies hf).before fun _ => harm) _ _ _ hcall
      constructor
      · intro _ pid info hpid
        cases hpid
        exact absurd rfl (hf pid)
      · intro _
        refine ⟨⟨_, heq, .inl ⟨reply, rfl⟩⟩, fun pid hpid => ?_⟩
        rw [hreq] at hpid
        cases hpid
        exact absurd rfl (hf pid)

def followAsked : List Event :=
  datagram 0 3 [1] runDetached ++ turn 5 (.count 1) [.submit true] ++
    [.enter, .perform 6 (.received [3] 0)]

/-- Handling it with these answers leads to a state that passes the test. -/
def followTest (answers : List Answer) (test : World → World → Bool) (w : World) : Bool :=
  (w.findOp 6).any (fun op => op.loc = .datagram 1 ∧ op.result = some (.received [3] 0)) &&
    (step sampleCodec w (.deliver 6 answers)).any (test w)

theorem followTest_cases {test : World → World → Bool} (h : followTest answers test w = true) :
    ∃ op w', w.findOp 6 = some op ∧ op.loc = .datagram 1 ∧ op.result = some (.received [3] 0) ∧
      step sampleCodec w (.deliver 6 answers) = some w' ∧ test w w' = true := by
  obtain ⟨hop, hstep⟩ := Bool.and_eq_true_iff.mp h
  obtain ⟨op, hop, hdone⟩ := (Option.any_eq_true _ _).mp hop
  obtain ⟨w', hstep, htest⟩ := (Option.any_eq_true _ _).mp hstep
  obtain ⟨hloc, hr⟩ := of_decide_eq_true hdone
  exact ⟨op, w', hop, hloc, hr, hstep, htest⟩

/-- The read end of a follow pipe is passed. -/
theorem datagram_answered_follows : ∃ w₀ w w', booted quietBoot = some w₀ ∧
    Reaches (step sampleCodec) (fun _ _ => True) w₀ w ∧
      step sampleCodec w (.deliver 6 [.call (.ok [20, 21]), .call (.ok []), .submit true,
        .call (.ok []), .submit true]) = some w' ∧ Answered sampleCodec w w' [3] 0 := by
  obtain ⟨w₀, w, hb, hr, ht⟩ := exists_of_executes (step sampleCodec) (fun _ _ => True)
    (booted quietBoot) followAsked
    (fun _ w => followTest [.call (.ok [20, 21]), .call (.ok []), .submit true, .call (.ok []),
      .submit true] (fun w _ => (w.g.containers.lookup 100).all
        fun info => info.gateway.cache.snapshot = []) w) (by decide +kernel)
  obtain ⟨op, w', hop, hloc, hres, hstep, htest⟩ := followTest_cases ht
  refine ⟨w₀, w, w', hb, hr, hstep, ?_⟩
  refine (datagram_answered_iff hop hloc hres (by decide) hstep).mpr fun pid info hreq hi => ?_
  obtain ⟨rfl, -⟩ : (100 : Pid) = pid ∧ true = true := by simpa [sampleCodec] using hreq
  rw [hi] at htest
  rw [of_decide_eq_true htest]
  rfl

/-- The message with the read end is refused by a full submission queue: the client hears nothing. -/
theorem refused_follow_unanswered : ∃ w₀ w w', booted quietBoot = some w₀ ∧
    Reaches (step sampleCodec) (fun _ _ => True) w₀ w ∧
      (∃ op, w.findOp 6 = some op ∧ op.loc = .datagram 1 ∧ op.result = some (.received [3] 0)) ∧
      step sampleCodec w (.deliver 6 [.call (.ok [20, 21]), .call (.ok []), .submit false,
        .call (.ok []), .submit true]) = some w' ∧ ¬ Answered sampleCodec w w' [3] 0 := by
  obtain ⟨w₀, w, hb, hr, ht⟩ := exists_of_executes (step sampleCodec) (fun _ _ => True)
    (booted quietBoot) followAsked
    (fun _ w => followTest [.call (.ok [20, 21]), .call (.ok []), .submit false, .call (.ok []),
      .submit true] (fun w w' => answersIn w'.trace = answersIn w.trace) w) (by decide +kernel)
  obtain ⟨op, w', hop, hloc, hres, hstep, htest⟩ := followTest_cases ht
  refine ⟨w₀, w, w', hb, hr, ⟨op, hop, hloc, hres⟩, hstep, fun hans => ?_⟩
  obtain ⟨e, he, -⟩ := hans.once
  rw [of_decide_eq_true htest] at he
  exact answersIn_ne _ e he

end Conrt.Daemon
