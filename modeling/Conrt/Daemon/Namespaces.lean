import Conrt.Daemon.Children
import Conrt.Daemon.RequestMarks

/-! The namespaces the daemon itself is in: a run request that names a process moves the daemon there
for good. -/
namespace Conrt.Daemon

open Conrt.Base

variable {w w' w₀ : World} {codec : Codec} {answers as : List Answer} {args : RunArgs}
  {es : List Entry} {α β : Type} {k : FileKind} {n j : ℕ}

/-- The process whose namespace the daemon has joined last; `none` while it is in the one it booted
in. A child starts from the namespaces its parent is in. -/
def namespaceOf (ns : Namespace) (tr : List Entry) : Option Pid :=
  tr.foldl
    (fun last e =>
      match e with
      | .joined pid n => if n = ns then some pid else last
      | _ => last) none

/-- Whether the next `n` calls all succeed. -/
def okCalls : ℕ → List Answer → Bool
  | 0, _ => true
  | n + 1, .call (.ok _) :: as => okCalls n as
  | _, _ => false

/-- Whether the calls up to the first `setns` succeed: the path and the overlay, the sync pipe, the
two namespace files, and that `setns`. -/
def joinsUser (args : RunArgs) (answers : List Answer) : Bool :=
  args.netPid.isSome && !(args.noInit && args.initPath.isSome) &&
    okCalls ((if args.rootfs.isSome then 2 else 0) + 4) answers

def Codec.runs (codec : Codec) (w : World) (loc : OpLocal) (r : Result) : Option RunArgs :=
  match loc, r with
  | .datagram _, .received (b :: bs) _ =>
    match codec.request (b :: bs) with
    | .ok (.run args) => some args
    | _ => none
  | _, _ =>
    match loc.frame r with
    | some (sid, f) =>
      match w.g.attachSessions.lookup sid, codec.asked f with
      | some _, some (.run args) => some args
      | _, _ => none
    | none => none

/-- No run request gets as far as a successful `setns`. -/
def HomeStep (codec : Codec) (w : World) (op : InFlight) (r : Result) : Prop :=
  ∀ args, codec.runs w op.loc r = some args → joinsUser args w.answers = false

instance {op : InFlight} {r : Result} : Decidable (HomeStep codec w op r) :=
  inferInstanceAs (Decidable (∀ args ∈ codec.runs w op.loc r, joinsUser args w.answers = false))

def Entry.isJoin : Entry → Bool
  | .joined _ _ => true
  | _ => false

theorem isJoin_mark (e : Entry) (h : e.isJoin = true) : e.mark.any (· = .join) = true := by
  cases e <;> first | rfl | cases h

private theorem namespaceOf_eq_none {ns : Namespace} {tr : List Entry} (h : tr.filter Entry.isJoin = []) :
    namespaceOf ns tr = none := by
  induction tr using List.reverseRecOn with
  | nil => rfl
  | append_singleton tr e ih =>
    rw [List.filter_append, List.append_eq_nil_iff] at h
    unfold namespaceOf at ih ⊢
    rw [List.foldl_append, ih h.1]
    cases e <;> first | rfl | simp [Entry.isJoin] at h

/-- The program returns a value only after `j` successful calls. -/
def Costs (j : ℕ) (m : M (Except String α)) : Prop :=
  ∀ w w' a, m w = .ok (.ok a) w' → ∀ n, okCalls n w'.answers = true →
    okCalls (n + j) w.answers = true

theorem okCalls_ask {l : List ℕ} (h : ask w = .ok (.call (.ok l)) w')
    (hok : okCalls n w'.answers = true) : okCalls (n + 1) w.answers = true := by
  obtain ⟨as, ha, rfl⟩ := ask_spec.ok rfl h
  rw [ha]
  exact hok

theorem call_costs : Costs 1 call := by
  intro w w' a h n hok
  obtain ⟨b, w₁, hask, h⟩ := bind_eq_ok.mp h
  split at h
  · cases h
    exact okCalls_ask hask hok
  · cases h
  · cases h

theorem openOne_costs : Costs 1 (openOne k) := by
  intro w w' a h n hok
  obtain ⟨b, w₁, hask, h⟩ := bind_eq_ok.mp h
  split at h
  · obtain ⟨fd, w₂, hopen, h⟩ := bind_eq_ok.mp h
    cases h
    rw [openFd_answers hopen] at hok
    exact okCalls_ask hask hok
  · cases h
  · cases h

theorem openPair_costs : Costs 1 (openPair k) := by
  intro w w' a h n hok
  obtain ⟨b, w₁, hask, h⟩ := bind_eq_ok.mp h
  split at h
  · obtain ⟨fd, w₂, hopen, h⟩ := bind_eq_ok.mp h
    obtain ⟨fd', w₃, hopen', h⟩ := bind_eq_ok.mp h
    cases h
    rw [openFd_answers hopen', openFd_answers hopen] at hok
    exact okCalls_ask hask hok
  · cases h
  · cases h

theorem prepareRootfs_costs {rootfs : Option String} :
    Costs (if rootfs.isSome then 2 else 0) (prepareRootfs rootfs) := by
  intro w w' a h n hok
  cases rootfs with
  | none =>
    cases h
    exact hok
  | some path =>
    obtain ⟨r, w₁, hcall, h⟩ := bind_eq_ok.mp h
    cases r with
    | error e => cases h
    | ok u =>
      obtain ⟨r, w₂, hcall₂, h⟩ := bind_eq_ok.mp h
      cases r with
      | error e => cases h
      | ok u₂ =>
        cases h
        have h₁ : okCalls (n + 1) w₁.answers = true := call_costs _ _ _ hcall₂ n hok
        exact call_costs _ _ _ hcall (n + 1) h₁

/-- The daemon's namespaces are left alone. -/
theorem setns_home {pid : Pid} {r : Except String Unit} (h : setns pid w = .ok r w')
    (hno : okCalls 1 w.answers = false) :
    w'.trace.filter Entry.isJoin = w.trace.filter Entry.isJoin := by
  obtain ⟨b, w₁, hcall, h⟩ := bind_eq_ok.mp h
  have htrace := call_mute.filter_eq (q := Entry.isJoin) hcall
  cases b with
  | error e =>
    cases h
    exact htrace
  | ok u =>
    have hyes : okCalls 1 w.answers = true := call_costs _ _ _ hcall 0 rfl
    rw [hyes] at hno
    contradiction

theorem joinNamespaces_home {pid : Pid} {r : Except String Unit}
    (h : joinNamespaces pid w = .ok r w') (hno : okCalls 3 w.answers = false) :
    w'.trace.filter Entry.isJoin = w.trace.filter Entry.isJoin := by
  have hclose : ∀ {hs : List Handle}, Mute Entry.isJoin (closeAll hs) :=
    closeAll_mute isJoin_mark
  obtain ⟨b, w₁, hopen, h⟩ := bind_eq_ok.mp h
  have h₁ : w₁.trace.filter Entry.isJoin = w.trace.filter Entry.isJoin :=
    (openOne_mute isJoin_mark).filter_eq hopen
  cases b with
  | error e =>
    cases h
    exact h₁
  | ok user =>
    obtain ⟨b, w₂, hopen₂, h⟩ := bind_eq_ok.mp h
    have h₂ : w₂.trace.filter Entry.isJoin = w₁.trace.filter Entry.isJoin :=
      (openOne_mute isJoin_mark).filter_eq hopen₂
    cases b with
    | error e =>
      obtain ⟨u, w₃, hcl, h⟩ := bind_eq_ok.mp h
      cases h
      rw [hclose.filter_eq hcl, h₂, h₁]
    | ok net =>
      obtain ⟨b, w₃, hset, h⟩ := bind_eq_ok.mp h
      obtain ⟨u, w₄, hcl, h⟩ := bind_eq_ok.mp h
      cases h
      have hno₂ : okCalls 1 w₂.answers = false := by
        by_contra hyes
        have hyes₁ : okCalls 2 w₁.answers = true :=
          openOne_costs _ _ _ hopen₂ 1 (by simpa using hyes)
        have hyes₀ : okCalls 3 w.answers = true := openOne_costs _ _ _ hopen 2 hyes₁
        rw [hyes₀] at hno
        contradiction
      rw [hclose.filter_eq hcl, setns_home hset hno₂, h₂, h₁]

theorem prepareNamespaces_home {netPid : Option Pid} {r : Except String Bool}
    (h : prepareNamespaces netPid w = .ok r w')
    (hno : netPid.isSome = true → okCalls 3 w.answers = false) :
    w'.trace.filter Entry.isJoin = w.trace.filter Entry.isJoin := by
  cases netPid with
  | none =>
    cases h
    rfl
  | some pid =>
    obtain ⟨b, w₁, hjoin, h⟩ := bind_eq_ok.mp h
    rw [← joinNamespaces_home hjoin (hno rfl)]
    cases b with
    | error e =>
      cases h
      rfl
    | ok u =>
      cases h
      rfl

/-- Unless the first `setns` succeeds, a run request is prepared without joining anything. -/
theorem prepareRun_home {r : Except String PreparedResources} (h : prepareRun args w = .ok r w')
    (hno : joinsUser args w.answers = false) :
    w'.trace.filter Entry.isJoin = w.trace.filter Entry.isJoin := by
  have hdrop : ∀ {signal : Fd .pipe × Fd .pipe}, Mute Entry.isJoin (dropSignal signal) :=
    dropSignal_mute isJoin_mark
  unfold prepareRun at h
  split_ifs at h with hinit
  · cases h
    rfl
  · obtain ⟨b, w₁, hroot, h⟩ := bind_eq_ok.mp h
    have h₁ : w₁.trace.filter Entry.isJoin = w.trace.filter Entry.isJoin :=
      (prepareRootfs_mute isJoin_mark).filter_eq hroot
    cases b with
    | error e =>
      cases h
      exact h₁
    | ok overlayDir =>
      obtain ⟨b, w₂, hpair, h⟩ := bind_eq_ok.mp h
      have h₂ : w₂.trace.filter Entry.isJoin = w₁.trace.filter Entry.isJoin :=
        (openPair_mute isJoin_mark).filter_eq hpair
      cases b with
      | error e =>
        cases h
        exact h₂.trans h₁
      | ok signal =>
        obtain ⟨b, w₃, hns, h⟩ := bind_eq_ok.mp h
        have hno₂ : args.netPid.isSome = true → okCalls 3 w₂.answers = false := by
          intro hpid
          by_contra hyes
          have hyes₁ : okCalls 4 w₁.answers = true :=
            openPair_costs _ _ _ hpair 3 (by simpa using hyes)
          have hyes₀ := prepareRootfs_costs _ _ _ hroot 4 hyes₁
          rw [Nat.add_comm] at hyes₀
          simp [joinsUser, hpid, hyes₀] at hno
          simp [hno] at hinit
        have h₃ : w₃.trace.filter Entry.isJoin = w₂.trace.filter Entry.isJoin :=
          prepareNamespaces_home hns hno₂
        have h₃₀ := h₃.trans (h₂.trans h₁)
        cases b with
        | error e =>
          obtain ⟨u, w₄, hcl, h⟩ := bind_eq_ok.mp h
          cases h
          rw [hdrop.filter_eq hcl, h₃₀]
        | ok maps =>
          obtain ⟨b, w₄, hdeath, h⟩ := bind_eq_ok.mp h
          have h₄ : w₄.trace.filter Entry.isJoin = w₃.trace.filter Entry.isJoin :=
            (openWhen_mute isJoin_mark).filter_eq hdeath
          cases b with
          | error e =>
            obtain ⟨u, w₅, hcl, h⟩ := bind_eq_ok.mp h
            cases h
            rw [hdrop.filter_eq hcl, h₄, h₃₀]
          | ok death =>
            cases h
            rw [h₄, h₃₀]

section

variable {sender sid : ℕ} {pid : Pid} {prep : PreparedResources} {streamFd : Fd .stream}

theorem handleRun_home {u : Unit} (h : handleRun sender args w = .ok u w')
    (hno : joinsUser args w.answers = false) :
    w'.trace.filter Entry.isJoin = w.trace.filter Entry.isJoin := by
  obtain ⟨k, heq, hk⟩ : ∃ k, handleRun sender args = prepareRun args >>= k ∧
      ∀ b, Mute Entry.isJoin (k b) := handleRun_prepares isJoin_mark rfl
  rw [heq] at h
  obtain ⟨b, w₁, hprep, h⟩ := bind_eq_ok.mp h
  exact ((hk b).filter_eq h).trans (prepareRun_home hprep hno)

theorem handleRunAttach_home {r : Bool} (h : handleRunAttach sid args w = .ok r w')
    (hno : w.g.attachSessions.lookup sid ≠ none → joinsUser args w.answers = false) :
    w'.trace.filter Entry.isJoin = w.trace.filter Entry.isJoin := by
  have hdrop : ∀ {signal : Fd .pipe × Fd .pipe}, Mute Entry.isJoin (dropSignal signal) :=
    dropSignal_mute isJoin_mark
  have hrefuse : ∀ {streamFd msg}, Mute Entry.isJoin (refuseRun sid streamFd msg) :=
    refuseRun_mute isJoin_mark
  obtain ⟨s, w₁, hfind, h⟩ := bind_eq_ok.mp h
  have hfind : w.g.attachSessions.lookup sid = s ∧ w = w₁ := by
    cases hfind
    exact ⟨rfl, rfl⟩
  obtain ⟨hs, rfl⟩ := hfind
  cases s with
  | none =>
    cases h
    rfl
  | some sess =>
    obtain ⟨b, w₁, hprep, h⟩ := bind_eq_ok.mp h
    have hno : joinsUser args w.answers = false := hno (by simp [hs])
    refine (Mute.filter_eq ?_ h).trans (prepareRun_home hprep hno)
    cases b with
    | error e => exact hrefuse.bind fun _ => .pure
    | ok prep =>
      refine (openWhen_mute isJoin_mark).bind fun pty => ?_
      cases pty with
      | error e => exact hrefuse.bind fun _ => hdrop.bind fun _ => .pure
      | ok pty =>
        refine (openWhen_mute isJoin_mark).bind fun log => ?_
        cases log with
        | error e => exact hrefuse.bind fun _ => hdrop.bind fun _ => .pure
        | ok log =>
          refine (clone3Container_mute isJoin_mark).bind fun child => ?_
          cases child with
          | error e =>
            refine (closeAll_mute isJoin_mark).bind fun _ => hrefuse.bind fun _ => ?_
            exact (closeAll_mute isJoin_mark).bind fun _ => hdrop.bind fun _ => .pure
          | ok pid => exact startAttached_mute isJoin_mark rfl

theorem handleDatagram_home {request : Request} {u : Unit}
    (h : handleDatagram sender request w = .ok u w')
    (hno : ∀ args, request = .run args → joinsUser args w.answers = false) :
    w'.trace.filter Entry.isJoin = w.trace.filter Entry.isJoin := by
  cases request with
  | run args => exact handleRun_home h (hno args rfl)
  | list => exact (handleList_mute isJoin_mark rfl).filter_eq h
  | kill pid => exact (handleKill_mute isJoin_mark rfl).filter_eq h
  | logs pid follow =>
    cases follow with
    | true => exact (handleFollow_mute isJoin_mark rfl rfl).filter_eq h
    | false => exact (handleLogs_mute isJoin_mark rfl).filter_eq h
  | attach pid => exact (replyDatagram_mute isJoin_mark rfl).filter_eq h

variable {f : Frame} {res : Result}

theorem dispatchFrame_home {r : Bool} (h : dispatchFrame codec sid f w = .ok r w')
    (hno : ∀ args, codec.asked f = some (.run args) → w.g.attachSessions.lookup sid ≠ none →
      joinsUser args w.answers = false) :
    w'.trace.filter Entry.isJoin = w.trace.filter Entry.isJoin := by
  unfold dispatchFrame at h
  split_ifs at h with hrun hdata heof hwin
  · have hasked : codec.asked f = (codec.request f.payload).toOption := if_pos hrun
    cases hreq : codec.request f.payload with
    | error e =>
      simp only [hreq] at h
      cases h
      rfl
    | ok request =>
      simp only [hreq] at h
      cases request with
      | run args => exact handleRunAttach_home h (hno args (by rw [hasked, hreq]; rfl))
      | attach pid => exact (handleAttach_mute isJoin_mark rfl).filter_eq h
      | _ =>
        cases h
        rfl
  · exact Mute.filter_eq ((dispatchStdin_mute isJoin_mark).bind fun _ => .pure) h
  · exact Mute.filter_eq ((dispatchEof_mute isJoin_mark).bind fun _ => .pure) h
  · exact Mute.filter_eq ((dispatchWinSize_mute isJoin_mark).bind fun _ => .pure) h
  · cases h
    rfl

theorem onFrame_home {u : Unit} (h : onFrame codec sid f w = .ok u w')
    (hno : ∀ args, codec.asked f = some (.run args) → w.g.attachSessions.lookup sid ≠ none →
      joinsUser args w.answers = false) :
    w'.trace.filter Entry.isJoin = w.trace.filter Entry.isJoin := by
  obtain ⟨v, w₁, hstore, h⟩ := bind_eq_ok.mp h
  have hw₁ : w₁ = w.modifySession sid (·.storeOp .read none) := by
    cases hstore
    rfl
  subst hw₁
  obtain ⟨keep, w₂, hdisp, h⟩ := bind_eq_ok.mp h
  have hdisp' : w₂.trace.filter Entry.isJoin = w.trace.filter Entry.isJoin := by
    refine Eq.trans (dispatchFrame_home hdisp fun args hasked hs => hno args hasked ?_) rfl
    intro hnone
    apply hs
    change (w.g.attachSessions.update sid _).lookup sid = none
    rw [Table.lookup_update_ite, if_pos rfl, hnone]
    rfl
  refine (Mute.filter_eq ?_ h).trans hdisp'
  exact .ite (armSessionRead_mute isJoin_mark) (closeSession_mute isJoin_mark)

theorem onSessionRead_home {rd : Reading} {u : Unit} (h : onSessionRead codec sid rd res w = .ok u w')
    (hno : ∀ b bs f args, res = .bytes (b :: bs) → rd.feed (b :: bs) = .inr f →
      codec.asked f = some (.run args) → w.g.attachSessions.lookup sid ≠ none →
        joinsUser args w.answers = false) :
    w'.trace.filter Entry.isJoin = w.trace.filter Entry.isJoin := by
  have hread : ∀ {fd rd}, Mute Entry.isJoin (submitReading sid fd rd) :=
    submitReading_mute isJoin_mark
  have hclose : Mute Entry.isJoin (closeSession sid) := closeSession_mute isJoin_mark
  cases res with
  | bytes b =>
    cases b with
    | nil => exact hclose.filter_eq h
    | cons b bs =>
      simp only [onSessionRead] at h
      cases hfeed : rd.feed (b :: bs) with
      | inr f =>
        cases rd with
        | header acc =>
          simp only [hfeed] at h
          exact onFrame_home h fun args => hno b bs f args rfl hfeed
        | payload ty acc need =>
          simp only [hfeed] at h
          exact onFrame_home h fun args => hno b bs f args rfl hfeed
      | inl rd' =>
        refine Mute.filter_eq ?_ h
        rw [hfeed]
        split
        · exact sessionStream_mute.bind fun _ => storeSessionOp_mute.bind fun _ => hread
        · exact sessionStream_mute.bind fun _ => hread
        · contradiction
  | _ => exact hclose.filter_eq h

/-- A callback that does not get to a successful `setns` leaves the daemon where it is. -/
theorem callback_home {loc : OpLocal} {u : Unit} (h : callback codec res loc w = .ok u w')
    (hno : ∀ args, codec.runs w loc res = some args → joinsUser args w.answers = false) :
    w'.trace.filter Entry.isJoin = w.trace.filter Entry.isJoin := by
  cases loc with
  | datagram size =>
    have harm : Mute Entry.isJoin armDatagram := armDatagram_mute isJoin_mark rfl
    change onDatagram codec res w = _ at h
    unfold onDatagram at h
    split at h
    · rename_i b bs sender
      split at h
      · exact Mute.filter_eq ((replyDatagram_mute isJoin_mark rfl).bind fun _ => harm) h
      · rename_i request hreq
        obtain ⟨v, w₁, hhandle, h⟩ := bind_eq_ok.mp h
        rw [harm.filter_eq h]
        refine handleDatagram_home hhandle fun args heq => hno args ?_
        simp [Codec.runs, hreq, heq]
    · exact harm.filter_eq h
  | datagramPeek => exact (onDatagramPeek_mute isJoin_mark rfl).filter_eq h
  | followSend fd => exact (closeFd_mute isJoin_mark).filter_eq h
  | accept => exact (onAccept_mute isJoin_mark).filter_eq h
  | sigchld => exact (onSigchld_mute isJoin_mark rfl rfl).filter_eq h
  | containerOutput pid lineBuf => exact (onContainerOutput_mute isJoin_mark rfl).filter_eq h
  | containerPtyOutput pid lineBuf => exact (onContainerPtyOutput_mute isJoin_mark rfl).filter_eq h
  | followWrite pid pipeId fd chunks => exact (onFollowWrite_mute isJoin_mark rfl).filter_eq h
  | sessionHeader sid acc =>
    refine onSessionRead_home h fun b bs f args _ hfeed => ?_
    rcases Reading.feed_header acc (b :: bs) with ⟨rd, hinl⟩
    rw [hinl] at hfeed
    cases hfeed
  | sessionPayload sid ty acc need =>
    refine onSessionRead_home h fun b bs f args hres hfeed hasked hs => hno args ?_
    obtain ⟨sess, hsess⟩ := Option.ne_none_iff_exists'.mp hs
    subst hres
    simp [Codec.runs, OpLocal.frame, hfeed, hasked, hsess]
  | sessionFrame sid streamFd buf off => exact (onSessionFrame_mute isJoin_mark rfl).filter_eq h
  | sessionDataHeader sid streamFd header payload off =>
    exact (onSessionDataHeader_mute isJoin_mark rfl rfl).filter_eq h
  | sessionDataPayload sid streamFd payload off =>
    exact (onSessionDataPayload_mute isJoin_mark rfl).filter_eq h
  | sessionOutputRead sid => exact (onSessionOutput_mute isJoin_mark rfl rfl).filter_eq h
  | sessionStdin sid buf off => exact (onSessionStdin_mute isJoin_mark).filter_eq h

end

theorem step_home {e : Event} (h : step codec w e = some w') (hok : Delivers (HomeStep codec) w e) :
    w'.trace.filter Entry.isJoin = w.trace.filter Entry.isJoin := by
  cases e with
  | enter =>
    obtain rfl := Option.some.inj h
    rfl
  | perform id r =>
    simp only [step] at h
    split at h
    · split_ifs at h
      obtain rfl := Option.some.inj h
      rename_i op _ _
      rcases w.trace_perform_cases op r with htr | ⟨e, htr, hout⟩
      · rw [htr]
      · rw [htr, List.filter_append]
        cases e <;> first | exact hout.elim | simp [Entry.isJoin]
    · cases h
  | deliver id answers =>
    simp only [step] at h
    cases hop : w.findOp id with
    | none => simp [hop] at h
    | some op =>
      cases hr : op.result with
      | none => simp [hop, hr] at h
      | some r =>
        simp only [hop, hr] at h
        have hstep : HomeStep codec { w with answers := answers } op r := hok op r hop hr
        have hcall := exec_eq_some.mp h
        exact Eq.trans (callback_home hcall hstep) rfl

/-- As long as no run request gets as far as a successful `setns`, the daemon is in the namespaces it
booted in, at every moment: in particular when a handler returns, and when a child is started. -/
theorem run_home (hb : booted answers = some w₀)
    (hr : Reaches (step codec) (Delivers (HomeStep codec)) w₀ w) :
    ∀ tr, tr <+: w.trace → ∀ ns, namespaceOf ns tr = none := by
  have h₀ : w₀.trace.filter Entry.isJoin = [] := by
    rw [List.filter_eq_nil_iff]
    intro e he
    have hboots := booted_trace hb e he
    cases e <;> first | exact hboots.elim | simp [Entry.isJoin]
  have hjoin : w.trace.filter Entry.isJoin = [] := by
    refine hr.invariant (P := fun w => w.trace.filter Entry.isJoin = []) h₀ ?_
    intro s e t hs hok hst
    exact (step_home hst hok).trans hs
  rintro tr ⟨rest, htr⟩ ns
  rw [← htr, List.filter_append, List.append_eq_nil_iff] at hjoin
  exact namespaceOf_eq_none hjoin.1

/-- A run in the namespaces of process 7, then a run in new ones. -/
def joinCodec : Codec :=
  { request := fun b => match b with
      | [1] => .ok (.run (sampleArgs false false false))
      | [8] => .ok (.run { sampleArgs false false false with netPid := some 7 })
      | _ => .error "malformed"
    winSize := fun _ => none }

/-- Process 7 has no network namespace file, so nothing is joined, and a later run starts its child
from the daemon's own namespaces. -/
theorem run_home_refused : ∃ w₀ w, booted quietBoot = some w₀ ∧
    Reaches (step joinCodec) (Delivers (HomeStep joinCodec)) w₀ w ∧ .started 100 ∈ w.trace ∧
      ∀ tr, tr <+: w.trace → ∀ ns, namespaceOf ns tr = none := by
  obtain ⟨w₀, w, hb, hr, ht⟩ := exists_of_executes (step joinCodec) (Delivers (HomeStep joinCodec))
    (booted quietBoot)
    (datagram 0 3 [8] [.call (.ok [10, 11]), .call (.ok [12]), .call (.error "ENOENT")] ++
      datagram 4 5 [1] runDetached)
    (fun _ w => decide (.started 100 ∈ w.trace)) (by decide +kernel)
  exact ⟨w₀, w, hb, hr, of_decide_eq_true ht, run_home hb hr⟩

/-- The second `setns` fails, the request is refused, and the daemon stays in the user namespace of
process 7. -/
theorem refused_run_moves_daemon : ∃ w₀ w, booted quietBoot = some w₀ ∧
    Reaches (step joinCodec) (fun _ _ => True) w₀ w ∧
      (∃ msg, .replied 0 (.error msg) ∈ w.trace) ∧ namespaceOf .user w.trace = some 7 := by
  obtain ⟨w₀, w, hb, hr, ht⟩ := exists_of_executes (step joinCodec) (fun _ _ => True)
    (booted quietBoot)
    (datagram 0 3 [8] [.call (.ok [10, 11]), .call (.ok [12]), .call (.ok [13]), .call (.ok []),
      .call (.error "EPERM")])
    (fun _ w => decide ((.replied 0 (.error "setns(CLONE_NEWNET) into pid 7 failed: EPERM") ∈ w.trace) ∧
      namespaceOf .user w.trace = some 7)) (by decide +kernel)
  obtain ⟨hreply, hns⟩ := of_decide_eq_true ht
  exact ⟨w₀, w, hb, hr, ⟨_, hreply⟩, hns⟩

end Conrt.Daemon
