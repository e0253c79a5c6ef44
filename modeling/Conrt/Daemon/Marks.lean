import Conrt.Base.Hoare
import Conrt.Daemon.Step

/-! Which of the marked entries a program may add: requests answered, buffers taken, loops armed. -/
namespace Conrt.Daemon

open Conrt.Base

theorem openFd_answers {k : FileKind} {num : ℕ} {fd : Fd k} {w w' : World}
    (h : openFd k num w = .ok fd w') :
    w'.answers = w.answers := by
  obtain ⟨w₀, w₁, hget, h⟩ := bind_eq_ok.mp h
  cases hget
  split_ifs at h
  · cases h
    rfl
  · cases h

theorem exec_eq_some {w w' : World} {answers : List Answer} {m : M Unit} : w.exec answers m = some w' ↔
    m { w with answers := answers } = .ok () w' := by
  unfold World.exec
  cases m { w with answers := answers } with
  | ok u w₁ => simp
  | error e w₁ => simp

/-- What is told apart among the entries: frames and headers of data frames for a session's stream,
lines for a follow pipe, ops of the loops, descriptors passed, replies, namespaces joined. -/
inductive Mark
  | frame | header | line | loop | send | reply | join
deriving DecidableEq

def OpLocal.mark : OpLocal → Option Mark
  | .sessionFrame .. => some .frame
  | .sessionDataHeader .. => some .header
  | .followWrite .. => some .line
  | .datagram _ | .datagramPeek | .sigchld => some .loop
  | .followSend _ => some .send
  | _ => none

def Entry.mark : Entry → Option Mark
  | .submitted loc _ _ _ => loc.mark
  | .replied _ _ => some .reply
  | .joined _ _ => some .join
  | _ => none

/-- From `w` to `w'` answers are taken in order and entries added, of which `q` selects none. -/
structure Hushed (q : Entry → Bool) (w w' : World) : Prop where
  trace : ∃ es, w'.trace = w.trace ++ es ∧ ∀ e ∈ es, q e = false
  answers : w'.answers <:+ w.answers

variable {q : Entry → Bool} {α : Type} {m : M α} {w w' w'' : World}

namespace Hushed

theorem of_eq (htr : w'.trace = w.trace) (ha : w'.answers = w.answers) : Hushed q w w' where
  trace := ⟨[], by simpa using htr, fun _ he => absurd he List.not_mem_nil⟩
  answers := ha ▸ List.suffix_rfl

theorem of_note {e : Entry} (he : q e = false) (htr : w'.trace = w.trace ++ [e])
    (ha : w'.answers = w.answers) : Hushed q w w' where
  trace := ⟨[e], htr, fun _ hmem => List.mem_singleton.mp hmem ▸ he⟩
  answers := ha ▸ List.suffix_rfl

theorem trans (h : Hushed q w w') (h' : Hushed q w' w'') : Hushed q w w'' := by
  obtain ⟨es, htr, hes⟩ := h.trace
  obtain ⟨es', htr', hes'⟩ := h'.trace
  refine ⟨⟨es ++ es', by rw [htr', htr, List.append_assoc], fun e he => ?_⟩, h'.answers.trans h.answers⟩
  exact (List.mem_append.mp he).elim (hes e) (hes' e)

instance : IsPreorder World (Hushed q) where
  refl _ := .of_eq rfl rfl
  trans _ _ _ := .trans

theorem filter_eq (h : Hushed q w w') : w'.trace.filter q = w.trace.filter q := by
  obtain ⟨es, htr, hes⟩ := h.trace
  have hnil : es.filter q = [] := List.filter_eq_nil_iff.mpr fun e he => by simp [hes e he]
  rw [htr, List.filter_append, hnil, List.append_nil]

end Hushed

/-- The program adds no entry that `q` selects. -/
abbrev Mute (q : Entry → Bool) {α : Type} (m : M α) : Prop := Through (Hushed q) m

theorem Mute.filter_eq (hm : Mute q m) {a : α} (h : m w = .ok a w') :
    w'.trace.filter q = w.trace.filter q := (Through.ok hm h).filter_eq

theorem filter_note {e : Entry} (he : q e = false) :
    (w.note e).trace.filter q = w.trace.filter q := by
  have h : Hushed q w (w.note e) := .of_note he rfl rfl
  exact h.filter_eq

section

variable {sid : ℕ} {pid : Pid} {k : FileKind} {loc : OpLocal} {fd : Option Handle} {want : ℕ}

theorem note_mute {e : Entry} (he : q e = false) : Mute q (note e) :=
  .update fun _ => .of_note he rfl rfl

theorem ask_of_nil {w : World} (h : w.answers = []) : ask w = .error .answer w := by
  unfold ask
  rw [get_bind_apply, h]
  rfl

theorem ask_of_cons {w : World} {a : Answer} {as : List Answer} (h : w.answers = a :: as) :
    ask w = .ok a { w with answers := as } := by
  unfold ask
  rw [get_bind_apply, h]
  rfl

theorem ask_eq_ok {a : Answer} (h : ask w = .ok a w') :
    ∃ as, w.answers = a :: as ∧ w' = { w with answers := as } := by
  cases ha : w.answers with
  | nil =>
    rw [ask_of_nil ha] at h
    cases h
  | cons b as =>
    rw [ask_of_cons ha] at h
    cases h
    exact ⟨as, rfl, rfl⟩

/-- What an answered submission leaves. -/
theorem submit_eq_ok {op : Option ℕ} (h : submit loc fd want w = .ok op w') :
    ∃ ok as, w.answers = .submit ok :: as ∧ op = (if ok then some w.nextOp else none) ∧
      w' = ({ w with answers := as } : World).submit loc fd want ok := by
  unfold submit at h
  obtain ⟨a, w₁, hask, h⟩ := bind_eq_ok.mp h
  obtain ⟨as, ha, rfl⟩ := ask_eq_ok hask
  cases a with
  | submit ok =>
    cases h
    exact ⟨ok, as, ha, rfl, rfl⟩
  | _ => cases h

/-- An answer taken is all that changes. -/
theorem ask_through {R : World → World → Prop} [Std.Refl R]
    (h : ∀ (w : World) a as, w.answers = a :: as → R w { w with answers := as }) :
    Through R ask := by
  intro w
  unfold finalState
  cases ha : w.answers with
  | nil =>
    rw [ask_of_nil ha]
    exact Std.Refl.refl w
  | cons a as =>
    rw [ask_of_cons ha]
    exact h w a as ha

theorem ask_mute : Mute q ask :=
  ask_through fun _ a as ha => ⟨⟨[], (List.append_nil _).symm, fun _ he => absurd he List.not_mem_nil⟩,
    ha ▸ List.suffix_cons a as⟩

theorem call_mute : Mute q call := by
  unfold call
  refine ask_mute.bind fun a => ?_
  split
  · exact .pure
  · exact .pure
  · exact .throw

theorem now_mute : Mute q now := by
  unfold now
  refine ask_mute.bind fun a => ?_
  split
  · exact .pure
  · exact .throw

theorem staleBytes_mute : Mute q staleBytes := by
  unfold staleBytes
  refine ask_mute.bind fun a => ?_
  split
  · exact .pure
  · exact .throw

theorem findSession_mute : Mute q (findSession sid) := Through.get.bind fun _ => .pure

theorem findContainer_mute : Mute q (findContainer pid) := Through.get.bind fun _ => .pure

theorem modifySession_mute {f : AttachSession → AttachSession} : Mute q (modifySession sid f) :=
  .update fun _ => .of_eq rfl rfl

theorem modifyContainer_mute {f : ContainerInfo → ContainerInfo} : Mute q (modifyContainer pid f) :=
  .update fun _ => .of_eq rfl rfl

variable {c : Mark → Bool} (hq : ∀ e, q e = true → e.mark.any c = true)
include hq

theorem ignores {e : Entry} (he : e.mark.any c = false) : q e = false := by
  by_contra h
  rw [hq e (by simpa using h)] at he
  contradiction

theorem openFd_mute {n : ℕ} : Mute q (openFd k n) := by
  unfold openFd
  refine Through.get.bind fun w => .ite ?_ .throw
  exact Through.bind (.update fun _ => .of_note (ignores hq rfl) rfl rfl) fun _ => .pure

theorem openOne_mute : Mute q (openOne k) := by
  unfold openOne
  refine ask_mute.bind fun a => ?_
  split
  · exact (openFd_mute hq).bind fun _ => .pure
  · exact .pure
  · exact .throw

theorem openPair_mute : Mute q (openPair k) := by
  unfold openPair
  refine ask_mute.bind fun a => ?_
  split
  · exact (openFd_mute hq).bind fun _ => (openFd_mute hq).bind fun _ => .pure
  · exact .pure
  · exact .throw

theorem openWhen_mute {wanted : Bool} : Mute q (openWhen wanted k) := by
  unfold openWhen
  refine .ite ((openPair_mute hq).bind fun r => ?_) .pure
  cases r with
  | ok pair => exact .pure
  | error e => exact .pure

theorem closeFd_mute {d : Handle} : Mute q (closeFd d) :=
  .update fun _ => .of_note (ignores hq rfl) rfl rfl

theorem closeAll_mute {hs : List Handle} : Mute q (closeAll hs) := .forEach fun _ => closeFd_mute hq

theorem submit_mute (hloc : loc.mark.any c = false) : Mute q (submit loc fd want) := by
  have hnew {file : Option File} {ok : Bool} : q (.submitted loc fd file ok) = false :=
    ignores hq hloc
  unfold submit
  refine ask_mute.bind fun a => ?_
  split
  · refine Through.get.bind fun w => Through.bind (.update fun w => ?_) fun _ => .pure
    exact .of_note hnew rfl rfl
  · exact .throw

theorem beginFrame_mute {stream : Fd .stream} {frame : Frame} (hloc : loc.mark.any c = false) :
    Mute q (beginFrame stream frame loc want) := by
  unfold beginFrame
  refine (submit_mute hq hloc).bind fun op => ?_
  cases op with
  | none => exact .pure
  | some op => exact Through.bind (note_mute (ignores hq rfl)) fun _ => .pure

theorem writeNow_mute {d : Handle} {b : Bytes} : Mute q (writeNow d b) := by
  unfold writeNow
  refine ask_mute.bind fun a => ?_
  split
  · refine Through.get.bind fun w => ?_
    split
    · exact .ite (Through.bind (note_mute (ignores hq rfl)) fun _ => .pure) .throw
    · exact .throw
  · exact .pure
  · exact .throw

theorem clone3Container_mute : Mute q clone3Container := by
  unfold clone3Container
  refine ask_mute.bind fun a => ?_
  split
  · refine Through.get.bind fun w => .ite ?_ .throw
    exact Through.bind (.update fun _ => .of_note (ignores hq rfl) rfl rfl) fun _ => .pure
  · exact .pure
  · exact .throw

variable {streamFd : Fd .stream} {res : Result}

omit hq in
theorem storeSessionOp_mute {which : SessionOp} {op : Option ℕ} :
    Mute q (storeSessionOp sid which op) := modifySession_mute

omit hq in
theorem sessionStream_mute : Mute q (sessionStream sid) := findSession_mute.bind fun _ => .pure

omit hq in
theorem sessionStdin_mute : Mute q (sessionStdin sid) := findSession_mute.bind fun _ => .pure

theorem closeSession_mute : Mute q (closeSession sid) := by
  unfold closeSession
  refine findSession_mute.bind fun s => ?_
  cases s with
  | none => exact .pure
  | some sess =>
    refine Through.bind (.update fun _ => .of_note (ignores hq rfl) rfl rfl) fun _ => ?_
    refine Through.bind (.forEach fun _ => note_mute (ignores hq rfl)) fun _ => ?_
    exact closeFd_mute hq

theorem submitFor_mute {which : SessionOp} (hloc : loc.mark.any c = false) :
    Mute q (submitFor sid which loc fd want) := by
  unfold submitFor
  refine (submit_mute hq hloc).bind fun op => ?_
  cases op with
  | none => exact .pure
  | some op => exact storeSessionOp_mute

theorem armSessionFrame_mute (hframe : c .frame = false) {ty : UInt8} {payload : Bytes} :
    Mute q (armSessionFrame sid streamFd ty payload) :=
  .discard (beginFrame_mute hq hframe)

theorem maybeFinishSession_mute (hframe : c .frame = false) : Mute q (maybeFinishSession sid) := by
  unfold maybeFinishSession
  refine findSession_mute.bind fun s => ?_
  cases s with
  | none => exact .pure
  | some sess =>
    exact .ite .pure (modifySession_mute.bind fun _ => armSessionFrame_mute hq hframe)

theorem onSessionFrame_mute (hframe : c .frame = false) {buf : Bytes} {off : ℕ} :
    Mute q (onSessionFrame sid streamFd buf off res) := by
  unfold onSessionFrame
  split
  · refine .ite (Through.bind (findSession_mute.bind fun _ => .pure) fun b => ?_) ?_
    · exact .ite (closeSession_mute hq) .pure
    · exact .discard (submit_mute hq hframe)
  · exact closeSession_mute hq

theorem writeFrameNow_mute {ty : UInt8} {payload : Bytes} :
    Mute q (writeFrameNow streamFd ty payload) := by
  unfold writeFrameNow
  exact Through.bind (note_mute (ignores hq rfl)) fun _ => .discard (writeNow_mute hq)

theorem finishSessionOutput_mute (hframe : c .frame = false) : Mute q (finishSessionOutput sid) :=
  modifySession_mute.bind fun _ => maybeFinishSession_mute hq hframe

theorem armSessionOutput_mute (hframe : c .frame = false) : Mute q (armSessionOutput sid) := by
  unfold armSessionOutput
  refine findSession_mute.bind fun s => ?_
  split
  · exact finishSessionOutput_mute hq hframe
  · exact submitFor_mute hq rfl

theorem onSessionOutput_mute (hframe : c .frame = false) (hheader : c .header = false) :
    Mute q (onSessionOutput sid res) := by
  unfold onSessionOutput
  refine storeSessionOp_mute.bind fun _ => ?_
  split
  · refine findSession_mute.bind fun s => ?_
    cases s with
    | none => exact finishSessionOutput_mute hq hframe
    | some sess =>
      refine Through.bind (beginFrame_mute hq hheader) fun op => ?_
      exact .ite (finishSessionOutput_mute hq hframe) .pure
  · exact finishSessionOutput_mute hq hframe

theorem onSessionDataHeader_mute (hframe : c .frame = false) (hheader : c .header = false)
    {header payload : Bytes} {off : ℕ} :
    Mute q (onSessionDataHeader sid streamFd header payload off res) := by
  unfold onSessionDataHeader
  split
  · exact .ite (.discard (submit_mute hq hheader)) (.discard (submit_mute hq rfl))
  · exact finishSessionOutput_mute hq hframe

theorem onSessionDataPayload_mute (hframe : c .frame = false) {payload : Bytes} {off : ℕ} :
    Mute q (onSessionDataPayload sid streamFd payload off res) := by
  unfold onSessionDataPayload
  split
  · exact .ite (armSessionOutput_mute hq hframe) (.discard (submit_mute hq rfl))
  · exact finishSessionOutput_mute hq hframe

theorem onSessionStdin_mute {buf : Bytes} {off : ℕ} : Mute q (onSessionStdin sid buf off res) := by
  unfold onSessionStdin
  split
  · refine .ite (sessionStdin_mute.bind fun fd => ?_) .pure
    exact .discard (submit_mute hq rfl)
  · exact .pure

end

end Conrt.Daemon
