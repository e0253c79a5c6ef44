import Conrt.Daemon.Pipes

/-! Who is to close each descriptor: everything the daemon opens is held once, by its state or by the
running callback. -/
namespace Conrt.Daemon

open Conrt.Base

variable {τ : Terms} {h h' : List Token} {w w' w₀ : World} {codec : Codec} {answers : List Answer}
  {pid : Pid} {sid : ℕ} {tr es : List Entry} {t : Token} {loc : OpLocal} {fd : Option Handle}
  {want id : ℕ} {ok : Bool} {op : InFlight} {r : Result} {d : Handle} {ds : List Handle}

namespace World

def inContainers (w : World) (d : Handle) : ℕ := w.g.containers.total (·.handles.count d)

def inOutputs (w : World) (d : Handle) : ℕ := w.g.outputs.total ([·.fd.handle].count d)

def inSessions (w : World) (d : Handle) : ℕ := w.g.attachSessions.total (·.handles.count d)

def inOps (w : World) (d : Handle) : ℕ := (w.ops.map (·.handles.count d)).sum

theorem count_owned : w.owned.count d = w.g.listeners.count d + w.inContainers d + w.inOutputs d +
    w.inSessions d + w.inOps d := by
  unfold owned inContainers inOutputs inSessions inOps Table.total
  simp only [List.count_append, List.count_flatMap, Function.comp_def]
  congr 3
  induction w.g.outputs.values with
  | nil => rfl
  | cons o os ih => simp [List.count_cons, ih, Nat.add_comm]

variable {f : ContainerInfo → ContainerInfo} {info : ContainerInfo} {sess : AttachSession}
  {u : AttachSession → AttachSession}

theorem inContainers_congr (hg : w'.g.containers = w.g.containers) :
    w'.inContainers d = w.inContainers d := by
  unfold inContainers
  rw [hg]

private theorem inSessions_congr (hg : w'.g.attachSessions = w.g.attachSessions) :
    w'.inSessions d = w.inSessions d := by
  unfold inSessions
  rw [hg]

theorem inOps_congr (ho : w'.ops = w.ops) : w'.inOps d = w.inOps d := by
  unfold inOps
  rw [ho]

private theorem inContainers_modify (hi : w.g.containers.lookup pid = some info) :
    (w.modifyContainer pid f).inContainers d + info.handles.count d =
      w.inContainers d + (f info).handles.count d := Table.total_update hi

private theorem inContainers_erase (hi : w.g.containers.lookup pid = some info)
    (hg : w'.g.containers = w.g.containers.erase pid) :
    w.inContainers d = info.handles.count d + w'.inContainers d := by
  unfold inContainers
  rw [hg]
  exact Table.total_erase hi

private theorem inSessions_modify (hs : w.g.attachSessions.lookup sid = some sess) :
    (w.modifySession sid u).inSessions d + sess.handles.count d =
      w.inSessions d + (u sess).handles.count d := Table.total_update hs

/-- A change that leaves the descriptors alone. -/
@[simp] theorem inSessions_modifySame (hu : ∀ sess, (u sess).handles = sess.handles) :
    (w.modifySession sid u).inSessions d = w.inSessions d :=
  Table.total_update_same fun sess _ => by rw [hu]

@[simp] theorem inContainers_modifySame (hf : ∀ info, (f info).handles = info.handles) :
    (w.modifyContainer pid f).inContainers d = w.inContainers d :=
  Table.total_update_same fun info _ => by rw [hf]

theorem inOps_submit : (w.submit loc fd want ok).inOps d =
    w.inOps d + if ok then (InFlight.handles ⟨0, loc, none, 0, none⟩).count d else 0 := by
  unfold inOps
  rw [ops_submit]
  split_ifs
  · rw [List.map_append, List.sum_append]
    rfl
  · rfl

theorem inOps_takeOp (hop : w.findOp id = some op) :
    w.inOps d = (w.takeOp id).inOps d + op.handles.count d := by
  obtain ⟨l₁, l₂, hl, hl'⟩ := ops_takeOp hop
  unfold inOps
  rw [hl, hl', List.map_append, List.map_append, List.map_cons, List.sum_append, List.sum_append,
    List.sum_cons]
  omega

theorem inOps_perform (hn : w.Numbered) (hop : w.findOp op.id = some op) :
    (w.perform op r).inOps d + op.handles.count d =
      w.inOps d + ({ op with result := some r } : InFlight).handles.count d := by
  obtain ⟨l₁, l₂, hl, hl'⟩ := ops_perform (r := r) hn hop
  unfold inOps
  rw [hl, hl', List.map_append, List.map_append, List.map_cons, List.map_cons, List.sum_append,
    List.sum_append, List.sum_cons, List.sum_cons]
  omega

end World

@[simp] theorem handlesOf_cons : handlesOf (t :: h) = t.handle.toList ++ handlesOf h := by
  unfold handlesOf
  rw [List.filterMap_cons]
  cases t.handle <;> rfl

@[simp] theorem handlesOf_overlays {dirs : List ℕ} : handlesOf (dirs.map Token.overlay) = [] := by
  simp [handlesOf, List.filterMap_map, Function.comp_def, Token.handle]

@[simp] theorem handlesOf_checks {sids : List ℕ} : handlesOf (sids.map Token.check) = [] := by
  simp [handlesOf, List.filterMap_map, Function.comp_def, Token.handle]

@[simp] theorem handlesOf_lines {line : Bytes} {ids : List ℕ} :
    handlesOf (ids.map fun id => .line pid id line) = [] := by
  simp [handlesOf, List.filterMap_map, Function.comp_def, Token.handle]

/-- How often a descriptor is held by the callback or by the state. -/
def held (h : List Token) (w : World) (d : Handle) : ℕ := (handlesOf h).count d + w.owned.count d

theorem held_eq : held h w d = (handlesOf h).count d + (w.g.listeners.count d + w.inContainers d +
    w.inOutputs d + w.inSessions d + w.inOps d) := by
  rw [held, World.count_owned]

/-- The op that only carries its own descriptor. -/
theorem handles_local (hloc : ∀ fd, loc ≠ .followSend fd) :
    InFlight.handles ⟨0, loc, none, 0, none⟩ = [] := by
  cases loc <;> first | rfl | exact (hloc _ rfl).elim

theorem not_followSend_of_resumes {stdinFd : ℕ → Option Handle} {n : ℕ} {loc' : OpLocal}
    (hr : Resumes stdinFd n loc loc' fd) : ∀ fd, loc' ≠ .followSend fd := by
  rintro c rfl
  cases hr

@[simp] theorem World.fds_beginFrame {stream : Fd .stream} {frame : Frame} :
    (w.beginFrame stream frame loc want ok).fds = w.fds := by
  unfold beginFrame
  split_ifs <;> rfl

@[simp] theorem World.nextGen_beginFrame {stream : Fd .stream} {frame : Frame} :
    (w.beginFrame stream frame loc want ok).nextGen = w.nextGen := by
  unfold beginFrame
  split_ifs <;> rfl

@[simp] theorem World.fds_reap {exitCode : ℤ} {told : Option ℕ} :
    (w.reap pid exitCode told).fds = w.fds := by cases told <;> rfl

@[simp] theorem World.nextGen_reap {exitCode : ℤ} {told : Option ℕ} :
    (w.reap pid exitCode told).nextGen = w.nextGen := by cases told <;> rfl

/-- Reaping a child closes nothing. -/
theorem held_reap {exitCode : ℤ} {told : Option ℕ} :
    held h (w.reap pid exitCode told) d = held h w d := by
  have hsess : (w.reap pid exitCode told).inSessions d = w.inSessions d := by
    cases told with
    | none => rfl
    | some sid => exact Table.total_update_same fun _ _ => rfl
  have hout : (w.reap pid exitCode told).inOutputs d = w.inOutputs d := by cases told <;> rfl
  rw [held_eq, held_eq, World.listeners_reap, World.inContainers_congr World.containers_reap, hout,
    hsess, World.inOps_congr World.ops_reap]

private theorem handlesOf_tokens (hr : op.result = some r) : handlesOf (op.loc.tokens r) = op.handles := by
  unfold InFlight.handles
  rw [hr]
  cases op.loc with
  | containerOutput pid lineBuf =>
    simp only [OpLocal.tokens, drainToken]
    split <;> rfl
  | containerPtyOutput pid lineBuf =>
    simp only [OpLocal.tokens, drainToken]
    split <;> rfl
  | accept => simp [OpLocal.tokens, Token.handle]
  | sigchld => cases r <;> rfl
  | _ => rfl

theorem count_sessionHandles {sess : AttachSession} :
    sess.handles.count d = [sess.streamFd.handle].count d + (RawFd.handles sess.ptmFd).count d +
      (RawFd.handles sess.logReadFd).count d := by
  unfold AttachSession.handles
  rw [← List.singleton_append, List.count_append, List.count_append]
  omega

/-- What is held after a step that leaves the listeners, the outputs and the ops alone. -/
theorem held_le (hl : w'.g.listeners = w.g.listeners) (ho : w'.g.outputs = w.g.outputs)
    (hops : w'.ops = w.ops)
    (hle : (handlesOf h').count d + w'.inContainers d + w'.inSessions d ≤
      (handlesOf h).count d + w.inContainers d + w.inSessions d) : held h' w' d ≤ held h w d := by
  have hout : w'.inOutputs d = w.inOutputs d := by
    unfold World.inOutputs
    rw [ho]
  rw [held_eq, held_eq, hl, hout, World.inOps_congr hops]
  omega

private theorem held_modifySession {u : AttachSession → AttachSession}
    (hu : ∀ sess, (u sess).handles = sess.handles) : held h (w.modifySession sid u) d = held h w d := by
  rw [held_eq, held_eq, World.inSessions_modifySame hu]
  rfl

private theorem held_modifyContainer {f : ContainerInfo → ContainerInfo}
    (hf : ∀ info, (f info).handles = info.handles) :
    held h (w.modifyContainer pid f) d = held h w d := by
  rw [held_eq, held_eq, World.inContainers_modifySame hf]
  rfl

private theorem count_attachPipe {info : ContainerInfo} {p : AsyncPipeWriter} :
    (info.attachPipe p).handles.count d = info.handles.count d + [p.fd.handle].count d := by
  unfold ContainerInfo.handles ContainerInfo.attachPipe LogGateway.attach LogGateway.handles
  simp only [List.map_append, List.count_append, List.map_cons, List.map_nil]
  omega

private theorem handles_push {info : ContainerInfo} {g : LogGateway} {line : Bytes} {ids : List ℕ}
    (hp : info.gateway.push line = some (g, ids)) :
    ({ info with gateway := g } : ContainerInfo).handles = info.handles := by
  unfold ContainerInfo.handles LogGateway.handles
  simp only [(LogGateway.push_eq hp).1, List.map_map, Function.comp_def]

private theorem count_completeWrite (info : ContainerInfo) (x : ℕ) (ok : Bool) :
    info.handles.count d = ({ info with gateway := (info.gateway.completeWrite x ok).1 } :
      ContainerInfo).handles.count d + (info.gateway.completeWrite x ok).2.count d := by
  have hpipes : info.gateway.handles.count d =
      (info.gateway.completeWrite x ok).1.handles.count d +
        (info.gateway.completeWrite x ok).2.count d := by
    unfold LogGateway.handles
    rcases info.gateway.completeWrite_cases x ok with ⟨-, heq⟩ | ⟨p, rest, -, hperm, hclosed, hpipes⟩
    · rw [heq]
      rfl
    · rw [(hperm.map _).count_eq, (hpipes.map _).count_eq, hclosed]
      cases ok <;> simp [List.count_cons]
  unfold ContainerInfo.handles
  simp only [List.count_append]
  omega

/-- A close is of a descriptor that is still what it was opened as. -/
def ClosesOwn (before : List Entry) : Entry → Prop
  | .closed d victim => victim = some d.2 ∧ ∀ v, .closed d v ∉ before
  | _ => True

/-- Everything held is held once and is what it was opened as, and only such descriptors have been
closed. -/
structure Ledger (h : List Token) (w : World) : Prop where
  owns : Owns (fun n => w.fds.lookup n) (held h w)
  below : ∀ d, 0 < held h w d → d.2.gen < w.nextGen
  closed : ∀ d v, .closed d v ∈ w.trace → d.2.gen < w.nextGen ∧ held h w d = 0
  history : Always ClosesOwn w.trace

namespace Ledger

theorem init : Ledger [] .init := by
  have hnone : held [] .init = fun _ => 0 := rfl
  refine ⟨hnone ▸ .none, fun d hd => ?_, fun d v hmem => by simp [World.init] at hmem, Always.nil⟩
  rw [hnone] at hd
  exact absurd hd (Nat.lt_irrefl 0)

/-- Nothing is opened or closed. -/
theorem congr (hx : Ledger h w) (hle : ∀ d, held h' w' d ≤ held h w d) (hfds : w'.fds = w.fds)
    (hgen : w'.nextGen = w.nextGen)
    (hclosed : ∀ d v, .closed d v ∈ w'.trace → .closed d v ∈ w.trace)
    (hhist : Always ClosesOwn w.trace → Always ClosesOwn w'.trace) : Ledger h' w' := by
  refine ⟨?_, fun d hd => ?_, fun d v hmem => ?_, hhist hx.history⟩
  · rw [hfds]
    exact hx.owns.anti hle
  · rw [hgen]
    exact hx.below d (hd.trans_le (hle d))
  · obtain ⟨hlt, hzero⟩ := hx.closed d v (hclosed d v hmem)
    have hd := hle d
    exact ⟨hgen ▸ hlt, by omega⟩

/-- A new descriptor. -/
theorem openFd {k : FileKind} {n : ℕ} (hx : Ledger h w) (hn : w.fds.lookup n = none)
    (hle : ∀ d, held h' w' d ≤ held h w d + if d = (n, ⟨k, w.nextGen⟩) then 1 else 0)
    (hfds : w'.fds = w.fds.insert n ⟨k, w.nextGen⟩) (hgen : w'.nextGen = w.nextGen + 1)
    (htr : w'.trace = w.trace ++ [.opened (n, ⟨k, w.nextGen⟩)]) : Ledger h' w' := by
  have hlook : (fun m => w'.fds.lookup m) =
      Function.update (fun m => w.fds.lookup m) n (some ⟨k, w.nextGen⟩) := by
    funext m
    rw [hfds, Table.lookup_insert_ite, Function.update_apply]
  refine ⟨?_, fun d hd => ?_, fun d v hmem => ?_, ?_⟩
  · rw [hlook]
    exact hx.owns.acquire hn hle
  · have hd' := hle d
    rw [hgen]
    split_ifs at hd' with hnew
    · rw [hnew]
      exact Nat.lt_succ_self _
    · have hlt := hx.below d (by omega)
      omega
  · rw [htr] at hmem
    obtain ⟨hlt, hzero⟩ := hx.closed d v (by simpa using hmem)
    have hd' := hle d
    rw [if_neg (by rintro rfl; exact absurd hlt (Nat.lt_irrefl _))] at hd'
    omega
  · rw [htr, Always.concat_iff]
    exact ⟨hx.history, trivial⟩

/-- A descriptor that is held is closed. -/
theorem closeFd (hx : Ledger h w)
    (hle : ∀ e, held h' (w.closeFd d) e + (if e = d then 1 else 0) ≤ held h w e) :
    Ledger h' (w.closeFd d) := by
  have hd : 0 < held h w d := by
    have hd := hle d
    rw [if_pos rfl] at hd
    omega
  have hvictim : w.file (some d) = some d.2 := hx.owns.current d hd
  have hlook : (fun m => (w.closeFd d).fds.lookup m) =
      Function.update (fun m => w.fds.lookup m) d.1 none := by
    funext m
    change (w.fds.erase d.1).lookup m = _
    rw [Table.lookup_erase_ite, Function.update_apply]
  refine ⟨?_, fun e he => hx.below e ?_, fun e v hmem => ?_, ?_⟩
  · rw [hlook]
    exact hx.owns.release hle
  · exact he.trans_le (Nat.le_of_add_right_le (hle e))
  · rw [World.trace_closeFd, List.mem_append, List.mem_singleton] at hmem
    have he := hle e
    rcases hmem with hmem | heq
    · obtain ⟨hlt, hzero⟩ := hx.closed e v hmem
      exact ⟨hlt, by omega⟩
    · obtain ⟨rfl, -⟩ := Entry.closed.inj heq
      have hone := hx.owns.single e
      rw [if_pos rfl] at he
      exact ⟨hx.below e hd, by omega⟩
  · rw [World.trace_closeFd, Always.concat_iff]
    refine ⟨hx.history, hvictim, fun v hmem => ?_⟩
    have hzero := (hx.closed d v hmem).2
    omega

/-- Holding less. -/
theorem sub (hx : Ledger h w) (hle : ∀ d, (handlesOf h').count d ≤ (handlesOf h).count d) :
    Ledger h' w :=
  hx.congr (fun d => Nat.add_le_add_right (hle d) _) rfl rfl (fun _ _ hmem => hmem) id

/-- A token is given up. -/
theorem shed (hx : Ledger (t :: h) w) : Ledger h w :=
  hx.sub fun d => by
    rw [handlesOf_cons, List.count_append]
    exact Nat.le_add_left _ _

theorem swap {t' : Token} (hx : Ledger (t :: h) w) (ht : t'.handle = t.handle) :
    Ledger (t' :: h) w :=
  hx.sub fun d => by rw [handlesOf_cons, handlesOf_cons, ht]

/-- A token that is no descriptor is taken. -/
theorem cons (hx : Ledger h w) (ht : t.handle = none) : Ledger (t :: h) w :=
  hx.sub fun d => by
    rw [handlesOf_cons, ht]
    exact le_rfl

/-- The world changes where nothing is held. -/
theorem keep (hx : Ledger h w) (ho : w'.owned = w.owned) (hfds : w'.fds = w.fds)
    (hgen : w'.nextGen = w.nextGen) (htr : w'.trace = w.trace) : Ledger h w' := by
  refine hx.congr (fun d => ?_) hfds hgen (fun d v hmem => htr ▸ hmem) (htr ▸ id)
  rw [held, held, ho]

theorem note {e : Entry} (hx : Ledger h w) (he : ∀ d v, e ≠ .closed d v := by simp) :
    Ledger h (w.note e) := by
  refine hx.congr (fun d => le_rfl) rfl rfl (fun d v hmem => ?_) fun hh => ?_
  · rw [World.trace_note, List.mem_append, List.mem_singleton] at hmem
    exact hmem.resolve_right fun heq => he d v heq.symm
  · rw [World.trace_note, Always.concat_iff]
    refine ⟨hh, ?_⟩
    cases e with
    | closed d v => exact (he d v rfl).elim
    | _ => trivial

/-- An op is submitted, and what it is given to carry is let go. -/
theorem submit (hx : Ledger h w) (hle : ∀ d, (handlesOf h').count d +
    (if ok then (InFlight.handles ⟨0, loc, none, 0, none⟩).count d else 0) ≤
      (handlesOf h).count d) : Ledger h' (w.submit loc fd want ok) := by
  refine hx.congr (fun d => ?_) rfl rfl (by simp) (by simp [ClosesOwn])
  have hd := hle d
  rw [held_eq, held_eq, World.inOps_submit]
  change _ + (w.g.listeners.count d + w.inContainers d + w.inOutputs d + w.inSessions d + _) ≤ _
  omega

/-- The op carries nothing. -/
theorem submitBare (hx : Ledger h w) (hloc : ∀ fd, loc ≠ .followSend fd := by simp) :
    Ledger h (w.submit loc fd want ok) :=
  hx.submit fun d => by
    rw [handles_local hloc]
    split_ifs <;> exact le_rfl

theorem beginFrame {stream : Fd .stream} {frame : Frame} (hx : Ledger h w)
    (hloc : ∀ fd, loc ≠ .followSend fd := by simp) :
    Ledger h (w.beginFrame stream frame loc want ok) := by
  unfold World.beginFrame
  split_ifs
  · exact (hx.submitBare hloc).note
  · exact hx.submitBare hloc

theorem takeOp (hx : Ledger h w) (hop : w.findOp id = some op)
    (hle : ∀ d, (handlesOf h').count d ≤ (handlesOf h).count d + op.handles.count d) :
    Ledger h' (w.takeOp id) := by
  refine hx.congr (fun d => ?_) rfl rfl (fun _ _ hmem => hmem) fun hh => hh
  have hops := World.inOps_takeOp (d := d) hop
  have hd := hle d
  rw [held_eq, held_eq]
  change _ + (w.g.listeners.count d + w.inContainers d + w.inOutputs d + w.inSessions d + _) ≤ _
  omega

theorem modifySession {sess : AttachSession} {u : AttachSession → AttachSession}
    (hx : Ledger h w) (hs : w.g.attachSessions.lookup sid = some sess)
    (hle : ∀ d, (handlesOf h').count d + (u sess).handles.count d ≤
      (handlesOf h).count d + sess.handles.count d) : Ledger h' (w.modifySession sid u) := by
  refine hx.congr (fun d => held_le rfl rfl rfl ?_) rfl rfl (fun _ _ hmem => hmem) id
  have hmod := World.inSessions_modify (d := d) (u := u) hs
  have hd := hle d
  change _ + w.inContainers d + (w.modifySession sid u).inSessions d ≤ _
  omega

/-- The session keeps its descriptors. -/
theorem modifySessionSame {u : AttachSession → AttachSession} (hx : Ledger h w)
    (hu : ∀ sess, (u sess).handles = sess.handles) : Ledger h (w.modifySession sid u) :=
  hx.congr (fun _ => (held_modifySession hu).le) rfl rfl (fun _ _ hmem => hmem) id

theorem modifyContainer {info : ContainerInfo} {f : ContainerInfo → ContainerInfo}
    (hx : Ledger h w) (hi : w.g.containers.lookup pid = some info)
    (hle : ∀ d, (handlesOf h').count d + (f info).handles.count d ≤
      (handlesOf h).count d + info.handles.count d) : Ledger h' (w.modifyContainer pid f) := by
  refine hx.congr (fun d => held_le rfl rfl rfl ?_) rfl rfl (fun _ _ hmem => hmem) id
  have hmod := World.inContainers_modify (d := d) (f := f) hi
  have hd := hle d
  change _ + (w.modifyContainer pid f).inContainers d + w.inSessions d ≤ _
  omega

theorem modifyContainerSame {f : ContainerInfo → ContainerInfo} (hx : Ledger h w)
    (hf : ∀ info, (f info).handles = info.handles) : Ledger h (w.modifyContainer pid f) :=
  hx.congr (fun _ => (held_modifyContainer hf).le) rfl rfl (fun _ _ hmem => hmem) id

/-- The gateway takes the write end of a pipe over. -/
theorem attachPipe {info : ContainerInfo} {id : ℕ} {write : Fd .pipe}
    (hx : Ledger (t :: h) w) (hi : w.g.containers.lookup pid = some info)
    (ht : t.handle = some write.handle) : Ledger h (w.attachPipe pid id write) := by
  have hx' : Ledger (t :: h) { w with g.nextPipeId := id + 1 } := hx.keep rfl rfl rfl rfl
  refine hx'.modifyContainer hi fun d => ?_
  rw [count_attachPipe, handlesOf_cons, ht, List.count_append]
  change _ + (_ + [write.handle].count d) ≤ [write.handle].count d + _ + _
  omega

theorem insertContainer {info : ContainerInfo} (hx : Ledger h w)
    (hle : ∀ d, (handlesOf h').count d + info.handles.count d ≤ (handlesOf h).count d) :
    Ledger h' { w with g.containers := w.g.containers.insert pid info } := by
  refine hx.congr (fun d => held_le rfl rfl rfl ?_) rfl rfl (fun _ _ hmem => hmem) id
  have hcont : Table.total (w.g.containers.insert pid info) (·.handles.count d) ≤
      info.handles.count d + w.inContainers d := Table.total_insert_le
  have hd := hle d
  change _ + Table.total (w.g.containers.insert pid info) _ + w.inSessions d ≤ _
  omega

theorem buryContainer {info : ContainerInfo} (hx : Ledger h w)
    (hi : w.g.containers.lookup pid = some info)
    (hle : ∀ d, (handlesOf h').count d ≤ (handlesOf h).count d + info.handles.count d) :
    Ledger h' (w.buryContainer pid info) := by
  refine hx.congr (fun d => held_le rfl rfl rfl ?_) rfl rfl (by simp) (by simp [ClosesOwn])
  have hcont : w.inContainers d = _ + (w.buryContainer pid info).inContainers d :=
    World.inContainers_erase hi rfl
  have hd := hle d
  change _ + _ + w.inSessions d ≤ _
  omega

private theorem insertOutput {log : Fd .pipe} (hx : Ledger (t :: h) w) (ht : t.handle = some log.handle) :
    Ledger h { w with g.outputs := w.g.outputs.insert pid ⟨log⟩ } := by
  refine hx.congr (fun d => ?_) rfl rfl (fun _ _ hmem => hmem) id
  have hout : Table.total (w.g.outputs.insert pid ⟨log⟩) ([·.fd.handle].count d) ≤
      [log.handle].count d + w.inOutputs d := Table.total_insert_le
  rw [held_eq, held_eq, handlesOf_cons, ht, List.count_append]
  change _ + (w.g.listeners.count d + w.inContainers d +
    Table.total (w.g.outputs.insert pid ⟨log⟩) _ + w.inSessions d + w.inOps d) ≤
      [log.handle].count d + _ + _
  omega

theorem reap {exitCode : ℤ} {told : Option ℕ} (hx : Ledger h w) :
    Ledger h (w.reap pid exitCode told) :=
  hx.congr (fun _ => held_reap.le) (by simp) (by simp) (by simp) (by simp [ClosesOwn])

end Ledger

theorem Move.ledger (hτ : τ.owned) (hm : Move τ (h, w) (h', w')) (hx : Ledger h w) :
    Ledger h' w' := by
  cases hm with
  | idle => exact hx.keep rfl rfl rfl rfl
  | note he => exact hx.note fun d v heq => by simp [heq, Entry.Plain] at he
  | perm hp => exact hx.sub fun d => ((hp.filterMap _).count_eq d).le
  -- descriptors
  | @acquire _ _ k n hn =>
    refine hx.openFd hn (fun d => ?_) rfl rfl rfl
    rw [held, held, handlesOf_cons, List.count_append]
    change List.count d [(n, ⟨k, w.nextGen⟩)] + _ + w.owned.count d ≤ _
    rw [List.count_singleton]
    simp only [beq_iff_eq, eq_comm (a := d)]
    omega
  | @release _ _ t d ht =>
    refine hx.closeFd fun e => ?_
    rw [held, held, handlesOf_cons, ht, List.count_append]
    change _ + w.owned.count e + _ ≤ List.count e [d] + _ + _
    rw [List.count_singleton]
    simp only [beq_iff_eq, eq_comm (a := e)]
    omega
  | forget | leak => exact hx.shed
  | writeNow =>
    refine (hx.swap ?_).note
    rfl
  -- submissions
  | refused hloose =>
    refine hx.submitBare ?_
    rintro fd rfl
    cases hloose
  | denied => exact hx.shed.submit fun _ => le_rfl
  | starved => exact hx.shed.note
  | read hr =>
    refine hx.submitBare ?_
    rintro fd rfl
    cases hr
  | output => exact hx.submitBare
  | passFd =>
    refine hx.submit fun d => ?_
    rw [handlesOf_cons, List.count_append, if_pos rfl]
    exact (Nat.add_comm _ _).le
  -- completions
  | resume hop hr hres =>
    have hx' := hx.takeOp hop fun d => Nat.le_add_right _ _
    exact hx'.submitBare (not_followSend_of_resumes hres)
  | retire hop hr =>
    refine hx.takeOp hop fun d => ?_
    rw [handlesOf_append, handlesOf_tokens hr, List.count_append]
    omega
  -- loops
  | @listen _ _ datagram listener signal hl =>
    refine hx.congr (fun d => ?_) rfl rfl (fun _ _ hmem => hmem) id
    rw [held_eq, held_eq, handlesOf_append, handlesOf_holdFresh, List.count_append, hl]
    change (handlesOf _).count d + ([datagram.handle, listener.handle, signal.handle].count d +
      w.inContainers d + w.inOutputs d + w.inSessions d + w.inOps d) ≤ _
    simp [Token.handle, List.count_cons]
    omega
  | relisten hl =>
    refine hx.shed.submitBare ?_
    rintro fd rfl
    cases hl
  -- frames
  | respond | data => exact hx.beginFrame
  | refuse => exact hx.note
  | refuseNow => exact hx.note.note
  | finish =>
    refine (hx.shed.modifySessionSame fun _ => ?_).beginFrame
    rfl
  | unfinished => exact hx.shed
  -- sessions
  | @accept _ _ fd =>
    refine hx.congr (fun d => held_le rfl rfl rfl ?_) rfl rfl (fun _ _ hmem => hmem) id
    have hins : World.inSessions { w with
        g.nextSessionId := w.g.nextSessionId + 1
        g.attachSessions := w.g.attachSessions.insert w.g.nextSessionId (.new fd) } d ≤
          [fd.handle].count d + w.inSessions d := Table.total_insert_le
    rw [handlesOf_cons, List.count_append]
    change _ + w.inContainers d + _ ≤ [fd.handle].count d + _ + _ + _
    omega
  | @close _ _ sid sess hs =>
    refine hx.congr (fun d => held_le rfl rfl rfl ?_) rfl rfl (by simp) (by simp [ClosesOwn])
    have herase : w.inSessions d = sess.handles.count d + (w.dropSession sid).inSessions d :=
      Table.total_erase hs
    rw [count_sessionHandles] at herase
    rw [handlesOf_cons, List.count_append]
    change [sess.streamFd.handle].count d + _ + w.inContainers d + _ ≤ _
    omega
  | @storeOp _ _ sid which op => exact hx.modifySessionSame fun _ => by cases which <;> rfl
  | drained => exact (hx.cons rfl).modifySessionSame fun _ => rfl
  | adoptRun hs =>
    refine (hx.modifySession hs fun d => ?_).note
    rw [count_sessionHandles, count_sessionHandles, handlesOf_append, handlesOf_holdFresh,
      List.count_append, List.count_append]
    simp only
    omega
  | @adoptAttach _ _ sid sess pid info read write hs hi =>
    have hx' : Ledger (.fresh read.handle [] :: h') (w.attachPipe pid w.g.nextPipeId write) :=
      hx.attachPipe hi rfl
    refine (hx'.modifySession hs fun d => ?_).note
    rw [count_sessionHandles, count_sessionHandles, handlesOf_cons, List.count_append]
    change _ + (_ + _ + [read.handle].count d) ≤ [read.handle].count d + _ + _
    simp only
    omega
  | attachGone hs hi => exact (Ledger.attachPipe hx hi rfl).shed.note
  -- stdin
  | offer => exact hx.note.submitBare
  | ignore => exact hx.note
  | @eofOwn _ _ sid sess fd hs hp =>
    refine (hx.modifySession hs fun d => ?_).note
    rw [count_sessionHandles, count_sessionHandles, hp, handlesOf_cons, List.count_append]
    change [fd.handle].count d + _ + (_ + 0 + _) ≤ _ + (_ + [fd.handle].count d + _)
    simp only
    omega
  | eofBorrowed hs hp hi howned => exact (howned hτ).elim
  -- containers
  | @installDetached _ _ pid info log =>
    have hx' : Ledger (holdFresh info.handles ++ h')
      { w with g.outputs := w.g.outputs.insert pid ⟨log⟩ } := Ledger.insertOutput hx rfl
    refine (hx'.insertContainer fun d => ?_).note
    rw [handlesOf_append, handlesOf_holdFresh, List.count_append]
    exact (Nat.add_comm _ _).le
  | installAttached =>
    refine (hx.insertContainer fun d => ?_).note
    rw [handlesOf_append, handlesOf_holdFresh, List.count_append]
    exact (Nat.add_comm _ _).le
  | @dropOutput _ _ pid o ho =>
    refine hx.congr (fun d => ?_) rfl rfl (fun _ _ hmem => hmem) id
    have hout : w.inOutputs d = [o.fd.handle].count d +
        Table.total (w.g.outputs.erase pid) ([·.fd.handle].count d) := Table.total_erase ho
    rw [held_eq, held_eq, handlesOf_cons, List.count_append]
    change [o.fd.handle].count d + _ + (w.g.listeners.count d + w.inContainers d +
      Table.total (w.g.outputs.erase pid) _ + w.inSessions d + w.inOps d) ≤ _
    omega
  | @dropPtm _ _ pid info fd hi hptm =>
    refine hx.modifyContainer hi fun d => ?_
    unfold ContainerInfo.handles
    simp only [hptm, handlesOf_cons, List.count_append]
    change [fd.handle].count d + _ + (0 + _ + _ + _) ≤ _ + ([fd.handle].count d + _ + _ + _)
    omega
  | unmount => exact hx.shed.note
  -- drains
  | addDrain => exact (hx.cons rfl).modifyContainerSame fun _ => rfl
  | @rearm _ _ kind => exact hx.shed.submitBare (by cases kind <;> simp [Drain.loc])
  | drainGone => exact hx.shed
  | drainEnds => exact hx.shed.modifyContainerSame fun _ => rfl
  | buryDrained hi =>
    refine hx.buryContainer hi fun d => ?_
    simp only [handlesOf_append, handlesOf_hold, handlesOf_overlays, handlesOf_cons,
      List.count_append, List.count_nil]
    omega
  -- lines
  | pushLine hi hpush =>
    refine (hx.modifyContainer hi fun d => ?_).note
    rw [handles_push hpush, lines_of_push hpush, handlesOf_append, handlesOf_lines]
    exact le_rfl
  | pushBuried =>
    refine Ledger.keep (hx.swap ?_) rfl rfl rfl rfl
    rfl
  | pushLost => exact hx.swap rfl
  -- follow pipes
  | follow => exact hx.shed.submitBare
  | @wrote _ _ pid pipeId info ok hi =>
    refine hx.modifyContainer hi fun d => ?_
    rw [count_completeWrite info pipeId ok]
    simp only [handlesOf_append, handlesOf_hold, handlesOf_cons, Token.handle, List.count_append,
      Option.toList_none, List.count_nil]
    omega
  | writtenGone => exact hx.shed
  | followPipe hi =>
    refine ((hx.attachPipe hi rfl).swap ?_).note
    rfl
  -- children
  | started =>
    refine Ledger.note (hx.keep ?_ ?_ ?_ ?_) <;> rfl
  | reaped =>
    refine Ledger.reap (hx.sub fun d => ?_)
    rw [handlesOf_append, handlesOf_checks]
    exact le_rfl
  | @buryReaped _ _ pid exitCode told info hpid hmeets htold hi =>
    have hi' : (w.reap pid exitCode told).g.containers.lookup pid = some info := by
      rw [World.containers_reap]
      exact hi
    refine hx.reap.buryContainer hi' fun d => ?_
    simp only [handlesOf_append, handlesOf_hold, handlesOf_overlays, handlesOf_checks,
      List.count_append, List.count_nil]
    omega
  | killed => exact hx.note

theorem World.perform_other (hr : ∀ fd, r ≠ .accepted fd) :
    (w.perform op r).fds = w.fds ∧ (w.perform op r).nextGen = w.nextGen := by
  unfold perform
  cases r with
  | accepted fd => exact (hr fd rfl).elim
  | count n =>
    cases w.reached op with
    | none => exact ⟨rfl, rfl⟩
    | some f =>
      simp only
      split_ifs <;> exact ⟨rfl, rfl⟩
  | _ => exact ⟨rfl, rfl⟩

theorem held_perform (hn : w.Numbered) (hop : w.findOp op.id = some op) :
    held [] (w.perform op r) d + op.handles.count d =
      held [] w d + ({ op with result := some r } : InFlight).handles.count d := by
  have hops := World.inOps_perform (d := d) (r := r) hn hop
  have hg : (w.perform op r).g = w.g := World.g_perform
  have hcont : (w.perform op r).inContainers d = w.inContainers d :=
    World.inContainers_congr (by rw [hg])
  have hsess : (w.perform op r).inSessions d = w.inSessions d := World.inSessions_congr (by rw [hg])
  have hout : (w.perform op r).inOutputs d = w.inOutputs d := by
    unfold World.inOutputs
    rw [hg]
  rw [held_eq, held_eq, hg, hcont, hsess, hout]
  omega

private theorem handles_other (op : InFlight) (d : Handle) (hr : ∀ fd, r ≠ .accepted fd) :
    ({ op with result := some r } : InFlight).handles.count d ≤ op.handles.count d := by
  have hnone : r.handles = [] := by
    cases r with
    | accepted fd => exact (hr fd rfl).elim
    | _ => rfl
  unfold InFlight.handles
  cases op.loc with
  | accept => simp [hnone]
  | _ => exact le_rfl

theorem Ledger.enter (hx : Ledger h w) : Ledger h w.enter :=
  ⟨hx.owns, hx.below, hx.closed, hx.history⟩

theorem Ledger.perform (hx : Ledger [] w) (hn : w.Numbered) (hop : w.findOp op.id = some op)
    (hr : op.result = none) (hallows : w.allows op r = true) : Ledger [] (w.perform op r) := by
  have hheld := fun d => held_perform (d := d) (r := r) hn hop
  by_cases hacc : ∃ fd, r = .accepted fd
  · obtain ⟨fd, rfl⟩ := hacc
    simp only [World.allows, Bool.and_eq_true, decide_eq_true_eq] at hallows
    obtain ⟨⟨⟨-, hloc⟩, hnum⟩, hgen⟩ := hallows
    refine hx.openFd (k := .stream) hnum (fun d => ?_) rfl rfl ?_
    · have hd := hheld d
      simp only [InFlight.handles, hloc, hr, Result.handles, Option.toList_some, Option.toList_none,
        List.flatMap_nil, List.flatMap_cons, List.append_nil, List.count_nil] at hd
      have hfd : fd.handle = (fd.num, ⟨.stream, w.nextGen⟩) := by rw [← hgen]; rfl
      rw [hfd, List.count_singleton] at hd
      simp only [beq_iff_eq, eq_comm (b := d)] at hd
      omega
    · rw [World.trace_perform]
      rfl
  · rw [not_exists] at hacc
    have hfds : (w.perform op r).fds = w.fds ∧ (w.perform op r).nextGen = w.nextGen :=
      World.perform_other hacc
    refine hx.congr (fun d => ?_) hfds.1 hfds.2 ?_ ?_
    · have hd := hheld d
      have hle := handles_other op d hacc
      omega
    · rcases w.trace_perform_cases op r with htr | ⟨e, htr, hout⟩
      · rw [htr]
        exact fun _ _ hmem => hmem
      · rw [htr]
        cases e <;> first | exact hout.elim | simp
    · rcases w.trace_perform_cases op r with htr | ⟨e, htr, hout⟩
      · rw [htr]
        exact id
      · rw [htr]
        cases e <;> first | exact hout.elim | simp [ClosesOwn]

def Terms.owning : Terms := { Terms.none with owned := True }

theorem ledger_invariant : Invariant .owning codec
    (fun w e => Delivers OwnedStep w e ∧ w.Numbered) Ledger where
  move hx hm := hm.ledger trivial hx
  enter hx _ := hx.enter
  perform hx hop hr hallows hok := hx.perform hok.2 hop hr hallows
  fits _ hop hr hok := { Fits.none with owned := fun _ => hok.1 _ _ hop hr }

/-- As long as no session closes the stdin that it has borrowed from a container, every close is of
a descriptor that the daemon has opened and not closed before. -/
theorem run_closes (hb : booted answers = some w₀)
    (hr : Reaches (step codec) (Delivers OwnedStep) w₀ w) : Always ClosesOwn w.trace :=
  (ledger_invariant.reaches .init hb hr).history

instance : Decidable (OwnedStep w op r) :=
  decidable_of_iff (∀ x ∈ op.loc.frame r, x.2.ty = 0x11 →
      ∀ sess ∈ w.g.attachSessions.lookup x.1, sess.ptmFd = none → sess.inputFd = none)
    ⟨fun hk sid payload sess hf hs => hk _ hf rfl sess hs, fun hk x hf hty sess hs => by
      obtain ⟨sid, ty, payload⟩ := x
      obtain rfl : ty = 0x11 := hty
      exact hk sid payload sess hf hs⟩

def connect (accept num gen : ℕ) : List Event :=
  turn accept (.accepted ⟨num, gen⟩) [.submit true, .submit true]

/-- A client frame: its header, then its payload, which is handled with the given answers. -/
def clientFrame (header payload : ℕ) (ty : UInt8) (b : Bytes) (answers : List Answer) : List Event :=
  turn header (.bytes (ty :: u16ToLe b.length)) [.submit true] ++ turn payload (.bytes b) answers

def runAttached : List Answer :=
  [.call (.ok [10, 11]), .call (.ok [12, 13]), .clone (.ok 100), .call (.ok []), .clock 0,
    .submit true, .submit true, .submit true]

/-- A client runs a container on a terminal, and closes its stdin. -/
theorem run_closes_terminal : ∃ w₀ w, booted quietBoot = some w₀ ∧
    Reaches (step sampleCodec) (Delivers OwnedStep) w₀ w ∧
      .closed (12, ⟨.pty, 6⟩) (some ⟨.pty, 6⟩) ∈ w.trace ∧ Always ClosesOwn w.trace := by
  obtain ⟨w₀, w, hb, hr, ht⟩ := exists_of_executes (step sampleCodec) (Delivers OwnedStep)
    (booted quietBoot)
    (connect 1 20 3 ++ clientFrame 3 5 0x00 [5] runAttached ++ clientFrame 8 9 0x11 [0] [.submit true])
    (fun _ w => decide (.closed (12, ⟨.pty, 6⟩) (some ⟨.pty, 6⟩) ∈ w.trace)) (by decide +kernel)
  exact ⟨w₀, w, hb, hr, of_decide_eq_true ht, run_closes hb hr⟩

def runInteractive : List Answer :=
  [.call (.ok [10, 11]), .call (.ok [12, 13]), .call (.ok [14, 15]), .clone (.ok 100),
    .call (.ok []), .clock 0, .submit true]

/-- A client attaches to a container and closes its stdin; the container closes it again. -/
theorem borrowed_stdin_closed_twice : ∃ w₀ w, booted quietBoot = some w₀ ∧
    Reaches (step sampleCodec) (fun _ _ => True) w₀ w ∧ ¬ Always ClosesOwn w.trace := by
  obtain ⟨w₀, w, hb, hr, ht⟩ := exists_of_executes (step sampleCodec) (fun _ _ => True)
    (booted quietBoot)
    (datagram 0 3 [6] runInteractive ++ connect 1 20 9 ++
      clientFrame 6 8 0x00 [4] [.call (.ok [30, 31]), .submit true, .submit true, .submit true] ++
        clientFrame 11 12 0x11 [0] [.submit true] ++ turn 4 (.bytes []) [])
    (fun _ w => decide (.closed (13, ⟨.pipe, 6⟩) none ∈ w.trace)) (by decide +kernel)
  refine ⟨w₀, w, hb, hr, fun hx => ?_⟩
  obtain ⟨before, -, hgood⟩ := hx.of_mem (of_decide_eq_true ht)
  cases hgood.1

end Conrt.Daemon
