import Conrt.Daemon.StepMoves

/-! What every run keeps: the ops in flight have ids of their own, and the trace only grows. How many
ops of a kind are in flight. -/
namespace Conrt.Daemon

open Conrt.Base

variable {τ : Terms} {h h' : List Token} {w w' w₀ : World} {p : InFlight → Bool} {loc : OpLocal}
  {fd : Option Handle} {want id : ℕ} {ok : Bool} {t : Token} {op : InFlight} {r : Result}
  {codec : Codec} {answers : List Answer}

def Terms.none : Terms :=
  { owned := False
    live := False
    orderly := fun _ => False
    told := False
    framed := False
    calm := False
    known := False
    outlived := False
    fresh := False
    novel := False
    tidy := False
    single := False }

theorem Fits.none : Fits .none codec w op r where
  owned := False.elim
  live := False.elim
  orderly := fun _ => False.elim
  told := False.elim
  framed := False.elim
  calm := False.elim
  known := False.elim
  outlived := False.elim
  fresh := False.elim
  novel := False.elim
  tidy := False.elim
  single := False.elim

namespace World

theorem ops_submit : (w.submit loc fd want ok).ops =
    if ok then w.ops ++ [⟨w.nextOp, loc, fd, want, none⟩] else w.ops := rfl

theorem ops_takeOp (hop : w.findOp id = some op) :
    ∃ l₁ l₂, w.ops = l₁ ++ op :: l₂ ∧ (w.takeOp id).ops = l₁ ++ l₂ := by
  have hmem := List.mem_of_find?_eq_some hop
  have hid : decide (op.id = id) = true := decide_eq_true (findOp_id hop)
  obtain ⟨a, l₁, l₂, hl₁, ha, hl, herase⟩ :=
    List.exists_of_eraseP (p := fun o : InFlight => decide (o.id = id)) hmem hid
  have hfind : w.findOp id = some a := by
    unfold findOp
    rw [hl, List.find?_append, List.find?_eq_none.mpr fun x hx => by simpa using hl₁ x hx]
    simp [ha]
  obtain rfl := Option.some.inj (hop.symm.trans hfind)
  exact ⟨l₁, l₂, hl, herase⟩

/-- No two ops in flight have the same id, and the next id is new. -/
structure Numbered (w : World) : Prop where
  nodup : (w.ops.map InFlight.id).Nodup
  below : ∀ op ∈ w.ops, op.id < w.nextOp

namespace Numbered

theorem init : Numbered .init := ⟨List.nodup_nil, by simp [World.init]⟩

theorem congr (hn : w.Numbered) (hops : w'.ops = w.ops) (hnext : w'.nextOp = w.nextOp) :
    w'.Numbered := by
  constructor
  · rw [hops]
    exact hn.nodup
  · rw [hops, hnext]
    exact hn.below

theorem submit (hn : w.Numbered) : (w.submit loc fd want ok).Numbered := by
  cases ok with
  | false => exact hn.congr rfl rfl
  | true =>
    constructor
    · rw [ops_submit, if_pos rfl, List.map_append, List.nodup_append]
      refine ⟨hn.nodup, List.nodup_singleton _, fun a ha b hb => ?_⟩
      obtain ⟨op, hop, rfl⟩ := List.mem_map.mp ha
      have hlt := hn.below op hop
      have hb' : b = w.nextOp := List.mem_singleton.mp hb
      omega
    · intro op hop
      rw [ops_submit, if_pos rfl] at hop
      change op.id < w.nextOp + 1
      rcases List.mem_append.mp hop with hop | hop
      · have hlt := hn.below op hop
        omega
      · rw [List.mem_singleton.mp hop]
        exact Nat.lt_succ_self _

theorem beginFrame {stream : Fd .stream} {frame : Frame} (hn : w.Numbered) :
    (w.beginFrame stream frame loc want ok).Numbered := by
  unfold World.beginFrame
  split_ifs
  · exact hn.submit.congr rfl rfl
  · exact hn.submit

theorem takeOp (hn : w.Numbered) : (w.takeOp id).Numbered := by
  constructor
  · exact (List.eraseP_sublist.map _).nodup hn.nodup
  · intro op hop
    exact hn.below op (List.mem_of_mem_eraseP hop)

theorem reap {pid : Pid} {exitCode : ℤ} {told : Option ℕ} (hn : w.Numbered) :
    (w.reap pid exitCode told).Numbered := by cases told <;> exact hn.congr rfl rfl

end Numbered

end World

theorem Move.numbered (hm : Move τ (h, w) (h', w')) (hn : w.Numbered) : w'.Numbered := by
  cases hm with
  | refused | denied | read | output | passFd | relisten | rearm | follow => exact hn.submit
  | resume => exact hn.takeOp.submit
  | retire => exact hn.takeOp
  | respond | data => exact hn.beginFrame
  | finish => exact World.Numbered.beginFrame (hn.congr rfl rfl)
  | offer => exact World.Numbered.submit (hn.congr rfl rfl)
  | reaped => exact hn.reap
  | buryReaped => exact hn.reap.congr rfl rfl
  | _ => exact hn.congr rfl rfl

namespace World

theorem perform_frame : (w.perform op r).g = w.g ∧ (w.perform op r).children = w.children ∧
    (w.perform op r).nextOp = w.nextOp ∧ (w.perform op r).ops =
      w.ops.map fun o => if o.id = op.id then { o with result := some r } else o := by
  unfold perform
  split
  · exact ⟨rfl, rfl, rfl, rfl⟩
  · split_ifs <;> exact ⟨rfl, rfl, rfl, rfl⟩
  · exact ⟨rfl, rfl, rfl, rfl⟩
  · exact ⟨rfl, rfl, rfl, rfl⟩
  · exact ⟨rfl, rfl, rfl, rfl⟩

theorem resolved_perform : (w.perform op r).resolved = w.resolved := by
  unfold perform
  split
  · rfl
  · split_ifs <;> rfl
  · rfl
  · rfl
  · rfl

theorem g_perform : (w.perform op r).g = w.g := perform_frame.1

theorem children_perform : (w.perform op r).children = w.children := perform_frame.2.1

theorem Numbered.perform (hn : w.Numbered) : (w.perform op r).Numbered := by
  obtain ⟨-, -, hnext, hops⟩ : _ ∧ _ ∧ (w.perform op r).nextOp = _ ∧ (w.perform op r).ops = _ :=
    perform_frame
  have hid : ∀ o : InFlight, (if o.id = op.id then { o with result := some r } else o).id = o.id := by
    intro o
    split_ifs <;> rfl
  constructor
  · rw [hops, List.map_map]
    simp only [Function.comp_def, hid]
    exact hn.nodup
  · intro o ho
    rw [hops] at ho
    obtain ⟨o', ho', rfl⟩ := List.mem_map.mp ho
    rw [hid, hnext]
    exact hn.below o' ho'

/-- Only the op itself gets a result. -/
theorem ops_perform (hn : w.Numbered) (hop : w.findOp op.id = some op) :
    ∃ l₁ l₂, w.ops = l₁ ++ op :: l₂ ∧
      (w.perform op r).ops = l₁ ++ { op with result := some r } :: l₂ := by
  obtain ⟨l₁, l₂, hl⟩ := List.append_of_mem (List.mem_of_find?_eq_some hop)
  have hnodup := hn.nodup
  rw [hl, List.map_append, List.map_cons] at hnodup
  have hsame : ∀ l : List InFlight, (∀ o ∈ l, o.id ≠ op.id) →
      (l.map fun o : InFlight => if o.id = op.id then { o with result := some r } else o) = l := by
    intro l hne
    have hid : ∀ o ∈ l, (if o.id = op.id then { o with result := some r } else o) = o :=
      fun o ho => if_neg (hne o ho)
    rw [List.map_congr_left hid, List.map_id']
  have hne₁ : ∀ o ∈ l₁, o.id ≠ op.id := fun o ho =>
    (List.nodup_append.mp hnodup).2.2 _ (List.mem_map_of_mem ho) _ List.mem_cons_self
  have hne₂ : ∀ o ∈ l₂, o.id ≠ op.id := fun o ho heq => by
    have hnotin := (List.nodup_cons.mp (List.nodup_append.mp hnodup).2.1).1
    exact hnotin (heq ▸ List.mem_map_of_mem ho)
  refine ⟨l₁, l₂, hl, ?_⟩
  rw [perform_frame.2.2.2, hl, List.map_append, List.map_cons, hsame l₁ hne₁, hsame l₂ hne₂,
    if_pos rfl]

end World

namespace World

theorem mem_queued : op ∈ w.queued ↔ op ∈ w.ops ∧ w.resolved.lookup op.id = none := by
  unfold queued
  rw [List.mem_filter, Option.isNone_iff_eq_none]

theorem Numbered.eq_of_id {op' : InFlight} (hn : w.Numbered) (hop : op ∈ w.ops)
    (hop' : op' ∈ w.ops) (hid : op.id = op'.id) : op = op' :=
  List.inj_on_of_nodup_map hn.nodup hop hop' hid

/-- The kernel finds what the number stands for when it takes the op up. -/
theorem reached_enter_of_queued (hn : w.Numbered) (hop : op ∈ w.queued) :
    w.enter.reached op = w.file op.fd := by
  have hnodup : (w.queued.map InFlight.id).Nodup := (List.filter_sublist.map _).nodup hn.nodup
  unfold reached enter
  simp only [Table.lookup_insertAll_of_mem hnodup hop, Option.join_some]

private theorem lookup_enter_of_taken (hn : w.Numbered) (hop : op ∈ w.ops) (hq : op ∉ w.queued) :
    w.enter.resolved.lookup op.id = w.resolved.lookup op.id := by
  refine Table.lookup_insertAll_of_notMem fun hmem => ?_
  obtain ⟨o, ho, hid⟩ := List.mem_map.mp hmem
  exact hq (hn.eq_of_id (mem_queued.mp ho).1 hop hid ▸ ho)

theorem reached_enter_of_taken (hn : w.Numbered) (hop : op ∈ w.ops) (hq : op ∉ w.queued) :
    w.enter.reached op = w.reached op := by
  unfold reached
  rw [lookup_enter_of_taken hn hop hq]

end World

theorem numbered_invariant : Invariant .none codec (fun _ _ => True) fun _ w => w.Numbered where
  move hn hm := hm.numbered hn
  enter hn _ := hn.congr rfl rfl
  perform hn _ _ _ _ := hn.perform
  fits _ _ _ _ := Fits.none

section

variable {ok : World → Event → Prop}

/-- In every state of a run the ops have ids of their own. -/
theorem reaches_numbered (hb : booted answers = some w₀) (hr : Reaches (step codec) ok w₀ w) :
    w.Numbered := by
  have hinv : Invariant .none codec _ _ := numbered_invariant
  exact hinv.run (hinv.booted .init hb) (hr.mono fun _ _ _ => trivial)

/-- The invariant of a run from the start, which may rely on the ids. -/
theorem Invariant.reaches {I : List Token → World → Prop}
    (hI : Invariant τ codec (fun w e => ok w e ∧ w.Numbered) I) (h₀ : I [] .init)
    (hb : Daemon.booted answers = some w₀) (hr : Reaches (Daemon.step codec) ok w₀ w) : I [] w :=
  hI.run (hI.booted h₀ hb) (hr.along fun _ hr' => reaches_numbered hb hr')

end

def World.Unperformed (w : World) : Prop := ∀ op ∈ w.ops, op.result = none

namespace World.Unperformed

theorem congr (hu : w.Unperformed) (hops : w'.ops = w.ops) : w'.Unperformed := by
  unfold Unperformed
  rw [hops]
  exact hu

theorem submit (hu : w.Unperformed) : (w.submit loc fd want ok).Unperformed := by
  intro op hop
  cases ok with
  | false => exact hu op hop
  | true =>
    rcases List.mem_append.mp hop with hop | hop
    · exact hu op hop
    · rw [List.mem_singleton.mp hop]

theorem beginFrame {stream : Fd .stream} {frame : Frame} (hu : w.Unperformed) :
    (w.beginFrame stream frame loc want ok).Unperformed := by
  unfold World.beginFrame
  split_ifs
  · exact hu.submit.congr rfl
  · exact hu.submit

theorem takeOp (hu : w.Unperformed) : (w.takeOp id).Unperformed :=
  fun op hop => hu op (List.mem_of_mem_eraseP hop)

theorem reap {pid : Pid} {exitCode : ℤ} {told : Option ℕ} (hu : w.Unperformed) :
    (w.reap pid exitCode told).Unperformed := by cases told <;> exact hu.congr rfl

end World.Unperformed

/-- A callback gives no op a result. -/
theorem Move.unperformed (hm : Move τ (h, w) (h', w')) (hu : w.Unperformed) : w'.Unperformed := by
  cases hm with
  | refused | denied | read | output | passFd | relisten | rearm | follow => exact hu.submit
  | resume => exact hu.takeOp.submit
  | retire => exact hu.takeOp
  | respond | data => exact hu.beginFrame
  | finish => exact World.Unperformed.beginFrame (hu.congr rfl)
  | offer => exact World.Unperformed.submit (hu.congr rfl)
  | reaped => exact hu.reap
  | buryReaped => exact hu.reap.congr rfl
  | _ => exact hu.congr rfl

theorem booted_unperformed (hb : booted answers = some w) : w.Unperformed := by
  have hinit : World.init.Unperformed := by simp [World.Unperformed, World.init]
  have hp : Path .none ([], World.init) ([], w) := boot_path hb
  exact path_keeps (I := fun _ w => w.Unperformed) (fun hu hm => hm.unperformed hu) hinit hp

namespace World

variable {pid : Pid} {exitCode : ℤ} {told : Option ℕ}

@[simp] theorem g_beginFrame {stream : Fd .stream} {frame : Frame} :
    (w.beginFrame stream frame loc want ok).g = w.g := by
  unfold beginFrame
  split_ifs <;> rfl

@[simp] theorem listeners_reap : (w.reap pid exitCode told).g.listeners = w.g.listeners := by
  cases told <;> rfl

@[simp] theorem containers_reap : (w.reap pid exitCode told).g.containers = w.g.containers := by
  cases told <;> rfl

@[simp] theorem nextPipeId_reap : (w.reap pid exitCode told).g.nextPipeId = w.g.nextPipeId := by
  cases told <;> rfl

@[simp] theorem ops_reap : (w.reap pid exitCode told).ops = w.ops := by cases told <;> rfl

@[simp] theorem children_reap :
    (w.reap pid exitCode told).children = w.children.erase pid := by cases told <;> rfl

@[simp] theorem children_beginFrame {stream : Fd .stream} {frame : Frame} :
    (w.beginFrame stream frame loc want ok).children = w.children := by
  unfold beginFrame
  split_ifs <;> rfl

def drains (w : World) (pid : Pid) : Option ℕ := (w.g.containers.lookup pid).map (·.drainsPending)

theorem drains_congr (hg : w'.g.containers = w.g.containers) : w'.drains = w.drains := by
  funext p
  unfold drains
  rw [hg]

theorem drains_modifyContainer {f : ContainerInfo → ContainerInfo} {p : Pid} :
    (w.modifyContainer pid f).drains p =
      if p = pid then (w.g.containers.lookup pid).map fun info => (f info).drainsPending
      else w.drains p := by
  unfold drains modifyContainer
  rw [Table.lookup_update_ite]
  split_ifs
  · rw [Option.map_map]
    rfl
  · rfl

@[simp] theorem drains_note {e : Entry} : (w.note e).drains = w.drains := rfl

@[simp] theorem drains_modifySession {sid : ℕ} {f : AttachSession → AttachSession} :
    (w.modifySession sid f).drains = w.drains := rfl

@[simp] theorem drains_beginFrame {stream : Fd .stream} {frame : Frame} :
    (w.beginFrame stream frame loc want ok).drains = w.drains :=
  drains_congr (by rw [g_beginFrame])

@[simp] theorem drains_reap : (w.reap pid exitCode told).drains = w.drains :=
  drains_congr containers_reap

/-- A change that leaves the counter alone. -/
@[simp] theorem drains_modifySame {f : ContainerInfo → ContainerInfo}
    (hf : ∀ info, (f info).drainsPending = info.drainsPending) :
    (w.modifyContainer pid f).drains = w.drains := by
  funext p
  rw [drains_modifyContainer]
  split_ifs with hp
  · subst hp
    simp only [hf]
    rfl
  · rfl

@[simp] theorem drains_attachPipe {pipeId : ℕ} {fd : Fd .pipe} :
    (w.attachPipe pid pipeId fd).drains = w.drains := drains_modifySame fun _ => rfl

@[simp] theorem drains_perform : (w.perform op r).drains = w.drains :=
  drains_congr (by rw [g_perform])

theorem drains_insert (pid : Pid) (info : ContainerInfo) {p : Pid}
    (hg : w'.g.containers = w.g.containers.insert pid info) :
    w'.drains p = if p = pid then some info.drainsPending else w.drains p := by
  unfold drains
  rw [hg, Table.lookup_insert_ite]
  split_ifs <;> rfl

theorem drains_erase (pid : Pid) {p : Pid} (hg : w'.g.containers = w.g.containers.erase pid) :
    w'.drains p = if p = pid then none else w.drains p := by
  unfold drains
  rw [hg, Table.lookup_erase_ite]
  split_ifs <;> rfl

end World

def World.opCount (w : World) (p : InFlight → Bool) : ℕ := w.ops.countP p

namespace World

@[simp] theorem opCount_reap {pid : Pid} {exitCode : ℤ} {told : Option ℕ} :
    (w.reap pid exitCode told).opCount p = w.opCount p := by cases told <;> rfl

@[simp] theorem opCount_submit : (w.submit loc fd want ok).opCount p = w.opCount p +
    if ok = true ∧ p ⟨w.nextOp, loc, fd, want, none⟩ = true then 1 else 0 := by
  unfold opCount
  rw [ops_submit]
  cases ok with
  | false => simp
  | true => simp [List.countP_append, List.countP_cons]

@[simp] theorem opCount_beginFrame {stream : Fd .stream} {frame : Frame} :
    (w.beginFrame stream frame loc want ok).opCount p =
      (w.submit loc (some stream.handle) want ok).opCount p := by
  unfold beginFrame
  cases ok <;> rfl

theorem opCount_takeOp (hop : w.findOp id = some op) :
    w.opCount p = (w.takeOp id).opCount p + if p op = true then 1 else 0 := by
  obtain ⟨l₁, l₂, hl, hl'⟩ := ops_takeOp hop
  unfold opCount
  rw [hl, hl', List.countP_append, List.countP_append, List.countP_cons]
  omega

theorem opCount_perform (hn : w.Numbered) (hop : w.findOp op.id = some op) :
    (w.perform op r).opCount p + (if p op = true then 1 else 0) =
      w.opCount p + if p { op with result := some r } = true then 1 else 0 := by
  obtain ⟨l₁, l₂, hl, hl'⟩ := ops_perform (r := r) hn hop
  unfold opCount
  rw [hl, hl', List.countP_append, List.countP_append, List.countP_cons, List.countP_cons]
  omega

end World

namespace World

variable {q : OpLocal → Bool}

/-- The ops in flight of a kind, which is told from what they do. -/
def opsWhere (w : World) (q : OpLocal → Bool) : List InFlight := w.ops.filter fun op => q op.loc

theorem mem_opsWhere : op ∈ w.opsWhere q ↔ op ∈ w.ops ∧ q op.loc = true := List.mem_filter

theorem opsWhere_congr (hops : w'.ops = w.ops) : w'.opsWhere q = w.opsWhere q := by
  unfold opsWhere
  rw [hops]

theorem opsWhere_submit (hloc : q loc = true) : (w.submit loc fd want true).opsWhere q =
    w.opsWhere q ++ [⟨w.nextOp, loc, fd, want, none⟩] := by
  unfold opsWhere
  rw [ops_submit, if_pos rfl, List.filter_append]
  congr 1
  rw [List.filter_cons, if_pos hloc]
  rfl

theorem opsWhere_refused : (w.submit loc fd want false).opsWhere q = w.opsWhere q := rfl

theorem opsWhere_submitOther (hloc : q loc = false) :
    (w.submit loc fd want ok).opsWhere q = w.opsWhere q := by
  unfold opsWhere
  rw [ops_submit]
  cases ok with
  | true =>
    rw [if_pos rfl, List.filter_append, List.filter_cons, if_neg (by simp [hloc]), List.filter_nil,
      List.append_nil]
  | false => rfl

theorem opsWhere_beginFrame {stream : Fd .stream} {frame : Frame} :
    (w.beginFrame stream frame loc want ok).opsWhere q =
      (w.submit loc (some stream.handle) want ok).opsWhere q := by
  unfold beginFrame
  cases ok <;> rfl

/-- An op of the kind leaves. -/
theorem opsWhere_taken (hop : w.findOp id = some op) (hloc : q op.loc = true) :
    (w.opsWhere q).Perm (op :: (w.takeOp id).opsWhere q) := by
  obtain ⟨l₁, l₂, hl, hl'⟩ := ops_takeOp hop
  unfold opsWhere
  rw [hl, hl', List.filter_append, List.filter_append, List.filter_cons, if_pos hloc]
  exact List.perm_middle

theorem opsWhere_takeOther (hop : w.findOp id = some op) (hloc : q op.loc = false) :
    (w.takeOp id).opsWhere q = w.opsWhere q := by
  obtain ⟨l₁, l₂, hl, hl'⟩ := ops_takeOp hop
  unfold opsWhere
  rw [hl, hl', List.filter_append, List.filter_append, List.filter_cons, if_neg (by simp [hloc])]

/-- An op of the kind gets its result. -/
theorem opsWhere_perform (hn : w.Numbered) (hop : w.findOp op.id = some op) (hloc : q op.loc = true) :
    ∃ rest, (w.opsWhere q).Perm (op :: rest) ∧
      ((w.perform op r).opsWhere q).Perm ({ op with result := some r } :: rest) := by
  obtain ⟨l₁, l₂, hl, hl'⟩ := ops_perform (r := r) hn hop
  refine ⟨(l₁ ++ l₂).filter fun op => q op.loc, ?_, ?_⟩
  · unfold opsWhere
    rw [hl, List.filter_append, List.filter_append, List.filter_cons, if_pos hloc]
    exact List.perm_middle
  · unfold opsWhere
    rw [hl', List.filter_append, List.filter_append, List.filter_cons, if_pos hloc]
    exact List.perm_middle

theorem opsWhere_performOther (hn : w.Numbered) (hop : w.findOp op.id = some op)
    (hloc : q op.loc = false) : (w.perform op r).opsWhere q = w.opsWhere q := by
  obtain ⟨l₁, l₂, hl, hl'⟩ := ops_perform (r := r) hn hop
  unfold opsWhere
  rw [hl, hl', List.filter_append, List.filter_append, List.filter_cons, List.filter_cons,
    if_neg (by simp [hloc]), if_neg (by simp [hloc])]

end World

@[simp] theorem count_map_of_ne {α : Type} {f : α → Token} {l : List α} (hf : ∀ a, f a ≠ t) :
    (l.map f).count t = 0 := by
  rw [List.count_eq_zero]
  intro hm
  obtain ⟨a, -, ha⟩ := List.mem_map.mp hm
  exact hf a ha

@[simp] theorem count_hold {hs : List Handle} (ht : ∀ d, t ≠ .fd d) : (hold hs).count t = 0 :=
  count_map_of_ne fun d hd => ht d hd.symm

@[simp] theorem count_holdFresh {hs : List Handle} (ht : ∀ d b, t ≠ .fresh d b) :
    (holdFresh hs).count t = 0 :=
  count_map_of_ne fun d hd => ht d [] hd.symm

def Entry.Outside : Entry → Prop
  | .opened _ | .wrote _ _ _ | .read _ _ | .failed _ => True
  | _ => False

namespace World

variable {sid : ℕ} {pid : Pid}

@[simp] theorem trace_note {e : Entry} : (w.note e).trace = w.trace ++ [e] := rfl

@[simp] theorem trace_openFd {k : FileKind} {n : ℕ} :
    (w.openFd k n).trace = w.trace ++ [.opened (n, ⟨k, w.nextGen⟩)] := rfl

@[simp] theorem trace_closeFd {d : Handle} :
    (w.closeFd d).trace = w.trace ++ [.closed d (w.file (some d))] := rfl

@[simp] theorem trace_submit :
    (w.submit loc fd want ok).trace = w.trace ++ [.submitted loc fd (w.file fd) ok] := rfl

@[simp] theorem trace_beginFrame {stream : Fd .stream} {frame : Frame} :
    (w.beginFrame stream frame loc want ok).trace = w.trace ++
      .submitted loc (some stream.handle) (w.file (some stream.handle)) ok ::
        if ok then [.begun stream frame] else [] := by
  unfold beginFrame
  cases ok <;> simp

@[simp] theorem trace_modifySession {f : AttachSession → AttachSession} :
    (w.modifySession sid f).trace = w.trace := rfl

@[simp] theorem trace_dropSession :
    (w.dropSession sid).trace = w.trace ++ [.sessionClosed sid] := rfl

@[simp] theorem trace_modifyContainer {f : ContainerInfo → ContainerInfo} :
    (w.modifyContainer pid f).trace = w.trace := rfl

@[simp] theorem trace_attachPipe {pipeId : ℕ} {fd : Fd .pipe} :
    (w.attachPipe pid pipeId fd).trace = w.trace := rfl

@[simp] theorem trace_buryContainer {info : ContainerInfo} :
    (w.buryContainer pid info).trace = w.trace ++ [.retired pid info.overlay] := rfl

@[simp] theorem trace_reap {exitCode : ℤ} {told : Option ℕ} :
    (w.reap pid exitCode told).trace = w.trace ++ [.reaped pid exitCode] := by cases told <;> rfl

@[simp] theorem trace_takeOp : (w.takeOp id).trace = w.trace := rfl

def performed (w : World) (op : InFlight) (r : Result) : List Entry :=
  match r, w.reached op with
  | .accepted fd, _ => [.opened (fd.num, ⟨.stream, w.nextGen⟩)]
  | .count n, some f =>
    if op.loc.pending = [] then [] else [.wrote op.loc f (op.loc.pending.take n)]
  | .bytes b, _ => [.read op.loc b]
  | .failed _, _ => [.failed op.loc]
  | _, _ => []

theorem trace_perform : (w.perform op r).trace = w.trace ++ w.performed op r := by
  unfold perform performed
  cases r with
  | count n =>
    cases w.reached op with
    | none => simp
    | some f =>
      simp only
      split_ifs <;> simp
  | _ => simp

theorem trace_perform_cases (w : World) (op : InFlight) (r : Result) :
    (w.perform op r).trace = w.trace ∨
      ∃ e : Entry, (w.perform op r).trace = w.trace ++ [e] ∧ e.Outside := by
  rw [trace_perform]
  unfold performed
  cases r with
  | count n =>
    cases w.reached op with
    | none => exact .inl (List.append_nil _)
    | some f =>
      simp only
      split_ifs
      · exact .inl (List.append_nil _)
      · exact .inr ⟨_, rfl, trivial⟩
  | received b sender => exact .inl (List.append_nil _)
  | _ => exact .inr ⟨_, rfl, trivial⟩

end World

def Entry.Boots : Entry → Prop
  | .opened _ | .closed _ _ => True
  | .submitted loc _ _ _ | .starved loc => loc.loop.isSome
  | _ => False

section

variable {α : Type} {m : M α}

def BootTrace (w : World) : Prop := ∀ e ∈ w.trace, e.Boots

theorem BootTrace.note (hw : BootTrace w) (he : e.Boots) : BootTrace (w.note e) := by
  intro e' he'
  rcases List.mem_append.mp he' with he' | he'
  · exact hw e' he'
  · rw [List.mem_singleton.mp he']
    exact he

abbrev Boots (m : M α) : Prop := Triple BootTrace m (fun _ => BootTrace) fun _ => True

theorem ask_boots : Boots ask := by
  refine .of_eq fun w hw => ask_spec.post fun a w' ha => ?_
  obtain ⟨as, -, rfl⟩ := ha
  exact hw

theorem call_boots : Boots call := by
  unfold call
  refine ask_boots.bind fun a => ?_
  split
  · exact .pure fun _ hw => hw
  · exact .pure fun _ hw => hw
  · exact .throw fun _ _ => trivial

theorem openFd_boots {kind : FileKind} {n : ℕ} : Boots (openFd kind n) := by
  unfold openFd
  refine .of_eq fun w hw => Triple.get_bind (.ite (fun _ => Triple.modify_bind ?_) fun _ => ?_)
  · exact .pure fun s hs => hs ▸ BootTrace.note hw trivial
  · exact .throw fun _ _ => trivial

theorem openOne_boots {kind : FileKind} : Boots (openOne kind) := by
  unfold openOne
  refine ask_boots.bind fun a => ?_
  split
  · exact openFd_boots.bind fun fd => .pure fun _ hw => hw
  · exact .pure fun _ hw => hw
  · exact .throw fun _ _ => trivial

theorem closeFd_boots {d : Handle} : Boots (closeFd d) := .update fun _ hw => hw.note trivial

theorem submit_boots (hloc : loc.loop.isSome) : Boots (submit loc fd want) := by
  unfold submit
  refine ask_boots.bind fun a => ?_
  split
  · refine .of_eq fun w hw => Triple.get_bind (Triple.modify_bind ?_)
    exact .pure fun s hs => hs ▸ BootTrace.note hw hloc
  · exact .throw fun _ _ => trivial

theorem arm_boots {f : World → Option Handle} (hloc : loc.loop.isSome) :
    Boots (do discard <| submit loc (f (← get)) want) :=
  .of_eq fun _ hw => Triple.get_bind fun s hs =>
    (submit_boots hloc).bind (fun _ => .pure fun _ hw => hw) s (hs ▸ hw)

end

theorem boot_boots : Boots boot := by
  have hclose : ∀ ds, Boots (closeAll ds) := fun ds => .forEach fun _ _ => closeFd_boots
  have hstarved : ∀ loc : OpLocal, loc.loop.isSome → Boots (note (.starved loc)) := fun loc hloc =>
    .update fun _ hw => hw.note hloc
  unfold boot
  refine call_boots.bind fun r => ?_
  split
  · exact .pure fun _ hw => hw
  refine openOne_boots.bind fun r => ?_
  split
  · exact .pure fun _ hw => hw
  rename_i datagram
  refine openOne_boots.bind fun r => ?_
  split
  · exact closeFd_boots
  rename_i listener
  refine openOne_boots.bind fun r => ?_
  split
  · exact hclose _
  rename_i signal
  refine .bind (Q := fun _ => BootTrace) (.update fun _ hw => hw) fun _ => ?_
  refine .bind (Q := fun _ => BootTrace) ?_ fun _ => .bind (Q := fun _ => BootTrace) ?_ fun _ => ?_
  · unfold armDatagram
    refine call_boots.bind fun r => ?_
    split
    · exact hstarved _ rfl
    · exact arm_boots rfl
  · exact arm_boots rfl
  · unfold armSigchld
    refine call_boots.bind fun r => ?_
    split
    · exact hstarved _ rfl
    · exact arm_boots rfl

/-- The boot arms the loops and nothing else. -/
theorem booted_trace (hb : booted answers = some w) : ∀ e ∈ w.trace, e.Boots := by
  unfold booted World.exec at hb
  split at hb
  · rename_i u w' hrun
    obtain rfl := Option.some.inj hb
    exact boot_boots.ok (s := { World.init with answers := answers }) (by simp [BootTrace, World.init])
      hrun
  · cases hb

end Conrt.Daemon
