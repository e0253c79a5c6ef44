import Conrt.Daemon.Gateway
import Conrt.Daemon.Retiring

/-! The follow pipes of the containers: a pipe marked as busy has one write in flight, in hand or
lost. -/
namespace Conrt.Daemon

open Conrt.Base

variable {τ : Terms} {h h' : List Token} {w w' w₀ : World} {codec : Codec} {answers : List Answer}
  {pid : Pid} {x : ℕ} {k : Pid × ℕ} {tr es : List Entry} {e : Entry} {t : Token} {loc : OpLocal}
  {fd : Option Handle} {want id : ℕ} {ok : Bool} {op : InFlight} {r : Result}

namespace World

def piped (w : World) (x : ℕ) : ℕ := w.g.containers.total (·.gateway.known x)

def busyAt (w : World) (k : Pid × ℕ) : ℕ :=
  ((w.g.containers.lookup k.1).map (·.gateway.busy k.2)).getD 0

variable {f : ContainerInfo → ContainerInfo} {info : ContainerInfo}

theorem piped_congr (hg : w'.g.containers = w.g.containers) : w'.piped = w.piped := by
  funext x
  unfold piped
  rw [hg]

theorem busyAt_congr (hg : w'.g.containers = w.g.containers) : w'.busyAt = w.busyAt := by
  funext k
  unfold busyAt
  rw [hg]

theorem busyAt_eq (hi : w.g.containers.lookup k.1 = some info) :
    w.busyAt k = info.gateway.busy k.2 := by
  unfold busyAt
  rw [hi]
  rfl

theorem known_le_piped (hi : w.g.containers.lookup pid = some info) :
    info.gateway.known x ≤ w.piped x :=
  Table.le_total (f := fun info : ContainerInfo => info.gateway.known x) hi

theorem busyAt_le_piped : w.busyAt k ≤ w.piped k.2 := by
  cases hi : w.g.containers.lookup k.1 with
  | none =>
    unfold busyAt
    rw [hi]
    exact Nat.zero_le _
  | some info =>
    rw [busyAt_eq hi]
    exact LogGateway.busy_le_known.trans (known_le_piped hi)

/-- A pipe is in one container. -/
theorem owner_eq {owner : Pid} (hone : w.piped x ≤ 1) (hi : w.g.containers.lookup pid = some info)
    (hknown : 0 < info.gateway.known x) (hbusy : 0 < w.busyAt (owner, x)) : owner = pid := by
  by_contra hne
  have hsplit : w.piped x = info.gateway.known x +
      Table.total (w.g.containers.erase pid) (·.gateway.known x) := Table.total_erase hi
  unfold busyAt at hbusy
  cases hi' : w.g.containers.lookup owner with
  | none =>
    rw [hi'] at hbusy
    cases hbusy
  | some info' =>
    rw [hi'] at hbusy
    simp only [Option.map_some, Option.getD_some] at hbusy
    have herase : (w.g.containers.erase pid).lookup owner = some info' := by
      rw [Table.lookup_erase_ite, if_neg hne, hi']
    have hle := Table.le_total (f := fun info : ContainerInfo => info.gateway.known x) herase
    have hle' := info'.gateway.busy_le_known (x := x)
    omega

theorem piped_modifyContainer (hi : w.g.containers.lookup pid = some info) :
    (w.modifyContainer pid f).piped x + info.gateway.known x =
      w.piped x + (f info).gateway.known x := Table.total_update hi

theorem busyAt_modifyContainer (hi : w.g.containers.lookup pid = some info) :
    (w.modifyContainer pid f).busyAt k =
      if k.1 = pid then (f info).gateway.busy k.2 else w.busyAt k := by
  unfold busyAt modifyContainer
  rw [Table.lookup_update_ite, hi]
  split_ifs <;> rfl

/-- A change that leaves the pipes alone. -/
@[simp] theorem piped_modifySame (hf : ∀ info, (f info).gateway = info.gateway) :
    (w.modifyContainer pid f).piped = w.piped := by
  funext x
  exact Table.total_update_same fun info _ => by rw [hf]

@[simp] theorem busyAt_modifySame (hf : ∀ info, (f info).gateway = info.gateway) :
    (w.modifyContainer pid f).busyAt = w.busyAt := by
  funext k
  unfold busyAt modifyContainer
  rw [Table.lookup_update_ite]
  split_ifs with hk
  · rw [hk, Option.map_map]
    simp only [Function.comp_def, hf]
  · rfl

theorem piped_insert (pid : Pid) (hnone : w.g.containers.lookup pid = none)
    (hgw : info.gateway.pipes = []) (hg : w'.g.containers = w.g.containers.insert pid info) :
    w'.piped = w.piped := by
  funext x
  unfold piped
  rw [hg, Table.total_insert_new hnone]
  simp [LogGateway.known, hgw]

theorem busyAt_insert (pid : Pid) (hnone : w.g.containers.lookup pid = none)
    (hgw : info.gateway.pipes = []) (hg : w'.g.containers = w.g.containers.insert pid info) :
    w'.busyAt = w.busyAt := by
  funext k
  unfold busyAt
  rw [hg, Table.lookup_insert_ite]
  split_ifs with hk
  · rw [hk, hnone]
    simp [LogGateway.busy, hgw]
  · rfl

private theorem piped_erase (hi : w.g.containers.lookup pid = some info)
    (hg : w'.g.containers = w.g.containers.erase pid) :
    w.piped x = info.gateway.known x + w'.piped x := by
  unfold piped
  rw [hg]
  exact Table.total_erase hi

private theorem busyAt_erase (pid : Pid) (hg : w'.g.containers = w.g.containers.erase pid) :
    w'.busyAt k = if k.1 = pid then 0 else w.busyAt k := by
  unfold busyAt
  rw [hg, Table.lookup_erase_ite]
  split_ifs <;> rfl

end World

def OpLocal.followOf : OpLocal → Option (Pid × ℕ)
  | .followWrite pid pipeId _ _ => some (pid, pipeId)
  | _ => none

def Token.followOf : Token → Option (Pid × ℕ)
  | .line pid pipeId _ | .written pid pipeId _ => some (pid, pipeId)
  | _ => none

/-- The write is not armed, although its pipe waits for it. -/
def Entry.losesWrite (k : Pid × ℕ) : Entry → Bool
  | .submitted loc _ _ false | .starved loc => loc.followOf = some k
  | _ => false

def World.writing (w : World) (k : Pid × ℕ) : ℕ := w.opCount fun op => op.loc.followOf = some k

def writesHeld (k : Pid × ℕ) (h : List Token) : ℕ := h.countP fun t => t.followOf = some k

def lostWrites (k : Pid × ℕ) (tr : List Entry) : ℕ := tr.countP (·.losesWrite k)

def writes (k : Pid × ℕ) (h : List Token) (w : World) : ℕ :=
  w.writing k + writesHeld k h + lostWrites k w.trace

@[simp] theorem lostWrites_append : lostWrites k (tr ++ es) = lostWrites k tr + lostWrites k es :=
  List.countP_append ..

@[simp] theorem lostWrites_cons :
    lostWrites k (e :: tr) = lostWrites k tr + if e.losesWrite k then 1 else 0 :=
  List.countP_cons ..

@[simp] theorem lostWrites_nil : lostWrites k [] = 0 := rfl

@[simp] theorem writesHeld_append :
    writesHeld k (h ++ h') = writesHeld k h + writesHeld k h' := List.countP_append ..

@[simp] theorem writesHeld_cons :
    writesHeld k (t :: h) = writesHeld k h + if t.followOf = some k then 1 else 0 := by
  simp [writesHeld, List.countP_cons]

@[simp] theorem writesHeld_nil : writesHeld k [] = 0 := rfl

theorem writesHeld_map {α : Type} {f : α → Token} {l : List α} (hf : ∀ a, (f a).followOf = none) :
    writesHeld k (l.map f) = 0 := by
  unfold writesHeld
  rw [List.countP_eq_zero]
  intro t ht
  obtain ⟨a, -, rfl⟩ := List.mem_map.mp ht
  simp [hf a]

@[simp] theorem writesHeld_hold {hs : List Handle} : writesHeld k (hold hs) = 0 :=
  writesHeld_map fun _ => rfl

@[simp] theorem writesHeld_holdFresh {hs : List Handle} : writesHeld k (holdFresh hs) = 0 :=
  writesHeld_map fun _ => rfl

@[simp] theorem writesHeld_overlays {dirs : List ℕ} :
    writesHeld k (dirs.map Token.overlay) = 0 := writesHeld_map fun _ => rfl

@[simp] theorem writesHeld_checks {sids : List ℕ} : writesHeld k (sids.map Token.check) = 0 :=
  writesHeld_map fun _ => rfl

theorem writesHeld_tokens :
    writesHeld k (loc.tokens r) = if loc.followOf = some k then 1 else 0 := by
  have htoken : ∀ kind p lineBuf, (drainToken kind p lineBuf r).followOf = none := by
    intro kind p lineBuf
    unfold drainToken
    split <;> rfl
  cases loc with
  | sigchld => cases r <;> simp [OpLocal.tokens, Token.followOf, OpLocal.followOf]
  | containerOutput p => simp [OpLocal.tokens, OpLocal.followOf, htoken]
  | containerPtyOutput p => simp [OpLocal.tokens, OpLocal.followOf, htoken]
  | _ => simp [OpLocal.tokens, Token.followOf, OpLocal.followOf]

/-- A line goes to each of the pipes that were idle. -/
theorem lines_of_push {g g' : LogGateway} {line : Bytes} {ids : List ℕ}
    (hpush : g.push line = some (g', ids)) :
    ((ids.filterMap fun id => (g'.pipeFd id).map (id, ·)).map fun target =>
      Token.line pid target.1 line) = ids.map fun id => .line pid id line := by
  obtain ⟨hpipes, hids, -⟩ := LogGateway.push_eq hpush
  have hfind : ∀ id ∈ ids, ((g'.pipeFd id).map (id, ·)).map
      (fun target => Token.line pid target.1 line) = some (.line pid id line) := by
    intro id hid
    rw [hids] at hid
    obtain ⟨p, hp, rfl⟩ := List.mem_map.mp hid
    have hsome : (g'.pipes.find? (·.id = p.id)).isSome := by
      rw [List.find?_isSome, hpipes]
      exact ⟨_, List.mem_map_of_mem (List.mem_filter.mp hp).1, by simp⟩
    obtain ⟨q, hq⟩ := Option.isSome_iff_exists.mp hsome
    unfold LogGateway.pipeFd
    rw [hq]
    rfl
  rw [List.map_filterMap, ← List.filterMap_eq_map]
  exact List.filterMap_congr hfind

private theorem writesHeld_lines {line : Bytes} {ids : List ℕ} :
    writesHeld k (ids.map fun id => .line pid id line) =
      if k.1 = pid then ids.count k.2 else 0 := by
  unfold writesHeld
  rw [List.countP_map]
  split_ifs with hpid
  · rw [List.count_eq_countP]
    congr 1
    funext id
    simp [Token.followOf, Prod.ext_iff, hpid]
    grind
  · rw [List.countP_eq_zero]
    intro id _
    simp [Token.followOf, Prod.ext_iff, Ne.symm hpid]

theorem followOf_of_for (ht : t.For loc) : t.followOf = loc.followOf := by
  cases ht with
  | drain =>
    rename_i kind _ _
    cases kind <;> rfl
  | loop hl _ => cases loc <;> first | rfl | cases hl
  | _ => rfl

theorem followOf_of_resumes {stdinFd : ℕ → Option Handle} {n : ℕ} {loc' : OpLocal}
    (hr : Resumes stdinFd n loc loc' fd) : loc'.followOf = loc.followOf := by
  cases hr <;> rfl

theorem followOf_of_reader {sid : ℕ} (hr : loc.reader = some sid) : loc.followOf = none := by
  cases loc <;> first | rfl | cases hr

theorem followOf_of_loop {l : Loop} (hl : loc.loop = some l) : loc.followOf = none := by
  cases loc <;> first | rfl | cases hl

theorem followOf_of_loose (hl : loc.loose = true) : loc.followOf = none := by
  cases loc <;> first | rfl | cases hl

theorem writes_congr (hops : w'.ops = w.ops) (hh : writesHeld k h' = writesHeld k h)
    (htr : lostWrites k w'.trace = lostWrites k w.trace) : writes k h' w' = writes k h w := by
  unfold writes World.writing World.opCount
  rw [hops, hh, htr]

/-- A new write is armed or lost; what is in hand makes up for it. -/
theorem writes_submit (hh : writesHeld k h = writesHeld k h' + if loc.followOf = some k then 1 else 0) :
    writes k h' (w.submit loc fd want ok) = writes k h w := by
  have hcount : (w.submit loc fd want ok).writing k =
      w.writing k + if ok = true ∧ loc.followOf = some k then 1 else 0 := by
    simp [World.writing]
  have hlost : lostWrites k (w.submit loc fd want ok).trace = lostWrites k w.trace +
      if ok = false ∧ loc.followOf = some k then 1 else 0 := by
    cases ok <;> simp [Entry.losesWrite]
  unfold writes
  rw [hcount, hlost]
  cases ok <;> simp at hh ⊢ <;> omega

theorem writes_submitOther (hloc : loc.followOf = none) :
    writes k h (w.submit loc fd want ok) = writes k h w := writes_submit (by simp [hloc])

theorem writes_beginFrame {stream : Fd .stream} {frame : Frame} (hloc : loc.followOf = none) :
    writes k h (w.beginFrame stream frame loc want ok) = writes k h w := by
  unfold World.beginFrame
  split_ifs
  · have hnote : ∀ w : World, writes k h (w.note (.begun stream frame)) = writes k h w := fun w =>
      writes_congr rfl rfl (by simp [Entry.losesWrite])
    exact (hnote _).trans (writes_submitOther hloc)
  · exact writes_submitOther hloc

theorem writes_takeOp (hop : w.findOp id = some op) :
    writes k (op.loc.tokens r ++ h) (w.takeOp id) = writes k h w := by
  have hcount : w.writing k = (w.takeOp id).writing k +
      if op.loc.followOf = some k then 1 else 0 := by
    simpa [World.writing] using World.opCount_takeOp (p := fun op => op.loc.followOf = some k) hop
  unfold writes
  rw [writesHeld_append, writesHeld_tokens, World.trace_takeOp, hcount]
  omega

theorem writes_perform (hn : w.Numbered) (hop : w.findOp op.id = some op) :
    writes k h (w.perform op r) = writes k h w := by
  have hcount : (w.perform op r).writing k = w.writing k := by
    have hc := World.opCount_perform (r := r) (p := fun op => op.loc.followOf = some k) hn hop
    exact Nat.add_right_cancel hc
  have hlost : lostWrites k (w.perform op r).trace = lostWrites k w.trace := by
    rcases w.trace_perform_cases op r with htr | ⟨e, htr, hout⟩
    · rw [htr]
    · rw [htr]
      cases e <;> first | exact hout.elim | simp [Entry.losesWrite]
  unfold writes
  rw [hcount, hlost]

/-- Ids of pipes are not used twice, and a pipe has exactly the writes that it is marked for. -/
structure PipeBalance (h : List Token) (w : World) : Prop where
  unique : ∀ x, w.piped x ≤ 1
  below : ∀ k : Pid × ℕ, w.g.nextPipeId ≤ k.2 → w.piped k.2 = 0 ∧ writes k h w = 0
  counted : ∀ k : Pid × ℕ, 0 < w.piped k.2 → writes k h w = w.busyAt k

namespace PipeBalance

theorem init : PipeBalance [] .init :=
  ⟨fun _ => Nat.zero_le 1, fun _ _ => ⟨rfl, rfl⟩, fun _ _ => rfl⟩

theorem congr (hb : PipeBalance h w) (hg : w'.g.nextPipeId = w.g.nextPipeId)
    (hp : w'.piped = w.piped) (hbusy : w'.busyAt = w.busyAt)
    (hw : ∀ k, writes k h' w' = writes k h w) : PipeBalance h' w' := by
  refine ⟨fun x => ?_, fun k hk => ?_, fun k hk => ?_⟩
  · rw [hp]
    exact hb.unique x
  · rw [hp, hw]
    exact hb.below k (hg ▸ hk)
  · rw [hw, hbusy]
    exact hb.counted k (hp ▸ hk)

/-- A change that does not touch the containers. -/
theorem apart (hb : PipeBalance h w) (hg : w'.g.nextPipeId = w.g.nextPipeId)
    (hc : w'.g.containers = w.g.containers) (hw : ∀ k, writes k h' w' = writes k h w) :
    PipeBalance h' w' := hb.congr hg (World.piped_congr hc) (World.busyAt_congr hc) hw

/-- A new pipe has an id that no write names. -/
theorem attachPipe {info : ContainerInfo} {write : Fd .pipe} (hb : PipeBalance h w)
    (hi : w.g.containers.lookup pid = some info) (hg : w'.g.nextPipeId = w.g.nextPipeId + 1)
    (hc : w'.g.containers = (w.attachPipe pid w.g.nextPipeId write).g.containers)
    (hw : ∀ k, writes k h' w' = writes k h w) : PipeBalance h' w' := by
  have hpiped : ∀ x, w'.piped x = w.piped x + if w.g.nextPipeId = x then 1 else 0 := by
    intro x
    rw [World.piped_congr hc]
    have hmod : (w.attachPipe pid w.g.nextPipeId write).piped x + info.gateway.known x = _ :=
      World.piped_modifyContainer hi
    rw [ContainerInfo.attachPipe, LogGateway.known_attach] at hmod
    change _ = w.piped x + (_ + if w.g.nextPipeId = x then 1 else 0) at hmod
    omega
  have hbusy : ∀ k, w'.busyAt k = w.busyAt k := by
    intro k
    rw [World.busyAt_congr hc]
    have hmod : (w.attachPipe pid w.g.nextPipeId write).busyAt k = _ :=
      World.busyAt_modifyContainer hi
    rw [hmod, ContainerInfo.attachPipe, LogGateway.busy_attach rfl]
    split_ifs with hk
    · exact (World.busyAt_eq (hk ▸ hi)).symm
    · rfl
  refine ⟨fun x => ?_, fun k hk => ?_, fun k hk => ?_⟩
  · rw [hpiped]
    have hle := hb.unique x
    split_ifs with hx
    · have hzero := (hb.below (pid, x) hx.le).1
      simp only at hzero
      omega
    · exact hle
  · rw [hg] at hk
    rw [hpiped, hw, if_neg (by omega)]
    exact hb.below k (by omega)
  · rw [hw, hbusy]
    rw [hpiped] at hk
    by_cases hx : w.g.nextPipeId = k.2
    · have hbelow := hb.below k hx.le
      have hle := w.busyAt_le_piped (k := k)
      omega
    · rw [if_neg hx] at hk
      exact hb.counted k hk

/-- A line is written to the pipes that were idle. -/
theorem push {info : ContainerInfo} {gateway : LogGateway} {line : Bytes} {ids : List ℕ}
    (hb : PipeBalance h w) (hi : w.g.containers.lookup pid = some info)
    (hpush : info.gateway.push line = some (gateway, ids)) (hg : w'.g.nextPipeId = w.g.nextPipeId)
    (hc : w'.g.containers = (w.modifyContainer pid ({ · with gateway := gateway })).g.containers)
    (hw : ∀ k, writes k h' w' = writes k h w + if k.1 = pid then ids.count k.2 else 0) :
    PipeBalance h' w' := by
  have hpiped : ∀ x, w'.piped x = w.piped x := by
    intro x
    rw [World.piped_congr hc]
    have hmod := World.piped_modifyContainer (x := x) (f := ({ · with gateway := gateway })) hi
    have hknown := LogGateway.known_push (x := x) hpush
    simp only at hmod
    omega
  have hcount := fun x => LogGateway.count_push (x := x) hpush
  have hle : ∀ x, info.gateway.known x ≤ w.piped x := fun x => World.known_le_piped hi
  refine ⟨fun x => hpiped x ▸ hb.unique x, fun k hk => ?_, fun k hk => ?_⟩
  · obtain ⟨hzero, hnone⟩ := hb.below k (hg ▸ hk)
    have hknown := hcount k.2
    have hk' := hle k.2
    rw [hpiped, hw, hnone]
    split_ifs <;> omega
  · rw [hpiped] at hk
    rw [hw, hb.counted k hk, World.busyAt_congr hc, World.busyAt_modifyContainer hi]
    split_ifs with hpid
    · rw [World.busyAt_eq (hpid ▸ hi), LogGateway.busy_push hpush]
      have hknown := hcount k.2
      omega
    · rfl

/-- The write of a pipe has ended. -/
theorem complete {info : ContainerInfo} (hb : PipeBalance h w)
    (hi : w.g.containers.lookup pid = some info) (hg : w'.g.nextPipeId = w.g.nextPipeId)
    (hc : w'.g.containers = (w.modifyContainer pid
      ({ · with gateway := (info.gateway.completeWrite x ok).1 })).g.containers)
    (hw : ∀ k, writes k h' w' + (if k = (pid, x) then 1 else 0) = writes k h w) :
    PipeBalance h' w' := by
  have hknown : info.gateway.known x ≤ 1 := (World.known_le_piped hi).trans (hb.unique x)
  have hpiped : ∀ y, w'.piped y ≤ w.piped y := by
    intro y
    rw [World.piped_congr hc]
    have hmod := World.piped_modifyContainer (x := y)
      (f := ({ · with gateway := (info.gateway.completeWrite x ok).1 })) hi
    have hy : (info.gateway.completeWrite x ok).1.known y ≤ info.gateway.known y := by
      by_cases hyx : y = x
      · rw [hyx, LogGateway.known_completeWrite hknown]
        split_ifs <;> omega
      · rw [LogGateway.known_completeWrite_ne hyx]
    simp only at hmod
    omega
  refine ⟨fun y => (hpiped y).trans (hb.unique y), fun k hk => ?_, fun k hk => ?_⟩
  · have hbelow := hb.below k (hg ▸ hk)
    have hle := hpiped k.2
    have hwk := hw k
    omega
  · have hcounted := hb.counted k (hk.trans_le (hpiped k.2))
    have hwk := hw k
    rw [World.busyAt_congr hc, World.busyAt_modifyContainer hi]
    by_cases heq : k = (pid, x)
    · -- the token was the pipe's one write
      subst heq
      have hle := w.busyAt_le_piped (k := (pid, x))
      have hone := hb.unique x
      rw [if_pos rfl] at hwk ⊢
      simp only at hle ⊢
      rw [LogGateway.busy_completeWrite hknown]
      omega
    · rw [if_neg heq] at hwk
      split_ifs with hpid
      · have hne : k.2 ≠ x := fun hx => heq (Prod.ext hpid hx)
        rw [LogGateway.busy_completeWrite_ne hne, ← World.busyAt_eq (hpid ▸ hi)]
        omega
      · omega

theorem bury {info : ContainerInfo} (hb : PipeBalance h w)
    (hi : w.g.containers.lookup pid = some info) (hg : w'.g.nextPipeId = w.g.nextPipeId)
    (hc : w'.g.containers = w.g.containers.erase pid)
    (hw : ∀ k, writes k h' w' = writes k h w) : PipeBalance h' w' := by
  have hpiped : ∀ y, w.piped y = info.gateway.known y + w'.piped y := fun y =>
    World.piped_erase hi hc
  refine ⟨fun y => ?_, fun k hk => ?_, fun k hk => ?_⟩
  · have hone := hb.unique y
    have hy := hpiped y
    omega
  · have hbelow := hb.below k (hg ▸ hk)
    have hy := hpiped k.2
    rw [hw]
    omega
  · have hy := hpiped k.2
    have hone := hb.unique k.2
    rw [hw, hb.counted k (by omega), World.busyAt_erase pid hc]
    split_ifs with hpid
    · -- the pipe is another container's
      rw [World.busyAt_eq (hpid ▸ hi)]
      have hle := info.gateway.busy_le_known (x := k.2)
      omega
    · rfl

end PipeBalance

theorem Move.pipeBalance (hτ : τ.fresh) (hm : Move τ (h, w) (h', w')) (hb : PipeBalance h w) :
    PipeBalance h' w' := by
  cases hm with
  | perm hp => exact hb.apart rfl rfl fun k => writes_congr rfl (hp.countP_eq _) rfl
  | @note _ _ e he =>
    refine hb.apart rfl rfl fun k => writes_congr rfl rfl ?_
    cases e <;> first | exact he.elim | simp [Entry.losesWrite]
  | @release _ _ t d ht =>
    have hnone : t.followOf = none := by cases t <;> first | rfl | cases ht
    exact hb.apart rfl rfl fun k => writes_congr rfl (by simp [hnone]) (by simp [Entry.losesWrite])
  | refused hloose => exact hb.apart rfl rfl fun k => writes_submitOther (followOf_of_loose hloose)
  | denied ht => exact hb.apart rfl rfl fun k => writes_submit (by simp [followOf_of_for ht])
  | @starved _ _ t loc ht =>
    refine hb.apart rfl rfl fun k => ?_
    have hlost : lostWrites k (w.note (.starved loc)).trace = lostWrites k w.trace +
        if loc.followOf = some k then 1 else 0 := by simp [Entry.losesWrite]
    unfold writes
    rw [hlost, writesHeld_cons, followOf_of_for ht]
    change w.writing k + _ + _ = _
    omega
  | read hr => exact hb.apart rfl rfl fun k => writes_submitOther (followOf_of_reader hr)
  | output => exact hb.apart rfl rfl fun k => writes_submitOther rfl
  | offer =>
    refine hb.apart rfl rfl fun k => (writes_submitOther rfl).trans ?_
    exact writes_congr rfl rfl (by simp [Entry.losesWrite])
  | passFd | follow =>
    exact hb.apart rfl rfl fun k => writes_submit (by simp [Token.followOf, OpLocal.followOf])
  | relisten hl =>
    exact hb.apart rfl rfl fun k => writes_submit (by simp [Token.followOf, followOf_of_loop hl])
  | @rearm _ _ kind =>
    have hnone : ∀ pid lineBuf, (kind.loc pid lineBuf).followOf = none := by
      intro pid lineBuf
      cases kind <;> rfl
    exact hb.apart rfl rfl fun k => writes_submit (by simp [Token.followOf, hnone])
  | respond hs hc | data hs hc => exact hb.apart (by simp) (by simp) fun k => writes_beginFrame rfl
  | finish hs hdone hexited hsent hc =>
    refine hb.apart (by simp; rfl) (by simp; rfl) fun k => (writes_beginFrame rfl).trans ?_
    exact writes_congr rfl (by simp [Token.followOf]) rfl
  | @resume _ _ id n want op loc fd hop hr hres =>
    refine hb.apart rfl rfl fun k => ?_
    rw [← writes_takeOp (r := .count n) (h := h) hop]
    refine writes_submit ?_
    rw [writesHeld_append, writesHeld_tokens, followOf_of_resumes hres, Nat.add_comm]
  | retire hop hr => exact hb.apart rfl rfl fun k => writes_takeOp hop
  | adoptAttach hs hi | attachGone hs hi =>
    exact hb.attachPipe hi rfl rfl fun k => writes_congr rfl (by simp) (by simp [Entry.losesWrite])
  | followPipe hi =>
    exact hb.attachPipe hi rfl rfl fun k =>
      writes_congr rfl (by simp [Token.followOf]) (by simp [Entry.losesWrite])
  | installDetached hgw hzero hpid hfresh | installAttached hgw hzero hpid hfresh =>
    have hpipes := congrArg LogGateway.pipes hgw
    refine hb.congr rfl (World.piped_insert _ (hfresh hτ) hpipes rfl)
      (World.busyAt_insert _ (hfresh hτ) hpipes rfl) fun k => ?_
    exact writes_congr rfl (by simp) (by simp [Entry.losesWrite])
  | addDrain | drainEnds | dropPtm =>
    refine hb.congr rfl (by simp) (by simp) fun k => writes_congr rfl ?_ rfl
    simp [Token.followOf]
  | buryDrained hi => 
    refine hb.bury hi rfl rfl fun k => writes_congr rfl ?_ (by simp [Entry.losesWrite])
    simp [Token.followOf]
  | reaped =>
    refine hb.apart World.nextPipeId_reap World.containers_reap fun k => ?_
    exact writes_congr World.ops_reap (by simp) (by simp [Entry.losesWrite])
  | @buryReaped _ _ pid exitCode told info hpid hmeets htold hi =>
    refine hb.bury hi World.nextPipeId_reap ?_ fun k => ?_
    · change (w.reap pid exitCode told).g.containers.erase pid = _
      rw [World.containers_reap]
    · exact writes_congr World.ops_reap (by simp) (by simp [Entry.losesWrite])
  | @pushLine hs _ kind pid line lineBuf lines info gateway ids hi hpush =>
    refine hb.push hi hpush rfl rfl fun k => ?_
    unfold writes
    rw [lines_of_push hpush, writesHeld_append, writesHeld_lines]
    have hlost : lostWrites k ((w.modifyContainer pid ({ · with gateway := gateway })).note
        (.pushed pid line w.followIds)).trace = lostWrites k w.trace := by simp [Entry.losesWrite]
    rw [hlost]
    change w.writing k + _ + _ = _
    simp only [writesHeld_cons, Token.followOf]
    split_ifs <;> omega
  | @wrote hs _ pid pipeId info ok hi =>
    refine hb.complete hi rfl rfl fun k => ?_
    unfold writes
    simp only [writesHeld_append, writesHeld_hold, writesHeld_cons, Token.followOf]
    change w.writing k + _ + lostWrites k w.trace + _ = _
    simp only [Option.some.injEq, eq_comm (a := k)]
    omega
  | @writtenGone _ _ pid pipeId ok hnone =>
    have hw : ∀ k, writes k h' w + (if k = (pid, pipeId) then 1 else 0) =
        writes k (.written pid pipeId ok :: h') w := by
      intro k
      unfold writes
      simp only [writesHeld_cons, Token.followOf, Option.some.injEq, eq_comm (a := k)]
      omega
    refine ⟨hb.unique, fun k hk => ?_, fun k hk => ?_⟩
    · have hbelow := hb.below k hk
      have hwk := hw k
      omega
    · have hcounted := hb.counted k hk
      have hwk := hw k
      split_ifs at hwk with heq
      · -- no write is in hand for a pipe of another container
        have hzero : w.busyAt k = 0 := by
          rw [heq]
          unfold World.busyAt
          rw [hnone]
          rfl
        omega
      · omega
  | _ =>
    refine hb.apart rfl rfl fun k => writes_congr rfl ?_ ?_
    · first | rfl | simp
    · first | rfl | simp [Entry.losesWrite]

theorem PipeBalance.perform (hb : PipeBalance [] w) (hn : w.Numbered)
    (hop : w.findOp op.id = some op) : PipeBalance [] (w.perform op r) := by
  have hg : (w.perform op r).g = w.g := World.g_perform
  exact hb.apart (by rw [hg]) (by rw [hg]) fun k => writes_perform hn hop

def Entry.refuses : Entry → Bool
  | .submitted loc _ _ false | .starved loc => loc.drainOf.isSome || loc.followOf.isSome
  | _ => false

def refusals (tr : List Entry) : ℕ := tr.countP Entry.refuses

private theorem lostDrains_le_refusals (pid : Pid) (tr : List Entry) : lostDrains pid tr ≤ refusals tr := by
  refine List.countP_mono_left fun e _ he => ?_
  unfold Entry.losesDrain at he
  unfold Entry.refuses
  split at he
  · simp [of_decide_eq_true he]
  · simp [of_decide_eq_true he]
  · cases he

private theorem lostWrites_le_refusals (k : Pid × ℕ) (tr : List Entry) : lostWrites k tr ≤ refusals tr := by
  refine List.countP_mono_left fun e _ he => ?_
  unfold Entry.losesWrite at he
  unfold Entry.refuses
  split at he
  · simp [of_decide_eq_true he]
  · simp [of_decide_eq_true he]
  · cases he

private theorem Entry.Boots.not_refuses (he : e.Boots) : e.refuses = false := by
  have hloc : ∀ loc : OpLocal, loc.loop.isSome → (loc.drainOf.isSome || loc.followOf.isSome) = false := by
    intro loc hl
    cases loc <;> first | rfl | cases hl
  cases e with
  | submitted loc fd file ok =>
    cases ok with
    | true => rfl
    | false => exact hloc loc he
  | starved loc => exact hloc loc he
  | _ => rfl

/-- Every drain and every follow write that the step asks for is armed. -/
def Unrefused (codec : Codec) (w : World) (e : Event) : Prop :=
  ∀ w', step codec w e = some w' → refusals w'.trace = refusals w.trace

instance {e : Event} : Decidable (Unrefused codec w e) :=
  inferInstanceAs (Decidable (∀ w' ∈ step codec w e, refusals w'.trace = refusals w.trace))

def Terms.counting : Terms := { Terms.none with fresh := True }

theorem books_invariant : Invariant .counting codec
    (fun w e => Delivers (fun w _ _ => FreshStep w) w e ∧ w.Numbered)
    fun h w => DrainBalance h w ∧ PipeBalance h w where
  move hx hm := ⟨hm.drainBalance trivial hx.1, hm.pipeBalance trivial hx.2⟩
  enter hx _ := ⟨hx.1, hx.2.unique, hx.2.below, hx.2.counted⟩
  perform hx hop _ _ hok := ⟨hx.1.perform hok.2 hop, hx.2.perform hok.2 hop⟩
  fits _ hop hr hok := { Fits.none with fresh := fun _ => hok.1 _ _ hop hr }

/-- Each counter is the number of drains in flight, and a pipe is marked exactly when a write to it
is in flight. -/
structure BooksMatch (w : World) : Prop where
  drains : ∀ pid info, w.g.containers.lookup pid = some info → info.drainsPending = w.draining pid
  pipes : ∀ pid info, w.g.containers.lookup pid = some info → ∀ p ∈ info.gateway.pipes,
    (p.inFlight = true ↔ ∃ op ∈ w.ops, ∃ owner, op.loc.followOf = some (owner, p.id))

theorem booksMatch (hd : DrainBalance [] w) (hp : PipeBalance [] w) (hno : refusals w.trace = 0) :
    BooksMatch w := by
  have hdrains : ∀ pid, lostDrains pid w.trace = 0 := fun pid => by
    have hle := lostDrains_le_refusals pid w.trace
    omega
  have hwrites : ∀ k, writes k [] w = w.writing k := fun k => by
    have hle := lostWrites_le_refusals k w.trace
    unfold writes
    rw [writesHeld_nil]
    omega
  refine ⟨fun pid info hi => ?_, fun pid info hi p hpipe => ?_⟩
  · have hbal := hd pid
    rw [drains_eq hi, hdrains pid] at hbal
    simpa using hbal.symm
  · have hpos : 0 < info.gateway.known p.id := LogGateway.known_pos hpipe
    have hle := World.known_le_piped (x := p.id) hi
    have hone := hp.unique p.id
    have hcount : ∀ owner, w.writing (owner, p.id) = w.busyAt (owner, p.id) := fun owner =>
      (hwrites _).symm.trans (hp.counted (owner, p.id) (by simp only; omega))
    have hbusy := LogGateway.busy_pos_iff hpipe (by omega)
    have hbusyAt : w.busyAt (pid, p.id) = info.gateway.busy p.id := World.busyAt_eq hi
    rw [← hbusy, ← hbusyAt, ← hcount]
    constructor
    · intro hw
      obtain ⟨op, hop, hloc⟩ := List.countP_pos_iff.mp hw
      exact ⟨op, hop, pid, of_decide_eq_true hloc⟩
    · rintro ⟨op, hop, owner, hloc⟩
      have hw : 0 < w.writing (owner, p.id) := List.countP_pos_iff.mpr ⟨op, hop, by simp [hloc]⟩
      rw [hcount] at hw
      obtain rfl := World.owner_eq (hp.unique p.id) hi hpos hw
      exact (hcount owner).symm ▸ hw

theorem run_books (hb : booted answers = some w₀) (hr : Reaches (step codec)
    (fun w e => Delivers (fun w _ _ => FreshStep w) w e ∧ Unrefused codec w e) w₀ w) :
    BooksMatch w := by
  have h₀ : refusals w₀.trace = 0 := List.countP_eq_zero.mpr fun e he => by
    rw [(booted_trace hb e he).not_refuses]
    exact Bool.false_ne_true
  have hno : refusals w.trace = 0 := by
    refine hr.invariant (P := fun w => refusals w.trace = 0) h₀ fun s e t hs hok hst => ?_
    rw [hok.2 t hst]
    exact hs
  have hx := books_invariant.reaches ⟨fun _ => rfl, .init⟩ hb (hr.mono fun _ _ hok => hok.1)
  exact booksMatch hx.1 hx.2 hno

/-- A client follows a container, and a line of its output is being written to the pipe. -/
theorem run_books_follows : ∃ w₀ w, booted quietBoot = some w₀ ∧ Reaches (step sampleCodec)
    (fun w e => Delivers (fun w _ _ => FreshStep w) w e ∧ Unrefused sampleCodec w e) w₀ w ∧
      w.draining 100 = 1 ∧ w.writing (100, 0) = 1 ∧ BooksMatch w := by
  obtain ⟨w₀, w, hb, hr, ht⟩ := exists_of_executes (step sampleCodec)
    (fun w e => Delivers (fun w _ _ => FreshStep w) w e ∧ Unrefused sampleCodec w e)
    (booted quietBoot)
    (datagram 0 3 [1] runDetached ++
      datagram 5 6 [3] [.call (.ok [14, 15]), .call (.ok []), .submit true] ++
        turn 4 (.bytes [97, 10]) [.stale [], .submit true, .submit true])
    (fun _ w => decide (w.draining 100 = 1 ∧ w.writing (100, 0) = 1)) (by decide +kernel)
  obtain ⟨hdrain, hwrite⟩ := of_decide_eq_true ht
  exact ⟨w₀, w, hb, hr, hdrain, hwrite, run_books hb hr⟩

/-- The drain of a new container is not armed, and the container waits for it. -/
theorem refused_drain_awaited : ∃ w₀ w, booted quietBoot = some w₀ ∧
    Reaches (step sampleCodec) (fun _ _ => True) w₀ w ∧ ¬ BooksMatch w := by
  obtain ⟨w₀, w, hb, hr, ht⟩ := exists_of_executes (step sampleCodec) (fun _ _ => True)
    (booted quietBoot)
    (datagram 0 3 [1] [.call (.ok [10, 11]), .call (.ok [12, 13]), .clone (.ok 100),
      .call (.ok []), .clock 0, .submit false])
    (fun _ w => decide (w.draining 100 = 0 ∧ w.drains 100 = some 1)) (by decide +kernel)
  obtain ⟨hnone, hwaits⟩ := of_decide_eq_true ht
  refine ⟨w₀, w, hb, hr, fun hx => ?_⟩
  obtain ⟨info, hi, hone⟩ := Option.map_eq_some_iff.mp hwaits
  have := hx.drains 100 info hi
  omega

end Conrt.Daemon
