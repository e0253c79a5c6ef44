import Conrt.Daemon.Drains

/-! When a container leaves the table, and when its overlay is removed. -/
namespace Conrt.Daemon

open Conrt.Base

variable {τ : Terms} {h h' : List Token} {w w' w₀ : World} {codec : Codec} {answers : List Answer}
  {pid : Pid} {tr es : List Entry} {e : Entry} {dir : ℕ} {op : InFlight} {r : Result}

def noteListed (pid : Pid) (listed : Bool) : Entry → Bool
  | .installed p _ _ _ => if p = pid then true else listed
  | .retired p _ => if p = pid then false else listed
  | _ => listed

def listedIn (pid : Pid) (tr : List Entry) : Bool := tr.foldl (noteListed pid) false

def Entry.retires (dir : ℕ) : Entry → Bool
  | .retired _ overlay => overlay = some dir
  | _ => false

def Entry.removes (dir : ℕ) : Entry → Bool
  | .overlayRemoved d => d = dir
  | _ => false

def retirals (dir : ℕ) (tr : List Entry) : ℕ := tr.countP (·.retires dir)

def removals (dir : ℕ) (tr : List Entry) : ℕ := tr.countP (·.removes dir)

/-- A container is put where there is none, it is taken out when it is there and its child has been
reaped, and its overlay is removed once for that. -/
def RetiresOver (before : List Entry) : Entry → Prop
  | .installed pid _ _ _ => listedIn pid before = false
  | .retired pid _ => listedIn pid before = true ∧ exitOf pid before ≠ none
  | .overlayRemoved dir => removals dir before < retirals dir before
  | _ => True

@[simp] theorem listedIn_append :
    listedIn pid (tr ++ es) = es.foldl (noteListed pid) (listedIn pid tr) := List.foldl_append ..

@[simp] theorem retirals_append : retirals dir (tr ++ es) = retirals dir tr + retirals dir es :=
  List.countP_append ..

@[simp] theorem retirals_cons :
    retirals dir (e :: es) = retirals dir es + if e.retires dir then 1 else 0 := List.countP_cons ..

@[simp] theorem retirals_nil : retirals dir [] = 0 := rfl

@[simp] theorem removals_append : removals dir (tr ++ es) = removals dir tr + removals dir es :=
  List.countP_append ..

@[simp] theorem removals_cons :
    removals dir (e :: es) = removals dir es + if e.removes dir then 1 else 0 := List.countP_cons ..

@[simp] theorem removals_nil : removals dir [] = 0 := rfl

namespace World

def listed (w : World) (pid : Pid) : Bool := (w.g.containers.lookup pid).isSome

theorem listed_congr (hg : w'.g.containers = w.g.containers) : w'.listed = w.listed := by
  funext p
  unfold listed
  rw [hg]

@[simp] theorem listed_note : (w.note e).listed = w.listed := rfl

@[simp] theorem listed_modifySession {sid : ℕ} {f : AttachSession → AttachSession} :
    (w.modifySession sid f).listed = w.listed := rfl

@[simp] theorem listed_modifyContainer {f : ContainerInfo → ContainerInfo} :
    (w.modifyContainer pid f).listed = w.listed := by
  funext p
  unfold listed modifyContainer
  rw [Table.lookup_update_ite]
  split_ifs with hp
  · rw [hp, Option.isSome_map]
  · rfl

@[simp] theorem listed_attachPipe {pipeId : ℕ} {fd : Fd .pipe} :
    (w.attachPipe pid pipeId fd).listed = w.listed := listed_modifyContainer

theorem listed_insert (pid : Pid) (info : ContainerInfo) {p : Pid}
    (hg : w'.g.containers = w.g.containers.insert pid info) :
    w'.listed p = if p = pid then true else w.listed p := by
  unfold listed
  rw [hg, Table.lookup_insert_ite]
  split_ifs <;> rfl

theorem listed_erase (pid : Pid) {p : Pid} (hg : w'.g.containers = w.g.containers.erase pid) :
    w'.listed p = if p = pid then false else w.listed p := by
  unfold listed
  rw [hg, Table.lookup_erase_ite]
  split_ifs <;> rfl

end World

/-- What has happened in between bears on no container. -/
def Apart (tr tr' : List Entry) : Prop :=
  (∀ pid, listedIn pid tr' = listedIn pid tr) ∧ (∀ pid, exitOf pid tr' = exitOf pid tr) ∧
    (∀ dir, removals dir tr' = removals dir tr) ∧ (∀ dir, retirals dir tr' = retirals dir tr) ∧
      (Always RetiresOver tr → Always RetiresOver tr')

structure Retiring (h : List Token) (w : World) : Prop where
  drains : DrainBalance h w
  listed : ∀ pid, w.listed pid = listedIn pid w.trace
  reaped : ∀ pid, w.listed pid = true → pid ∈ w.children ∨ exitOf pid w.trace ≠ none
  overlays : ∀ dir, removals dir w.trace + h.count (.overlay dir) = retirals dir w.trace
  history : Always RetiresOver w.trace

namespace Retiring

theorem init : Retiring [] .init where
  drains := .init
  listed _ := rfl
  reaped pid hl := by cases hl
  overlays _ := rfl
  history := .nil

theorem congr (hx : Retiring h w) (hd : DrainBalance h' w') (hl : w'.listed = w.listed)
    (hch : w'.children = w.children) (hh : ∀ dir, h'.count (.overlay dir) = h.count (.overlay dir))
    (htr : Apart w.trace w'.trace) : Retiring h' w' := by
  obtain ⟨hlist, hexit, hremove, hretire, hhist⟩ := htr
  refine ⟨hd, fun pid => ?_, fun pid hp => ?_, fun dir => ?_, hhist hx.history⟩
  · rw [hl, hlist]
    exact hx.listed pid
  · rw [hch, hexit]
    exact hx.reaped pid (hl ▸ hp)
  · rw [hremove, hretire, hh]
    exact hx.overlays dir

theorem start (hx : Retiring h w) (hd : DrainBalance h w') (hl : w'.listed = w.listed)
    (hch : w'.children = pid :: w.children) (htr : w'.trace = w.trace ++ [.started pid]) :
    Retiring h w' where
  drains := hd
  listed p := by
    rw [hl, htr]
    simpa [noteListed] using hx.listed p
  reaped p hp := by
    rw [hch, htr]
    by_cases heq : pid = p
    · exact .inl (heq ▸ List.mem_cons_self)
    · rw [hl] at hp
      refine (hx.reaped p hp).imp (List.mem_cons_of_mem pid) fun hexit => ?_
      simpa [noteExit, heq] using hexit
  overlays dir := by
    rw [htr]
    simpa [Entry.removes, Entry.retires] using hx.overlays dir
  history := by
    rw [htr]
    simpa [RetiresOver] using hx.history

theorem reap {exitCode : ℤ} {told : Option ℕ} (hx : Retiring h w)
    (hd : DrainBalance h' (w.reap pid exitCode told))
    (hh : ∀ dir, h'.count (.overlay dir) = h.count (.overlay dir)) :
    Retiring h' (w.reap pid exitCode told) where
  drains := hd
  listed p := by
    rw [World.listed_congr World.containers_reap, World.trace_reap]
    simpa [noteListed] using hx.listed p
  reaped p hp := by
    rw [World.listed_congr World.containers_reap] at hp
    rw [World.children_reap, World.trace_reap]
    by_cases heq : pid = p
    · exact .inr (by simp [noteExit, heq])
    · refine (hx.reaped p hp).imp (List.mem_erase_of_ne (Ne.symm heq)).mpr fun hexit => ?_
      simpa [noteExit, heq] using hexit
  overlays dir := by
    rw [World.trace_reap, hh]
    simpa [Entry.removes, Entry.retires] using hx.overlays dir
  history := by
    rw [World.trace_reap]
    simpa [RetiresOver] using hx.history

/-- A container whose child has been reaped is taken out, and its overlay is to be removed. -/
theorem bury {info : ContainerInfo} (hx : Retiring h w) (hd : DrainBalance h' (w.buryContainer pid info))
    (hl : w.listed pid = true) (hexit : exitOf pid w.trace ≠ none)
    (hh : ∀ dir, h'.count (.overlay dir) =
      h.count (.overlay dir) + if info.overlay = some dir then 1 else 0) :
    Retiring h' (w.buryContainer pid info) where
  drains := hd
  listed p := by
    rw [World.listed_erase (w := w) pid rfl, World.trace_buryContainer, listedIn_append, hx.listed p]
    by_cases heq : p = pid
    · simp [noteListed, heq]
    · simp [noteListed, heq, Ne.symm heq]
  reaped p hp := by
    rw [World.listed_erase (w := w) pid rfl] at hp
    split_ifs at hp
    rw [World.trace_buryContainer, exitOf_append]
    exact hx.reaped p hp
  overlays dir := by
    have hold := hx.overlays dir
    rw [World.trace_buryContainer, hh]
    simp [Entry.removes, Entry.retires]
    omega
  history := by
    rw [World.trace_buryContainer, Always.concat_iff]
    exact ⟨hx.history, hx.listed pid ▸ hl, hexit⟩

theorem install {detached tty : Bool} {fds : List Handle} {info : ContainerInfo} (hx : Retiring h w)
    (hd : DrainBalance h' w') (hg : w'.g.containers = w.g.containers.insert pid info)
    (hch : w'.children = w.children) (htr : w'.trace = w.trace ++ [.installed pid detached tty fds])
    (hh : ∀ dir, h'.count (.overlay dir) = h.count (.overlay dir)) (hpid : pid ∈ w.children)
    (hfresh : w.g.containers.lookup pid = none) : Retiring h' w' where
  drains := hd
  listed p := by
    rw [World.listed_insert pid info hg, htr, listedIn_append, hx.listed p]
    by_cases heq : p = pid
    · simp [noteListed, heq]
    · simp [noteListed, heq, Ne.symm heq]
  reaped p hp := by
    rw [World.listed_insert pid info hg] at hp
    rw [hch, htr, exitOf_append]
    split_ifs at hp with heq
    · exact .inl (heq ▸ hpid)
    · exact hx.reaped p hp
  overlays dir := by
    rw [htr, hh]
    simpa [Entry.removes, Entry.retires] using hx.overlays dir
  history := by
    rw [htr, Always.concat_iff]
    refine ⟨hx.history, ?_⟩
    change listedIn pid w.trace = false
    rw [← hx.listed pid, World.listed, hfresh]
    rfl

theorem unmount (hx : Retiring (.overlay dir :: h) w) (hd : DrainBalance h (w.note (.overlayRemoved dir))) :
    Retiring h (w.note (.overlayRemoved dir)) where
  drains := hd
  listed p := by
    rw [World.trace_note, listedIn_append]
    exact hx.listed p
  reaped p hp := by
    rw [World.trace_note, exitOf_append]
    exact hx.reaped p hp
  overlays d := by
    have hold := hx.overlays d
    rw [List.count_cons] at hold
    rw [World.trace_note]
    simp [Entry.removes, Entry.retires] at hold ⊢
    omega
  history := by
    have hold := hx.overlays dir
    rw [List.count_cons_self] at hold
    rw [World.trace_note, Always.concat_iff]
    refine ⟨hx.history, ?_⟩
    change removals dir w.trace < retirals dir w.trace
    omega

end Retiring

private theorem count_overlay_tokens {loc : OpLocal} : (loc.tokens r).count (.overlay dir) = 0 := by
  have hdrain : ∀ kind pid lineBuf, drainToken kind pid lineBuf r ≠ .overlay dir := by
    intro kind pid lineBuf
    unfold drainToken
    split <;> simp
  cases loc with
  | sigchld => cases r <;> simp [OpLocal.tokens]
  | _ => simp [OpLocal.tokens, hdrain]

theorem count_overlays {hs : List Handle} {overlay : Option ℕ} :
    (hold hs ++ (overlay.toList.map Token.overlay ++ h)).count (.overlay dir) =
      h.count (.overlay dir) + if overlay = some dir then 1 else 0 := by
  rw [List.count_append, count_hold (by simp), List.count_append]
  cases overlay with
  | none => simp
  | some d => simp [List.count_cons, Nat.add_comm]

theorem ne_overlay_of_for {t : Token} {loc : OpLocal} (ht : t.For loc) : t ≠ .overlay dir := by
  rintro rfl
  cases ht

theorem Move.retiring (hτ : τ.fresh) (hτ' : τ.outlived) (hm : Move τ (h, w) (h', w'))
    (hx : Retiring h w) : Retiring h' w' := by
  have hd := hm.drainBalance hτ hx.drains
  have hmap : ∀ {α : Type} (f : α → Token) (l : List α) dir, (∀ a, f a ≠ .overlay dir) →
      (l.map f).count (.overlay dir) = 0 := fun f l dir hf => count_map_of_ne hf
  cases hm with
  | started => exact hx.start hd rfl rfl rfl
  | reaped => exact hx.reap hd (by simp)
  | @buryReaped hs _ pid exitCode told info hpid hmeets htold hi =>
    have hreap : DrainBalance h (w.reap pid exitCode told) :=
      hx.drains.congr World.ops_reap (fun _ => rfl) (by simp [Entry.losesDrain]) (by simp)
    have hl : (w.reap pid exitCode told).listed pid = true := by simp [World.listed, hi]
    refine (hx.reap hreap fun _ => rfl).bury hd hl (by simp [noteExit]) fun dir => ?_
    rw [count_overlays]
    simp
  | @buryDrained hs _ kind pid lineBuf ended info hi hle hgone =>
    have hl : w.listed pid = true := by simp [World.listed, hi]
    refine hx.bury hd hl ((hx.reaped pid hl).resolve_left (hgone hτ')) fun dir => ?_
    rw [count_overlays]
    simp
  | installDetached hgw hzero hpid hfresh | installAttached hgw hzero hpid hfresh =>
    exact hx.install hd rfl rfl rfl (by simp) hpid (hfresh hτ)
  | @unmount _ _ dir => exact hx.unmount hd
  | @note _ _ e he =>
    refine hx.congr hd rfl rfl (fun _ => rfl) ?_
    cases e <;> first
      | exact he.elim
      | simp [Apart, noteListed, noteExit, Entry.removes, Entry.retires, RetiresOver]
  | perm hp => exact hx.congr hd rfl rfl (fun _ => hp.count_eq _) (by simp [Apart])
  | @release _ _ t d ht =>
    have hne : ∀ dir, t ≠ .overlay dir := by
      rintro dir rfl
      cases ht
    refine hx.congr hd rfl rfl (by simp [hne]) ?_
    simp [Apart, noteListed, noteExit, Entry.removes, Entry.retires, RetiresOver]
  | denied ht | starved ht =>
    refine hx.congr hd rfl rfl (by simp [ne_overlay_of_for ht]) ?_
    simp [Apart, noteListed, noteExit, Entry.removes, Entry.retires, RetiresOver]
  | retire => exact hx.congr hd rfl rfl (by simp [count_overlay_tokens]) (by simp [Apart])
  | @finish _ _ sid want sess ok =>
    refine hx.congr hd (World.listed_congr (by simp; rfl)) (by simp; rfl) (by simp) ?_
    cases ok <;> simp [Apart, noteListed, noteExit, Entry.removes, Entry.retires, RetiresOver]
  | resume =>
    refine hx.congr hd rfl rfl (fun _ => rfl) ?_
    simp [Apart, noteListed, noteExit, Entry.removes, Entry.retires, RetiresOver]
  | pushLine =>
    refine hx.congr hd (by simp) rfl (fun dir => ?_) ?_
    · rw [List.count_append, hmap _ _ _ fun _ => by simp]
      simp
    · simp [Apart, noteListed, noteExit, Entry.removes, Entry.retires, RetiresOver]
  | _ =>
    refine hx.congr hd ?_ rfl ?_ ?_
    · first | rfl | simp
    · first | exact fun _ => rfl | simp
    · simp [Apart, noteListed, noteExit, Entry.removes, Entry.retires, RetiresOver]

theorem Retiring.perform (hx : Retiring [] w) (hn : w.Numbered)
    (hop : w.findOp op.id = some op) : Retiring [] (w.perform op r) := by
  refine hx.congr (hx.drains.perform hn hop) (World.listed_congr (by rw [World.g_perform]))
    World.children_perform (fun _ => rfl) ?_
  rcases w.trace_perform_cases op r with htr | ⟨e, htr, hout⟩
  · simp [htr, Apart]
  · rw [htr]
    cases e <;> first
      | exact hout.elim
      | simp [Apart, noteListed, noteExit, Entry.removes, Entry.retires, RetiresOver]

def Terms.retiring : Terms := { Terms.none with outlived := True, fresh := True }

/-- The last drain of a container ends after its child has been reaped, and no child gets the pid
of a container in the table. -/
def OverStep (w : World) (op : InFlight) (r : Result) : Prop := OutlivedStep w op r ∧ FreshStep w

theorem retiring_invariant :
    Invariant .retiring codec (fun w e => Delivers OverStep w e ∧ w.Numbered) Retiring where
  move hx hm := hm.retiring trivial trivial hx
  enter hx _ := ⟨hx.drains, hx.listed, hx.reaped, hx.overlays, hx.history⟩
  perform hx hop _ _ hok := hx.perform hok.2 hop
  fits _ hop hr hok :=
    { Fits.none with
      outlived := fun _ => (hok.1 _ _ hop hr).1
      fresh := fun _ => (hok.1 _ _ hop hr).2 }

/-- Each container is taken out of the table at most once, only after its child has been reaped and
when none of its drains is in flight, and its overlay is removed once for that; until then it stays
in the table. -/
structure OnlyWhenOver (w : World) : Prop where
  history : Always RetiresOver w.trace
  drained : ∀ op ∈ w.ops, ∀ pid, op.loc.drainOf = some pid → w.listed pid = true
  listed : ∀ pid, w.listed pid = listedIn pid w.trace
  overlays : ∀ dir, removals dir w.trace = retirals dir w.trace

theorem Retiring.onlyWhenOver (hx : Retiring [] w) : OnlyWhenOver w where
  history := hx.history
  drained op hop pid hpid := by
    have hbal := hx.drains pid
    have hpos : 0 < w.draining pid := List.countP_pos_iff.mpr ⟨op, hop, by simpa using hpid⟩
    unfold World.drains at hbal
    cases hl : w.g.containers.lookup pid with
    | none =>
      rw [hl] at hbal
      simp only [Option.map_none, Option.getD_none] at hbal
      omega
    | some info => simp [World.listed, hl]
  listed := hx.listed
  overlays dir := by simpa using hx.overlays dir

theorem run_retires (hb : booted answers = some w₀)
    (hr : Reaches (step codec) (Delivers OverStep) w₀ w) : OnlyWhenOver w :=
  (retiring_invariant.reaches .init hb hr).onlyWhenOver

def retiresOver (before : List Entry) : Entry → Bool
  | .installed pid _ _ _ => !listedIn pid before
  | .retired pid _ => listedIn pid before && (exitOf pid before).isSome
  | .overlayRemoved dir => removals dir before < retirals dir before
  | _ => true

theorem retiresOver_iff : retiresOver tr e = true ↔ RetiresOver tr e := by
  cases e <;> simp [retiresOver, RetiresOver, Option.isSome_iff_ne_none]

instance : Decidable (RetiresOver tr e) := decidable_of_iff _ retiresOver_iff

def Answer.child : Answer → Option Pid
  | .clone (.ok pid) => some pid
  | _ => none

private theorem forall_child {P : Pid → Prop} {as : List Answer} :
    (∀ a ∈ as, ∀ pid ∈ a.child, P pid) ↔ ∀ pid, .clone (.ok pid) ∈ as → P pid := by
  constructor
  · exact fun hp pid ha => hp _ ha pid rfl
  · intro hp a ha pid hc
    cases a with
    | clone r =>
      cases r with
      | error _ => cases hc
      | ok p =>
        obtain rfl : p = pid := Option.some.inj hc
        exact hp p ha
    | _ => cases hc

instance : Decidable (FreshStep w) := decidable_of_iff _ forall_child

instance : Decidable (OutlivedStep w op r) :=
  decidable_of_iff (∀ pid ∈ op.loc.ends r, ∀ info ∈ w.g.containers.lookup pid,
    info.drainsPending ≤ 1 → pid ∉ w.children)
    ⟨fun hk pid info hp hi => hk pid hp info hi, fun hk pid hp info hi => hk pid info hp hi⟩

instance : Decidable (OverStep w op r) := inferInstanceAs (Decidable (_ ∧ _))

/-- The child is reaped, and then its output ends. -/
theorem run_retires_reaped : ∃ w₀ w, booted quietBoot = some w₀ ∧
    Reaches (step sampleCodec) (Delivers OverStep) w₀ w ∧
      .retired 100 none ∈ w.trace ∧ OnlyWhenOver w := by
  obtain ⟨w₀, w, hb, hr, ht⟩ := exists_of_executes (step sampleCodec) (Delivers OverStep)
    (booted quietBoot)
    (datagram 0 3 [1] runDetached ++
      turn 2 (.bytes [17]) [.wait (some (100, 0, 0)), .wait none, .call (.ok []), .submit true] ++
      turn 4 (.bytes []) [])
    (fun _ w => decide (.retired 100 none ∈ w.trace)) (by decide +kernel)
  exact ⟨w₀, w, hb, hr, of_decide_eq_true ht, run_retires hb hr⟩

/-- The child closes its output and runs on: the container is gone. -/
theorem closed_output_retires : ∃ w₀ w, booted quietBoot = some w₀ ∧
    Reaches (step sampleCodec) (fun _ _ => True) w₀ w ∧ 100 ∈ w.children ∧
      exitOf 100 w.trace = none ∧ w.listed 100 = false ∧ ¬ Always RetiresOver w.trace := by
  obtain ⟨w₀, w, hb, hr, ht⟩ := exists_of_executes (step sampleCodec) (fun _ _ => True)
    (booted quietBoot)
    (datagram 0 3 [1] runDetached ++ turn 4 (.bytes []) [])
    (fun _ w => decide (100 ∈ w.children ∧ exitOf 100 w.trace = none ∧ w.listed 100 = false ∧
      ¬ Always RetiresOver w.trace)) (by decide +kernel)
  exact ⟨w₀, w, hb, hr, of_decide_eq_true ht⟩

end Conrt.Daemon
