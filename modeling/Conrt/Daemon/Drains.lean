import Conrt.Daemon.Children

/-! The drains of the containers: each one counted is in flight, in hand or lost. -/
namespace Conrt.Daemon

open Conrt.Base

variable {τ : Terms} {h h' : List Token} {w w' w₀ : World} {codec : Codec} {answers : List Answer}
  {pid : Pid} {tr es : List Entry} {t : Token} {loc : OpLocal} {fd : Option Handle} {want id : ℕ}
  {ok : Bool} {op : InFlight} {r : Result}

def OpLocal.drainOf : OpLocal → Option Pid
  | .containerOutput pid _ | .containerPtyOutput pid _ => some pid
  | _ => none

def Token.drainOf : Token → Option Pid
  | .drain _ pid _ _ _ => some pid
  | _ => none

/-- The drain is not armed again, although its container waits for it. -/
def Entry.losesDrain (pid : Pid) : Entry → Bool
  | .submitted loc _ _ false | .starved loc => loc.drainOf = some pid
  | _ => false

def lostDrains (pid : Pid) (tr : List Entry) : ℕ := tr.countP (·.losesDrain pid)

def World.draining (w : World) (pid : Pid) : ℕ := w.opCount fun op => op.loc.drainOf = some pid

def drainsHeld (pid : Pid) (h : List Token) : ℕ := h.countP fun t => t.drainOf = some pid

@[simp] theorem lostDrains_append : lostDrains pid (tr ++ es) = lostDrains pid tr + lostDrains pid es :=
  List.countP_append ..

@[simp] theorem lostDrains_cons {e : Entry} :
    lostDrains pid (e :: tr) = lostDrains pid tr + if e.losesDrain pid then 1 else 0 :=
  List.countP_cons ..

@[simp] theorem lostDrains_nil : lostDrains pid [] = 0 := rfl

@[simp] theorem drainsHeld_append :
    drainsHeld pid (h ++ h') = drainsHeld pid h + drainsHeld pid h' := List.countP_append ..

@[simp] theorem drainsHeld_cons :
    drainsHeld pid (t :: h) = drainsHeld pid h + if t.drainOf = some pid then 1 else 0 := by
  simp [drainsHeld, List.countP_cons]

@[simp] theorem drainsHeld_nil : drainsHeld pid [] = 0 := rfl

theorem drainsHeld_map {α : Type} {f : α → Token} {l : List α} (hf : ∀ a, (f a).drainOf = none) :
    drainsHeld pid (l.map f) = 0 := by
  unfold drainsHeld
  rw [List.countP_eq_zero]
  intro t ht
  obtain ⟨a, -, rfl⟩ := List.mem_map.mp ht
  simp [hf a]

@[simp] theorem drainsHeld_hold {hs : List Handle} : drainsHeld pid (hold hs) = 0 :=
  drainsHeld_map fun _ => rfl

@[simp] theorem drainsHeld_holdFresh {hs : List Handle} : drainsHeld pid (holdFresh hs) = 0 :=
  drainsHeld_map fun _ => rfl

@[simp] theorem drainsHeld_overlays {dirs : List ℕ} : drainsHeld pid (dirs.map .overlay) = 0 :=
  drainsHeld_map fun _ => rfl

@[simp] theorem drainsHeld_checks {sids : List ℕ} : drainsHeld pid (sids.map .check) = 0 :=
  drainsHeld_map fun _ => rfl

/-- Each drain that a container waits for is in flight, in hand or lost, and no other ones are. -/
def DrainBalance (h : List Token) (w : World) : Prop :=
  ∀ pid, w.draining pid + drainsHeld pid h + lostDrains pid w.trace = (w.drains pid).getD 0

theorem drainsHeld_tokens :
    drainsHeld pid (loc.tokens r) = if loc.drainOf = some pid then 1 else 0 := by
  have htoken : ∀ kind p lineBuf, (drainToken kind p lineBuf r).drainOf = some p := by
    intro kind p lineBuf
    unfold drainToken
    split <;> rfl
  cases loc with
  | sigchld => cases r <;> simp [OpLocal.tokens, Token.drainOf, OpLocal.drainOf]
  | containerOutput p => simp [OpLocal.tokens, OpLocal.drainOf, htoken]
  | containerPtyOutput p => simp [OpLocal.tokens, OpLocal.drainOf, htoken]
  | _ => simp [OpLocal.tokens, Token.drainOf, OpLocal.drainOf]

theorem drainOf_of_for (ht : t.For loc) : t.drainOf = loc.drainOf := by
  cases ht with
  | drain =>
    rename_i kind _ _
    cases kind <;> rfl
  | loop hl _ => cases loc <;> first | rfl | cases hl
  | _ => rfl

theorem drainOf_of_resumes {stdinFd : ℕ → Option Handle} {n : ℕ} {loc' : OpLocal}
    (hr : Resumes stdinFd n loc loc' fd) : loc.drainOf = none ∧ loc'.drainOf = none := by
  cases hr <;> exact ⟨rfl, rfl⟩

theorem drainOf_of_reader {sid : ℕ} (hr : loc.reader = some sid) : loc.drainOf = none := by
  cases loc <;> first | rfl | cases hr

theorem drainOf_of_loop {l : Loop} (hl : loc.loop = some l) : loc.drainOf = none := by
  cases loc <;> first | rfl | cases hl

theorem drainOf_of_loose (hl : loc.loose = true) : loc.drainOf = none := by
  cases loc <;> first | rfl | cases hl

theorem drainOf_loc {kind : Drain} {lineBuf : Bytes} : (kind.loc pid lineBuf).drainOf = some pid := by
  cases kind <;> rfl

theorem drains_eq {info : ContainerInfo} (hi : w.g.containers.lookup pid = some info) :
    w.drains pid = some info.drainsPending := by
  unfold World.drains
  rw [hi]
  rfl

/-- A container that is put where there was none waits for no drain. -/
theorem getD_drains_insert {info : ContainerInfo} {p : Pid}
    (hnone : w.g.containers.lookup pid = none) (hzero : info.drainsPending = 0)
    (hg : w'.g.containers = w.g.containers.insert pid info) :
    (w'.drains p).getD 0 = (w.drains p).getD 0 := by
  rw [World.drains_insert pid info hg]
  split_ifs with hp
  · rw [hp, hzero, World.drains, hnone]
    rfl
  · rfl

namespace DrainBalance

theorem init : DrainBalance [] .init := fun _ => rfl

theorem congr (hd : DrainBalance h w) (hops : w'.ops = w.ops)
    (hh : ∀ pid, drainsHeld pid h' = drainsHeld pid h)
    (htr : ∀ pid, lostDrains pid w'.trace = lostDrains pid w.trace)
    (hdr : ∀ pid, (w'.drains pid).getD 0 = (w.drains pid).getD 0) : DrainBalance h' w' := by
  intro pid
  have hcount : w'.draining pid = w.draining pid := by
    unfold World.draining World.opCount
    rw [hops]
  rw [hcount, hh, htr, hdr]
  exact hd pid

/-- A new drain is armed or lost; what is in hand makes up for it. -/
theorem submit (hd : DrainBalance h w)
    (hh : ∀ pid, drainsHeld pid h = drainsHeld pid h' + if loc.drainOf = some pid then 1 else 0) :
    DrainBalance h' (w.submit loc fd want ok) := by
  intro pid
  have hbal := hd pid
  have hheld := hh pid
  have hcount : (w.submit loc fd want ok).draining pid =
      w.draining pid + if ok = true ∧ loc.drainOf = some pid then 1 else 0 := by
    simp [World.draining]
  have hlost : lostDrains pid (w.submit loc fd want ok).trace = lostDrains pid w.trace +
      if ok = false ∧ loc.drainOf = some pid then 1 else 0 := by
    cases ok <;> simp [Entry.losesDrain]
  have hdr : (w.submit loc fd want ok).drains = w.drains := rfl
  rw [hcount, hlost, hdr]
  cases ok <;> simp at hheld ⊢ <;> omega

/-- An op that drains nothing. -/
theorem submitOther (hd : DrainBalance h w) (hloc : loc.drainOf = none) :
    DrainBalance h (w.submit loc fd want ok) := hd.submit (by simp [hloc])

theorem beginFrame {stream : Fd .stream} {frame : Frame} (hd : DrainBalance h w)
    (hloc : loc.drainOf = none) : DrainBalance h (w.beginFrame stream frame loc want ok) := by
  unfold World.beginFrame
  split_ifs
  · exact (hd.submitOther hloc).congr rfl (fun _ => rfl) (by simp [Entry.losesDrain]) fun _ => rfl
  · exact hd.submitOther hloc

theorem takeOp (hd : DrainBalance h w) (hop : w.findOp id = some op) :
    DrainBalance (op.loc.tokens r ++ h) (w.takeOp id) := by
  intro pid
  have hbal := hd pid
  have hcount : w.draining pid = (w.takeOp id).draining pid +
      if op.loc.drainOf = some pid then 1 else 0 := by
    simpa [World.draining] using World.opCount_takeOp (p := fun op => op.loc.drainOf = some pid) hop
  have hdr : (w.takeOp id).drains = w.drains := rfl
  rw [drainsHeld_append, drainsHeld_tokens, World.trace_takeOp, hdr]
  omega

end DrainBalance

theorem Move.drainBalance (hτ : τ.fresh) (hm : Move τ (h, w) (h', w')) (hd : DrainBalance h w) :
    DrainBalance h' w' := by
  cases hm with
  | perm hp => exact hd.congr rfl (fun pid => hp.countP_eq _) (fun _ => rfl) fun _ => rfl
  | @note _ _ e he =>
    refine hd.congr rfl (fun _ => rfl) ?_ fun _ => rfl
    cases e <;> first | exact he.elim | simp [Entry.losesDrain]
  | @release _ _ t d ht =>
    have hnone : t.drainOf = none := by cases t <;> first | rfl | cases ht
    exact hd.congr rfl (by simp [hnone]) (by simp [Entry.losesDrain]) fun _ => rfl
  | refused hloose => exact hd.submitOther (drainOf_of_loose hloose)
  | denied ht => exact hd.submit (by simp [drainOf_of_for ht])
  | @starved _ _ t loc ht => 
    intro pid
    have hbal := hd pid
    rw [drainsHeld_cons, drainOf_of_for ht] at hbal
    have hlost : lostDrains pid (w.note (.starved loc)).trace = lostDrains pid w.trace +
        if loc.drainOf = some pid then 1 else 0 := by simp [Entry.losesDrain]
    rw [hlost]
    change w.draining pid + _ + _ = (w.drains pid).getD 0
    omega
  | read hr => exact hd.submitOther (drainOf_of_reader hr)
  | output => exact hd.submitOther rfl
  | offer =>
    refine DrainBalance.submitOther ?_ rfl
    exact hd.congr rfl (fun _ => rfl) (by simp [Entry.losesDrain]) fun _ => rfl
  | passFd | follow => exact hd.submit (by simp [Token.drainOf, OpLocal.drainOf])
  | relisten hl => exact hd.submit (by simp [Token.drainOf, drainOf_of_loop hl])
  | rearm => exact hd.submit (by simp [Token.drainOf, drainOf_loc])
  | respond hs hc => exact hd.beginFrame rfl
  | data hs hc => exact hd.beginFrame rfl
  | finish hs hdone hexited hsent hc =>
    refine DrainBalance.beginFrame ?_ rfl
    exact hd.congr rfl (by simp [Token.drainOf]) (fun _ => rfl) fun _ => rfl
  | resume hop hr hres =>
    obtain ⟨hnone, hnone'⟩ := drainOf_of_resumes hres
    refine DrainBalance.submitOther ?_ hnone'
    refine (hd.takeOp (r := .count 0) hop).congr rfl (fun pid => ?_) (fun _ => rfl) fun _ => rfl
    rw [drainsHeld_append, drainsHeld_tokens, hnone]
    simp
  | retire hop hr => exact hd.takeOp hop
  | installDetached hgw hzero hpid hfresh | installAttached hgw hzero hpid hfresh =>
    refine hd.congr rfl (by simp) (by simp [Entry.losesDrain]) ?_
    exact fun p => getD_drains_insert (hfresh hτ) hzero rfl
  | @addDrain _ _ kind pid info hi =>
    intro p
    have hbal := hd p
    rw [World.drains_modifyContainer, hi, drainsHeld_cons]
    change w.draining p + _ + lostDrains p w.trace = _
    by_cases hp : p = pid
    · rw [hp, drains_eq hi] at hbal
      simp only [hp, if_true, Token.drainOf, Option.map_some, Option.getD_some] at hbal ⊢
      omega
    · rw [if_neg hp, if_neg (by simp [Token.drainOf, Ne.symm hp])]
      exact hbal
  | @drainGone _ _ kind pid lineBuf ended hnone =>
    intro p
    have hbal := hd p
    have hpid := hd pid
    rw [World.drains, hnone] at hpid
    simp [Token.drainOf] at hpid
  | @drainEnds _ _ kind pid lineBuf ended info hi hpos =>
    intro p
    have hbal := hd p
    rw [World.drains_modifyContainer, hi]
    change w.draining p + _ + lostDrains p w.trace = _
    rw [drainsHeld_cons] at hbal
    by_cases hp : p = pid
    · rw [hp, drains_eq hi] at hbal
      simp only [hp, if_true, Token.drainOf, Option.map_some, Option.getD_some] at hbal ⊢
      omega
    · rw [if_neg hp]
      rw [if_neg (by simp [Token.drainOf, Ne.symm hp])] at hbal
      exact hbal
  | @buryDrained hs _ kind pid lineBuf ended info hi hle =>
    intro p
    have hbal := hd p
    have hheld : drainsHeld p (hold info.handles ++ (info.overlay.toList.map .overlay ++ hs)) =
        drainsHeld p hs := by simp
    have hlost : lostDrains p (w.buryContainer pid info).trace = lostDrains p w.trace := by
      simp [Entry.losesDrain]
    rw [World.drains_erase (w := w) pid rfl, hheld, hlost]
    change w.draining p + _ + lostDrains p w.trace = _
    rw [drainsHeld_cons] at hbal
    split_ifs with hp
    · -- the ended drain was the only one left
      rw [hp, drains_eq hi] at hbal
      simp only [Token.drainOf, if_true, Option.getD_some] at hbal
      rw [hp]
      simp only [Option.getD_none]
      omega
    · rw [if_neg (by simp [Token.drainOf, Ne.symm hp])] at hbal
      exact hbal
  | reaped =>
    refine hd.congr World.ops_reap (by simp) (by simp [Entry.losesDrain]) (by simp)
  | @buryReaped hs _ pid exitCode told info hpid hmeets htold hi hzero => 
    refine hd.congr World.ops_reap (by simp) (by simp [Entry.losesDrain]) fun p => ?_
    rw [World.drains_erase (w := w.reap pid exitCode told) pid rfl, World.drains_reap]
    split_ifs with hp
    · rw [hp, drains_eq hi, hzero]
      rfl
    · rfl
  | pushLine =>
    refine hd.congr rfl (fun pid => ?_) (by simp [Entry.losesDrain]) (by simp)
    rw [drainsHeld_append, drainsHeld_map fun _ => rfl]
    simp [Token.drainOf]
  | _ =>
    refine hd.congr rfl ?_ ?_ ?_
    · first | exact fun _ => rfl | simp [Token.drainOf]
    · first | exact fun _ => rfl | simp [Entry.losesDrain]
    · first | exact fun _ => rfl | simp

theorem DrainBalance.perform (hd : DrainBalance [] w) (hn : w.Numbered)
    (hop : w.findOp op.id = some op) : DrainBalance [] (w.perform op r) := by
  intro pid
  have hcount : (w.perform op r).draining pid = w.draining pid := by
    have hc := World.opCount_perform (r := r) (p := fun op => op.loc.drainOf = some pid) hn hop
    exact Nat.add_right_cancel hc
  have hlost : lostDrains pid (w.perform op r).trace = lostDrains pid w.trace := by
    rcases w.trace_perform_cases op r with htr | ⟨e, htr, hout⟩
    · rw [htr]
    · rw [htr]
      cases e <;> first | exact hout.elim | simp [Entry.losesDrain]
  rw [hcount, hlost, World.drains_perform]
  exact hd pid

end Conrt.Daemon
