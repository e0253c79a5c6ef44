import Conrt.Daemon.Counting

/-! The three persistent loops: what each one loses when its next op cannot be armed. -/
namespace Conrt.Daemon

open Conrt.Base

variable {τ : Terms} {h h' : List Token} {w w' w₀ : World} {l : Loop} {codec : Codec}
  {answers : List Answer} {t : Token} {e : Event}

/-- An entry after which a loop is not armed again: its next op is refused, a buffer for it cannot be
allocated, or a SIGCHLD read fails. A receive may be refused: a peek is armed in its place. -/
def Entry.deafens (l : Loop) : Entry → Bool
  | .submitted loc _ _ false | .starved loc => loc.loop = some l && !loc.loose
  | .failed .sigchld => l = .sigchld
  | _ => false

def losses (l : Loop) (tr : List Entry) : ℕ := tr.countP (·.deafens l)

/-- A failed read that its callback will not follow by another. -/
def InFlight.fails (l : Loop) (op : InFlight) : Bool :=
  op.loc = .sigchld && l = .sigchld &&
    match op.result with
    | none | some (.bytes _) => false
    | _ => true

def World.armed (w : World) (l : Loop) : ℕ := w.opCount fun op => op.loc.loop = some l

def World.failing (w : World) (l : Loop) : ℕ := w.opCount (·.fails l)

@[simp] theorem losses_append {tr tr' : List Entry} :
    losses l (tr ++ tr') = losses l tr + losses l tr' := List.countP_append ..

@[simp] theorem losses_cons {e : Entry} {tr : List Entry} :
    losses l (e :: tr) = losses l tr + if e.deafens l then 1 else 0 := List.countP_cons ..

@[simp] theorem losses_nil : losses l [] = 0 := rfl

/-- Before the loops are armed for the first time there is none, and from then on each is in flight,
in hand or lost. -/
structure Balance (l : Loop) (h : List Token) (w : World) : Prop where
  total : w.armed l + h.count (.loop l) + losses l w.trace =
    w.failing l + if w.g.listeners = [] then 0 else 1
  failing : w.failing l ≤ losses l w.trace

theorem count_tokens_loop {op : InFlight} {r : Result} (hr : op.result = some r) :
    (op.loc.tokens r).count (.loop l) + (if op.fails l then 1 else 0) =
      if op.loc.loop = some l then 1 else 0 := by
  obtain ⟨id, loc, fd, want, result⟩ := op
  obtain rfl : result = some r := hr
  have hdrain : ∀ kind pid lineBuf, drainToken kind pid lineBuf r ≠ .loop l := by
    intro kind pid lineBuf
    unfold drainToken
    split <;> simp
  cases loc with
  | sigchld => cases r <;> cases l <;> simp [OpLocal.tokens, InFlight.fails, OpLocal.loop]
  | _ => simp [OpLocal.tokens, InFlight.fails, OpLocal.loop, List.count_cons, hdrain]

theorem count_of_for {loc : OpLocal} (ht : t.For loc) :
    [t].count (.loop l) = if loc.loop = some l && !loc.loose then 1 else 0 := by
  cases ht with
  | drain => rename_i kind _ _; cases kind <;> rfl
  | loop hl hloose =>
    rename_i l'
    by_cases h : l' = l
    · simp [hl, hloose, h]
    · simp [hl, hloose, h]
  | _ => rfl

namespace Balance

theorem congr (hb : Balance l h w) (hops : w'.ops = w.ops)
    (hh : h'.count (.loop l) = h.count (.loop l)) (htr : losses l w'.trace = losses l w.trace)
    (hg : w'.g.listeners = w.g.listeners) : Balance l h' w' := by
  have harmed : w'.armed l = w.armed l := by unfold World.armed World.opCount; rw [hops]
  have hfailing : w'.failing l = w.failing l := by unfold World.failing World.opCount; rw [hops]
  constructor
  · rw [harmed, hh, htr, hfailing, hg]
    exact hb.total
  · rw [hfailing, htr]
    exact hb.failing

/-- A new op is armed, or refused; what is in hand makes up for it. -/
theorem submit {loc : OpLocal} {fd : Option Handle} {want : ℕ} {ok : Bool} (hb : Balance l h w)
    (hh : h.count (.loop l) = h'.count (.loop l) +
      if loc.loop = some l ∧ (ok = true ∨ loc.loose = false) then 1 else 0) :
    Balance l h' (w.submit loc fd want ok) := by
  have htotal := hb.total
  have hfailing := hb.failing
  have harmed : (w.submit loc fd want ok).armed l =
      w.armed l + if ok = true ∧ loc.loop = some l then 1 else 0 := by simp [World.armed]
  have hsame : (w.submit loc fd want ok).failing l = w.failing l := by
    simp [World.failing, InFlight.fails]
  have hloss : losses l (w.submit loc fd want ok).trace =
      losses l w.trace + if ok = false ∧ loc.loop = some l ∧ loc.loose = false then 1 else 0 := by
    cases ok <;> simp [World.submit, World.note, Entry.deafens]
  have hg : (w.submit loc fd want ok).g = w.g := rfl
  constructor
  · rw [harmed, hsame, hloss, hg]
    cases ok <;> simp at hh ⊢ <;> omega
  · rw [hsame, hloss]
    omega

theorem beginFrame {loc : OpLocal} {want : ℕ} {stream : Fd .stream} {frame : Frame} {ok : Bool}
    (hb : Balance l h w) (hloc : loc.loop = none) :
    Balance l h (w.beginFrame stream frame loc want ok) := by
  have hs : Balance l h (w.submit loc (some stream.handle) want ok) := hb.submit (by simp [hloc])
  unfold World.beginFrame
  split_ifs
  · exact hs.congr rfl rfl (by simp [Entry.deafens]) rfl
  · exact hs

/-- An op leaves its loop in the hands of its callback, unless it has failed. -/
theorem takeOp {id : ℕ} {op : InFlight} {r : Result} (hb : Balance l h w)
    (hop : w.findOp id = some op) (hr : op.result = some r) :
    Balance l (op.loc.tokens r ++ h) (w.takeOp id) := by
  have htotal := hb.total
  have hfailing := hb.failing
  have hcount := count_tokens_loop (l := l) hr
  have harmed : w.armed l = (w.takeOp id).armed l + if op.loc.loop = some l then 1 else 0 := by
    simpa [World.armed] using World.opCount_takeOp (p := fun op => op.loc.loop = some l) hop
  have hfail : w.failing l = (w.takeOp id).failing l + if op.fails l then 1 else 0 :=
    World.opCount_takeOp hop
  have hg : (w.takeOp id).g = w.g := rfl
  constructor
  · rw [List.count_append, World.trace_takeOp, hg]
    omega
  · rw [World.trace_takeOp]
    omega

theorem reap {pid : Pid} {exitCode : ℤ} {told : Option ℕ} (hb : Balance l h w) :
    Balance l h (w.reap pid exitCode told) :=
  hb.congr World.ops_reap rfl (by simp [Entry.deafens]) World.listeners_reap

end Balance

theorem loop_of_reader {loc : OpLocal} {sid : ℕ} (hr : loc.reader = some sid) :
    loc.loop = none := by
  cases loc <;> first | rfl | cases hr

theorem loop_of_resumes {stdinFd : ℕ → Option Handle} {n : ℕ} {loc loc' : OpLocal}
    {fd : Option Handle} (hr : Resumes stdinFd n loc loc' fd) :
    loc.loop = none ∧ loc'.loop = none := by
  cases hr <;> exact ⟨rfl, rfl⟩

theorem Move.balance (hm : Move τ (h, w) (h', w')) (hb : Balance l h w) : Balance l h' w' := by
  have hsub : ∀ {h w loc} {fd : Option Handle} {want ok}, Balance l h w → loc.loop = none →
      Balance l h (w.submit loc fd want ok) := fun hb hloc => hb.submit (by simp [hloc])
  cases hm with
  | perm hp => exact hb.congr rfl (hp.count_eq _) rfl rfl
  | note he =>
    refine hb.congr rfl rfl ?_ rfl
    rename_i e
    cases e <;> first | exact he.elim | simp [Entry.deafens]
  | release ht =>
    refine hb.congr rfl ?_ (by simp [Entry.deafens]) rfl
    rename_i t d
    have hne : t ≠ .loop l := by
      rintro rfl
      cases ht
    simp [hne]
  | refused hloose => exact hb.submit (by simp [hloose])
  | denied ht =>
    refine hb.submit ?_
    have hcount := count_of_for (l := l) ht
    rename_i t loc _ _
    rw [← List.singleton_append, List.count_append, hcount]
    simp [Nat.add_comm]
  | starved ht =>
    have htotal := hb.total
    have hfailing := hb.failing
    have hcount := count_of_for (l := l) ht
    rename_i loc
    rw [← List.singleton_append, List.count_append, hcount] at htotal
    have hloss : losses l (w.note (.starved loc)).trace =
        losses l w.trace + if loc.loop = some l && !loc.loose then 1 else 0 := by
      simp [Entry.deafens]
    constructor
    · rw [hloss]
      change w.armed l + h'.count (.loop l) + _ = w.failing l + if w.g.listeners = [] then 0 else 1
      omega
    · rw [hloss]
      exact hfailing.trans (Nat.le_add_right _ _)
  | read hr => exact hsub hb (loop_of_reader hr)
  | output | passFd | offer => exact hsub (hb.congr rfl (by simp) (by simp [Entry.deafens]) rfl) rfl
  | rearm =>
    rename_i kind _ _ _
    refine hsub (hb.congr rfl (by simp) rfl rfl) ?_
    cases kind <;> rfl
  | follow => exact hsub (hb.congr rfl (by simp) rfl rfl) rfl
  | respond hs hc => exact hb.beginFrame rfl
  | data hs hc => exact hb.beginFrame rfl
  | finish hs hd he hsent hc =>
    refine Balance.beginFrame ?_ rfl
    exact hb.congr rfl (by simp) rfl rfl
  | relisten hl =>
    refine hb.submit ?_
    simp [hl, List.count_cons]
  | resume hop hr hres =>
    have ht := hb.takeOp hop hr
    obtain ⟨hloop, hloop'⟩ := loop_of_resumes hres
    have hzero := count_tokens_loop (l := l) hr
    simp only [hloop, reduceCtorEq, if_false] at hzero
    refine hsub (ht.congr rfl ?_ rfl rfl) hloop'
    rw [List.count_append]
    omega
  | retire hop hr => exact hb.takeOp hop hr
  | listen hl =>
    have htotal := hb.total
    rw [if_pos hl] at htotal
    constructor
    · rw [if_neg (by simp [DaemonState.listeners, RawFd.handles, RawFd.handle])]
      change w.armed l + List.count _ _ + losses l w.trace = w.failing l + 1
      rw [List.count_append, count_holdFresh (by simp)] at htotal
      cases l <;> simp <;> omega
    · exact hb.failing
  | reaped =>
    refine hb.reap.congr rfl ?_ rfl rfl
    simp
  | buryReaped =>
    refine hb.reap.congr rfl ?_ ?_ rfl
    · simp
    · simp [Entry.deafens]
  | _ =>
    refine hb.congr rfl ?_ ?_ rfl
    · first | rfl | simp
    · simp [Entry.deafens]

theorem Balance.init : Balance l [] .init := by
  constructor <;> rfl

private theorem losses_performed {op : InFlight} {r : Result} (hallows : w.allows op r = true) :
    losses l (w.performed op r) =
      if ({ op with result := some r } : InFlight).fails l then 1 else 0 := by
  unfold World.performed
  cases r with
  | count n =>
    have hloc : op.loc ≠ .sigchld := by
      intro hloc
      simp [World.allows, hloc] at hallows
    cases w.reached op with
    | none => simp [InFlight.fails, hloc]
    | some f =>
      simp only
      split_ifs <;> simp_all [InFlight.fails, Entry.deafens]
  | accepted fd =>
    have hloc : op.loc ≠ .sigchld := by
      intro hloc
      simp [World.allows, hloc] at hallows
    simp [InFlight.fails, Entry.deafens, hloc]
  | received b sender =>
    have hloc : op.loc ≠ .sigchld := by
      intro hloc
      simp [World.allows, hloc] at hallows
    simp [InFlight.fails, hloc]
  | bytes b => simp [InFlight.fails, Entry.deafens]
  | failed errno => cases hloc : op.loc <;> simp [InFlight.fails, Entry.deafens]

theorem Balance.perform {op : InFlight} {r : Result} (hb : Balance l [] w) (hn : w.Numbered)
    (hop : w.findOp op.id = some op) (hr : op.result = none) (hallows : w.allows op r = true) :
    Balance l [] (w.perform op r) := by
  have htotal := hb.total
  have hfailing := hb.failing
  have harmed : (w.perform op r).armed l = w.armed l := by
    have := World.opCount_perform (r := r) (p := fun op => op.loc.loop = some l) hn hop
    exact Nat.add_right_cancel this
  have hfail : (w.perform op r).failing l = w.failing l +
      if ({ op with result := some r } : InFlight).fails l then 1 else 0 := by
    have hcount := World.opCount_perform (r := r) (p := fun op => op.fails l) hn hop
    have hnot : op.fails l = false := by simp [InFlight.fails, hr]
    rw [hnot, if_neg Bool.false_ne_true] at hcount
    exact hcount
  have hloss : losses l (w.perform op r).trace = losses l w.trace +
      if ({ op with result := some r } : InFlight).fails l then 1 else 0 := by
    rw [World.trace_perform, losses_append]
    congr 1
    exact losses_performed hallows
  constructor
  · rw [harmed, hfail, hloss, World.g_perform]
    omega
  · rw [hfail, hloss]
    omega

theorem balance_invariant :
    Invariant .none codec (fun w _ => True ∧ w.Numbered) (Balance l) where
  move hb hm := hm.balance hb
  enter hb _ := ⟨hb.total, hb.failing⟩
  perform hb hop hr hallows hok := hb.perform hok.2 hop hr hallows
  fits _ _ _ _ := Fits.none

/-- The loops are armed for the first time only once. -/
theorem Move.listeners (hm : Move τ (h, w) (h', w')) (hl : w.g.listeners ≠ []) :
    w'.g.listeners ≠ [] := by
  cases hm with
  | listen hnone => exact (hl hnone).elim
  | finish =>
    rw [World.g_beginFrame]
    exact hl
  | reaped =>
    rw [World.listeners_reap]
    exact hl
  | buryReaped =>
    change (World.reap _ _ _ _).g.listeners ≠ []
    rw [World.listeners_reap]
    exact hl
  | _ => exact hl

theorem listening_invariant :
    Invariant .none codec (fun _ _ => True) fun _ w => w.g.listeners ≠ [] where
  move hl hm := hm.listeners hl
  enter hl _ := hl
  perform hl _ _ _ _ := by
    rw [World.g_perform]
    exact hl
  fits _ _ _ _ := Fits.none

/-- A loop that the boot has armed has not been lost. -/
theorem booted_listening (hb : booted answers = some w) (h₀ : w.armed l = 1) :
    losses l w.trace = 0 ∧ w.g.listeners ≠ [] := by
  have hp : Path .none ([], World.init) ([], w) := boot_path hb
  have hbal : Balance l [] w := path_keeps (fun hb hm => hm.balance hb) .init hp
  have htotal := hbal.total
  have hfailing : w.failing l = 0 := by
    unfold World.failing World.opCount
    rw [List.countP_eq_zero]
    intro op hop
    simp [InFlight.fails, booted_unperformed hb op hop]
  rw [h₀, hfailing, List.count_nil] at htotal
  split_ifs at htotal with hl
  · omega
  · exact ⟨by omega, hl⟩

/-- Nothing that the step asks for is lost to a loop: no submission and no buffer allocation for the
next op of a loop fails, and no SIGCHLD read. -/
def Heard (codec : Codec) (w : World) (e : Event) : Prop :=
  ∀ w', step codec w e = some w' → ∀ l, losses l w'.trace = losses l w.trace

instance Loop.decidableForall {p : Loop → Prop} [∀ l, Decidable (p l)] : Decidable (∀ l, p l) :=
  decidable_of_iff (p .datagram ∧ p .accept ∧ p .sigchld)
    ⟨fun hp l => by cases l <;> simp [hp], fun hp => ⟨hp _, hp _, hp _⟩⟩

instance : Decidable (Heard codec w e) :=
  inferInstanceAs (Decidable (∀ w' ∈ step codec w e, ∀ l, losses l w'.trace = losses l w.trace))

/-- As long as nothing is lost to a loop, exactly one op of each loop is in flight. -/
theorem run_armed (hb : booted answers = some w₀) (h₀ : ∀ l, w₀.armed l = 1)
    (hr : Reaches (step codec) (Heard codec) w₀ w) : ∀ l, w.armed l = 1 := by
  intro l
  obtain ⟨hloss₀, hlisten₀⟩ := booted_listening hb (h₀ l)
  have hloss : losses l w.trace = 0 := by
    refine hr.invariant (P := fun w => losses l w.trace = 0) hloss₀ fun s e t hs hok hst => ?_
    rw [hok t hst l]
    exact hs
  have hfree : Reaches (step codec) (fun _ _ => True) w₀ w := hr.mono fun _ _ _ => trivial
  have hbal : Balance l [] w := balance_invariant.reaches .init hb hfree
  have hlisten : w.g.listeners ≠ [] := listening_invariant.run (I := fun _ w => _) hlisten₀ hfree
  have htotal := hbal.total
  have hfailing := hbal.failing
  rw [hloss, List.count_nil, if_neg hlisten] at htotal
  omega

def quietBoot : List Answer :=
  [.call (.ok []), .call (.ok [3]), .call (.ok [4]), .call (.ok [5]), .call (.ok []), .submit true,
    .submit true, .call (.ok []), .submit true]

def blankCodec : Codec := { request := fun _ => .error "malformed", winSize := fun _ => none }

/-- The kernel takes up the queue and completes one op, whose completion is delivered. -/
def turn (id : ℕ) (r : Result) (answers : List Answer) : List Event :=
  [.enter, .perform id r, .deliver id answers]

/-- A SIGCHLD read that finds no child, then a client that connects. -/
theorem run_armed_connects : ∃ w₀ w, booted quietBoot = some w₀ ∧
    Reaches (step blankCodec) (Heard blankCodec) w₀ w ∧ w.g.nextSessionId = 1 ∧
      ∀ l, w.armed l = 1 := by
  obtain ⟨w₀, w, hb, hr, ht⟩ := exists_of_executes (step blankCodec) (Heard blankCodec)
    (booted quietBoot)
    (turn 2 (.bytes [17]) [.wait none, .call (.ok []), .submit true] ++
      turn 1 (.accepted ⟨6, 3⟩) [.submit true, .submit true])
    (fun w₀ w => decide ((∀ l, w₀.armed l = 1) ∧ w.g.nextSessionId = 1)) (by decide +kernel)
  obtain ⟨harmed, hsid⟩ := of_decide_eq_true ht
  exact ⟨w₀, w, hb, hr, hsid, run_armed hb harmed hr⟩

/-- The kernel has no buffer for a SIGCHLD read, and no child is ever reaped again. -/
theorem failed_read_deafens : ∃ w₀ w, booted quietBoot = some w₀ ∧ (∀ l, w₀.armed l = 1) ∧
    Reaches (step blankCodec) (fun _ _ => True) w₀ w ∧ w.armed .sigchld = 0 := by
  obtain ⟨w₀, w, hb, hr, ht⟩ := exists_of_executes (step blankCodec) (fun _ _ => True)
    (booted quietBoot) (turn 2 (.failed 105) [])
    (fun w₀ w => decide ((∀ l, w₀.armed l = 1) ∧ w.armed .sigchld = 0)) (by decide +kernel)
  obtain ⟨harmed, hgone⟩ := of_decide_eq_true ht
  exact ⟨w₀, w, hb, harmed, hr, hgone⟩

end Conrt.Daemon
