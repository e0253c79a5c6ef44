import Conrt.Base.Always
import Conrt.Daemon.Loops

/-! Children and the containers that run in them: who may be killed. -/
namespace Conrt.Daemon

open Conrt.Base

variable {τ : Terms} {h h' : List Token} {w w' w₀ : World} {codec : Codec} {answers : List Answer}
  {pid : Pid} {tr es : List Entry} {e : Entry}

def noteLife (pid : Pid) (alive : Bool) : Entry → Bool
  | .started p => if p = pid then true else alive
  | .reaped p _ => if p = pid then false else alive
  | _ => alive

/-- Whether the daemon has started a child `pid` and has not reaped it since. -/
def alive (pid : Pid) (tr : List Entry) : Bool := tr.foldl (noteLife pid) false

@[simp] theorem alive_append : alive pid (tr ++ es) = es.foldl (noteLife pid) (alive pid tr) :=
  List.foldl_append ..

/-- Whoever is killed is a child that has not been reaped. -/
def KillsAlive (before : List Entry) : Entry → Prop
  | .killed pid => alive pid before = true
  | _ => True

instance : Decidable (KillsAlive tr e) := by
  cases e <;> first | exact .isTrue trivial | exact inferInstanceAs (Decidable (_ = true))

/-- A listed container that waits for no drain has not been reaped, and only children that have not
been reaped are killed. -/
structure Killing (w : World) : Prop where
  nodup : w.children.Nodup
  alive : ∀ pid, pid ∈ w.children ↔ alive pid w.trace = true
  listed : ∀ pid, w.drains pid = some 0 → pid ∈ w.children
  kills : Always KillsAlive w.trace

namespace Killing

theorem init : Killing .init := by
  refine ⟨List.nodup_nil, fun pid => by simp [World.init, Daemon.alive], fun pid hp => ?_, .nil⟩
  cases hp

theorem congr (hk : Killing w) (hch : w'.children = w.children)
    (hlife : ∀ pid, Daemon.alive pid w'.trace = Daemon.alive pid w.trace)
    (hdr : ∀ pid, w'.drains pid = some 0 → w.drains pid = some 0 ∨ pid ∈ w.children)
    (hkills : Always KillsAlive w.trace → Always KillsAlive w'.trace) : Killing w' := by
  constructor
  · rw [hch]
    exact hk.nodup
  · intro pid
    rw [hch, hlife]
    exact hk.alive pid
  · intro pid hp
    rw [hch]
    exact (hdr pid hp).elim (hk.listed pid) id
  · exact hkills hk.kills

theorem start (hk : Killing w) (hpid : pid ∉ w.children) :
    Killing ({ w with children := pid :: w.children }.note (.started pid)) := by
  constructor
  · exact List.nodup_cons.mpr ⟨hpid, hk.nodup⟩
  · intro p
    change p ∈ pid :: w.children ↔ Daemon.alive p (w.trace ++ [_]) = true
    rw [List.mem_cons, hk.alive p]
    by_cases hp : pid = p
    · simp [noteLife, hp]
    · simp [noteLife, hp, Ne.symm hp]
  · intro p hp
    exact List.mem_cons_of_mem pid (hk.listed p hp)
  · simpa [KillsAlive] using hk.kills

/-- A child is reaped whose container, if it has one, waits for drains. -/
theorem reap {exitCode : ℤ} (hk : Killing w) (hch : w'.children = w.children.erase pid)
    (htr : w'.trace = w.trace ++ .reaped pid exitCode :: es)
    (hlife : ∀ p a, es.foldl (noteLife p) a = a) (hes : ∀ tr, Always KillsAlive tr →
      Always KillsAlive (tr ++ es))
    (hdr : ∀ p, w'.drains p = some 0 → w.drains p = some 0 ∧ p ≠ pid) : Killing w' := by
  have hmem : ∀ p, p ∈ w.children.erase pid ↔ p ≠ pid ∧ p ∈ w.children := fun p =>
    hk.nodup.mem_erase_iff
  constructor
  · rw [hch]
    exact hk.nodup.erase pid
  · intro p
    rw [hch, hmem, hk.alive p, htr, alive_append, List.foldl_cons, hlife]
    by_cases hp : pid = p
    · simp [noteLife, hp]
    · simp [noteLife, hp, Ne.symm hp]
  · intro p hp
    obtain ⟨hzero, hne⟩ := hdr p hp
    rw [hch, hmem]
    exact ⟨hne, hk.listed p hzero⟩
  · rw [htr, ← List.singleton_append, ← List.append_assoc]
    exact hes _ (by simpa [KillsAlive] using hk.kills)

end Killing

theorem Move.killing (hτ : τ.known) (hm : Move τ (h, w) (h', w')) (hk : Killing w) : Killing w' := by
  cases hm with
  | started hpos hpid => exact hk.start hpid
  | reaped hpid hmeets htold hdr =>
    refine hk.reap World.children_reap World.trace_reap (fun _ _ => rfl) (by simp) fun p hzero => ?_
    rw [World.drains_reap] at hzero
    refine ⟨hzero, ?_⟩
    rintro rfl
    obtain ⟨info, hi, hinfo⟩ := Option.map_eq_some_iff.mp hzero
    have hpos := hdr info hi
    omega
  | @buryReaped _ _ pid exitCode told info =>
    have htr : ((w.reap pid exitCode told).buryContainer pid info).trace =
        w.trace ++ .reaped pid exitCode :: [.retired pid info.overlay] := by simp
    refine hk.reap World.children_reap htr (by simp [noteLife]) (by simp [KillsAlive]) ?_
    intro p hzero
    rw [World.drains_erase (w := w.reap pid exitCode told) pid rfl, World.drains_reap] at hzero
    split_ifs at hzero with hp
    exact ⟨hzero, hp⟩
  | @killed _ _ pid info hi hknown =>
    have hpid : pid ∈ w.children := by
      rcases Nat.eq_zero_or_pos info.drainsPending with hzero | hpos
      · exact hk.listed pid (by simp [World.drains, hi, hzero])
      · exact hknown hτ hpos
    refine ⟨hk.nodup, fun p => ?_, hk.listed, ?_⟩
    · rw [World.trace_note, alive_append]
      exact hk.alive p
    · simpa [KillsAlive, hk.kills] using (hk.alive pid).mp hpid
  | @note _ _ e he =>
    refine hk.congr rfl ?_ (fun pid hp => .inl hp) ?_
    · cases e <;> first | exact he.elim | simp [noteLife]
    · cases e <;> first | exact he.elim | simp [KillsAlive]
  | @finish _ _ sid want sess ok =>
    refine hk.congr (by simp; rfl) ?_ (fun pid hp => .inl (by simpa using hp)) ?_
    · cases ok <;> simp [noteLife]
    · cases ok <;> simp [KillsAlive]
  | @installDetached _ _ pid info _ _ hgw hzero hpid =>
    refine hk.congr rfl (by simp [noteLife]) (fun p hp => ?_) (by simp [KillsAlive])
    rw [World.drains_insert (w := w) pid info rfl] at hp
    split_ifs at hp with h
    · exact .inr (h ▸ hpid)
    · exact .inl hp
  | @installAttached _ _ pid info _ hgw hzero hpid =>
    refine hk.congr rfl (by simp [noteLife]) (fun p hp => ?_) (by simp [KillsAlive])
    rw [World.drains_insert (w := w) pid info rfl] at hp
    split_ifs at hp with h
    · exact .inr (h ▸ hpid)
    · exact .inl hp
  | adoptAttach | attachGone | followPipe | dropPtm | pushLine | wrote =>
    refine hk.congr rfl ?_ (fun p hp => .inl (by simpa using hp)) ?_
    · simp [noteLife]
    · simp [KillsAlive]
  | @addDrain _ _ kind pid info hi =>
    refine hk.congr rfl (fun _ => rfl) (fun p hp => ?_) id
    rw [World.drains_modifyContainer] at hp
    split_ifs at hp
    · simp [hi] at hp
    · exact .inl hp
  | @drainEnds _ _ kind pid lineBuf ended info hi hpos =>
    refine hk.congr rfl (fun _ => rfl) (fun p hp => ?_) id
    rw [World.drains_modifyContainer] at hp
    split_ifs at hp
    · simp [hi] at hp
      omega
    · exact .inl hp
  | @buryDrained _ _ kind pid lineBuf ended info =>
    refine hk.congr rfl (by simp [noteLife]) (fun p hp => ?_) (by simp [KillsAlive])
    rw [World.drains_erase (w := w) pid rfl] at hp
    split_ifs at hp
    exact .inl hp
  | _ =>
    refine hk.congr rfl ?_ (fun pid hp => .inl hp) ?_
    · simp [noteLife]
    · simp [KillsAlive]

/-- The terms of a run in which no reaped child is to be killed. -/
def Terms.killing : Terms := { Terms.none with known := True }

theorem Killing.perform {op : InFlight} {r : Result} (hk : Killing w) :
    Killing (w.perform op r) := by
  refine hk.congr World.children_perform ?_ (fun pid hp => .inl (by simpa using hp)) ?_
  · intro pid
    rcases w.trace_perform_cases op r with htr | ⟨e, htr, hout⟩
    · rw [htr]
    · rw [htr, alive_append]
      cases e <;> first | exact hout.elim | rfl
  · intro hkills
    rcases w.trace_perform_cases op r with htr | ⟨e, htr, hout⟩
    · rwa [htr]
    · rw [htr, Always.concat_iff]
      exact ⟨hkills, by cases e <;> first | exact hout.elim | trivial⟩

theorem killing_invariant : Invariant .killing codec
    (fun w e => Delivers (KnownStep codec) w e ∧ w.Numbered) fun _ w => Killing w where
  move hk hm := hm.killing trivial hk
  enter hk _ := ⟨hk.nodup, hk.alive, hk.listed, hk.kills⟩
  perform hk _ _ _ _ := hk.perform
  fits _ hop hr hok := { Fits.none with known := fun _ => hok.1 _ _ hop hr }

/-- As long as a container that waits for drains is not to be killed after its child has been
reaped, only children that have not been reaped are killed. -/
theorem run_kills (hb : booted answers = some w₀)
    (hr : Reaches (step codec) (Delivers (KnownStep codec)) w₀ w) : Always KillsAlive w.trace :=
  (killing_invariant.reaches .init hb hr).kills

def sampleArgs (tty interactive init : Bool) : RunArgs :=
  { rootfs := none
    netPid := none
    save := false
    command := [[120]]
    tty := tty
    interactive := interactive
    noInit := !init
    initPath := none }

def sampleCodec : Codec :=
  { request := fun b => match b with
      | [1] => .ok (.run (sampleArgs false false false))
      | [2] => .ok (.kill 100)
      | [3] => .ok (.logs 100 true)
      | [4] => .ok (.attach 100)
      | [5] => .ok (.run (sampleArgs true false false))
      | [6] => .ok (.run (sampleArgs false true false))
      | [7] => .ok (.run (sampleArgs false false true))
      | _ => .error "malformed"
    winSize := fun _ => none }

/-- A datagram arrives: its size is known, a receive of that size is armed and completes, and the
request is handled with the given answers. -/
def datagram (peek receive : ℕ) (b : Bytes) (answers : List Answer) : List Event :=
  turn peek (.count b.length) [.submit true] ++
    turn receive (.received b 0) (answers ++ [.call (.ok []), .submit true])

def runDetached : List Answer :=
  [.call (.ok [10, 11]), .call (.ok [12, 13]), .clone (.ok 100), .call (.ok []), .clock 0,
    .submit true]

instance {op : InFlight} {r : Result} : Decidable (KnownStep codec w op r) :=
  decidable_of_iff (∀ pid ∈ codec.kills op.loc r, ∀ info ∈ w.g.containers.lookup pid,
    0 < info.drainsPending → pid ∈ w.children)
    ⟨fun hk pid info hp hi => hk pid hp info hi, fun hk pid hp info hi => hk pid info hp hi⟩

/-- A container is started and killed. -/
theorem run_kills_running : ∃ w₀ w, booted quietBoot = some w₀ ∧
    Reaches (step sampleCodec) (Delivers (KnownStep sampleCodec)) w₀ w ∧
      .killed 100 ∈ w.trace ∧ Always KillsAlive w.trace := by
  obtain ⟨w₀, w, hb, hr, ht⟩ := exists_of_executes (step sampleCodec)
    (Delivers (KnownStep sampleCodec)) (booted quietBoot)
    (datagram 0 3 [1] runDetached ++ datagram 5 6 [2] [.call (.ok [])])
    (fun _ w => decide (.killed 100 ∈ w.trace)) (by decide +kernel)
  exact ⟨w₀, w, hb, hr, of_decide_eq_true ht, run_kills hb hr⟩

/-- The child is reaped while its output is still open, and then killed. -/
theorem reaped_child_killed : ∃ w₀ w, booted quietBoot = some w₀ ∧
    Reaches (step sampleCodec) (fun _ _ => True) w₀ w ∧ ¬ Always KillsAlive w.trace := by
  obtain ⟨w₀, w, hb, hr, ht⟩ := exists_of_executes (step sampleCodec) (fun _ _ => True)
    (booted quietBoot)
    (datagram 0 3 [1] runDetached ++ turn 2 (.bytes [17])
      [.wait (some (100, 0, 0)), .wait none, .call (.ok []), .submit true] ++
        datagram 5 7 [2] [.call (.ok [])])
    (fun _ w => decide (¬ Always KillsAlive w.trace)) (by decide +kernel)
  exact ⟨w₀, w, hb, hr, of_decide_eq_true ht⟩

end Conrt.Daemon
