import Conrt.Base.Always
import Conrt.Base.Rank
import Conrt.Daemon.Container

/-! The built-in init of a container: `run_init_loop` over the kernel that delivers its signals. -/
namespace Conrt.Container

open Conrt.Base
open Conrt.Daemon (exitCodeOf)

inductive Sig
  | hup | int | term | chld
deriving DecidableEq

/-- The one the signalfd returns first: that with the lowest number. -/
def Sig.lowest (pending : Sig → Bool) : Option Sig := [.hup, .int, .term, .chld].find? pending

/-- The user command, which runs as PID 2. -/
inductive Command
  | unborn
  | running
  | zombie (status : ℕ)
  | reaped (status : ℕ)
deriving DecidableEq

def Command.killed : Command → Command
  | .running => .zombie 9
  | c => c

/-- Where the init is: before a system call, or ended. -/
inductive Phase
  | mask
  | signalfd
  | fork
  | poll
  | read
  | wait
  | forward (s : Sig)
  | exited (code : ℤ)
deriving DecidableEq

/-- What happens to the signals, and a call that fails. -/
inductive Entry
  | arrived (s : Sig)
  | taken (s : Sig)
  | forwarded (s : Sig)
  | failed
deriving DecidableEq

/-- The init, its command, what the signalfd has, and whether the write end of the death pipe is closed
everywhere. The log is not in the source. -/
structure Init where
  phase : Phase
  command : Command
  pending : Sig → Bool
  hungUp : Bool
  log : List Entry

def Init.start : Init := ⟨.mask, .unborn, fun _ => false, false, []⟩

/-- A system call of the init, with its result where that is not the kernel's state; or something
outside. -/
inductive Event
  | setup (ok : Bool)
  | poll
  | pollFailed (eintr : Bool)
  | read (ok : Bool)
  | wait
  | kill
  | signal (s : Sig)
  | adopted
  | ends (status : ℕ)
  | hangUp
deriving DecidableEq

def Event.own : Event → Bool
  | .setup _ | .poll | .pollFailed _ | .read _ | .wait | .kill => true
  | _ => false

namespace Init

def note (i : Init) (e : Entry) : Init := { i with log := i.log ++ [e] }

def raise (i : Init) (s : Sig) : Init := { i with pending := fun s' => s' = s || i.pending s' }

def exit (i : Init) (code : ℤ) : Init := { i with phase := .exited code }

def fail (i : Init) : Init := (i.exit 1).note .failed

/-- Whether the loop has been entered or is about to be, with the signals blocked. -/
def blocking (i : Init) : Bool :=
  match i.phase with
  | .mask | .exited _ => false
  | _ => true

def setup (i : Init) (ok : Bool) : Option Init :=
  match i.phase with
  | .mask => some (if ok then { i with phase := .signalfd } else i.fail)
  | .signalfd => some (if ok then { i with phase := .fork } else i.fail)
  | .fork => some (if ok then { i with phase := .poll, command := .running } else i.fail)
  | _ => none

/-- It returns when the death pipe has hung up, which comes first and kills the command, or a signal is
pending. -/
def poll (i : Init) : Option Init :=
  match i.phase with
  | .poll =>
    if i.hungUp then some ({ i with command := i.command.killed }.exit 137)
    else if (Sig.lowest i.pending).isSome then some { i with phase := .read }
    else none
  | _ => none

def pollFailed (i : Init) (eintr : Bool) : Option Init :=
  match i.phase with
  | .poll => some (if eintr then i else i.fail)
  | _ => none

/-- It waits while nothing is pending. -/
def read (i : Init) (ok : Bool) : Option Init :=
  match i.phase with
  | .read =>
    if ok then
      match Sig.lowest i.pending with
      | some s => some ({ i with
          phase := if s = Sig.chld then .wait else .forward s
          pending := fun s' => s' ≠ s && i.pending s' }.note (.taken s))
      | none => none
    else some i.fail
  | _ => none

/-- `wait4` with `WNOHANG` for the command alone. -/
def wait (i : Init) : Option Init :=
  match i.phase with
  | .wait =>
    match i.command with
    | .zombie status => some ({ i with command := .reaped status }.exit (exitCodeOf status))
    | _ => some { i with phase := .poll }
  | _ => none

def kill (i : Init) : Option Init :=
  match i.phase with
  | .forward s => some ({ i with phase := .poll }.note (.forwarded s))
  | _ => none

/-- Before they are blocked the signals have no effect. SIGCHLD comes for the command, and for processes
that the init has adopted. -/
def step (i : Init) : Event → Option Init
  | .setup ok => i.setup ok
  | .poll => i.poll
  | .pollFailed eintr => i.pollFailed eintr
  | .read ok => i.read ok
  | .wait => i.wait
  | .kill => i.kill
  | .signal s => some (if i.blocking then (i.raise s).note (.arrived s) else i)
  | .adopted => some (if i.blocking then i.raise .chld else i)
  | .ends status =>
    if i.command = .running ∧ status % 128 ≠ 127 then
      some ({ i with command := .zombie status }.raise .chld)
    else none
  | .hangUp => some { i with hungUp := true }

end Init

/-- The wait status of a process that has called `exit(code)`. -/
def exitWith (code : ℤ) : ℕ := (code % 256).toNat * 256

def Event.returns : Event → Bool
  | .setup true | .poll | .read true | .wait | .kill => true
  | _ => false

/-- The signal has arrived since it was last taken. -/
def owed (s : Sig) (log : List Entry) : Bool :=
  log.foldl (fun owes e => if e = .arrived s then true else if e = .taken s then false else owes) false

section

variable {i i' : Init} {e : Event} {s : Sig} {log : List Entry} {status : ℕ} {code : ℤ}

theorem Sig.lowest_pending {pending : Sig → Bool} (h : Sig.lowest pending = some s) : pending s = true :=
  List.find?_some h

theorem Sig.lowest_isSome {pending : Sig → Bool} (h : pending s = true) :
    (Sig.lowest pending).isSome = true := by
  rw [Sig.lowest, List.find?_isSome]
  exact ⟨s, by cases s <;> simp, h⟩

@[simp] theorem owed_concat {x : Entry} : owed s (log ++ [x]) =
    if x = .arrived s then true else if x = .taken s then false else owed s log := by
  simp [owed]

private theorem exitCodeOf_exitWith (status : ℕ) : exitCodeOf (exitWith (exitCodeOf status)) = exitCodeOf status := by
  have hrange : 0 ≤ exitCodeOf status ∧ exitCodeOf status < 256 := by
    simp only [exitCodeOf]
    split_ifs <;> omega
  obtain ⟨n, hn⟩ := Int.eq_ofNat_of_zero_le hrange.1
  have hlt : n < 256 := by omega
  have hcode : (((n : ℤ) % 256).toNat) = n := by omega
  rw [hn, exitWith, hcode, exitCodeOf, if_pos (by omega)]
  omega

def Event.fails : Event → Bool
  | .setup false | .pollFailed false | .read false => true
  | _ => false

def Phase.early : Phase → Bool
  | .mask | .signalfd | .fork => true
  | _ => false

inductive Took (i : Init) : Event → Init → Prop
  | mask : i.phase = .mask → Took i (.setup true) { i with phase := .signalfd }
  | signalfd : i.phase = .signalfd → Took i (.setup true) { i with phase := .fork }
  | fork : i.phase = .fork → Took i (.setup true) { i with phase := .poll, command := .running }
  | failed {e : Event} : e.fails = true → i.phase.early = true ∨ i.phase = .poll ∨ i.phase = .read →
      Took i e i.fail
  | interrupted : i.phase = .poll → Took i (.pollFailed true) i
  | orphaned : i.phase = .poll → i.hungUp = true →
      Took i .poll ({ i with command := i.command.killed }.exit 137)
  | ready {s : Sig} : i.phase = .poll → i.hungUp = false → i.pending s = true →
      Took i .poll { i with phase := .read }
  | take {s : Sig} : i.phase = .read → i.pending s = true → Took i (.read true) ({ i with
      phase := if s = Sig.chld then .wait else .forward s
      pending := fun s' => s' ≠ s && i.pending s' }.note (.taken s))
  | reap {status : ℕ} : i.phase = .wait → i.command = .zombie status →
      Took i .wait ({ i with command := .reaped status }.exit (exitCodeOf status))
  | busy : i.phase = .wait → (∀ status, i.command ≠ .zombie status) → Took i .wait { i with phase := .poll }
  | forward {s : Sig} : i.phase = .forward s → Took i .kill ({ i with phase := .poll }.note (.forwarded s))
  | signal {s : Sig} : Took i (.signal s) ((i.raise s).note (.arrived s))
  | adopted : Took i .adopted (i.raise .chld)
  | ignored {e : Event} : (∃ s, e = .signal s) ∨ e = .adopted → Took i e i
  | ends {status : ℕ} : i.command = .running → status % 128 ≠ 127 →
      Took i (.ends status) ({ i with command := .zombie status }.raise .chld)
  | hangUp : Took i .hangUp { i with hungUp := true }

theorem setup_took {ok : Bool} (hs : i.setup ok = some i') : Took i (.setup ok) i' := by
  simp only [Init.setup] at hs
  split at hs
  case h_4 => cases hs
  all_goals
    rename_i hp
    obtain rfl := Option.some.inj hs
    cases ok with
    | false => exact .failed rfl (.inl (by simp [hp, Phase.early]))
    | true => first
      | exact .mask hp
      | exact .signalfd hp
      | exact .fork hp

theorem poll_took (hs : i.poll = some i') : Took i .poll i' := by
  simp only [Init.poll] at hs
  split at hs
  case h_2 => cases hs
  rename_i hp
  split_ifs at hs with hh hsome
  · obtain rfl := Option.some.inj hs
    exact .orphaned hp hh
  · obtain rfl := Option.some.inj hs
    obtain ⟨s, hlow⟩ := Option.isSome_iff_exists.mp hsome
    exact .ready hp (by simpa using hh) (Sig.lowest_pending hlow)

theorem pollFailed_took {eintr : Bool} (hs : i.pollFailed eintr = some i') :
    Took i (.pollFailed eintr) i' := by
  simp only [Init.pollFailed] at hs
  split at hs
  case h_2 => cases hs
  rename_i hp
  obtain rfl := Option.some.inj hs
  cases eintr with
  | true => exact .interrupted hp
  | false => exact .failed rfl (.inr (.inl hp))

theorem read_took {ok : Bool} (hs : i.read ok = some i') : Took i (.read ok) i' := by
  simp only [Init.read] at hs
  split at hs
  case h_2 => cases hs
  rename_i hp
  cases ok with
  | false =>
    obtain rfl := Option.some.inj hs
    exact .failed rfl (.inr (.inr hp))
  | true =>
    simp only [if_true] at hs
    split at hs
    case h_2 => cases hs
    rename_i s hlow
    obtain rfl := Option.some.inj hs
    exact .take hp (Sig.lowest_pending hlow)

theorem wait_took (hs : i.wait = some i') : Took i .wait i' := by
  simp only [Init.wait] at hs
  split at hs
  case h_2 => cases hs
  rename_i hp
  split at hs
  · rename_i status hc
    obtain rfl := Option.some.inj hs
    exact .reap hp hc
  · rename_i hz
    obtain rfl := Option.some.inj hs
    exact .busy hp hz

theorem kill_took (hs : i.kill = some i') : Took i .kill i' := by
  simp only [Init.kill] at hs
  split at hs
  case h_2 => cases hs
  rename_i s hp
  obtain rfl := Option.some.inj hs
  exact .forward hp

theorem step_took (hs : i.step e = some i') : Took i e i' := by
  cases e with
  | setup ok => exact setup_took hs
  | poll => exact poll_took hs
  | pollFailed eintr => exact pollFailed_took hs
  | read ok => exact read_took hs
  | wait => exact wait_took hs
  | kill => exact kill_took hs
  | signal s =>
    obtain rfl := Option.some.inj hs
    split_ifs
    · exact .signal
    · exact .ignored (.inl ⟨s, rfl⟩)
  | adopted =>
    obtain rfl := Option.some.inj hs
    split_ifs
    · exact .adopted
    · exact .ignored (.inr rfl)
  | ends status =>
    simp only [Init.step] at hs
    split_ifs at hs with hok
    obtain rfl := Option.some.inj hs
    exact .ends hok.1 hok.2
  | hangUp =>
    obtain rfl := Option.some.inj hs
    exact .hangUp

private theorem Command.killed_ne_running (c : Command) : c.killed ≠ .running := by
  cases c <;> simp [Command.killed]

private theorem Command.killed_reaped {c : Command} : c.killed = .reaped status ↔ c = .reaped status := by
  cases c <;> simp [Command.killed]

/-- In the loop, neither about to read nor about to wait. -/
def Phase.elsewhere : Phase → Bool
  | .poll | .forward _ => true
  | _ => false

/-- Where the init and its command are. While a command that has ended is waited for, a SIGCHLD is
pending; whoever ends has a reason. -/
inductive Stage (i : Init) : Phase → Command → Prop
  | setup {p : Phase} : p.early = true → Stage i p .unborn
  | serving {p : Phase} : p.elsewhere = true → Stage i p .running
  | reading : (∃ s, i.pending s = true) → Stage i .read .running
  | idle : Stage i .wait .running
  | due {p : Phase} {status : ℕ} : p.elsewhere = true ∨ p = .read → status % 128 ≠ 127 →
      i.pending .chld = true → Stage i p (.zombie status)
  | waiting {status : ℕ} : status % 128 ≠ 127 → Stage i .wait (.zombie status)
  | reaped {status : ℕ} : status % 128 ≠ 127 → Stage i (.exited (exitCodeOf status)) (.reaped status)
  | orphaned {c : Command} : c ≠ .running → (∀ status, c ≠ .reaped status) → i.hungUp = true →
      Stage i (.exited 137) c
  | failed {c : Command} : (∀ status, c ≠ .reaped status) → .failed ∈ i.log → Stage i (.exited 1) c

namespace Stage

variable {p : Phase} {c : Command}

theorem mono (h : Stage i p c) (hp : ∀ s, i.pending s = true → i'.pending s = true)
    (hh : i.hungUp = true → i'.hungUp = true) (hl : i.log ⊆ i'.log) : Stage i' p c := by
  cases h with
  | setup h => exact .setup h
  | serving h => exact .serving h
  | reading h =>
    obtain ⟨s, hs⟩ := h
    exact .reading ⟨s, hp s hs⟩
  | idle => exact .idle
  | due h hv hd => exact .due h hv (hp _ hd)
  | waiting hv => exact .waiting hv
  | reaped hv => exact .reaped hv
  | orphaned hr hc h => exact .orphaned hr hc (hh h)
  | failed hc h => exact .failed hc (hl h)

/-- The command ends. -/
theorem ends (h : Stage i p .running) (hv : status % 128 ≠ 127) (hp : i.pending .chld = true) :
    Stage i p (.zombie status) := by
  cases h with
  | serving h => exact .due (.inl h) hv hp
  | reading => exact .due (.inr rfl) hv hp
  | idle => exact .waiting hv
  | orphaned hr => exact absurd rfl hr
  | failed _ h => exact .failed (by simp) h

theorem not_reaped (h : Stage i p c) (hp : ∀ code, p ≠ .exited code) : c ≠ .reaped status := by
  rintro rfl
  cases h with
  | reaped => exact hp _ rfl
  | orphaned _ hc | failed hc => exact hc _ rfl

theorem of_early (h : Stage i p c) (hp : p.early = true) : c = .unborn := by
  cases h with
  | setup => rfl
  | due hd =>
    rcases hd with hd | rfl
    · cases p <;> cases hp <;> cases hd
    · cases hp
  | serving hd => cases p <;> cases hp <;> cases hd
  | _ => cases hp

/-- A call other than `wait4` fails. -/
theorem fail (h : Stage i p c) (hp : ∀ code, p ≠ .exited code) : Stage i.fail (.exited 1) c :=
  .failed (fun _ => h.not_reaped hp) (by simp [Init.fail, Init.note])

/-- Each step of the source keeps the stage. A SIGCHLD that is taken is followed by a `wait4`. -/
theorem step (h : Stage i i.phase i.command) (hs : Took i e i') : Stage i' i'.phase i'.command := by
  cases hs with
  | mask hp | signalfd hp =>
    exact (h.of_early (by simp [hp, Phase.early])) ▸ .setup rfl
  | fork => exact .serving rfl
  | failed _ hp => exact h.fail (by rintro code heq; simp [heq, Phase.early] at hp)
  | interrupted | ignored => exact h
  | orphaned hp hh =>
    have hc : ∀ status, i.command ≠ .reaped status := fun _ => h.not_reaped (by simp [hp])
    exact .orphaned i.command.killed_ne_running (fun _ heq => hc _ (Command.killed_reaped.mp heq)) hh
  | @ready s hp _ hs =>
    rw [hp] at h
    change Stage _ .read i.command
    generalize i.command = c at h
    cases h with
    | setup h => cases h
    | serving => exact .reading ⟨s, hs⟩
    | due _ hv hd => exact .due (.inr rfl) hv hd
  | @take s hp hs =>
    rw [hp] at h
    change Stage _ (if s = .chld then .wait else .forward s) i.command
    generalize i.command = c at h
    split_ifs with hchld
    · cases h with
      | setup h | serving h => cases h
      | reading => exact .idle
      | due _ hv _ => exact .waiting hv
    · cases h with
      | setup h | serving h => cases h
      | reading => exact .serving rfl
      | due _ hv hd =>
        refine .due (.inl rfl) hv ?_
        change (decide (.chld ≠ s) && i.pending .chld) = true
        rw [hd, decide_eq_true (Ne.symm hchld)]
        rfl
  | reap hp hc =>
    rw [hp, hc] at h
    cases h with
    | waiting hv => exact .reaped hv
    | due hd => rcases hd with hd | hd <;> cases hd
  | busy hp hz =>
    rw [hp] at h
    change Stage _ .poll i.command
    generalize i.command = c at h hz
    cases h with
    | setup h | serving h => cases h
    | idle => exact .serving rfl
    | due | waiting => exact absurd rfl (hz _)
  | forward hp =>
    rw [hp] at h
    change Stage _ .poll i.command
    generalize i.command = c at h
    cases h with
    | setup h => cases h
    | serving => exact .serving rfl
    | due _ hv hd => exact .due (.inl rfl) hv hd
  | signal =>
    exact h.mono (fun s' hs' => by simp [Init.note, Init.raise, hs']) id (List.subset_append_left _ _)
  | adopted => exact h.mono (fun s' hs' => by simp [Init.raise, hs']) id (List.Subset.refl _)
  | @ends status hc hv =>
    have hmore : Stage ({ i with command := .zombie status }.raise .chld) i.phase .running :=
      (hc ▸ h).mono (fun s' hs' => by simp [Init.raise, hs']) id (List.Subset.refl _)
    exact hmore.ends hv rfl
  | hangUp => exact h.mono (fun _ => id) (fun _ => rfl) (List.Subset.refl _)

end Stage

/-- How many of a signal the init has in hand. -/
def Phase.inHand (s : Sig) : Phase → ℕ
  | .forward s' => if s' = s then 1 else 0
  | _ => 0

/-- A signal is pending when it has arrived since it was last taken; what is taken is forwarded, but for
SIGCHLD; and nothing is taken that has not arrived. -/
structure Relays (i : Init) : Prop where
  owing : ∀ s, s ≠ .chld → i.pending s = owed s i.log
  forwards : ∀ s, s ≠ .chld → i.log.count (.forwarded s) + i.phase.inHand s = i.log.count (.taken s)
  kept : i.phase ≠ .forward .chld ∧ .forwarded .chld ∉ i.log
  history : Always (fun before x => ∀ s, s ≠ .chld → x = .taken s → owed s before = true) i.log

namespace Relays

theorem start : Relays Init.start where
  owing := by simp [Init.start, owed]
  forwards := by simp [Init.start, Phase.inHand]
  kept := by simp [Init.start]
  history := .nil

theorem inHand_eq {p : Phase} (h : ∀ s, p ≠ .forward s) : p.inHand s = 0 := by
  cases p with
  | forward s => exact absurd rfl (h s)
  | _ => rfl

/-- Another system call is next, which is not a `kill`. -/
theorem move (h : Relays i) (hf : ∀ s, i.phase ≠ .forward s) (hf' : ∀ s, i'.phase ≠ .forward s)
    (hp : i'.pending = i.pending) (hl : i'.log = i.log) : Relays i' where
  owing s hs := by
    rw [hp, hl]
    exact h.owing s hs
  forwards s hs := by
    have hcount := h.forwards s hs
    rw [inHand_eq hf] at hcount
    rw [hl, inHand_eq hf']
    exact hcount
  kept := ⟨hf' _, hl ▸ h.kept.2⟩
  history := hl ▸ h.history

theorem fail (h : Relays i) (hf : ∀ s, i.phase ≠ .forward s) : Relays i.fail where
  owing s hs := by
    change i.pending s = owed s (i.log ++ [.failed])
    simpa using h.owing s hs
  forwards s hs := by
    have hcount := h.forwards s hs
    rw [inHand_eq hf] at hcount
    simpa [Init.fail, Init.exit, Init.note, Phase.inHand] using hcount
  kept := by simpa [Init.fail, Init.exit, Init.note] using h.kept.2
  history := Always.concat_iff.mpr ⟨h.history, by simp⟩

theorem signal (h : Relays i) : Relays ((i.raise s).note (.arrived s)) where
  owing s' hs := by
    change (decide (s' = s) || i.pending s') = owed s' (i.log ++ [.arrived s])
    rw [owed_concat, h.owing s' hs]
    by_cases heq : s' = s
    · simp [heq]
    · simp [heq, Ne.symm heq]
  forwards s' hs := by simpa [Init.note, Init.raise] using h.forwards s' hs
  kept := by simpa [Init.note, Init.raise] using h.kept
  history := Always.concat_iff.mpr ⟨h.history, by simp⟩

theorem child (h : Relays i) : Relays (i.raise .chld) where
  owing s hs := by
    change (decide (s = .chld) || i.pending s) = owed s i.log
    rw [decide_eq_false hs, Bool.false_or]
    exact h.owing s hs
  forwards := h.forwards
  kept := h.kept
  history := h.history

theorem read (h : Relays i) (hp : i.phase = .read) (hs : i.pending s = true) :
    Relays ({ i with
      phase := if s = Sig.chld then .wait else .forward s
      pending := fun s' => s' ≠ s && i.pending s' }.note (.taken s)) where
  owing s' hs' := by
    change (decide (s' ≠ s) && i.pending s') = owed s' (i.log ++ [.taken s])
    rw [owed_concat, h.owing s' hs']
    by_cases heq : s' = s
    · simp [heq]
    · simp [heq, Ne.symm heq]
  forwards s' hs' := by
    have hcount := h.forwards s' hs'
    rw [hp] at hcount
    have hcount : i.log.count (.forwarded s') = i.log.count (.taken s') := hcount
    by_cases hchld : s = .chld
    · simp [Init.note, hchld, Phase.inHand, hcount, Ne.symm hs']
    · by_cases heq : s = s' <;> simp [Init.note, hchld, heq, hs', Phase.inHand, hcount]
  kept := by
    refine ⟨?_, by simpa [Init.note] using h.kept.2⟩
    change (if s = Sig.chld then Phase.wait else .forward s) ≠ .forward .chld
    split_ifs with hchld
    · simp
    · simpa using hchld
  history := by
    refine Always.concat_iff.mpr ⟨h.history, fun s' hs' heq => ?_⟩
    obtain rfl := Entry.taken.inj heq
    exact h.owing s hs' ▸ hs

theorem kill (h : Relays i) (hp : i.phase = .forward s) :
    Relays ({ i with phase := .poll }.note (.forwarded s)) where
  owing s' hs := by
    change i.pending s' = owed s' (i.log ++ [.forwarded s])
    simpa using h.owing s' hs
  forwards s' hs := by
    have hcount := h.forwards s' hs
    rw [hp] at hcount
    change (i.log ++ [Entry.forwarded s]).count (.forwarded s') + 0 =
      (i.log ++ [Entry.forwarded s]).count (.taken s')
    by_cases heq : s = s' <;> simpa [heq, Phase.inHand] using hcount
  kept := by
    obtain ⟨hphase, hlog⟩ := h.kept
    rw [hp] at hphase
    refine ⟨by simp [Init.note], ?_⟩
    have hne : s ≠ .chld := by simpa using hphase
    simpa [Init.note, Ne.symm hne] using hlog
  history := Always.concat_iff.mpr ⟨h.history, by simp⟩

theorem step (h : Relays i) (hs : Took i e i') : Relays i' := by
  cases hs with
  | mask hp | signalfd hp | fork hp | ready hp | busy hp => exact h.move (by simp [hp]) (by simp) rfl rfl
  | orphaned hp | reap hp => exact h.move (by simp [hp]) (by simp [Init.exit]) rfl rfl
  | failed _ hp => exact h.fail (by rintro s heq; simp [heq, Phase.early] at hp)
  | interrupted | ignored => exact h
  | take hp hs => exact h.read hp hs
  | forward hp => exact h.kill hp
  | signal => exact h.signal
  | adopted => exact h.child
  | @ends status =>
    have hsame : Relays { i with command := .zombie status } := ⟨h.owing, h.forwards, h.kept, h.history⟩
    exact hsame.child
  | hangUp => exact ⟨h.owing, h.forwards, h.kept, h.history⟩

end Relays

/-- A call that counts: any but a `poll` that has been interrupted. -/
def Event.cost : Event → ℕ
  | .pollFailed true => 0
  | e => if e.own then 1 else 0

/-- The calls that a signal can cost. -/
def Event.credit : Event → ℕ
  | .signal _ | .adopted | .ends _ => 3
  | _ => 0

def Init.burden (i : Init) : ℕ :=
  (i.pending .hup).toNat + (i.pending .int).toNat + (i.pending .term).toNat + (i.pending .chld).toNat

/-- The calls to come if no other signal arrives: three for each of the `n` that are pending. -/
def Phase.weight (n : ℕ) : Phase → ℕ
  | .mask => 3 * n + 4
  | .signalfd => 3 * n + 3
  | .fork => 3 * n + 2
  | .poll => 3 * n + 1
  | .read => 3 * n
  | .wait | .forward _ => 3 * n + 2
  | .exited _ => 0

def Init.weight (i : Init) : ℕ := i.phase.weight i.burden

/-- The calls to come once the death pipe has hung up, however many signals arrive. -/
def Phase.respite : Phase → ℕ
  | .mask => 4
  | .signalfd | .read => 3
  | .fork | .wait | .forward _ => 2
  | .poll => 1
  | .exited _ => 0

private theorem burden_le : i.burden ≤ 4 := by
  simp only [Init.burden]
  have hle := fun s => Bool.toNat_le (i.pending s)
  have h1 := hle .hup
  have h2 := hle .int
  have h3 := hle .term
  have h4 := hle .chld
  omega

private theorem burden_raise : (i.raise s).burden ≤ i.burden + 1 := by
  cases s <;> simp only [Init.burden, Init.raise] <;> simp <;> omega

private theorem burden_pos (hs : i.pending s = true) : 0 < i.burden := by
  cases s <;> simp only [Init.burden, hs, Bool.toNat_true] <;> omega

/-- Taking a signal takes it from those that are pending. -/
theorem burden_take (hs : i.pending s = true) (hp : i'.pending = fun s' => s' ≠ s && i.pending s') :
    i'.burden + 1 = i.burden := by
  cases s <;> simp only [Init.burden, hp] <;> simp [hs] <;> omega

theorem weight_le : i.weight ≤ 16 := by
  have hle : i.burden ≤ 4 := burden_le
  simp only [Init.weight]
  cases i.phase <;> simp only [Phase.weight] <;> omega

private theorem respite_le {p : Phase} : p.respite ≤ 4 := by
  cases p <;> simp [Phase.respite]

private theorem respite_pos {p : Phase} (hp : ∀ code, p ≠ .exited code) : 0 < p.respite := by
  cases p with
  | exited code => exact absurd rfl (hp code)
  | _ => simp [Phase.respite]

private theorem weight_raise : (i.raise s).weight ≤ i.weight + 3 := by
  have hle : (i.raise s).burden ≤ i.burden + 1 := burden_raise
  change i.phase.weight _ ≤ i.phase.weight _ + 3
  cases i.phase <;> simp only [Phase.weight] <;> omega

/-- A `read` finds a signal. -/
theorem Stage.pending (h : Stage i .read i.command) : ∃ s, i.pending s = true := by
  generalize i.command = c at h
  cases h with
  | setup h | serving h => cases h
  | reading h => exact h
  | due _ _ hd => exact ⟨_, hd⟩

theorem Event.cost_of_fails (he : e.fails = true) : e.cost = 1 := by
  cases e with
  | setup ok | pollFailed ok | read ok => cases ok <;> first | rfl | cases he
  | _ => cases he

/-- A step is paid for. A signal can cost three calls. -/
theorem Stage.step_weight (h : Stage i i.phase i.command) (hs : Took i e i') :
    e.cost + i'.weight ≤ i.weight + e.credit := by
  cases hs with
  | failed he hp =>
    have hpos : 0 < i.weight := by
      rcases hp with hp | hp | hp
      · cases hphase : i.phase <;> simp [hphase, Phase.early] at hp <;>
          simp [Init.weight, hphase, Phase.weight]
      · simp [Init.weight, hp, Phase.weight]
      · obtain ⟨s, hs⟩ := (hp ▸ h).pending
        simpa [Init.weight, hp, Phase.weight] using burden_pos hs
    rw [Event.cost_of_fails he]
    exact Nat.le_add_right_of_le hpos
  | mask hp | signalfd hp | fork hp | ready hp | busy hp | forward hp | interrupted hp | orphaned hp
  | reap hp =>
    simp [Init.weight, Init.exit, Init.note, hp, Phase.weight, Event.cost, Event.own, Init.burden] <;> omega
  | @take s hp hs =>
    have htaken : Init.burden { i with pending := fun s' => s' ≠ s && i.pending s' } + 1 = i.burden :=
      burden_take hs rfl
    have hnext : ∀ n, (if s = Sig.chld then Phase.wait else .forward s).weight n = 3 * n + 2 := by
      intro n
      split_ifs <;> rfl
    change 1 + Phase.weight _ (if s = Sig.chld then Phase.wait else .forward s) ≤ i.phase.weight _
    rw [hp, hnext]
    change 1 + (3 * Init.burden { i with pending := fun s' => s' ≠ s && i.pending s' } + 2) ≤ 3 * i.burden
    omega
  | signal | adopted | ends => exact (Nat.zero_add _).trans_le weight_raise
  | ignored he => rcases he with ⟨s, rfl⟩ | rfl <;> exact (Nat.zero_add _).trans_le (Nat.le_add_right _ _)
  | hangUp => exact (Nat.zero_add _).le

/-- Once the death pipe has hung up a `poll` does not look at the signals. -/
theorem step_respite (hh : i.hungUp = true) (hs : Took i e i') :
    i'.hungUp = true ∧ e.cost + i'.phase.respite ≤ i.phase.respite := by
  cases hs with
  | failed he hp =>
    refine ⟨hh, ?_⟩
    rw [Event.cost_of_fails he]
    exact respite_pos (by rintro code heq; simp [heq, Phase.early] at hp)
  | ready _ hno => simp [hh] at hno
  | take hp =>
    refine ⟨hh, ?_⟩
    change 1 + Phase.respite (if _ then Phase.wait else .forward _) ≤ _
    rw [hp]
    split_ifs <;> rfl
  | mask hp | signalfd hp | fork hp | busy hp | forward hp | interrupted hp | orphaned hp | reap hp =>
    exact ⟨hh, by simp [Init.exit, Init.note, hp, Phase.respite, Event.cost, Event.own]⟩
  | signal | adopted | ends => exact ⟨hh, (Nat.zero_add _).le⟩
  | ignored he => exact ⟨hh, by rcases he with ⟨s, rfl⟩ | rfl <;> exact (Nat.zero_add _).le⟩
  | hangUp => exact ⟨rfl, (Nat.zero_add _).le⟩

/-- A command that has ended is only reaped. -/
theorem Stage.kept (h : Stage i i.phase i.command)
    (hc : i.command = .zombie status ∨ i.command = .reaped status) (hs : Took i e i') :
    i'.command = .zombie status ∨ i'.command = .reaped status := by
  cases hs with
  | fork hp =>
    rw [h.of_early (by simp [hp, Phase.early])] at hc
    simp at hc
  | orphaned => rcases hc with hc | hc <;> simp [Init.exit, hc, Command.killed]
  | reap _ hz =>
    rw [hz] at hc
    simpa [Init.exit] using hc
  | ends hrun =>
    rw [hrun] at hc
    simp at hc
  | _ => exact hc

/-- When the command or the daemon has ended, the next call returns. -/
theorem Stage.returns (h : Stage i i.phase i.command)
    (hdue : (∃ status, i.command = .zombie status ∨ i.command = .reaped status) ∨ i.hungUp = true) :
    (∃ code, i.phase = .exited code) ∨ ∃ e, e.returns = true ∧ (i.step e).isSome = true := by
  cases hp : i.phase with
  | mask | signalfd | fork => exact .inr ⟨.setup true, rfl, by simp [Init.step, Init.setup, hp]⟩
  | poll =>
    refine .inr ⟨.poll, rfl, ?_⟩
    by_cases hh : i.hungUp = true
    · simp [Init.step, Init.poll, hp, hh]
    · obtain ⟨status, hc | hc⟩ := hdue.resolve_right hh
      · rw [hp, hc] at h
        cases h with
        | due _ _ hd => simp [Init.step, Init.poll, hp, hh, Sig.lowest_isSome hd]
      · exact absurd hc (h.not_reaped (by simp [hp]))
  | read =>
    obtain ⟨s, hs⟩ := (hp ▸ h).pending
    obtain ⟨s', hlow⟩ := Option.isSome_iff_exists.mp (Sig.lowest_isSome hs)
    exact .inr ⟨.read true, rfl, by simp [Init.step, Init.read, hp, hlow]⟩
  | wait =>
    refine .inr ⟨.wait, rfl, ?_⟩
    simp only [Init.step, Init.wait, hp]
    split <;> rfl
  | forward s => exact .inr ⟨.kill, rfl, by simp [Init.step, Init.kill, hp]⟩
  | exited code => exact .inl ⟨code, rfl⟩

theorem stage_of_reaches (h : Reaches Init.step (fun _ _ => True) .start i) : Stage i i.phase i.command :=
  h.invariant (P := fun i => Stage i i.phase i.command) (.setup rfl)
    fun _ _ _ hx _ hst => hx.step (step_took hst)

theorem run_weight (hx : Stage i i.phase i.command) {es : List Event} (hr : run Init.step i es = some i') :
    Stage i' i'.phase i'.command ∧
      (es.map Event.cost).sum + i'.weight ≤ i.weight + (es.map Event.credit).sum :=
  @run_cost Init Event Init.step Init.weight Event.cost Event.credit
    (fun i => Stage i i.phase i.command) i i' es
    (fun _ _ _ hi hst => ⟨hi.step (step_took hst), hi.step_weight (step_took hst)⟩) hx hr

theorem run_respite (hh : i.hungUp = true) {es : List Event} (hr : run Init.step i es = some i') :
    i'.hungUp = true ∧ (es.map Event.cost).sum + i'.phase.respite ≤ i.phase.respite := by
  have hcost := @run_cost Init Event Init.step (fun i => i.phase.respite) Event.cost (fun _ => 0)
    (fun i => i.hungUp = true) i i' es (fun _ _ _ hi hst => step_respite hi (step_took hst)) hh hr
  simpa using hcost

theorem run_kept (hx : Stage i i.phase i.command ∧ (i.command = .zombie status ∨ i.command = .reaped status))
    {es : List Event} (hr : run Init.step i es = some i') :
    i'.command = .zombie status ∨ i'.command = .reaped status :=
  (run_invariant (P := fun i => Stage i i.phase i.command ∧
      (i.command = .zombie status ∨ i.command = .reaped status))
    (fun _ _ _ hi _ hst => ⟨hi.1.step (step_took hst), hi.1.kept hi.2 (step_took hst)⟩) hx
    (meets_of_forall (p := fun _ => True) fun _ _ => trivial) hr).2

/-- Each burst of a signal is forwarded once, if the init lives, and none is forwarded that has not
arrived. -/
theorem run_init_relays (h : Reaches Init.step (fun _ _ => True) .start i) : Relays i :=
  h.invariant .start fun _ _ _ hx _ hst => hx.step (step_took hst)

/-- Whoever ends has a reason, and its parent decodes what it has ended with; a `read` always finds a
signal. -/
theorem run_init_reports (h : Reaches Init.step (fun _ _ => True) .start i) :
    (∀ code, i.phase = .exited code → exitCodeOf (exitWith code) = code ∧
      ((∃ status, i.command = .reaped status ∧ code = exitCodeOf status) ∨
        (code = 137 ∧ i.hungUp = true ∧ i.command ≠ .running) ∨ code = 1 ∧ .failed ∈ i.log)) ∧
    (i.phase = .read → (i.step (.read true)).isSome = true) := by
  have hx := stage_of_reaches h
  refine ⟨fun code hp => ?_, fun hp => ?_⟩
  · rw [hp] at hx
    generalize i.command = c at hx
    cases hx with
    | setup h | serving h => cases h
    | due hd => rcases hd with hd | hd <;> cases hd
    | reaped => exact ⟨exitCodeOf_exitWith _, .inl ⟨_, rfl, rfl⟩⟩
    | orphaned hr _ h => exact ⟨by decide, .inr (.inl ⟨rfl, h, hr⟩)⟩
    | failed _ h => exact ⟨by decide, .inr (.inr ⟨rfl, h⟩)⟩
  · rw [hp] at hx
    obtain ⟨s, hs⟩ := hx.pending
    obtain ⟨s', hlow⟩ := Option.isSome_iff_exists.mp (Sig.lowest_isSome hs)
    simp [Init.step, Init.read, hp, hlow]

/-- Once the command has ended or the death pipe has hung up the init is on its way out: it never sleeps, it
makes boundedly many calls, and it ends with the code of the command unless the death pipe comes first. -/
theorem run_init_ends (h : Reaches Init.step (fun _ _ => True) .start i)
    (hdue : (∃ status, i.command = .zombie status) ∨ i.hungUp = true) {es : List Event}
    (hr : run Init.step i es = some i') :
    (es.map Event.cost).sum ≤ 16 + (es.map Event.credit).sum ∧
    (i.hungUp = true → (es.map Event.cost).sum ≤ 4) ∧
    ((∀ e, e.returns = true → i'.step e = none) → ∃ code, i'.phase = .exited code) ∧
    (∀ status code, i.command = .zombie status → i'.hungUp = false → .failed ∉ i'.log →
      i'.phase = .exited code → code = exitCodeOf status) := by
  have hx := stage_of_reaches h
  obtain ⟨hx', hcost⟩ := run_weight hx hr
  have hweight : i.weight ≤ 16 := weight_le
  refine ⟨by omega, fun hh => ?_, fun hstuck => ?_, fun status code hc hh hf hp => ?_⟩
  · have hpaid := (run_respite hh hr).2
    have hrespite : i.phase.respite ≤ 4 := respite_le
    omega
  · have hdue' : (∃ status, i'.command = .zombie status ∨ i'.command = .reaped status) ∨
        i'.hungUp = true := by
      rcases hdue with ⟨status, hc⟩ | hh
      · exact .inl ⟨status, run_kept ⟨hx, .inl hc⟩ hr⟩
      · exact .inr (run_respite hh hr).1
    rcases hx'.returns hdue' with hexit | ⟨e, hret, hsome⟩
    · exact hexit
    · simp [hstuck e hret] at hsome
  · have hc' := run_kept ⟨hx, .inl hc⟩ hr
    rw [hp] at hx'
    generalize i'.command = c at hx' hc'
    cases hx' with
    | setup h | serving h => cases h
    | due hd => rcases hd with hd | hd <;> cases hd
    | reaped =>
      obtain rfl : _ = status := by simpa using hc'
      rfl
    | orphaned _ _ h => simp [hh] at h
    | failed _ h => exact absurd h hf

end

def twoTerms : List Event :=
  [.setup true, .setup true, .setup true, .signal .term, .signal .term, .poll, .read true, .kill]

theorem run_init_relays_twice : ∃ i : Init, i.log.count (.arrived .term) = 2 ∧
    i.log.count (.forwarded .term) = 1 ∧ Relays i := by
  obtain ⟨i₀, i, h₀, hr, ht⟩ := exists_of_executes Init.step (fun _ _ => True) (some .start) twoTerms
    (fun _ i => decide (i.log.count (.arrived .term) = 2 ∧ i.log.count (.forwarded .term) = 1))
    (by decide +kernel)
  obtain rfl := Option.some.inj h₀
  obtain ⟨harrived, hforwarded⟩ := of_decide_eq_true ht
  exact ⟨i, harrived, hforwarded, run_init_relays hr⟩

/-- The command exits with 3, after another process of the container. -/
theorem run_init_reports_three : ∃ i : Init, i.phase = .exited 3 ∧ exitCodeOf (exitWith 3) = 3 ∧
    ∃ status, i.command = .reaped status ∧ 3 = exitCodeOf status := by
  obtain ⟨i₀, i, h₀, hr, ht⟩ := exists_of_executes Init.step (fun _ _ => True) (some .start)
    [.setup true, .setup true, .setup true, .adopted, .poll, .read true, .wait, .ends 768, .poll,
      .read true, .wait]
    (fun _ i => decide (i.phase = .exited 3 ∧ i.hungUp = false)) (by decide +kernel)
  obtain rfl := Option.some.inj h₀
  obtain ⟨hp, hh⟩ := of_decide_eq_true ht
  obtain ⟨hcode, hreason | ⟨hno, -⟩ | ⟨hno, -⟩⟩ := (run_init_reports hr).1 3 hp
  · exact ⟨i, hp, hcode, hreason⟩
  · simp at hno
  · simp at hno

def Init.killedOut (i : Init) : Bool :=
  decide (i.phase = .exited 137 ∧ i.hungUp = false ∧ .failed ∉ i.log)

/-- The command is killed while a SIGTERM is pending. -/
theorem run_init_ends_killed : ∃ i i' : Init, i.command = .zombie 9 ∧ i'.phase = .exited 137 ∧
    run Init.step i [.poll, .read true, .kill, .poll, .read true, .wait] = some i' ∧ 6 ≤ 16 ∧
    (137 : ℤ) = exitCodeOf 9 := by
  obtain ⟨i₀, i, h₀, hr, ht⟩ := exists_of_executes Init.step (fun _ _ => True) (some .start)
    [.setup true, .setup true, .setup true, .signal .term, .ends 9]
    (fun _ i => decide (i.command = .zombie 9) &&
      (run Init.step i [.poll, .read true, .kill, .poll, .read true, .wait]).any Init.killedOut)
    (by decide +kernel)
  obtain rfl := Option.some.inj h₀
  obtain ⟨hc, hany⟩ := Bool.and_eq_true_iff.mp ht
  have hc := of_decide_eq_true hc
  obtain ⟨i', hrun, ht'⟩ := (Option.any_eq_true _ _).mp hany
  obtain ⟨hp, hh, hf⟩ := of_decide_eq_true ht'
  obtain ⟨hcost, -, -, hcode⟩ := run_init_ends hr (.inl ⟨9, hc⟩) hrun
  exact ⟨i, i', hc, hp, hrun, hcost, hcode 9 137 hc hh hf hp⟩

end Conrt.Container
