import Conrt.Base.Outstanding
import Conrt.Daemon.Calls

/-! The steps of starting a run, where the system can refuse, and what each of them leaves of the
descriptors and the directory obtained so far. -/
namespace Conrt.Daemon

open Conrt.Base

inductive Client
  | datagram (sender : ℕ)
  | session (sid : ℕ)
deriving DecidableEq

def startRun (args : RunArgs) : Client → M Unit
  | .datagram sender => handleRun sender args
  | .session sid => discard <| handleRunAttach sid args

/-- The client of a session that is gone is not answered, and no run is started. -/
def Client.Present (w : World) : Client → Prop
  | .datagram _ => True
  | .session sid => w.g.attachSessions.lookup sid ≠ none

inductive Stage
  | options | rootfs | overlayDir | signal | namespaces | deathPipe | stdinPipe | pty | logPipe
  | clone | maps
deriving DecidableEq

namespace RunArgs

variable (args : RunArgs)

def defaultInit : Bool := args.initPath.isNone && !args.noInit

def stdinPipe : Client → Bool
  | .datagram _ => args.interactive && !args.tty
  | .session _ => false

def terminal : Client → Bool
  | .datagram _ => args.tty
  | .session _ => args.tty || args.interactive

/-- A session reads its terminal, if it has one. -/
def logPipe : Client → Bool
  | .datagram _ => true
  | .session _ => !(args.tty || args.interactive)

def rootfsStages : List Stage := if args.rootfs.isSome then [.rootfs, .overlayDir] else []

/-- Two files are opened and joined. -/
def namespaceStages : List Stage :=
  if args.netPid.isSome then [.namespaces, .namespaces, .namespaces, .namespaces] else []

def mapStages : List Stage := if args.netPid.isNone then [.maps] else []

end RunArgs

/-- A step that may not be needed. -/
def stageIf (wanted : Bool) (stage : Stage) : List Stage := if wanted then [stage] else []

/-- The calls that start a run, in order. -/
def RunArgs.stages (args : RunArgs) (client : Client) : List Stage :=
  args.rootfsStages ++ (.signal :: (args.namespaceStages ++ (stageIf args.defaultInit .deathPipe ++
    (stageIf (args.stdinPipe client) .stdinPipe ++ (stageIf (args.terminal client) .pty ++
      (stageIf (args.logPipe client) .logPipe ++ (.clone :: args.mapStages)))))))

def Answer.refused : Answer → Bool
  | .call (.error _) | .clone (.error _) => true
  | _ => false

def firstRefused : List Stage → List Answer → Option Stage
  | stage :: stages, a :: as => if a.refused then some stage else firstRefused stages as
  | _, _ => none

def World.failsAt (w : World) (args : RunArgs) (client : Client) : Option Stage :=
  if args.noInit && args.initPath.isSome then some .options
  else firstRefused (args.stages client) w.answers

inductive Resource
  | fd (d : Handle)
  | overlay (dir : ℕ)
deriving DecidableEq

def Entry.deed : Entry → Deed Resource
  | .opened d => .gain (.fd d)
  | .closed d _ => .free (.fd d)
  | .overlayMade dir => .gain (.overlay dir)
  | .overlayRemoved dir => .free (.overlay dir)
  | _ => .other

def World.since (w w' : World) : List Entry := w'.trace.drop w.trace.length

/-- The tables are as before, and nothing is left of the descriptors opened and the directories made
in between. -/
structure Undone (w w' : World) : Prop where
  containers : w'.g.containers = w.g.containers
  outputs : w'.g.outputs = w.g.outputs
  settled : outstanding Entry.deed (w.since w') = []
  closed : ∀ d, .opened d ∈ w.since w' → w'.file (some d) ≠ some d.2

/-- Whether a run that fails at a step has nothing left by then but what is released there. The
overlay directory is never removed, and the death pipe, the stdin pipe and the log pipe are not
closed everywhere. -/
def CleansUp (args : RunArgs) (client : Client) : Stage → Prop
  | .options | .rootfs | .overlayDir => True
  | .signal | .namespaces | .deathPipe | .clone => args.rootfs = none
  | .stdinPipe | .pty => args.rootfs = none ∧ args.defaultInit = false
  | .logPipe =>
    args.rootfs = none ∧ args.defaultInit = false ∧ args.stdinPipe client = false
  | .maps =>
    args.rootfs = none ∧
      match client with
      | .datagram _ => True
      | .session _ => args.logPipe client = false

inductive Progress
  | todo (stages : List Stage)
  | failed (stage : Stage)

def Progress.after (stage : Stage) (todo : List Stage) (a : Answer) : Progress :=
  if a.refused then .failed stage else .todo todo

/-- The call refused is the one that was to be. -/
def Progress.Leads (outcome : Option Stage) : Progress → List Answer → Prop
  | .todo stages, as => firstRefused stages as = outcome
  | .failed stage, _ => outcome = some stage

/-- Since `w₀` nothing has happened but that the run has got so far, and this is left of it. -/
structure Owes (w₀ : World) (outcome : Option Stage) (p : Progress) (left : List Resource)
    (w : World) : Prop where
  leads : p.Leads outcome w.answers
  containers : w.g.containers = w₀.g.containers
  outputs : w.g.outputs = w₀.g.outputs
  grows : w₀.trace <+: w.trace
  settled : (outstanding Entry.deed (w₀.since w)).Perm left
  kinds : ∀ d, .fd d ∈ left → d.2.kind ≠ .stream
  older : ∀ d, .opened d ∈ w₀.since w → d.2.gen < w.nextGen
  closed : ∀ d, .opened d ∈ w₀.since w → .fd d ∈ left ∨ w.file (some d) ≠ some d.2

section

variable {w₀ w : World} {f : Option Stage} {p : Progress} {left rest : List Resource} {e : Entry}
  {d : Handle} {k : FileKind} {n : ℕ}

theorem since_concat (hg : w₀.trace <+: w.trace) : w₀.since (w.note e) = w₀.since w ++ [e] :=
  List.drop_append_of_le_length hg.length_le

theorem mem_since_concat (hg : w₀.trace <+: w.trace) {e' : Entry} :
    e' ∈ w₀.since (w.note e) ↔ e' ∈ w₀.since w ∨ e' = e := by
  rw [since_concat hg, List.mem_append, List.mem_singleton]

namespace Owes

theorem start (hf : p.Leads f w.answers) : Owes w f p [] w where
  leads := hf
  containers := rfl
  outputs := rfl
  grows := List.prefix_refl _
  settled := by simp [World.since, outstanding]
  kinds := by simp
  older := by simp [World.since]
  closed := by simp [World.since]

theorem perm (hx : Owes w₀ f p left w) (hp : left.Perm rest) : Owes w₀ f p rest w where
  leads := hx.leads
  containers := hx.containers
  outputs := hx.outputs
  grows := hx.grows
  settled := hx.settled.trans hp
  kinds d hd := hx.kinds d (hp.mem_iff.mpr hd)
  older := hx.older
  closed d hd := (hx.closed d hd).imp_left hp.mem_iff.mp

theorem note (hx : Owes w₀ f p left w) (he : e.deed = .other) : Owes w₀ f p left (w.note e) where
  leads := hx.leads
  containers := hx.containers
  outputs := hx.outputs
  grows := hx.grows.trans (List.prefix_append ..)
  settled := by
    rw [since_concat hx.grows]
    exact outstanding_other hx.settled he
  kinds := hx.kinds
  older d hd := by
    rcases (mem_since_concat hx.grows).mp hd with hd | rfl
    · exact hx.older d hd
    · cases he
  closed d hd := by
    rcases (mem_since_concat hx.grows).mp hd with hd | rfl
    · exact hx.closed d hd
    · cases he

/-- A directory is made. -/
theorem overlay {dir : ℕ} (hx : Owes w₀ f p left w) :
    Owes w₀ f p (.overlay dir :: left) (w.note (.overlayMade dir)) where
  leads := hx.leads
  containers := hx.containers
  outputs := hx.outputs
  grows := hx.grows.trans (List.prefix_append ..)
  settled := by
    rw [since_concat hx.grows]
    exact outstanding_gain hx.settled rfl
  kinds d hd := by
    apply hx.kinds d
    simpa using hd
  older d hd := by
    rcases (mem_since_concat hx.grows).mp hd with hd | hd
    · exact hx.older d hd
    · cases hd
  closed d hd := by
    rcases (mem_since_concat hx.grows).mp hd with hd | hd
    · exact (hx.closed d hd).imp_left (List.mem_cons_of_mem _)
    · cases hd

theorem openFd (hx : Owes w₀ f p left w) (hk : k ≠ .stream) :
    Owes w₀ f p (.fd (n, ⟨k, w.nextGen⟩) :: left) (w.openFd k n) where
  leads := hx.leads
  containers := hx.containers
  outputs := hx.outputs
  grows := hx.grows.trans (List.prefix_append ..)
  settled := by
    have hs : w₀.since (w.openFd k n) = w₀.since w ++ [.opened (n, ⟨k, w.nextGen⟩)] :=
      since_concat hx.grows
    rw [hs]
    exact outstanding_gain hx.settled rfl
  kinds d hd := by
    rcases List.mem_cons.mp hd with hd | hd
    · rw [Resource.fd.inj hd]
      exact hk
    · exact hx.kinds d hd
  older d hd := by
    change d.2.gen < w.nextGen + 1
    have hd' : .opened d ∈ w₀.since w ∨ Entry.opened d = .opened (n, ⟨k, w.nextGen⟩) :=
      (mem_since_concat hx.grows).mp hd
    rcases hd' with hd' | hd'
    · exact Nat.lt_succ_of_lt (hx.older d hd')
    · rw [Entry.opened.inj hd']
      exact Nat.lt_succ_self _
  closed d hd := by
    have hd' : .opened d ∈ w₀.since w ∨ Entry.opened d = .opened (n, ⟨k, w.nextGen⟩) :=
      (mem_since_concat hx.grows).mp hd
    rcases hd' with hd' | hd'
    · refine (hx.closed d hd').imp (List.mem_cons_of_mem _) fun hgone => ?_
      change (w.fds.insert n ⟨k, w.nextGen⟩).lookup d.1 ≠ some d.2
      rw [Table.lookup_insert_ite]
      split_ifs
      · -- the number has been used again, for another file
        intro heq
        have hlt := hx.older d hd'
        rw [← Option.some.inj heq] at hlt
        exact Nat.lt_irrefl _ hlt
      · exact hgone
    · rw [Entry.opened.inj hd']
      exact .inl List.mem_cons_self

/-- What a close does, whoever had the descriptor. -/
theorem closing (hx : Owes w₀ f p left w) (hrest : ∀ r ∈ rest, r ∈ left)
    (hleft : ∀ r ∈ left, r = .fd d ∨ r ∈ rest)
    (hs : (outstanding Entry.deed (w₀.since w ++ [.closed d (w.file (some d))])).Perm rest) :
    Owes w₀ f p rest (w.closeFd d) where
  leads := hx.leads
  containers := hx.containers
  outputs := hx.outputs
  grows := hx.grows.trans (List.prefix_append ..)
  settled := by
    have hsince : w₀.since (w.closeFd d) = w₀.since w ++ [.closed d (w.file (some d))] :=
      since_concat hx.grows
    rw [hsince]
    exact hs
  kinds d' hd := hx.kinds d' (hrest _ hd)
  older d' hd := by
    have hd' : .opened d' ∈ w₀.since w ∨ Entry.opened d' = .closed d (w.file (some d)) :=
      (mem_since_concat hx.grows).mp hd
    rcases hd' with hd' | hd'
    · exact hx.older d' hd'
    · cases hd'
  closed d' hd := by
    have hd' : .opened d' ∈ w₀.since w ∨ Entry.opened d' = .closed d (w.file (some d)) :=
      (mem_since_concat hx.grows).mp hd
    rcases hd' with hd' | hd'
    · change _ ∨ (w.fds.erase d.1).lookup d'.1 ≠ some d'.2
      rw [Table.lookup_erase_ite]
      split_ifs with hn
      · exact .inr (by simp)
      · refine (hx.closed d' hd').imp_left fun hmem => ?_
        rcases hleft _ hmem with heq | hin
        · exact absurd (congrArg Prod.fst (Resource.fd.inj heq)) hn
        · exact hin
    · cases hd'

theorem closeFd (hx : Owes w₀ f p (.fd d :: rest) w) : Owes w₀ f p rest (w.closeFd d) :=
  hx.closing (fun _ hr => List.mem_cons_of_mem _ hr) (fun _ hr => List.mem_cons.mp hr)
    (outstanding_free hx.settled rfl)

/-- The stream of a session is none of the run's descriptors. -/
theorem closeStream {fd : Fd .stream} (hx : Owes w₀ f p left w) :
    Owes w₀ f p left (w.closeFd fd.handle) :=
  hx.closing (fun _ hr => hr) (fun _ hr => .inr hr)
    (outstanding_free_other hx.settled rfl fun hmem => hx.kinds _ hmem rfl)

end Owes

end

def fdsOf (hs : List Handle) : List Resource := hs.map .fd

def overlaysOf (dir : Option ℕ) : List Resource := dir.toList.map .overlay

def Broke (w₀ : World) (f : Option Stage) (stages : List Stage) (left : List Resource) (w : World) :
    Prop :=
  ∃ stage ∈ stages, Owes w₀ f (.failed stage) left w

/-- How a call returns that is to make the given steps and to obtain `own`. Nothing of its own is left
when it fails. -/
def Got {α : Type} (w₀ : World) (f : Option Stage) (stages todo : List Stage) (left : List Resource)
    (own : α → List Resource) : Except String α → World → Prop
  | .ok a, w => Owes w₀ f (.todo todo) (own a ++ left) w
  | .error _, w => Broke w₀ f stages left w

abbrev Obtains {α : Type} (m : M (Except String α)) (stages : List Stage) (own : α → List Resource) :
    Prop :=
  ∀ {w₀ f todo left}, Triple (Owes w₀ f (.todo (stages ++ todo)) left) m
    (Got w₀ f stages todo left own) fun _ => True

section

variable {w₀ w : World} {f : Option Stage} {p : Progress} {left rest : List Resource} {e : Entry}
  {k : FileKind} {stage : Stage} {todo : List Stage} {α : Type}

theorem ask_owes : Triple (Owes w₀ f (.todo (stage :: todo)) left) ask
    (fun a => Owes w₀ f (.after stage todo a) left) fun _ => True := by
  refine Triple.of_eq fun w hx => ?_
  refine ask_spec.post fun a w' hw => ?_
  obtain ⟨as, ha, rfl⟩ := hw
  have hlead : firstRefused (stage :: todo) w.answers = f := hx.leads
  rw [ha, firstRefused] at hlead
  have hlead' : (Progress.after stage todo a).Leads f as := by
    unfold Progress.after
    split_ifs at hlead ⊢
    · exact hlead.symm
    · exact hlead
  exact { hx with leads := hlead' }

theorem note_owes (he : e.deed = .other) : Triple (Owes w₀ f p left) (note e)
    (fun _ => Owes w₀ f p left) fun _ => True :=
  .update fun _ hx => hx.note he

theorem openFd_owes (hk : k ≠ .stream) {n : ℕ} : Triple (Owes w₀ f p left) (openFd k n)
    (fun fd => Owes w₀ f p (.fd fd.handle :: left)) fun _ => True := by
  refine Triple.of_eq fun w hx => ?_
  unfold openFd
  refine Triple.get_bind (Triple.ite (fun _ => ?_) fun _ => .throw fun _ _ => trivial)
  refine Triple.modify_bind (.pure fun s hs => ?_)
  subst hs
  exact hx.openFd hk

theorem closeAll_owes {hs : List Handle} (hp : left.Perm (fdsOf hs ++ rest)) :
    Triple (Owes w₀ f p left) (closeAll hs) (fun _ => Owes w₀ f p rest) fun _ => True := by
  induction hs generalizing left with
  | nil => exact .pure fun w hx => hx.perm hp
  | cons d hs ih =>
    have hclose : Triple (Owes w₀ f p left) (closeFd d) (fun _ => Owes w₀ f p (fdsOf hs ++ rest))
        fun _ => True := .update fun w hx => (hx.perm hp).closeFd
    exact hclose.bind fun _ => ih (List.Perm.refl _)

theorem call_obtains : Obtains call [stage] fun _ => [] := by
  intro w₀ f todo left
  refine ask_owes.bind fun a => ?_
  split
  · exact .pure fun _ hx => hx
  · exact .pure fun _ hx => ⟨stage, List.mem_cons_self, hx⟩
  · exact .throw fun _ _ => trivial

theorem openOne_obtains (hk : k ≠ .stream) :
    Obtains (openOne k) [stage] fun fd => fdsOf [fd.handle] := by
  intro w₀ f todo left
  refine ask_owes.bind fun a => ?_
  split
  · exact (openFd_owes hk).bind fun fd => .pure fun _ hx => hx
  · exact .pure fun _ hx => ⟨stage, List.mem_cons_self, hx⟩
  · exact .throw fun _ _ => trivial

theorem openPair_obtains (hk : k ≠ .stream) :
    Obtains (openPair k) [stage] fun p => fdsOf [p.1.handle, p.2.handle] := by
  intro w₀ f todo left
  refine ask_owes.bind fun a => ?_
  split
  · refine (openFd_owes hk).bind fun first => (openFd_owes hk).bind fun second => ?_
    exact .pure fun _ hx => hx.perm (List.Perm.swap ..)
  · exact .pure fun _ hx => ⟨stage, List.mem_cons_self, hx⟩
  · exact .throw fun _ _ => trivial

/-- What is done after a failure. -/
theorem broke_of_owes {m : M α} {stages : List Stage} (hm : ∀ stage,
    Triple (Owes w₀ f (.failed stage) left) m (fun _ => Owes w₀ f (.failed stage) rest) fun _ => True) :
    Triple (Broke w₀ f stages left) m (fun _ => Broke w₀ f stages rest) fun _ => True := by
  intro w hx
  obtain ⟨stage, hs, hx⟩ := hx
  have hw := hm stage w hx
  cases hr : m w with
  | ok a w' =>
    rw [hr] at hw
    exact ⟨stage, hs, hw⟩
  | error e w' => trivial

theorem Broke.mono {stages stages' : List Stage} (hx : Broke w₀ f stages left w)
    (hs : stages ⊆ stages') : Broke w₀ f stages' left w := by
  obtain ⟨stage, hmem, hx⟩ := hx
  exact ⟨stage, hs hmem, hx⟩

theorem openWhen_obtains {wanted : Bool} (hk : k ≠ .stream) :
    Obtains (openWhen wanted k) (stageIf wanted stage) (fun pair => fdsOf (pairHandles pair)) := by
  intro w₀ f todo left
  unfold openWhen
  cases wanted with
  | false => exact .pure fun _ hx => hx
  | true =>
    refine (openPair_obtains hk).bind fun r => ?_
    cases r with
    | ok pair => exact .pure fun _ hx => hx
    | error e => exact .pure fun _ hx => hx

theorem prepareRootfs_obtains {args : RunArgs} :
    Obtains (prepareRootfs args.rootfs) args.rootfsStages overlaysOf := by
  intro w₀ f todo left
  unfold prepareRootfs RunArgs.rootfsStages
  cases args.rootfs with
  | none => exact .pure fun _ hx => hx
  | some path =>
    refine call_obtains.bind fun r => ?_
    cases r with
    | error e => exact .pure fun _ hx => hx.mono (by simp)
    | ok _ =>
      refine call_obtains.bind fun r => ?_
      cases r with
      | error e => exact .pure fun _ hx => hx.mono (by simp)
      | ok _ =>
        refine Triple.of_eq fun w hx => Triple.get_bind (Triple.modify_bind (.pure fun s hs => ?_))
        subst hs
        exact { hx.overlay with }

theorem setns_obtains {pid : Pid} : Obtains (setns pid) [.namespaces, .namespaces] fun _ => [] := by
  intro w₀ f todo left
  refine call_obtains.bind fun r => ?_
  cases r with
  | error e => exact .pure fun _ hx => hx.mono (by simp)
  | ok _ =>
    refine (note_owes rfl).bind fun _ => call_obtains.bind fun r => ?_
    cases r with
    | error e => exact .pure fun _ hx => hx.mono (by simp)
    | ok _ => exact (note_owes rfl).bind fun _ => .pure fun _ hx => hx

theorem joinNamespaces_obtains {pid : Pid} : Obtains (joinNamespaces pid)
    [.namespaces, .namespaces, .namespaces, .namespaces] fun _ => [] := by
  intro w₀ f todo left
  refine (openOne_obtains (by decide)).bind fun r => ?_
  cases r with
  | error e => exact .pure fun _ hx => hx.mono (by simp)
  | ok user =>
    refine (openOne_obtains (by decide)).bind fun r => ?_
    cases r with
    | error e =>
      refine (broke_of_owes fun _ => closeAll_owes (List.Perm.refl _)).bind fun _ => ?_
      exact .pure fun _ hx => hx.mono (by simp)
    | ok net =>
      have hp : (fdsOf [net.handle] ++ (fdsOf [user.handle] ++ left)).Perm
          (fdsOf [net.handle, user.handle] ++ left) := List.Perm.refl _
      refine setns_obtains.bind fun r => ?_
      cases r with
      | error e =>
        refine (broke_of_owes fun _ => closeAll_owes hp).bind fun _ => ?_
        exact .pure fun _ hx => hx.mono (by simp)
      | ok _ => exact (closeAll_owes hp).bind fun _ => .pure fun _ hx => hx

theorem prepareNamespaces_obtains {args : RunArgs} :
    Obtains (prepareNamespaces args.netPid) args.namespaceStages fun _ => [] := by
  intro w₀ f todo left
  unfold prepareNamespaces RunArgs.namespaceStages
  cases args.netPid with
  | none => exact .pure fun _ hx => hx
  | some pid =>
    refine joinNamespaces_obtains.bind fun r => ?_
    cases r with
    | error e => exact .pure fun _ hx => hx
    | ok _ => exact .pure fun _ hx => hx

/-- A pair is opened when it is wanted. -/
theorem openWhen_wanted {wanted : Bool} {P : World → Prop} : Triple P (openWhen wanted k)
    (fun r _ => ∀ pair, r = .ok pair → pair.isSome = wanted) fun _ => True := by
  unfold openWhen
  cases wanted with
  | false =>
    refine .pure fun _ _ pair hp => ?_
    rw [← Except.ok.inj hp]
    rfl
  | true =>
    refine (Triple.any (openPair k)).bind fun r => ?_
    cases r with
    | ok pair =>
      refine .pure fun _ _ pair' hp => ?_
      rw [← Except.ok.inj hp]
      rfl
    | error e =>
      refine .pure fun _ _ pair hp => ?_
      cases hp

/-- The child needs maps unless it joins namespaces. -/
theorem prepareNamespaces_maps {netPid : Option Pid} {P : World → Prop} :
    Triple P (prepareNamespaces netPid)
      (fun r _ => ∀ maps, r = .ok maps → maps = netPid.isNone) fun _ => True := by
  unfold prepareNamespaces
  cases netPid with
  | none =>
    refine .pure fun _ _ maps hm => ?_
    exact (Except.ok.inj hm).symm
  | some pid =>
    refine (Triple.any (joinNamespaces pid)).bind fun r => ?_
    cases r with
    | error e =>
      refine .pure fun _ _ maps hm => ?_
      cases hm
    | ok _ =>
      refine .pure fun _ _ maps hm => ?_
      exact (Except.ok.inj hm).symm

private theorem prepareRootfs_wanted {rootfs : Option String} {P : World → Prop} :
    Triple P (prepareRootfs rootfs)
      (fun r _ => ∀ dir, r = .ok dir → dir.isSome = rootfs.isSome) fun _ => True := by
  have hfail : ∀ (e : String) (P : World → Prop), Triple P (pure (.error e) : M (Except String (Option ℕ)))
      (fun r _ => ∀ dir, r = .ok dir → dir.isSome = rootfs.isSome) fun _ => True := by
    intro e P
    refine .pure fun _ _ dir hd => ?_
    cases hd
  unfold prepareRootfs
  cases rootfs with
  | none =>
    refine .pure fun _ _ dir hd => ?_
    rw [← Except.ok.inj hd]
    rfl
  | some path =>
    refine (Triple.any call).bind fun r => ?_
    cases r with
    | error e => exact hfail _ _
    | ok _ =>
      refine (Triple.any call).bind fun r => ?_
      cases r with
      | error e => exact hfail _ _
      | ok _ =>
        refine (Triple.any get).bind fun w => (Triple.any (modify _)).bind fun _ => ?_
        refine .pure fun _ _ dir hd => ?_
        rw [← Except.ok.inj hd]
        rfl

end

structure Prepared (args : RunArgs) (prep : PreparedResources) : Prop where
  overlayDir : prep.overlayDir.isSome = args.rootfs.isSome
  deathPipe : prep.deathPipe.isSome = args.defaultInit
  maps : prep.needsUsernsMaps = args.netPid.isNone

def PreparedResources.signalFds (prep : PreparedResources) : List Handle :=
  [prep.signal.1.handle, prep.signal.2.handle]

def PreparedResources.resources (prep : PreparedResources) : List Resource :=
  fdsOf (pairHandles prep.deathPipe) ++ (fdsOf prep.signalFds ++ overlaysOf prep.overlayDir)

/-- A run that has failed, and whether nothing is left of it. -/
def Fails (w₀ : World) (f : Option Stage) (clean : Stage → Prop) (w : World) : Prop :=
  ∃ stage left, Owes w₀ f (.failed stage) left w ∧ (left = [] ↔ clean stage)

def RunArgs.begin (args : RunArgs) (client : Client) : Progress :=
  if args.noInit && args.initPath.isSome then .failed .options else .todo (args.stages client)

def RunArgs.laterStages (args : RunArgs) (client : Client) : List Stage :=
  stageIf (args.stdinPipe client) .stdinPipe ++ (stageIf (args.terminal client) .pty ++
    (stageIf (args.logPipe client) .logPipe ++ (.clone :: args.mapStages)))

section

variable {w₀ w : World} {f : Option Stage} {p : Progress} {left rest : List Resource}
  {args : RunArgs} {client : Client} {prep : PreparedResources}

theorem overlaysOf_eq_nil {dir : Option ℕ} (hd : dir.isSome = args.rootfs.isSome) :
    overlaysOf dir = [] ↔ args.rootfs = none := by
  cases dir <;> cases hr : args.rootfs <;> simp_all [overlaysOf]

theorem fdsOf_eq_nil {k : FileKind} {pair : Option (Fd k × Fd k)} {wanted : Bool}
    (hp : pair.isSome = wanted) : fdsOf (pairHandles pair) = [] ↔ wanted = false := by
  subst hp
  cases pair with
  | none => simp [fdsOf, pairHandles, firstHandles, secondHandles, firstOf, secondOf, RawFd.handles, RawFd.handle]
  | some pair => simp [fdsOf, pairHandles, firstHandles, firstOf, RawFd.handles, RawFd.handle]

/-- What is done after a failure that leaves the rest alone. -/
theorem fails_of_owes {m : M Unit} {clean : Stage → Prop} (hm : ∀ stage left,
    Triple (Owes w₀ f (.failed stage) left) m (fun _ => Owes w₀ f (.failed stage) left) fun _ => True) :
    Triple (Fails w₀ f clean) m (fun _ => Fails w₀ f clean) fun _ => True := by
  intro w hx
  obtain ⟨stage, left, hx, hc⟩ := hx
  have hw := hm stage left w hx
  cases hr : m w with
  | ok a w' =>
    rw [hr] at hw
    exact ⟨stage, left, hw, hc⟩
  | error e w' => trivial

theorem stageIf_mem {wanted : Bool} {stage needed : Stage} (hs : stage ∈ stageIf wanted needed) :
    stage = needed := by
  cases wanted with
  | false => cases hs
  | true => exact List.mem_singleton.mp hs

theorem stageIf_wanted {wanted : Bool} {stage needed : Stage} (hs : stage ∈ stageIf wanted needed) :
    wanted = true := by
  cases wanted with
  | false => cases hs
  | true => rfl

theorem Broke.fails {stages : List Stage} {clean : Stage → Prop} (hx : Broke w₀ f stages left w)
    (hc : ∀ stage ∈ stages, left = [] ↔ clean stage) : Fails w₀ f clean w := by
  obtain ⟨stage, hs, hx⟩ := hx
  exact ⟨stage, left, hx, hc stage hs⟩

theorem prepareRun_owes : Triple (Owes w₀ f (args.begin client) []) (prepareRun args)
    (fun r w => match r with
      | .ok prep => Owes w₀ f (.todo (args.laterStages client)) prep.resources w ∧ Prepared args prep
      | .error _ => Fails w₀ f (CleansUp args client) w) fun _ => True := by
  unfold prepareRun RunArgs.begin
  split_ifs with hc
  · exact .pure fun w hx => ⟨.options, [], hx, by simp [CleansUp]⟩
  · refine (prepareRootfs_obtains.and prepareRootfs_wanted).bind fun r => Triple.assume fun hd => ?_
    cases r with
    | error e =>
      refine .pure fun w hx => hx.fails fun stage hs => ?_
      unfold RunArgs.rootfsStages at hs
      split_ifs at hs
      · rcases List.mem_pair.mp hs with rfl | rfl <;> simp [CleansUp]
      · cases hs
    | ok overlayDir =>
      have hover := overlaysOf_eq_nil (hd overlayDir rfl)
      refine (openPair_obtains (by decide)).bind fun r => ?_
      cases r with
      | error e =>
        refine .pure fun w hx => hx.fails fun stage hs => ?_
        rw [List.mem_singleton.mp hs]
        simpa [CleansUp] using hover
      | ok signal =>
        have hsig (d : Option (Fd .pipe × Fd .pipe)) : (fdsOf (pairHandles d) ++ (fdsOf
            [signal.1.handle, signal.2.handle] ++ (overlaysOf overlayDir ++ []))).Perm
            (PreparedResources.resources ⟨overlayDir, signal, args.netPid.isNone, args.command, d⟩) := by
          rw [List.append_nil]
          exact List.Perm.refl _
        have hdrop : (fdsOf [signal.1.handle, signal.2.handle] ++ (overlaysOf overlayDir ++ [])).Perm
            (fdsOf [signal.1.handle, signal.2.handle] ++ overlaysOf overlayDir) := hsig none
        refine (prepareNamespaces_obtains.and prepareNamespaces_maps).bind fun r => Triple.assume fun hm => ?_
        cases r with
        | error e =>
          refine (broke_of_owes fun _ => closeAll_owes hdrop).bind fun _ => ?_
          refine .pure fun w hx => hx.fails fun stage hs => ?_
          unfold RunArgs.namespaceStages at hs
          split_ifs at hs
          · obtain rfl : stage = .namespaces := by simpa using hs
            exact hover
          · cases hs
        | ok maps =>
          obtain rfl := hm maps rfl
          refine ((openWhen_obtains (by decide)).and openWhen_wanted).bind fun r => Triple.assume fun hp => ?_
          cases r with
          | error e =>
            refine (broke_of_owes fun _ => closeAll_owes hdrop).bind fun _ => ?_
            refine .pure fun w hx => hx.fails fun stage hs => ?_
            rw [stageIf_mem hs]
            exact hover
          | ok deathPipe =>
            refine .pure fun w hx => ⟨hx.perm (hsig deathPipe), ?_⟩
            exact ⟨hd overlayDir rfl, hp deathPipe rfl, rfl⟩

theorem clone3Container_obtains : Obtains clone3Container [.clone] fun _ => [] := by
  intro w₀ f todo left
  refine ask_owes.bind fun a => ?_
  split
  · refine Triple.of_eq fun w hx => Triple.get_bind (Triple.ite (fun _ => ?_) fun _ => ?_)
    · refine Triple.modify_bind (.pure fun s hs => ?_)
      subst hs
      exact { hx.note (e := .started _) rfl with }
    · exact .throw fun _ _ => trivial
  · exact .pure fun _ hx => ⟨.clone, List.mem_cons_self, hx⟩
  · exact .throw fun _ _ => trivial

/-- Both ends of the signal are closed, whether or not the maps could be written. -/
theorem signalled_owes (hp : left.Perm (fdsOf prep.signalFds ++ rest)) (r : Except String Unit) :
    Triple (Got w₀ f [.maps] [] left (fun _ => []) r) (do
      dropSignal prep.signal
      match r with
      | .error e => pure (.error ("uid_map write failed: " ++ e))
      | .ok () => pure (.ok ()) : M (Except String Unit))
    (Got w₀ f [.maps] [] rest fun _ => []) fun _ => True := by
  cases r with
  | error e =>
    exact (broke_of_owes fun _ => closeAll_owes hp).bind fun _ => .pure fun _ hx => hx
  | ok _ => exact (closeAll_owes hp).bind fun _ => .pure fun _ hx => hx

theorem parentSetupMapsAndSignal_owes (hprep : Prepared args prep)
    (hp : left.Perm (fdsOf prep.signalFds ++ rest)) :
    Triple (Owes w₀ f (.todo args.mapStages) left) (parentSetupMapsAndSignal prep)
      (Got w₀ f [.maps] [] rest fun _ => []) fun _ => True := by
  unfold parentSetupMapsAndSignal RunArgs.mapStages
  rw [hprep.maps]
  cases args.netPid with
  | none => exact call_obtains.bind (signalled_owes hp)
  | some pid => exact Triple.bind (.pure fun _ hx => hx) (signalled_owes hp)

end

end Conrt.Daemon
