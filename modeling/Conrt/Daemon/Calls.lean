import Conrt.Daemon.Moves

/-! The moves of the system calls. -/
namespace Conrt.Daemon

open Conrt.Base

variable {τ : Terms} {h : List Token} {w w' w'' : World} {α β : Type} {b : List Token × World}

section

variable {f : α → M β} {P : β → List Token → World → Prop}

theorem ask_spec : Triple (· = w) ask
    (fun a w' => ∃ as, w.answers = a :: as ∧ w' = { w with answers := as }) fun _ => True := by
  unfold ask
  apply Triple.get_bind
  cases ha : w.answers with
  | nil => exact Triple.throw fun _ _ => trivial
  | cons a as =>
    refine Triple.modify_bind (Triple.pure fun s hs => ?_)
    exact ⟨as, rfl, hs⟩

/-- The next answer of the system, and those after it. -/
theorem ask_bind {f : Answer → M β} (hf : ∀ a as, w.answers = a :: as →
    Trail (Move τ) b { w with answers := as } (f a) P) :
    Trail (Move τ) b w (ask >>= f) P := by
  refine Trail.exec ask_spec fun a w' hw => ?_
  obtain ⟨as, ha, rfl⟩ := hw
  exact hf a as ha

theorem idle_answers (as : List Answer) : Move τ (h, w) (h, { w with answers := as }) :=
  .idle as w.nextOverlay

theorem submit_bind {loc : OpLocal} {fd : Option Handle} {want : ℕ} {f : Option ℕ → M β}
    (hf : ∀ as ok, w.answers = .submit ok :: as →
      Trail (Move τ) b (World.submit { w with answers := as } loc fd want ok)
        (f (if ok then some w.nextOp else none)) P) :
    Trail (Move τ) b w (submit loc fd want >>= f) P := by
  unfold submit
  rw [bind_assoc]
  refine ask_bind fun a as ha => ?_
  cases a with
  | submit ok =>
    rw [bind_assoc]
    refine Trail.get_bind ?_
    rw [bind_assoc]
    refine Trail.modify_bind ?_
    rw [pure_bind]
    exact hf as ok ha
  | _ => exact Trail.throw

/-- A submission whose handle is not kept. -/
theorem submit_discard {loc : OpLocal} {fd : Option Handle} {want : ℕ}
    {P : Unit → List Token → World → Prop}
    (hf : ∀ as ok, w.answers = .submit ok :: as →
      Trail (Move τ) b (World.submit { w with answers := as } loc fd want ok)
        (pure () : M Unit) P) :
    Trail (Move τ) b w (discard <| submit loc fd want) P := by
  have hbind : (discard <| submit loc fd want) = (submit loc fd want >>= fun _ => pure ()) := rfl
  rw [hbind]
  exact submit_bind hf

theorem note_bind {e : Entry} {f : Unit → M β} (hf : Trail (Move τ) b (w.note e) (f ()) P) :
    Trail (Move τ) b w (note e >>= f) P := Trail.modify_bind hf

theorem beginFrame_bind {stream : Fd .stream} {frame : Frame} {loc : OpLocal} {want : ℕ}
    {f : Option ℕ → M β} (hf : ∀ as ok, w.answers = .submit ok :: as →
      Trail (Move τ) b (World.beginFrame { w with answers := as } stream frame loc want ok)
        (f (if ok then some w.nextOp else none)) P) :
    Trail (Move τ) b w (beginFrame stream frame loc want >>= f) P := by
  unfold beginFrame
  rw [bind_assoc]
  refine submit_bind fun as ok ha => ?_
  have hok := hf as ok ha
  cases ok with
  | true =>
    simp only [if_true, bind_assoc, pure_bind]
    exact note_bind hok
  | false =>
    simp only [Bool.false_eq_true, if_false, pure_bind]
    exact hok

theorem openFd_bind {k : FileKind} {n : ℕ} {f : Fd k → M β}
    (hf : w.fds.lookup n = none →
      Trail (Move τ) b (w.openFd k n) (f ⟨n, w.nextGen⟩) P) :
    Trail (Move τ) b w (openFd k n >>= f) P := by
  unfold openFd
  rw [bind_assoc]
  refine Trail.get_bind ?_
  split_ifs with hn
  · rw [bind_assoc]
    refine Trail.modify_bind ?_
    rw [pure_bind]
    exact hf hn
  · exact Trail.throw

theorem findSession_bind {sid : ℕ} {f : Option AttachSession → M β}
    (hf : Trail (Move τ) b w (f (w.g.attachSessions.lookup sid)) P) :
    Trail (Move τ) b w (findSession sid >>= f) P := by
  unfold findSession
  rw [bind_assoc]
  refine Trail.get_bind ?_
  rw [pure_bind]
  exact hf

theorem findContainer_bind {pid : Pid} {f : Option ContainerInfo → M β}
    (hf : Trail (Move τ) b w (f (w.g.containers.lookup pid)) P) :
    Trail (Move τ) b w (findContainer pid >>= f) P := by
  unfold findContainer
  rw [bind_assoc]
  refine Trail.get_bind ?_
  rw [pure_bind]
  exact hf

end

/-- Entries that say nothing about what was written or about any child or session. -/
def Entry.Quiet : Entry → Prop
  | .opened _ | .closed _ _ | .overlayRemoved _ => True
  | e => e.Plain

/-- Nothing has happened but system calls. -/
structure Kept (w w' : World) : Prop where
  g : w'.g = w.g
  ops : w'.ops = w.ops
  children : w'.children = w.children
  answers : w'.answers ⊆ w.answers
  trace : ∃ es, w'.trace = w.trace ++ es ∧ ∀ e ∈ es, e.Quiet

namespace Kept

theorem refl : Kept w w := ⟨rfl, rfl, rfl, List.Subset.refl _, [], by simp, by simp⟩

theorem trans (h₁ : Kept w w') (h₂ : Kept w' w'') : Kept w w'' where
  g := h₂.g.trans h₁.g
  ops := h₂.ops.trans h₁.ops
  children := h₂.children.trans h₁.children
  answers _ ha := h₁.answers (h₂.answers ha)
  trace := by
    obtain ⟨es, he, hq⟩ := h₁.trace
    obtain ⟨es', he', hq'⟩ := h₂.trace
    refine ⟨es ++ es', by rw [he', he, List.append_assoc], fun e hmem => ?_⟩
    rcases List.mem_append.mp hmem with hmem | hmem
    · exact hq e hmem
    · exact hq' e hmem

theorem spend {a : Answer} {as : List Answer} (ha : w.answers = a :: as) :
    Kept w { w with answers := as } :=
  ⟨rfl, rfl, rfl, by rw [ha]; exact List.subset_cons_self _ _, [], by simp, by simp⟩

theorem of_note {e : Entry} (he : e.Quiet) (hg : w'.g = w.g) (hops : w'.ops = w.ops)
    (hch : w'.children = w.children) (ha : w'.answers = w.answers)
    (htr : w'.trace = w.trace ++ [e]) : Kept w w' :=
  ⟨hg, hops, hch, ha ▸ List.Subset.refl _, [e], htr, by simpa using he⟩

theorem note {e : Entry} (he : e.Quiet) : Kept w (w.note e) := of_note he rfl rfl rfl rfl rfl

theorem openFd (k : FileKind) (n : ℕ) : Kept w (w.openFd k n) :=
  of_note (e := .opened (n, ⟨k, w.nextGen⟩)) trivial rfl rfl rfl rfl rfl

theorem closeFd (d : Handle) : Kept w (w.closeFd d) :=
  of_note (e := .closed d (w.file (some d))) trivial rfl rfl rfl rfl rfl

variable (k : Kept w w')
include k

theorem exitOf (pid : Pid) : exitOf pid w'.trace = exitOf pid w.trace := by
  obtain ⟨es, he, hq⟩ := k.trace
  rw [he, exitOf_append]
  clear he
  induction es using List.reverseRecOn with
  | nil => rfl
  | append_singleton es e ih =>
    rw [List.foldl_append, ih fun e' he' => hq e' (List.mem_append_left _ he')]
    have he := hq e (by simp)
    cases e <;> first | rfl | exact he.elim

theorem framesOn (f : File) : framesOn f w'.trace = framesOn f w.trace := by
  obtain ⟨es, he, hq⟩ := k.trace
  rw [he, framesOn_append]
  have hnil : Daemon.framesOn f es = [] := by
    refine List.filterMap_eq_nil_iff.mpr fun e hmem => ?_
    have he := hq e hmem
    cases e <;> first | rfl | exact he.elim
  rw [hnil, List.append_nil]

theorem bytesOn (f : File) : bytesOn f w'.trace = bytesOn f w.trace := by
  obtain ⟨es, he, hq⟩ := k.trace
  rw [he, bytesOn_append]
  have hnil : Daemon.bytesOn f es = [] := by
    refine List.flatMap_eq_nil_iff.mpr fun e hmem => ?_
    have he := hq e hmem
    cases e <;> first | rfl | exact he.elim
  rw [hnil, List.append_nil]

theorem exitBytes (sid : ℕ) : exitBytes sid w'.trace = exitBytes sid w.trace := by
  obtain ⟨es, he, hq⟩ := k.trace
  rw [he, exitBytes_append]
  have hnil : Daemon.exitBytes sid es = [] := by
    refine List.flatMap_eq_nil_iff.mpr fun e hmem => ?_
    have he := hq e hmem
    cases e <;> first | rfl | exact he.elim
  rw [hnil, List.append_nil]

theorem mem_trace {e : Entry} (he : ¬ e.Quiet) : e ∈ w'.trace ↔ e ∈ w.trace := by
  obtain ⟨es, htr, hq⟩ := k.trace
  rw [htr, List.mem_append]
  exact or_iff_left fun hmem => he (hq e hmem)

end Kept

/-- The descriptors a successful call returns. -/
def okHandles (f : α → List Handle) : Except String α → List Handle
  | .ok a => f a
  | .error _ => []

/-- A call that returns `f`'s descriptors when it succeeds. -/
abbrev Calls (τ : Terms) (h : List Token) (w : World) (m : M (Except String α))
    (f : α → List Handle) : Prop :=
  Trail (Move τ) (h, w) w m fun r h' w' => h' = holdFresh (okHandles f r) ++ h ∧ Kept w w'

/-- A call that leaves what is in hand alone. -/
abbrev Spares (τ : Terms) (h : List Token) (w : World) (m : M α) : Prop :=
  Trail (Move τ) (h, w) w m fun _ h' w' => h' = h ∧ Kept w w'

theorem call_calls : Calls τ h w call fun _ => [] := by
  refine ask_bind fun a as ha => (Trail.move (idle_answers as) ?_)
  split
  · exact Trail.pure ⟨rfl, .spend ha⟩
  · exact Trail.pure ⟨rfl, .spend ha⟩
  · exact Trail.throw

theorem now_spares : Spares τ h w now := by
  refine ask_bind fun a as ha => (Trail.move (idle_answers as) ?_)
  split
  · exact Trail.pure ⟨rfl, .spend ha⟩
  · exact Trail.throw

theorem staleBytes_spares : Spares τ h w staleBytes := by
  refine ask_bind fun a as ha => (Trail.move (idle_answers as) ?_)
  split
  · exact Trail.pure ⟨rfl, .spend ha⟩
  · exact Trail.throw

theorem note_spares {e : Entry} (he : e.Plain) : Spares τ h w (note e) := by
  refine Trail.update (.note he) ⟨rfl, .note ?_⟩
  cases e <;> first | exact he | exact he.elim

section

variable {k : FileKind}

theorem openOne_calls : Calls τ h w (openOne k) fun fd => [fd.handle] := by
  refine ask_bind fun a as ha => (Trail.move (idle_answers as) ?_)
  split
  · refine openFd_bind fun hn => Trail.move (.acquire (k := k) hn) ?_
    exact Trail.pure ⟨rfl, (Kept.spend ha).trans (.openFd ..)⟩
  · exact Trail.pure ⟨rfl, .spend ha⟩
  · exact Trail.throw

/-- The second descriptor of a pair stands for what it was opened as. -/
theorem openPair_trail : Trail (Move τ) (h, w) w (openPair k) fun r h' w' =>
    (h' = holdFresh (okHandles (fun p => [p.2.handle, p.1.handle]) r) ++ h ∧ Kept w w') ∧
      ∀ p, r = .ok p → w'.file (some p.2.handle) = some p.2.handle.2 := by
  refine ask_bind fun a as ha => (Trail.move (idle_answers as) ?_)
  split
  · refine openFd_bind fun hn => Trail.move (.acquire (k := k) hn) ?_
    refine openFd_bind fun hn' => Trail.move (.acquire (k := k) hn') ?_
    refine Trail.pure ⟨⟨rfl, ((Kept.spend ha).trans (.openFd ..)).trans (.openFd ..)⟩, ?_⟩
    rintro p hp
    obtain rfl := Except.ok.inj hp
    exact AList.lookup_insert _
  · refine Trail.pure ⟨⟨rfl, .spend ha⟩, ?_⟩
    rintro p hp
    cases hp
  · exact Trail.throw

theorem openPair_calls : Calls τ h w (openPair k) fun p => [p.2.handle, p.1.handle] :=
  openPair_trail.post fun _ _ _ hw => hw.1

end

theorem closeHeld_spares {hs : List Handle} :
    Trail (Move τ) (hold hs ++ h, w) w (closeAll hs) fun _ h' w' => h' = h ∧ Kept w w' := by
  induction hs generalizing w with
  | nil => exact Trail.pure ⟨rfl, .refl⟩
  | cons d hs ih =>
    refine Trail.modify_bind (Trail.move (.release rfl) ?_)
    refine ih.post fun _ h' w' hw => ?_
    exact ⟨hw.1, (Kept.closeFd d).trans hw.2⟩

theorem closeFresh_spares {hs : List Handle} :
    Trail (Move τ) (holdFresh hs ++ h, w) w (closeAll hs) fun _ h' w' => h' = h ∧ Kept w w' := by
  induction hs generalizing w with
  | nil => exact Trail.pure ⟨rfl, .refl⟩
  | cons d hs ih =>
    refine Trail.modify_bind (Trail.move (.release rfl) ?_)
    refine ih.post fun _ h' w' hw => ?_
    exact ⟨hw.1, (Kept.closeFd d).trans hw.2⟩

/-- Fresh descriptors may be left behind. -/
theorem forgetFresh {hs : List Handle} : Path τ (holdFresh hs ++ h, w) (h, w) := by
  induction hs with
  | nil => exact .refl
  | cons d hs ih => exact (Relation.ReflTransGen.single .forget).trans ih

/-- Closing some of the fresh descriptors held, wherever they are. -/
theorem closeSome {hs : List Handle} {h' : List Token} (hp : (holdFresh hs ++ h').Perm h) :
    Trail (Move τ) (h, w) w (closeAll hs) fun _ h'' w' => h'' = h' ∧ Kept w w' :=
  Trail.move (.perm hp) closeFresh_spares

end Conrt.Daemon
