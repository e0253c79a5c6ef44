import Conrt.Base.Run
import Conrt.Coio.Runs
import Conrt.Coio.Sane

/-! Buffer delivery: the slice a shim is given is the slice its op was registered with. -/
namespace Conrt.Coio

open Conrt.Base

variable {L : Type} {v v' : View L} {A A' : BufArena}

/-- An op whose shim has yet to run, with the run and the buffers it was registered with. -/
structure Due where
  id : ℕ
  run : Option (ℕ × ℕ)
  bufs : List IoBufErased

namespace Due

/-- The run a due op holds in the arena. -/
def held (d : Due) : Option Run := d.run.bind fun r => (classFor r.2).map (Run.mk r.1)

/-- The arena `A` holds what the op was registered with. -/
def Kept (d : Due) (A : BufArena) : Prop :=
  A.bufsOf d.run = some d.bufs ∧ ∀ r, d.run = some r → ∃ cls, classFor r.2 = some cls

theorem held_some {d : Due} {start len cls : ℕ} (hr : d.run = some (start, len))
    (hc : classFor len = some cls) : d.held = some ⟨start, cls⟩ := by
  simp [held, hr, hc]

/-- What one arena keeps of a due op, another keeps if the slice of its run did not change. -/
theorem Kept.mono {d : Due} (h : d.Kept A)
    (hs : ∀ start len cls, d.run = some (start, len) → classFor len = some cls →
      A.slice start len = some d.bufs → A'.slice start len = some d.bufs) : d.Kept A' := by
  refine ⟨?_, h.2⟩
  have h1 := h.1
  cases hr : d.run with
  | none => rwa [hr] at h1
  | some r =>
    rw [hr] at h1
    obtain ⟨cls, hc⟩ := h.2 r hr
    exact hs r.1 r.2 cls hr hc h1

end Due

/-- `due` lists the ops whose buffers the arena `A` holds; every op with its local still in place is
among them, and every shim that ran was given what its op was registered with. -/
structure Owes (A : BufArena) (due : List Due) (v : View L) : Prop where
  sane : v.Sane
  covered : ∀ i o, v.op i = some o → o.loc.isSome → ∃ bufs, ⟨o.id, o.run, bufs⟩ ∈ due
  given : ∀ d ∈ due, ∃ shim done loc, .registered d.id shim done loc d.bufs ∈ v.log
  kept : ∀ d ∈ due, d.Kept A
  apart : (due.map (·.id)).Nodup
  books : ∃ idle, A.Wf (due.filterMap Due.held) idle
  shims : ∀ id shim args, .shim id shim args ∈ v.log →
    ∃ shim' done loc, .registered id shim' done loc args.bufs ∈ v.log

/-- Between events the arena in place holds the buffers of every due op. -/
def Delivers (v : View L) : Prop := ∃ due, Owes v.arena due v

theorem wf_safe {held idle : List Run} (h : A.Wf held idle) : ArenaSafe (· ≠ .arena) A := by
  intro bufs
  refine ⟨fun e he => ?_, fun run arena e hrun he => ?_⟩
  · rintro rfl
    rcases h.allocBufRun bufs with ha | ⟨-, ha⟩ | ⟨start, arena', cls, idle', ha, -⟩ <;>
      rw [ha] at he <;> cases he
  · rintro rfl
    rcases h.allocBufRun bufs with ha | ⟨-, ha⟩ | ⟨start, arena', cls, idle', ha, hc, hwf, -⟩
    · rw [ha] at hrun
      cases hrun
    · rw [ha] at hrun
      obtain ⟨rfl, rfl⟩ := Prod.mk.inj (Except.ok.inj hrun)
      cases he
    · rw [ha] at hrun
      obtain ⟨rfl, rfl⟩ := Prod.mk.inj (Except.ok.inj hrun)
      obtain ⟨arena'', hrel, -⟩ := hwf.release hc
      rw [BufArena.giveBack, hrel] at he
      cases he

def Call.carriesRun : Call L → Bool
  | .register _ _ _ _ bufs accepted => accepted && bufs != []
  | .cancel .. => false

/-- Such calls leave no run in a scratch arena. -/
theorem Call.Effect.scratch {call : Call L} (he : call.Effect v v') (hn : call.carriesRun = false)
    (hw : ∃ idle, v.arena.Wf [] idle) : ∃ idle, v'.arena.Wf [] idle := by
  obtain ⟨idle, hwf⟩ := hw
  cases call with
  | register shim done loc cls bufs accepted =>
    obtain ⟨run, arena, ha, -, he⟩ := he
    rcases he with ⟨rfl, i, hi, rfl⟩ | ⟨-, arena', hrel, rfl⟩
    · have hb : bufs = [] := by simpa [Call.carriesRun] using hn
      subst hb
      obtain ⟨rfl, rfl⟩ := Prod.mk.inj (Except.ok.inj ha)
      exact ⟨idle, hwf⟩
    · rcases hwf.allocBufRun bufs with hx | ⟨rfl, hx⟩ | ⟨start, arena₁, c, idle₁, hx, hc, hwf₁, -⟩
      · rw [hx] at ha
        cases ha
      · rw [hx] at ha
        obtain ⟨rfl, rfl⟩ := Prod.mk.inj (Except.ok.inj ha)
        obtain rfl := Except.ok.inj hrel
        exact ⟨idle, hwf⟩
      · rw [hx] at ha
        obtain ⟨rfl, rfl⟩ := Prod.mk.inj (Except.ok.inj ha)
        obtain ⟨arena'', hrel', hwf₂, -⟩ := hwf₁.release hc
        obtain rfl := Except.ok.inj (hrel'.symm.trans hrel)
        exact ⟨_, hwf₂⟩
  | cancel op loc done accepted =>
    refine ⟨idle, ?_⟩
    rcases he with ⟨-, rfl⟩ | ⟨-, rfl⟩ | ⟨-, j, o, -, -, -, -, -, rfl⟩ <;> exact hwf

namespace Owes

variable {due : List Due}

theorem start : Owes BufArena.new [] (Runtime.new : Runtime L).view :=
  ⟨View.Sane.start, by simp [Runtime.view, Runtime.new], by simp, by simp, List.nodup_nil,
    ⟨[], BufArena.Wf.new⟩, by simp [Runtime.view, Runtime.new]⟩

/-- Steps that register nothing, run no shim and give no op its local back owe the same. -/
theorem congr (h : Owes A due v) (hs : v'.Sane)
    (hop : ∀ i o', v'.op i = some o' → o'.loc.isSome →
      ∃ o, v.op i = some o ∧ o.loc.isSome ∧ o.id = o'.id ∧ o.run = o'.run)
    (hreg : ∀ e ∈ v.log, e ∈ v'.log)
    (hshim : ∀ id shim args, .shim id shim args ∈ v'.log → .shim id shim args ∈ v.log) :
    Owes A due v' := by
  refine ⟨hs, fun i o' ho' hl => ?_, fun d hd => ?_, h.kept, h.apart, h.books, ?_⟩
  · obtain ⟨o, ho, hol, hid, hrun⟩ := hop i o' ho' hl
    rw [← hid, ← hrun]
    exact h.covered i o ho hol
  · obtain ⟨s, d', l, hm⟩ := h.given d hd
    exact ⟨s, d', l, hreg _ hm⟩
  · intro id shim args hm
    obtain ⟨s, d, l, hr⟩ := h.shims id shim args (hshim id shim args hm)
    exact ⟨s, d, l, hreg _ hr⟩

def isShim : Entry L → Bool
  | .shim .. => true
  | _ => false

theorem push (h : Owes A due v) {entry : Entry L} (hr : entry.isRegistered = false)
    (hs : isShim entry = false) : Owes A due (v.push entry) := by
  refine h.congr (h.sane.push hr) (fun i o ho hl => ⟨o, ho, hl, rfl, rfl⟩)
    (fun e he => List.mem_append_left _ he) fun id shim args hm => ?_
  rcases mem_push.mp hm with hm | rfl
  · exact hm
  · cases hs

/-- Another arena will do if it keeps the same runs and their contents. -/
theorem arena (h : Owes A due v) (hk : ∀ d ∈ due, d.Kept A')
    (hb : ∃ idle, A'.Wf (due.filterMap Due.held) idle) : Owes A' due v :=
  ⟨h.sane, h.covered, h.given, hk, h.apart, hb, h.shims⟩

theorem id_lt (h : Owes A due v) {d : Due} (hd : d ∈ due) : d.id < v.nextOpId := by
  obtain ⟨s, d', l, hm⟩ := h.given d hd
  exact h.sane.logged _ _ _ _ _ hm

/-- The run of a due op is one of those the arena holds. -/
theorem mem_held {d : Due} (hd : d ∈ due) {start len cls : ℕ} (hr : d.run = some (start, len))
    (hc : classFor len = some cls) : ⟨start, cls⟩ ∈ due.filterMap Due.held :=
  List.mem_filterMap.mpr ⟨d, hd, Due.held_some hr hc⟩

/-- A registration adds its op to what is due. -/
theorem register (h : Owes A due v) {i shim done : ℕ} {loc : L} {bufs : List IoBufErased}
    {run : Option (ℕ × ℕ)} (arena : BufArena) (hi : v.op i = none)
    (hk : Due.Kept ⟨v.nextOpId, run, bufs⟩ A')
    (hold : ∀ d ∈ due, d.Kept A')
    (hb : ∃ idle, A'.Wf ((⟨v.nextOpId, run, bufs⟩ :: due).filterMap Due.held) idle) :
    Owes A' (⟨v.nextOpId, run, bufs⟩ :: due) (v.register i shim done loc bufs run arena) := by
  have hmem : ∀ e ∈ v.log, e ∈ (v.register i shim done loc bufs run arena).log := fun e he =>
    List.mem_append_left _ he
  have hnew : .registered v.nextOpId shim done loc bufs ∈
      (v.register i shim done loc bufs run arena).log :=
    List.mem_append_right _ List.mem_cons_self
  refine ⟨h.sane.register hi shim done loc bufs run arena, ?_, ?_, ?_, ?_, hb, ?_⟩
  · intro j o ho hl
    rw [View.register_op] at ho
    split_ifs at ho with hj
    · exact ⟨bufs, Option.some.inj ho ▸ List.mem_cons_self⟩
    · obtain ⟨b, hb⟩ := h.covered j o ho hl
      exact ⟨b, List.mem_cons_of_mem _ hb⟩
  · intro d hd
    rcases List.mem_cons.mp hd with rfl | hd
    · exact ⟨shim, done, loc, hnew⟩
    · obtain ⟨s, d', l, hm⟩ := h.given d hd
      exact ⟨s, d', l, hmem _ hm⟩
  · exact List.forall_mem_cons.mpr ⟨hk, hold⟩
  · refine List.nodup_cons.mpr ⟨fun hm => ?_, h.apart⟩
    obtain ⟨d, hd, hid⟩ := List.mem_map.mp hm
    have hlt := h.id_lt hd
    simp only at hid
    omega
  · intro id s args hm
    rcases List.mem_append.mp hm with hm | hm
    · obtain ⟨s', d, l, hr⟩ := h.shims id s args hm
      exact ⟨s', d, l, hmem _ hr⟩
    · simp at hm

/-- A refused registration leaves no run and no shim behind. -/
theorem refuse (h : Owes A due v) {bufs : List IoBufErased} (arena : BufArena)
    (hs : (v.refuse bufs arena).Sane) : Owes A due (v.refuse bufs arena) :=
  h.congr hs (fun _ o ho hl => ⟨o, ho, hl, rfl, rfl⟩) (fun _ he => List.mem_append_left _ he)
    fun id s args hm => by simpa [View.refuse] using hm

theorem cancel (h : Owes A due v) {op : Op} {loc : L} {done : ℕ} {accepted : Bool}
    (he : (Call.cancel op loc done accepted).Effect v v') : Owes A due v' := by
  have hs := h.sane.effect he
  rcases he with ⟨-, rfl⟩ | ⟨-, rfl⟩ | ⟨-, j, o, ho, -, -, -, -, rfl⟩
  · exact h.congr hs (fun _ o ho hl => ⟨o, ho, hl, rfl, rfl⟩)
      (fun _ he => List.mem_append_left _ (List.mem_append_left _ he)) fun id s args hm => by
        simpa [View.rejectCancel] using hm
  · exact h.congr hs (fun _ o ho hl => ⟨o, ho, hl, rfl, rfl⟩)
      (fun _ he => List.mem_append_left _ (List.mem_append_left _ he)) fun id s args hm => by
        simpa [View.refuseCancel] using hm
  · refine h.congr hs (fun i o' ho' hl => ?_) (fun _ he => List.mem_append_left _ he)
      fun id s args hm => by simpa [View.acceptCancel] using hm
    have hop : (v.acceptCancel j op done loc o).op i =
        if i = op.slot then some { o with pending := true } else v.op i := Function.update_apply ..
    rw [hop] at ho'
    split_ifs at ho' with hi
    · obtain rfl := Option.some.inj ho'
      exact ⟨o, hi ▸ ho, hl, rfl, rfl⟩
    · exact ⟨o', ho', hl, rfl, rfl⟩

/-- A call made while the arena is in place. -/
theorem effect (h : Owes v.arena due v) {call : Call L} (he : call.Effect v v') :
    ∃ new, Owes v'.arena (new ++ due) v' := by
  have hs := h.sane.effect he
  obtain ⟨idle, hwf⟩ := h.books
  cases call with
  | register shim done loc cls bufs accepted =>
    obtain ⟨run, arena, ha, -, he⟩ := he
    rcases hwf.allocBufRun bufs with hx | ⟨rfl, hx⟩ | ⟨start, arena₁, c, idle₁, hx, hc, hwf₁, hsl, hkeep⟩
    · rw [hx] at ha
      cases ha
    · rw [hx] at ha
      obtain ⟨rfl, rfl⟩ := Prod.mk.inj (Except.ok.inj ha)
      rcases he with ⟨-, i, hi, rfl⟩ | ⟨-, arena', hrel, rfl⟩
      · refine ⟨[_], h.register _ hi ⟨rfl, by simp⟩ h.kept ⟨idle, ?_⟩⟩
        exact hwf
      · obtain rfl := Except.ok.inj hrel
        exact ⟨[], h.refuse _ hs⟩
    · rw [hx] at ha
      obtain ⟨rfl, rfl⟩ := Prod.mk.inj (Except.ok.inj ha)
      have hold : ∀ d ∈ due, d.Kept arena₁ := fun d hd =>
        (h.kept d hd).mono fun s n cls' hr hcls hsl' =>
          hkeep _ (mem_held hd hr hcls) n d.bufs (classFor_eq_some hcls).2 hsl'
      rcases he with ⟨-, i, hi, rfl⟩ | ⟨-, arena', hrel, rfl⟩
      · refine ⟨[_], h.register _ hi ⟨hsl, ?_⟩ hold ⟨idle₁, ?_⟩⟩
        · rintro _ ⟨⟩
          exact ⟨c, hc⟩
        · have hd : Due.held ⟨v.nextOpId, some (start, bufs.length), bufs⟩ = some ⟨start, c⟩ :=
            Due.held_some rfl hc
          rw [List.filterMap_cons, hd]
          exact hwf₁
      · obtain ⟨arena'', hrel', hwf₂, hkeep₂⟩ := hwf₁.release_slice hc
        obtain rfl := Except.ok.inj (hrel'.symm.trans hrel)
        refine ⟨[], (h.arena ?_ ⟨_, hwf₂⟩).refuse _ hs⟩
        exact fun d hd => (hold d hd).mono fun s n cls' hr hcls hsl' =>
          hkeep₂ _ (mem_held hd hr hcls) n d.bufs (classFor_eq_some hcls).2 hsl'
  | cancel op loc done accepted =>
    refine ⟨[], ?_⟩
    have harena : v'.arena = v.arena := by
      rcases he with ⟨-, rfl⟩ | ⟨-, rfl⟩ | ⟨-, j, o, -, -, -, -, -, rfl⟩ <;> rfl
    rw [harena]
    exact h.cancel he

/-- A call made by a shim, which works on a scratch arena: what is due stays in the parked one as
long as the call registers no buffers. -/
theorem parked (h : Owes A due v) {call : Call L} (hn : call.carriesRun = false)
    (he : call.Effect v v') : ∃ new, Owes A (new ++ due) v' := by
  have hs := h.sane.effect he
  cases call with
  | register shim done loc cls bufs accepted =>
    obtain ⟨run, arena, ha, -, he⟩ := he
    rcases he with ⟨rfl, i, hi, rfl⟩ | ⟨-, arena', hrel, rfl⟩
    · have hb : bufs = [] := by simpa [Call.carriesRun] using hn
      subst hb
      obtain ⟨rfl, rfl⟩ := Prod.mk.inj (Except.ok.inj ha)
      exact ⟨[_], h.register _ hi ⟨rfl, by simp⟩ h.kept h.books⟩
    · exact ⟨[], h.refuse _ hs⟩
  | cancel op loc done accepted => exact ⟨[], h.cancel he⟩

/-- Paying an op out: its run goes back to the arena and it is due no longer. -/
theorem pay (h : Owes A due v) {d : Due} (hd : d ∈ due)
    (hgone : ∀ j o, v.op j = some o → o.id ≠ d.id) :
    ∃ arena, A.giveBack d.run = .ok arena ∧ Delivers { v with arena := arena } := by
  obtain ⟨l₁, l₂, rfl⟩ := List.append_of_mem hd
  obtain ⟨idle, hwf⟩ := h.books
  have hkept := h.kept d hd
  have hrest : ∀ d' ∈ l₁ ++ l₂, d' ∈ l₁ ++ d :: l₂ := fun d' hd' => by
    rcases List.mem_append.mp hd' with hd' | hd' <;> simp [hd']
  have hpaid : ∀ arena, (∀ d' ∈ l₁ ++ l₂, d'.Kept arena) →
      (∃ idle, arena.Wf ((l₁ ++ l₂).filterMap Due.held) idle) →
      Owes arena (l₁ ++ l₂) { v with arena := arena } := by
    intro arena hk hb
    refine ⟨h.sane.congr (fun _ o ho => ⟨o, ho, rfl⟩) rfl h.sane.armed le_rfl
      fun _ _ _ _ _ hm => hm, fun i o ho hl => ?_, fun d' hd' => h.given d' (hrest d' hd'), hk, ?_,
      hb, h.shims⟩
    · obtain ⟨bufs, hm⟩ := h.covered i o ho hl
      refine ⟨bufs, ?_⟩
      rcases List.mem_append.mp hm with hm | hm
      · exact List.mem_append_left _ hm
      · rcases List.mem_cons.mp hm with heq | hm
        · exact absurd (congrArg Due.id heq) (hgone i o ho)
        · exact List.mem_append_right _ hm
    · have hnd := h.apart
      rw [List.map_append, List.map_cons] at hnd
      rw [List.map_append]
      exact (List.nodup_cons.mp (List.nodup_middle.mp hnd)).2
  cases hr : d.run with
  | none =>
    refine ⟨A, rfl, _, hpaid A (fun d' hd' => h.kept d' (hrest d' hd')) ⟨idle, ?_⟩⟩
    have hheld : d.held = none := by simp [Due.held, hr]
    simpa [List.filterMap_append, hheld] using hwf
  | some r =>
    obtain ⟨cls, hc⟩ := hkept.2 r hr
    have hheld : d.held = some ⟨r.1, cls⟩ := Due.held_some hr hc
    have hperm : ((l₁ ++ d :: l₂).filterMap Due.held).Perm
        (⟨r.1, cls⟩ :: (l₁ ++ l₂).filterMap Due.held) := by
      rw [List.filterMap_append, List.filterMap_cons, hheld, List.filterMap_append]
      exact List.perm_middle
    obtain ⟨arena, hrel, hwf', hkeep⟩ := (hwf.mono_perm hperm).release_slice hc
    refine ⟨arena, hrel, _, hpaid arena (fun d' hd' => ?_) ⟨_, hwf'⟩⟩
    exact (h.kept d' (hrest d' hd')).mono fun s n cls' hr' hc' hsl =>
      hkeep _ (mem_held hd' hr' hc') n d'.bufs (classFor_eq_some hc').2 hsl

end Owes

section

variable {rt : Runtime L} {due : List Due} {d : Due} {i : ℕ} {o : LiveOp L}

/-- While op `i` is being completed its buffers stay due. -/
structure Completing (d : Due) (i : ℕ) (v : View L) : Prop where
  owes : ∃ due, d ∈ due ∧ Owes v.arena due v
  busy : ∃ o, v.op i = some o ∧ o.id = d.id ∧ o.loc = none
  unarmed : ∀ id, (i, id) ∉ v.backend.armed

/-- While the shim runs, what is due stays in the parked arena. -/
structure Parked (A : BufArena) (d : Due) (v : View L) : Prop where
  owes : ∃ due, d ∈ due ∧ Owes A due v
  gone : ∀ j o, v.op j = some o → o.id ≠ d.id
  scratch : ∃ idle, v.arena.Wf [] idle

theorem Parked.effect (h : Parked A d v) {call : Call L} (hn : call.carriesRun = false)
    (he : call.Effect v v') : Parked A d v' := by
  obtain ⟨due, hd, howes⟩ := h.owes
  obtain ⟨new, howes'⟩ := howes.parked hn he
  refine ⟨⟨_, List.mem_append_right _ hd, howes'⟩, ?_, he.scratch hn h.scratch⟩
  intro j o ho
  rcases he.grows.origin j o ho with ⟨hnew, -⟩ | ⟨p, hp, hid⟩
  · exact ((howes.id_lt hd).trans_le hnew).ne'
  · exact hid ▸ h.gone j p hp

/-- The shim runs, over a scratch arena, with what its op was registered with. -/
theorem Owes.park (h : Owes A due v) (hd : d ∈ due) (hgone : ∀ j o, v.op j = some o → o.id ≠ d.id)
    {bufs : List IoBufErased} (hbufs : A.bufsOf d.run = some bufs) (shim : ℕ) (loc : L)
    (outcome : OpOutcome) (done cls : ℕ) : Parked A d
      ({ v with arena := .new }.push (.shim d.id shim ⟨loc, bufs, outcome, done, cls⟩)) := by
  obtain rfl := Option.some.inj ((h.kept d hd).1.symm.trans hbufs)
  obtain ⟨s, d', l, hreg⟩ := h.given d hd
  have hbase : Owes A due { v with arena := .new } :=
    h.congr (h.sane.congr (fun _ o ho => ⟨o, ho, rfl⟩) rfl h.sane.armed le_rfl
      fun _ _ _ _ _ hm => hm) (fun _ o ho hl => ⟨o, ho, hl, rfl, rfl⟩) (fun _ he => he)
      fun _ _ _ hm => hm
  refine ⟨⟨due, hd, hbase.sane.push rfl, hbase.covered, ?_, hbase.kept, hbase.apart, hbase.books,
    ?_⟩, hgone, [], BufArena.Wf.new⟩
  · intro d₁ hd₁
    obtain ⟨s₁, d₁', l₁, hm⟩ := h.given d₁ hd₁
    exact ⟨s₁, d₁', l₁, List.mem_append_left _ hm⟩
  · intro id s₁ args hm
    rcases mem_push.mp hm with hm | heq
    · obtain ⟨s₂, d₂, l₂, hr⟩ := h.shims id s₁ args hm
      exact ⟨s₂, d₂, l₂, List.mem_append_left _ hr⟩
    · obtain ⟨rfl, -, rfl⟩ := Entry.shim.inj heq
      exact ⟨s, d', l, List.mem_append_left _ hreg⟩

theorem dispatchShim_delivers {shim done cls : ℕ} {outcome : OpOutcome} {loc : L}
    {calls : List (Call L)} (hn : ∀ call ∈ calls, call.carriesRun = false)
    (hd : d ∈ due) (h : Owes rt.view.arena due rt.view)
    (hgone : ∀ j o, rt.view.op j = some o → o.id ≠ d.id) :
    Triple (· = rt) (dispatchShim d.id shim d.run outcome done loc cls calls)
      (fun _ rt' => Delivers rt'.view) (· ≠ .arena) := by
  obtain ⟨arena, hback, -⟩ := h.pay hd hgone
  refine dispatchShim_rule (I := Parked rt.view.arena d) ?_ ?_ ?_ ?_ ?_
  · intro hnone
    rw [(h.kept d hd).1] at hnone
    cases hnone
  · intro bufs hbufs
    exact h.park hd hgone hbufs shim loc outcome done cls
  · refine CallsKeep.of_effect (fun _ he => he) (fun v hv => ?_) fun call hc v v' hv he =>
      hv.effect (hn call hc) he
    obtain ⟨idle, hwf⟩ := hv.scratch
    exact wf_safe hwf
  · rintro e he rfl
    rw [hback] at he
    cases he
  · intro v arena' hv hrel
    obtain ⟨due', hd', howes⟩ := hv.owes
    obtain ⟨arena'', hback', hdel⟩ := howes.pay hd' hv.gone
    obtain rfl := Except.ok.inj (hback'.symm.trans hrel)
    exact hdel

/-- Changing what is not the arena, the buffers or a local leaves everything due. -/
theorem Completing.clear (h : Completing d i v) {p : LiveOp L} (hp : v.op i = some p) :
    Completing d i (v.setOp i (some { p with pending := false })) := by
  obtain ⟨due, hd, howes⟩ := h.owes
  obtain ⟨o, ho, hid, hloc⟩ := h.busy
  obtain rfl := Option.some.inj (hp.symm.trans ho)
  refine ⟨⟨due, hd, howes.congr (howes.sane.setOp hp rfl) (fun j q hq hl => ?_) (fun _ he => he)
    fun _ _ _ hm => hm⟩, ⟨{ p with pending := false }, by rw [View.setOp_op, if_pos rfl], hid, hloc⟩,
    h.unarmed⟩
  rw [View.setOp_op] at hq
  split_ifs at hq with hj
  · obtain rfl := Option.some.inj hq
    rw [hloc] at hl
    cases hl
  · exact ⟨q, hq, hl, rfl, rfl⟩

theorem Completing.effect (h : Completing d i v) {call : Call L} (he : call.Effect v v') :
    Completing d i v' := by
  obtain ⟨due, hd, howes⟩ := h.owes
  obtain ⟨new, howes'⟩ := howes.effect he
  obtain ⟨o, ho, hid, hloc⟩ := h.busy
  obtain ⟨⟨p, hp, hpid, hploc⟩, hun⟩ := he.spares ho h.unarmed
  exact ⟨⟨_, List.mem_append_right _ hd, howes'⟩, ⟨p, hp, hpid.trans hid, hploc.trans hloc⟩, hun⟩

theorem Completing.record (h : Completing d i v) {j : ℕ} {c : Option (LiveCancel L)}
    {entry : Entry L} (hr : entry.isRegistered = false) (hs : Owes.isShim entry = false) :
    Completing d i ((v.setCancel j c).push entry) := by
  obtain ⟨due, hd, howes⟩ := h.owes
  have hbase : Owes v.arena due (v.setCancel j c) :=
    howes.congr (howes.sane.congr (fun _ o ho => ⟨o, ho, rfl⟩) rfl howes.sane.armed le_rfl
      fun _ _ _ _ _ hm => hm) (fun _ o ho hl => ⟨o, ho, hl, rfl, rfl⟩) (fun _ he => he)
      fun _ _ _ hm => hm
  exact ⟨⟨due, hd, hbase.push hr hs⟩, h.busy, h.unarmed⟩

theorem settleCancel_completing (h : Completing d i rt.view) {pending cancelled : Bool} {l : L}
    {r : Reaction L} : Triple (· = rt) (settleCancel i pending cancelled l r)
      (fun _ rt' => Completing d i rt'.view) (· ≠ .arena) := by
  obtain ⟨due, hd, howes⟩ := h.owes
  obtain ⟨o, ho, hid, -⟩ := h.busy
  apply settleCancel_rule (fun _ he => he) ho (howes.sane.ids i o ho).1.ne'
    (J := fun _ v => Completing d i v) h
  · exact fun j _ _ => h.record rfl rfl
  · exact fun j _ => h.record rfl rfl
  · refine fun l => CallsKeep.of_effect (fun _ he => he) (fun v hv => ?_) fun call _ v v' hv he =>
      hv.effect he
    obtain ⟨due, -, howes⟩ := hv.owes
    obtain ⟨idle, hwf⟩ := howes.books
    exact wf_safe hwf
  · intro l v hv
    obtain ⟨p, hp, hpid, -⟩ := hv.busy
    exact ⟨p, hp, hpid.trans hid.symm⟩
  · exact fun l v p hv hp => hv.clear hp

/-- The local and the run of an op are moved out of its slot. -/
theorem Owes.take (h : Owes v.arena due v) (ho : v.op i = some o) {bufs : List IoBufErased}
    (hd : ⟨o.id, o.run, bufs⟩ ∈ due) (hun : ∀ id, (i, id) ∉ v.backend.armed) (cancelled : Bool) :
    Completing ⟨o.id, o.run, bufs⟩ i
      ((v.setOp i (some { o with loc := none, run := none })).push (.completed o.id cancelled)) := by
  have hset : Owes v.arena due (v.setOp i (some { o with loc := none, run := none })) := by
    refine h.congr (h.sane.setOp ho rfl) (fun j q hq hql => ?_) (fun _ he => he) fun _ _ _ hm => hm
    rw [View.setOp_op] at hq
    split_ifs at hq with hj
    · obtain rfl := Option.some.inj hq
      cases hql
    · exact ⟨q, hq, hql, rfl, rfl⟩
  refine ⟨⟨due, hd, hset.push rfl rfl⟩, ⟨{ o with loc := none, run := none }, ?_, rfl, rfl⟩, hun⟩
  rw [View.push_op, View.setOp_op, if_pos rfl]

/-- The slot is freed; the buffers stay due until the shim has run. -/
theorem Completing.free (h : Completing d i v) : ∃ due, d ∈ due ∧ Owes v.arena due (v.setOp i none) ∧
    ∀ j q, (v.setOp i none).op j = some q → q.id ≠ d.id := by
  obtain ⟨due, hd, howes⟩ := h.owes
  obtain ⟨p, hp, hid, -⟩ := h.busy
  refine ⟨due, hd, ?_, fun j q hq hqid => ?_⟩
  · refine howes.congr (howes.sane.freeOp h.unarmed) (fun j q hq hql => ?_) (fun _ he => he)
      fun _ _ _ hm => hm
    rw [View.setOp_op] at hq
    split_ifs at hq with hj
    exact ⟨q, hq, hql, rfl, rfl⟩
  · rw [View.setOp_op] at hq
    split_ifs at hq with hj
    exact hj (howes.sane.inj j i q p hq hp (hqid.trans hid.symm))

/-- Completing an op delivers its buffers, and what is still due stays due. -/
theorem completeOp_delivers {completion : CompletedOp} {r : Reaction L}
    (hn : ∀ call ∈ r.shimCalls, call.carriesRun = false) (h : Owes rt.view.arena due rt.view)
    (ho : rt.view.op i = some o) (hun : ∀ id, (i, id) ∉ rt.view.backend.armed) :
    Triple (· = rt) (completeOp i completion r) (fun _ rt' => Delivers rt'.view) (· ≠ .arena) := by
  cases hl : o.loc with
  | none =>
    -- taking the local panics
    refine completeOp_rule (fun _ he => he) ho (J := fun _ _ => False)
      (fun l rt' hsome => ?_) fun _ _ _ _ _ _ hJ => hJ.elim
    rw [hl] at hsome
    cases hsome
  | some l₀ =>
    obtain ⟨bufs, hd⟩ := h.covered i o ho (by rw [hl]; rfl)
    refine completeOp_rule (fun _ he => he) ho (J := fun _ => Completing ⟨o.id, o.run, bufs⟩ i)
      (fun l rt' _ hv => ?_) fun l v rt' shim done _ hJ hv => ?_
    · exact settleCancel_completing (hv ▸ h.take ho hd hun completion.cancelled)
    · obtain ⟨due', hd', hfree, hgone⟩ := hJ.free
      rw [← hv] at hfree hgone
      exact dispatchShim_delivers hn hd' (by rw [hv] at hfree ⊢; exact hfree) hgone

def Event.nestsRun : Event L → Bool
  | .op _ _ _ r => r.shimCalls.any Call.carriesRun
  | _ => false

theorem exec_delivers {e : Event L} (h : Delivers rt.view) (ha : rt.backend.owes e = true)
    (hn : e.nestsRun = false) :
    Triple (· = rt) e.exec (fun _ rt' => Delivers rt'.view) (· ≠ .arena) := by
  obtain ⟨due, howes⟩ := h
  cases e with
  | outside calls =>
    refine forEach_exec (I := Delivers) (CallsKeep.of_effect (fun _ he => he) ?_ ?_) ⟨due, howes⟩
    · rintro v ⟨due', hv⟩
      obtain ⟨idle, hwf⟩ := hv.books
      exact wf_safe hwf
    · rintro call - v v' ⟨due', hv⟩ he
      obtain ⟨new, hv'⟩ := hv.effect he
      exact ⟨_, hv'⟩
  | op i id completion r =>
    have hm : (i, id) ∈ rt.view.backend.armed := of_decide_eq_true ha
    obtain ⟨o, ho, rfl⟩ := howes.sane.armed i id hm
    unfold Event.exec
    refine Triple.modify_bind (assertNamesLive_bind (fun _ he => he) ?_)
    have hset : Owes rt.view.arena due { rt.view with
        backend.armed := rt.view.backend.armed.erase (i, o.id)
        backend.verdicts := (o.id, completion.cancelled) :: rt.view.backend.verdicts } :=
      howes.congr (howes.sane.settle i o.id _) (fun _ o ho hl => ⟨o, ho, hl, rfl, rfl⟩)
        (fun _ he => he) fun _ _ _ hm => hm
    refine completeOp_delivers (fun call hc => ?_) hset ho (howes.sane.unarmed ho)
    simp only [Event.nestsRun, List.any_eq_false] at hn
    simpa using hn call hc
  | cancel j id targetId result =>
    unfold Event.exec
    refine Triple.modify_bind (cancelSlot_bind (by simp) fun slot _ => ?_)
    refine (completeCancel_spec fun _ he => he).post fun _ rt' hv => ?_
    have hbase : Owes rt.view.arena due { rt.view with
        backend.cancels := rt.view.backend.cancels.erase (j, id, targetId)
        backend.verdicts := (targetId, decide (result = 0)) :: rt.view.backend.verdicts } :=
      howes.congr (howes.sane.congr (fun _ o ho => ⟨o, ho, rfl⟩) rfl howes.sane.armed le_rfl
        fun _ _ _ _ _ hm => hm) (fun _ o ho hl => ⟨o, ho, hl, rfl, rfl⟩) (fun _ he => he)
        fun _ _ _ hm => hm
    rcases hv with ⟨-, hv⟩ | ⟨c, loc, v, -, -, -, hv₁, h₁⟩
    · rw [hv]
      exact ⟨due, hbase⟩
    · have hdrop : Owes v.arena due v := by
        have hcleared : Owes rt.view.arena due (View.setCancel { rt.view with
            backend.cancels := rt.view.backend.cancels.erase (j, id, targetId)
            backend.verdicts := (targetId, decide (result = 0)) :: rt.view.backend.verdicts } j none) :=
          hbase.congr (hbase.sane.congr (fun _ o ho => ⟨o, ho, rfl⟩) rfl hbase.sane.armed le_rfl
            fun _ _ _ _ _ hm => hm) (fun _ o ho hl => ⟨o, ho, hl, rfl, rfl⟩) (fun _ he => he)
            fun _ _ _ hm => hm
        rw [hv₁]
        exact hcleared.push rfl rfl
      rcases h₁ with ⟨o, ho, -, -, hv⟩ | ⟨-, hv⟩
      · have ho' : v.op c.target = some o := by
          rw [hv₁]
          exact ho
        refine ⟨due, ?_⟩
        rw [hv]
        refine hdrop.congr (hdrop.sane.setOp ho' rfl) (fun k q hq hql => ?_) (fun _ he => he)
          fun _ _ _ hm => hm
        rw [View.setOp_op] at hq
        split_ifs at hq with hk
        · obtain rfl := Option.some.inj hq
          exact ⟨o, hk ▸ ho', hql, rfl, rfl⟩
        · exact ⟨q, hq, hql, rfl, rfl⟩
      · rw [hv]
        exact ⟨due, hdrop⟩

/-- Every shim that has run was given, element by element, what its op was registered with. -/
def Runtime.Delivered (rt : Runtime L) : Prop :=
  ∀ id shim args, .shim id shim args ∈ rt.log →
    (∃ shim' done loc, .registered id shim' done loc args.bufs ∈ rt.log) ∧
    ∀ shim' done loc bufs, .registered id shim' done loc bufs ∈ rt.log → args.bufs = bufs

theorem Delivers.delivered (h : Delivers rt.view) : rt.Delivered := by
  obtain ⟨due, howes⟩ := h
  intro id shim args hm
  obtain ⟨s, d, l, hreg⟩ := howes.shims id shim args hm
  refine ⟨⟨s, d, l, hreg⟩, fun s' d' l' bufs hreg' => ?_⟩
  exact (howes.sane.unique _ _ _ _ _ _ _ _ _ hreg hreg').2

theorem owedStep_delivers {e : Event L} {rt' : Runtime L} (h : Delivers rt.view)
    (hn : e.nestsRun = false) (hstep : owedStep rt e = some rt') : Delivers rt'.view := by
  obtain ⟨ha, hx⟩ := exec_of_owedStep hstep
  exact (exec_delivers h ha hn).ok rfl hx

theorem reaches_delivers (h : Reaches owedStep (fun _ e => e.nestsRun = false) .new rt) :
    Delivers rt.view :=
  h.invariant (P := fun rt => Delivers rt.view) ⟨[], Owes.start⟩ fun _ _ _ hs hn =>
    owedStep_delivers hs hn

/-- Over a backend that completes each request once, and while no shim registers an op with buffers,
every shim gets its op's buffers and the arena is
never indexed out of range. -/
theorem run_delivers (h : Reaches owedStep (fun _ e => e.nestsRun = false) .new rt) :
    rt.Delivered ∧ ∀ e, rt.backend.owes e = true → e.nestsRun = false →
      ∀ rt', e.exec rt ≠ .error .arena rt' := by
  have hd := reaches_delivers h
  refine ⟨hd.delivered, fun e ha hn rt' hx => ?_⟩
  exact (exec_delivers hd ha hn).error rfl hx rfl

end

def nestedRegistration : List (Event Unit) :=
  [.outside [.register 0 0 () 0 [⟨1, 1⟩] true],
    .op 0 1 ⟨0, 0, 0, false⟩ ⟨fun l _ => l, [], [.register 0 0 () 0 [⟨2, 2⟩] true]⟩,
    .op 0 2 ⟨0, 0, 0, false⟩ ⟨fun l _ => l, [], []⟩]

def crossedCompletions : List (Event Unit) :=
  [.outside [.register 0 0 () 0 [⟨1, 1⟩] true, .register 0 0 () 0 [⟨2, 2⟩, ⟨3, 3⟩] true],
    .op 1 2 ⟨0, 0, 0, false⟩ ⟨fun l _ => l, [], []⟩,
    .op 0 1 ⟨0, 0, 0, false⟩ ⟨fun l _ => l, [], []⟩]

theorem run_delivers_crossed : ∃ rt, run owedStep .new crossedCompletions = some rt ∧
    .shim 1 0 ⟨(), [⟨1, 1⟩], .completed 0 0, 0, 0⟩ ∈ rt.log ∧ rt.Delivered := by
  have hlog : (run owedStep .new crossedCompletions).map (·.log) = some
      [.registered 1 0 0 () [⟨1, 1⟩], .registered 2 0 0 () [⟨2, 2⟩, ⟨3, 3⟩],
        .completed 2 false, .shim 2 0 ⟨(), [⟨2, 2⟩, ⟨3, 3⟩], .completed 0 0, 0, 0⟩,
        .completed 1 false, .shim 1 0 ⟨(), [⟨1, 1⟩], .completed 0 0, 0, 0⟩] := by decide +kernel
  obtain ⟨rt, hrt, hrl⟩ := Option.map_eq_some_iff.mp hlog
  have hreach : Reaches owedStep (fun _ e => e.nestsRun = false) .new rt :=
    reaches_of_run (meets_of_forall (by decide)) hrt
  exact ⟨rt, hrt, by simp [hrl], (run_delivers hreach).1⟩

/-- An op registered from inside a shim is given the buffers of another op. -/
theorem nested_registration_misdelivers :
    ∃ rt, run owedStep .new nestedRegistration = some rt ∧ ¬ rt.Delivered := by
  have hlog : (run owedStep .new nestedRegistration).map (·.log) = some
      [.registered 1 0 0 () [⟨1, 1⟩], .completed 1 false,
        .shim 1 0 ⟨(), [⟨1, 1⟩], .completed 0 0, 0, 0⟩, .registered 2 0 0 () [⟨2, 2⟩],
        .completed 2 false, .shim 2 0 ⟨(), [⟨4294967295, 1⟩], .completed 0 0, 0, 0⟩] := by
    decide +kernel
  obtain ⟨rt, hrt, hrl⟩ := Option.map_eq_some_iff.mp hlog
  refine ⟨rt, hrt, fun hd => ?_⟩
  have hgot := (hd 2 0 ⟨(), [⟨4294967295, 1⟩], .completed 0 0, 0, 0⟩ (by simp [hrl])).2
    0 0 () [⟨2, 2⟩] (by simp [hrl])
  revert hgot
  decide

end Conrt.Coio
