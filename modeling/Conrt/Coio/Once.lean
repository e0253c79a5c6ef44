import Conrt.Coio.Sane

/-! Exactly-once completion: what the log says of an op against what its slot holds. -/
namespace Conrt.Coio

open Conrt.Base

variable {L : Type}

namespace Entry

def isShimOf (id : ℕ) : Entry L → Bool
  | .shim id' _ _ => id' == id
  | _ => false

def isRegisteredAs (id : ℕ) : Entry L → Bool
  | .registered id' _ _ _ _ => id' == id
  | _ => false

/-- The entry is about a cancel, or says that a completion came. -/
def isSide : Entry L → Bool
  | .cancelCall .. => true
  | .completed .. => true
  | .cancelRan .. => true
  | .cancelDropped .. => true
  | _ => false

end Entry

def shimCount (id : ℕ) (log : List (Entry L)) : ℕ := log.countP (·.isShimOf id)

def registeredCount (id : ℕ) (log : List (Entry L)) : ℕ := log.countP (·.isRegisteredAs id)

/-- The local `l` is the one op `id` was registered with, or what its cancel callback made of it. -/
def Handed (id : ℕ) (loc l : L) (log : List (Entry L)) : Prop :=
  l = loc ∨ ∃ call done, .cancelRan call id done loc l ∈ log

section log

variable {id : ℕ} {log log' : List (Entry L)} {loc l : L}

theorem shimCount_append : shimCount id (log ++ log') = shimCount id log + shimCount id log' :=
  List.countP_append

theorem registeredCount_append :
    registeredCount id (log ++ log') = registeredCount id log + registeredCount id log' :=
  List.countP_append

theorem shimCount_eq_zero (h : ∀ shim args, .shim id shim args ∉ log) : shimCount id log = 0 := by
  apply List.countP_eq_zero.mpr
  intro e he hp
  cases e with
  | shim id' shim args =>
    obtain rfl : id' = id := by simpa [Entry.isShimOf] using hp
    exact h shim args he
  | _ => cases hp

theorem registeredCount_eq_zero (h : ∀ shim done loc bufs, .registered id shim done loc bufs ∉ log) :
    registeredCount id log = 0 := by
  apply List.countP_eq_zero.mpr
  intro e he hp
  cases e with
  | registered id' shim done loc bufs =>
    obtain rfl : id' = id := by simpa [Entry.isRegisteredAs] using hp
    exact h shim done loc bufs he
  | _ => cases hp

theorem registeredCount_pos {shim done : ℕ} {bufs : List IoBufErased}
    (h : .registered id shim done loc bufs ∈ log) : 0 < registeredCount id log :=
  List.countP_pos_iff.mpr ⟨_, h, by simp [Entry.isRegisteredAs]⟩

theorem Handed.append (h : Handed id loc l log) : Handed id loc l (log ++ log') := by
  rcases h with h | ⟨call, done, hm⟩
  · exact .inl h
  · exact .inr ⟨call, done, List.mem_append_left _ hm⟩

end log

/-- Every live op was registered once and its shim has not run; every other registered op's shim ran
once, with the local handed in. -/
structure View.Once (v : View L) : Prop where
  sane : v.Sane
  source : ∀ i o, v.op i = some o → ∃ shim done loc bufs,
    .registered o.id shim done loc bufs ∈ v.log ∧ o.body = .live shim done ∧
      ∀ l, o.loc = some l → l = loc
  waiting : ∀ i o, v.op i = some o → shimCount o.id v.log = 0
  ran : ∀ id shim args, .shim id shim args ∈ v.log → ∃ loc bufs,
    .registered id shim args.done loc bufs ∈ v.log ∧ Handed id loc args.loc v.log
  once : ∀ id shim done loc bufs, .registered id shim done loc bufs ∈ v.log →
    (∃ i o, v.op i = some o ∧ o.id = id) ∨ shimCount id v.log = 1
  refused : ∀ id bufs, .refused id bufs ∈ v.log →
    id < v.nextOpId ∧ ∀ shim done loc bufs, .registered id shim done loc bufs ∉ v.log
  unique : ∀ id, registeredCount id v.log ≤ 1

namespace View.Once

variable {v v' : View L} {i : ℕ} {o : LiveOp L}

theorem start : View.Once (Runtime.new : Runtime L).view := by
  refine ⟨.start, ?_, ?_, ?_, ?_, ?_, fun _ => Nat.zero_le _⟩ <;>
    simp [Runtime.view, Runtime.new]

/-- A shim runs for registered ops only. -/
theorem unregistered (h : v.Once) {id : ℕ} (hid : v.nextOpId ≤ id) : shimCount id v.log = 0 := by
  apply shimCount_eq_zero
  intro shim args hm
  obtain ⟨loc, bufs, hreg, -⟩ := h.ran id shim args hm
  exact absurd (h.sane.logged _ _ _ _ _ hreg) (not_lt.mpr hid)

/-- Ids, locals and the entries about ops are all the invariant reads. -/
theorem congr (h : v.Once) (hs : v'.Sane) {new : List (Entry L)} (hlog : v'.log = v.log ++ new)
    (hside : ∀ e ∈ new, e.isSide = true) (hnext : v.nextOpId ≤ v'.nextOpId)
    (hop : ∀ i o', v'.op i = some o' → ∃ o, v.op i = some o ∧ o'.id = o.id ∧ o'.body = o.body ∧
      ∀ l, o'.loc = some l → o.loc = some l)
    (hlive : ∀ i o, v.op i = some o → ∃ o', v'.op i = some o' ∧ o'.id = o.id) : v'.Once := by
  have hshims : ∀ id, shimCount id v'.log = shimCount id v.log := by
    intro id
    have hnew : shimCount id new = 0 := shimCount_eq_zero fun shim args hm => by
      cases hside _ hm
    rw [hlog, shimCount_append, hnew, Nat.add_zero]
  have hregs : ∀ id, registeredCount id v'.log = registeredCount id v.log := by
    intro id
    have hnew : registeredCount id new = 0 := registeredCount_eq_zero fun shim done loc bufs hm => by
      cases hside _ hm
    rw [hlog, registeredCount_append, hnew, Nat.add_zero]
  have hold : ∀ e, e.isSide = false → e ∈ v'.log → e ∈ v.log := by
    intro e he hm
    rw [hlog] at hm
    rcases List.mem_append.mp hm with hm | hm
    · exact hm
    · rw [hside e hm] at he
      cases he
  have hkept : ∀ e, e ∈ v.log → e ∈ v'.log := fun e he => hlog ▸ List.mem_append_left _ he
  refine ⟨hs, ?_, ?_, ?_, ?_, ?_, fun id => (hregs id).trans_le (h.unique id)⟩
  · intro i o' ho'
    obtain ⟨o, ho, hid, hbody, hloc⟩ := hop i o' ho'
    obtain ⟨shim, done, loc, bufs, hreg, hb, hl⟩ := h.source i o ho
    rw [hid, hbody]
    exact ⟨shim, done, loc, bufs, hkept _ hreg, hb, fun l hl' => hl l (hloc l hl')⟩
  · intro i o' ho'
    obtain ⟨o, ho, hid, -⟩ := hop i o' ho'
    rw [hshims, hid]
    exact h.waiting i o ho
  · intro id shim args hm
    obtain ⟨loc, bufs, hreg, hh⟩ := h.ran id shim args (hold _ rfl hm)
    exact ⟨loc, bufs, hkept _ hreg, hlog ▸ hh.append⟩
  · intro id shim done loc bufs hm
    rw [hshims]
    rcases h.once id shim done loc bufs (hold _ rfl hm) with ⟨i, o, ho, hid⟩ | hone
    · obtain ⟨o', ho', hid'⟩ := hlive i o ho
      exact .inl ⟨i, o', ho', hid'.trans hid⟩
    · exact .inr hone
  · intro id bufs hm
    obtain ⟨hlt, hno⟩ := h.refused id bufs (hold _ rfl hm)
    exact ⟨hlt.trans_le hnext, fun shim done loc bufs hreg => hno _ _ _ _ (hold _ rfl hreg)⟩

theorem push (h : v.Once) {entry : Entry L} (he : entry.isSide = true) : (v.push entry).Once := by
  have hr : entry.isRegistered = false := by
    cases entry with
    | registered => cases he
    | _ => rfl
  apply h.congr (h.sane.push hr) rfl (by simpa using he) le_rfl
  · exact fun i o ho => ⟨o, ho, rfl, rfl, fun _ hl => hl⟩
  · exact fun i o ho => ⟨o, ho, rfl⟩

/-- A live op may lose its local and change its mark. -/
theorem setOp (h : v.Once) (ho : v.op i = some o) {o' : LiveOp L} (hid : o'.id = o.id)
    (hbody : o'.body = o.body) (hloc : ∀ l, o'.loc = some l → o.loc = some l) :
    (v.setOp i (some o')).Once := by
  apply h.congr (h.sane.setOp ho hid) (List.append_nil _).symm (by simp) le_rfl
  · intro j p hp
    rw [View.setOp_op] at hp
    split_ifs at hp with hj
    · obtain rfl := Option.some.inj hp
      exact ⟨o, hj ▸ ho, hid, hbody, hloc⟩
    · exact ⟨p, hp, rfl, rfl, fun _ hl => hl⟩
  · intro j p hp
    rw [View.setOp_op]
    split_ifs with hj
    · rw [hj, ho] at hp
      obtain rfl := Option.some.inj hp
      exact ⟨o', rfl, hid⟩
    · exact ⟨p, hp, rfl⟩

/-- What is neither op nor log does not matter. -/
theorem frame (h : v.Once) (hop : v'.op = v.op) (hlog : v'.log = v.log)
    (hnext : v.nextOpId ≤ v'.nextOpId) (hs : v'.Sane) : v'.Once := by
  apply h.congr hs (by rw [hlog, List.append_nil]) (by simp) hnext
  · exact fun i o ho => ⟨o, hop ▸ ho, rfl, rfl, fun _ hl => hl⟩
  · exact fun i o ho => ⟨o, hop ▸ ho, rfl⟩

theorem register (h : v.Once) (hi : v.op i = none) (shim done : ℕ) (loc : L)
    (bufs : List IoBufErased) (run : Option (ℕ × ℕ)) (arena : BufArena) :
    (v.register i shim done loc bufs run arena).Once := by
  have hlog : (v.register i shim done loc bufs run arena).log =
      v.log ++ [.registered v.nextOpId shim done loc bufs] := rfl
  have hfresh : ∀ s d l b, .registered v.nextOpId s d l b ∉ v.log := fun s d l b hm =>
    absurd (h.sane.logged _ _ _ _ _ hm) (lt_irrefl _)
  have hshims : ∀ id, shimCount id (v.register i shim done loc bufs run arena).log =
      shimCount id v.log := by
    intro id
    rw [hlog, shimCount_append]
    rfl
  refine ⟨h.sane.register hi shim done loc bufs run arena, ?_, ?_, ?_, ?_, ?_, ?_⟩
  · intro j o ho
    rw [View.register_op] at ho
    split_ifs at ho
    · obtain rfl := Option.some.inj ho
      exact ⟨shim, done, loc, bufs, List.mem_append_right _ (by simp), rfl,
        fun l hl => (Option.some.inj hl).symm⟩
    · obtain ⟨s, d, l, b, hm, hb, hl⟩ := h.source j o ho
      exact ⟨s, d, l, b, List.mem_append_left _ hm, hb, hl⟩
  · intro j o ho
    rw [View.register_op] at ho
    rw [hshims]
    split_ifs at ho
    · obtain rfl := Option.some.inj ho
      exact h.unregistered le_rfl
    · exact h.waiting j o ho
  · intro id s args hm
    rcases List.mem_append.mp hm with hm | hm
    · obtain ⟨l, b, hreg, hh⟩ := h.ran id s args hm
      exact ⟨l, b, List.mem_append_left _ hreg, hh.append⟩
    · simp at hm
  · intro id s d l b hm
    rw [hshims]
    rcases List.mem_append.mp hm with hm | hm
    · rcases h.once id s d l b hm with ⟨j, o, ho, hid⟩ | hone
      · have hj : j ≠ i := by
          rintro rfl
          rw [hi] at ho
          cases ho
        exact .inl ⟨j, o, by rw [View.register_op, if_neg hj]; exact ho, hid⟩
      · exact .inr hone
    · obtain ⟨rfl, -⟩ : id = v.nextOpId ∧ s = shim ∧ d = done ∧ l = loc ∧ b = bufs := by
        simpa using hm
      exact .inl ⟨i, _, by rw [View.register_op, if_pos rfl], rfl⟩
  · intro id bufs' hm
    rcases List.mem_append.mp hm with hm | hm
    · obtain ⟨hlt, hno⟩ := h.refused id bufs' hm
      refine ⟨Nat.lt_succ_of_lt hlt, fun s d l b hreg => ?_⟩
      rcases List.mem_append.mp hreg with hreg | hreg
      · exact hno s d l b hreg
      · obtain ⟨rfl, -⟩ : id = v.nextOpId ∧ s = shim ∧ d = done ∧ l = loc ∧ b = bufs := by
          simpa using hreg
        exact absurd hlt (lt_irrefl _)
    · simp at hm
  · intro id
    rw [hlog, registeredCount_append]
    by_cases hid : id = v.nextOpId
    · have hzero : registeredCount id v.log = 0 := registeredCount_eq_zero (hid ▸ hfresh)
      rw [hzero, Nat.zero_add]
      exact List.countP_le_length
    · have hne : registeredCount id [(.registered v.nextOpId shim done loc bufs : Entry L)] = 0 := by
        simp [registeredCount, Entry.isRegisteredAs, Ne.symm hid]
      rw [hne]
      exact h.unique id

theorem refuse (h : v.Once) {bufs : List IoBufErased} (arena : BufArena)
    (hs : (v.refuse bufs arena).Sane) : (v.refuse bufs arena).Once := by
  have hlog : (v.refuse bufs arena).log = v.log ++ [.refused v.nextOpId bufs] := rfl
  have hold : ∀ id s d l b, .registered id s d l b ∈ (v.refuse bufs arena).log →
      .registered id s d l b ∈ v.log := by
    intro id s d l b hm
    simpa [hlog] using hm
  have hshims : ∀ id, shimCount id (v.refuse bufs arena).log = shimCount id v.log := by
    intro id
    rw [hlog, shimCount_append]
    rfl
  refine ⟨hs, ?_, ?_, ?_, ?_, ?_, ?_⟩
  · intro j o ho
    obtain ⟨s, d, l, b, hm, hb, hl⟩ := h.source j o ho
    exact ⟨s, d, l, b, List.mem_append_left _ hm, hb, hl⟩
  · intro j o ho
    rw [hshims]
    exact h.waiting j o ho
  · intro id s args hm
    have hm' : .shim id s args ∈ v.log := by simpa [hlog] using hm
    obtain ⟨l, b, hreg, hh⟩ := h.ran id s args hm'
    exact ⟨l, b, List.mem_append_left _ hreg, hh.append⟩
  · intro id s d l b hm
    rw [hshims]
    exact h.once id s d l b (hold _ _ _ _ _ hm)
  · intro id bufs' hm
    have hcases : .refused id bufs' ∈ v.log ∨ id = v.nextOpId ∧ bufs' = bufs := by
      simpa [hlog] using hm
    rcases hcases with hm | ⟨rfl, -⟩
    · obtain ⟨hlt, hno⟩ := h.refused id bufs' hm
      exact ⟨Nat.lt_succ_of_lt hlt, fun s d l b hreg => hno s d l b (hold _ _ _ _ _ hreg)⟩
    · refine ⟨Nat.lt_succ_self _, fun s d l b hreg => ?_⟩
      exact absurd (h.sane.logged _ _ _ _ _ (hold _ _ _ _ _ hreg)) (lt_irrefl _)
  · intro id
    rw [hlog, registeredCount_append]
    exact h.unique id

theorem effect (h : v.Once) {call : Call L} (he : call.Effect v v') : v'.Once := by
  have hs := h.sane.effect he
  cases call with
  | register shim done loc cls bufs accepted =>
    obtain ⟨run, arena, -, -, ⟨-, j, hj, rfl⟩ | ⟨-, arena', -, rfl⟩⟩ := he
    · exact h.register hj shim done loc bufs run arena
    · exact h.refuse arena' hs
  | cancel op loc done accepted =>
    rcases he with ⟨-, rfl⟩ | ⟨-, rfl⟩ | ⟨-, j, o, ho, -, -, -, -, rfl⟩
    · apply h.congr hs (List.append_assoc ..) (by simp [Entry.isSide]) le_rfl
      · exact fun i o ho => ⟨o, ho, rfl, rfl, fun _ hl => hl⟩
      · exact fun i o ho => ⟨o, ho, rfl⟩
    · apply h.congr hs (List.append_assoc ..) (by simp [Entry.isSide]) (Nat.le_succ _)
      · exact fun i o ho => ⟨o, ho, rfl, rfl, fun _ hl => hl⟩
      · exact fun i o ho => ⟨o, ho, rfl⟩
    · have hop : ∀ k, (v.acceptCancel j op done loc o).op k =
          if k = op.slot then some { o with pending := true } else v.op k :=
        fun k => Function.update_apply ..
      have hlog : (v.acceptCancel j op done loc o).log =
          v.log ++ [.cancelCall v.calls op.id done true] := rfl
      apply h.congr hs hlog (by simp [Entry.isSide]) (Nat.le_succ _)
      · intro k p hp
        rw [hop] at hp
        split_ifs at hp with hk
        · obtain rfl := Option.some.inj hp
          exact ⟨o, hk ▸ ho, rfl, rfl, fun _ hl => hl⟩
        · exact ⟨p, hp, rfl, rfl, fun _ hl => hl⟩
      · intro k p hp
        rw [hop]
        split_ifs with hk
        · rw [hk, ho] at hp
          obtain rfl := Option.some.inj hp
          exact ⟨_, rfl, rfl⟩
        · exact ⟨p, hp, rfl⟩

end View.Once

/-- Op `id` is being completed in slot `i`: its local is out, and now is `l`. -/
structure View.Midway (i id shim done : ℕ) (loc l : L) (v : View L) : Prop where
  once : v.Once
  busy : ∃ o, v.op i = some o ∧ o.id = id ∧ o.loc = none
  unarmed : ∀ id', (i, id') ∉ v.backend.armed
  registered : ∃ bufs, .registered id shim done loc bufs ∈ v.log
  handed : Handed id loc l v.log

section

variable {v v' : View L} {i id shim done : ℕ} {loc l : L} {rt : Runtime L} {o : LiveOp L}

theorem Call.Effect.log {call : Call L} (he : call.Effect v v') :
    ∃ new, v'.log = v.log ++ new := by
  cases call with
  | register shim done loc cls bufs accepted =>
    obtain ⟨run, arena, -, -, ⟨-, j, hj, rfl⟩ | ⟨-, arena', -, rfl⟩⟩ := he
    · exact ⟨_, rfl⟩
    · exact ⟨_, rfl⟩
  | cancel op loc done accepted =>
    rcases he with ⟨-, rfl⟩ | ⟨-, rfl⟩ | ⟨-, j, o, ho, -, -, -, -, rfl⟩
    · exact ⟨_, List.append_assoc ..⟩
    · exact ⟨_, List.append_assoc ..⟩
    · exact ⟨_, rfl⟩

namespace View.Midway

theorem effect (h : v.Midway i id shim done loc l) {call : Call L} (he : call.Effect v v') :
    v'.Midway i id shim done loc l := by
  obtain ⟨new, hlog⟩ := he.log
  obtain ⟨bufs, hreg⟩ := h.registered
  obtain ⟨o, ho, hid, hloc⟩ := h.busy
  obtain ⟨⟨p, hp, hpid, hploc⟩, hun⟩ := he.spares ho h.unarmed
  exact ⟨h.once.effect he, ⟨p, hp, hpid.trans hid, hploc.trans hloc⟩, hun,
    ⟨bufs, hlog ▸ List.mem_append_left _ hreg⟩, hlog ▸ h.handed.append⟩

theorem push (h : v.Midway i id shim done loc l) {entry : Entry L} (he : entry.isSide = true) :
    (v.push entry).Midway i id shim done loc l := by
  obtain ⟨bufs, hreg⟩ := h.registered
  exact ⟨h.once.push he, h.busy, h.unarmed, ⟨bufs, List.mem_append_left _ hreg⟩,
    h.handed.append⟩

/-- A cancel leaves its slot. -/
theorem freeCancel (h : v.Midway i id shim done loc l) (j : ℕ) :
    (v.setCancel j none).Midway i id shim done loc l := by
  have hs : (v.setCancel j none).Sane :=
    h.once.sane.congr (fun _ o ho => ⟨o, ho, rfl⟩) rfl h.once.sane.armed le_rfl
      fun _ _ _ _ _ hm => hm
  exact ⟨h.once.frame rfl rfl le_rfl hs, h.busy, h.unarmed, h.registered, h.handed⟩

/-- The cancel callback may change the local, and the log says how. -/
theorem changed (h : v.Midway i id shim done loc loc) {call cdone : ℕ} {l : L} :
    (v.push (.cancelRan call id cdone loc l)).Midway i id shim done loc l := by
  obtain ⟨bufs, hreg⟩ := h.registered
  exact ⟨h.once.push rfl, h.busy, h.unarmed, ⟨bufs, List.mem_append_left _ hreg⟩,
    .inr ⟨call, cdone, List.mem_append_right _ (by simp)⟩⟩

theorem clear (h : v.Midway i id shim done loc l) {p : LiveOp L} (hp : v.op i = some p) :
    (v.setOp i (some { p with pending := false })).Midway i id shim done loc l := by
  obtain ⟨o, ho, hid, hloc⟩ := h.busy
  obtain rfl := Option.some.inj (hp.symm.trans ho)
  refine ⟨h.once.setOp hp rfl rfl fun _ hl => hl, ?_, h.unarmed, h.registered, h.handed⟩
  exact ⟨{ p with pending := false }, by rw [View.setOp_op, if_pos rfl], hid, hloc⟩

/-- The op leaves its slot and its shim runs. -/
theorem finish (h : v.Midway i id shim done loc l) {args : OpShimArgs L} (hl : args.loc = l)
    (hd : args.done = done) (arena : BufArena) :
    View.Once ({ v.setOp i none with arena := arena }.push (.shim id shim args)) := by
  obtain ⟨o, ho, hid, -⟩ := h.busy
  obtain ⟨bufs, hreg⟩ := h.registered
  have hfree := h.once.sane.freeOp h.unarmed
  have hbase : View.Sane { v.setOp i none with arena := arena } :=
    hfree.congr (fun _ o ho => ⟨o, ho, rfl⟩) rfl hfree.armed le_rfl fun _ _ _ _ _ hm => hm
  have hside : (Entry.shim id shim args).isRegistered = false := rfl
  have hsane := hbase.push hside
  generalize hv : { v.setOp i none with arena := arena }.push (.shim id shim args) = v' at hsane ⊢
  have hlog : v'.log = v.log ++ [.shim id shim args] := by rw [← hv]; rfl
  have hnext : v'.nextOpId = v.nextOpId := by rw [← hv]; rfl
  have hop : ∀ j, v'.op j = if j = i then none else v.op j := by
    rw [← hv]
    exact fun j => Function.update_apply ..
  have hshims : ∀ id', shimCount id' v'.log = shimCount id' v.log + if id' = id then 1 else 0 := by
    intro id'
    rw [hlog, shimCount_append]
    by_cases hne : id' = id
    · simp [shimCount, Entry.isShimOf, hne]
    · simp [shimCount, Entry.isShimOf, hne, Ne.symm hne]
  have hregs : ∀ id' s d l' b, .registered id' s d l' b ∈ v'.log ↔ .registered id' s d l' b ∈ v.log := by
    intro id' s d l' b
    simp [hlog]
  have hother : ∀ j p, v'.op j = some p → v.op j = some p ∧ p.id ≠ id := by
    intro j p hp
    rw [hop] at hp
    split_ifs at hp with hj
    exact ⟨hp, fun hpid => hj (h.once.sane.inj j i p o hp ho (hpid.trans hid.symm))⟩
  refine ⟨hsane, ?_, ?_, ?_, ?_, ?_, ?_⟩
  · intro j p hp
    obtain ⟨s, d, l', b, hm, hb, hl'⟩ := h.once.source j p (hother j p hp).1
    exact ⟨s, d, l', b, (hregs ..).mpr hm, hb, hl'⟩
  · intro j p hp
    obtain ⟨hp, hne⟩ := hother j p hp
    rw [hshims, h.once.waiting j p hp, if_neg hne]
  · intro id' s a hm
    rw [hlog] at hm
    rcases List.mem_append.mp hm with hm | hm
    · obtain ⟨l', b, hreg', hh⟩ := h.once.ran id' s a hm
      exact ⟨l', b, (hregs ..).mpr hreg', hlog ▸ hh.append⟩
    · obtain ⟨rfl, rfl, rfl⟩ := Entry.shim.inj (List.mem_singleton.mp hm)
      rw [hd, hl]
      exact ⟨loc, bufs, (hregs ..).mpr hreg, hlog ▸ h.handed.append⟩
  · intro id' s d l' b hm
    rw [hshims]
    by_cases hne : id' = id
    · have hzero : shimCount id v.log = 0 := hid ▸ h.once.waiting i o ho
      rw [if_pos hne, hne, hzero]
      exact .inr rfl
    · rw [if_neg hne]
      rcases h.once.once id' s d l' b ((hregs ..).mp hm) with ⟨j, p, hp, hpid⟩ | hone
      · have hj : j ≠ i := by
          rintro rfl
          obtain rfl := Option.some.inj (hp.symm.trans ho)
          exact hne (hpid.symm.trans hid)
        exact .inl ⟨j, p, by rw [hop, if_neg hj]; exact hp, hpid⟩
      · exact .inr hone
  · intro id' bufs' hm
    have hm' : .refused id' bufs' ∈ v.log := by simpa [hlog] using hm
    obtain ⟨hlt, hno⟩ := h.once.refused id' bufs' hm'
    exact ⟨hnext ▸ hlt, fun s d l' b hreg' => hno s d l' b ((hregs ..).mp hreg')⟩
  · intro id'
    rw [hlog, registeredCount_append]
    exact h.once.unique id'

end View.Midway

/-- Nothing is excluded: these triples speak of the runs that return. -/
theorem any_safe (arena : BufArena) : ArenaSafe (fun _ => True) arena :=
  fun _ => ⟨fun _ _ => trivial, fun _ _ _ _ _ => trivial⟩

theorem settleCancel_midway {pending cancelled : Bool} {r : Reaction L}
    (h : rt.view.Midway i id shim done loc loc) :
    Triple (· = rt) (settleCancel i pending cancelled loc r)
      (fun l rt' => rt'.view.Midway i id shim done loc l) fun _ => True := by
  obtain ⟨o, ho, rfl, -⟩ := h.busy
  apply settleCancel_rule (fun _ _ => trivial) ho (h.once.sane.ids i o ho).1.ne' h
  · exact fun j _ _ => (h.freeCancel j).changed
  · exact fun j _ => (h.freeCancel j).push rfl
  · exact fun l => CallsKeep.of_effect (fun _ _ => trivial) (fun v _ => any_safe v.arena)
      fun call _ v v' hv he => hv.effect he
  · intro l v hv
    obtain ⟨p, hp, hid, -⟩ := hv.busy
    exact ⟨p, hp, hid⟩
  · exact fun l v p hv hp => hv.clear hp

/-- The local and the run of an op are moved out of its slot. -/
theorem View.Once.take (h : v.Once) (ho : v.op i = some o) (hun : ∀ id, (i, id) ∉ v.backend.armed)
    (cancelled : Bool) : ∃ shim done loc, o.body = .live shim done ∧ ∀ l, o.loc = some l → l = loc ∧
      ((v.setOp i (some { o with loc := none, run := none })).push
        (.completed o.id cancelled)).Midway i o.id shim done loc l := by
  obtain ⟨shim, done, loc, bufs, hreg, hbody, hloc⟩ := h.source i o ho
  refine ⟨shim, done, loc, hbody, fun l hl => ⟨hloc l hl, ?_⟩⟩
  obtain rfl := hloc l hl
  have hset : (v.setOp i (some { o with loc := none, run := none })).Once :=
    h.setOp ho rfl rfl fun l hl => by cases hl
  refine ⟨hset.push rfl, ⟨{ o with loc := none, run := none }, ?_, rfl, rfl⟩, hun,
    ⟨bufs, List.mem_append_left _ hreg⟩, .inl rfl⟩
  rw [View.push_op, View.setOp_op, if_pos rfl]

theorem completeOp_once {completion : CompletedOp} {r : Reaction L} (h : rt.view.Once)
    (ho : rt.view.op i = some o) (hun : ∀ id, (i, id) ∉ rt.view.backend.armed) :
    Triple (· = rt) (completeOp i completion r) (fun _ rt' => rt'.view.Once) fun _ => True := by
  obtain ⟨shim, done, loc, hbody, hmid⟩ := h.take ho hun completion.cancelled
  apply completeOp_rule (fun _ _ => trivial) ho (J := fun l v => v.Midway i o.id shim done loc l)
  · intro l rt' hl hv
    obtain ⟨rfl, hmid⟩ := hmid l hl
    exact settleCancel_midway (hv ▸ hmid)
  · intro l v rt' shim' done' hbody' hmid hv
    obtain ⟨rfl, rfl⟩ := SlotBody.live.inj (hbody.symm.trans hbody')
    apply dispatchShim_rule (I := View.Once) (K := View.Once)
    · exact fun _ => trivial
    · intro bufs _
      rw [hv]
      exact hmid.finish rfl rfl _
    · exact CallsKeep.of_effect (fun _ _ => trivial) (fun v _ => any_safe v.arena)
        fun call _ v v' hv he => hv.effect he
    · exact fun _ _ => trivial
    · intro v arena hv _
      exact hv.frame rfl rfl le_rfl (hv.sane.congr (fun _ o ho => ⟨o, ho, rfl⟩) rfl hv.sane.armed
        le_rfl fun _ _ _ _ _ hm => hm)

end

section

variable {rt : Runtime L} {e : Event L}

theorem exec_once (h : rt.view.Once) (ho : rt.backend.owes e = true) :
    Triple (· = rt) e.exec (fun _ rt' => rt'.view.Once) fun _ => True := by
  cases e with
  | outside calls =>
    exact forEach_exec (CallsKeep.of_effect (fun _ _ => trivial) (fun v _ => any_safe v.arena)
      fun call _ v v' hv he => hv.effect he) h
  | op i id completion r =>
    have hm : (i, id) ∈ rt.view.backend.armed := of_decide_eq_true ho
    obtain ⟨o, hop, rfl⟩ := h.sane.armed i id hm
    unfold Event.exec
    refine Triple.modify_bind (assertNamesLive_bind (fun _ _ => trivial) ?_)
    have hset : View.Once { rt.view with
        backend.armed := rt.view.backend.armed.erase (i, o.id)
        backend.verdicts := (o.id, completion.cancelled) :: rt.view.backend.verdicts } :=
      h.frame rfl rfl le_rfl (h.sane.settle i o.id _)
    exact completeOp_once hset hop (h.sane.unarmed hop)
  | cancel j id targetId result =>
    unfold Event.exec
    refine Triple.modify_bind (cancelSlot_bind trivial fun slot _ => ?_)
    have hbase : View.Once { rt.view with
        backend.cancels := rt.view.backend.cancels.erase (j, id, targetId)
        backend.verdicts := (targetId, decide (result = 0)) :: rt.view.backend.verdicts } :=
      h.frame rfl rfl le_rfl (h.sane.congr (fun _ o ho => ⟨o, ho, rfl⟩) rfl h.sane.armed le_rfl
        fun _ _ _ _ _ hm => hm)
    refine (completeCancel_spec fun _ _ => trivial).post fun _ rt' hv => ?_
    rcases hv with ⟨-, hv⟩ | ⟨c, loc, v, -, -, -, hv₁, h₁⟩
    · rw [hv]
      exact hbase
    · have hdrop : v.Once := by
        have hfreed : View.Once (View.setCancel { rt.view with
            backend.cancels := rt.view.backend.cancels.erase (j, id, targetId)
            backend.verdicts := (targetId, decide (result = 0)) :: rt.view.backend.verdicts } j none) :=
          hbase.frame rfl rfl le_rfl (hbase.sane.congr (fun _ o ho => ⟨o, ho, rfl⟩) rfl
            hbase.sane.armed le_rfl fun _ _ _ _ _ hm => hm)
        rw [hv₁]
        exact hfreed.push rfl
      rcases h₁ with ⟨o, hop, -, -, hv⟩ | ⟨-, hv⟩
      · have hop' : v.op c.target = some o := by
          rw [hv₁]
          exact hop
        rw [hv]
        exact hdrop.setOp hop' rfl rfl fun _ hl => hl
      · rw [hv]
        exact hdrop

end

end Conrt.Coio
