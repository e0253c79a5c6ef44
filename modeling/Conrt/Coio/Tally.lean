import Conrt.Coio.CancelLog
import Conrt.Coio.Drive

/-! Who owns each local: the slot it was stored in, or whoever the log says it went to. -/
namespace Conrt.Coio

open Conrt.Base

variable {L : Type}

namespace Entry

def isRefusedAs (id : ℕ) : Entry L → Bool
  | .refused id' _ => id' == id
  | _ => false

def isTakenOf (id : ℕ) : Entry L → Bool
  | .completed id' _ => id' == id
  | _ => false

def isCallOf (k : ℕ) : Entry L → Bool
  | .cancelCall call .. => call == k
  | _ => false

def op? : Entry L → Option ℕ
  | .registered id .. | .refused id _ | .completed id _ | .shim id .. => some id
  | _ => none

end Entry

def refusedCount (id : ℕ) (log : List (Entry L)) : ℕ := log.countP (·.isRefusedAs id)

def takenCount (id : ℕ) (log : List (Entry L)) : ℕ := log.countP (·.isTakenOf id)

def callCount (k : ℕ) (log : List (Entry L)) : ℕ := log.countP (·.isCallOf k)

section log

variable {id k : ℕ} {log log' : List (Entry L)}

theorem refusedCount_append :
    refusedCount id (log ++ log') = refusedCount id log + refusedCount id log' := List.countP_append

theorem takenCount_append :
    takenCount id (log ++ log') = takenCount id log + takenCount id log' := List.countP_append

theorem callCount_append :
    callCount k (log ++ log') = callCount k log + callCount k log' := List.countP_append

theorem Entry.op_of_counted {entry : Entry L} (h : entry.isRegisteredAs id = true ∨
    entry.isRefusedAs id = true ∨ entry.isTakenOf id = true ∨ entry.isShimOf id = true) :
    entry.op? = some id := by
  cases entry with
  | registered id' => simpa [isRegisteredAs, isRefusedAs, isTakenOf, isShimOf, op?] using h
  | refused id' => simpa [isRegisteredAs, isRefusedAs, isTakenOf, isShimOf, op?] using h
  | completed id' => simpa [isRegisteredAs, isRefusedAs, isTakenOf, isShimOf, op?] using h
  | shim id' => simpa [isRegisteredAs, isRefusedAs, isTakenOf, isShimOf, op?] using h
  | _ => simp [isRegisteredAs, isRefusedAs, isTakenOf, isShimOf] at h

/-- Entries about other ops, or about none, leave an op's counts alone. -/
theorem opCounts_append (h : ∀ e ∈ log', e.op? ≠ some id) :
    registeredCount id (log ++ log') = registeredCount id log ∧
    refusedCount id (log ++ log') = refusedCount id log ∧
    takenCount id (log ++ log') = takenCount id log ∧
    shimCount id (log ++ log') = shimCount id log := by
  have hreg : registeredCount id log' = 0 := List.countP_eq_zero.mpr fun e he hp =>
    h e he (Entry.op_of_counted (.inl hp))
  have href : refusedCount id log' = 0 := List.countP_eq_zero.mpr fun e he hp =>
    h e he (Entry.op_of_counted (.inr (.inl hp)))
  have htaken : takenCount id log' = 0 := List.countP_eq_zero.mpr fun e he hp =>
    h e he (Entry.op_of_counted (.inr (.inr (.inl hp))))
  have hshim : shimCount id log' = 0 := List.countP_eq_zero.mpr fun e he hp =>
    h e he (Entry.op_of_counted (.inr (.inr (.inr hp))))
  rw [registeredCount_append, refusedCount_append, takenCount_append, shimCount_append, hreg, href,
    htaken, hshim]
  exact ⟨rfl, rfl, rfl, rfl⟩

end log

/-- A live op was registered once and its shim has not run; its local has been moved out if its slot
does not hold it. The local of an op no longer live has been moved out once. -/
structure View.OpTally (v : View L) : Prop where
  next : 0 < v.nextOpId
  ids : ∀ i o, v.op i = some o → 0 < o.id
  inj : ∀ i j o o', v.op i = some o → v.op j = some o' → o.id = o'.id → i = j
  issued : ∀ id, v.nextOpId ≤ id → registeredCount id v.log + refusedCount id v.log = 0
  once : ∀ id, registeredCount id v.log + refusedCount id v.log ≤ 1
  live : ∀ i o, v.op i = some o → registeredCount o.id v.log = 1 ∧ shimCount o.id v.log = 0 ∧
    takenCount o.id v.log = if o.loc.isSome then 0 else 1
  gone : ∀ id, (∀ i o, v.op i = some o → o.id ≠ id) →
    takenCount id v.log = registeredCount id v.log
  shims : ∀ id, shimCount id v.log ≤ takenCount id v.log

namespace View.OpTally

variable {v v' : View L} {i : ℕ} {o : LiveOp L}

theorem start : View.OpTally (Runtime.new : Runtime L).view := by
  refine ⟨Nat.one_pos, ?_, ?_, fun _ _ => rfl, fun _ => Nat.zero_le _, ?_, fun _ _ => rfl,
    fun _ => le_rfl⟩ <;>
    simp [Runtime.view, Runtime.new]

/-- Ids, whether locals are held, and the entries about ops are all the tally reads. -/
theorem congr (h : v.OpTally) {new : List (Entry L)} (hlog : v'.log = v.log ++ new)
    (hnew : ∀ e ∈ new, e.op? = none) (hnext : v.nextOpId ≤ v'.nextOpId)
    (hop : ∀ i o', v'.op i = some o' → ∃ o, v.op i = some o ∧ o'.id = o.id ∧
      o'.loc.isSome = o.loc.isSome)
    (hlive : ∀ i o, v.op i = some o → ∃ o', v'.op i = some o' ∧ o'.id = o.id) : v'.OpTally := by
  have hcounts : ∀ id, registeredCount id v'.log = registeredCount id v.log ∧
      refusedCount id v'.log = refusedCount id v.log ∧
      takenCount id v'.log = takenCount id v.log ∧ shimCount id v'.log = shimCount id v.log := by
    intro id
    rw [hlog]
    exact opCounts_append fun e he => by simp [hnew e he]
  refine ⟨h.next.trans_le hnext, ?_, ?_, ?_, ?_, ?_, ?_, ?_⟩
  · intro i o' ho'
    obtain ⟨o, ho, hid, -⟩ := hop i o' ho'
    exact hid ▸ h.ids i o ho
  · intro i j o' p' ho' hp' hid
    obtain ⟨o, ho, ho1, -⟩ := hop i o' ho'
    obtain ⟨p, hp, hp1, -⟩ := hop j p' hp'
    exact h.inj i j o p ho hp (ho1.symm.trans (hid.trans hp1))
  · intro id hid
    rw [(hcounts id).1, (hcounts id).2.1]
    exact h.issued id (hnext.trans hid)
  · intro id
    rw [(hcounts id).1, (hcounts id).2.1]
    exact h.once id
  · intro i o' ho'
    obtain ⟨o, ho, hid, hloc⟩ := hop i o' ho'
    obtain ⟨hreg, -, htaken, hshim⟩ := hcounts o.id
    rw [hid, hreg, htaken, hshim, hloc]
    exact h.live i o ho
  · intro id hno
    rw [(hcounts id).1, (hcounts id).2.2.1]
    apply h.gone
    intro i o ho
    obtain ⟨o', ho', hid⟩ := hlive i o ho
    exact hid ▸ hno i o' ho'
  · intro id
    rw [(hcounts id).2.2.1, (hcounts id).2.2.2]
    exact h.shims id

/-- Steps that touch no op and log nothing about one. -/
theorem frame (h : v.OpTally) {new : List (Entry L)} (hop : v'.op = v.op)
    (hlog : v'.log = v.log ++ new) (hnew : ∀ e ∈ new, e.op? = none)
    (hnext : v.nextOpId ≤ v'.nextOpId) : v'.OpTally := by
  apply h.congr hlog hnew hnext
  · exact fun i o ho => ⟨o, hop ▸ ho, rfl, rfl⟩
  · exact fun i o ho => ⟨o, hop ▸ ho, rfl⟩

theorem push (h : v.OpTally) {entry : Entry L} (he : entry.op? = none) :
    (v.push entry).OpTally :=
  h.frame rfl rfl (by simpa using he) le_rfl

/-- A live op may change its mark and lose its run. -/
theorem setOp (h : v.OpTally) (ho : v.op i = some o) {o' : LiveOp L} (hid : o'.id = o.id)
    (hloc : o'.loc.isSome = o.loc.isSome) : (v.setOp i (some o')).OpTally := by
  have hlog : (v.setOp i (some o')).log = v.log ++ [] := (List.append_nil _).symm
  apply h.congr hlog (by simp) le_rfl
  · intro j p hp
    rw [View.setOp_op] at hp
    split_ifs at hp with hj
    · obtain rfl := Option.some.inj hp
      exact ⟨o, hj ▸ ho, hid, hloc⟩
    · exact ⟨p, hp, rfl, rfl⟩
  · intro j p hp
    rw [View.setOp_op]
    split_ifs with hj
    · rw [hj, ho] at hp
      obtain rfl := Option.some.inj hp
      exact ⟨o', rfl, hid⟩
    · exact ⟨p, hp, rfl⟩

/-- An id not issued yet names nothing. -/
theorem fresh (h : v.OpTally) {id : ℕ} (hid : v.nextOpId ≤ id) :
    registeredCount id v.log = 0 ∧ refusedCount id v.log = 0 ∧ takenCount id v.log = 0 ∧
      shimCount id v.log = 0 ∧ ∀ i o, v.op i = some o → o.id ≠ id := by
  have hnone := h.issued id hid
  have hreg : registeredCount id v.log = 0 := by omega
  have hno : ∀ i o, v.op i = some o → o.id ≠ id := by
    rintro i o ho rfl
    have hone := (h.live i o ho).1
    omega
  have htaken : takenCount id v.log = 0 := (h.gone id hno).trans hreg
  have hshim := h.shims id
  exact ⟨hreg, by omega, htaken, by omega, hno⟩

theorem register (h : v.OpTally) (hi : v.op i = none) (shim done : ℕ) (loc : L)
    (bufs : List IoBufErased) (run : Option (ℕ × ℕ)) (arena : BufArena) :
    (v.register i shim done loc bufs run arena).OpTally := by
  obtain ⟨hreg, href, htaken, hshim, hno⟩ := h.fresh le_rfl
  have hlog : (v.register i shim done loc bufs run arena).log =
      v.log ++ [.registered v.nextOpId shim done loc bufs] := rfl
  generalize hv : v.register i shim done loc bufs run arena = v' at hlog ⊢
  have hnext : v'.nextOpId = v.nextOpId + 1 := by
    rw [← hv]
    rfl
  have hop : ∀ j p, v'.op j = some p →
      (j = i ∧ p.id = v.nextOpId ∧ p.loc.isSome = true) ∨ v.op j = some p := by
    intro j p hp
    rw [← hv, View.register_op] at hp
    split_ifs at hp with hj
    · obtain rfl := Option.some.inj hp
      exact .inl ⟨hj, rfl, rfl⟩
    · exact .inr hp
  have hnew : registeredCount v.nextOpId v'.log = 1 ∧ refusedCount v.nextOpId v'.log = 0 ∧
      takenCount v.nextOpId v'.log = 0 ∧ shimCount v.nextOpId v'.log = 0 := by
    rw [hlog, registeredCount_append, refusedCount_append, takenCount_append, shimCount_append,
      hreg, href, htaken, hshim]
    simp [registeredCount, refusedCount, takenCount, shimCount, Entry.isRegisteredAs,
      Entry.isRefusedAs, Entry.isTakenOf, Entry.isShimOf]
  have hold : ∀ id ≠ v.nextOpId, registeredCount id v'.log = registeredCount id v.log ∧
      refusedCount id v'.log = refusedCount id v.log ∧
      takenCount id v'.log = takenCount id v.log ∧ shimCount id v'.log = shimCount id v.log := by
    intro id hid
    rw [hlog]
    exact opCounts_append fun e he => by simpa [List.mem_singleton.mp he, Entry.op?] using hid.symm
  refine ⟨by omega, ?_, ?_, ?_, ?_, ?_, ?_, ?_⟩
  · intro j p hp
    rcases hop j p hp with ⟨-, hid, -⟩ | hp
    · exact hid ▸ h.next
    · exact h.ids j p hp
  · intro j k p q hp hq hid
    rcases hop j p hp with ⟨hj, hpid, -⟩ | hp' <;> rcases hop k q hq with ⟨hk, hqid, -⟩ | hq'
    · rw [hj, hk]
    · exact absurd (hid.symm.trans hpid) (hno k q hq')
    · exact absurd (hid.trans hqid) (hno j p hp')
    · exact h.inj j k p q hp' hq' hid
  · intro id hid
    obtain ⟨h1, h2, -⟩ := hold id (by omega)
    rw [h1, h2]
    exact h.issued id (by omega)
  · intro id
    by_cases hid : id = v.nextOpId
    · rw [hid, hnew.1, hnew.2.1]
    · rw [(hold id hid).1, (hold id hid).2.1]
      exact h.once id
  · intro j p hp
    rcases hop j p hp with ⟨-, hid, hloc⟩ | hp
    · rw [hid, hloc]
      exact ⟨hnew.1, hnew.2.2.2, hnew.2.2.1⟩
    · obtain ⟨h1, -, h3, h4⟩ := hold p.id (hno j p hp)
      rw [h1, h3, h4]
      exact h.live j p hp
  · intro id hgone
    have hid : id ≠ v.nextOpId := by
      rintro rfl
      refine hgone i ⟨v.nextOpId, false, .live shim done, some loc, run⟩ ?_ rfl
      rw [← hv, View.register_op, if_pos rfl]
    rw [(hold id hid).1, (hold id hid).2.2.1]
    apply h.gone
    intro j p hp
    have hj : j ≠ i := by
      rintro rfl
      rw [hi] at hp
      cases hp
    apply hgone j p
    rw [← hv, View.register_op, if_neg hj]
    exact hp
  · intro id
    by_cases hid : id = v.nextOpId
    · rw [hid, hnew.2.2.1, hnew.2.2.2]
    · rw [(hold id hid).2.2.1, (hold id hid).2.2.2]
      exact h.shims id

theorem refuse (h : v.OpTally) (bufs : List IoBufErased) (arena : BufArena) :
    (v.refuse bufs arena).OpTally := by
  obtain ⟨hreg, href, htaken, hshim, hno⟩ := h.fresh le_rfl
  have hlog : (v.refuse bufs arena).log = v.log ++ [.refused v.nextOpId bufs] := rfl
  have hnext : (v.refuse bufs arena).nextOpId = v.nextOpId + 1 := rfl
  have hnew : registeredCount v.nextOpId (v.refuse bufs arena).log = 0 ∧
      refusedCount v.nextOpId (v.refuse bufs arena).log = 1 ∧
      takenCount v.nextOpId (v.refuse bufs arena).log = 0 ∧
      shimCount v.nextOpId (v.refuse bufs arena).log = 0 := by
    rw [hlog, registeredCount_append, refusedCount_append, takenCount_append, shimCount_append,
      hreg, href, htaken, hshim]
    simp [registeredCount, refusedCount, takenCount, shimCount, Entry.isRegisteredAs,
      Entry.isRefusedAs, Entry.isTakenOf, Entry.isShimOf]
  have hold : ∀ id ≠ v.nextOpId,
      registeredCount id (v.refuse bufs arena).log = registeredCount id v.log ∧
      refusedCount id (v.refuse bufs arena).log = refusedCount id v.log ∧
      takenCount id (v.refuse bufs arena).log = takenCount id v.log ∧
      shimCount id (v.refuse bufs arena).log = shimCount id v.log := by
    intro id hid
    rw [hlog]
    exact opCounts_append fun e he => by simpa [List.mem_singleton.mp he, Entry.op?] using hid.symm
  refine ⟨Nat.succ_pos _, h.ids, h.inj, ?_, ?_, ?_, ?_, ?_⟩
  · intro id hid
    have hne : id ≠ v.nextOpId := by omega
    rw [(hold id hne).1, (hold id hne).2.1]
    exact h.issued id (by omega)
  · intro id
    by_cases hid : id = v.nextOpId
    · rw [hid, hnew.1, hnew.2.1]
    · rw [(hold id hid).1, (hold id hid).2.1]
      exact h.once id
  · intro j p hp
    obtain ⟨h1, -, h3, h4⟩ := hold p.id (hno j p hp)
    rw [h1, h3, h4]
    exact h.live j p hp
  · intro id hgone
    by_cases hid : id = v.nextOpId
    · rw [hid, hnew.1, hnew.2.2.1]
    · rw [(hold id hid).1, (hold id hid).2.2.1]
      exact h.gone id hgone
  · intro id
    by_cases hid : id = v.nextOpId
    · rw [hid, hnew.2.2.1, hnew.2.2.2]
    · rw [(hold id hid).2.2.1, (hold id hid).2.2.2]
      exact h.shims id

/-- The completion of a live op moves its local out. -/
theorem take (h : v.OpTally) (ho : v.op i = some o) (hloc : o.loc.isSome = true)
    (run : Option (ℕ × ℕ)) (cancelled : Bool) :
    ((v.setOp i (some { o with loc := none, run := run })).push
      (.completed o.id cancelled)).OpTally := by
  obtain ⟨hreg, hshim, htaken⟩ := h.live i o ho
  rw [hloc, if_pos rfl] at htaken
  generalize hv : (v.setOp i (some { o with loc := none, run := run })).push
    (.completed o.id cancelled) = v'
  have hlog : v'.log = v.log ++ [.completed o.id cancelled] := by
    rw [← hv]
    rfl
  have hnext : v'.nextOpId = v.nextOpId := by
    rw [← hv]
    rfl
  have hop : ∀ j, v'.op j = if j = i then some { o with loc := none, run := run } else v.op j := by
    rw [← hv]
    exact fun j => Function.update_apply ..
  have hown : ∀ j p, v'.op j = some p → ∃ q, v.op j = some q ∧ p.id = q.id ∧
      (p.id ≠ o.id → p.loc.isSome = q.loc.isSome) ∧ (p.id = o.id → p.loc = none) := by
    intro j p hp
    rw [hop] at hp
    split_ifs at hp with hj
    · obtain rfl := Option.some.inj hp
      exact ⟨o, hj ▸ ho, rfl, fun hne => absurd rfl hne, fun _ => rfl⟩
    · exact ⟨p, hp, rfl, fun _ => rfl, fun hid => absurd (h.inj j i p o hp ho hid) hj⟩
  have hnew : registeredCount o.id v'.log = 1 ∧ refusedCount o.id v'.log = refusedCount o.id v.log ∧
      takenCount o.id v'.log = 1 ∧ shimCount o.id v'.log = 0 := by
    rw [hlog, registeredCount_append, refusedCount_append, takenCount_append, shimCount_append,
      hreg, htaken, hshim]
    simp [registeredCount, refusedCount, takenCount, shimCount, Entry.isRegisteredAs,
      Entry.isRefusedAs, Entry.isTakenOf, Entry.isShimOf]
  have hold : ∀ id ≠ o.id, registeredCount id v'.log = registeredCount id v.log ∧
      refusedCount id v'.log = refusedCount id v.log ∧
      takenCount id v'.log = takenCount id v.log ∧ shimCount id v'.log = shimCount id v.log := by
    intro id hid
    rw [hlog]
    exact opCounts_append fun e he => by simpa [List.mem_singleton.mp he, Entry.op?] using hid.symm
  have hsubmitted : ∀ id, registeredCount id v'.log = registeredCount id v.log ∧
      refusedCount id v'.log = refusedCount id v.log := by
    intro id
    by_cases hid : id = o.id
    · rw [hid, hnew.1, hnew.2.1, hreg]
      exact ⟨rfl, rfl⟩
    · exact ⟨(hold id hid).1, (hold id hid).2.1⟩
  refine ⟨hnext ▸ h.next, ?_, ?_, ?_, ?_, ?_, ?_, ?_⟩
  · intro j p hp
    obtain ⟨q, hq, hid, -⟩ := hown j p hp
    exact hid ▸ h.ids j q hq
  · intro j k p q hp hq hid
    obtain ⟨p', hp', hpid, -⟩ := hown j p hp
    obtain ⟨q', hq', hqid, -⟩ := hown k q hq
    exact h.inj j k p' q' hp' hq' (hpid.symm.trans (hid.trans hqid))
  · intro id hid
    rw [(hsubmitted id).1, (hsubmitted id).2]
    exact h.issued id (hnext ▸ hid)
  · intro id
    rw [(hsubmitted id).1, (hsubmitted id).2]
    exact h.once id
  · intro j p hp
    obtain ⟨q, hq, hid, hkept, hnone⟩ := hown j p hp
    by_cases hpid : p.id = o.id
    · rw [hnone hpid, hpid]
      exact ⟨hnew.1, hnew.2.2.2, hnew.2.2.1⟩
    · obtain ⟨h1, -, h3, h4⟩ := hold p.id hpid
      rw [h1, h3, h4, hkept hpid, hid]
      exact h.live j q hq
  · intro id hgone
    have hid : id ≠ o.id := by
      rintro rfl
      refine hgone i { o with loc := none, run := run } ?_ rfl
      rw [hop, if_pos rfl]
    rw [(hold id hid).1, (hold id hid).2.2.1]
    apply h.gone
    intro j p hp
    by_cases hj : j = i
    · rw [hj, ho] at hp
      obtain rfl := Option.some.inj hp
      exact hid.symm
    · apply hgone j p
      rw [hop, if_neg hj]
      exact hp
  · intro id
    by_cases hid : id = o.id
    · rw [hid, hnew.2.2.1, hnew.2.2.2]
      exact Nat.zero_le _
    · rw [(hold id hid).2.2.1, (hold id hid).2.2.2]
      exact h.shims id

/-- An op leaves its slot once its local is out; its shim has not run. -/
theorem free (h : v.OpTally) (ho : v.op i = some o) (hloc : o.loc = none) :
    (v.setOp i none).OpTally ∧ takenCount o.id v.log = 1 ∧ shimCount o.id v.log = 0 := by
  obtain ⟨hreg, hshim, htaken⟩ := h.live i o ho
  rw [hloc] at htaken
  have hop : ∀ j p, (v.setOp i none).op j = some p → v.op j = some p := by
    intro j p hp
    rw [View.setOp_op] at hp
    split_ifs at hp
    exact hp
  refine ⟨⟨h.next, ?_, ?_, h.issued, h.once, ?_, ?_, h.shims⟩, htaken, hshim⟩
  · exact fun j p hp => h.ids j p (hop j p hp)
  · exact fun j k p q hp hq => h.inj j k p q (hop j p hp) (hop k q hq)
  · exact fun j p hp => h.live j p (hop j p hp)
  · intro id hgone
    by_cases hid : id = o.id
    · rw [hid, View.setOp_log, htaken, hreg]
      rfl
    · apply h.gone
      intro j p hp
      by_cases hj : j = i
      · rw [hj, ho] at hp
        obtain rfl := Option.some.inj hp
        exact Ne.symm hid
      · apply hgone j p
        rw [View.setOp_op, if_neg hj]
        exact hp

/-- The shim of an op that has left its slot runs. -/
theorem shim (h : v.OpTally) {id shim : ℕ} {args : OpShimArgs L} (htaken : takenCount id v.log = 1)
    (hshim : shimCount id v.log = 0) (hno : ∀ i o, v.op i = some o → o.id ≠ id) :
    (v.push (.shim id shim args)).OpTally := by
  have hsub : ∀ id', registeredCount id' (v.push (.shim id shim args)).log =
        registeredCount id' v.log ∧
      refusedCount id' (v.push (.shim id shim args)).log = refusedCount id' v.log ∧
      takenCount id' (v.push (.shim id shim args)).log = takenCount id' v.log := by
    intro id'
    rw [View.push_log, registeredCount_append, refusedCount_append, takenCount_append]
    exact ⟨rfl, rfl, rfl⟩
  have hother : ∀ id' ≠ id, shimCount id' (v.push (.shim id shim args)).log = shimCount id' v.log :=
    fun id' hne => (opCounts_append fun e he => by
      simpa [List.mem_singleton.mp he, Entry.op?] using hne.symm).2.2.2
  refine ⟨h.next, h.ids, h.inj, ?_, ?_, ?_, ?_, ?_⟩
  · intro id' hid
    rw [(hsub id').1, (hsub id').2.1]
    exact h.issued id' hid
  · intro id'
    rw [(hsub id').1, (hsub id').2.1]
    exact h.once id'
  · intro j p hp
    rw [(hsub p.id).1, (hsub p.id).2.2, hother p.id (hno j p hp)]
    exact h.live j p hp
  · intro id' hgone
    rw [(hsub id').1, (hsub id').2.2]
    exact h.gone id' hgone
  · intro id'
    rw [(hsub id').2.2]
    by_cases hid : id' = id
    · rw [hid, htaken, View.push_log, shimCount_append, hshim, Nat.zero_add]
      exact List.countP_le_length
    · rw [hother id' hid]
      exact h.shims id'

theorem effect (h : v.OpTally) {call : Call L} (he : call.Effect v v') : v'.OpTally := by
  cases call with
  | register shim done loc cls bufs accepted =>
    obtain ⟨run, arena, -, -, ⟨-, j, hj, rfl⟩ | ⟨-, arena', -, rfl⟩⟩ := he
    · exact h.register hj shim done loc bufs run arena
    · exact h.refuse bufs arena'
  | cancel op loc done accepted =>
    rcases he with ⟨-, rfl⟩ | ⟨-, rfl⟩ | ⟨-, j, o, ho, -, -, -, -, rfl⟩
    · exact h.frame rfl (List.append_assoc ..) (by simp [Entry.op?]) le_rfl
    · exact h.frame rfl (List.append_assoc ..) (by simp [Entry.op?]) (Nat.le_succ _)
    · have hcall : View.OpTally ({ v with
          calls := v.calls + 1
          nextOpId := v.nextOpId + 1
          backend.cancels := (j, v.nextOpId, op.id.val) :: v.backend.cancels }.setCancel j
          (some ⟨v.nextOpId, op.slot, op.id, .live done, some (v.calls, loc)⟩)) :=
        h.frame rfl (List.append_nil _).symm (by simp) (Nat.le_succ _)
      exact (hcall.push rfl).setOp ho rfl rfl

end View.OpTally

theorem callCounts_append {k : ℕ} (log : List (Entry L)) {log' : List (Entry L)} (h : ∀ e ∈ log', e.call? ≠ some k) :
    callCount k (log ++ log') = callCount k log ∧ ranCount k (log ++ log') = ranCount k log ∧
      droppedCount k (log ++ log') = droppedCount k log := by
  have hcall : callCount k log' = 0 := by
    apply List.countP_eq_zero.mpr
    intro e he hp
    apply h e he
    cases e with
    | cancelCall => simpa [Entry.isCallOf, Entry.call?] using hp
    | _ => cases hp
  obtain ⟨hran, hdropped⟩ := counts_fresh h
  rw [callCount_append, ranCount_append, droppedCount_append, hcall, hran, hdropped]
  exact ⟨rfl, rfl, rfl⟩

/-- A live cancel holds the local of a call of its own, which has neither run nor been dropped; of
every other call one of the two has happened. -/
structure View.CancelTally (v : View L) : Prop where
  numbered : ∀ e ∈ v.log, ∀ k, e.call? = some k → k < v.calls
  single : ∀ k, callCount k v.log ≤ 1
  held : ∀ j c, v.cancel j = some c → ∃ k l, c.loc = some (k, l) ∧ k < v.calls ∧
    callCount k v.log = 1 ∧ ranCount k v.log = 0 ∧ droppedCount k v.log = 0
  apart : ∀ j j' c c' k l l', v.cancel j = some c → v.cancel j' = some c' →
    c.loc = some (k, l) → c'.loc = some (k, l') → j = j'
  spent : ∀ k, (∀ j c l, v.cancel j = some c → c.loc ≠ some (k, l)) →
    ranCount k v.log + droppedCount k v.log = callCount k v.log

namespace View.CancelTally

variable {v v' : View L} {j : ℕ} {c : LiveCancel L}

theorem start : View.CancelTally (Runtime.new : Runtime L).view := by
  refine ⟨?_, fun _ => Nat.zero_le _, ?_, ?_, fun _ _ => rfl⟩ <;>
    simp [Runtime.view, Runtime.new]

/-- Steps that touch no cancel and log nothing about a call. -/
theorem frame (h : v.CancelTally) {new : List (Entry L)} (hc : v'.cancel = v.cancel)
    (hlog : v'.log = v.log ++ new) (hnew : ∀ e ∈ new, e.call? = none) (hcalls : v.calls ≤ v'.calls) :
    v'.CancelTally := by
  have hcounts : ∀ k, callCount k v'.log = callCount k v.log ∧
      ranCount k v'.log = ranCount k v.log ∧ droppedCount k v'.log = droppedCount k v.log := by
    intro k
    rw [hlog]
    exact callCounts_append _ fun e he => by simp [hnew e he]
  refine ⟨?_, ?_, ?_, ?_, ?_⟩
  · intro e he k hk
    rw [hlog] at he
    rcases List.mem_append.mp he with he | he
    · exact (h.numbered e he k hk).trans_le hcalls
    · rw [hnew e he] at hk
      cases hk
  · intro k
    rw [(hcounts k).1]
    exact h.single k
  · intro j c hj
    obtain ⟨k, l, hl, hk, hone⟩ := h.held j c (hc ▸ hj)
    rw [← (hcounts k).1, ← (hcounts k).2.1, ← (hcounts k).2.2] at hone
    exact ⟨k, l, hl, hk.trans_le hcalls, hone⟩
  · rw [hc]
    exact h.apart
  · intro k hno
    rw [(hcounts k).1, (hcounts k).2.1, (hcounts k).2.2]
    exact h.spent k (hc ▸ hno)

theorem push (h : v.CancelTally) {entry : Entry L} (he : entry.call? = none) :
    (v.push entry).CancelTally :=
  h.frame rfl rfl (by simpa using he) le_rfl

/-- A call not made yet is nowhere. -/
theorem fresh (h : v.CancelTally) : callCount v.calls v.log = 0 ∧ ranCount v.calls v.log = 0 ∧
    droppedCount v.calls v.log = 0 := by
  have hno : ∀ e ∈ v.log, e.call? ≠ some v.calls := fun e he hk =>
    absurd (h.numbered e he _ hk) (lt_irrefl _)
  exact callCounts_append [] hno

/-- A cancel call drops its local at once or leaves it in slot `j`. -/
theorem newCall (h : v.CancelTally) {new : List (Entry L)} (hlog : v'.log = v.log ++ new)
    (hcalls : v'.calls = v.calls + 1) (hnew : ∀ e ∈ new, e.call? = some v.calls)
    (hone : callCount v.calls new = 1) (hran : ranCount v.calls new = 0)
    (hc : (v'.cancel = v.cancel ∧ droppedCount v.calls new = 1) ∨
      (droppedCount v.calls new = 0 ∧ ∃ j c l, v.cancel j = none ∧ c.loc = some (v.calls, l) ∧
        v'.cancel = Function.update v.cancel j (some c))) : v'.CancelTally := by
  obtain ⟨hcall₀, hran₀, hdropped₀⟩ := h.fresh
  have hown : callCount v.calls v'.log = 1 ∧ ranCount v.calls v'.log = 0 ∧
      droppedCount v.calls v'.log = droppedCount v.calls new := by
    rw [hlog, callCount_append, ranCount_append, droppedCount_append, hcall₀, hran₀, hdropped₀,
      hone, hran]
    exact ⟨rfl, rfl, Nat.zero_add _⟩
  have hcounts : ∀ k ≠ v.calls, callCount k v'.log = callCount k v.log ∧
      ranCount k v'.log = ranCount k v.log ∧ droppedCount k v'.log = droppedCount k v.log := by
    intro k hk
    rw [hlog]
    exact callCounts_append _ fun e he => by simpa [hnew e he] using hk.symm
  have hcases : ∀ i p, v'.cancel i = some p → v.cancel i = some p ∨
      (droppedCount v.calls new = 0 ∧ v.cancel i = none ∧ ∃ l, p.loc = some (v.calls, l)) := by
    intro i p hp
    rcases hc with ⟨hsame, -⟩ | ⟨hzero, j, c, l, hj, hl, hset⟩
    · exact .inl (hsame ▸ hp)
    · rw [hset, Function.update_apply] at hp
      split_ifs at hp with hi
      · obtain rfl := Option.some.inj hp
        exact .inr ⟨hzero, hi ▸ hj, l, hl⟩
      · exact .inl hp
  have hold : ∀ i p, v.cancel i = some p → v'.cancel i = some p := by
    intro i p hp
    rcases hc with ⟨hsame, -⟩ | ⟨-, j, c, l, hj, -, hset⟩
    · exact hsame ▸ hp
    · have hi : i ≠ j := by
        rintro rfl
        rw [hj] at hp
        cases hp
      rw [hset, Function.update_of_ne hi]
      exact hp
  have hlt : ∀ i p k l, v.cancel i = some p → p.loc = some (k, l) → k < v.calls := by
    intro i p k l hp hl
    obtain ⟨k', l', hl', hk', -⟩ := h.held i p hp
    obtain ⟨rfl, -⟩ := Prod.mk.inj (Option.some.inj (hl'.symm.trans hl))
    exact hk'
  refine ⟨?_, ?_, ?_, ?_, ?_⟩
  · intro e he k hk
    rw [hcalls]
    rw [hlog] at he
    rcases List.mem_append.mp he with he | he
    · exact Nat.lt_succ_of_lt (h.numbered e he k hk)
    · rw [hnew e he] at hk
      exact Option.some.inj hk ▸ Nat.lt_succ_self _
  · intro k
    by_cases hk : k = v.calls
    · rw [hk, hown.1]
    · rw [(hcounts k hk).1]
      exact h.single k
  · intro i p hp
    rcases hcases i p hp with hp | ⟨hzero, -, l, hl⟩
    · obtain ⟨k, l, hl, hk, hone⟩ := h.held i p hp
      obtain ⟨h1, h2, h3⟩ := hcounts k hk.ne
      rw [← h1, ← h2, ← h3] at hone
      exact ⟨k, l, hl, by omega, hone⟩
    · exact ⟨v.calls, l, hl, by omega, hown.1, hown.2.1, hown.2.2.trans hzero⟩
  · intro i i' p p' k l l' hp hp' hl hl'
    rcases hcases i p hp with hp | ⟨-, hi, m, hm⟩ <;>
      rcases hcases i' p' hp' with hp' | ⟨-, hi', m', hm'⟩
    · exact h.apart i i' p p' k l l' hp hp' hl hl'
    · obtain ⟨rfl, -⟩ := Prod.mk.inj (Option.some.inj (hm'.symm.trans hl'))
      exact absurd (hlt i p _ l hp hl) (lt_irrefl _)
    · obtain ⟨rfl, -⟩ := Prod.mk.inj (Option.some.inj (hm.symm.trans hl))
      exact absurd (hlt i' p' _ l' hp' hl') (lt_irrefl _)
    · rcases hc with ⟨hsame, -⟩ | ⟨-, j, c, -, -, -, hset⟩
      · rw [hsame, hi] at hp
        cases hp
      · have hmem : ∀ n q, v'.cancel n = some q → v.cancel n = none → n = j := by
          intro n q hn hnone
          by_contra hne
          rw [hset, Function.update_of_ne hne, hnone] at hn
          cases hn
        rw [hmem i p hp hi, hmem i' p' hp' hi']
  · intro k hno
    by_cases hk : k = v.calls
    · rw [hk, hown.1, hown.2.1, hown.2.2]
      rcases hc with ⟨-, hone⟩ | ⟨-, j, c, l, -, hl, hset⟩
      · rw [hone]
      · refine absurd ?_ (hno j c l (by rw [hset, Function.update_self]))
        rw [hk]
        exact hl
    · rw [(hcounts k hk).1, (hcounts k hk).2.1, (hcounts k hk).2.2]
      exact h.spent k fun i p l hp => hno i p l (hold i p hp)

/-- A live cancel gives up its local: its callback runs with it, or it is dropped. -/
theorem close (h : v.CancelTally) (hj : v.cancel j = some c) {k : ℕ} {l : L}
    (hl : c.loc = some (k, l)) {entry : Entry L} (hk : entry.call? = some k)
    (hcall : entry.isCallOf k = false) : ((v.setCancel j none).push entry).CancelTally := by
  obtain ⟨k', l', hl', hlt, hone, hran, hdropped⟩ := h.held j c hj
  obtain ⟨rfl, -⟩ := Prod.mk.inj (Option.some.inj (hl'.symm.trans hl))
  have hown : callCount k' (v.log ++ [entry]) = 1 ∧
      ranCount k' (v.log ++ [entry]) + droppedCount k' (v.log ++ [entry]) = 1 := by
    rw [callCount_append, ranCount_append, droppedCount_append, hone, hran, hdropped,
      ranCount_one, droppedCount_one]
    cases entry with
    | cancelCall call => simp_all [Entry.isCallOf, Entry.call?]
    | cancelRan call =>
      obtain rfl : call = k' := Option.some.inj hk
      simp [callCount, Entry.isCallOf, Entry.isRan, Entry.isDropped]
    | cancelDropped call =>
      obtain rfl : call = k' := Option.some.inj hk
      simp [callCount, Entry.isCallOf, Entry.isRan, Entry.isDropped]
    | _ => cases hk
  have hcounts : ∀ m ≠ k', callCount m (v.log ++ [entry]) = callCount m v.log ∧
      ranCount m (v.log ++ [entry]) = ranCount m v.log ∧
      droppedCount m (v.log ++ [entry]) = droppedCount m v.log := by
    intro m hm
    exact callCounts_append _ fun e he => by simpa [List.mem_singleton.mp he, hk] using hm.symm
  have hother : ∀ i p, ((v.setCancel j none).push entry).cancel i = some p →
      v.cancel i = some p ∧ ∀ m l, p.loc = some (m, l) → m ≠ k' := by
    intro i p hp
    rw [View.push_cancel, View.setCancel_cancel] at hp
    split_ifs at hp with hi
    refine ⟨hp, ?_⟩
    rintro m l hm rfl
    exact hi (h.apart i j p c m l l' hp hj hm hl')
  refine ⟨?_, ?_, ?_, ?_, ?_⟩
  · intro e he m hm
    rcases List.mem_append.mp he with he | he
    · exact h.numbered e he m hm
    · rw [List.mem_singleton.mp he, hk] at hm
      exact Option.some.inj hm ▸ hlt
  · intro m
    by_cases hm : m = k'
    · rw [hm, View.push_log, View.setCancel_log, hown.1]
    · rw [View.push_log, View.setCancel_log, (hcounts m hm).1]
      exact h.single m
  · intro i p hp
    obtain ⟨hp, hne⟩ := hother i p hp
    obtain ⟨m, n, hm, hmlt, hcounted⟩ := h.held i p hp
    obtain ⟨h1, h2, h3⟩ := hcounts m (hne m n hm)
    rw [← h1, ← h2, ← h3] at hcounted
    exact ⟨m, n, hm, hmlt, hcounted⟩
  · intro i i' p p' m n n' hp hp' hm hm'
    exact h.apart i i' p p' m n n' (hother i p hp).1 (hother i' p' hp').1 hm hm'
  · intro m hno
    rw [View.push_log, View.setCancel_log]
    by_cases hm : m = k'
    · rw [hm, hown.1, hown.2]
    · rw [(hcounts m hm).1, (hcounts m hm).2.1, (hcounts m hm).2.2]
      apply h.spent
      intro i p n hp hn
      refine hno i p n ?_ hn
      have hi : i ≠ j := by
        rintro rfl
        rw [hj] at hp
        obtain rfl := Option.some.inj hp
        exact hm (Prod.mk.inj (Option.some.inj (hn.symm.trans hl'))).1
      rw [View.push_cancel, View.setCancel_cancel, if_neg hi]
      exact hp

theorem effect (h : v.CancelTally) {call : Call L} (he : call.Effect v v') : v'.CancelTally := by
  cases call with
  | register shim done loc cls bufs accepted =>
    obtain ⟨run, arena, -, -, ⟨-, j, hj, rfl⟩ | ⟨-, arena', -, rfl⟩⟩ := he
    · exact h.frame rfl rfl (by simp [Entry.call?]) le_rfl
    · exact h.frame rfl rfl (by simp [Entry.call?]) le_rfl
  | cancel op loc done accepted =>
    rcases he with ⟨-, rfl⟩ | ⟨-, rfl⟩ | ⟨-, j, o, ho, -, -, hj, -, rfl⟩
    · apply h.newCall (List.append_assoc ..) rfl
      · simp [Entry.call?]
      · simp [callCount, Entry.isCallOf]
      · simp [ranCount, Entry.isRan]
      · exact .inl ⟨rfl, by simp [droppedCount, Entry.isDropped]⟩
    · apply h.newCall (List.append_assoc ..) rfl
      · simp [Entry.call?]
      · simp [callCount, Entry.isCallOf]
      · simp [ranCount, Entry.isRan]
      · exact .inl ⟨rfl, by simp [droppedCount, Entry.isDropped]⟩
    · have hlog : (v.acceptCancel j op done loc o).log =
          v.log ++ [.cancelCall v.calls op.id done true] := rfl
      apply h.newCall hlog rfl
      · simp [Entry.call?]
      · simp [callCount, Entry.isCallOf]
      · simp [ranCount, Entry.isRan]
      · exact .inr ⟨rfl, j, _, loc, hj, rfl, rfl⟩

end View.CancelTally

structure View.Tally (v : View L) : Prop where
  ops : v.OpTally
  cancels : v.CancelTally

theorem View.Tally.start : View.Tally (Runtime.new : Runtime L).view := ⟨.start, .start⟩

theorem View.Tally.effect {v v' : View L} (h : v.Tally) {call : Call L} (he : call.Effect v v') :
    v'.Tally := ⟨h.ops.effect he, h.cancels.effect he⟩

/-- A step that got no further than using up ids and call numbers. -/
theorem View.Tally.stalled {v v' : View L} (h : v.Tally) (hv : Stalled v v') : v'.Tally := by
  have hlog : v'.log = v.log ++ [] := by rw [hv.log, List.append_nil]
  exact ⟨h.ops.frame hv.op hlog (by simp) hv.nextOpId, h.cancels.frame hv.cancel hlog (by simp) hv.calls⟩

end Conrt.Coio
