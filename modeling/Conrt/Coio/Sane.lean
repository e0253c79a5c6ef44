import Conrt.Coio.Dispatch

/-! Ids name ops: what every reachable state keeps of ids, armed requests and registrations. -/
namespace Conrt.Coio

variable {L : Type} {v v' : View L} {i : ℕ} {o : LiveOp L}

/-- Live ops have distinct ids below the counter, each armed request names one of them, and no id
is registered twice. -/
structure View.Sane (v : View L) : Prop where
  next : 0 < v.nextOpId
  ids : ∀ i o, v.op i = some o → 0 < o.id ∧ o.id < v.nextOpId
  inj : ∀ i j o o', v.op i = some o → v.op j = some o' → o.id = o'.id → i = j
  armed : ∀ i id, (i, id) ∈ v.backend.armed → ∃ o, v.op i = some o ∧ o.id = id
  nodup : v.backend.armed.Nodup
  logged : ∀ id shim done loc bufs, .registered id shim done loc bufs ∈ v.log → id < v.nextOpId
  unique : ∀ id shim done loc bufs shim' done' loc' bufs',
    .registered id shim done loc bufs ∈ v.log → .registered id shim' done' loc' bufs' ∈ v.log →
      loc = loc' ∧ bufs = bufs'

def Entry.isRegistered : Entry L → Bool
  | .registered .. => true
  | _ => false

theorem mem_push {entry e : Entry L} : e ∈ (v.push entry).log ↔ e ∈ v.log ∨ e = entry := by
  simp [View.push]

theorem registered_push {entry : Entry L} (h : entry.isRegistered = false) {id shim done : ℕ}
    {loc : L} {bufs : List IoBufErased} :
    .registered id shim done loc bufs ∈ (v.push entry).log ↔
      .registered id shim done loc bufs ∈ v.log := by
  rw [mem_push]
  refine ⟨fun hm => hm.resolve_right ?_, .inl⟩
  rintro rfl
  cases h

namespace View.Sane

theorem start : View.Sane (Runtime.new : Runtime L).view := by
  refine ⟨Nat.one_pos, ?_, ?_, ?_, List.nodup_nil, ?_, ?_⟩ <;>
    simp [Runtime.view, Runtime.new]

/-- Ids, armed requests and registrations are all the invariant reads; the counter may grow. -/
theorem congr (h : v.Sane) (hop : ∀ i o', v'.op i = some o' → ∃ o, v.op i = some o ∧ o.id = o'.id)
    (harmed : v'.backend.armed = v.backend.armed) (hlive : ∀ i id, (i, id) ∈ v.backend.armed →
      ∃ o', v'.op i = some o' ∧ o'.id = id)
    (hnext : v.nextOpId ≤ v'.nextOpId)
    (hlog : ∀ id shim done loc bufs, .registered id shim done loc bufs ∈ v'.log →
      .registered id shim done loc bufs ∈ v.log) : v'.Sane := by
  refine ⟨h.next.trans_le hnext, ?_, ?_, ?_, harmed ▸ h.nodup, ?_, ?_⟩
  · intro i o' ho'
    obtain ⟨o, ho, hid⟩ := hop i o' ho'
    exact hid ▸ ⟨(h.ids i o ho).1, (h.ids i o ho).2.trans_le hnext⟩
  · intro i j o' p' ho' hp' hid
    obtain ⟨o, ho, ho1⟩ := hop i o' ho'
    obtain ⟨p, hp, hp1⟩ := hop j p' hp'
    exact h.inj i j o p ho hp (ho1.trans (hid.trans hp1.symm))
  · exact fun i id hm => hlive i id (harmed ▸ hm)
  · exact fun id s d l b hm => (h.logged id s d l b (hlog _ _ _ _ _ hm)).trans_le hnext
  · exact fun id s d l b s' d' l' b' h1 h2 =>
      h.unique id s d l b s' d' l' b' (hlog _ _ _ _ _ h1) (hlog _ _ _ _ _ h2)

theorem push (h : v.Sane) {entry : Entry L} (he : entry.isRegistered = false) :
    (v.push entry).Sane :=
  h.congr (fun _ o ho => ⟨o, ho, rfl⟩) rfl h.armed le_rfl fun _ _ _ _ _ hm =>
    (registered_push he).mp hm

/-- A live op may change anything but its id. -/
theorem setOp (h : v.Sane) (ho : v.op i = some o) {o' : LiveOp L} (hid : o'.id = o.id) :
    (v.setOp i (some o')).Sane := by
  refine h.congr (fun j p hp => ?_) rfl (fun j id hm => ?_) le_rfl fun _ _ _ _ _ hm => hm
  · rw [View.setOp_op] at hp
    split_ifs at hp with hj
    · exact ⟨o, hj ▸ ho, Option.some.inj hp ▸ hid.symm⟩
    · exact ⟨p, hp, rfl⟩
  · obtain ⟨p, hp, hpid⟩ := h.armed j id hm
    rw [View.setOp_op]
    split_ifs with hj
    · rw [hj, ho] at hp
      exact ⟨o', rfl, by rw [hid, Option.some.inj hp, hpid]⟩
    · exact ⟨p, hp, hpid⟩

/-- An op whose request is no longer armed may leave its slot. -/
theorem freeOp (h : v.Sane) (hn : ∀ id, (i, id) ∉ v.backend.armed) : (v.setOp i none).Sane := by
  refine h.congr (fun j p hp => ?_) rfl (fun j id hm => ?_) le_rfl fun _ _ _ _ _ hm => hm
  · rw [View.setOp_op] at hp
    split_ifs at hp with hj
    exact ⟨p, hp, rfl⟩
  · have hj : j ≠ i := by
      rintro rfl
      exact hn id hm
    rw [View.setOp_op, if_neg hj]
    exact h.armed j id hm

theorem register (h : v.Sane) (hi : v.op i = none) (shim done : ℕ) (loc : L)
    (bufs : List IoBufErased) (run : Option (ℕ × ℕ)) (arena : BufArena) :
    (v.register i shim done loc bufs run arena).Sane := by
  have hop : ∀ j p, (v.register i shim done loc bufs run arena).op j = some p →
      (j = i ∧ p.id = v.nextOpId) ∨ v.op j = some p := by
    intro j p hp
    rw [register_op] at hp
    split_ifs at hp with hj
    · exact .inl ⟨hj, Option.some.inj hp ▸ rfl⟩
    · exact .inr hp
  have hlog : ∀ id s d l b, .registered id s d l b ∈
      (v.register i shim done loc bufs run arena).log →
      .registered id s d l b ∈ v.log ∨ (id = v.nextOpId ∧ l = loc ∧ b = bufs) := by
    intro id s d l b hm
    rcases List.mem_append.mp hm with hm | hm
    · exact .inl hm
    · obtain ⟨rfl, -, -, rfl, rfl⟩ : id = v.nextOpId ∧ s = shim ∧ d = done ∧ l = loc ∧ b = bufs := by
        simpa using hm
      exact .inr ⟨rfl, rfl, rfl⟩
  have hold : ∀ id, (i, id) ∉ v.backend.armed := by
    intro id hm
    obtain ⟨p, hp, -⟩ := h.armed i id hm
    rw [hi] at hp
    cases hp
  refine ⟨Nat.succ_pos _, ?_, ?_, ?_, ?_, ?_, ?_⟩
  · intro j p hp
    rcases hop j p hp with ⟨-, hid⟩ | hp
    · exact hid ▸ ⟨h.next, Nat.lt_succ_self _⟩
    · exact ⟨(h.ids j p hp).1, Nat.lt_succ_of_lt (h.ids j p hp).2⟩
  · intro j k p q hp hq hid
    rcases hop j p hp with ⟨hj, hpid⟩ | hp' <;> rcases hop k q hq with ⟨hk, hqid⟩ | hq'
    · rw [hj, hk]
    · exact absurd (h.ids k q hq').2 (by omega)
    · exact absurd (h.ids j p hp').2 (by omega)
    · exact h.inj j k p q hp' hq' hid
  · intro j id hm
    rw [register_op]
    rcases List.mem_cons.mp hm with heq | hm'
    · obtain ⟨rfl, rfl⟩ := Prod.mk.inj heq
      exact ⟨_, if_pos rfl, rfl⟩
    · have hj : j ≠ i := fun hj => hold id (hj ▸ hm')
      rw [if_neg hj]
      exact h.armed j id hm'
  · exact List.nodup_cons.mpr ⟨hold _, h.nodup⟩
  · intro id s d l b hm
    rcases hlog id s d l b hm with hm | ⟨rfl, -⟩
    · exact Nat.lt_succ_of_lt (h.logged id s d l b hm)
    · exact Nat.lt_succ_self _
  · intro id s d l b s' d' l' b' h1 h2
    rcases hlog _ _ _ _ _ h1 with h1 | ⟨hid, hl, hb⟩ <;>
      rcases hlog _ _ _ _ _ h2 with h2 | ⟨hid', hl', hb'⟩
    · exact h.unique _ _ _ _ _ _ _ _ _ h1 h2
    · exact absurd (h.logged _ _ _ _ _ h1) (by omega)
    · exact absurd (h.logged _ _ _ _ _ h2) (by omega)
    · exact ⟨hl.trans hl'.symm, hb.trans hb'.symm⟩

theorem effect (h : v.Sane) {call : Call L} (he : call.Effect v v') : v'.Sane := by
  cases call with
  | register shim done loc cls bufs accepted =>
    obtain ⟨run, arena, -, -, ⟨-, i, hi, rfl⟩ | ⟨-, arena', -, rfl⟩⟩ := he
    · exact h.register hi shim done loc bufs run arena
    · exact h.congr (fun _ o ho => ⟨o, ho, rfl⟩) rfl h.armed (Nat.le_succ _) fun _ _ _ _ _ hm =>
        (registered_push (v := { v with arena := arena', nextOpId := v.nextOpId + 1 }) rfl).mp hm
  | cancel op loc done accepted =>
    rcases he with ⟨-, rfl⟩ | ⟨-, rfl⟩ | ⟨-, j, o, ho, -, -, -, -, rfl⟩
    · have hbase : View.Sane { v with calls := v.calls + 1 } :=
        h.congr (fun _ o ho => ⟨o, ho, rfl⟩) rfl h.armed le_rfl fun _ _ _ _ _ hm => hm
      exact (hbase.push rfl).push rfl
    · have hbase : View.Sane { v with calls := v.calls + 1, nextOpId := v.nextOpId + 1 } :=
        h.congr (fun _ o ho => ⟨o, ho, rfl⟩) rfl h.armed (Nat.le_succ _) fun _ _ _ _ _ hm => hm
      exact (hbase.push rfl).push rfl
    · have hbase : View.Sane ({ v with
          calls := v.calls + 1
          nextOpId := v.nextOpId + 1
          backend.cancels := (j, v.nextOpId, op.id.val) :: v.backend.cancels }.setCancel j
          (some ⟨v.nextOpId, op.slot, op.id, .live done, some (v.calls, loc)⟩)) :=
        h.congr (fun _ o ho => ⟨o, ho, rfl⟩) rfl h.armed (Nat.le_succ _) fun _ _ _ _ _ hm => hm
      exact (hbase.push rfl).setOp ho rfl

/-- Delivering a completion takes its request off the books. -/
theorem settle (h : v.Sane) (i id : ℕ) (verdicts : List (ℕ × Bool)) : View.Sane { v with
    backend.armed := v.backend.armed.erase (i, id)
    backend.verdicts := verdicts } :=
  ⟨h.next, h.ids, h.inj, fun j id hm => h.armed j id (List.mem_of_mem_erase hm),
    h.nodup.erase _, h.logged, h.unique⟩

/-- Once its request is off the books, a slot has no armed request left. -/
theorem unarmed (h : v.Sane) (ho : v.op i = some o) (id : ℕ) :
    (i, id) ∉ v.backend.armed.erase (i, o.id) := by
  intro hm
  obtain ⟨p, hp, rfl⟩ := h.armed i id (List.mem_of_mem_erase hm)
  obtain rfl := Option.some.inj (hp.symm.trans ho)
  exact (h.nodup.mem_erase_iff.mp hm).1 rfl

end View.Sane

/-- Ids only move forward: an op not there before has a fresh id and is armed, and nothing is disarmed. -/
structure View.Grows (v v' : View L) : Prop where
  next : v.nextOpId ≤ v'.nextOpId
  origin : ∀ i o', v'.op i = some o' → (v.nextOpId ≤ o'.id ∧ (i, o'.id) ∈ v'.backend.armed) ∨
    ∃ o, v.op i = some o ∧ o.id = o'.id
  armed : ∀ x ∈ v.backend.armed, x ∈ v'.backend.armed
  fresh : ∀ x ∈ v'.backend.armed, x ∈ v.backend.armed ∨ v.nextOpId ≤ x.2

theorem Call.Effect.grows {call : Call L} (he : call.Effect v v') : v.Grows v' := by
  cases call with
  | register shim done loc cls bufs accepted =>
    obtain ⟨run, arena, -, -, ⟨-, j, hj, rfl⟩ | ⟨-, arena', -, rfl⟩⟩ := he
    · refine ⟨Nat.le_succ _, fun k p hp => ?_, fun _ hm => List.mem_cons_of_mem _ hm, fun x hm => ?_⟩
      · rw [View.register_op] at hp
        split_ifs at hp with hk
        · obtain rfl := Option.some.inj hp
          exact .inl ⟨le_rfl, hk ▸ List.mem_cons_self⟩
        · exact .inr ⟨p, hp, rfl⟩
      · rcases List.mem_cons.mp hm with rfl | hm
        · exact .inr le_rfl
        · exact .inl hm
    · exact ⟨Nat.le_succ _, fun _ p hp => .inr ⟨p, hp, rfl⟩, fun _ hm => hm, fun _ hm => .inl hm⟩
  | cancel op loc done accepted =>
    rcases he with ⟨-, rfl⟩ | ⟨-, rfl⟩ | ⟨-, j, o, ho, -, -, -, -, rfl⟩
    · exact ⟨le_rfl, fun _ p hp => .inr ⟨p, hp, rfl⟩, fun _ hm => hm, fun _ hm => .inl hm⟩
    · exact ⟨Nat.le_succ _, fun _ p hp => .inr ⟨p, hp, rfl⟩, fun _ hm => hm, fun _ hm => .inl hm⟩
    · refine ⟨Nat.le_succ _, fun k p hp => .inr ?_, fun _ hm => hm, fun _ hm => .inl hm⟩
      have hp : (if k = op.slot then some { o with pending := true } else v.op k) = some p := by
        rw [← hp]
        exact (View.setOp_op _ _ _ _).symm
      split_ifs at hp with hk
      · obtain rfl := Option.some.inj hp
        exact ⟨o, hk ▸ ho, rfl⟩
      · exact ⟨p, hp, rfl⟩

/-- No call takes the slot of a live op, and none arms it again. -/
theorem Call.Effect.spares {call : Call L} (he : call.Effect v v') (ho : v.op i = some o)
    (hun : ∀ id, (i, id) ∉ v.backend.armed) :
    (∃ p, v'.op i = some p ∧ p.id = o.id ∧ p.loc = o.loc) ∧ ∀ id, (i, id) ∉ v'.backend.armed := by
  cases call with
  | register shim done loc cls bufs accepted =>
    obtain ⟨run, arena, -, -, ⟨-, j, hj, rfl⟩ | ⟨-, arena', -, rfl⟩⟩ := he
    · have hij : i ≠ j := by
        rintro rfl
        rw [hj] at ho
        cases ho
      refine ⟨⟨o, by rw [View.register_op, if_neg hij]; exact ho, rfl, rfl⟩, fun id hm => ?_⟩
      rcases List.mem_cons.mp hm with heq | hm
      · exact hij (Prod.mk.inj heq).1
      · exact hun id hm
    · exact ⟨⟨o, ho, rfl, rfl⟩, hun⟩
  | cancel op loc done accepted =>
    rcases he with ⟨-, rfl⟩ | ⟨-, rfl⟩ | ⟨-, j, p, hp, -, -, -, -, rfl⟩
    · exact ⟨⟨o, ho, rfl, rfl⟩, hun⟩
    · exact ⟨⟨o, ho, rfl, rfl⟩, hun⟩
    · refine ⟨?_, hun⟩
      by_cases hi : i = op.slot
      · rw [hi] at ho ⊢
        obtain rfl := Option.some.inj (hp.symm.trans ho)
        exact ⟨{ p with pending := true }, Function.update_self .., rfl, rfl⟩
      · exact ⟨o, (Function.update_of_ne hi ..).trans ho, rfl, rfl⟩

/-- Slot `i` is between its completion and being freed: it holds `o`, nothing is armed on it, and a
pending cancellation bars any other. -/
structure View.Busy (v : View L) (i : ℕ) (o : LiveOp L) : Prop where
  live : v.op i = some o
  unarmed : ∀ id, (i, id) ∉ v.backend.armed
  pending : o.pending = true

theorem View.Busy.effect (h : v.Busy i o) {call : Call L} (he : call.Effect v v') : v'.Busy i o := by
  cases call with
  | register shim done loc cls bufs accepted =>
    obtain ⟨run, arena, -, -, ⟨-, j, hj, rfl⟩ | ⟨-, arena', -, rfl⟩⟩ := he
    · have hij : i ≠ j := by
        rintro rfl
        rw [h.live] at hj
        cases hj
      refine ⟨?_, fun id hm => ?_, h.pending⟩
      · rw [View.register_op, if_neg hij]
        exact h.live
      · rcases List.mem_cons.mp hm with heq | hm
        · exact hij (Prod.mk.inj heq).1
        · exact h.unarmed id hm
    · exact ⟨h.live, h.unarmed, h.pending⟩
  | cancel op loc done accepted =>
    rcases he with ⟨-, rfl⟩ | ⟨-, rfl⟩ | ⟨-, j, p, hp, -, hpend, -, -, rfl⟩
    · exact ⟨h.live, h.unarmed, h.pending⟩
    · exact ⟨h.live, h.unarmed, h.pending⟩
    · have hi : i ≠ op.slot := by
        rintro rfl
        obtain rfl := Option.some.inj (hp.symm.trans h.live)
        rw [h.pending] at hpend
        cases hpend
      exact ⟨(Function.update_of_ne hi ..).trans h.live, h.unarmed, h.pending⟩

end Conrt.Coio
