import Conrt.Coio.CancelBooks

/-! The cancel protocol holds over whole runs, as long as no late failure of one cancel strikes the
cancel that has taken its slot. -/
namespace Conrt.Coio

open Conrt.Base

variable {L : Type} {v v' : View L} {busy : Option ℕ} {i j : ℕ} {o : LiveOp L} {c : LiveCancel L}

theorem Call.Effect.quiet {call : Call L} (he : call.Effect v v') :
    ∃ es, v'.log = v.log ++ es ∧ ∀ e ∈ es, e.isCallback = false := by
  cases call with
  | register shim done loc cls bufs accepted =>
    obtain ⟨run, arena, -, -, ⟨-, i, -, rfl⟩ | ⟨-, arena', -, rfl⟩⟩ := he
    · exact ⟨[.registered v.nextOpId shim done loc bufs], rfl, by simp [Entry.isCallback]⟩
    · exact ⟨[.refused v.nextOpId bufs], rfl, by simp [Entry.isCallback]⟩
  | cancel op loc done accepted =>
    rcases he with ⟨-, rfl⟩ | ⟨-, rfl⟩ | ⟨-, j, o, -, -, -, -, -, rfl⟩
    · exact ⟨[.cancelCall v.calls op.id done false, .cancelDropped v.calls],
        by simp [View.rejectCancel], by simp [Entry.isCallback]⟩
    · exact ⟨[.cancelDropped v.calls, .cancelCall v.calls op.id done false],
        by simp [View.refuseCancel], by simp [Entry.isCallback]⟩
    · exact ⟨[.cancelCall v.calls op.id done true], rfl, by simp [Entry.isCallback]⟩

/-- A call that is turned down drops its local at once. -/
theorem Books.turnedDown (h : Books v) (target done : ℕ) (es : List (Entry L))
    (hlog : v'.log = v.log ++ es) (hcalls : v'.calls = v.calls + 1)
    (hes : ∀ e ∈ es, e = .cancelCall v.calls target done false ∨ e = .cancelDropped v.calls)
    (hone : ranCount v.calls es = 0 ∧ droppedCount v.calls es = 1) (hc : v'.cancel = v.cancel)
    (hv : v.backend.verdicts ⊆ v'.backend.verdicts) : Books v' := by
  have h0 := counts_fresh fun e he hk => (h.numbered e he v.calls hk).false
  refine h.newCall target done false hlog hcalls hes (.inr (.inl ⟨?_, ?_, by simp⟩)) (fun j c hj => by rw [hc, hj])
    (fun j c hj => .inl (by rw [← hc, hj])) hv
  · rw [hlog, ranCount_append, h0.1, hone.1]
  · rw [hlog, droppedCount_append, h0.2, hone.2]

theorem Books.acceptCancel (h : Books v) (hj : v.cancel j = none) (op : Op) (done : ℕ) (loc : L)
    (o : LiveOp L) : Books (v.acceptCancel j op done loc o) := by
  have hcan : ∀ k, (v.acceptCancel j op done loc o).cancel k =
      if k = j then some ⟨v.nextOpId, op.slot, op.id, .live done, some (v.calls, loc)⟩
        else v.cancel k := fun _ => Function.update_apply ..
  have h0 := counts_fresh fun e he hk => (h.numbered e he v.calls hk).false
  have hr : ranCount v.calls (v.acceptCancel j op done loc o).log = 0 := by
    simp [View.acceptCancel, h0.1, ranCount_one, Entry.isRan]
  have hd : droppedCount v.calls (v.acceptCancel j op done loc o).log = 0 := by
    simp [View.acceptCancel, h0.2, droppedCount_one, Entry.isDropped]
  have hcall : .cancelCall v.calls op.id done true ∈ (v.acceptCancel j op done loc o).log :=
    List.mem_append_right _ List.mem_cons_self
  refine h.newCall op.id done true rfl rfl (by simp)
    (.inr (.inr ⟨hr, hd, rfl, j, _, loc, by rw [hcan, if_pos rfl], rfl, rfl⟩)) (fun k c hk => ?_)
    (fun k c hk => ?_) fun _ hm => hm
  · have hkj : k ≠ j := by
      rintro rfl
      rw [hj] at hk
      cases hk
    rw [hcan, if_neg hkj, hk]
  · rw [hcan] at hk
    split_ifs at hk
    · obtain rfl := Option.some.inj hk
      exact .inr ⟨v.calls, loc, done, rfl, rfl, hcall, hr, hd⟩
    · exact .inl hk

namespace Protocol

theorem start : Protocol none (Runtime.new : Runtime L).view := by
  refine ⟨View.Sane.start, ⟨?_, ?_, ?_, ?_⟩, ⟨?_, ?_, ?_, ?_⟩, ⟨?_, ?_, ?_, ?_, ?_⟩⟩ <;>
    simp [Runtime.view, Runtime.new]

/-- Every call keeps the protocol, from outside and from within callbacks. -/
theorem effect (h : Protocol busy v) {call : Call L} (he : call.Effect v v') :
    Protocol busy v' := by
  have hs := h.sane.effect he
  cases call with
  | register shim done loc cls bufs accepted =>
    obtain ⟨run, arena, -, -, ⟨-, i, hi, rfl⟩ | ⟨-, arena', -, rfl⟩⟩ := he
    · refine ⟨hs, h.facts.register i shim done loc bufs run arena,
        h.marks.register hi shim done loc bufs run arena, ?_⟩
      exact h.books.extend [.registered v.nextOpId shim done loc bufs] rfl
        (by simp [Entry.call?]) rfl rfl fun _ hm => hm
    · refine ⟨hs, h.facts.congr (fun i o ho => ⟨o, ho, rfl, fun _ hl => hl⟩) (Nat.le_succ _) rfl
        (fun e hm => List.mem_append_left _ hm) fun id b hm => by simpa [View.refuse] using hm,
        h.marks.congr rfl (fun i o ho => ⟨o, ho, rfl, id⟩) (fun i o ho hp => ⟨o, ho, hp, rfl⟩)
          (Nat.le_succ _) fun _ hm => hm, ?_⟩
      exact h.books.extend [.refused v.nextOpId bufs] rfl (by simp [Entry.call?]) rfl rfl
        fun _ hm => hm
  | cancel op loc done accepted =>
    rcases he with ⟨-, rfl⟩ | ⟨-, rfl⟩ | ⟨-, j, o, ho, hid, hp, hj, -, rfl⟩
    · refine ⟨hs, h.facts.congr (fun i o ho => ⟨o, ho, rfl, fun _ hl => hl⟩) le_rfl rfl
        (fun e hm => List.mem_append_left _ (List.mem_append_left _ hm))
        fun id b hm => by simpa [View.rejectCancel] using hm,
        h.marks.congr rfl (fun i o ho => ⟨o, ho, rfl, id⟩) (fun i o ho hp => ⟨o, ho, hp, rfl⟩)
          le_rfl fun _ hm => hm, ?_⟩
      exact h.books.turnedDown op.id done [.cancelCall v.calls op.id done false,
        .cancelDropped v.calls] (by simp [View.rejectCancel]) rfl (by simp)
        (by simp [ranCount, droppedCount, Entry.isRan, Entry.isDropped]) rfl fun _ hm => hm
    · refine ⟨hs, h.facts.congr (fun i o ho => ⟨o, ho, rfl, fun _ hl => hl⟩) (Nat.le_succ _) rfl
        (fun e hm => List.mem_append_left _ (List.mem_append_left _ hm))
        fun id b hm => by simpa [View.refuseCancel] using hm,
        h.marks.congr rfl (fun i o ho => ⟨o, ho, rfl, id⟩) (fun i o ho hp => ⟨o, ho, hp, rfl⟩)
          (Nat.le_succ _) fun _ hm => hm, ?_⟩
      exact h.books.turnedDown op.id done [.cancelDropped v.calls,
        .cancelCall v.calls op.id done false] (by simp [View.refuseCancel]) rfl (by simp)
        (by simp [ranCount, droppedCount, Entry.isRan, Entry.isDropped]) rfl fun _ hm => hm
    · refine ⟨hs, ?_, h.marks.acceptCancel h.sane ho hid hp hj done loc,
        h.books.acceptCancel hj op done loc o⟩
      refine h.facts.congr (fun k p hk => ?_) (Nat.le_succ _) rfl
        (fun e hm => List.mem_append_left _ hm) fun id b hm => by simpa [View.acceptCancel] using hm
      have hop : (v.acceptCancel j op done loc o).op k =
          if k = op.slot then some { o with pending := true } else v.op k :=
        Function.update_apply ..
      rw [hop] at hk
      split_ifs at hk with hkj
      · obtain rfl := Option.some.inj hk
        exact ⟨o, hkj ▸ ho, rfl, fun _ hl => hl⟩
      · exact ⟨p, hk, rfl, fun _ hl => hl⟩

theorem arena (h : Protocol busy v) (arena : BufArena) : Protocol busy { v with arena := arena } :=
  ⟨h.sane.congr (fun _ o ho => ⟨o, ho, rfl⟩) rfl h.sane.armed le_rfl fun _ _ _ _ _ hm => hm,
    h.facts.congr (fun _ o ho => ⟨o, ho, rfl, fun _ hl => hl⟩) le_rfl rfl (fun _ hm => hm)
      fun _ _ hm => hm,
    h.marks.congr rfl (fun _ o ho => ⟨o, ho, rfl, id⟩) (fun _ o ho hp => ⟨o, ho, hp, rfl⟩) le_rfl
      fun _ hm => hm,
    h.books.extend [] (by simp) (by simp) rfl rfl fun _ hm => hm⟩

/-- Calling a shim says nothing of any cancel. -/
theorem shim (h : Protocol busy v) (id shim : ℕ) (args : OpShimArgs L) :
    Protocol busy (v.push (.shim id shim args)) :=
  ⟨h.sane.push rfl,
    h.facts.congr (fun _ o ho => ⟨o, ho, rfl, fun _ hl => hl⟩) le_rfl rfl
      (fun _ hm => mem_push.mpr (.inl hm)) fun _ _ hm => (mem_push.mp hm).resolve_right (by simp),
    h.marks.congr rfl (fun _ o ho => ⟨o, ho, rfl, fun hp => hp⟩)
      (fun _ o ho hp => ⟨o, ho, hp, rfl⟩) le_rfl fun _ hm => hm,
    h.books.extend [.shim id shim args] rfl (by simp [Entry.call?]) rfl rfl fun _ hm => hm⟩

/-- A completion is taken off the books, and what it says is noted. -/
theorem settle (h : Protocol none v) (i id : ℕ) {b : Bool}
    (hb : ∀ b', (id, b') ∈ v.backend.verdicts → b' = b) :
    Protocol none { v with backend :=
      ⟨v.backend.armed.erase (i, id), v.backend.cancels, (id, b) :: v.backend.verdicts⟩ } :=
  ⟨h.sane.settle i id _, h.facts.speak hb,
    h.marks.congr rfl (fun _ o ho => ⟨o, ho, rfl, fun hp => hp⟩)
      (fun _ o ho hp => ⟨o, ho, hp, rfl⟩) le_rfl fun _ hm => hm,
    h.books.extend [] (by simp) (by simp) rfl rfl fun _ hm => List.mem_cons_of_mem _ hm⟩

private theorem settleRequest (h : Protocol none v) (r : ℕ × ℕ × ℕ) {id : ℕ} {b : Bool}
    (hb : ∀ b', (id, b') ∈ v.backend.verdicts → b' = b) :
    Protocol none { v with backend :=
      ⟨v.backend.armed, v.backend.cancels.erase r, (id, b) :: v.backend.verdicts⟩ } :=
  ⟨h.sane.congr (fun _ o ho => ⟨o, ho, rfl⟩) rfl h.sane.armed le_rfl fun _ _ _ _ _ hm => hm,
    h.facts.speak hb,
    h.marks.congr rfl (fun _ o ho => ⟨o, ho, rfl, fun hp => hp⟩)
      (fun _ o ho hp => ⟨o, ho, hp, rfl⟩) le_rfl fun _ hm => List.mem_of_mem_erase hm,
    h.books.extend [] (by simp) (by simp) rfl rfl fun _ hm => List.mem_cons_of_mem _ hm⟩

/-- The op in slot `i` completes: from here on the slot is being settled. -/
theorem complete (h : Protocol none v) (ho : v.op i = some o) {b : Bool}
    (hb : (o.id, b) ∈ v.backend.verdicts) :
    Protocol (some i) ((v.setOp i (some { o with loc := none, run := none })).push
      (.completed o.id b)) := by
  have hs : (v.setOp i (some { o with loc := none, run := none })).Sane := h.sane.setOp ho rfl
  refine ⟨hs.push rfl, h.facts.complete h.sane ho hb, ?_, ?_⟩
  · refine (h.marks.exempt i).congr rfl (fun k p hk => ?_) (fun k p hk hp => ?_) le_rfl
      fun _ hm => hm <;> rw [View.push_op, View.setOp_op] at *
    · split_ifs with hki
      · rw [hki, ho] at hk
        obtain rfl := Option.some.inj hk
        exact ⟨_, rfl, rfl, id⟩
      · exact ⟨p, hk, rfl, id⟩
    · split_ifs at hk with hki
      · obtain rfl := Option.some.inj hk
        exact ⟨o, hki ▸ ho, hp, rfl⟩
      · exact ⟨p, hk, hp, rfl⟩
  · exact h.books.extend [.completed o.id b] rfl (by simp [Entry.call?]) rfl rfl fun _ hm => hm

/-- The live cancel of the op being settled is closed, by its callback or by dropping its local. -/
theorem close (h : Protocol (some i) v) (hj : v.cancel j = some c) (ht : c.target = i) {k : ℕ}
    {l : L} (hl : c.loc = some (k, l)) {entry : Entry L}
    (he : (∃ done before after, entry = .cancelRan k c.targetId done before after ∧
        c.body = .live done ∧ .completed c.targetId true ∈ v.log ∧
        ∃ shim done' bufs, .registered c.targetId shim done' before bufs ∈ v.log) ∨
      (entry = .cancelDropped k ∧ (c.targetId, false) ∈ v.backend.verdicts)) :
    Protocol (some i) ((v.setCancel j none).push entry) ∧
      ∀ k c', ((v.setCancel j none).push entry).cancel k = some c' → c'.target ≠ i := by
  have hr : entry.isRegistered = false := by
    rcases he with ⟨_, _, _, rfl, -⟩ | ⟨rfl, -⟩ <;> rfl
  have hc : ∀ id b, .completed id b ≠ entry := by
    intro id b
    rcases he with ⟨_, _, _, rfl, -⟩ | ⟨rfl, -⟩ <;> simp
  have hs : (v.setCancel j none).Sane :=
    h.sane.congr (fun _ o ho => ⟨o, ho, rfl⟩) rfl h.sane.armed le_rfl fun _ _ _ _ _ hm => hm
  obtain ⟨hm, hclear⟩ := h.marks.drop hj ht
  refine ⟨⟨hs.push hr, ?_, ?_, h.books.close h.marks.single hj hl he⟩, hclear⟩
  · exact h.facts.congr (fun _ o ho => ⟨o, ho, rfl, fun _ hl => hl⟩) le_rfl rfl
      (fun _ hm => mem_push.mpr (.inl hm)) fun id b hm => (mem_push.mp hm).resolve_right (hc id b)
  · exact hm.congr rfl (fun _ o ho => ⟨o, ho, rfl, id⟩) (fun _ o ho hp => ⟨o, ho, hp, rfl⟩) le_rfl
      fun _ hm => hm

/-- With no cancel on it, the mark of the op being settled is cleared. -/
theorem clear (h : Protocol (some i) v) (hn : ∀ k c, v.cancel k = some c → c.target ≠ i)
    (ho : v.op i = some o) : Protocol (some i) (v.setOp i (some { o with pending := false })) := by
  refine ⟨h.sane.setOp ho rfl, ?_, h.marks.settled hn _,
    h.books.extend [] (by simp) (by simp) rfl rfl fun _ hm => hm⟩
  refine h.facts.congr (fun k p hk => ?_) le_rfl rfl (fun _ hm => hm) fun _ _ hm => hm
  rw [View.setOp_op] at hk
  split_ifs at hk with hki
  · obtain rfl := Option.some.inj hk
    exact ⟨o, hki ▸ ho, rfl, fun _ hl => hl⟩
  · exact ⟨p, hk, rfl, fun _ hl => hl⟩

/-- The slot that has been settled is freed. -/
theorem free (h : Protocol (some i) v) (hn : ∀ k c, v.cancel k = some c → c.target ≠ i)
    (hu : ∀ id, (i, id) ∉ v.backend.armed) : Protocol none (v.setOp i none) := by
  refine ⟨h.sane.freeOp hu, h.facts.free, (h.marks.settled hn none).unbusy fun o ho => ?_,
    h.books.extend [] (by simp) (by simp) rfl rfl fun _ hm => hm⟩
  rw [View.setOp_op, if_pos rfl] at ho
  cases ho

/-- A cancel whose own completion reports failure is dropped and its target unmarked. -/
theorem fail (h : Protocol none v) (hj : v.cancel j = some c) {k : ℕ} {l : L}
    (hl : c.loc = some (k, l)) (hv : (c.targetId, false) ∈ v.backend.verdicts)
    (ho : v.op c.target = some o) :
    Protocol none (((v.setCancel j none).push (.cancelDropped k)).setOp c.target
      (some { o with pending := false })) := by
  have hs : (v.setCancel j none).Sane :=
    h.sane.congr (fun _ o ho => ⟨o, ho, rfl⟩) rfl h.sane.armed le_rfl fun _ _ _ _ _ hm => hm
  refine ⟨(hs.push rfl).setOp ho rfl, ?_, ?_, ?_⟩
  · refine h.facts.congr (fun m p hm => ?_) le_rfl rfl (fun _ hm => mem_push.mpr (.inl hm))
      fun _ _ hm => (mem_push.mp hm).resolve_right (by simp)
    rw [View.setOp_op] at hm
    split_ifs at hm with hmt
    · obtain rfl := Option.some.inj hm
      exact ⟨o, hmt ▸ ho, rfl, fun _ hl => hl⟩
    · exact ⟨p, hm, rfl, fun _ hl => hl⟩
  · obtain ⟨hm, hclear⟩ := (h.marks.exempt c.target).drop hj rfl
    have hpush : Marks (some c.target) ((v.setCancel j none).push (.cancelDropped k)) :=
      hm.congr rfl (fun _ o ho => ⟨o, ho, rfl, id⟩) (fun _ o ho hp => ⟨o, ho, hp, rfl⟩) le_rfl
        fun _ hm => hm
    refine (hpush.settled hclear _).unbusy fun p hp => ?_
    rw [View.setOp_op, if_pos rfl] at hp
    rw [← Option.some.inj hp]
  · exact (h.books.close h.marks.single hj hl (.inr ⟨rfl, hv⟩)).extend [] (by simp) (by simp) rfl
      rfl fun _ hm => hm

end Protocol

section

variable {rt : Runtime L}

/-- Between the completion of op `o` in slot `i` and the settling of its cancellation. -/
structure Opened (i : ℕ) (o : LiveOp L) (b : Bool) (l : L) (v : View L) : Prop where
  protocol : Protocol (some i) v
  live : v.op i = some o
  unarmed : ∀ id, (i, id) ∉ v.backend.armed
  said : .completed o.id b ∈ v.log
  marked : o.pending = true → ∃ j c, v.cancel j = some c ∧ c.target = i ∧ c.targetId = o.id
  loc : ∃ shim done bufs, .registered o.id shim done l bufs ∈ v.log
  paired : Paired v.log

/-- Once the cancellation is settled no live cancel names the slot, and if the cancel callback has
run it is the last callback so far. -/
structure Settled (i id : ℕ) (cancelled : Bool) (l : L) (v : View L) : Prop where
  protocol : Protocol (some i) v
  unarmed : ∀ id, (i, id) ∉ v.backend.armed
  clear : ∀ k c, v.cancel k = some c → c.target ≠ i
  next : if cancelled then Awaits id l v.log else Paired v.log

theorem Settled.effect {id : ℕ} {l : L} (h : Settled i id true l v) (hb : v.Busy i o)
    {call : Call L} (he : call.Effect v v') : Settled i id true l v' := by
  obtain ⟨es, hlog, hes⟩ := he.quiet
  have hb' := hb.effect he
  refine ⟨h.protocol.effect he, hb'.unarmed, fun k c hk ht => ?_, ?_⟩
  · -- a new cancel finds its target unmarked, and slot `i` is marked
    cases call with
    | register shim done loc cls bufs accepted =>
      obtain ⟨run, arena, -, -, ⟨-, m, -, rfl⟩ | ⟨-, arena', -, rfl⟩⟩ := he <;>
        exact h.clear k c hk ht
    | cancel op loc done accepted =>
      rcases he with ⟨-, rfl⟩ | ⟨-, rfl⟩ | ⟨-, j, p, hp, -, hpend, -, -, rfl⟩
      · exact h.clear k c hk ht
      · exact h.clear k c hk ht
      · have hcan : (v.acceptCancel j op done loc p).cancel k =
            if k = j then some ⟨v.nextOpId, op.slot, op.id, .live done, some (v.calls, loc)⟩
              else v.cancel k := Function.update_apply ..
        rw [hcan] at hk
        split_ifs at hk
        · obtain rfl := Option.some.inj hk
          have hslot : op.slot = i := ht
          rw [hslot, hb.live] at hp
          rw [← Option.some.inj hp, hb.pending] at hpend
          cases hpend
        · exact h.clear k c hk ht
  · rw [if_pos rfl, hlog]
    exact Awaits.append (by simpa using h.next) hes

theorem settled_unmark {id : ℕ} {cancelled : Bool} {l : L}
    (h : Settled i id cancelled l rt.view) (ho : rt.view.op i = some o) :
    Triple (· = rt) (clearPending i) (fun _ rt' => Settled i id cancelled l rt'.view)
      fun _ => True := by
  have h0 := (h.protocol.sane.ids i o ho).1
  refine (clearPending_spec (fun _ _ => trivial) ho h0.ne').post fun _ rt' hv => ?_
  rw [hv]
  exact ⟨h.protocol.clear h.clear ho, h.unarmed, h.clear, h.next⟩

theorem settleCancel_settles {b : Bool} {l : L} {r : Reaction L} (h : Opened i o b l rt.view) :
    Triple (· = rt) (settleCancel i o.pending (o.pending && b) l r)
      (fun l' rt' => Settled i o.id (o.pending && b) l' rt'.view) fun _ => True := by
  unfold settleCancel
  refine Triple.ite (fun hp => Triple.ite (fun hc => ?_) fun hc => ?_) fun hp => ?_
  · have hb : b = true := by simpa [hp] using hc
    have hrule := dispatchCancelOf_rule (E := fun _ => True) (fun _ _ => trivial) h.live l
      (r := r) (I := fun l' v => Settled i o.id true l' v ∧ v.Busy i o) ?_ fun l' => ?_
    · refine hrule.bind_eq fun l' rt₁ h₁ => ?_
      rcases h₁ with ⟨-, -, hno⟩ | h₁
      · obtain ⟨j, c, hj, ht, hid⟩ := h.marked hp
        exact absurd ⟨ht, hid⟩ (hno j c hj)
      · refine (settled_unmark h₁.1 h₁.2.live).bind_eq fun _ rt₂ h₂ => Triple.pure ?_
        rintro _ rfl
        rwa [hc]
    · intro j c loc done hj ht hid hbody hloc
      obtain ⟨shim, done', bufs, hreg⟩ := h.loc
      obtain ⟨hproto, hclear⟩ := h.protocol.close hj ht hloc
        (.inl ⟨done, l, r.left l loc.2, rfl, hbody, by rw [hid, ← hb]; exact h.said,
          shim, done', bufs, by rw [hid]; exact hreg⟩)
      rw [hid] at hproto hclear
      refine ⟨⟨hproto, h.unarmed, hclear, ?_⟩, ⟨h.live, h.unarmed, hp⟩⟩
      rw [if_pos rfl]
      exact Awaits.start h.paired loc.1 done l
    · refine CallsKeep.of_effect (fun _ _ => trivial) (fun v _ => ?_) fun call _ v v' hv he => ?_
      · exact fun _ => ⟨fun _ _ => trivial, fun _ _ _ _ _ => trivial⟩
      · exact ⟨hv.1.effect hv.2 he, hv.2.effect he⟩
  · have hb : b = false := by simpa [hp] using hc
    refine (dropCancelOf_spec (fun _ _ => trivial) h.live).bind_eq fun _ rt₁ h₁ => ?_
    rcases h₁ with ⟨-, hno⟩ | ⟨j, c, loc, hj, ht, hid, hloc, hv⟩
    · obtain ⟨j, c, hj, ht, hid⟩ := h.marked hp
      exact absurd ⟨ht, hid⟩ (hno j c hj)
    · have hverd := (h.protocol.facts.completed _ _ h.said).2
      obtain ⟨hproto, hclear⟩ := h.protocol.close hj ht hloc
        (.inr ⟨rfl, by rw [hid, ← hb]; exact hverd⟩)
      have hs : Settled i o.id false l rt₁.view := by
        rw [hv]
        refine ⟨hproto, h.unarmed, hclear, ?_⟩
        rw [if_neg (by simp)]
        exact h.paired.append trivial
      have ho : rt₁.view.op i = some o := by
        rw [hv]
        exact h.live
      refine (settled_unmark hs ho).bind_eq fun _ rt₂ h₂ => Triple.pure ?_
      rintro _ rfl
      rwa [hb, Bool.and_false]
  · refine Triple.pure ?_
    rintro _ rfl
    have hp : o.pending = false := by simpa using hp
    refine ⟨h.protocol, h.unarmed, fun k c hk ht => ?_, ?_⟩
    · obtain ⟨p, hpo, -, hpend⟩ := h.protocol.marks.target k c hk
      rw [ht, h.live] at hpo
      rw [← Option.some.inj hpo, hp] at hpend
      cases hpend
    · rw [hp, Bool.false_and, if_neg (by simp)]
      exact h.paired

/-- Between events nothing is being settled and every cancel callback has been answered. -/
structure Abides (v : View L) : Prop where
  protocol : Protocol none v
  paired : Paired v.log

theorem Abides.start : Abides (Runtime.new : Runtime L).view := ⟨Protocol.start, trivial⟩

theorem Abides.effect (h : Abides v) {call : Call L} (he : call.Effect v v') : Abides v' := by
  obtain ⟨es, hlog, hes⟩ := he.quiet
  exact ⟨h.protocol.effect he, hlog ▸ h.paired.append (paired_of_quiet hes)⟩

theorem calls_abide (calls : List (Call L)) : CallsKeep (fun _ => True) calls Abides :=
  CallsKeep.of_effect (fun _ _ => trivial)
    (fun _ _ _ => ⟨fun _ _ => trivial, fun _ _ _ _ _ => trivial⟩) fun _ _ _ _ hv he => hv.effect he

theorem dispatchShim_abides {id shim done cls : ℕ} {run : Option (ℕ × ℕ)} {cancelled : Bool}
    {result : ℤ} {flags : ℕ} {l : L} {calls : List (Call L)} (h : Protocol none rt.view)
    (hn : if cancelled then Awaits id l rt.view.log else Paired rt.view.log) :
    Triple (· = rt) (dispatchShim id shim run
      (if cancelled then .cancelled else .completed result flags) done l cls calls)
      (fun _ rt' => Abides rt'.view) fun _ => True := by
  refine dispatchShim_rule (I := Abides) (fun _ => trivial) (fun bufs _ => ?_) (calls_abide calls)
    (fun _ _ => trivial) fun v arena hv _ => ⟨hv.protocol.arena arena, hv.paired⟩
  refine ⟨(h.arena .new).shim id shim _, ?_⟩
  cases cancelled with
  | true => exact Awaits.answer (by simpa using hn) rfl
  | false =>
    have hp : Paired rt.view.log := by simpa using hn
    exact hp.append trivial

theorem completeOp_abides {completion : CompletedOp} {r : Reaction L} (h : Abides rt.view)
    (ho : rt.view.op i = some o) (hu : ∀ id, (i, id) ∉ rt.view.backend.armed)
    (hb : (o.id, completion.cancelled) ∈ rt.view.backend.verdicts) :
    Triple (· = rt) (completeOp i completion r) (fun _ rt' => Abides rt'.view) fun _ => True := by
  refine completeOp_rule (fun _ _ => trivial) ho
    (J := fun l v => Settled i o.id (o.pending && completion.cancelled) l v)
    (fun l rt' hl hv => ?_) fun l v rt' shim done _ hs hv => ?_
  · have hproto := h.protocol.complete ho hb
    rw [← hv] at hproto
    have hop : rt'.view.op i = some { o with loc := none, run := none } := by
      rw [hv, View.push_op, View.setOp_op, if_pos rfl]
    obtain ⟨s, d, bufs, hreg⟩ := h.protocol.facts.locals i o l ho hl
    refine settleCancel_settles (o := { o with loc := none, run := none })
      ⟨hproto, hop, ?_, ?_, fun hp => ?_, ⟨s, d, bufs, ?_⟩, ?_⟩ <;> rw [hv]
    · exact hu
    · exact mem_push.mpr (.inr rfl)
    · exact h.protocol.marks.marked i o ho hp (by simp)
    · exact mem_push.mpr (.inl hreg)
    · exact h.paired.append trivial
  · have hproto := hs.protocol.free hs.clear hs.unarmed
    rw [← hv] at hproto
    refine dispatchShim_abides hproto ?_
    rw [hv]
    exact hs.next

/-- The event reports the failure of a cancel whose slot holds another cancel by now. -/
def Runtime.strikesOther (rt : Runtime L) : Event L → Bool
  | .cancel slot id _ result =>
    result != 0 && rt.cancelSlab[slot]?.any fun c => !isFree c.id && c.id != id
  | _ => false

theorem strikesOther_cancel {id t : ℕ} {result : ℤ}
    (h : rt.strikesOther (.cancel j id t result) = false) (hr : result ≠ 0)
    (hc : rt.view.cancel j = some c) : c.id = id := by
  obtain ⟨slot, hs, hview⟩ := Option.bind_eq_some_iff.mp hc
  unfold CancelSlot.view at hview
  split_ifs at hview with hf
  obtain rfl := Option.some.inj hview
  simpa [Runtime.strikesOther, hs, hr, hf] using h

theorem exec_abides {e : Event L} (h : Abides rt.view) (ha : rt.backend.allows e = true)
    (hn : rt.strikesOther e = false) :
    Triple (· = rt) e.exec (fun _ rt' => Abides rt'.view) fun _ => True := by
  cases e with
  | outside calls => exact forEach_exec (calls_abide calls) h
  | op i id completion r =>
    simp only [Ledger.allows, Bool.and_eq_true, decide_eq_true_eq, List.all_eq_true] at ha
    obtain ⟨o, ho, rfl⟩ := h.protocol.sane.armed i id ha.1
    have hagree : ∀ b, (o.id, b) ∈ rt.view.backend.verdicts → b = completion.cancelled :=
      fun b hb => by simpa using ha.2 _ hb
    unfold Event.exec
    refine Triple.modify_bind (assertNamesLive_bind (fun _ _ => trivial) ?_)
    exact completeOp_abides ⟨h.protocol.settle i o.id hagree, h.paired⟩ ho
      (h.protocol.sane.unarmed ho) List.mem_cons_self
  | cancel j id t result =>
    simp only [Ledger.allows, Bool.and_eq_true, decide_eq_true_eq, List.all_eq_true] at ha
    have hagree : ∀ b, (t, b) ∈ rt.view.backend.verdicts → b = decide (result = 0) :=
      fun b hb => by simpa using ha.2 _ hb
    have hp := h.protocol.settleRequest (j, id, t) hagree
    unfold Event.exec
    refine Triple.modify_bind (cancelSlot_bind trivial fun slot _ => ?_)
    refine (completeCancel_spec fun _ _ => trivial).post fun _ rt' hv => ?_
    rcases hv with ⟨-, hv⟩ | ⟨c, loc, v, hc, hr, hloc, hv₁, h₁⟩
    · rw [hv]
      exact ⟨hp, h.paired⟩
    · have hid := strikesOther_cancel hn hr hc
      have ht : c.targetId = t := (h.protocol.marks.requests j id t ha.1).2 c hc hid
      obtain ⟨o, ho, hoid, hpend⟩ := h.protocol.marks.target j c hc
      rcases h₁ with ⟨o', ho', -, -, hv⟩ | ⟨hno, -⟩
      · rw [hv, hv₁]
        refine ⟨hp.fail hc hloc ?_ ho', h.paired.append trivial⟩
        rw [ht]
        have hfalse : decide (result = 0) = false := by simpa using hr
        exact hfalse ▸ List.mem_cons_self
      · exact absurd hoid (hno o ho hpend)

/-- How many live cancel slots hold the local of the call `k`. -/
def Runtime.heldCount (rt : Runtime L) (k : ℕ) : ℕ :=
  rt.cancelSlab.countP fun c => !isFree c.id && c.loc.any fun loc => loc.1 == k

/-- The cancel protocol. A callback runs exactly for the accepted calls whose target completed as
cancelled, over the local its target was registered with, and the target's shim is the next callback;
every call's local is used up once, and is held only while its target has yet to complete. -/
structure Runtime.CancelsSettle (rt : Runtime L) : Prop where
  ran_iff : ∀ k t done accepted, .cancelCall k t done accepted ∈ rt.log →
    (0 < ranCount k rt.log ↔ accepted = true ∧ .completed t true ∈ rt.log)
  once : ∀ k t done accepted, .cancelCall k t done accepted ∈ rt.log →
    ranCount k rt.log + droppedCount k rt.log + rt.heldCount k = 1
  held : ∀ k t done accepted, .cancelCall k t done accepted ∈ rt.log → 0 < rt.heldCount k →
    accepted = true ∧ ∀ b, .completed t b ∉ rt.log
  own : ∀ k t done before after, .cancelRan k t done before after ∈ rt.log →
    .cancelCall k t done true ∈ rt.log ∧
      ∃ shim done' bufs, .registered t shim done' before bufs ∈ rt.log
  next : Paired rt.log

private theorem countP_le_one {α : Type} {p : α → Bool} {l : List α}
    (h : ∀ (i j : ℕ) a b, l[i]? = some a → l[j]? = some b → p a = true → p b = true → i = j) :
    l.countP p ≤ 1 := by
  induction l with
  | nil => simp
  | cons a l ih =>
    by_cases ha : p a = true
    · have hl : l.countP p = 0 := by
        refine List.countP_eq_zero.mpr fun b hb hpb => ?_
        obtain ⟨i, hi⟩ := List.mem_iff_getElem?.mp hb
        exact absurd (h 0 (i + 1) a b rfl (by simpa using hi) ha hpb) (by omega)
      rw [List.countP_cons_of_pos ha, hl]
    · rw [List.countP_cons_of_neg ha]
      refine ih fun i j x y hi hj hx hy => ?_
      exact Nat.succ.inj (h (i + 1) (j + 1) x y (by simpa using hi) (by simpa using hj) hx hy)

theorem heldCount_pos {k : ℕ} :
    0 < rt.heldCount k ↔ ∃ j c l, rt.view.cancel j = some c ∧ c.loc = some (k, l) := by
  unfold Runtime.heldCount
  rw [List.countP_pos_iff]
  constructor
  · rintro ⟨slot, hm, hk⟩
    obtain ⟨j, hj⟩ := List.mem_iff_getElem?.mp hm
    simp only [Bool.and_eq_true, Bool.not_eq_true', Option.any_eq_true, beq_iff_eq] at hk
    obtain ⟨hf, loc, hloc, rfl⟩ := hk
    refine ⟨j, ⟨slot.id, slot.target, slot.targetId, slot.body, slot.loc⟩, loc.2, ?_, hloc⟩
    rw [view_cancel hj, CancelSlot.view, hf]
    rfl
  · rintro ⟨j, c, l, hj, hl⟩
    obtain ⟨slot, hs, hview⟩ := Option.bind_eq_some_iff.mp hj
    unfold CancelSlot.view at hview
    split_ifs at hview with hf
    obtain rfl := Option.some.inj hview
    have hloc : slot.loc = some (k, l) := hl
    exact ⟨slot, List.mem_of_getElem? hs, by simp [hf, hloc]⟩

/-- Two live cancels never hold the local of one call. -/
theorem Protocol.heldCount_le_one (h : Protocol none rt.view) (k : ℕ) : rt.heldCount k ≤ 1 := by
  refine countP_le_one fun i j a b hi hj ha hb => ?_
  simp only [Bool.and_eq_true, Bool.not_eq_true', Option.any_eq_true, beq_iff_eq] at ha hb
  obtain ⟨hfa, la, hla, rfl⟩ := ha
  obtain ⟨hfb, lb, hlb, hk⟩ := hb
  have hca := view_cancel hi
  have hcb := view_cancel hj
  rw [CancelSlot.view, hfa] at hca
  rw [CancelSlot.view, hfb] at hcb
  obtain ⟨k₁, l₁, d₁, h₁, -, hcall₁, -⟩ := h.books.slot i _ hca
  obtain ⟨k₂, l₂, d₂, h₂, -, hcall₂, -⟩ := h.books.slot j _ hcb
  obtain rfl : la = (k₁, l₁) := Option.some.inj (hla.symm.trans h₁)
  obtain rfl : lb = (k₂, l₂) := Option.some.inj (hlb.symm.trans h₂)
  obtain rfl : k₂ = k₁ := hk
  exact h.marks.single i j _ _ hca hcb (h.books.calls _ _ _ _ _ _ _ hcall₁ hcall₂).1

/-- What is held has neither run nor been dropped, and its target is still in flight. -/
theorem Abides.held (h : Abides rt.view) {k : ℕ} (hk : 0 < rt.heldCount k) :
    ∃ t done, .cancelCall k t done true ∈ rt.log ∧ ranCount k rt.log = 0 ∧
      droppedCount k rt.log = 0 ∧ ∀ b, .completed t b ∉ rt.log := by
  obtain ⟨j, c, l, hj, hl⟩ := heldCount_pos.mp hk
  obtain ⟨k', l', d, hl', -, hcall, hr, hd⟩ := h.protocol.books.slot j c hj
  obtain ⟨rfl, -⟩ := Prod.mk.inj (Option.some.inj (hl'.symm.trans hl))
  obtain ⟨o, ho, hid, -⟩ := h.protocol.marks.target j c hj
  exact ⟨c.targetId, d, hcall, hr, hd, hid ▸ h.protocol.facts.live _ o ho (by simp)⟩

theorem Abides.cancelsSettle (h : Abides rt.view) : rt.CancelsSettle := by
  have hzero : ∀ k, 0 < ranCount k rt.log + droppedCount k rt.log → rt.heldCount k = 0 := by
    intro k hpos
    by_contra hne
    obtain ⟨-, -, -, hr, hd, -⟩ := h.held (Nat.pos_of_ne_zero hne)
    omega
  refine ⟨fun k t d a hm => ?_, fun k t d a hm => ?_, fun k t d a hm hk => ?_, h.protocol.books.own,
    h.paired⟩
  · rcases h.protocol.books.fate k t d a hm with
      ⟨hr, -, ha, hc⟩ | ⟨hr, -, hv⟩ | ⟨hr, -, -, j, c, l, hj, -, rfl⟩
    · have hr : ranCount k rt.log = 1 := hr
      exact ⟨fun _ => ⟨ha, hc⟩, fun _ => by omega⟩
    · have hr : ranCount k rt.log = 0 := hr
      refine ⟨fun hpos => by omega, fun ⟨ha, hc⟩ => ?_⟩
      have htrue := (h.protocol.facts.completed t true hc).2
      exact absurd (h.protocol.facts.agree _ _ _ htrue (hv ha)) (by simp)
    · have hr : ranCount k rt.log = 0 := hr
      refine ⟨fun hpos => by omega, fun ⟨_, hc⟩ => ?_⟩
      obtain ⟨o, ho, hid, -⟩ := h.protocol.marks.target j c hj
      exact absurd (hid ▸ hc) (h.protocol.facts.live _ o ho (by simp) true)
  · rcases h.protocol.books.fate k t d a hm with
      ⟨hr, hd, -⟩ | ⟨hr, hd, -⟩ | ⟨hr, hd, -, j, c, l, hj, hl, -⟩ <;>
      have hr : ranCount k rt.log = _ := hr <;> have hd : droppedCount k rt.log = _ := hd
    · rw [hzero k (by omega), hr, hd]
    · rw [hzero k (by omega), hr, hd]
    · have hpos := heldCount_pos.mpr ⟨j, c, l, hj, hl⟩
      have hle := h.protocol.heldCount_le_one k
      omega
  · obtain ⟨t', d', hcall, -, -, hno⟩ := h.held hk
    obtain ⟨rfl, -, rfl⟩ := h.protocol.books.calls _ _ _ _ _ _ _ hm hcall
    exact ⟨rfl, hno⟩

theorem step_abides {e : Event L} {rt' : Runtime L} (h : Abides rt.view)
    (hn : rt.strikesOther e = false) (hstep : step rt e = some rt') : Abides rt'.view := by
  obtain ⟨ha, hx⟩ := exec_of_step hstep
  exact (exec_abides h ha hn).ok rfl hx

/-- The protocol holds in every state reached while no failure of a cancel arrives after another
cancel has taken its slot. -/
theorem run_cancelsSettle (h : Reaches step (fun rt e => rt.strikesOther e = false) .new rt) :
    rt.CancelsSettle :=
  (h.invariant (P := fun rt => Abides rt.view) Abides.start fun _ _ _ hs hn =>
    step_abides hs hn).cancelsSettle

end

def wonCancel : List (Event Unit) :=
  [.outside [.register 0 0 () 0 [] true, .cancel ⟨0, 0, idAfter 0⟩ () 7 true],
    .cancel 0 2 1 0, .op 0 1 ⟨-125, 0, 0, true⟩ ⟨fun l _ => l, [], []⟩]

theorem run_cancelsSettle_won : ∃ rt, run step .new wonCancel = some rt ∧
    ranCount 0 rt.log = 1 ∧ rt.CancelsSettle := by
  have hran : (run step .new wonCancel).map (ranCount 0 ·.log) = some 1 := by decide +kernel
  obtain ⟨rt, hrt, hr⟩ := Option.map_eq_some_iff.mp hran
  exact ⟨rt, hrt, hr, run_cancelsSettle (reaches_of_run (by decide +kernel) hrt)⟩

/-- Op 1 finishes before its cancel does; its shim cancels op 3 through the same cancel slot, and
then the late failure of the first cancel arrives. -/
def lateFailure : List (Event Unit) :=
  [.outside [.register 0 0 () 0 [] true, .cancel ⟨0, 0, idAfter 0⟩ () 7 true],
    .op 0 1 ⟨0, 0, 0, false⟩ ⟨fun l _ => l, [], [.register 0 0 () 0 [] true,
      .cancel ⟨0, 0, idAfter 2⟩ () 7 true]⟩,
    .cancel 0 2 1 (-2), .op 0 3 ⟨-125, 0, 0, true⟩ ⟨fun l _ => l, [], []⟩]

/-- An accepted cancel whose target completes as cancelled never runs its callback. -/
theorem late_failure_loses_cancel :
    ∃ rt, run step .new lateFailure = some rt ∧ ¬ rt.CancelsSettle := by
  have hlog : (run step .new lateFailure).map (·.log) = some
      [.registered 1 0 0 () [], .cancelCall 0 1 7 true, .completed 1 false, .cancelDropped 0,
        .shim 1 0 ⟨(), [], .completed 0 0, 0, 0⟩, .registered 3 0 0 () [],
        .cancelCall 1 3 7 true, .cancelDropped 1, .completed 3 true,
        .shim 3 0 ⟨(), [], .completed (-125) 0, 0, 0⟩] := by
    decide +kernel
  obtain ⟨rt, hrt, hrl⟩ := Option.map_eq_some_iff.mp hlog
  refine ⟨rt, hrt, fun h => ?_⟩
  have hran := (h.ran_iff 1 3 7 true (by simp [hrl])).mpr ⟨rfl, by simp [hrl]⟩
  rw [hrl] at hran
  revert hran
  decide

end Conrt.Coio
