import Conrt.Coio.CancelLog

/-! The cancel protocol's invariant: what completions have said, how pending marks and cancel slots
name each other, and what has become of every cancel call. -/
namespace Conrt.Coio

variable {L : Type} {v v' : View L} {busy : Option ℕ} {i j : ℕ} {o : LiveOp L} {c : LiveCancel L}

/-- What has been said of completed ops. `busy` is the slot whose completion is being settled. -/
structure Facts (busy : Option ℕ) (v : View L) : Prop where
  live : ∀ i o, v.op i = some o → busy ≠ some i → ∀ b, .completed o.id b ∉ v.log
  locals : ∀ i o l, v.op i = some o → o.loc = some l →
    ∃ shim done bufs, .registered o.id shim done l bufs ∈ v.log
  completed : ∀ id b, .completed id b ∈ v.log →
    id < v.nextOpId ∧ (id, b) ∈ v.backend.verdicts
  agree : ∀ id b b', (id, b) ∈ v.backend.verdicts → (id, b') ∈ v.backend.verdicts → b = b'

/-- A live cancel names an op marked as pending, and a pending mark is matched by a live cancel,
except at the slot being settled. -/
structure Marks (busy : Option ℕ) (v : View L) : Prop where
  target : ∀ j c, v.cancel j = some c →
    ∃ o, v.op c.target = some o ∧ o.id = c.targetId ∧ o.pending = true
  single : ∀ j j' c c', v.cancel j = some c → v.cancel j' = some c' →
    c.targetId = c'.targetId → j = j'
  marked : ∀ i o, v.op i = some o → o.pending = true → busy ≠ some i →
    ∃ j c, v.cancel j = some c ∧ c.target = i ∧ c.targetId = o.id
  requests : ∀ j id t, (j, id, t) ∈ v.backend.cancels →
    id < v.nextOpId ∧ ∀ c, v.cancel j = some c → c.id = id → c.targetId = t

/-- What has become of the call `k` on op `t`: its callback ran, or its local was dropped, or a live
cancel holds it. -/
def Fate (v : View L) (k t : ℕ) (accepted : Bool) : Prop :=
  (ranCount k v.log = 1 ∧ droppedCount k v.log = 0 ∧ accepted = true ∧
    .completed t true ∈ v.log) ∨
  (ranCount k v.log = 0 ∧ droppedCount k v.log = 1 ∧
    (accepted = true → (t, false) ∈ v.backend.verdicts)) ∨
  (ranCount k v.log = 0 ∧ droppedCount k v.log = 0 ∧ accepted = true ∧
    ∃ j c l, v.cancel j = some c ∧ c.loc = some (k, l) ∧ c.targetId = t)

def LiveCancel.Books (c : LiveCancel L) (log : List (Entry L)) : Prop :=
  ∃ k l done, c.loc = some (k, l) ∧ c.body = .live done ∧
    .cancelCall k c.targetId done true ∈ log ∧ ranCount k log = 0 ∧ droppedCount k log = 0

structure Books (v : View L) : Prop where
  slot : ∀ j c, v.cancel j = some c → c.Books v.log
  numbered : ∀ e ∈ v.log, ∀ k, e.call? = some k → k < v.calls
  calls : ∀ k t done a t' done' a', .cancelCall k t done a ∈ v.log →
    .cancelCall k t' done' a' ∈ v.log → t = t' ∧ done = done' ∧ a = a'
  fate : ∀ k t done a, .cancelCall k t done a ∈ v.log → Fate v k t a
  own : ∀ k t done before after, .cancelRan k t done before after ∈ v.log →
    .cancelCall k t done true ∈ v.log ∧
      ∃ shim done' bufs, .registered t shim done' before bufs ∈ v.log

structure Protocol (busy : Option ℕ) (v : View L) : Prop where
  sane : v.Sane
  facts : Facts busy v
  marks : Marks busy v
  books : Books v

namespace Facts

/-- Ops may leave or change anything but their ids, and lose their locals. -/
theorem congr (h : Facts busy v) (hop : ∀ i o', v'.op i = some o' → ∃ o, v.op i = some o ∧
      o.id = o'.id ∧ ∀ l, o'.loc = some l → o.loc = some l)
    (hnext : v.nextOpId ≤ v'.nextOpId) (hv : v'.backend.verdicts = v.backend.verdicts)
    (hlog : ∀ e ∈ v.log, e ∈ v'.log)
    (hnew : ∀ id b, .completed id b ∈ v'.log → .completed id b ∈ v.log) : Facts busy v' := by
  refine ⟨fun i o' ho' hb b hm => ?_, fun i o' l ho' hl => ?_, fun id b hm => ?_, hv ▸ h.agree⟩
  · obtain ⟨o, ho, hid, -⟩ := hop i o' ho'
    exact h.live i o ho hb b (hid ▸ hnew _ _ hm)
  · obtain ⟨o, ho, hid, hloc⟩ := hop i o' ho'
    obtain ⟨s, d, bufs, hr⟩ := h.locals i o l ho (hloc l hl)
    exact ⟨s, d, bufs, hid ▸ hlog _ hr⟩
  · have hc := h.completed id b (hnew _ _ hm)
    exact ⟨hc.1.trans_le hnext, hv ▸ hc.2⟩

theorem register (h : Facts busy v) (i shim done : ℕ) (loc : L) (bufs : List IoBufErased)
    (run : Option (ℕ × ℕ)) (arena : BufArena) :
    Facts busy (v.register i shim done loc bufs run arena) := by
  have hnew : ∀ id b, .completed id b ∈ (v.register i shim done loc bufs run arena).log →
      .completed id b ∈ v.log := fun id b hm => by simpa [View.register] using hm
  have hlog : ∀ e ∈ v.log, e ∈ (v.register i shim done loc bufs run arena).log := fun e he =>
    List.mem_append_left _ he
  refine ⟨fun j o ho hb b hm => ?_, fun j o l ho hl => ?_, fun id b hm => ?_, h.agree⟩
  · rw [View.register_op] at ho
    have hc := h.completed _ _ (hnew _ _ hm)
    split_ifs at ho with hj
    · obtain rfl := Option.some.inj ho
      exact absurd hc.1 (lt_irrefl _)
    · exact h.live j o ho hb b (hnew _ _ hm)
  · rw [View.register_op] at ho
    split_ifs at ho with hj
    · obtain rfl := Option.some.inj ho
      obtain rfl := Option.some.inj hl
      exact ⟨shim, done, bufs, List.mem_append_right _ List.mem_cons_self⟩
    · obtain ⟨s, d, b, hr⟩ := h.locals j o l ho hl
      exact ⟨s, d, b, hlog _ hr⟩
  · have hc := h.completed id b (hnew _ _ hm)
    exact ⟨Nat.lt_succ_of_lt hc.1, hc.2⟩

/-- The backend speaks of an op; it never contradicts itself. -/
theorem speak (h : Facts busy v) {armed : List (ℕ × ℕ)} {cancels : List (ℕ × ℕ × ℕ)} {id : ℕ}
    {b : Bool} (hb : ∀ b', (id, b') ∈ v.backend.verdicts → b' = b) :
    Facts busy { v with backend := ⟨armed, cancels, (id, b) :: v.backend.verdicts⟩ } := by
  refine ⟨h.live, h.locals, fun id b hm => ?_, fun id' b₁ b₂ h₁ h₂ => ?_⟩
  · have hc := h.completed id b hm
    exact ⟨hc.1, List.mem_cons_of_mem _ hc.2⟩
  · rcases List.mem_cons.mp h₁ with e₁ | m₁ <;> rcases List.mem_cons.mp h₂ with e₂ | m₂
    · rw [(Prod.mk.inj e₁).2, (Prod.mk.inj e₂).2]
    · obtain ⟨rfl, rfl⟩ := Prod.mk.inj e₁
      exact (hb _ m₂).symm
    · obtain ⟨rfl, rfl⟩ := Prod.mk.inj e₂
      exact hb _ m₁
    · exact h.agree _ _ _ m₁ m₂

/-- The completion of the op in slot `i` is recorded, its local and run moved out. -/
theorem complete (h : Facts none v) (hs : v.Sane) (ho : v.op i = some o) {b : Bool}
    (hb : (o.id, b) ∈ v.backend.verdicts) :
    Facts (some i) ((v.setOp i (some { o with loc := none, run := none })).push
      (.completed o.id b)) := by
  refine ⟨fun j p hp hj b' hm => ?_, fun j p l hp hl => ?_, fun id b' hm => ?_, h.agree⟩
  · have hne : j ≠ i := fun he => hj (he ▸ rfl)
    rw [View.push_op, View.setOp_op, if_neg hne] at hp
    rcases mem_push.mp hm with hm | heq
    · exact h.live j p hp (by simp) b' hm
    · obtain ⟨hid, -⟩ := Entry.completed.inj heq
      exact hne (hs.inj j i p o hp ho hid)
  · rw [View.push_op, View.setOp_op] at hp
    split_ifs at hp with hj
    · obtain rfl := Option.some.inj hp
      cases hl
    · obtain ⟨s, d, bufs, hr⟩ := h.locals j p l hp hl
      exact ⟨s, d, bufs, mem_push.mpr (.inl hr)⟩
  · rcases mem_push.mp hm with hm | heq
    · exact h.completed id b' hm
    · obtain ⟨rfl, rfl⟩ := Entry.completed.inj heq
      exact ⟨(hs.ids i o ho).2, hb⟩

/-- Once the slot is free nothing is exempt. -/
theorem free (h : Facts (some i) v) : Facts none (v.setOp i none) := by
  refine ⟨fun j p hp _ b hm => ?_, fun j p l hp hl => ?_, h.completed, h.agree⟩ <;>
    rw [View.setOp_op] at hp <;> split_ifs at hp with hj
  · exact h.live j p hp (fun he => hj (Option.some.inj he).symm) b hm
  · exact h.locals j p l hp hl

end Facts

namespace Marks

/-- Ops may change anything but ids and marks; cancels and their requests stay. -/
theorem congr (h : Marks busy v) (hc : v'.cancel = v.cancel)
    (hop : ∀ i o, v.op i = some o → ∃ o', v'.op i = some o' ∧ o'.id = o.id ∧
      (o.pending = true → o'.pending = true))
    (hop' : ∀ i o', v'.op i = some o' → o'.pending = true →
      ∃ o, v.op i = some o ∧ o.pending = true ∧ o.id = o'.id)
    (hnext : v.nextOpId ≤ v'.nextOpId) (hr : v'.backend.cancels ⊆ v.backend.cancels) :
    Marks busy v' := by
  refine ⟨fun j c hj => ?_, ?_, fun i o' ho' hp hb => ?_, fun j id t hm => ?_⟩
  · obtain ⟨o, ho, hid, hp⟩ := h.target j c (hc ▸ hj)
    obtain ⟨o', ho', hid', hp'⟩ := hop _ o ho
    exact ⟨o', ho', hid'.trans hid, hp' hp⟩
  · rw [hc]
    exact h.single
  · obtain ⟨o, ho, hpend, hid⟩ := hop' i o' ho' hp
    rw [hc, ← hid]
    exact h.marked i o ho hpend hb
  · have hq := h.requests j id t (hr hm)
    exact ⟨hq.1.trans_le hnext, by rw [hc]; exact hq.2⟩

theorem register (h : Marks busy v) (hi : v.op i = none) (shim done : ℕ) (loc : L)
    (bufs : List IoBufErased) (run : Option (ℕ × ℕ)) (arena : BufArena) :
    Marks busy (v.register i shim done loc bufs run arena) := by
  refine h.congr rfl (fun k o ho => ⟨o, ?_, rfl, id⟩) (fun k o' ho' hp => ?_) (Nat.le_succ _)
    fun _ hm => hm
  · have hk : k ≠ i := by
      rintro rfl
      rw [hi] at ho
      cases ho
    rw [View.register_op, if_neg hk]
    exact ho
  · rw [View.register_op] at ho'
    split_ifs at ho' with hk
    · obtain rfl := Option.some.inj ho'
      cases hp
    · exact ⟨o', ho', hp, rfl⟩

theorem acceptCancel (h : Marks busy v) (hs : v.Sane) {op : Op} (ho : v.op op.slot = some o)
    (hid : o.id = op.id) (hp : o.pending = false) (hj : v.cancel j = none) (done : ℕ) (loc : L) :
    Marks busy (v.acceptCancel j op done loc o) := by
  have hop : ∀ k, (v.acceptCancel j op done loc o).op k =
      if k = op.slot then some { o with pending := true } else v.op k := fun _ =>
    Function.update_apply ..
  have hcan : ∀ k, (v.acceptCancel j op done loc o).cancel k =
      if k = j then some ⟨v.nextOpId, op.slot, op.id, .live done, some (v.calls, loc)⟩
        else v.cancel k := fun _ => Function.update_apply ..
  -- no older cancel names this op: it would have left a mark
  have hfresh : ∀ k c, v.cancel k = some c → c.targetId ≠ op.id := by
    intro k c hk heq
    obtain ⟨p, hpo, hpid, hpp⟩ := h.target k c hk
    have hslot := hs.inj _ _ p o hpo ho (hpid.trans (heq.trans hid.symm))
    rw [hslot, ho] at hpo
    rw [← Option.some.inj hpo, hp] at hpp
    cases hpp
  refine ⟨fun k c hk => ?_, fun k k' c c' hk hk' heq => ?_, fun k p hk hpp hb => ?_,
    fun k id t hm => ?_⟩
  · rw [hcan] at hk
    split_ifs at hk
    · obtain rfl := Option.some.inj hk
      exact ⟨{ o with pending := true }, by rw [hop, if_pos rfl], hid, rfl⟩
    · obtain ⟨p, hpo, hpid, hpp⟩ := h.target k c hk
      rw [hop]
      split_ifs with ht
      · rw [ht, ho] at hpo
        exact ⟨_, rfl, Option.some.inj hpo ▸ hpid, rfl⟩
      · exact ⟨p, hpo, hpid, hpp⟩
  · rw [hcan] at hk hk'
    split_ifs at hk hk' with h1 h2 h2
    · rw [h1, h2]
    · obtain rfl := Option.some.inj hk
      exact absurd heq.symm (hfresh k' c' hk')
    · obtain rfl := Option.some.inj hk'
      exact absurd heq (hfresh k c hk)
    · exact h.single k k' c c' hk hk' heq
  · rw [hop] at hk
    split_ifs at hk with ht
    · obtain rfl := Option.some.inj hk
      exact ⟨j, _, by rw [hcan, if_pos rfl], ht.symm, hid.symm⟩
    · obtain ⟨m, c, hc, ht', htid⟩ := h.marked k p hk hpp hb
      refine ⟨m, c, ?_, ht', htid⟩
      have hm : m ≠ j := by
        rintro rfl
        rw [hj] at hc
        cases hc
      rw [hcan, if_neg hm]
      exact hc
  · rcases List.mem_cons.mp hm with heq | hm
    · obtain ⟨rfl, rfl, rfl⟩ : k = j ∧ id = v.nextOpId ∧ t = op.id := by simpa using heq
      refine ⟨Nat.lt_succ_self _, fun c hc _ => ?_⟩
      rw [hcan, if_pos rfl] at hc
      rw [← Option.some.inj hc]
    · have hq := h.requests k id t hm
      refine ⟨Nat.lt_succ_of_lt hq.1, fun c hc hcid => ?_⟩
      rw [hcan] at hc
      split_ifs at hc
      · obtain rfl := Option.some.inj hc
        exact absurd hq.1 (by rw [← hcid]; exact lt_irrefl _)
      · exact hq.2 c hc hcid

/-- A cancel slot is emptied while its target is being settled. -/
theorem drop (h : Marks (some i) v) (hj : v.cancel j = some c) (ht : c.target = i) :
    Marks (some i) (v.setCancel j none) ∧
      ∀ k c', (v.setCancel j none).cancel k = some c' → c'.target ≠ i := by
  have hcan : ∀ k c', (v.setCancel j none).cancel k = some c' → k ≠ j ∧ v.cancel k = some c' := by
    intro k c' hk
    rw [View.setCancel_cancel] at hk
    split_ifs at hk with hkj
    exact ⟨hkj, hk⟩
  refine ⟨⟨fun k c' hk => h.target k c' (hcan k c' hk).2, fun k k' c₁ c₂ hk hk' =>
    h.single k k' c₁ c₂ (hcan _ _ hk).2 (hcan _ _ hk').2, fun k o ho hp hb => ?_,
    fun k id t hm => ⟨(h.requests k id t hm).1, fun c' hk =>
      (h.requests k id t hm).2 c' (hcan _ _ hk).2⟩⟩, fun k c' hk heq => ?_⟩
  · obtain ⟨m, c', hm, ht', hid⟩ := h.marked k o ho hp hb
    refine ⟨m, c', ?_, ht', hid⟩
    have hmj : m ≠ j := by
      rintro rfl
      rw [hj] at hm
      obtain rfl := Option.some.inj hm
      exact hb (by rw [← ht, ht'])
    rw [View.setCancel_cancel, if_neg hmj]
    exact hm
  · obtain ⟨hkj, hk⟩ := hcan k c' hk
    obtain ⟨o, ho, hid, -⟩ := h.target j c hj
    obtain ⟨o', ho', hid', -⟩ := h.target k c' hk
    rw [heq, ← ht, ho] at ho'
    obtain rfl := Option.some.inj ho'
    exact hkj (h.single k j c' c hk hj (hid'.symm.trans hid))

/-- Without a cancel on it, the slot being settled may be marked or freed at will. -/
theorem settled (h : Marks (some i) v) (hn : ∀ k c, v.cancel k = some c → c.target ≠ i)
    (o : Option (LiveOp L)) : Marks (some i) (v.setOp i o) := by
  refine ⟨fun k c hk => ?_, h.single, fun k p hk hp hb => ?_, h.requests⟩
  · obtain ⟨p, hpo, hid, hpp⟩ := h.target k c hk
    exact ⟨p, by rw [View.setOp_op, if_neg (hn k c hk)]; exact hpo, hid, hpp⟩
  · have hki : k ≠ i := fun he => hb (he ▸ rfl)
    rw [View.setOp_op, if_neg hki] at hk
    exact h.marked k p hk hp hb

/-- A slot that holds no pending op needs no exemption. -/
theorem unbusy (h : Marks (some i) v) (hi : ∀ o, v.op i = some o → o.pending = false) :
    Marks none v := by
  refine ⟨h.target, h.single, fun k o ho hp _ => ?_, h.requests⟩
  refine h.marked k o ho hp fun he => ?_
  obtain rfl := Option.some.inj he
  rw [hi o ho] at hp
  cases hp

/-- Settling exempts a slot. -/
theorem exempt (h : Marks none v) (i : ℕ) : Marks (some i) v :=
  ⟨h.target, h.single, fun k o ho hp _ => h.marked k o ho hp (by simp), h.requests⟩

end Marks

theorem Fate.mono {k t : ℕ} {a : Bool} (h : Fate v k t a)
    (hn : ranCount k v'.log = ranCount k v.log ∧ droppedCount k v'.log = droppedCount k v.log)
    (hlog : ∀ e ∈ v.log, e ∈ v'.log) (hv : v.backend.verdicts ⊆ v'.backend.verdicts)
    (hc : ∀ j c l, v.cancel j = some c → c.loc = some (k, l) → v'.cancel j = some c) :
    Fate v' k t a := by
  unfold Fate
  rw [hn.1, hn.2]
  rcases h with ⟨hr, hd, ha, hm⟩ | ⟨hr, hd, hm⟩ | ⟨hr, hd, ha, j, c, l, hj, hl, ht⟩
  · exact .inl ⟨hr, hd, ha, hlog _ hm⟩
  · exact .inr (.inl ⟨hr, hd, fun ha => hv (hm ha)⟩)
  · exact .inr (.inr ⟨hr, hd, ha, j, c, l, hc j c l hj hl, hl, ht⟩)

namespace Books

/-- Entries that are about no call leave the books alone. -/
theorem extend (h : Books v) (es : List (Entry L)) (hlog : v'.log = v.log ++ es)
    (hes : ∀ e ∈ es, e.call? = none) (hcalls : v'.calls = v.calls) (hc : v'.cancel = v.cancel)
    (hv : v.backend.verdicts ⊆ v'.backend.verdicts) : Books v' := by
  have hmem : ∀ e ∈ v.log, e ∈ v'.log := fun e he => by
    rw [hlog]
    exact List.mem_append_left _ he
  have hold : ∀ e ∈ v'.log, ∀ k, e.call? = some k → e ∈ v.log := by
    intro e he k hk
    rw [hlog] at he
    rcases List.mem_append.mp he with he | he
    · exact he
    · rw [hes e he] at hk
      cases hk
  have hn : ∀ k, ranCount k v'.log = ranCount k v.log ∧
      droppedCount k v'.log = droppedCount k v.log := by
    intro k
    have h0 := counts_fresh (k := k) fun e he => by rw [hes e he]; simp
    rw [hlog, ranCount_append, droppedCount_append, h0.1, h0.2]
    exact ⟨rfl, rfl⟩
  refine ⟨fun j c hj => ?_, fun e he k hk => ?_, fun k t d a t' d' a' h₁ h₂ => ?_,
    fun k t d a hm => ?_, fun k t d b a hm => ?_⟩
  · rw [hc] at hj
    obtain ⟨k, l, d, hl, hb, hm, hr, hd⟩ := h.slot j c hj
    exact ⟨k, l, d, hl, hb, hmem _ hm, (hn k).1.trans hr, (hn k).2.trans hd⟩
  · rw [hcalls]
    exact h.numbered e (hold e he k hk) k hk
  · exact h.calls k t d a t' d' a' (hold _ h₁ k rfl) (hold _ h₂ k rfl)
  · exact (h.fate k t d a (hold _ hm k rfl)).mono (hn k) hmem hv fun j c l hj _ => by rw [hc]; exact hj
  · obtain ⟨hcall, s, d', bufs, hr⟩ := h.own k t d b a (hold _ hm k rfl)
    exact ⟨hmem _ hcall, s, d', bufs, hmem _ hr⟩

/-- The entries of one `cancel` call. -/
theorem newCall (h : Books v) (target done : ℕ) (a : Bool) {es : List (Entry L)}
    (hlog : v'.log = v.log ++ es) (hcalls : v'.calls = v.calls + 1)
    (hes : ∀ e ∈ es, e = .cancelCall v.calls target done a ∨ e = .cancelDropped v.calls)
    (hfate : Fate v' v.calls target a) (hc : ∀ j c, v.cancel j = some c → v'.cancel j = some c)
    (hslot : ∀ j c, v'.cancel j = some c → v.cancel j = some c ∨ c.Books v'.log)
    (hv : v.backend.verdicts ⊆ v'.backend.verdicts) : Books v' := by
  have hmem : ∀ e ∈ v.log, e ∈ v'.log := fun e he => by
    rw [hlog]
    exact List.mem_append_left _ he
  have hcases : ∀ e ∈ v'.log, e ∈ v.log ∨ e = .cancelCall v.calls target done a ∨
      e = .cancelDropped v.calls := by
    intro e he
    rw [hlog] at he
    exact (List.mem_append.mp he).imp_right (hes e)
  have hn : ∀ k < v.calls, ranCount k v'.log = ranCount k v.log ∧
      droppedCount k v'.log = droppedCount k v.log := by
    intro k hk
    have hother : ∀ e ∈ es, e.call? ≠ some k := fun e he => by
      rcases hes e he with rfl | rfl <;> simpa [Entry.call?] using hk.ne'
    have h0 := counts_fresh hother
    rw [hlog, ranCount_append, droppedCount_append, h0.1, h0.2]
    exact ⟨rfl, rfl⟩
  have hlt : ∀ k t d b, .cancelCall k t d b ∈ v.log → k < v.calls := fun k t d b hm =>
    h.numbered _ hm k rfl
  refine ⟨fun j c hj => ?_, fun e he k hk => ?_, fun k t d b t' d' b' h₁ h₂ => ?_,
    fun k t d b hm => ?_, fun k t d b after hm => ?_⟩
  · rcases hslot j c hj with hj | hb
    · obtain ⟨k, l, d, hl, hb, hm, hr, hd⟩ := h.slot j c hj
      have hk := hn k (hlt _ _ _ _ hm)
      exact ⟨k, l, d, hl, hb, hmem _ hm, hk.1.trans hr, hk.2.trans hd⟩
    · exact hb
  · rw [hcalls]
    rcases hcases e he with he | rfl | rfl
    · exact Nat.lt_succ_of_lt (h.numbered e he k hk)
    · exact Option.some.inj hk ▸ Nat.lt_succ_self _
    · exact Option.some.inj hk ▸ Nat.lt_succ_self _
  · rcases hcases _ h₁ with h₁ | h₁ | h₁ <;> rcases hcases _ h₂ with h₂ | h₂ | h₂ <;>
      try cases h₁
    · exact h.calls k t d b t' d' b' h₁ h₂
    · obtain ⟨rfl, -⟩ := Entry.cancelCall.inj h₂
      exact absurd (hlt _ _ _ _ h₁) (lt_irrefl _)
    · cases h₂
    · exact absurd (hlt _ _ _ _ h₂) (lt_irrefl _)
    · obtain ⟨-, rfl, rfl, rfl⟩ := Entry.cancelCall.inj h₂
      exact ⟨rfl, rfl, rfl⟩
    · cases h₂
  · rcases hcases _ hm with hm | hm | hm
    · exact (h.fate k t d b hm).mono (hn k (hlt _ _ _ _ hm)) hmem hv fun j c l hj _ => hc j c hj
    · obtain ⟨rfl, rfl, rfl, rfl⟩ := Entry.cancelCall.inj hm
      exact hfate
    · cases hm
  · rcases hcases _ hm with hm | hm | hm
    · obtain ⟨hcall, s, d', bufs, hr⟩ := h.own k t d b after hm
      exact ⟨hmem _ hcall, s, d', bufs, hmem _ hr⟩
    · cases hm
    · cases hm

/-- A live cancel gives up its local: the entry says how. -/
theorem close (h : Books v) (hs : ∀ j j' c c', v.cancel j = some c → v.cancel j' = some c' →
      c.targetId = c'.targetId → j = j') (hj : v.cancel j = some c) {k : ℕ} {l : L}
    (hl : c.loc = some (k, l)) {entry : Entry L}
    (he : (∃ done before after, entry = .cancelRan k c.targetId done before after ∧
        c.body = .live done ∧ .completed c.targetId true ∈ v.log ∧
        ∃ shim done' bufs, .registered c.targetId shim done' before bufs ∈ v.log) ∨
      (entry = .cancelDropped k ∧ (c.targetId, false) ∈ v.backend.verdicts)) :
    Books ((v.setCancel j none).push entry) := by
  obtain ⟨k', l', done, hl', hbody, hcall, hr0, hd0⟩ := h.slot j c hj
  obtain ⟨rfl, rfl⟩ := Prod.mk.inj (Option.some.inj (hl'.symm.trans hl))
  have hk : entry.call? = some k' := by
    rcases he with ⟨_, _, _, rfl, -⟩ | ⟨rfl, -⟩ <;> rfl
  have hmem : ∀ e ∈ v.log, e ∈ ((v.setCancel j none).push entry).log := fun e hm =>
    List.mem_append_left _ hm
  have hcall' : ∀ k t d a, .cancelCall k t d a ∈ ((v.setCancel j none).push entry).log →
      .cancelCall k t d a ∈ v.log := by
    intro k t d a hm
    rcases List.mem_append.mp hm with hm | hm
    · exact hm
    · rcases he with ⟨_, _, _, rfl, -⟩ | ⟨rfl, -⟩ <;> simp at hm
  have hn : ∀ m ≠ k', ranCount m ((v.setCancel j none).push entry).log = ranCount m v.log ∧
      droppedCount m ((v.setCancel j none).push entry).log = droppedCount m v.log := fun m hm =>
    counts_append_other fun heq => hm (Option.some.inj (heq.symm.trans hk))
  -- the other live cancels hold other calls
  have hother : ∀ j' c', ((v.setCancel j none).push entry).cancel j' = some c' →
      v.cancel j' = some c' ∧ ∀ m l, c'.loc = some (m, l) → m ≠ k' := by
    intro j' c' hj'
    rw [View.push_cancel, View.setCancel_cancel] at hj'
    split_ifs at hj' with hne
    refine ⟨hj', fun m l hm => ?_⟩
    rintro rfl
    obtain ⟨m', l'', d', hl'', -, hcall'', -⟩ := h.slot j' c' hj'
    obtain ⟨rfl, rfl⟩ := Prod.mk.inj (Option.some.inj (hl''.symm.trans hm))
    exact hne (hs j' j c' c hj' hj (h.calls _ _ _ _ _ _ _ hcall'' hcall).1)
  have hfate : Fate ((v.setCancel j none).push entry) k' c.targetId true := by
    unfold Fate
    rw [View.push_log, View.setCancel_log, ranCount_append, droppedCount_append, hr0, hd0,
      ranCount_one, droppedCount_one]
    rcases he with ⟨d, b, a, rfl, -, hm, -⟩ | ⟨rfl, hm⟩
    · exact .inl ⟨by simp [Entry.isRan], by simp [Entry.isDropped], rfl, hmem _ hm⟩
    · exact .inr (.inl ⟨by simp [Entry.isRan], by simp [Entry.isDropped], fun _ => hm⟩)
  refine ⟨fun j' c' hj' => ?_, fun e hm m hem => ?_, fun m t d a t' d' a' h₁ h₂ => ?_,
    fun m t d a hm => ?_, fun m t d b a hm => ?_⟩
  · obtain ⟨hj', hne⟩ := hother j' c' hj'
    obtain ⟨m, l, d, hml, hb, hm, hr, hd⟩ := h.slot j' c' hj'
    have hc := hn m (hne m l hml)
    exact ⟨m, l, d, hml, hb, hmem _ hm, hc.1.trans hr, hc.2.trans hd⟩
  · rcases List.mem_append.mp hm with hm | hm
    · exact h.numbered e hm m hem
    · obtain rfl := List.mem_singleton.mp hm
      rw [hk] at hem
      exact Option.some.inj hem ▸ h.numbered _ hcall k' rfl
  · exact h.calls m t d a t' d' a' (hcall' _ _ _ _ h₁) (hcall' _ _ _ _ h₂)
  · have hm := hcall' _ _ _ _ hm
    by_cases hmk : m = k'
    · subst hmk
      obtain ⟨rfl, -, rfl⟩ := h.calls _ _ _ _ _ _ _ hm hcall
      exact hfate
    · refine (h.fate m t d a hm).mono (hn m hmk) hmem (fun _ hv => hv) fun j' c' l hj' hloc => ?_
      have hne : j' ≠ j := by
        rintro rfl
        rw [hj] at hj'
        obtain rfl := Option.some.inj hj'
        exact hmk (Prod.mk.inj (Option.some.inj (hloc.symm.trans hl'))).1
      rw [View.push_cancel, View.setCancel_cancel, if_neg hne]
      exact hj'
  · rcases List.mem_append.mp hm with hm | hm
    · obtain ⟨hc, s, d', bufs, hr⟩ := h.own m t d b a hm
      exact ⟨hmem _ hc, s, d', bufs, hmem _ hr⟩
    · rcases he with ⟨d₁, b₁, a₁, rfl, hb₁, -, s, d', bufs, hr⟩ | ⟨rfl, -⟩
      · obtain ⟨rfl, rfl, rfl, rfl, rfl⟩ := Entry.cancelRan.inj (List.mem_singleton.mp hm)
        rw [hbody] at hb₁
        obtain rfl := CancelBody.live.inj hb₁
        exact ⟨hmem _ hcall, s, d', bufs, hmem _ hr⟩
      · simp at hm

end Books

end Conrt.Coio
