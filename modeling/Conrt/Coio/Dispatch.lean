import Conrt.Coio.Effects

/-! Rules for the completions: what to show of the state between their steps. -/
namespace Conrt.Coio

open Conrt.Base

variable {L : Type} {E : Panic → Prop} {rt : Runtime L}

/-- What one call of a callback may make of the view. -/
def Call.Effect (call : Call L) (v v' : View L) : Prop :=
  match call with
  | .register shim done loc _ bufs accepted =>
    ∃ run arena, v.arena.allocBufRun bufs = .ok (run, arena) ∧ v.nextOpId < maxOpId ∧
      ((accepted = true ∧ ∃ i, v.op i = none ∧ v' = v.register i shim done loc bufs run arena) ∨
        (accepted = false ∧ ∃ arena', arena.giveBack run = .ok arena' ∧
          v' = v.refuse bufs arena'))
  | .cancel op loc done accepted =>
    ((∀ o, v.op op.slot = some o → o.id = op.id → o.pending = true) ∧
        v' = v.rejectCancel op.id done) ∨
    (accepted = false ∧ v' = v.refuseCancel op.id done) ∨
    (accepted = true ∧ ∃ j o, v.op op.slot = some o ∧ o.id = op.id ∧ o.pending = false ∧
      v.cancel j = none ∧ v.nextOpId < maxOpId ∧ v' = v.acceptCancel j op done loc o)

/-- Carving a run and giving it back again fails only as `E` permits. -/
def ArenaSafe (E : Panic → Prop) (arena : BufArena) : Prop :=
  ∀ bufs, (∀ e, arena.allocBufRun bufs = .error e → E e) ∧
    ∀ run arena' e, arena.allocBufRun bufs = .ok (run, arena') →
      arena'.giveBack run = .error e → E e

theorem exec_spec (hE : ∀ e, e ≠ .arena → E e) (hA : ArenaSafe E rt.view.arena) (call : Call L) :
    Triple (· = rt) call.exec (fun _ rt' => call.Effect rt.view rt'.view) E := by
  cases call with
  | register shim done loc cls bufs accepted =>
    refine (registerOp_spec hE (hA bufs).1 (hA bufs).2).bind_eq fun _ rt' h => Triple.pure ?_
    rintro _ rfl
    exact h
  | cancel op loc done accepted => exact cancel_spec hE op loc done accepted

/-- Every call keeps `I`. -/
def CallsKeep (E : Panic → Prop) (calls : List (Call L)) (I : View L → Prop) : Prop :=
  ∀ call ∈ calls, ∀ rt : Runtime L, I rt.view →
    Triple (· = rt) call.exec (fun _ rt' => I rt'.view) E

theorem CallsKeep.of_effect (hE : ∀ e, e ≠ .arena → E e) {calls : List (Call L)}
    {I : View L → Prop} (hA : ∀ v, I v → ArenaSafe E v.arena)
    (hI : ∀ call ∈ calls, ∀ v v', I v → call.Effect v v' → I v') : CallsKeep E calls I :=
  fun call hc _ hrt => (exec_spec hE (hA _ hrt) call).post fun _ _ h => hI call hc _ _ hrt h

theorem forEach_exec {calls : List (Call L)} {I : View L → Prop} (h : CallsKeep E calls I)
    (hI : I rt.view) : Triple (· = rt) (forEach Call.exec calls) (fun _ rt' => I rt'.view) E := by
  have hloop : Triple (fun s => I s.view) (forEach Call.exec calls) (fun _ s => I s.view) E :=
    Triple.forEach fun call hc => .of_eq fun s hs => h call hc s hs
  exact hloop.conseq (fun _ hs => hs ▸ hI) (fun _ _ h => h) fun _ h => h

/-- What `find_cancel_of` finds is the live cancel of that op, when there is one. -/
theorem findCancelOf_spec {i : ℕ} {o : LiveOp L} (ho : rt.view.op i = some o) :
    (rt.findCancelOf i = none ∧
      ∀ j c, rt.view.cancel j = some c → ¬ (c.target = i ∧ c.targetId = o.id)) ∨
    ∃ j c, rt.findCancelOf i = some j ∧ rt.view.cancel j = some c ∧ c.target = i ∧
      c.targetId = o.id := by
  obtain ⟨slot, hs, hslot⟩ := Option.bind_eq_some_iff.mp ho
  unfold IoSlot.view at hslot
  split_ifs at hslot with hf
  obtain rfl := Option.some.inj hslot
  unfold Runtime.findCancelOf
  simp only [hs, hf, Bool.false_eq_true, if_false]
  cases hfind : rt.cancelSlab.findIdx? fun c =>
      !isFree c.id && c.target == i && c.targetId == idBits slot.id with
  | none =>
    refine .inl ⟨rfl, fun j c hc => ?_⟩
    obtain ⟨cslot, hcs, hview⟩ := Option.bind_eq_some_iff.mp hc
    unfold CancelSlot.view at hview
    split_ifs at hview with hcf
    obtain rfl := Option.some.inj hview
    have hall := List.findIdx?_eq_none_iff.mp hfind cslot (List.mem_of_getElem? hcs)
    rintro ⟨h1, h2⟩
    simp_all
  | some j =>
    obtain ⟨hlt, hp, -⟩ := List.findIdx?_eq_some_iff_getElem.mp hfind
    simp only [Bool.and_eq_true, Bool.not_eq_true', beq_iff_eq] at hp
    have hcs : rt.cancelSlab[j]? = some rt.cancelSlab[j] := List.getElem?_eq_getElem hlt
    have hview : rt.view.cancel j = some ⟨rt.cancelSlab[j].id, rt.cancelSlab[j].target,
        rt.cancelSlab[j].targetId, rt.cancelSlab[j].body, rt.cancelSlab[j].loc⟩ := by
      rw [view_cancel hcs, CancelSlot.view, hp.1.1]
      rfl
    exact .inr ⟨j, _, rfl, hview, hp.1.2, hp.2⟩

section

variable (hE : ∀ e, e ≠ .arena → E e)

include hE

theorem assertNamesLive_bind {β : Type} {R : β → Runtime L → Prop} {i : ℕ} {f : Unit → M L β}
    (h : Triple (· = rt) (f ()) R E) : Triple (· = rt) (assertNamesLive i >>= f) R E := by
  unfold assertNamesLive
  rw [bind_assoc]
  refine ioSlot_bind (hE _ (by simp)) fun slot _ => ?_
  by_cases hf : isFree slot.id = true
  · rw [if_pos hf]
    exact fun _ _ => hE _ (by simp)
  · rw [if_neg hf]
    exact h

/-- The cancel callback runs in a state where its own slot is already free. -/
theorem dispatchCancelOf_rule {i : ℕ} {o : LiveOp L} (ho : rt.view.op i = some o) (victim : L)
    {r : Reaction L} {I : L → View L → Prop}
    (hI : ∀ j c loc done, rt.view.cancel j = some c → c.target = i → c.targetId = o.id →
      c.body = .live done → c.loc = some loc → I (r.left victim loc.2) ((rt.view.setCancel j none).push
        (.cancelRan loc.1 o.id done victim (r.left victim loc.2))))
    (hcalls : ∀ l, CallsKeep E r.doneCalls (I l)) :
    Triple (· = rt) (dispatchCancelOf i victim r) (fun l rt' =>
      (l = victim ∧ rt' = rt ∧
        ∀ j c, rt.view.cancel j = some c → ¬ (c.target = i ∧ c.targetId = o.id)) ∨
      I l rt'.view) E := by
  unfold dispatchCancelOf
  refine Triple.get_bind ?_
  rcases findCancelOf_spec ho with ⟨hn, hno⟩ | ⟨j, c, hj, hc, ht, hid⟩
  · rw [hn]
    refine Triple.pure ?_
    rintro _ rfl
    exact .inl ⟨rfl, rfl, hno⟩
  · rw [hj]
    refine cancelSlot_bind (hE _ (by simp)) fun slot hs => ?_
    have hview := hc
    rw [view_cancel hs, CancelSlot.view] at hview
    split_ifs at hview with hf
    have htid : c.targetId = slot.targetId := (congrArg LiveCancel.targetId (Option.some.inj hview)).symm
    have hbody : c.body = slot.body :=
      (congrArg LiveCancel.body (Option.some.inj hview)).symm
    cases hb : slot.body with
    | free _ => exact Triple.throw fun _ _ => hE _ (by simp)
    | live done =>
      refine (takeCancelLocal_spec hE hc).bind_eq fun loc rt₁ h₁ => ?_
      obtain ⟨hloc, hv₁⟩ := h₁
      refine (freeCancelSlot_spec hE j).bind_eq fun _ rt₂ hv₂ => ?_
      refine (record_spec _).bind_eq fun _ rt₃ hv₃ => ?_
      have hI₃ : I (r.left victim loc.2) rt₃.view := by
        rw [hv₃, hv₂, hv₁, View.setCancel_setCancel, ← htid, hid]
        exact hI j c loc done hc ht hid (hbody.trans hb) hloc
      refine (forEach_exec (hcalls _) hI₃).bind_eq fun _ rt₄ h₄ => Triple.pure ?_
      rintro _ rfl
      exact .inr h₄

theorem dropCancelOf_spec {i : ℕ} {o : LiveOp L} (ho : rt.view.op i = some o) :
    Triple (· = rt) (dropCancelOf i : M L Unit) (fun _ rt' =>
      (rt' = rt ∧
        ∀ j c, rt.view.cancel j = some c → ¬ (c.target = i ∧ c.targetId = o.id)) ∨
      ∃ j c loc, rt.view.cancel j = some c ∧ c.target = i ∧ c.targetId = o.id ∧
        c.loc = some loc ∧
        rt'.view = (rt.view.setCancel j none).push (.cancelDropped loc.1)) E := by
  unfold dropCancelOf
  refine Triple.get_bind ?_
  rcases findCancelOf_spec ho with ⟨hn, hno⟩ | ⟨j, c, hj, hc, ht, hid⟩
  · rw [hn]
    refine Triple.pure ?_
    rintro _ rfl
    exact .inl ⟨rfl, hno⟩
  · rw [hj]
    refine (freeCancelSlotDroppingLocal_spec hE hc).post fun _ rt' h => ?_
    obtain ⟨loc, hloc, hv⟩ := h
    exact .inr ⟨j, c, loc, hc, ht, hid, hloc, hv⟩

/-- Settling a cancellation leaves the op in its slot, with its mark cleared. -/
theorem settleCancel_rule {i : ℕ} {o : LiveOp L} (ho : rt.view.op i = some o) (h0 : o.id ≠ 0)
    {pending cancelled : Bool} {victim : L} {r : Reaction L} {J : L → View L → Prop}
    (hstart : J victim rt.view)
    (hran : ∀ j (loc : ℕ × L) done, J (r.left victim loc.2) ((rt.view.setCancel j none).push
      (.cancelRan loc.1 o.id done victim (r.left victim loc.2))))
    (hdropped : ∀ j call, J victim ((rt.view.setCancel j none).push (.cancelDropped call)))
    (hcalls : ∀ l, CallsKeep E r.doneCalls (J l))
    (hlive : ∀ l v, J l v → ∃ p, v.op i = some p ∧ p.id = o.id)
    (hclear : ∀ l v p, J l v → v.op i = some p → J l (v.setOp i (some { p with pending := false }))) :
    Triple (· = rt) (settleCancel i pending cancelled victim r) (fun l rt' => J l rt'.view) E := by
  have hunmark : ∀ {l : L} {rt' : Runtime L}, J l rt'.view →
      Triple (· = rt') (do clearPending i; pure l : M L L) (fun l rt' => J l rt'.view) E := by
    intro l rt' h
    obtain ⟨p, hp, hid⟩ := hlive l _ h
    refine (clearPending_spec hE hp (hid ▸ h0)).bind_eq fun _ rt₂ hv => Triple.pure ?_
    rintro _ rfl
    rw [hv]
    exact hclear l _ p h hp
  unfold settleCancel
  refine Triple.ite (fun _ => Triple.ite (fun _ => ?_) fun _ => ?_) fun _ => Triple.pure ?_
  · have hrule := dispatchCancelOf_rule hE ho victim (fun j _ loc done _ _ _ _ _ => hran j loc done)
      hcalls
    refine hrule.bind_eq fun l rt₁ h₁ => hunmark ?_
    rcases h₁ with ⟨rfl, rfl, -⟩ | h₁
    · exact hstart
    · exact h₁
  · refine (dropCancelOf_spec hE ho).bind_eq fun _ rt₁ h₁ => hunmark ?_
    rcases h₁ with ⟨rfl, -⟩ | ⟨j, c, loc, -, -, -, -, hv⟩
    · exact hstart
    · exact hv ▸ hdropped j loc.1
  · rintro _ rfl
    exact hstart

omit hE in
/-- The shim runs over the empty arena left behind; its op's run is given back afterwards. -/
theorem dispatchShim_rule {id shim done cls : ℕ} {run : Option (ℕ × ℕ)} {outcome : OpOutcome}
    {loc : L} {calls : List (Call L)} {I : View L → Prop} {K : View L → Prop}
    (hslice : rt.view.arena.bufsOf run = none → E .arena)
    (hI : ∀ bufs, rt.view.arena.bufsOf run = some bufs →
      I ({ rt.view with arena := .new }.push (.shim id shim ⟨loc, bufs, outcome, done, cls⟩)))
    (hcalls : CallsKeep E calls I)
    (hrel : ∀ e, rt.view.arena.giveBack run = .error e → E e)
    (hK : ∀ v arena, I v → rt.view.arena.giveBack run = .ok arena → K { v with arena := arena }) :
    Triple (· = rt) (dispatchShim id shim run outcome done loc cls calls)
      (fun _ rt' => K rt'.view) E := by
  unfold dispatchShim
  refine Triple.get_bind (Triple.modify_bind ?_)
  refine Triple.ofOption_bind (fun bufs hb => ?_) hslice
  refine (record_spec _).bind_eq fun _ rt₂ hv₂ => ?_
  have hI₂ : I rt₂.view := by
    rw [hv₂]
    exact hI bufs hb
  refine (forEach_exec hcalls hI₂).bind_eq fun _ rt₃ h₃ => Triple.modify_bind ?_
  refine (releaseRun_spec (by exact hrel)).post fun _ rt₄ h₄ => ?_
  obtain ⟨arena, ha, hv₄⟩ := h₄
  rw [hv₄]
  exact hK rt₃.view arena h₃ ha

/-- An op completion: its local and run are moved out, its cancellation is settled, its slot is
freed, and then its shim runs. -/
theorem completeOp_rule {i : ℕ} {o : LiveOp L} (ho : rt.view.op i = some o)
    {completion : CompletedOp} {r : Reaction L} {J : L → View L → Prop} {K : View L → Prop}
    (hsettle : ∀ l rt', o.loc = some l → rt'.view =
        (rt.view.setOp i (some { o with loc := none, run := none })).push
          (.completed o.id completion.cancelled) →
      Triple (· = rt') (settleCancel i o.pending (o.pending && completion.cancelled) l r)
        (fun l' s => J l' s.view) E)
    (hshim : ∀ l v rt' shim done, o.body = .live shim done → J l v → rt'.view = v.setOp i none →
      Triple (· = rt') (dispatchShim o.id shim o.run
        (if o.pending && completion.cancelled then .cancelled
          else .completed completion.result completion.flags) done l completion.cls r.shimCalls)
        (fun _ s => K s.view) E) :
    Triple (· = rt) (completeOp i completion r) (fun _ s => K s.view) E := by
  unfold completeOp
  refine Triple.get_bind ?_
  obtain ⟨slot, hs, hslot⟩ := Option.bind_eq_some_iff.mp ho
  unfold IoSlot.view at hslot
  split_ifs at hslot with hf
  obtain rfl := Option.some.inj hslot
  simp only [hs, hf, Bool.false_eq_true, if_false]
  cases hbody : slot.body with
  | free _ => exact Triple.throw fun _ _ => hE _ (by simp)
  | live shim done =>
    refine (takeBufRun_spec hE ho).bind_eq fun run rt₁ h₁ => ?_
    obtain ⟨rfl, hv₁⟩ := h₁
    have ho₁ : rt₁.view.op i = some ⟨idBits slot.id, isCancelPending slot.id, slot.body, slot.loc,
        none⟩ := by
      rw [hv₁]
      exact Function.update_self ..
    refine (takeLocal_spec hE ho₁).bind_eq fun loc rt₂ h₂ => ?_
    obtain ⟨hloc, hv₂⟩ := h₂
    refine (record_spec _).bind_eq fun _ rt₃ hv₃ => ?_
    rw [hv₂, hv₁, View.setOp_setOp] at hv₃
    refine (hsettle loc rt₃ hloc hv₃).bind_eq fun loc' rt₄ h₄ => ?_
    refine (freeOpSlotTaken_spec hE i).bind_eq fun _ rt₅ hv₅ => ?_
    exact hshim loc' rt₄.view rt₅ shim done hbody h₄ hv₅

/-- What a cancel completion does: nothing if the cancel is gone or took effect, else the cancel is
dropped and the mark of its target cleared. -/
theorem completeCancel_spec {j : ℕ} {result : ℤ} :
    Triple (· = rt) (completeCancel j result) (fun _ rt' =>
      ((rt.view.cancel j = none ∨ result = 0) ∧ rt'.view = rt.view) ∨
      ∃ c loc v, rt.view.cancel j = some c ∧ result ≠ 0 ∧ c.loc = some loc ∧
        v = (rt.view.setCancel j none).push (.cancelDropped loc.1) ∧
        ((∃ o, rt.view.op c.target = some o ∧ o.pending = true ∧ o.id = c.targetId ∧
            rt'.view = v.setOp c.target (some { o with pending := false })) ∨
          ((∀ o, rt.view.op c.target = some o → o.pending = true → o.id ≠ c.targetId) ∧
            rt'.view = v))) E := by
  unfold completeCancel
  refine Triple.get_bind ?_
  cases hs : rt.cancelSlab[j]? with
  | none =>
    refine Triple.pure ?_
    rintro _ rfl
    exact .inl ⟨.inl (by simp [Runtime.view, hs]), rfl⟩
  | some slot =>
    refine Triple.ite (fun hf => ?_) fun hf => Triple.ite (fun h0 => ?_) fun h0 => ?_
    · refine Triple.pure ?_
      rintro _ rfl
      exact .inl ⟨.inl (by rw [view_cancel hs, CancelSlot.view, if_pos hf]), rfl⟩
    · refine Triple.pure ?_
      rintro _ rfl
      exact .inl ⟨.inr h0, rfl⟩
    · have hc : rt.view.cancel j =
          some ⟨slot.id, slot.target, slot.targetId, slot.body, slot.loc⟩ := by
        rw [view_cancel hs, CancelSlot.view, if_neg hf]
      refine (takeCancelLocal_spec hE hc).bind_eq fun loc rt₁ h₁ => ?_
      obtain ⟨hloc, hv₁⟩ := h₁
      refine (record_spec _).bind_eq fun _ rt₂ hv₂ => ?_
      refine (freeCancelSlot_spec hE j).bind_eq fun _ rt₃ hv₃ => ?_
      have hv : rt₃.view = (rt.view.setCancel j none).push (.cancelDropped loc.1) := by
        rw [hv₃, hv₂, hv₁]
        simp only [View.setCancel, View.push, Function.update_idem]
      have hop : rt₃.view.op slot.target = rt.view.op slot.target := by rw [hv]; rfl
      refine Triple.get_bind ?_
      cases ht : rt₃.ioSlab[slot.target]? with
      | none =>
        refine Triple.pure ?_
        rintro _ rfl
        refine .inr ⟨_, loc, _, hc, h0, hloc, rfl, .inr ⟨fun o ho => ?_, hv⟩⟩
        rw [← hop, view_op_none ht] at ho
        cases ho
      | some victim =>
        refine Triple.ite (fun hm => ?_) fun hm => ?_
        · refine Triple.update ?_
          rintro _ rfl
          have hne : idBits victim.id ≠ 0 := hm.2 ▸ slot.targetId.2
          have hf' : isFree (idBits victim.id) = false := by simpa [isFree] using hne
          have hlive : isFree victim.id = false := by
            rw [isFree, beq_eq_false_iff_ne]
            intro hz
            exact hne (by rw [hz]; rfl)
          refine .inr ⟨_, loc, _, hc, h0, hloc, rfl, .inl ⟨⟨idBits victim.id,
            isCancelPending victim.id, victim.body, victim.loc, victim.takeBufRun.1⟩, ?_, hm.1,
            hm.2, ?_⟩⟩
          · rw [← hop, view_op ht, IoSlot.view, hlive]
            rfl
          · rw [view_setIoSlot ht, hv]
            simp [IoSlot.view, IoSlot.takeBufRun, hf']
        · refine Triple.pure ?_
          rintro _ rfl
          refine .inr ⟨_, loc, _, hc, h0, hloc, rfl, .inr ⟨fun o ho hp hid => hm ?_, hv⟩⟩
          rw [← hop, view_op ht, IoSlot.view] at ho
          split_ifs at ho
          obtain rfl := Option.some.inj ho
          exact ⟨hp, hid⟩

end

end Conrt.Coio
