import Conrt.Base.Run
import Conrt.Daemon.Wire

/-! The session read loop over a stream of client frames, split by its reads in any way. -/
namespace Conrt.Daemon

open Conrt.Base

variable {σ : Type}

/-- The read loop of one session, the stream it has not read yet, the sizes of its reads so far, and
the frames it has dispatched, each with the number of bytes read by then. -/
structure ReadLoop (σ : Type) where
  state : σ
  reading : Option Reading
  rest : Bytes
  reads : List ℕ
  log : List (Frame × ℕ)
deriving DecidableEq

section

variable (dispatch : σ → Frame → σ × Bool)

namespace ReadLoop

def start (s : σ) (fs : List Frame) : ReadLoop σ :=
  { state := s
    reading := some (.header [])
    rest := fs.flatMap Frame.bytes
    reads := []
    log := [] }

/-- One read that returns the next `k` bytes, and what the loop does with them. -/
def step (l : ReadLoop σ) (k : ℕ) : Option (ReadLoop σ) :=
  match l.reading with
  | none => none
  | some r =>
    if 1 ≤ k ∧ k ≤ r.want ∧ k ≤ l.rest.length then
      let l' := { l with rest := l.rest.drop k, reads := l.reads ++ [k] }
      match r.feed (l.rest.take k) with
      | .inl r => some { l' with reading := some r }
      | .inr f =>
        let (s, keep) := dispatch l.state f
        some { l' with
          state := s
          reading := if keep then some (.header []) else none
          log := l.log ++ [(f, l'.reads.sum)] }
    else none

end ReadLoop

/-- The frames that end within the first `upTo` bytes, up to the first whose dispatch closes the
session, each with the offset of its end. -/
def due (upTo : ℕ) : σ → ℕ → List Frame → List (Frame × ℕ)
  | _, _, [] => []
  | s, off, f :: fs =>
    if off + f.size ≤ upTo then
      (f, off + f.size) ::
        if (dispatch s f).2 then due upTo (dispatch s f).1 (off + f.size) fs else []
    else []

/-- The frame has a payload, and one of the reads stopped at the end of its header. -/
def Clean (reads : List ℕ) (d : Frame × ℕ) : Prop :=
  d.1.payload ≠ [] ∧ ∃ done, done <+: reads ∧ done.sum + d.1.payload.length = d.2

def totalSize (fs : List Frame) : ℕ := (fs.map Frame.size).sum

def stamps : ℕ → List Frame → List (Frame × ℕ)
  | _, [] => []
  | off, f :: fs => (f, off + f.size) :: stamps (off + f.size) fs

def dispatched : σ → List Frame → Option σ
  | s, [] => some s
  | s, f :: fs => if (dispatch s f).2 then dispatched (dispatch s f).1 fs else none

end

variable {dispatch : σ → Frame → σ × Bool} {s s' : σ} {fs fs' : List Frame} {f : Frame} {off upTo : ℕ}

@[simp] theorem totalSize_nil : totalSize [] = 0 := rfl

@[simp] theorem totalSize_append : totalSize (fs ++ fs') = totalSize fs + totalSize fs' := by
  simp [totalSize]

@[simp] theorem totalSize_singleton : totalSize [f] = f.size := by simp [totalSize]

theorem stamps_append :
    stamps off (fs ++ fs') = stamps off fs ++ stamps (off + totalSize fs) fs' := by
  induction fs generalizing off with
  | nil => rfl
  | cons f fs ih =>
    have hsize : off + totalSize (f :: fs) = off + f.size + totalSize fs := by
      simp [totalSize]
      omega
    rw [List.cons_append, stamps, ih, hsize, stamps, List.cons_append]

private theorem dispatched_append (h : dispatched dispatch s fs = some s') :
    dispatched dispatch s (fs ++ fs') = dispatched dispatch s' fs' := by
  induction fs generalizing s with
  | nil =>
    obtain rfl := Option.some.inj h
    rfl
  | cons f fs ih =>
    unfold dispatched at h
    split_ifs at h with hk
    rw [List.cons_append, dispatched, if_pos hk, ih h]

/-- What is due starts with the frames that have been dispatched. -/
theorem due_append (h : dispatched dispatch s fs = some s') (hle : off + totalSize fs ≤ upTo) :
    due dispatch upTo s off (fs ++ fs') =
      stamps off fs ++ due dispatch upTo s' (off + totalSize fs) fs' := by
  induction fs generalizing s off with
  | nil =>
    obtain rfl := Option.some.inj h
    rfl
  | cons f fs ih =>
    have hsize : off + totalSize (f :: fs) = off + f.size + totalSize fs := by
      simp [totalSize]
      omega
    unfold dispatched at h
    split_ifs at h with hk
    rw [hsize] at hle ⊢
    have hf : off + f.size ≤ upTo := by omega
    rw [List.cons_append, due, if_pos hf, if_pos hk, ih h hle, stamps, List.cons_append]

theorem due_wait (h : upTo < off + f.size) : due dispatch upTo s off (f :: fs) = [] := by
  rw [due, if_neg (by omega)]

private theorem due_closed (hle : off + f.size ≤ upTo) (hk : (dispatch s f).2 = false) :
    due dispatch upTo s off (f :: fs) = [(f, off + f.size)] := by
  rw [due, if_pos hle, hk]
  rfl

theorem Clean.append {reads more : List ℕ} {d : Frame × ℕ} (h : Clean reads d) :
    Clean (reads ++ more) d := by
  obtain ⟨hp, done, hd, hsum⟩ := h
  exact ⟨hp, done, hd.trans (List.prefix_append _ _), hsum⟩

/-- Where the loop is: inside a header, inside a payload, closed, or past a frame that it can no
longer dispatch at its end. -/
inductive Decoding (dispatch : σ → Frame → σ × Bool) (s₀ : σ) : List Frame → ReadLoop σ → Prop
  | header {done todo : List Frame} {s : σ} {acc rest : Bytes} {reads : List ℕ} :
      dispatched dispatch s₀ done = some s → (∀ d ∈ stamps 0 done, Clean reads d) →
      reads.sum = totalSize done + acc.length → acc.length < 3 →
      todo.flatMap Frame.bytes = acc ++ rest →
      Decoding dispatch s₀ (done ++ todo) ⟨s, some (.header acc), rest, reads, stamps 0 done⟩
  | payload {done todo : List Frame} {f : Frame} {s : σ} {acc left : Bytes} {reads : List ℕ} :
      dispatched dispatch s₀ done = some s → (∀ d ∈ stamps 0 done, Clean reads d) →
      reads.sum = totalSize done + 3 + acc.length → f.payload = acc ++ left → left ≠ [] →
      (∃ cut, cut <+: reads ∧ cut.sum = totalSize done + 3) →
      Decoding dispatch s₀ (done ++ f :: todo)
        ⟨s, some (.payload f.ty acc f.payload.length), left ++ todo.flatMap Frame.bytes, reads,
          stamps 0 done⟩
  | closed {done todo : List Frame} {f : Frame} {s s' : σ} {rest : Bytes} {reads : List ℕ} :
      dispatched dispatch s₀ done = some s → (dispatch s f).2 = false →
      (∀ d ∈ stamps 0 (done ++ [f]), Clean reads d) → totalSize (done ++ [f]) ≤ reads.sum →
      Decoding dispatch s₀ (done ++ f :: todo) ⟨s', none, rest, reads, stamps 0 (done ++ [f])⟩
  | lost {done todo : List Frame} {f : Frame} {s s' : σ} {r : Option Reading} {rest : Bytes}
      {reads : List ℕ} {extra : List (Frame × ℕ)} :
      dispatched dispatch s₀ done = some s → (∀ d ∈ stamps 0 done, Clean reads d) →
      totalSize done + 3 ≤ reads.sum →
      (f.payload = [] ∨ ∀ cut, cut <+: reads → cut.sum ≠ totalSize done + 3) →
      (∀ d ∈ extra, totalSize done + f.size < d.2 ∧ d.2 ≤ reads.sum) →
      (extra = [] → ∃ acc, r = some (.payload f.ty acc f.payload.length) ∧
        totalSize done + 3 + acc.length ≤ reads.sum ∧
        (f.payload = [] ∨ totalSize done + 3 + acc.length < reads.sum)) →
      Decoding dispatch s₀ (done ++ f :: todo) ⟨s', r, rest, reads, stamps 0 done ++ extra⟩

section

variable {l l' : ReadLoop σ} {k : ℕ} {s₀ : σ}

/-- What one read does. -/
theorem ReadLoop.step_cases (h : l.step dispatch k = some l') :
    ∃ r, l.reading = some r ∧ 1 ≤ k ∧ k ≤ r.want ∧ k ≤ l.rest.length ∧
      ((∃ r', r.feed (l.rest.take k) = .inl r' ∧
          l' = ⟨l.state, some r', l.rest.drop k, l.reads ++ [k], l.log⟩) ∨
        ∃ f, r.feed (l.rest.take k) = .inr f ∧
          l' = ⟨(dispatch l.state f).1, if (dispatch l.state f).2 then some (.header []) else none,
            l.rest.drop k, l.reads ++ [k], l.log ++ [(f, (l.reads ++ [k]).sum)]⟩) := by
  unfold ReadLoop.step at h
  cases hr : l.reading with
  | none => simp [hr] at h
  | some r =>
    simp only [hr] at h
    split_ifs at h with hk
    refine ⟨r, rfl, hk.1, hk.2.1, hk.2.2, ?_⟩
    cases hf : r.feed (l.rest.take k) with
    | inl r' =>
      rw [hf] at h
      exact .inl ⟨r', rfl, (Option.some.inj h).symm⟩
    | inr f =>
      rw [hf] at h
      exact .inr ⟨f, rfl, (Option.some.inj h).symm⟩

private theorem sum_le_of_prefix {cut reads : List ℕ} (h : cut <+: reads) : cut.sum ≤ reads.sum := by
  obtain ⟨more, rfl⟩ := h
  simp

/-- The end of a header that a read has gone past is no read's end. -/
private theorem no_cut {cut reads : List ℕ} {n : ℕ} (h : cut <+: reads ++ [k])
    (hold : cut <+: reads → cut.sum ≠ n) (hnew : (reads ++ [k]).sum ≠ n) : cut.sum ≠ n := by
  rcases List.prefix_concat_iff.mp h with rfl | h
  · exact hnew
  · exact hold h

theorem Decoding.step_header {done todo : List Frame} {acc rest : Bytes} {reads : List ℕ}
    (hlen : ∀ f ∈ done ++ todo, f.payload.length ≤ 65535)
    (hd : dispatched dispatch s₀ done = some s) (hc : ∀ d ∈ stamps 0 done, Clean reads d)
    (hsum : reads.sum = totalSize done + acc.length) (hacc : acc.length < 3)
    (hrest : todo.flatMap Frame.bytes = acc ++ rest)
    (hstep : (ReadLoop.mk s (some (.header acc)) rest reads (stamps 0 done)).step dispatch k =
      some l') : Decoding dispatch s₀ (done ++ todo) l' := by
  obtain ⟨r, hr, hk1, hk3, hkr, hfeed⟩ := ReadLoop.step_cases hstep
  obtain rfl := Option.some.inj hr
  have hk3 : k ≤ 3 := hk3
  have hkr : k ≤ rest.length := hkr
  have hsum' : (reads ++ [k]).sum = totalSize done + (acc.length + k) := by
    simp [hsum]
    omega
  have hc' : ∀ d ∈ stamps 0 done, Clean (reads ++ [k]) d := fun d hd => (hc d hd).append
  have hblen : (acc ++ rest.take k).length = acc.length + k := by simp [hkr]
  have hsplit : todo.flatMap Frame.bytes = (acc ++ rest.take k) ++ rest.drop k := by
    rw [hrest, List.append_assoc, List.take_append_drop]
  cases todo with
  | nil =>
    have hnil : rest = [] := (List.append_eq_nil_iff.mp hrest.symm).2
    rw [hnil] at hkr
    simp at hkr
    omega
  | cons f todo =>
    have hf := hlen f (by simp)
    rw [List.flatMap_cons] at hsplit
    by_cases hshort : acc.length + k < 3
    · -- the header is still incomplete
      have hfields : headerFields (acc ++ rest.take k) = none := headerFields_short (by omega)
      simp only [Reading.feed, hfields] at hfeed
      rcases hfeed with ⟨r', hr', rfl⟩ | ⟨g, hg, -⟩
      · obtain rfl := Sum.inl.inj hr'
        refine .header hd hc' (by rw [hblen]; exact hsum') (by rw [hblen]; exact hshort) ?_
        rw [List.flatMap_cons]
        exact hsplit
      · cases hg
    · have hhead : acc ++ rest.take k = f.bytes.take 3 ++ (acc ++ rest.take k).drop 3 := by
        have htake : (acc ++ rest.take k).take 3 = f.bytes.take 3 := by
          have h3 := congrArg (List.take 3) hsplit
          rw [List.take_append_of_le_length (by rw [Frame.length_bytes, Frame.size]; omega),
            List.take_append_of_le_length (by omega)] at h3
          exact h3.symm
        rw [← htake, List.take_append_drop]
      have hfields : headerFields (acc ++ rest.take k) = some (f.ty, f.payload.length) := by
        rw [hhead]
        exact headerFields_bytes hf _
      simp only [Reading.feed, hfields] at hfeed
      rcases hfeed with ⟨r', hr', rfl⟩ | ⟨g, hg, -⟩
      swap
      · cases hg
      obtain rfl := Sum.inl.inj hr'
      by_cases hexact : acc.length + k = 3 ∧ f.payload ≠ []
      · have hbytes : acc ++ rest.take k = f.bytes.take 3 := by
          rw [hhead, List.drop_eq_nil_of_le (by omega), List.append_nil]
        have hdrop : rest.drop k = f.payload ++ todo.flatMap Frame.bytes := by
          have hcut : f.bytes = f.bytes.take 3 ++ f.payload := rfl
          rw [hbytes, hcut, List.append_assoc] at hsplit
          exact (List.append_cancel_left hsplit).symm
        change Decoding dispatch s₀ (done ++ f :: todo)
          ⟨s, some (.payload f.ty [] f.payload.length), rest.drop k, reads ++ [k], stamps 0 done⟩
        rw [hdrop]
        have hsum0 : (reads ++ [k]).sum = totalSize done + 3 + ([] : Bytes).length := by
          simpa [hexact.1] using hsum'
        exact .payload hd hc' hsum0 rfl hexact.2 ⟨_, List.prefix_refl _, by omega⟩
      · -- an empty payload, or a read past the header's end
        have hlost : f.payload = [] ∨ 3 < acc.length + k := by
          by_contra hne
          push Not at hne
          exact hexact ⟨by omega, hne.1⟩
        have hdec : Decoding dispatch s₀ (done ++ f :: todo)
            ⟨s, some (.payload f.ty [] f.payload.length), rest.drop k, reads ++ [k],
              stamps 0 done ++ []⟩ := by
          refine .lost hd hc' (by omega) (hlost.imp_right fun h cut hcut => ?_) (by simp)
            fun _ => ⟨[], rfl, by simpa using by omega, hlost.imp_right fun h => by simpa using by omega⟩
          exact no_cut hcut (fun hold => by have := sum_le_of_prefix hold; omega) (by omega)
        rwa [List.append_nil] at hdec

theorem Decoding.step_payload {done todo : List Frame} {acc left : Bytes} {reads : List ℕ}
    (hd : dispatched dispatch s₀ done = some s) (hc : ∀ d ∈ stamps 0 done, Clean reads d)
    (hsum : reads.sum = totalSize done + 3 + acc.length) (hp : f.payload = acc ++ left)
    (hleft : left ≠ []) (hcut : ∃ cut, cut <+: reads ∧ cut.sum = totalSize done + 3)
    (hstep : (ReadLoop.mk s (some (.payload f.ty acc f.payload.length))
      (left ++ todo.flatMap Frame.bytes) reads (stamps 0 done)).step dispatch k = some l') :
    Decoding dispatch s₀ (done ++ f :: todo) l' := by
  obtain ⟨r, hr, hk1, hkw, -, hfeed⟩ := ReadLoop.step_cases hstep
  obtain rfl := Option.some.inj hr
  have hlen : f.payload.length = acc.length + left.length := by rw [hp, List.length_append]
  have hpos : 0 < left.length := List.length_pos_iff.mpr hleft
  have hkl : k ≤ left.length := by
    have hw : k ≤ max (f.payload.length - acc.length) 1 := hkw
    omega
  obtain ⟨cut, hcr, hcs⟩ := hcut
  have hsum' : (reads ++ [k]).sum = totalSize done + 3 + (acc.length + k) := by
    simp [hsum]
    omega
  have hc' : ∀ d ∈ stamps 0 done, Clean (reads ++ [k]) d := fun d hd => (hc d hd).append
  have htake : (left ++ todo.flatMap Frame.bytes).take k = left.take k :=
    List.take_append_of_le_length hkl
  have hdrop : (left ++ todo.flatMap Frame.bytes).drop k =
      left.drop k ++ todo.flatMap Frame.bytes := List.drop_append_of_le_length hkl
  have hblen : (acc ++ left.take k).length = acc.length + k := by simp [hkl]
  simp only [htake, hdrop, Reading.feed, hblen] at hfeed
  by_cases hshort : acc.length + k < f.payload.length
  · simp only [if_pos hshort] at hfeed
    rcases hfeed with ⟨r', hr', rfl⟩ | ⟨g, hg, -⟩
    · obtain rfl := Sum.inl.inj hr'
      refine .payload hd hc' (by rw [hblen]; exact hsum') ?_ (fun h0 => ?_)
        ⟨cut, hcr.trans (List.prefix_append _ _), hcs⟩
      · rw [hp, List.append_assoc, List.take_append_drop]
      · have := congrArg List.length h0
        simp at this
        omega
    · cases hg
  · -- the payload is complete, and nothing beyond it was read
    simp only [if_neg hshort] at hfeed
    rcases hfeed with ⟨r', hr', -⟩ | ⟨g, hg, rfl⟩
    · cases hr'
    have hk : k = left.length := by omega
    have hfull : f = ⟨f.ty, acc ++ left.take k⟩ := by
      rw [hk, List.take_length, ← hp]
    rw [← hfull] at hg
    obtain rfl := Sum.inr.inj hg
    have hend : (reads ++ [k]).sum = 0 + totalSize done + f.size := by
      rw [Frame.size]
      omega
    have hlog : stamps 0 done ++ [(f, (reads ++ [k]).sum)] = stamps 0 (done ++ [f]) := by
      rw [stamps_append, hend]
      rfl
    have hclean : ∀ d ∈ stamps 0 (done ++ [f]), Clean (reads ++ [k]) d := by
      rw [← hlog]
      intro d hd
      rcases List.mem_append.mp hd with hd | hd
      · exact hc' d hd
      · obtain rfl := List.mem_singleton.mp hd
        refine ⟨fun h0 => ?_, cut, hcr.trans (List.prefix_append _ _), ?_⟩
        · have h0 : f.payload = [] := h0
          rw [h0] at hlen
          simp at hlen
          omega
        · change cut.sum + f.payload.length = (reads ++ [k]).sum
          omega
    have htodo : left.drop k = [] := by rw [hk, List.drop_length]
    simp only [hlog, htodo, List.nil_append]
    cases hkeep : (dispatch s f).2 with
    | true =>
      have hd' : dispatched dispatch s₀ (done ++ [f]) = some (dispatch s f).1 := by
        rw [dispatched_append hd, dispatched, if_pos hkeep]
        rfl
      have hdec : Decoding dispatch s₀ ((done ++ [f]) ++ todo) ⟨(dispatch s f).1,
          some (.header []), todo.flatMap Frame.bytes, reads ++ [k], stamps 0 (done ++ [f])⟩ :=
        .header hd' hclean (by simpa using hend) (by simp) rfl
      rwa [List.append_assoc] at hdec
    | false =>
      exact .closed hd hkeep hclean (by simpa using hend.ge)

theorem Decoding.step_lost {done todo : List Frame} {r : Option Reading} {rest : Bytes}
    {reads : List ℕ} {extra : List (Frame × ℕ)} (hd : dispatched dispatch s₀ done = some s)
    (hc : ∀ d ∈ stamps 0 done, Clean reads d) (hsum : totalSize done + 3 ≤ reads.sum)
    (hlost : f.payload = [] ∨ ∀ cut, cut <+: reads → cut.sum ≠ totalSize done + 3)
    (hextra : ∀ d ∈ extra, totalSize done + f.size < d.2 ∧ d.2 ≤ reads.sum)
    (hnone : extra = [] → ∃ acc, r = some (.payload f.ty acc f.payload.length) ∧
      totalSize done + 3 + acc.length ≤ reads.sum ∧
      (f.payload = [] ∨ totalSize done + 3 + acc.length < reads.sum))
    (hstep : (ReadLoop.mk s' r rest reads (stamps 0 done ++ extra)).step dispatch k = some l') :
    Decoding dispatch s₀ (done ++ f :: todo) l' := by
  obtain ⟨r, rfl, hk1, hkw, hkr, hfeed⟩ := ReadLoop.step_cases hstep
  dsimp only at hkr hfeed
  have hsum' : (reads ++ [k]).sum = reads.sum + k := by simp
  have hc' : ∀ d ∈ stamps 0 done, Clean (reads ++ [k]) d := fun d hd => (hc d hd).append
  have hlost' : f.payload = [] ∨ ∀ cut, cut <+: reads ++ [k] → cut.sum ≠ totalSize done + 3 :=
    hlost.imp_right fun h cut hcut => no_cut hcut (h cut) (by omega)
  have hextra' : ∀ d ∈ extra, totalSize done + f.size < d.2 ∧ d.2 ≤ (reads ++ [k]).sum :=
    fun d hd => ⟨(hextra d hd).1, (hextra d hd).2.trans (by omega)⟩
  rcases hfeed with ⟨r', hr', rfl⟩ | ⟨g, hg, rfl⟩
  · refine .lost hd hc' (by omega) hlost' hextra' fun h0 => ?_
    obtain ⟨acc, hr, hle, hlt⟩ := hnone h0
    obtain rfl := Option.some.inj hr
    have hblen : (acc ++ rest.take k).length = acc.length + k := by simp [hkr]
    simp only [Reading.feed, hblen] at hr'
    split_ifs at hr' with hshort
    obtain rfl := Sum.inl.inj hr'
    refine ⟨_, rfl, by rw [hblen]; omega, .inr ?_⟩
    rcases hlt with h | h
    · rw [h] at hshort
      simp at hshort
    · rw [hblen]
      omega
  · have hpast : totalSize done + f.size < (reads ++ [k]).sum := by
      cases extra with
      | nil =>
        obtain ⟨acc, hr, hle, hlt⟩ := hnone rfl
        obtain rfl := Option.some.inj hr
        have hblen : (acc ++ rest.take k).length = acc.length + k := by simp [hkr]
        simp only [Reading.feed, hblen] at hg
        split_ifs at hg with hshort
        rw [Frame.size]
        rcases hlt with h | h
        · rw [h, List.length_nil]
          omega
        · omega
      | cons d extra =>
        have := hextra d List.mem_cons_self
        omega
    change Decoding dispatch s₀ (done ++ f :: todo) ⟨_, _, _, _,
      (stamps 0 done ++ extra) ++ [(g, (reads ++ [k]).sum)]⟩
    rw [List.append_assoc]
    refine .lost hd hc' (by omega) hlost' (fun d hd => ?_) fun h0 => by simp at h0
    rcases List.mem_append.mp hd with hd | hd
    · exact hextra' d hd
    · obtain rfl := List.mem_singleton.mp hd
      exact ⟨hpast, le_rfl⟩

theorem Decoding.step (hlen : ∀ f ∈ fs, f.payload.length ≤ 65535)
    (h : Decoding dispatch s₀ fs l) (hstep : l.step dispatch k = some l') :
    Decoding dispatch s₀ fs l' := by
  cases h with
  | header hd hc hsum hacc hrest => exact step_header hlen hd hc hsum hacc hrest hstep
  | payload hd hc hsum hp hleft hcut => exact step_payload hd hc hsum hp hleft hcut hstep
  | closed =>
    obtain ⟨r, hr, -⟩ := ReadLoop.step_cases hstep
    cases hr
  | lost hd hc hsum hlost hextra hnone => exact step_lost hd hc hsum hlost hextra hnone hstep

/-- At any moment, the frames dispatched are those due, exactly when all those due are clean. -/
theorem Decoding.log_iff (h : Decoding dispatch s₀ fs l) :
    l.log = due dispatch l.reads.sum s₀ 0 fs ↔
      ∀ d ∈ due dispatch l.reads.sum s₀ 0 fs, Clean l.reads d := by
  cases h with
  | @header done todo s acc rest reads hd hc hsum hacc hrest =>
    have hdue : due dispatch reads.sum s₀ 0 (done ++ todo) = stamps 0 done := by
      rw [due_append hd (by omega)]
      cases todo with
      | nil => simp [due]
      | cons f todo => rw [due_wait (by rw [Frame.size]; omega), List.append_nil]
    change stamps 0 done = due dispatch reads.sum s₀ 0 (done ++ todo) ↔ _
    rw [hdue]
    exact ⟨fun _ => hc, fun _ => rfl⟩
  | @payload done todo f s acc left reads hd hc hsum hp hleft hcut =>
    have hpos : 0 < left.length := List.length_pos_iff.mpr hleft
    have hsize : f.size = 3 + (acc.length + left.length) := by
      rw [Frame.size, hp, List.length_append]
    have hdue : due dispatch reads.sum s₀ 0 (done ++ f :: todo) = stamps 0 done := by
      rw [due_append hd (by omega), due_wait (by omega), List.append_nil]
    change stamps 0 done = due dispatch reads.sum s₀ 0 (done ++ f :: todo) ↔ _
    rw [hdue]
    exact ⟨fun _ => hc, fun _ => rfl⟩
  | @closed done todo f s s' rest reads hd hk hc hle =>
    have hdue : due dispatch reads.sum s₀ 0 (done ++ f :: todo) = stamps 0 (done ++ [f]) := by
      rw [totalSize_append, totalSize_singleton] at hle
      rw [due_append hd (by omega), due_closed (by omega) hk, stamps_append]
      rfl
    change stamps 0 (done ++ [f]) = due dispatch reads.sum s₀ 0 (done ++ f :: todo) ↔ _
    rw [hdue]
    exact ⟨fun _ => hc, fun _ => rfl⟩
  | @lost done todo f s s' r rest reads extra hd hc hsum hlost hextra hnone =>
    change stamps 0 done ++ extra = due dispatch reads.sum s₀ 0 (done ++ f :: todo) ↔
      ∀ d ∈ due dispatch reads.sum s₀ 0 (done ++ f :: todo), Clean reads d
    by_cases hend : 0 + totalSize done + f.size ≤ reads.sum
    · -- the frame is due, and it is neither clean nor in the log
      have hdue : due dispatch reads.sum s₀ 0 (done ++ f :: todo) = stamps 0 done ++
          (f, 0 + totalSize done + f.size) ::
            if (dispatch s f).2 then
              due dispatch reads.sum (dispatch s f).1 (0 + totalSize done + f.size) todo else [] := by
        rw [due_append hd (by omega), due, if_pos hend]
      rw [hdue]
      refine iff_of_false (fun heq => ?_) fun hall => ?_
      · have heq := List.append_cancel_left heq
        rw [heq] at hextra
        have := (hextra _ List.mem_cons_self).1
        simp at this
      · obtain ⟨hp, cut, hcut, hcs⟩ :=
          hall (f, 0 + totalSize done + f.size) (List.mem_append_right _ List.mem_cons_self)
        refine (hlost.resolve_left hp) cut hcut ?_
        have hcs : cut.sum + f.payload.length = 0 + totalSize done + (3 + f.payload.length) := hcs
        omega
    · have hdue : due dispatch reads.sum s₀ 0 (done ++ f :: todo) = stamps 0 done := by
        rw [due_append hd (by omega), due_wait (by omega), List.append_nil]
      have hnil : extra = [] := by
        cases extra with
        | nil => rfl
        | cons d extra =>
          have := hextra d List.mem_cons_self
          omega
      rw [hdue, hnil, List.append_nil]
      exact ⟨fun _ => hc, fun _ => rfl⟩

theorem ReadLoop.run_reads {ks : List ℕ} (h : run (ReadLoop.step dispatch) l ks = some l') :
    l'.reads = l.reads ++ ks := by
  induction ks generalizing l with
  | nil =>
    obtain rfl : l = l' := by simpa using h
    simp
  | cons k ks ih =>
    obtain ⟨u, hu, hrun⟩ := Option.bind_eq_some_iff.mp h
    have hreads : u.reads = l.reads ++ [k] := by
      obtain ⟨r, -, -, -, -, ⟨r', -, rfl⟩ | ⟨f, -, rfl⟩⟩ := step_cases hu <;> rfl
    rw [ih hrun, hreads, List.append_assoc]
    rfl

/-- For any frames, any dispatcher and any way of reading the stream: the loop has dispatched
exactly the frames received so far, each as its last byte was read, if and only if each of them has
a payload and a read that stopped at the end of its header. -/
theorem decode_iff (hlen : ∀ f ∈ fs, f.payload.length ≤ 65535) {ks : List ℕ}
    (h : run (ReadLoop.step dispatch) (ReadLoop.start s fs) ks = some l) :
    l.log = due dispatch ks.sum s 0 fs ↔ ∀ d ∈ due dispatch ks.sum s 0 fs, Clean ks d := by
  have hreads : l.reads = ks := by
    rw [ReadLoop.run_reads h]
    rfl
  have hstart : Decoding dispatch s fs (ReadLoop.start s fs) := by
    have h0 : Decoding dispatch s ([] ++ fs) ⟨s, some (.header []), fs.flatMap Frame.bytes, [],
        stamps 0 []⟩ := .header rfl (by simp [stamps]) rfl (by simp) rfl
    exact h0
  have hl := (reaches_of_run (meets_of_forall (p := fun _ => True) (by simp)) h).invariant hstart
    fun _ _ _ hs _ hst => hs.step hlen hst
  rw [← hreads]
  exact hl.log_iff

end

/-- A dispatcher that closes the session on the first frame of type 0. -/
def closeOnZero (n : ℕ) (f : Frame) : ℕ × Bool := (n + 1, f.ty != 0)

theorem decode_iff_split :
    let fs := [⟨0x10, [7, 8]⟩, ⟨0, [9]⟩, ⟨0x10, [1]⟩]
    ∃ l, run (ReadLoop.step closeOnZero) (ReadLoop.start 0 fs) [1, 2, 1, 1, 3, 1] = some l ∧
      l.log = [(⟨0x10, [7, 8]⟩, 5), (⟨0, [9]⟩, 9)] ∧
      (l.log = due closeOnZero [1, 2, 1, 1, 3, 1].sum 0 0 fs ↔
        ∀ d ∈ due closeOnZero [1, 2, 1, 1, 3, 1].sum 0 0 fs, Clean [1, 2, 1, 1, 3, 1] d) := by
  intro fs
  have hlog : (run (ReadLoop.step closeOnZero) (ReadLoop.start 0 fs) [1, 2, 1, 1, 3, 1]).map
      (·.log) = some [(⟨0x10, [7, 8]⟩, 5), (⟨0, [9]⟩, 9)] := by
    decide +kernel
  obtain ⟨l, hl, hlog⟩ := Option.map_eq_some_iff.mp hlog
  exact ⟨l, hl, hlog, decode_iff (by decide) hl⟩

/-- A frame without payload is not dispatched when it has arrived, and a header read in two pieces
swallows a byte of the payload. -/
theorem decode_waits_and_overreads :
    (∃ l, run (ReadLoop.step closeOnZero) (ReadLoop.start 0 [⟨0x11, []⟩]) [3] = some l ∧
      l.log ≠ due closeOnZero 3 0 0 [⟨0x11, []⟩]) ∧
    ∃ l, run (ReadLoop.step closeOnZero) (ReadLoop.start 0 [⟨0x10, [7]⟩]) [1, 3] = some l ∧
      l.log ≠ due closeOnZero 4 0 0 [⟨0x10, [7]⟩] :=
  ⟨⟨⟨0, some (.payload 0x11 [] 0), [], [3], []⟩, by decide +kernel, by decide⟩,
    ⟨0, some (.payload 0x10 [] 1), [], [1, 3], []⟩, by decide +kernel, by decide⟩

end Conrt.Daemon
