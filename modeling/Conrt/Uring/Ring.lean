import Conrt.Coio.Slots
import Mathlib.Data.List.Perm.Basic
import Mathlib.Data.List.Perm.Subperm

/-! The ring backend: how completions are named, the queues it shares with the kernel, and what the
kernel does with the requests in them. -/
namespace Conrt.Uring

abbrev Errno := ℕ

def enoent : Errno := 2

def eagain : Errno := 11

def ebusy : Errno := 16

def ealready : Errno := 114

def ecanceled : Errno := 125

structure UserData where
  index : ℕ
  tag : ℕ
deriving DecidableEq

/-- The high bit of the tag marks a cancel's own completion. -/
def cancelTag : ℕ := 1 <<< 31

/-- The low seven bits carry the class. -/
def classMask : ℕ := 0x7f

def UserData.toU64 (ud : UserData) : ℕ := ud.index ||| (ud.tag <<< 32)

def UserData.ofU64 (ud : ℕ) : UserData := ⟨ud % 2 ^ 32, (ud >>> 32) % 2 ^ 32⟩

/-- `none` where the class does not fit the tag. -/
def opUserData (slot cls : ℕ) : Option ℕ :=
  if cls ≤ classMask then some (UserData.toU64 ⟨slot, cls⟩) else none

def cancelUserData (cancelSlot : ℕ) : ℕ := UserData.toU64 ⟨cancelSlot, cancelTag⟩

/-- A queued request. `id` is that of the op or of the cancel, `target` that of the op to be cancelled;
neither is in the source. -/
inductive Sqe
  | op (userData id : ℕ)
  | asyncCancel (userData targetData id target : ℕ)
deriving DecidableEq

/-- A completion as the kernel posts it; `id` and `target` as above. -/
structure Cqe where
  userData : ℕ
  result : ℤ
  flags : ℕ
  id : ℕ
  target : ℕ
deriving DecidableEq

/-- A request the kernel is working on. One that has `begun` can no longer be cancelled. -/
structure Flight where
  userData : ℕ
  id : ℕ
  begun : Bool
deriving DecidableEq

/-- The submission queue, the part of it handed to the kernel, the requests the kernel works on, the
completions it has decided and those it has posted. `told` records for each op how the kernel has
decided it, cancelled or not; it is not in the source. -/
structure Ring where
  entries : ℕ
  sq : List Sqe
  submitted : List Sqe
  flight : List Flight
  due : List Cqe
  cq : List Cqe
  told : List (ℕ × Bool)
deriving DecidableEq

structure Completion where
  slot : ℕ
  result : ℤ
  flags : ℕ
  cls : ℕ
  cancel : Bool
  cancelled : Bool
deriving DecidableEq

namespace Ring

def new (entries : ℕ) : Ring := ⟨entries, [], [], [], [], [], []⟩

/-- Fails when the submission queue is full. -/
def push (r : Ring) (sqe : Sqe) : Except Errno Ring :=
  if r.sq.length < r.entries then .ok { r with sq := r.sq ++ [sqe] } else .error eagain

/-- `none` where an assertion fails. -/
def arm (r : Ring) (slot cls id : ℕ) : Option (Except Errno Ring) :=
  (opUserData slot cls).map fun ud => r.push (.op ud id)

def cancel (r : Ring) (cancelSlot targetSlot cls id target : ℕ) : Option (Except Errno Ring) :=
  (opUserData targetSlot cls).map fun ud =>
    r.push (.asyncCancel (cancelUserData cancelSlot) ud id target)

def submit (r : Ring) (n : ℕ) : Ring :=
  { r with submitted := r.submitted ++ r.sq.take n, sq := r.sq.drop n }

/-- `entered` is what `io_uring_enter` answers; a submission already pending is no error. -/
def wait (r : Ring) (entered : Except Errno ℕ) : Except Errno Ring :=
  match entered with
  | .ok n => .ok (r.submit n)
  | .error e => if e = ebusy then .ok r else .error e

end Ring

def Cqe.completion (cqe : Cqe) : Completion :=
  let ud := UserData.ofU64 cqe.userData
  { slot := ud.index
    result := cqe.result
    flags := cqe.flags
    cls := ud.tag &&& classMask
    cancel := (ud.tag &&& cancelTag) != 0
    cancelled := (ud.tag &&& cancelTag) == 0 && cqe.result == -ecanceled }

/-- `next_completion`, with the entry it popped. -/
def Ring.next (r : Ring) : Option (Cqe × Ring) :=
  match r.cq with
  | [] => none
  | cqe :: cq => some (cqe, { r with cq := cq })

/-- What the kernel does next: it takes the next submitted request, finishes one it works on, or posts a
completion. `reaches` tells whether a request that is to be cancelled can still be. -/
inductive Kernel
  | take (reaches : Bool)
  | finish (f : Flight) (result : ℤ) (flags : ℕ)
  | post (cqe : Cqe)
deriving DecidableEq

/-- A request ends in `-ECANCELED` exactly when a cancel that found it reports zero; the two completions
are posted in either order, and any others between them. -/
def Ring.kernel (r : Ring) : Kernel → Option Ring
  | .take reaches =>
    match r.submitted with
    | [] => none
    | .op ud id :: rest => some { r with submitted := rest, flight := ⟨ud, id, false⟩ :: r.flight }
    | .asyncCancel ud targetData id target :: rest =>
      let answer (result : ℤ) : Cqe := ⟨ud, result, 0, id, target⟩
      match r.flight.find? fun f => f.userData == targetData with
      | none => some { r with submitted := rest, due := answer (-enoent) :: r.due }
      | some f =>
        if reaches && !f.begun then
          some { r with
            submitted := rest
            flight := r.flight.erase f
            due := answer 0 :: ⟨f.userData, -ecanceled, 0, f.id, 0⟩ :: r.due
            told := (f.id, true) :: r.told }
        else
          some { r with
            submitted := rest
            flight := { f with begun := true } :: r.flight.erase f
            due := answer (-ealready) :: r.due
            told := (f.id, false) :: r.told }
  | .finish f result flags =>
    if f ∈ r.flight ∧ result ≠ -ecanceled then
      some { r with
        flight := r.flight.erase f
        due := ⟨f.userData, result, flags, f.id, 0⟩ :: r.due
        told := (f.id, false) :: r.told }
    else none
  | .post cqe =>
    if cqe ∈ r.due then some { r with due := r.due.erase cqe, cq := r.cq ++ [cqe] } else none

section

variable {ud : UserData} {slot cls : ℕ}

theorem ofU64_toU64 (hi : ud.index < 2 ^ 32) (ht : ud.tag < 2 ^ 32) : UserData.ofU64 ud.toU64 = ud := by
  have hsum : ud.toU64 = ud.tag * 2 ^ 32 + ud.index := by
    unfold UserData.toU64
    rw [Nat.or_comm, ← Nat.shiftLeft_add_eq_or_of_lt hi, Nat.shiftLeft_eq]
  have hlow : ud.toU64 % 2 ^ 32 = ud.index := by
    rw [hsum, Nat.mul_comm, Nat.mul_add_mod, Nat.mod_eq_of_lt hi]
  have hhigh : (ud.toU64 >>> 32) % 2 ^ 32 = ud.tag := by
    rw [Nat.shiftRight_eq_div_pow, hsum]
    omega
  unfold UserData.ofU64
  rw [hlow, hhigh]

theorem opUserData_eq {n : ℕ} (h : opUserData slot cls = some n) :
    cls ≤ classMask ∧ n = UserData.toU64 ⟨slot, cls⟩ := by
  unfold opUserData at h
  split_ifs at h with hc
  exact ⟨hc, (Option.some.inj h).symm⟩

/-- What `next_completion` reads of an op's `user_data` is what `arm` was given. -/
theorem ofU64_op (hs : slot < 2 ^ 32) (hc : cls ≤ classMask) :
    UserData.ofU64 (UserData.toU64 ⟨slot, cls⟩) = ⟨slot, cls⟩ :=
  ofU64_toU64 hs (hc.trans_lt (by decide))

theorem ofU64_cancel (hs : slot < 2 ^ 32) :
    UserData.ofU64 (cancelUserData slot) = ⟨slot, cancelTag⟩ :=
  ofU64_toU64 hs (by decide : cancelTag < 2 ^ 32)

/-- The class never reaches the bit that marks a cancel. -/
theorem cls_bits (hc : cls ≤ classMask) : cls &&& classMask = cls ∧ cls &&& cancelTag = 0 := by
  have hlt : cls < 2 ^ 7 := hc.trans_lt (by decide)
  constructor
  · exact (Nat.and_two_pow_sub_one_eq_mod cls 7).trans (Nat.mod_eq_of_lt hlt)
  · apply Nat.eq_of_testBit_eq
    intro i
    have hbit : cancelTag.testBit i = decide (31 = i) := by
      rw [cancelTag, Nat.one_shiftLeft, Nat.testBit_two_pow]
    rw [Nat.testBit_and, hbit, Nat.zero_testBit]
    by_cases hi : 31 = i
    · subst hi
      rw [Nat.testBit_lt_two_pow (hlt.trans (by decide)), Bool.false_and]
    · rw [decide_eq_false hi, Bool.and_false]

end

def Sqe.id : Sqe → ℕ
  | .op _ id | .asyncCancel _ _ id _ => id

def Sqe.op? : Sqe → Option (ℕ × ℕ)
  | .op ud id => some ((UserData.ofU64 ud).index, id)
  | .asyncCancel .. => none

def Sqe.cancel? : Sqe → Option (ℕ × ℕ × ℕ)
  | .op .. => none
  | .asyncCancel ud _ id target => some ((UserData.ofU64 ud).index, id, target)

def Flight.op (f : Flight) : ℕ × ℕ := ((UserData.ofU64 f.userData).index, f.id)

def Cqe.op? (c : Cqe) : Option (ℕ × ℕ) :=
  if c.completion.cancel then none else some (c.completion.slot, c.id)

def Cqe.cancel? (c : Cqe) : Option (ℕ × ℕ × ℕ) :=
  if c.completion.cancel then some (c.completion.slot, c.id, c.target) else none

namespace Ring

/-- The requests the kernel has yet to look at, in their order. -/
def queue (r : Ring) : List Sqe := r.submitted ++ r.sq

def done (r : Ring) : List Cqe := r.due ++ r.cq

def ops (r : Ring) : List (ℕ × ℕ) :=
  r.queue.filterMap Sqe.op? ++ (r.flight.map Flight.op ++ r.done.filterMap Cqe.op?)

def cancels (r : Ring) : List (ℕ × ℕ × ℕ) :=
  r.queue.filterMap Sqe.cancel? ++ r.done.filterMap Cqe.cancel?

/-- What may happen to the requests: one is taken up, a cancel finds nothing, or its target in time, or
its target too late, a request finishes, or nothing but that requests and completions are passed on. -/
inductive Worked (r r' : Ring) : Prop
  | took (ud id : ℕ) (hqueue : r.queue = .op ud id :: r'.queue)
    (hflight : r'.flight = ⟨ud, id, false⟩ :: r.flight) (hdone : r'.done.Perm r.done)
    (htold : r'.told = r.told)
  | missed (ud td id t : ℕ) (hqueue : r.queue = .asyncCancel ud td id t :: r'.queue)
    (hnone : ∀ f ∈ r.flight, f.userData ≠ td) (hflight : r'.flight = r.flight)
    (hdone : r'.done.Perm (⟨ud, -enoent, 0, id, t⟩ :: r.done)) (htold : r'.told = r.told)
  | won (ud id t : ℕ) (f : Flight) (hqueue : r.queue = .asyncCancel ud f.userData id t :: r'.queue)
    (hf : f ∈ r.flight) (hbegun : f.begun = false) (hflight : r'.flight = r.flight.erase f)
    (hdone : r'.done.Perm (⟨ud, 0, 0, id, t⟩ :: ⟨f.userData, -ecanceled, 0, f.id, 0⟩ :: r.done))
    (htold : r'.told = (f.id, true) :: r.told)
  | late (ud id t : ℕ) (f : Flight) (hqueue : r.queue = .asyncCancel ud f.userData id t :: r'.queue)
    (hf : f ∈ r.flight) (hflight : r'.flight = { f with begun := true } :: r.flight.erase f)
    (hdone : r'.done.Perm (⟨ud, -ealready, 0, id, t⟩ :: r.done))
    (htold : r'.told = (f.id, false) :: r.told)
  | finished (f : Flight) (result : ℤ) (flags : ℕ) (hqueue : r.queue = r'.queue) (hf : f ∈ r.flight)
    (hresult : result ≠ -ecanceled) (hflight : r'.flight = r.flight.erase f)
    (hdone : r'.done.Perm (⟨f.userData, result, flags, f.id, 0⟩ :: r.done))
    (htold : r'.told = (f.id, false) :: r.told)
  | passed (hqueue : r.queue = r'.queue) (hflight : r'.flight = r.flight) (hdone : r'.done.Perm r.done)
    (htold : r'.told = r.told)

variable {r r' : Ring}

theorem kernel_worked {k : Kernel} (h : r.kernel k = some r') : r.Worked r' := by
  cases k with
  | take reaches =>
    simp only [kernel] at h
    split at h
    · cases h
    · rename_i ud id rest hs
      obtain rfl := Option.some.inj h
      refine .took ud id ?_ rfl .rfl rfl
      rw [queue, hs]
      rfl
    · rename_i ud td id t rest hs
      have hqueue : r.queue = .asyncCancel ud td id t :: (rest ++ r.sq) := by
        rw [queue, hs]
        rfl
      split at h
      · rename_i hnone
        obtain rfl := Option.some.inj h
        refine .missed ud td id t hqueue ?_ rfl .rfl rfl
        intro f hf heq
        have hno := List.find?_eq_none.mp hnone f hf
        exact hno (beq_iff_eq.mpr heq)
      · rename_i f hfind
        have hf := List.mem_of_find?_eq_some hfind
        have hud : f.userData = td := by simpa using List.find?_some hfind
        subst hud
        split_ifs at h with hwon
        · obtain rfl := Option.some.inj h
          obtain ⟨-, hbegun⟩ := Bool.and_eq_true_iff.mp hwon
          exact .won ud id t f hqueue hf (Bool.not_eq_true' _ |>.mp hbegun) rfl .rfl rfl
        · obtain rfl := Option.some.inj h
          exact .late ud id t f hqueue hf rfl .rfl rfl
  | finish f result flags =>
    simp only [kernel] at h
    split_ifs at h with hok
    obtain rfl := Option.some.inj h
    exact .finished f result flags rfl hok.1 hok.2 rfl .rfl rfl
  | post cqe =>
    simp only [kernel] at h
    split_ifs at h with hmem
    obtain rfl := Option.some.inj h
    refine .passed rfl rfl ?_ rfl
    change (r.due.erase cqe ++ (r.cq ++ [cqe])).Perm (r.due ++ r.cq)
    rw [← List.append_assoc]
    refine (List.perm_append_singleton _ _).trans ?_
    exact ((List.perm_cons_erase hmem).append_right r.cq).symm

theorem push_ok {sqe : Sqe} (h : r.push sqe = .ok r') :
    r'.queue = r.queue ++ [sqe] ∧ r'.flight = r.flight ∧ r'.done = r.done ∧ r'.told = r.told := by
  unfold push at h
  split_ifs at h
  cases h
  refine ⟨?_, rfl, rfl, rfl⟩
  unfold queue
  rw [List.append_assoc]

theorem next_ok {c : Cqe} (h : r.next = some (c, r')) :
    r.done.Perm (c :: r'.done) ∧ r'.queue = r.queue ∧ r'.flight = r.flight ∧ r'.told = r.told := by
  unfold next at h
  split at h
  · cases h
  · rename_i cqe cq hcq
    obtain ⟨rfl, rfl⟩ := Prod.mk.inj (Option.some.inj h)
    refine ⟨?_, rfl, rfl, rfl⟩
    unfold done
    rw [hcq]
    exact List.perm_middle

theorem submit_worked (n : ℕ) : r.Worked (r.submit n) := by
  refine .passed ?_ rfl .rfl rfl
  unfold queue submit
  rw [List.append_assoc, List.take_append_drop]

def weight (r : Ring) : ℕ := 3 * r.queue.length + 2 * r.flight.length + r.due.length

theorem kernel_weight {k : Kernel} (h : r.kernel k = some r') : r'.weight < r.weight ∧ r'.sq = r.sq := by
  cases k with
  | take reaches =>
    simp only [kernel] at h
    split at h
    · cases h
    · rename_i ud id rest hs
      obtain rfl := Option.some.inj h
      simp only [weight, queue, hs, List.length_append, List.length_cons, and_true]
      omega
    · rename_i ud td id t rest hs
      split at h
      · obtain rfl := Option.some.inj h
        simp only [weight, queue, hs, List.length_append, List.length_cons, and_true]
        omega
      · rename_i f hfind
        have hf := List.length_erase_of_mem (List.mem_of_find?_eq_some hfind)
        have hpos := List.length_pos_of_mem (List.mem_of_find?_eq_some hfind)
        split_ifs at h
        all_goals
          obtain rfl := Option.some.inj h
          simp only [weight, queue, hs, hf, List.length_append, List.length_cons, and_true]
          omega
  | finish f result flags =>
    simp only [kernel] at h
    split_ifs at h with hok
    have hf := List.length_erase_of_mem hok.1
    have hpos := List.length_pos_of_mem hok.1
    obtain rfl := Option.some.inj h
    simp only [weight, queue, hf, List.length_append, List.length_cons, and_true]
    omega
  | post cqe =>
    simp only [kernel] at h
    split_ifs at h with hmem
    have hdue := List.length_erase_of_mem hmem
    have hpos := List.length_pos_of_mem hmem
    obtain rfl := Option.some.inj h
    simp only [weight, queue, hdue, List.length_append, and_true]
    omega

/-- It has looked at every request, and finished and posted each. -/
theorem kernel_stuck (h : ∀ k, r.kernel k = none) : r.submitted = [] ∧ r.flight = [] ∧ r.due = [] := by
  refine ⟨?_, ?_, ?_⟩
  · rw [List.eq_nil_iff_forall_not_mem]
    intro s hs
    have htake := h (.take true)
    unfold kernel at htake
    cases hq : r.submitted with
    | nil => rw [hq] at hs; cases hs
    | cons s rest =>
      rw [hq] at htake
      cases s with
      | op ud id => cases htake
      | asyncCancel ud td id t =>
        cases hfind : r.flight.find? fun f => f.userData == td with
        | none => simp only [hfind] at htake; cases htake
        | some f =>
          simp only [hfind] at htake
          split_ifs at htake
  · rw [List.eq_nil_iff_forall_not_mem]
    intro f hf
    have hfinish := h (.finish f 0 0)
    simp only [kernel, hf, true_and] at hfinish
    rw [if_pos (by decide)] at hfinish
    cases hfinish
  · rw [List.eq_nil_iff_forall_not_mem]
    intro c hc
    have hpost := h (.post c)
    simp only [kernel, hc, if_true] at hpost
    cases hpost

end Ring

end Conrt.Uring
