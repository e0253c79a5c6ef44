import Conrt.Daemon.Container

/-! The pipes of a log gateway: what a push and a completed write do to them. -/
namespace Conrt.Daemon

open Conrt.Base

private theorem swapRemove_perm {α : Type} {l : List α} {i : ℕ} {a : α} (hi : l[i]? = some a) :
    (a :: swapRemove l i).Perm l := by
  unfold swapRemove
  obtain ⟨hlt, ha⟩ := List.getElem?_eq_some_iff.mp hi
  have hne : l ≠ [] := List.ne_nil_of_length_pos (by omega)
  obtain ⟨l', b, rfl⟩ : ∃ l' b, l = l' ++ [b] :=
    ⟨l.dropLast, l.getLast hne, (List.dropLast_append_getLast hne).symm⟩
  rw [List.getLast?_append_of_ne_nil _ (by simp)]
  simp only [List.getLast?_singleton]
  by_cases hlast : i < l'.length
  · rw [List.set_append_left _ _ hlast, List.dropLast_concat]
    have hget : l'[i] = a := by
      rw [List.getElem_append_left hlast] at ha
      exact ha
    have hset := (List.set_perm_cons_eraseIdx hlast b).cons a
    have herase := (List.getElem_cons_eraseIdx_perm hlast).cons b
    rw [hget] at herase
    have hp : (a :: l'.set i b).Perm (b :: l') := hset.trans ((List.Perm.swap b a _).trans herase)
    exact hp.trans (List.perm_append_singleton b l').symm
  · have hi' : i = l'.length := by
      rw [List.length_append, List.length_singleton] at hlt
      omega
    subst hi'
    have hb : b = a := by simpa using ha
    rw [hb]
    simp only [List.set_append_right _ _ le_rfl, Nat.sub_self, List.set_cons_zero,
      List.dropLast_concat]
    exact (List.perm_append_singleton a l').symm

namespace LogGateway

variable {g g' : LogGateway} {line : Bytes} {ids : List ℕ} {x y : ℕ} {ok : Bool}

/-- A completed write finds no pipe, or one, which becomes idle or is taken out. -/
theorem completeWrite_cases (g : LogGateway) (x : ℕ) (ok : Bool) :
    ((∀ p ∈ g.pipes, p.id ≠ x) ∧ g.completeWrite x ok = (g, [])) ∨
      ∃ p rest, p.id = x ∧ g.pipes.Perm (p :: rest) ∧
        (g.completeWrite x ok).2 = (if ok then [] else [p.fd.handle]) ∧
        (g.completeWrite x ok).1.pipes.Perm
          (if ok then { p with inFlight := false } :: rest else rest) := by
  cases hp : g.pipes[g.pipes.findIdx (·.id = x)]? with
  | none =>
    refine .inl ⟨fun p hmem hid => ?_, ?_⟩
    · have hlt := List.findIdx_lt_length_of_exists (p := fun p : AsyncPipeWriter => decide (p.id = x))
        ⟨p, hmem, by simpa using hid⟩
      rw [List.getElem?_eq_none_iff] at hp
      omega
    · simp only [completeWrite, hp]
  | some p =>
    obtain ⟨hlt, hget⟩ := List.getElem?_eq_some_iff.mp hp
    have hid : p.id = x := by
      have := List.findIdx_getElem (w := hlt)
      rw [hget] at this
      simpa using this
    have herase : g.pipes.Perm (p :: g.pipes.eraseIdx (g.pipes.findIdx (·.id = x))) := by
      have := List.getElem_cons_eraseIdx_perm hlt
      rw [hget] at this
      exact this.symm
    refine .inr ⟨p, g.pipes.eraseIdx (g.pipes.findIdx (·.id = x)), hid, herase, ?_⟩
    cases ok with
    | true =>
      simp only [completeWrite, hp, if_true, true_and]
      exact List.set_perm_cons_eraseIdx hlt _
    | false =>
      simp only [completeWrite, hp, Bool.false_eq_true, if_false, true_and]
      exact ((swapRemove_perm hp).trans herase).cons_inv

/-- A push changes the cache, and marks every pipe as busy. -/
theorem push_eq (hp : g.push line = some (g', ids)) :
    g'.pipes = g.pipes.map ({ · with inFlight := true }) ∧
      ids = (g.pipes.filter (!·.inFlight)).map (·.id) ∧ g.cache.push line = some g'.cache := by
  unfold push at hp
  obtain ⟨cache, hcache, hg⟩ := Option.bind_eq_some_iff.mp hp
  obtain ⟨rfl, rfl⟩ := Prod.mk.inj (Option.some.inj hg)
  exact ⟨rfl, rfl, hcache⟩

def known (g : LogGateway) (x : ℕ) : ℕ := g.pipes.countP fun p => p.id = x

def busy (g : LogGateway) (x : ℕ) : ℕ := g.pipes.countP fun p => p.id = x && p.inFlight

theorem busy_le_known : g.busy x ≤ g.known x :=
  List.countP_mono_left fun _ _ hp => (Bool.and_eq_true_iff.mp hp).1

theorem known_pos {p : AsyncPipeWriter} (hp : p ∈ g.pipes) : 0 < g.known p.id :=
  List.countP_pos_iff.mpr ⟨p, hp, by simp⟩

/-- A pipe that is alone with its id is busy if any is. -/
theorem busy_pos_iff {p : AsyncPipeWriter} (hp : p ∈ g.pipes) (hone : g.known p.id ≤ 1) :
    0 < g.busy p.id ↔ p.inFlight = true := by
  obtain ⟨rest, hperm⟩ : ∃ rest, g.pipes.Perm (p :: rest) := ⟨_, List.perm_cons_erase hp⟩
  have hle : rest.countP (fun q => q.id = p.id && q.inFlight) ≤ rest.countP (fun q => q.id = p.id) :=
    List.countP_mono_left fun _ _ hq => (Bool.and_eq_true_iff.mp hq).1
  unfold known at hone
  unfold busy
  rw [hperm.countP_eq, List.countP_cons, if_pos (by simp)] at hone
  rw [hperm.countP_eq, List.countP_cons]
  cases p.inFlight with
  | true => simp
  | false =>
    have hzero : rest.countP (fun q => q.id = p.id && q.inFlight) = 0 := by omega
    simp [hzero]

theorem known_attach {p : AsyncPipeWriter} :
    (g.attach p).known x = g.known x + if p.id = x then 1 else 0 := by
  simp [known, attach, List.countP_append]

theorem busy_attach {p : AsyncPipeWriter} (hp : p.inFlight = false) :
    (g.attach p).busy x = g.busy x := by
  simp [busy, attach, List.countP_append, hp]

theorem known_push (hp : g.push line = some (g', ids)) : g'.known x = g.known x := by
  unfold known
  rw [(push_eq hp).1, List.countP_map]
  rfl

theorem busy_push (hp : g.push line = some (g', ids)) : g'.busy x = g.known x := by
  unfold busy known
  rw [(push_eq hp).1, List.countP_map]
  simp [Function.comp_def]

/-- A line is written to the pipes that were idle. -/
theorem count_push (hp : g.push line = some (g', ids)) : ids.count x + g.busy x = g.known x := by
  rw [(push_eq hp).2.1]
  unfold busy known
  induction g.pipes with
  | nil => rfl
  | cons p pipes ih =>
    simp only [List.filter_cons, List.countP_cons]
    cases hf : p.inFlight with
    | true => simp; omega
    | false =>
      simp only [Bool.not_false, if_true, List.map_cons, List.count_cons]
      simp
      omega

theorem known_eq_zero (hx : ∀ p ∈ g.pipes, p.id ≠ x) : g.known x = 0 :=
  List.countP_eq_zero.mpr fun p hp => by simpa using hx p hp

/-- The pipe, if there is one, is idle after a write that has ended, and gone after one that has
failed. -/
theorem known_completeWrite (hx : g.known x ≤ 1) :
    (g.completeWrite x ok).1.known x = if ok then g.known x else 0 := by
  rcases g.completeWrite_cases x ok with ⟨hnone, heq⟩ | ⟨p, rest, hid, hperm, -, hpipes⟩
  · rw [heq, known_eq_zero hnone]
    split_ifs <;> rfl
  · unfold known at hx ⊢
    rw [hperm.countP_eq] at hx ⊢
    rw [hpipes.countP_eq]
    cases ok with
    | true => simp [hid]
    | false =>
      simp only [List.countP_cons, hid] at hx
      simp at hx ⊢
      exact hx

theorem busy_completeWrite (hx : g.known x ≤ 1) : (g.completeWrite x ok).1.busy x = 0 := by
  rcases g.completeWrite_cases x ok with ⟨hnone, heq⟩ | ⟨p, rest, hid, hperm, -, hpipes⟩
  · have hle := g.busy_le_known (x := x)
    have hzero := known_eq_zero hnone
    rw [heq]
    change g.busy x = 0
    omega
  · unfold known at hx
    rw [hperm.countP_eq, List.countP_cons, if_pos (by simpa using hid)] at hx
    have hrest : rest.countP (fun p => p.id = x && p.inFlight) = 0 := by
      have hle : rest.countP (fun p => p.id = x && p.inFlight) ≤ rest.countP (fun p => p.id = x) :=
        List.countP_mono_left fun _ _ hp => (Bool.and_eq_true_iff.mp hp).1
      omega
    unfold busy
    rw [hpipes.countP_eq]
    cases ok with
    | true => simpa using hrest
    | false => exact hrest

theorem known_completeWrite_ne (hy : y ≠ x) : (g.completeWrite x ok).1.known y = g.known y := by
  rcases g.completeWrite_cases x ok with ⟨-, heq⟩ | ⟨p, rest, hid, hperm, -, hpipes⟩
  · rw [heq]
  · unfold known
    rw [hpipes.countP_eq, hperm.countP_eq]
    cases ok <;> simp [hid, Ne.symm hy]

theorem busy_completeWrite_ne (hy : y ≠ x) : (g.completeWrite x ok).1.busy y = g.busy y := by
  rcases g.completeWrite_cases x ok with ⟨-, heq⟩ | ⟨p, rest, hid, hperm, -, hpipes⟩
  · rw [heq]
  · unfold busy
    rw [hpipes.countP_eq, hperm.countP_eq]
    cases ok <;> simp [hid, Ne.symm hy]

end LogGateway

end Conrt.Daemon
