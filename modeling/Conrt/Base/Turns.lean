import Mathlib.Data.List.Basic
import Mathlib.Data.List.Infix
import Mathlib.Data.List.Perm.Basic

/-! Messages written piecemeal to one stream by writers that take turns, and may give up. -/
namespace Conrt.Base

variable {ω β : Type} {rest : ω → List β} {begun : ω → Prop} {broken broken' : Prop}
  {ms : List (List β)} {sent a m : List β} {ws ws' : List ω} {x x' : ω}

/-- All messages have been sent, or all but the last, which one writer still has to finish, or a
message was broken off and nobody writes any more. The other writers have nothing left. -/
inductive Turns (rest : ω → List β) (begun : ω → Prop) (broken : Prop) :
    List (List β) → List β → List ω → Prop
  | between {ms : List (List β)} {ws : List ω} : (∀ x ∈ ws, rest x = []) →
      Turns rest begun broken ms ms.flatten ws
  | within {ms : List (List β)} {ws idle : List ω} {x : ω} {done : List β} : ws.Perm (x :: idle) →
      (∀ y ∈ idle, rest y = []) → (done ≠ [] → begun x) →
      Turns rest begun broken (ms ++ [done ++ rest x]) (ms.flatten ++ done) ws
  | off {ms : List (List β)} {sent : List β} {ws : List ω} : broken → sent <+: ms.flatten →
      (∀ x ∈ ws, rest x = []) → Turns rest begun broken ms sent ws

/-- Two ways to take an element out of the same list: it is the same element, or another one. -/
private theorem perm_cons_cases {α : Type} {a b : α} {l l' : List α} (hp : (a :: l).Perm (b :: l')) :
    a = b ∧ l.Perm l' ∨ ∃ k, l.Perm (b :: k) ∧ l'.Perm (a :: k) := by
  classical
  by_cases hab : a = b
  · subst hab
    exact .inl ⟨rfl, hp.cons_inv⟩
  · right
    have hb : b ∈ l := by
      rcases List.mem_cons.mp (hp.mem_iff.mpr List.mem_cons_self) with heq | hmem
      · exact (hab heq.symm).elim
      · exact hmem
    have hl : l.Perm (b :: l.erase b) := List.perm_cons_erase hb
    refine ⟨l.erase b, hl, List.Perm.cons_inv (a := b) ?_⟩
    exact hp.symm.trans ((hl.cons a).trans (.swap b a _))

namespace Turns

theorem init : Turns rest begun broken [] [] [] :=
  @between ω β rest begun broken [] [] (by simp)

/-- What has been sent is a prefix of the messages. -/
theorem prefix_messages (h : Turns rest begun broken ms sent ws) : sent <+: ms.flatten := by
  cases h with
  | between => exact List.prefix_rfl
  | within => simp [← List.append_assoc]
  | off _ hp => exact hp

theorem mono (h : Turns rest begun broken ms sent ws) (hb : broken → broken') :
    Turns rest begun broken' ms sent ws := by
  cases h with
  | between hidle => exact .between hidle
  | within hp hidle hbegun => exact .within hp hidle hbegun
  | off hbroken hp hidle => exact .off (hb hbroken) hp hidle

/-- When nobody has anything left and nothing was broken off, all messages have been sent. -/
theorem sent_eq (h : Turns rest begun broken ms sent ws) (hb : ¬ broken)
    (hidle : ∀ x ∈ ws, rest x = []) : sent = ms.flatten := by
  cases h with
  | between => rfl
  | @within ms _ idle x done hp =>
    have hx := hidle x (hp.mem_iff.mpr List.mem_cons_self)
    simp [hx]
  | off hbroken => exact (hb hbroken).elim

/-- A writer begins a message. -/
theorem start (hp : ws'.Perm (x :: ws)) (hidle : ∀ y ∈ ws, rest y = []) :
    Turns rest begun broken (ms ++ [rest x]) ms.flatten ws' := by
  have h : Turns rest begun broken (ms ++ [[] ++ rest x]) (ms.flatten ++ []) ws' :=
    .within hp hidle fun hne => (hne rfl).elim
  simpa using h

/-- One of the writers sends some of what it has left. -/
theorem send (h : Turns rest begun broken ms sent ws) (hp : ws.Perm (x :: idle))
    (hp' : ws'.Perm (x' :: idle)) (ha : rest x = a ++ rest x') (hx : begun x → begun x')
    (hx' : a ≠ [] → begun x') : Turns rest begun broken ms (sent ++ a) ws' := by
  have hquiet : rest x = [] → a = [] ∧ rest x' = [] := fun hnil => by
    rw [hnil] at ha
    exact List.append_eq_nil_iff.mp ha.symm
  have hall : (∀ y ∈ ws, rest y = []) → a = [] ∧ ∀ y ∈ ws', rest y = [] := by
    intro hidle
    obtain ⟨hnil, hnil'⟩ := hquiet (hidle x (hp.mem_iff.mpr List.mem_cons_self))
    refine ⟨hnil, fun y hy => ?_⟩
    rcases List.mem_cons.mp (hp'.mem_iff.mp hy) with rfl | hy
    · exact hnil'
    · exact hidle y (hp.mem_iff.mpr (List.mem_cons_of_mem x hy))
  cases h with
  | between hidle =>
    obtain ⟨rfl, hidle'⟩ := hall hidle
    rw [List.append_nil]
    exact .between hidle'
  | @within ms _ others y done hy hothers hbegun =>
    rcases perm_cons_cases (hy.symm.trans hp) with ⟨rfl, hsame⟩ | ⟨k, hk, hk'⟩
    · rw [ha, ← List.append_assoc done, List.append_assoc ms.flatten]
      refine .within hp' (fun z hz => hothers z (hsame.mem_iff.mpr hz)) fun hne => ?_
      by_cases hnil : a = []
      · rw [hnil, List.append_nil] at hne
        exact hx (hbegun hne)
      · exact hx' hnil
    · obtain ⟨rfl, hnil'⟩ := hquiet (hothers x (hk.mem_iff.mpr List.mem_cons_self))
      rw [List.append_nil]
      refine .within (hp'.trans ((hk'.cons x').trans (.swap y x' k))) (fun z hz => ?_) hbegun
      rcases List.mem_cons.mp hz with rfl | hz
      · exact hnil'
      · exact hothers z (hk.mem_iff.mpr (List.mem_cons_of_mem x hz))
  | off hbroken hpre hidle =>
    obtain ⟨rfl, hidle'⟩ := hall hidle
    rw [List.append_nil]
    exact .off hbroken hpre hidle'

/-- A writer leaves. If its message was begun and not finished, it is broken off; if it was not begun,
it is forgotten. -/
theorem leave (h : Turns rest begun broken ms sent ws) (hp : ws.Perm (x :: ws'))
    (hx : rest x ≠ [] → begun x → broken) :
    ∃ ms', ms' <+: ms ∧ Turns rest begun broken ms' sent ws' := by
  have hall : (∀ y ∈ ws, rest y = []) → ∀ y ∈ ws', rest y = [] := fun hidle y hy =>
    hidle y (hp.mem_iff.mpr (List.mem_cons_of_mem x hy))
  cases h with
  | between hidle => exact ⟨ms, List.prefix_rfl, .between (hall hidle)⟩
  | @within ms _ idle y done hy hidle hbegun =>
    rcases perm_cons_cases (hy.symm.trans hp) with ⟨rfl, hsame⟩ | ⟨k, hk, hk'⟩
    · have hidle' : ∀ z ∈ ws', rest z = [] := fun z hz => hidle z (hsame.mem_iff.mpr hz)
      by_cases hdone : done = []
      · rw [hdone, List.append_nil]
        exact ⟨ms, List.prefix_append _ _, .between hidle'⟩
      · refine ⟨_, List.prefix_rfl, ?_⟩
        by_cases hrest : rest y = []
        · have hflat : ms.flatten ++ done = (ms ++ [done ++ rest y]).flatten := by simp [hrest]
          rw [hflat]
          exact .between hidle'
        · refine .off (hx hrest (hbegun hdone)) ?_ hidle'
          simp [← List.append_assoc]
    · refine ⟨_, List.prefix_rfl, .within hk' (fun z hz => ?_) hbegun⟩
      exact hidle z (hk.mem_iff.mpr (List.mem_cons_of_mem x hz))
  | off hbroken hpre hidle => exact ⟨ms, List.prefix_rfl, .off hbroken hpre (hall hidle)⟩

end Turns

end Conrt.Base
