import Mathlib.Data.List.Infix

/-! What holds at every moment of a growing history. -/
namespace Conrt.Base

variable {α : Type} {good good' : List α → α → Prop} {past : List α} {a b : α}

/-- Whatever happened was good after what had happened before. -/
def Always (good : List α → α → Prop) (past : List α) : Prop :=
  ∀ before a, before ++ [a] <+: past → good before a

namespace Always

theorem nil : Always good [] := by
  intro before a h
  simp at h

@[simp] theorem concat_iff : Always good (past ++ [a]) ↔ Always good past ∧ good past a := by
  constructor
  · intro h
    exact ⟨fun before x hx => h before x (hx.trans (List.prefix_append ..)), h past a List.prefix_rfl⟩
  · rintro ⟨h, ha⟩ before x hx
    rcases List.prefix_concat_iff.mp hx with heq | hx
    · obtain ⟨rfl, hxa⟩ := List.append_inj' heq rfl
      obtain rfl : x = a := by simpa using hxa
      exact ha
    · exact h before x hx

@[simp] theorem pair_iff : Always good (past ++ [a, b]) ↔
    Always good past ∧ good past a ∧ good (past ++ [a]) b := by
  have hcons : past ++ [a, b] = past ++ [a] ++ [b] := by simp
  rw [hcons, concat_iff, concat_iff, and_assoc]

/-- It was good whenever it happened. -/
theorem of_mem (h : Always good past) (ha : a ∈ past) : ∃ before, before <+: past ∧ good before a := by
  obtain ⟨before, after, rfl⟩ := List.append_of_mem ha
  have hp : before ++ [a] <+: before ++ a :: after := ⟨after, by simp⟩
  exact ⟨before, (List.prefix_append ..).trans hp, h before a hp⟩

theorem iff_getElem :
    Always good past ↔ ∀ i, (h : i < past.length) → good (past.take i) past[i] := by
  constructor
  · intro h i hi
    refine h (past.take i) past[i] ?_
    rw [List.take_append_getElem hi]
    exact List.take_prefix _ _
  · rintro h before a ⟨after, rfl⟩
    have hi := h before.length (by simp)
    simpa using hi

/-- A history is checked moment by moment. -/
instance [∀ before a, Decidable (good before a)] : Decidable (Always good past) :=
  decidable_of_iff' _ iff_getElem

end Always

/-- The history has grown by moments of which `p` does not hold. -/
def Quiet (p : α → Bool) (past past' : List α) : Prop :=
  ∃ new, past' = past ++ new ∧ ∀ a ∈ new, p a = false

section

variable {β : Type} {p : α → Bool} {past' new : List α}

@[simp] theorem quiet_refl : Quiet p past past := ⟨[], by simp, by simp⟩

@[simp] theorem quiet_append : Quiet p past (past ++ new) ↔ ∀ a ∈ new, p a = false := by
  constructor
  · rintro ⟨new', heq, hnew⟩
    rw [List.append_cancel_left heq]
    exact hnew
  · exact fun hnew => ⟨new, rfl, hnew⟩

namespace Quiet

theorem subset (h : Quiet p past past') : past ⊆ past' := by
  obtain ⟨new, rfl, -⟩ := h
  exact List.subset_append_left past new

/-- The rule: what one quiet moment keeps stays as it was. -/
theorem keeps {I : List α → Prop} (h : Quiet p past past')
    (hI : ∀ before a, p a = false → I before → I (before ++ [a])) (h₀ : I past) : I past' := by
  obtain ⟨new, rfl, hnew⟩ := h
  induction new using List.reverseRecOn with
  | nil => simpa using h₀
  | append_singleton new a ih =>
    rw [← List.append_assoc]
    exact hI _ a (hnew a (by simp)) (ih fun b hb => hnew b (List.mem_append_left _ hb))

theorem eq {g : List α → β} (h : Quiet p past past')
    (hg : ∀ before a, p a = false → g (before ++ [a]) = g before) : g past' = g past :=
  h.keeps (fun before a ha heq => (hg before a ha).trans heq) rfl

end Quiet

end

end Conrt.Base
