import Mathlib.Data.List.Basic
import Mathlib.Data.List.Infix

/-! Messages written piecemeal to one stream by writers that may overlap. -/
namespace Conrt.Base

variable {β : Type} {started : List (List β)} {sent a b m : List β} {left left' : List (List β)}

/-- At most one writer has anything left, and what has been sent, followed by what that writer has
left, is a prefix of the messages in the order they were started. -/
structure Serial (started : List (List β)) (sent : List β) (left : List (List β)) : Prop where
  single : (left.filter (!·.isEmpty)).length ≤ 1
  ahead : sent ++ left.flatten <+: started.flatten

private theorem flatten_filter (left : List (List β)) :
    (left.filter (!·.isEmpty)).flatten = left.flatten := by
  induction left with
  | nil => rfl
  | cons r left ih =>
    cases r with
    | nil => simpa using ih
    | cons x r => simpa using ih

private theorem flatten_of_perm (hp : left'.Perm left)
    (h : (left.filter (!·.isEmpty)).length ≤ 1) : left'.flatten = left.flatten := by
  have hf := hp.filter (!·.isEmpty)
  have heq : left'.filter (!·.isEmpty) = left.filter (!·.isEmpty) := by
    generalize left.filter (!·.isEmpty) = l at hf h
    match l, h with
    | [], _ => exact hf.eq_nil
    | [r], _ => exact List.perm_singleton.mp hf
  rw [← flatten_filter left', ← flatten_filter left, heq]

namespace Serial

theorem init : Serial ([] : List (List β)) [] [] := ⟨by simp, by simp⟩

/-- What has been sent is a prefix of the messages. -/
theorem prefix_started (h : Serial started sent left) : sent <+: started.flatten :=
  (List.prefix_append _ _).trans h.ahead

theorem perm (h : Serial started sent left) (hp : left'.Perm left) : Serial started sent left' := by
  constructor
  · rw [(hp.filter _).length_eq]
    exact h.single
  · rw [flatten_of_perm hp h.single]
    exact h.ahead

/-- A message is started when everything before it has been sent. -/
theorem start (h : Serial started sent left) (hclear : started.flatten.length ≤ sent.length) :
    Serial (started ++ [m]) sent (m :: left) := by
  have hle := h.ahead.length_le
  rw [List.length_append] at hle
  have hnil : left.flatten = [] := List.eq_nil_of_length_eq_zero (by omega)
  have hempty : left.filter (!·.isEmpty) = [] := by
    rw [List.filter_eq_nil_iff]
    intro r hr
    have := List.flatten_eq_nil_iff.mp hnil r hr
    simp [this]
  have hsent : sent = started.flatten := h.prefix_started.eq_of_length (by omega)
  constructor
  · rw [List.filter_cons]
    split
    · rw [hempty]
      simp
    · rw [hempty]
      simp
  · rw [List.flatten_cons, hnil, List.append_nil, List.flatten_append, ← hsent]
    simp

/-- A message is started and at once given up. -/
theorem giveUp (h : Serial started sent left) : Serial (started ++ [m]) sent left := by
  constructor
  · exact h.single
  · rw [List.flatten_append]
    exact h.ahead.trans (List.prefix_append _ _)

/-- A writer sends some of what it has left. -/
theorem send (h : Serial started sent ((a ++ b) :: left)) :
    Serial started (sent ++ a) (b :: left) := by
  cases a with
  | nil => simpa using h
  | cons x a =>
    have hs := h.single
    have hne : (x :: a ++ b).isEmpty = false := rfl
    rw [List.filter_cons, hne] at hs
    have hempty : left.filter (!·.isEmpty) = [] := by
      simpa using hs
    constructor
    · rw [List.filter_cons]
      split
      · rw [hempty]
        simp
      · rw [hempty]
        simp
    · have ha := h.ahead
      rw [List.flatten_cons] at ha ⊢
      rw [List.append_assoc] at ha ⊢
      exact ha

/-- A writer with nothing left. -/
theorem idle (h : Serial started sent left) : Serial started sent ([] :: left) := by
  constructor
  · simpa using h.single
  · simpa using h.ahead

/-- A writer ends, whatever it has left. -/
theorem drop (h : Serial started sent (a :: left)) : Serial started sent left := by
  have hs := h.single
  have ha := h.ahead
  rw [List.filter_cons] at hs
  rw [List.flatten_cons] at ha
  constructor
  · split at hs
    · rw [List.length_cons] at hs
      omega
    · exact hs
  · cases a with
    | nil => exact ha
    | cons x a =>
      have hempty : left.filter (!·.isEmpty) = [] := by
        simpa using hs
      rw [← flatten_filter left, hempty, List.flatten_nil, List.append_nil]
      exact (List.prefix_append _ _).trans ha

end Serial

end Conrt.Base
