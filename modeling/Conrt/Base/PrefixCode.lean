import Mathlib.Data.List.Infix

/-! Streams of blocks that end by themselves: a part of one tells which blocks it starts with. -/
namespace Conrt.Base

variable {α β : Type*}

/-- Among the values in question, no encoding is empty or the start of another one. -/
structure PrefixCode (ok : α → Prop) (enc : α → List β) : Prop where
  ne_nil : ∀ a, ok a → enc a ≠ []
  apart : ∀ a b x y, ok a → ok b → enc a ++ x <+: enc b ++ y → a = b

namespace PrefixCode

variable {ok : α → Prop} {enc : α → List β} {fs gs : List α} {x y : List β}

/-- What starts with some blocks and is the start of a stream: the stream starts with these blocks. -/
theorem split (h : PrefixCode ok enc) (hf : ∀ a ∈ fs, ok a) (hg : ∀ a ∈ gs, ok a)
    (hp : fs.flatMap enc ++ x <+: gs.flatMap enc) : ∃ more, gs = fs ++ more ∧ x <+: more.flatMap enc := by
  induction fs generalizing gs with
  | nil => exact ⟨gs, rfl, hp⟩
  | cons a fs ih =>
    have ha := hf a List.mem_cons_self
    rw [List.flatMap_cons, List.append_assoc] at hp
    cases gs with
    | nil =>
      have hnil := List.prefix_nil.mp hp
      exact absurd (List.append_eq_nil_iff.mp hnil).1 (h.ne_nil a ha)
    | cons b gs =>
      rw [List.flatMap_cons] at hp
      obtain rfl := h.apart a b _ _ ha (hg b List.mem_cons_self) hp
      obtain ⟨more, rfl, hx⟩ := ih (fun c hc => hf c (List.mem_cons_of_mem _ hc))
        (fun c hc => hg c (List.mem_cons_of_mem _ hc)) ((List.prefix_append_right_inj _).mp hp)
      exact ⟨more, rfl, hx⟩

end PrefixCode

end Conrt.Base
