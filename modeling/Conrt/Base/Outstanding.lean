import Mathlib.Data.List.Perm.Basic

/-! What a log of acquisitions and releases leaves to be released. -/
namespace Conrt.Base

variable {ρ ε : Type}

/-- What an entry of the log says. -/
inductive Deed (ρ : Type)
  | gain (r : ρ)
  | free (r : ρ)
  | other
deriving DecidableEq

variable [DecidableEq ρ] {deed : ε → Deed ρ} {log : List ε} {e : ε} {r : ρ} {left left' rest : List ρ}

def Deed.settle (left : List ρ) : Deed ρ → List ρ
  | .gain r => r :: left
  | .free r => left.erase r
  | .other => left

/-- What has been acquired and not released since. -/
def outstanding (deed : ε → Deed ρ) (log : List ε) : List ρ :=
  log.foldl (fun left e => (deed e).settle left) []

theorem outstanding_concat : outstanding deed (log ++ [e]) = (deed e).settle (outstanding deed log) := by
  simp [outstanding]

theorem Deed.settle_perm (d : Deed ρ) (hp : left.Perm left') : (d.settle left).Perm (d.settle left') := by
  cases d with
  | gain r => exact hp.cons r
  | free r => exact hp.erase r
  | other => exact hp

theorem outstanding_gain (hp : (outstanding deed log).Perm left) (he : deed e = .gain r) :
    (outstanding deed (log ++ [e])).Perm (r :: left) := by
  rw [outstanding_concat, he]
  exact Deed.settle_perm (.gain r) hp

theorem outstanding_free (hp : (outstanding deed log).Perm (r :: rest)) (he : deed e = .free r) :
    (outstanding deed (log ++ [e])).Perm rest := by
  have hs := Deed.settle_perm (.free r) hp
  rw [outstanding_concat, he]
  simpa [Deed.settle] using hs

/-- Something else is released. -/
theorem outstanding_free_other (hp : (outstanding deed log).Perm left) (he : deed e = .free r)
    (hr : r ∉ left) : (outstanding deed (log ++ [e])).Perm left := by
  have hs := Deed.settle_perm (.free r) hp
  rw [outstanding_concat, he]
  simpa [Deed.settle, List.erase_of_not_mem hr] using hs

theorem outstanding_other (hp : (outstanding deed log).Perm left) (he : deed e = .other) :
    (outstanding deed (log ++ [e])).Perm left := by
  rw [outstanding_concat, he]
  exact hp

end Conrt.Base
