import Mathlib.Data.List.Perm.Basic
import Mathlib.Data.List.Count
import Mathlib.Logic.Function.Basic

/-! Counted resources of several kinds, drawn from a stock and given back one at a time. -/
namespace Conrt.Base

variable {κ : Type*} [DecidableEq κ]

/-- What a program asks of the stock: a unit it has to have, several that it has all of or none, a unit
given back. -/
inductive Draw (κ : Type*)
  | take (k : κ)
  | attempt (ks : List κ) (got : Bool)
  | give (k : κ)
deriving DecidableEq

/-- The stock's answer: what is left of it, a unit that had to be there is missing, or an attempt
that cannot have ended this way. -/
inductive Served (κ : Type*)
  | left (free : κ → ℕ)
  | short
  | never

/-- What is left when one unit after the other has been drawn, if there are enough. -/
def drawAll (free : κ → ℕ) : List κ → Option (κ → ℕ)
  | [] => some free
  | k :: ks => if free k = 0 then none else drawAll (Function.update free k (free k - 1)) ks

/-- One draw, from `free k` units of each kind. -/
def serve (free : κ → ℕ) : Draw κ → Served κ
  | .take k => if free k = 0 then .short else .left (Function.update free k (free k - 1))
  | .attempt ks got =>
    match drawAll free ks with
    | some free' => if got then .left free' else .never
    | none => if got then .never else .left free
  | .give k => .left (Function.update free k (free k + 1))

/-- The draws in order, up to the first one that is not served. -/
def serveAll (free : κ → ℕ) : List (Draw κ) → Served κ
  | [] => .left free
  | d :: ds =>
    match serve free d with
    | .left free' => serveAll free' ds
    | r => r

def Draw.after (out : List κ) : Draw κ → List κ
  | .take k => k :: out
  | .attempt ks got => if got then ks ++ out else out
  | .give k => out.erase k

/-- A draw that may not fail finds fewer units of its kind out than there are. -/
def Draw.Affordable (cap : κ → ℕ) (out : List κ) : Draw κ → Prop
  | .take k => out.count k < cap k
  | _ => True

/-- Only what is out is given back. -/
def Draw.Honest (out : List κ) : Draw κ → Prop
  | .give k => k ∈ out
  | _ => True

/-- Every draw is affordable in its turn. -/
def Affords (cap : κ → ℕ) : List κ → List (Draw κ) → Prop
  | _, [] => True
  | out, d :: ds => d.Affordable cap out ∧ Affords cap (d.after out) ds

def Honest : List κ → List (Draw κ) → Prop
  | _, [] => True
  | out, d :: ds => d.Honest out ∧ Honest (d.after out) ds

/-- Every unit is in the stock or out. -/
def Balanced (cap free : κ → ℕ) (out : List κ) : Prop := ∀ k, free k + out.count k = cap k

instance Draw.Affordable.decidable (cap : κ → ℕ) (out : List κ) :
    (d : Draw κ) → Decidable (d.Affordable cap out)
  | .take k => inferInstanceAs (Decidable (out.count k < cap k))
  | .attempt _ _ => .isTrue trivial
  | .give _ => .isTrue trivial

instance Affords.decidable (cap : κ → ℕ) :
    (out : List κ) → (ds : List (Draw κ)) → Decidable (Affords cap out ds)
  | _, [] => .isTrue trivial
  | out, d :: ds =>
    have := Affords.decidable cap (d.after out) ds
    inferInstanceAs (Decidable (d.Affordable cap out ∧ Affords cap (d.after out) ds))

variable {cap free free' : κ → ℕ} {out rest : List κ} {d : Draw κ} {ds es : List (Draw κ)} {k : κ}

theorem Balanced.perm {out' : List κ} (h : Balanced cap free out) (hp : out.Perm out') :
    Balanced cap free out' := by
  intro k
  rw [← hp.count_eq k]
  exact h k

theorem Balanced.take (h : Balanced cap free out) (hk : free k ≠ 0) :
    Balanced cap (Function.update free k (free k - 1)) (k :: out) := by
  intro j
  have hj := h j
  rw [List.count_cons, Function.update_apply]
  by_cases hjk : j = k
  · rw [if_pos hjk, if_pos (beq_iff_eq.mpr hjk.symm)]
    rw [hjk] at hj
    rw [hjk]
    omega
  · rw [if_neg hjk, if_neg fun he => hjk (beq_iff_eq.mp he).symm]
    omega

theorem Balanced.give (h : Balanced cap free out) (hk : k ∈ out) :
    Balanced cap (Function.update free k (free k + 1)) (out.erase k) := by
  intro j
  have hj := h j
  rw [Function.update_apply]
  by_cases hjk : j = k
  · have hpos := List.count_pos_iff.mpr hk
    rw [if_pos hjk, hjk, List.count_erase_self]
    rw [hjk] at hj
    omega
  · rw [if_neg hjk, List.count_erase_of_ne hjk]
    omega

theorem Balanced.drawAll {ks : List κ} (h : Balanced cap free out)
    (hs : Base.drawAll free ks = some free') : Balanced cap free' (ks ++ out) := by
  induction ks generalizing free out with
  | nil =>
    cases hs
    exact h
  | cons k ks ih =>
    simp only [Base.drawAll] at hs
    split_ifs at hs with hk
    exact (ih (h.take hk) hs).perm List.perm_middle

/-- A served draw keeps the balance. -/
theorem Balanced.serve (h : Balanced cap free out) (hd : d.Honest out)
    (hs : serve free d = .left free') : Balanced cap free' (d.after out) := by
  cases d with
  | take k =>
    simp only [Base.serve] at hs
    split_ifs at hs with hk
    cases hs
    exact h.take hk
  | attempt ks got =>
    simp only [Base.serve] at hs
    split at hs
    · rename_i free₁ hall
      split_ifs at hs with hgot
      cases hs
      simp only [Draw.after, hgot, if_true]
      exact h.drawAll hall
    · split_ifs at hs with hgot
      cases hs
      simp only [Draw.after, hgot, Bool.false_eq_true, if_false]
      exact h
  | give k =>
    cases hs
    exact h.give hd

/-- A unit is missing exactly when all of its kind are out. -/
theorem Balanced.serve_short_iff (h : Balanced cap free out) :
    Base.serve free d = .short ↔ ¬ d.Affordable cap out := by
  cases d with
  | take k =>
    have hk := h k
    simp only [Base.serve, Draw.Affordable]
    constructor
    · intro hs
      split_ifs at hs with hz
      omega
    · intro hle
      rw [if_pos (by omega)]
  | attempt ks got =>
    simp only [Base.serve, Draw.Affordable]
    split <;> split_ifs <;> simp
  | give k => simp [Base.serve, Draw.Affordable]

/-- As long as draws are served they are affordable, and the balance is kept. -/
theorem Balanced.serveAll (h : Balanced cap free out) (hd : Honest out ds)
    (hs : serveAll free ds = .left free') :
    Affords cap out ds ∧ Balanced cap free' (ds.foldl Draw.after out) := by
  induction ds generalizing free out with
  | nil =>
    cases hs
    exact ⟨trivial, h⟩
  | cons d ds ih =>
    simp only [Base.serveAll] at hs
    cases hf : Base.serve free d with
    | left free₁ =>
      simp only [hf] at hs
      have hrest := ih (h.serve hd.1 hf) hd.2 hs
      refine ⟨⟨?_, hrest.1⟩, hrest.2⟩
      by_contra hd
      have hshort := h.serve_short_iff.mpr hd
      rw [hf] at hshort
      cases hshort
    | short => simp [hf] at hs
    | never => simp [hf] at hs

/-- Draws that run short are not affordable. -/
theorem Balanced.not_affords (h : Balanced cap free out) (hd : Honest out ds)
    (hs : Base.serveAll free ds = .short) : ¬ Affords cap out ds := by
  induction ds generalizing free out with
  | nil => cases hs
  | cons d ds ih =>
    intro ha
    simp only [Base.serveAll] at hs
    cases hf : Base.serve free d with
    | left free₁ =>
      simp only [hf] at hs
      exact ih (h.serve hd.1 hf) hd.2 hs ha.2
    | short =>
      exact h.serve_short_iff.mp hf ha.1
    | never => simp [hf] at hs

/-- Draws that may all fail, or give back, are affordable. -/
theorem affords_of_no_take (h : ∀ k, .take k ∉ ds) : Affords cap out ds := by
  induction ds generalizing out with
  | nil => trivial
  | cons d ds ih =>
    refine ⟨?_, ih fun k hk => h k (List.mem_cons_of_mem d hk)⟩
    cases d with
    | take k => exact absurd List.mem_cons_self (h k)
    | _ => trivial

theorem honest_append : Honest out (ds ++ es) ↔ Honest out ds ∧ Honest (ds.foldl Draw.after out) es := by
  induction ds generalizing out with
  | nil => simp [Honest]
  | cons d ds ih => simp only [List.cons_append, Honest, ih, List.foldl_cons, and_assoc]

/-- The draws are honest and leave `now` out. -/
def Leaves (out : List κ) (ds : List (Draw κ)) (now : List κ) : Prop :=
  Honest out ds ∧ (ds.foldl Draw.after out).Perm now

theorem Leaves.nil : Leaves out [] out := ⟨trivial, .refl _⟩

theorem Leaves.perm {now now' : List κ} (h : Leaves out ds now) (hp : now.Perm now') :
    Leaves out ds now' := ⟨h.1, h.2.trans hp⟩

theorem Leaves.concat {now : List κ} (h : Leaves out ds now)
    (hd : d.Honest (ds.foldl Draw.after out))
    (hp : (d.after (ds.foldl Draw.after out)).Perm rest) : Leaves out (ds ++ [d]) rest := by
  refine ⟨honest_append.mpr ⟨h.1, hd, trivial⟩, ?_⟩
  rw [List.foldl_append]
  exact hp

theorem Leaves.take {now : List κ} (h : Leaves out ds now) :
    Leaves out (ds ++ [.take k]) (k :: now) :=
  h.concat trivial (h.2.cons k)

theorem Leaves.attempt {now : List κ} (h : Leaves out ds now) (ks : List κ) :
    Leaves out (ds ++ [.attempt ks true]) (ks ++ now) :=
  h.concat trivial (h.2.append_left ks)

theorem Leaves.fail {now ks : List κ} (h : Leaves out ds now) :
    Leaves out (ds ++ [.attempt ks false]) now :=
  h.concat trivial h.2

theorem Leaves.give {now : List κ} (h : Leaves out ds (k :: now)) :
    Leaves out (ds ++ [.give k]) now := by
  apply h.concat
  · exact h.2.mem_iff.mpr List.mem_cons_self
  · have herase := h.2.erase k
    rw [List.erase_cons_head] at herase
    exact herase

theorem Leaves.takes {now : List κ} (h : Leaves out ds now) (ks : List κ) :
    Leaves out (ds ++ ks.map .take) (ks ++ now) := by
  induction ks generalizing ds now with
  | nil => rwa [List.map_nil, List.append_nil]
  | cons k ks ih =>
    have hrest := ih (h.take (k := k))
    rw [List.append_assoc] at hrest
    exact hrest.perm List.perm_middle

theorem Leaves.gives {now : List κ} {ks : List κ} (h : Leaves out ds (ks ++ now)) :
    Leaves out (ds ++ ks.map .give) now := by
  induction ks generalizing ds with
  | nil => rwa [List.map_nil, List.append_nil]
  | cons k ks ih =>
    have hrest := ih h.give
    rwa [List.append_assoc] at hrest

/-- Units asked for at once: whether they have to be there, and whether they stay out or go back before
the next group. -/
structure Ask (κ : Type*) where
  units : List κ
  must : Bool
  kept : Bool
deriving DecidableEq

def Ask.after (out : List κ) (a : Ask κ) : List κ := if a.kept then a.units ++ out else out

/-- There are as many units as are out and in the group together. -/
def Ask.Fits (cap : κ → ℕ) (out : List κ) (a : Ask κ) : Prop :=
  a.must = true → ∀ k ∈ a.units, (a.units ++ out).count k ≤ cap k

/-- Every group fits in its turn. -/
def Admits (cap : κ → ℕ) : List κ → List (Ask κ) → Prop
  | _, [] => True
  | out, a :: as => a.Fits cap out ∧ Admits cap (a.after out) as

instance Ask.Fits.decidable (cap : κ → ℕ) (out : List κ) (a : Ask κ) : Decidable (a.Fits cap out) :=
  inferInstanceAs (Decidable (_ → _))

instance Admits.decidable (cap : κ → ℕ) :
    (out : List κ) → (as : List (Ask κ)) → Decidable (Admits cap out as)
  | _, [] => .isTrue trivial
  | out, a :: as =>
    have := Admits.decidable cap (a.after out) as
    inferInstanceAs (Decidable (a.Fits cap out ∧ Admits cap (a.after out) as))

variable {out' now ks : List κ} {a : Ask κ} {as bs : List (Ask κ)}

omit [DecidableEq κ] in
theorem Ask.after_subperm (hle : out.Subperm out') (a : Ask κ) :
    (a.after out).Subperm (a.after out') := by
  unfold Ask.after
  split_ifs
  · exact (List.subperm_append_left a.units).mpr hle
  · exact hle

theorem Ask.Fits.anti (h : a.Fits cap out') (hle : out.Subperm out') : a.Fits cap out :=
  fun hmust k hk =>
    Nat.le_trans (((List.subperm_append_left a.units).mpr hle).count_le k) (h hmust k hk)

/-- What is admitted with more units out is admitted with fewer. -/
theorem Admits.anti (h : Admits cap out' as) (hle : out.Subperm out') : Admits cap out as := by
  induction as generalizing out out' with
  | nil => trivial
  | cons a as ih => exact ⟨h.1.anti hle, ih h.2 (Ask.after_subperm hle a)⟩

theorem admits_append : Admits cap out (as ++ bs) ↔
    Admits cap out as ∧ Admits cap (as.foldl Ask.after out) bs := by
  induction as generalizing out with
  | nil => simp [Admits]
  | cons a as ih => simp only [List.cons_append, Admits, ih, List.foldl_cons, and_assoc]

omit [DecidableEq κ] in
theorem Ask.subperm_after (out : List κ) (as : List (Ask κ)) :
    out.Subperm (as.foldl Ask.after out) := by
  induction as generalizing out with
  | nil => exact .refl _
  | cons a as ih =>
    refine List.Subperm.trans ?_ (ih (a.after out))
    unfold Ask.after
    split_ifs
    · exact (List.sublist_append_right _ _).subperm
    · exact .refl _

/-- Each of the groups is admitted by itself. -/
theorem Admits.of_mem (h : Admits cap out as) (ha : a ∈ as) : Admits cap out [a] := by
  obtain ⟨bs, cs, rfl⟩ := List.append_of_mem ha
  exact ⟨(admits_append.mp h).2.1.anti (Ask.subperm_after out bs), trivial⟩

/-- Groups that need not be there are always admitted. -/
theorem admits_of_spare (h : ∀ a ∈ as, a.must = false) : Admits cap out as := by
  induction as generalizing out with
  | nil => trivial
  | cons a as ih =>
    refine ⟨fun hmust => ?_, ih fun b hb => h b (List.mem_cons_of_mem a hb)⟩
    rw [h a List.mem_cons_self] at hmust
    cases hmust

theorem affords_append : Affords cap out (ds ++ es) ↔
    Affords cap out ds ∧ Affords cap (ds.foldl Draw.after out) es := by
  induction ds generalizing out with
  | nil => simp [Affords]
  | cons d ds ih => simp only [List.cons_append, Affords, ih, List.foldl_cons, and_assoc]

/-- One unit after the other can be drawn when all of them fit. -/
theorem affords_takes (h : ∀ k ∈ ks, (ks ++ out).count k ≤ cap k) :
    Affords cap out (ks.map .take) := by
  induction ks generalizing out with
  | nil => trivial
  | cons k ks ih =>
    constructor
    · have hk := h k List.mem_cons_self
      rw [List.cons_append, List.count_cons_self, List.count_append] at hk
      change out.count k < cap k
      omega
    · refine ih fun j hj => ?_
      change (ks ++ k :: out).count j ≤ cap j
      rw [List.perm_middle.count_eq j]
      exact h j (List.mem_cons_of_mem k hj)

/-- After draws that leave `now` out, units that fit beside these can be drawn. -/
theorem Leaves.affords_takes (hl : Leaves out ds now) (ha : Affords cap out ds)
    (h : ∀ k ∈ ks, (ks ++ now).count k ≤ cap k) : Affords cap out (ds ++ ks.map .take) := by
  refine affords_append.mpr ⟨ha, Base.affords_takes fun k hk => ?_⟩
  rw [(hl.2.append_left ks).count_eq k]
  exact h k hk

theorem Affords.append (ha : Affords cap out ds) (h : ∀ k, .take k ∉ es) :
    Affords cap out (ds ++ es) :=
  affords_append.mpr ⟨ha, affords_of_no_take h⟩

end Conrt.Base
