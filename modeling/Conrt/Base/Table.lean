import Mathlib.Algebra.Order.Ring.Nat
import Mathlib.Data.List.AList

/-! Finite maps from keys to values, and what an update does to the list of all values. -/
namespace Conrt.Base

abbrev Table (κ α : Type) := AList fun _ : κ => α

namespace Table

variable {κ α β : Type} [DecidableEq κ] {k k' : κ} {a : α} {t : Table κ α}

def values (t : Table κ α) : List α := t.entries.map fun e => e.2

/-- Changes the value under `k`, if there is one. -/
def update (k : κ) (f : α → α) (t : Table κ α) : Table κ α :=
  match t.lookup k with
  | some a => t.insert k (f a)
  | none => t

def insertAll (key : β → κ) (value : β → α) (l : List β) (t : Table κ α) : Table κ α :=
  l.foldr (fun b t => t.insert (key b) (value b)) t

theorem lookup_insert_ite : (t.insert k a).lookup k' = if k' = k then some a else t.lookup k' := by
  by_cases h : k' = k
  · rw [if_pos h, h, AList.lookup_insert]
  · rw [if_neg h, AList.lookup_insert_ne h]

theorem lookup_erase_ite : (t.erase k).lookup k' = if k' = k then none else t.lookup k' := by
  by_cases h : k' = k
  · rw [if_pos h, h, AList.lookup_erase]
  · rw [if_neg h, AList.lookup_erase_ne h]

theorem lookup_update_ite {f : α → α} :
    (t.update k f).lookup k' = if k' = k then (t.lookup k).map f else t.lookup k' := by
  unfold update
  cases h : t.lookup k with
  | some a => rw [lookup_insert_ite, Option.map_some]
  | none =>
    split_ifs with hk
    · rw [hk, h, Option.map_none]
    · rfl

theorem lookup_insertAll_of_notMem {key : β → κ} {value : β → α} {l : List β}
    (hk : k ∉ l.map key) : (t.insertAll key value l).lookup k = t.lookup k := by
  induction l with
  | nil => rfl
  | cons b l ih =>
    obtain ⟨hne, hl⟩ := List.ne_and_not_mem_of_not_mem_cons hk
    exact (AList.lookup_insert_ne hne).trans (ih hl)

theorem lookup_insertAll_of_mem {key : β → κ} {value : β → α} {l : List β} {b : β}
    (hl : (l.map key).Nodup) (hb : b ∈ l) :
    (t.insertAll key value l).lookup (key b) = some (value b) := by
  induction l with
  | nil => cases hb
  | cons c l ih =>
    obtain ⟨hc, hl⟩ := List.nodup_cons.mp hl
    rcases List.mem_cons.mp hb with rfl | hb
    · exact AList.lookup_insert _
    · have hne : key b ≠ key c := fun heq => hc (heq ▸ List.mem_map_of_mem hb)
      exact (AList.lookup_insert_ne hne).trans (ih hl hb)

theorem update_of_none {f : α → α} (h : t.lookup k = none) : t.update k f = t := by
  unfold update
  rw [h]

theorem update_of_some {f : α → α} (h : t.lookup k = some a) : t.update k f = t.insert k (f a) := by
  unfold update
  rw [h]

theorem values_insert : values (t.insert k a) = a :: values (t.erase k) := by
  unfold values
  rw [AList.entries_insert]
  rfl

theorem erase_of_none (h : t.lookup k = none) : t.erase k = t := by
  apply AList.ext
  have hk : k ∉ t.keys := by
    intro hk
    obtain ⟨b, hb⟩ := AList.lookup_isSome.mpr (AList.mem_keys.mp hk) |> Option.isSome_iff_exists.mp
    rw [h] at hb
    cases hb
  exact List.kerase_of_notMem_keys hk

theorem values_perm (h : t.lookup k = some a) : t.values.Perm (a :: values (t.erase k)) := by
  have hk : k ∈ t.entries.keys := by
    have hmem := AList.lookup_isSome.mp (Option.isSome_of_eq_some h)
    exact AList.mem_keys.mp hmem
  obtain ⟨b, l₁, l₂, hl₁, hl, he⟩ := List.exists_of_kerase hk
  have hb : b = a := by
    have hlook : List.dlookup k t.entries = some a := h
    rw [hl, List.dlookup_append, List.dlookup_eq_none.mpr hl₁] at hlook
    simpa using hlook
  subst hb
  unfold values
  have hlist : (t.erase k).entries = l₁ ++ l₂ := he
  rw [hlist, hl, List.map_append, List.map_append, List.map_cons]
  exact List.perm_middle

theorem mem_values : a ∈ t.values ↔ ∃ k, t.lookup k = some a := by
  constructor
  · intro h
    obtain ⟨e, he, rfl⟩ := List.mem_map.mp h
    exact ⟨e.1, (List.mem_dlookup_iff t.nodupKeys).mpr he⟩
  · rintro ⟨k, hk⟩
    exact List.mem_map.mpr ⟨⟨k, a⟩, (List.mem_dlookup_iff t.nodupKeys).mp hk, rfl⟩

section

variable {f : α → ℕ}

def total (t : Table κ α) (f : α → ℕ) : ℕ := (t.values.map f).sum

theorem total_insert : total (t.insert k a) f = f a + total (t.erase k) f := by
  unfold total
  rw [values_insert, List.map_cons, List.sum_cons]

theorem total_erase (h : t.lookup k = some a) : t.total f = f a + total (t.erase k) f := by
  unfold total
  rw [((values_perm h).map f).sum_nat, List.map_cons, List.sum_cons]

theorem total_insert_new (h : t.lookup k = none) : total (t.insert k a) f = f a + t.total f := by
  rw [total_insert, erase_of_none h]

theorem total_erase_le : total (t.erase k) f ≤ t.total f := by
  cases h : t.lookup k with
  | none => rw [erase_of_none h]
  | some a => exact (total_erase h).symm ▸ Nat.le_add_left _ _

theorem total_insert_le : total (t.insert k a) f ≤ f a + t.total f := by
  rw [total_insert]
  exact Nat.add_le_add_left total_erase_le _

theorem total_update {g : α → α} (h : t.lookup k = some a) :
    total (t.update k g) f + f a = t.total f + f (g a) := by
  rw [update_of_some h, total_insert, total_erase h]
  omega

/-- A change that leaves the quantity alone. -/
theorem total_update_same {g : α → α} (hg : ∀ a, t.lookup k = some a → f (g a) = f a) :
    total (t.update k g) f = t.total f := by
  cases h : t.lookup k with
  | none => rw [update_of_none h]
  | some a =>
    have hu := total_update (f := f) (g := g) h
    rw [hg a h] at hu
    omega

theorem le_total (h : t.lookup k = some a) : f a ≤ t.total f := by
  rw [total_erase h]
  exact Nat.le_add_right _ _

end

section

variable {f : α → List β} {b : β}

theorem mem_flatMap (h : t.lookup k = some a) (hb : b ∈ f a) : b ∈ t.values.flatMap f :=
  List.mem_flatMap.mpr ⟨a, mem_values.mpr ⟨k, h⟩, hb⟩

end

end Table

end Conrt.Base
