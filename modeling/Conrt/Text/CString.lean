import Conrt.Base.Heap
import Conrt.Base.Run
import Mathlib.Data.List.TakeWhile

/-! Owned C strings. Their length is never stored: every use walks to the first zero byte. -/
namespace Conrt.Text

open Conrt.Base

abbrev Bytes := List UInt8

def utf8 (s : String) : Bytes := s.toUTF8.data.toList

/-- `from_utf8_unchecked`, where it is defined. -/
def fromUtf8 (bytes : Bytes) : Option String := String.fromUTF8? ⟨bytes.toArray⟩

structure CString where
  buf : ℕ
deriving DecidableEq

inductive CStringError
  | containsNull (pos : ℕ)
deriving DecidableEq

/-- The comparison loop; `none` where it would read past a block. -/
def eqFrom : Bytes → Bytes → Option Bool
  | a :: as, b :: bs => if a ≠ b then some false else if a = 0 then some true else eqFrom as bs
  | _, _ => none

namespace CString

def fromBytesUnchecked (s : Bytes) (h : Heap) : Option (CString × Heap) := do
  let (p, h) := h.alloc (s.length + 1)
  let h ← h.write p 0 s
  let h ← h.write p s.length [0]
  pure (⟨p⟩, h)

def tryFromBytes (s : Bytes) (h : Heap) : Option (Except CStringError CString × Heap) :=
  match s.findIdx? (· == 0) with
  | some pos => some (.error (.containsNull pos), h)
  | none => (fromBytesUnchecked s h).map fun r => (.ok r.1, r.2)

def fromAsRef (s : String) (h : Heap) : Option (CString × Heap) := fromBytesUnchecked (utf8 s) h

def fromStr (s : String) (h : Heap) : Option (CString × Heap) := fromAsRef s h

/-- `CStr::from_ptr(..).to_bytes()`: `none` when no zero byte ends the walk inside the block. -/
def toBytes (c : CString) (h : Heap) : Option Bytes := do
  let b ← h.block c.buf
  let n ← b.findIdx? (· == 0)
  pure (b.take n)

def layoutLen (c : CString) (h : Heap) : Option ℕ := (c.toBytes h).map (·.length + 1)

def drop (c : CString) (h : Heap) : Option Heap := do
  let len ← c.layoutLen h
  h.dealloc c.buf len

def eq (c d : CString) (h : Heap) : Option Bool := do
  let a ← h.block c.buf
  let b ← h.block d.buf
  eqFrom a b

def clone (c : CString) (h : Heap) : Option (CString × Heap) := do
  let bytes ← c.toBytes h
  let s ← fromUtf8 bytes
  fromStr s h

def serialize (c : CString) (h : Heap) : Option String := do
  let bytes ← c.toBytes h
  fromUtf8 bytes

/-- `visit_str`, which is given the string that the JSON text spells. -/
def deserialize (v : String) (h : Heap) : Option (CString × Heap) := fromAsRef v h

end CString

inductive Source
  | fromAsRef
  | fromStr
  | deserialize
deriving DecidableEq

def Source.build : Source → String → Heap → Option (CString × Heap)
  | .fromAsRef => CString.fromAsRef
  | .fromStr => CString.fromStr
  | .deserialize => CString.deserialize

/-- What a C string made from `s` owes it while its block is untouched. -/
structure Preserves (s : String) (c : CString) (h : Heap) : Prop where
  text : c.toBytes h = some (utf8 s)
  cloned : ∃ d h', c.clone h = some (d, h') ∧ c.eq d h' = some true ∧ d.toBytes h' = c.toBytes h'
  serial : c.serialize h = some s
  layout : c.layoutLen h = (h.block c.buf).map List.length
  freed : (c.drop h).isSome

variable {s : String} {bytes : Bytes} {c d : CString} {h h' : Heap}

theorem fromUtf8_utf8 : fromUtf8 (utf8 s) = some s := by
  have hv : s.toUTF8.IsValidUTF8 := s.isValidUTF8
  simp only [fromUtf8, utf8, Array.toArray_toList]
  rw [String.fromUTF8?, dif_pos hv]
  rfl

/-- The block holds the bytes and a final zero, and no other block changes. -/
theorem fromBytesUnchecked_eq (bytes : Bytes) (h : Heap) :
    ∃ c h', CString.fromBytesUnchecked bytes h = some (c, h') ∧
      h'.block c.buf = some (bytes ++ [0]) ∧
      ∀ p b, h.block p = some b → p ≠ c.buf ∧ h'.block p = some b := by
  have halloc : (h.alloc (bytes.length + 1)).2.block (h.alloc (bytes.length + 1)).1 =
      some (List.replicate (bytes.length + 1) h.poison) := Heap.block_alloc
  obtain ⟨h₁, hw₁, hb₁, ho₁⟩ := Heap.write_eq_some 0 bytes halloc (by simp)
  have hcopied : h₁.block (h.alloc (bytes.length + 1)).1 = some (bytes ++ [h.poison]) := by
    simpa using hb₁
  obtain ⟨h₂, hw₂, hb₂, ho₂⟩ :=
    Heap.write_eq_some bytes.length [0] hcopied (by simp)
  refine ⟨⟨(h.alloc (bytes.length + 1)).1⟩, h₂, ?_, ?_, ?_⟩
  · simp only [CString.fromBytesUnchecked, hw₁, hw₂, Option.bind_eq_bind, Option.bind_some,
      Option.pure_def]
  · simpa using hb₂
  · intro p b hp
    have hne : p ≠ (h.alloc (bytes.length + 1)).1 := (Heap.alloc_ne_of_block hp).symm
    refine ⟨hne, ?_⟩
    rw [ho₂ p hne, ho₁ p hne]
    exact Heap.block_alloc_of_block hp

private theorem eqFrom_self (bytes : Bytes) : eqFrom (bytes ++ [0]) (bytes ++ [0]) = some true := by
  induction bytes with
  | nil => rfl
  | cons a as ih =>
    simp only [List.cons_append, eqFrom, ne_eq, not_true_eq_false, if_false, ih, ite_self]

private theorem findIdx?_zero (bytes : Bytes) :
    (bytes ++ [0]).findIdx? (· == 0) = some (bytes.takeWhile (· ≠ 0)).length := by
  induction bytes with
  | nil => rfl
  | cons a as ih =>
    rw [List.cons_append, List.findIdx?_cons, ih]
    by_cases ha : a = 0 <;> simp [ha]

private theorem take_takeWhile (bytes : Bytes) :
    (bytes ++ [0]).take (bytes.takeWhile (· ≠ 0)).length = bytes.takeWhile (· ≠ 0) := by
  induction bytes with
  | nil => rfl
  | cons a as ih =>
    by_cases ha : a = 0
    · simp [ha]
    · simpa [ha] using ih

/-- The walk stops at the first zero byte, which need not be the one behind the text. -/
theorem toBytes_eq (hb : h.block c.buf = some (bytes ++ [0])) :
    c.toBytes h = some (bytes.takeWhile (· ≠ 0)) := by
  rw [CString.toBytes, hb]
  simp only [Option.bind_eq_bind, Option.bind_some, findIdx?_zero, Option.pure_def,
    take_takeWhile]

/-- A string without a zero byte keeps all its laws, whatever else the heap holds. -/
theorem preserves_of_block (hb : h.block c.buf = some (utf8 s ++ [0])) (hs : 0 ∉ utf8 s) :
    Preserves s c h := by
  have htext : c.toBytes h = some (utf8 s) := by
    rw [toBytes_eq hb, List.takeWhile_eq_self_iff.mpr]
    intro b hmem
    simpa using fun h0 : b = 0 => hs (h0 ▸ hmem)
  have hlayout : c.layoutLen h = some ((utf8 s).length + 1) := by
    rw [CString.layoutLen, htext, Option.map_some]
  constructor
  case text => exact htext
  case serial =>
    simp only [CString.serialize, htext, Option.bind_eq_bind, Option.bind_some, fromUtf8_utf8]
  case layout => simp [hlayout, hb]
  case freed =>
    simp only [CString.drop, hlayout, Option.bind_eq_bind, Option.bind_some]
    rw [Heap.dealloc_isSome_iff hb]
    simp
  case cloned =>
    obtain ⟨d, h', hnew, hd, hother⟩ := fromBytesUnchecked_eq (utf8 s) h
    obtain ⟨hne, hkept⟩ := hother _ _ hb
    refine ⟨d, h', ?_, ?_, ?_⟩
    · simp only [CString.clone, htext, Option.bind_eq_bind, Option.bind_some, fromUtf8_utf8,
        CString.fromStr, CString.fromAsRef, hnew]
    · simp only [CString.eq, hkept, hd, Option.bind_eq_bind, Option.bind_some, eqFrom_self]
    · rw [toBytes_eq hd, toBytes_eq hkept]

theorem Source.build_eq (src : Source) (s : String) (h : Heap) :
    src.build s h = CString.fromBytesUnchecked (utf8 s) h := by
  cases src <;> rfl

/-- Whatever the constructor, the laws hold exactly of the strings without a zero byte. -/
theorem build_preserves_iff (src : Source) (s : String) (h : Heap) :
    (∃ c h', src.build s h = some (c, h') ∧ Preserves s c h') ↔ 0 ∉ utf8 s := by
  obtain ⟨c, h', hnew, hb, -⟩ := fromBytesUnchecked_eq (utf8 s) h
  rw [Source.build_eq, hnew]
  constructor
  · rintro ⟨_, _, hsome, hp⟩
    obtain ⟨rfl, rfl⟩ := Prod.mk.inj (Option.some.inj hsome)
    have htake := (toBytes_eq hb).symm.trans hp.text
    have hall := List.takeWhile_eq_self_iff.mp (Option.some.inj htake)
    intro hmem
    simpa using hall 0 hmem
  · intro hs
    exact ⟨c, h', rfl, preserves_of_block hb hs⟩

/-- A string with a zero byte is accepted, and its text and its allocation's length are lost. -/
theorem zero_byte_lost : ∃ c h', Source.deserialize.build "a\x00b" ⟨[], 7⟩ = some (c, h') ∧
    h'.block c.buf = some [97, 0, 98, 0] ∧ c.toBytes h' = some [97] ∧ c.layoutLen h' = some 2 ∧
    ¬ Preserves "a\x00b" c h' := by
  refine ⟨⟨0⟩, ⟨[some [97, 0, 98, 0]], 7⟩, by decide +kernel, rfl, by decide, by decide, ?_⟩
  intro hp
  have htext := hp.text
  revert htext
  decide +kernel

/-- `try_from_bytes` refuses exactly the bytes with a zero among them, at the first one. -/
theorem tryFromBytes_cases (bytes : Bytes) (h : Heap) :
    (∃ pos, CString.tryFromBytes bytes h = some (.error (.containsNull pos), h) ∧
      bytes[pos]? = some 0 ∧ 0 ∉ bytes.take pos) ∨
    (∃ c h', CString.tryFromBytes bytes h = some (.ok c, h') ∧ 0 ∉ bytes ∧
      c.toBytes h' = some bytes) := by
  cases hfind : bytes.findIdx? (· == 0) with
  | some pos =>
    obtain ⟨hlt, hzero, hbefore⟩ := List.findIdx?_eq_some_iff_getElem.mp hfind
    refine .inl ⟨pos, by simp [CString.tryFromBytes, hfind], ?_, ?_⟩
    · simpa [List.getElem?_eq_getElem hlt] using hzero
    · intro hmem
      obtain ⟨j, hj, hget⟩ := List.mem_take_iff_getElem.mp hmem
      exact hbefore j (by omega) (by simp [hget])
  | none =>
    have hs : 0 ∉ bytes := by
      intro hmem
      simpa using List.findIdx?_eq_none_iff.mp hfind 0 hmem
    obtain ⟨c, h', hnew, hb, -⟩ := fromBytesUnchecked_eq bytes h
    refine .inr ⟨c, h', by simp [CString.tryFromBytes, hfind, hnew], hs, ?_⟩
    rw [toBytes_eq hb, List.takeWhile_eq_self_iff.mpr]
    intro b hmem
    simpa using fun h0 : b = 0 => hs (h0 ▸ hmem)

/-- The strings in scope, each with the text it was made from. -/
structure Scope where
  heap : Heap
  live : List (CString × String)

inductive Move
  | build (src : Source) (s : String)
  | clone (i : ℕ)
  | drop (i : ℕ)

/-- A build without a zero byte, or any other move. -/
def Move.clean : Move → Prop
  | .build _ s => 0 ∉ utf8 s
  | _ => True

def step (w : Scope) : Move → Option Scope
  | .build src s => do
    let (c, h) ← src.build s w.heap
    pure ⟨h, w.live ++ [(c, s)]⟩
  | .clone i => do
    let (c, s) ← w.live[i]?
    let (d, h) ← c.clone w.heap
    pure ⟨h, w.live ++ [(d, s)]⟩
  | .drop i => do
    let (c, _) ← w.live[i]?
    let h ← c.drop w.heap
    pure ⟨h, w.live.eraseIdx i⟩

structure Scope.Sound (w : Scope) : Prop where
  held : ∀ x ∈ w.live, w.heap.block x.1.buf = some (utf8 x.2 ++ [0]) ∧ 0 ∉ utf8 x.2
  apart : (w.live.map (·.1.buf)).Nodup

variable {w w' : Scope} {m : Move}

theorem Scope.Sound.add (hw : w.Sound) (hs : 0 ∉ utf8 s)
    (hnew : CString.fromBytesUnchecked (utf8 s) w.heap = some (c, h)) :
    Scope.Sound ⟨h, w.live ++ [(c, s)]⟩ := by
  obtain ⟨_, _, hnew', hb, hother⟩ := fromBytesUnchecked_eq (utf8 s) w.heap
  rw [hnew] at hnew'
  obtain ⟨rfl, rfl⟩ := Prod.mk.inj (Option.some.inj hnew')
  constructor
  case held =>
    intro x hx
    rcases List.mem_append.mp hx with hx | hx
    · obtain ⟨hheld, hclean⟩ := hw.held x hx
      exact ⟨(hother _ _ hheld).2, hclean⟩
    · rw [List.mem_singleton.mp hx]
      exact ⟨hb, hs⟩
  case apart =>
    rw [List.map_append, List.nodup_append]
    refine ⟨hw.apart, List.nodup_singleton _, ?_⟩
    intro p hp q hq
    obtain ⟨x, hx, rfl⟩ := List.mem_map.mp hp
    rw [List.map_singleton, List.mem_singleton] at hq
    subst hq
    exact (hother _ _ (hw.held x hx).1).1

theorem Scope.Sound.remove {i : ℕ} (hw : w.Sound) (hget : w.live[i]? = some (c, s))
    (hdrop : c.drop w.heap = some h) : Scope.Sound ⟨h, w.live.eraseIdx i⟩ := by
  obtain ⟨hi, hc⟩ := List.getElem?_eq_some_iff.mp hget
  obtain ⟨len, _, hd⟩ := Option.bind_eq_some_iff.mp hdrop
  have hperm := (List.getElem_cons_eraseIdx_perm hi).map (·.1.buf)
  rw [List.map_cons, hc] at hperm
  obtain ⟨hout, hrest⟩ := List.nodup_cons.mp (hperm.nodup_iff.mpr hw.apart)
  constructor
  case held =>
    intro x hx
    have hne : x.1.buf ≠ c.buf := by
      intro heq
      exact hout (heq ▸ List.mem_map_of_mem hx)
    rw [Heap.block_dealloc hd hne]
    exact hw.held x (List.mem_of_mem_eraseIdx hx)
  case apart => exact hrest

theorem step_sound (hw : w.Sound) (hm : m.clean) (hst : step w m = some w') : w'.Sound := by
  cases m with
  | build src s =>
    obtain ⟨⟨c, h⟩, hnew, hsome⟩ := Option.bind_eq_some_iff.mp hst
    rw [Source.build_eq] at hnew
    rw [← Option.some.inj hsome]
    exact hw.add hm hnew
  | clone i =>
    obtain ⟨⟨c, s⟩, hget, hst⟩ := Option.bind_eq_some_iff.mp hst
    obtain ⟨⟨d, h⟩, hnew, hsome⟩ := Option.bind_eq_some_iff.mp hst
    obtain ⟨hheld, hclean⟩ := hw.held _ (List.mem_of_getElem? hget)
    have htext := (preserves_of_block hheld hclean).text
    simp only [CString.clone, htext, Option.bind_eq_bind, Option.bind_some, fromUtf8_utf8] at hnew
    rw [← Option.some.inj hsome]
    exact hw.add hclean hnew
  | drop i =>
    obtain ⟨⟨c, s⟩, hget, hst⟩ := Option.bind_eq_some_iff.mp hst
    obtain ⟨h, hdrop, hsome⟩ := Option.bind_eq_some_iff.mp hst
    rw [← Option.some.inj hsome]
    exact hw.remove hget hdrop

/-- In every program that builds its strings without zero bytes, each string in scope keeps its laws. -/
theorem run_preserves (hr : Reaches step (fun _ m => m.clean) ⟨h, []⟩ w) :
    ∀ x ∈ w.live, Preserves x.2 x.1 w.heap := by
  have hsound : w.Sound := by
    apply hr.invariant
    · exact { held := by simp, apart := by simp }
    · intro _ _ _ hw hm hst
      exact step_sound hw hm hst
  intro x hx
  obtain ⟨hheld, hclean⟩ := hsound.held x hx
  exact preserves_of_block hheld hclean

end Conrt.Text
