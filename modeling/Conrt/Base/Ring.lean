import Mathlib.Data.Int.ModEq
import Mathlib.Data.List.Rotate

/-! Windows of a ring: consecutive cells of a buffer, going around its end. -/
namespace Conrt.Base

variable {α : Type*} {buf : List α} {start n m k : ℕ}

def window (buf : List α) (start n : ℕ) : List α := (buf.rotate start).take n

@[simp] theorem window_zero : window buf start 0 = [] := rfl

theorem length_window (h : n ≤ buf.length) : (window buf start n).length = n := by
  rw [window, List.length_take, List.length_rotate]
  omega

theorem window_mod : window buf (start % buf.length) n = window buf start n := by
  rw [window, List.rotate_mod, window]

/-- A window is cut at any of its cells. -/
theorem window_add (h : n + m ≤ buf.length) :
    window buf start (n + m) = window buf start n ++ window buf (start + n) m := by
  have hn : n ≤ (buf.rotate start).length := by
    rw [List.length_rotate]
    omega
  have hm : m ≤ ((buf.rotate start).drop n).length := by
    rw [List.length_drop, List.length_rotate]
    omega
  have hrest : window buf (start + n) m = ((buf.rotate start).drop n).take m := by
    rw [window, ← List.rotate_rotate, List.rotate_eq_drop_append_take hn]
    exact List.take_append_of_le_length hm
  rw [hrest, window, List.take_add]
  rfl

theorem getElem?_window (hk : k < n) (hn : n ≤ buf.length) :
    (window buf start n)[k]? = buf[(start + k) % buf.length]? := by
  have hlen : k < buf.length := by omega
  rw [window, List.getElem?_take_of_lt hk, List.getElem?_rotate hlen, Nat.add_comm]

theorem window_one {a : α} (h : buf[start % buf.length]? = some a) : window buf start 1 = [a] := by
  have hlen : 1 ≤ buf.length := by
    have hlt := (List.getElem?_eq_some_iff.mp h).1
    omega
  have hone : (window buf start 1).length = 1 := length_window hlen
  obtain ⟨b, hb⟩ := List.length_eq_one_iff.mp hone
  have hget : (window buf start 1)[0]? = buf[(start + 0) % buf.length]? := getElem?_window Nat.zero_lt_one hlen
  rw [hb, Nat.add_zero, h] at hget
  rw [hb, Option.some.inj hget]

/-- A window that does not pass the end of the buffer. -/
theorem slice_eq_window (h : start + n ≤ buf.length) :
    (buf.take (start + n)).drop start = window buf start n := by
  have hs : start ≤ buf.length := by omega
  have hn : n ≤ (buf.drop start).length := by
    rw [List.length_drop]
    omega
  rw [window, List.rotate_eq_drop_append_take hs, List.take_append_of_le_length hn,
    List.drop_take]
  congr 1
  omega

/-- A window that goes around the end of the buffer. -/
theorem wrap_eq_window (hs : start ≤ buf.length) (hn : n ≤ buf.length)
    (h : buf.length ≤ start + n) :
    buf.drop start ++ buf.take (start + n - buf.length) = window buf start n := by
  have hd : (buf.drop start).length = buf.length - start := List.length_drop
  have hk : n - (buf.length - start) = start + n - buf.length := by omega
  have hall : (buf.drop start).take n = buf.drop start := by
    apply List.take_of_length_le
    omega
  rw [window, List.rotate_eq_drop_append_take hs, List.take_append, hd, hk, hall, List.take_take]
  congr 2
  omega

/-- Writing the cell behind a window extends the window by it. -/
theorem window_set (b : α) (h : n < buf.length) :
    window (buf.set ((start + n) % buf.length) b) start (n + 1) = window buf start n ++ [b] := by
  have hlen : (buf.set ((start + n) % buf.length) b).length = buf.length := List.length_set
  have hpos : (start + n) % buf.length < buf.length := Nat.mod_lt _ (by omega)
  have hold : (window buf start n).length = n := length_window (by omega)
  apply List.ext_getElem?
  intro k
  rcases Nat.lt_trichotomy k n with hk | hk | hk
  · have hne : (start + n) % buf.length ≠ (start + k) % buf.length := by
      intro heq
      have hmod : Nat.ModEq buf.length n k := Nat.ModEq.add_left_cancel' start heq
      have heq' : n = k := Nat.ModEq.eq_of_lt_of_lt hmod h (by omega)
      omega
    rw [getElem?_window (by omega) (by omega), hlen, List.getElem?_set_ne hne,
      List.getElem?_append_left (by omega), getElem?_window hk (by omega)]
  · subst hk
    rw [getElem?_window (by omega) (by omega), hlen, List.getElem?_set_self hpos,
      List.getElem?_append_right (by omega), hold]
    simp
  · have hnew : (window (buf.set ((start + n) % buf.length) b) start (n + 1)).length = n + 1 :=
      length_window (by omega)
    have happ : (window buf start n ++ [b]).length = n + 1 := by
      rw [List.length_append, hold]
      rfl
    rw [List.getElem?_eq_none (by omega), List.getElem?_eq_none (by omega)]

end Conrt.Base
