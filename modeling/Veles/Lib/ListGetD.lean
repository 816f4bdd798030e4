import Mathlib

/-!
# Lists read at fixed positions

The code reads byte strings and levels of hashes as `l.getD i d` at given positions.  These
lemmas put a list back together from a prefix and the positions read after it.

    l.take t ++ [l.getD t d] = l.take (t + 1)                       (take_append_getD)
    l.length = k + 1 → l.take k ++ [l.getD k d] = l                  (take_append_getD_last)
    l.length = k + 2 → l.take k ++ [l.getD k d, l.getD (k + 1) d] = l (take_append_getD_two)
-/

namespace ListGetD

variable {α : Type}

theorem getD_take_of_lt {l : List α} {n i : Nat} (h : i < n) (d : α) :
    (l.take n).getD i d = l.getD i d := by
  simp [List.getD_eq_getElem?_getD, h]

theorem take_append_getD (d : α) (l : List α) (t : Nat) (ht : t < l.length) :
    l.take t ++ [l.getD t d] = l.take (t + 1) := by
  rw [List.getD_eq_getElem _ _ ht, List.take_append_getElem]

theorem take_append_getD_last (d : α) (l : List α) (k : Nat) (h : l.length = k + 1) :
    l.take k ++ [l.getD k d] = l := by
  rw [take_append_getD d l k (by omega), List.take_of_length_le (by omega)]

theorem take_append_getD_two (d : α) (l : List α) (k : Nat) (h : l.length = k + 2) :
    l.take k ++ [l.getD k d, l.getD (k + 1) d] = l := by
  have hlast := take_append_getD_last d l (k + 1) h
  rw [← take_append_getD d l k (by omega)] at hlast
  simpa using hlast

end ListGetD
