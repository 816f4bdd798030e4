import Mathlib.Data.List.Sort
import Mathlib.Data.List.GetD

/-!
# Order statistics of a list

The `i`-th smallest element of a list over a linear order is the element at `i` of the
sorted list, here `insertionSort`, which computes and is the one sorted permutation.  It is
pinned down by counting: at most `i` elements lie below it, and anything with at most `i`
elements below it is at most it.  So an order statistic can only grow when elements below
it are removed or elements above it are added.

    i < l.length → (sort l).getD i d ∈ l                                  (getD_sort_mem)
    l.countP (· < (sort l).getD i d) ≤ i                                 (countP_lt_getD_sort_le)
    i < l.length → l.countP (· < m) ≤ i → m ≤ (sort l).getD i d          (le_getD_sort)
-/

namespace OrderStatistic

variable {α : Type} [LinearOrder α]

/-- The list in ascending order. -/
def sort (l : List α) : List α := l.insertionSort (· ≤ ·)

theorem sort_perm (l : List α) : List.Perm (sort l) l := List.perm_insertionSort _ l

@[simp]
theorem length_sort (l : List α) : (sort l).length = l.length := (sort_perm l).length_eq

theorem pairwise_sort (l : List α) : (sort l).Pairwise (· ≤ ·) :=
  List.pairwise_insertionSort _ l

theorem countP_sort (p : α → Bool) (l : List α) : (sort l).countP p = l.countP p :=
  (sort_perm l).countP_eq p

/-- In a list in ascending order, elements at or before `i` are at most the one at `i`. -/
theorem getElem_le_of_pairwise {s : List α} (hs : s.Pairwise (· ≤ ·)) {j i : Nat}
    (hji : j ≤ i) (hi : i < s.length) : s[j] ≤ s[i] := by
  rcases Nat.lt_or_eq_of_le hji with hlt | rfl
  · exact List.pairwise_iff_getElem.mp hs j i (by omega) hi hlt
  · exact le_rfl

theorem getD_sort_mem {l : List α} {i : Nat} (hi : i < l.length) (d : α) :
    (sort l).getD i d ∈ l := by
  have hi' : i < (sort l).length := by simpa using hi
  rw [List.getD_eq_getElem _ _ hi']
  exact (sort_perm l).mem_iff.mp (List.getElem_mem hi')

/-- In a list in ascending order, the elements below the one at `i` all come before it. -/
theorem countP_lt_getElem_le {s : List α} (hs : s.Pairwise (· ≤ ·)) {i : Nat}
    (hi : i < s.length) : s.countP (fun x => decide (x < s[i])) ≤ i := by
  have hsplit : (s.take i ++ s.drop i).countP (fun x => decide (x < s[i])) =
      (s.take i).countP (fun x => decide (x < s[i])) +
        (s.drop i).countP (fun x => decide (x < s[i])) := List.countP_append
  rw [List.take_append_drop] at hsplit
  have hdrop : (s.drop i).countP (fun x => decide (x < s[i])) = 0 := by
    rw [List.countP_eq_zero]
    intro x hx
    obtain ⟨k, hk, rfl⟩ := List.getElem_of_mem hx
    rw [List.length_drop] at hk
    rw [List.getElem_drop]
    simpa using getElem_le_of_pairwise hs (Nat.le_add_right i k) (by omega)
  have htake : (s.take i).countP (fun x => decide (x < s[i])) ≤ i :=
    calc (s.take i).countP (fun x => decide (x < s[i]))
        ≤ (s.take i).length := List.countP_le_length
      _ ≤ i := by rw [List.length_take]; omega
  omega

/-- At most `i` elements lie below the `i`-th smallest. -/
theorem countP_lt_getD_sort_le {l : List α} {i : Nat} (hi : i < l.length) (d : α) :
    l.countP (fun x => decide (x < (sort l).getD i d)) ≤ i := by
  have hi' : i < (sort l).length := by simpa using hi
  rw [List.getD_eq_getElem _ _ hi', ← countP_sort _ l]
  exact countP_lt_getElem_le (pairwise_sort l) hi'

/-- Whatever has at most `i` elements of `l` below it is at most the `i`-th smallest: if the
`i`-th smallest were below `m`, so would be the `i + 1` elements up to it. -/
theorem le_getD_sort {l : List α} {i : Nat} {m : α} (hi : i < l.length)
    (hc : l.countP (fun x => decide (x < m)) ≤ i) (d : α) : m ≤ (sort l).getD i d := by
  have hi' : i < (sort l).length := by simpa using hi
  rw [List.getD_eq_getElem _ _ hi']
  by_contra hlt
  rw [not_le] at hlt
  have htake : ((sort l).take (i + 1)).countP (fun x => decide (x < m)) = i + 1 := by
    rw [List.countP_eq_length.mpr, List.length_take]
    · omega
    · intro x hx
      obtain ⟨k, hk, rfl⟩ := List.getElem_of_mem hx
      rw [List.length_take] at hk
      rw [List.getElem_take]
      have hle := getElem_le_of_pairwise (pairwise_sort l) (show k ≤ i by omega) hi'
      exact decide_eq_true (lt_of_le_of_lt hle hlt)
  have hsub : ((sort l).take (i + 1)).countP (fun x => decide (x < m)) ≤ l.countP
      (fun x => decide (x < m)) := by
    rw [← countP_sort _ l]
    exact (List.take_sublist _ _).countP_le
  omega

/-- The `j`-th smallest of `l'` is at least the `i`-th smallest of `l` when `j ≥ i` and `l'`
has no more elements below the latter than `l` has. -/
theorem getD_sort_le_getD_sort {l l' : List α} {i j : Nat} (hi : i < l.length)
    (hj : j < l'.length) (hij : i ≤ j) (d d' : α)
    (hc : l'.countP (fun x => decide (x < (sort l).getD i d)) ≤
      l.countP (fun x => decide (x < (sort l).getD i d))) :
    (sort l).getD i d ≤ (sort l').getD j d' := by
  apply le_getD_sort hj _ d'
  have := countP_lt_getD_sort_le hi d
  omega

end OrderStatistic
