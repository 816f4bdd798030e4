import Veles.Chain.BlockIndex
import Veles.Lib.OrderStatistic

/-!
# Median time past

`CBlockIndex::GetMedianTimePast()` (chain.h) sorts the times of a block and of up to ten of
its ancestors and returns the middle one.  `ContextualCheckBlockHeader` (validation.cpp)
rejects a block whose time is not above the median time past of its parent
("time-too-old"); in a tree whose blocks all passed that test the median time past never
drops from a block to its descendants, which the lock times measured by median time past
and the versionbits deployments rely on.  The step is an order-statistic argument: the new
window loses its oldest time and gains one above the old median, so no more times lie below
that median than before.

    MTP q < b.getBlockTime → MTP q ≤ MTP p         (getMedianTimePast_le_of_pprev, b = *p)
    TimeOrdered T → IsAncestor d a → MTP d ≤ MTP a                  (getMedianTimePast_mono)
    0 ≤ MTP p < 2 ^ 32                                   (getMedianTimePast_nonneg, _lt)
-/

namespace Veles

/-- `CBlockIndex::nMedianTimeSpan`. -/
def CBlockIndex.nMedianTimeSpan : Nat := 11

namespace BlockTree

variable (T : BlockTree)

/-- The loop of `GetMedianTimePast`: the times of `pindex` and its ancestors, at most `n`
of them, oldest first, as `*(--pbegin)` leaves them between `pbegin` and `pend`. -/
def medianTimes : Nat → Option BlockPtr → List Int
  | 0, _ => []
  | _ + 1, none => []
  | n + 1, some p =>
    match T.get? p with
    | none => []
    | some b => medianTimes n b.pprev ++ [b.getBlockTime]

/-- `p->GetMedianTimePast()`: `std::sort`, then the element at half the count. -/
def getMedianTimePast (p : BlockPtr) : Int :=
  let pmedian := T.medianTimes CBlockIndex.nMedianTimeSpan (some p)
  (OrderStatistic.sort pmedian).getD (pmedian.length / 2) 0

/-- Every block of the tree passed the timestamp test of `ContextualCheckBlockHeader`: its
time is above the median time past of its parent. -/
def TimeOrdered : Prop :=
  ∀ ⦃p b q⦄, T.get? p = some b → b.pprev = some q → T.getMedianTimePast q < b.getBlockTime

variable {T}

theorem medianTimes_succ_of_get? {p : BlockPtr} {b : CBlockIndex} (hb : T.get? p = some b)
    (n : Nat) : T.medianTimes (n + 1) (some p) = T.medianTimes n b.pprev ++ [b.getBlockTime] := by
  rw [medianTimes, hb]

/-- A shorter window is the newer end of a longer one. -/
theorem medianTimes_suffix (n : Nat) :
    ∀ x, T.medianTimes n x <:+ T.medianTimes (n + 1) x := by
  induction n with
  | zero => intro x; exact List.nil_suffix
  | succ n ih =>
    rintro (_ | p)
    · exact List.suffix_refl _
    · cases hb : T.get? p with
      | none => simp [medianTimes, hb]
      | some b =>
        rw [medianTimes_succ_of_get? hb, medianTimes_succ_of_get? hb]
        exact List.suffix_append_self_iff.mpr (ih b.pprev)

/-- One more block of span adds at most one time. -/
theorem length_medianTimes_succ_le (n : Nat) :
    ∀ x, (T.medianTimes (n + 1) x).length ≤ (T.medianTimes n x).length + 1 := by
  induction n with
  | zero =>
    rintro (_ | p)
    · simp [medianTimes]
    · cases hb : T.get? p with
      | none => simp [medianTimes, hb]
      | some b =>
        rw [medianTimes_succ_of_get? hb]
        simp [medianTimes]
  | succ n ih =>
    rintro (_ | p)
    · simp [medianTimes]
    · cases hb : T.get? p with
      | none => simp [medianTimes, hb]
      | some b =>
        rw [medianTimes_succ_of_get? hb, medianTimes_succ_of_get? hb, List.length_append,
          List.length_append]
        have := ih b.pprev
        omega

/-- Every time in a window is a block's `nTime`, a 32-bit unsigned number. -/
theorem mem_medianTimes (n : Nat) :
    ∀ x, ∀ t ∈ T.medianTimes n x, 0 ≤ t ∧ t < 2 ^ 32 := by
  induction n with
  | zero => intro x t ht; simp [medianTimes] at ht
  | succ n ih =>
    rintro (_ | p) t ht
    · simp [medianTimes] at ht
    · cases hb : T.get? p with
      | none => simp [medianTimes, hb] at ht
      | some b =>
        rw [medianTimes_succ_of_get? hb, List.mem_append, List.mem_singleton] at ht
        rcases ht with ht | rfl
        · exact ih b.pprev t ht
        · have := b.nTime.toNat_lt
          exact ⟨by simp [CBlockIndex.getBlockTime], by simp [CBlockIndex.getBlockTime]; omega⟩

/-- The median time past is one of the window's times, or `0` for an empty window. -/
theorem getMedianTimePast_mem_or_zero (p : BlockPtr) :
    T.getMedianTimePast p ∈ T.medianTimes CBlockIndex.nMedianTimeSpan (some p) ∨
      T.getMedianTimePast p = 0 := by
  unfold getMedianTimePast
  by_cases h0 : (T.medianTimes CBlockIndex.nMedianTimeSpan (some p)).length = 0
  · right
    rw [List.length_eq_zero_iff.mp h0]
    rfl
  · exact .inl (OrderStatistic.getD_sort_mem (by omega) 0)

theorem getMedianTimePast_nonneg (p : BlockPtr) : 0 ≤ T.getMedianTimePast p := by
  rcases getMedianTimePast_mem_or_zero p with h | h
  · exact (mem_medianTimes _ _ _ h).1
  · rw [h]

theorem getMedianTimePast_lt (p : BlockPtr) : T.getMedianTimePast p < 2 ^ 32 := by
  rcases getMedianTimePast_mem_or_zero p with h | h
  · exact (mem_medianTimes _ _ _ h).2
  · rw [h]
    norm_num

/-- At most half of the window lies below the median time past. -/
theorem countP_lt_getMedianTimePast_le (p : BlockPtr) :
    (T.medianTimes CBlockIndex.nMedianTimeSpan (some p)).countP
        (fun t => decide (t < T.getMedianTimePast p)) ≤
      (T.medianTimes CBlockIndex.nMedianTimeSpan (some p)).length / 2 := by
  by_cases h0 : (T.medianTimes CBlockIndex.nMedianTimeSpan (some p)).length = 0
  · rw [List.length_eq_zero_iff.mp h0]
    simp
  · exact OrderStatistic.countP_lt_getD_sort_le (by omega) 0

/-- The median time past of a block is at least its parent's when the block's own time is
above it: the window of `p` is the parent's window without its oldest time and with the time
of `p`, so no more of its times lie below the parent's median. -/
theorem getMedianTimePast_le_of_pprev {p q : BlockPtr} {b : CBlockIndex}
    (hb : T.get? p = some b) (hq : b.pprev = some q)
    (htime : T.getMedianTimePast q < b.getBlockTime) :
    T.getMedianTimePast q ≤ T.getMedianTimePast p := by
  set m := T.getMedianTimePast q with hm
  set Wq := T.medianTimes CBlockIndex.nMedianTimeSpan (some q) with hWq
  set Wp := T.medianTimes CBlockIndex.nMedianTimeSpan (some p) with hWp
  have hstep : Wp = T.medianTimes 10 (some q) ++ [b.getBlockTime] := by
    rw [hWp, CBlockIndex.nMedianTimeSpan, medianTimes_succ_of_get? hb, hq]
  have hsuffix : T.medianTimes 10 (some q) <:+ Wq := medianTimes_suffix 10 (some q)
  have hlen : Wq.length ≤ Wp.length := by
    rw [hstep, List.length_append, List.length_singleton]
    exact length_medianTimes_succ_le 10 (some q)
  -- the count below `m` does not grow from the window of `q` to that of `p`
  have hcount : Wp.countP (fun t => decide (t < m)) ≤ Wq.length / 2 := by
    calc Wp.countP (fun t => decide (t < m))
        = (T.medianTimes 10 (some q)).countP (fun t => decide (t < m)) := by
          rw [hstep, List.countP_append, List.countP_singleton,
            if_neg (by simpa using le_of_lt htime), Nat.add_zero]
      _ ≤ Wq.countP (fun t => decide (t < m)) := hsuffix.sublist.countP_le
      _ ≤ Wq.length / 2 := countP_lt_getMedianTimePast_le q
  have hpos : 0 < Wp.length := by
    rw [hstep, List.length_append, List.length_singleton]
    omega
  exact OrderStatistic.le_getD_sort (by omega) (le_trans hcount (Nat.div_le_div_right hlen)) 0

/-- In a tree of blocks that all passed the timestamp test, the median time past never drops
from an ancestor to a descendant. -/
theorem getMedianTimePast_mono (hT : T.Linked) (hto : T.TimeOrdered) {d a : BlockPtr}
    (hd : (T.forest hT).IsAncestor d a) : T.getMedianTimePast d ≤ T.getMedianTimePast a := by
  apply ParentForest.IsAncestor.le_of_parent_le _ hd
  intro a q hq
  cases hb : T.get? a with
  | none =>
    have : T.pprevOf a = none := by simp [pprevOf, hb]
    exact absurd hq (by simp [forest, this])
  | some b =>
    have hbq : b.pprev = some q := by
      rw [← pprevOf_of_get? hb]
      exact hq
    exact getMedianTimePast_le_of_pprev hb hbq (hto hb hbq)


/-! ## Linear chains

The simplest trees: one block at each height, each the parent of the next, without skip
pointers.  They are well formed, and time ordered when each block's time is above the median
time past of the one before; the results of the consensus modules are instantiated on them. -/

/-- The entry at height `i` of the linear chain with block times `times`. -/
def linearEntry (times : List UInt32) (i : Nat) : CBlockIndex :=
  ⟨i, if i = 0 then none else some (i - 1), none, i, 0, times.getD i 0, 0, 0, 0, 0⟩

/-- The linear chain with block times `times`, genesis first. -/
def linear (times : List UInt32) : BlockTree :=
  ⟨(List.range times.length).map (linearEntry times)⟩

theorem get?_linear (times : List UInt32) (p : Nat) :
    (linear times).get? p = if p < times.length then some (linearEntry times p) else none := by
  unfold BlockTree.get? linear
  split_ifs with h
  · rw [List.getElem?_map, List.getElem?_range h]
    rfl
  · rw [List.getElem?_map, List.getElem?_eq_none (by simp; omega)]
    rfl

theorem eq_linearEntry_of_get? {times : List UInt32} {p : Nat} {b : CBlockIndex}
    (hb : (linear times).get? p = some b) : p < times.length ∧ b = linearEntry times p := by
  rw [get?_linear] at hb
  split_ifs at hb with hp
  · exact ⟨hp, (Option.some.inj hb).symm⟩

theorem linear_wellFormed (times : List UInt32) : (linear times).WellFormed where
  prev_height {p b q} hb hq := by
    obtain ⟨hp, rfl⟩ := eq_linearEntry_of_get? hb
    simp only [linearEntry] at hq
    split_ifs at hq with h0
    obtain rfl := Option.some.inj hq
    refine ⟨linearEntry times (p - 1), by rw [get?_linear, if_pos (by omega)], ?_⟩
    exact Nat.sub_add_cancel (Nat.pos_of_ne_zero h0)
  root_height {p b} hb hq := by
    obtain ⟨-, rfl⟩ := eq_linearEntry_of_get? hb
    simp only [linearEntry] at hq ⊢
    split_ifs at hq with h0
    exact h0
  genesis_unique {p q b c} hb hc h0 h0' := by
    obtain ⟨-, rfl⟩ := eq_linearEntry_of_get? hb
    obtain ⟨-, rfl⟩ := eq_linearEntry_of_get? hc
    change p = 0 at h0
    change q = 0 at h0'
    exact h0.trans h0'.symm
  skip {p b s} hb hs := by
    obtain ⟨-, rfl⟩ := eq_linearEntry_of_get? hb
    cases hs

theorem timeOrdered_linear {times : List UInt32}
    (h : ∀ i, i < times.length - 1 →
      (linear times).getMedianTimePast i < ((times.getD (i + 1) 0).toNat : Int)) :
    (linear times).TimeOrdered := by
  intro p b q hb hq
  obtain ⟨hp, rfl⟩ := eq_linearEntry_of_get? hb
  simp only [linearEntry] at hq
  split_ifs at hq with h0
  obtain rfl := Option.some.inj hq
  have hlt := h (p - 1) (by omega)
  rw [Nat.sub_add_cancel (Nat.pos_of_ne_zero h0)] at hlt
  exact hlt

end BlockTree

end Veles
