import Veles.Chain.Chain
import Veles.Chain.MedianTime
import Veles.Chain.Work
import Veles.Lib.CheckedInt

/-!
# Block locators

`CChain::GetLocator(pindex)` (chain.cpp) lists the hashes of `pindex` and of blocks below it,
the first ones a height apart and then twice as far back each time, ending with the genesis
block.  It steps back through the chain's index while the block is on the chain and through
the skip list otherwise.  On a consistent chain both reach the same ancestor
(`locatorNext_eq`), so the heights visited depend only on the height of `pindex`:

    getLocatorWalk visits the ancestors at locatorHeights (nHeight + 1) 0 nHeight
                                                               (getLocatorWalk_eq)
    entry i and entry i + 1 are min (2 ^ (i - 10)) h_i apart     (locatorHeights_gap)

The walk collects the blocks whose hashes it pushes; the locator is their hashes.  `nStep` is
the code's `int`, and `nStep *= 2` after entry 40 would take it from `2 ^ 30` to `2 ^ 31`, a
signed overflow.  The steps of entries 0 to 39 add up to `2 ^ 30 + 9` (`locatorBudget`), so a
block below height `2 ^ 30 + 10` gets its locator, and from that height the walk overflows
(`getLocatorWalk_eq_none`).
-/

namespace Veles

/-- `if (vHave.size() > 10) nStep *= 2;`, with `size` the number of hashes pushed; `none`
where the `int` overflows. -/
def nextStep (size : Nat) (nStep : Int32) : Option Int32 :=
  if size > 10 then nStep.mulChecked 2 else some nStep

/-- The loop of `GetLocator`, with `vHave` the blocks whose hashes are pushed so far; `none`
where `nStep` overflows. -/
def getLocatorWalk (T : BlockTree) (C : CChain) :
    Nat → Int32 → List BlockPtr → Option BlockPtr → Option (List BlockPtr)
  | 0, _, vHave, _ => some vHave
  | _ + 1, _, vHave, none => some vHave
  | fuel + 1, nStep, vHave, some pindex =>
    let vHave := vHave ++ [pindex]
    -- Stop when we have added the genesis block.
    if T.heightOf pindex = 0 then some vHave
    else
      -- Exponentially larger steps back, plus the genesis block.
      let nHeight := max ((T.heightOf pindex : Int) - nStep.toInt) 0
      let pindex := if C.contains T pindex then C.get nHeight else getAncestor T pindex nHeight
      (nextStep vHave.length nStep).bind fun nStep => getLocatorWalk T C fuel nStep vHave pindex

/-- `GetLocator(pindex)`, from the tip for `nullptr`: each pass moves at least one height
down, so `nHeight + 1` passes suffice. -/
def getLocator (T : BlockTree) (C : CChain) (pindex : Option BlockPtr) : Option (List Nat) :=
  let pindex := match pindex with
    | some p => some p
    | none => C.tip
  (getLocatorWalk T C ((pindex.map T.heightOf).getD 0 + 1) 1 [] pindex).map
    fun vHave => vHave.map fun q => (T.deref q).hashBlock

/-! ## The doubling of `nStep` -/

/-- The heights the walk can still go down from entry `k` before `nStep` leaves the `int`: the
steps `2 ^ (j - 10)` of the entries `j` from `k` to 39. -/
def locatorBudget (k : Nat) : Nat := ((List.range' k (40 - k)).map fun j => 2 ^ (j - 10)).sum

theorem locatorBudget_succ {k : Nat} (hk : k < 40) :
    locatorBudget k = 2 ^ (k - 10) + locatorBudget (k + 1) := by
  unfold locatorBudget
  rw [show 40 - k = 40 - (k + 1) + 1 by omega, List.range'_succ, List.map_cons, List.sum_cons]

theorem locatorBudget_of_le {k : Nat} (hk : 40 ≤ k) : locatorBudget k = 0 := by
  rw [locatorBudget, show 40 - k = 0 by omega, List.range'_zero, List.map_nil, List.sum_nil]

theorem locatorBudget_zero : locatorBudget 0 = 2 ^ 30 + 9 := by decide

/-- Before entry 40 the doubled step still fits in an `int`. -/
theorem nextStep_eq_some {k : Nat} {nStep : Int32} (hk : k < 40)
    (hstep : nStep.toInt = ((2 ^ (k - 10) : Nat) : Int)) :
    ∃ nStep', nextStep (k + 1) nStep = some nStep' ∧
      nStep'.toInt = ((2 ^ (k + 1 - 10) : Nat) : Int) := by
  unfold nextStep
  split
  · have hpow : 2 ^ (k - 10) ≤ 2 ^ 29 := Nat.pow_le_pow_right (by norm_num) (by omega)
    have htwo : (2 : Int32).toInt = 2 := rfl
    rw [show k + 1 - 10 = k - 10 + 1 by omega, Nat.pow_succ]
    -- the step is at most `2 ^ 29`, so its double fits
    generalize 2 ^ (k - 10) = x at hpow hstep ⊢
    obtain ⟨c, hc, hct⟩ := Int32.exists_mulChecked_eq_some (a := nStep) (b := 2)
      (by rw [hstep, htwo]; omega) (by rw [hstep, htwo]; omega)
    exact ⟨c, hc, by rw [hct, hstep, htwo]; omega⟩
  · exact ⟨nStep, rfl, by rw [hstep, show k - 10 = 0 by omega, show k + 1 - 10 = 0 by omega]⟩

/-- After entry 40 it does not: `2 ^ 30 * 2` is `INT_MAX + 1`. -/
theorem nextStep_forty_one {nStep : Int32} (hstep : nStep.toInt = ((2 ^ 30 : Nat) : Int)) :
    nextStep 41 nStep = none := by
  rw [nextStep, if_pos (by norm_num), Int32.mulChecked_eq_none_iff, hstep,
    show (2 : Int32).toInt = 2 from rfl]
  norm_num

/-! ## The schedule of heights -/

/-- The heights the walk visits from height `h` with `k` hashes already pushed: `h`, and then
from `h - min (2 ^ (k - 10)) h` on, until height 0. -/
def locatorHeights : Nat → Nat → Nat → List Nat
  | 0, _, _ => []
  | fuel + 1, k, h =>
    h :: if h = 0 then [] else locatorHeights fuel (k + 1) (h - min (2 ^ (k - 10)) h)

theorem one_le_min_two_pow {e h : Nat} (h0 : h ≠ 0) : 1 ≤ min (2 ^ e) h :=
  le_min (Nat.one_le_two_pow) (Nat.one_le_iff_ne_zero.mpr h0)

theorem locatorHeights_le (fuel : Nat) : ∀ k h, ∀ x ∈ locatorHeights fuel k h, x ≤ h := by
  induction fuel with
  | zero => intro k h x hx; simp [locatorHeights] at hx
  | succ fuel ih =>
    intro k h x hx
    rw [locatorHeights] at hx
    rcases List.mem_cons.mp hx with rfl | hx
    · exact Nat.le_refl x
    · split at hx
      · simp at hx
      · exact (ih _ _ x hx).trans (Nat.sub_le _ _)

theorem locatorHeights_pairwise (fuel : Nat) :
    ∀ k h, (locatorHeights fuel k h).Pairwise fun x y => y < x := by
  induction fuel with
  | zero => intro k h; exact List.Pairwise.nil
  | succ fuel ih =>
    intro k h
    rw [locatorHeights]
    split
    · exact List.pairwise_singleton _ _
    · next h0 =>
      -- every later height is at most the next one, which is below `h`
      have hmin := one_le_min_two_pow (e := k - 10) h0
      refine List.pairwise_cons.mpr ⟨fun x hx => ?_, ih _ _⟩
      have := locatorHeights_le fuel _ _ x hx
      omega

/-- With more passes than the height, the schedule ends at height 0. -/
theorem locatorHeights_getLast (fuel : Nat) :
    ∀ k h, h < fuel → (locatorHeights fuel k h).getLast? = some 0 := by
  induction fuel with
  | zero => intro k h hh; omega
  | succ fuel ih =>
    intro k h hh
    rw [locatorHeights]
    split
    · next h0 => rw [h0]; rfl
    · next h0 =>
      have hmin := one_le_min_two_pow (e := k - 10) h0
      have hne : locatorHeights fuel (k + 1) (h - min (2 ^ (k - 10)) h) ≠ [] := by
        cases fuel with
        | zero => omega
        | succ fuel => simp [locatorHeights]
      rw [List.getLast?_cons, ih _ _ (by omega)]
      rfl

theorem locatorHeights_head (fuel k h : Nat) : (locatorHeights (fuel + 1) k h).head? = some h :=
  rfl

/-- The `i`-th gap is `2 ^ (i - 10)`, or what is left down to the genesis height. -/
theorem locatorHeights_gap (fuel : Nat) : ∀ k h i (hi : i + 1 < (locatorHeights fuel k h).length),
    (locatorHeights fuel k h)[i] - (locatorHeights fuel k h)[i + 1] =
      min (2 ^ (k + i - 10)) (locatorHeights fuel k h)[i] := by
  induction fuel with
  | zero => intro k h i hi; simp [locatorHeights] at hi
  | succ fuel ih =>
    intro k h i hi
    simp only [locatorHeights] at hi ⊢
    split at hi
    · simp at hi
    · next h0 =>
      simp only [if_neg h0]
      cases i with
      | zero =>
        cases fuel with
        | zero => simp [locatorHeights] at hi
        | succ fuel =>
          simp only [locatorHeights, List.getElem_cons_zero, List.getElem_cons_succ,
            Nat.add_zero]
          have hc : 1 ≤ 2 ^ (k - 10) := Nat.one_le_two_pow
          omega
      | succ i =>
        simp only [List.getElem_cons_succ]
        rw [ih (k + 1) _ i (by simpa using hi), show k + 1 + i = k + (i + 1) by omega]

/-! ## The walk -/

section Walk

variable {T : BlockTree} (hT : T.WellFormed) {C : CChain} (hC : Consistent hT C.vChain)
include hT hC

/-- From a block of a consistent chain, its index reaches the ancestor the skip list does. -/
theorem locatorNext_eq {q : BlockPtr} {c : CBlockIndex} (hq : T.get? q = some c) {n : Nat}
    (hn : n ≤ c.nHeight) :
    (if C.contains T q then C.get n else getAncestor T q n) = hT.forest.ancestorAt q n := by
  have hqh : T.heightOf q = c.nHeight := BlockTree.heightOf_of_get? hq
  split
  · next hcont =>
    -- `vChain[nHeight] == q`, and below a block it holds the chain holds its ancestors
    unfold CChain.contains CChain.get at hcont
    split at hcont
    · cases hcont
    · next hrange =>
      rw [Int.toNat_natCast] at hcont
      rw [CChain.get, if_neg (by omega), Int.toNat_natCast]
      exact hC _ q hcont n (by omega)
  · rw [getAncestor_eq hT hq, if_pos (Int.natCast_nonneg _), Int.toNat_natCast]

/-- From the ancestor of `p` at a height `h ≠ 0`, with `nStep` at `2 ^ (k - 10)`, the walk
moves on to the ancestor of `p` at the next height of the schedule. -/
theorem getLocatorWalk_next {p : BlockPtr} {b : CBlockIndex} (hp : T.get? p = some b)
    {k h : Nat} {q : BlockPtr} (hq : hT.forest.ancestorAt p h = some q) (h0 : h ≠ 0)
    {nStep : Int32} (hstep : nStep.toInt = ((2 ^ (k - 10) : Nat) : Int)) :
    ∃ q', hT.forest.ancestorAt p (h - min (2 ^ (k - 10)) h) = some q' ∧
      (if C.contains T q then C.get (max ((h : Int) - nStep.toInt) 0)
        else getAncestor T q (max ((h : Int) - nStep.toInt) 0)) = some q' := by
  obtain ⟨hqh, hle⟩ := ParentForest.height_of_ancestorAt hq
  obtain ⟨c, hc⟩ := BlockTree.get?_of_ancestorAt hT.toLinked hq hp
  have hcq : c.nHeight = h := by rw [← BlockTree.heightOf_of_get? hc]; exact hqh
  have hmin := one_le_min_two_pow (e := k - 10) h0
  have hn : max ((h : Int) - nStep.toInt) 0 = ((h - min (2 ^ (k - 10)) h : Nat) : Int) := by
    rw [hstep]
    omega
  -- whichever way the next block is found, it is the ancestor of `p` at that height
  obtain ⟨q', hq'⟩ := ParentForest.exists_ancestorAt (F := hT.forest) (a := p)
    (h := h - min (2 ^ (k - 10)) h) (by omega)
  have hnext := locatorNext_eq hT hC hc (n := h - min (2 ^ (k - 10)) h) (by omega)
  rw [ParentForest.ancestorAt_of_ancestorAt hq (Nat.sub_le _ _), hq'] at hnext
  exact ⟨q', hq', by rw [hn]; exact hnext⟩

/-- Each pass pushes the ancestor of `p` at the next height of the schedule, while the height
left is within the budget of `nStep`. -/
theorem getLocatorWalk_eq {p : BlockPtr} {b : CBlockIndex} (hp : T.get? p = some b)
    (fuel : Nat) : ∀ k h q (vHave : List BlockPtr) (nStep : Int32), vHave.length = k →
      nStep.toInt = ((2 ^ (k - 10) : Nat) : Int) → h ≤ locatorBudget k →
      hT.forest.ancestorAt p h = some q →
      getLocatorWalk T C fuel nStep vHave (some q) =
        some (vHave ++ (locatorHeights fuel k h).filterMap (hT.forest.ancestorAt p)) := by
  induction fuel with
  | zero => intro k h q vHave _ _ _ _ _; simp [getLocatorWalk, locatorHeights]
  | succ fuel ih =>
    intro k h q vHave nStep hk hstep hbud hq
    have hch : T.heightOf q = h := (ParentForest.height_of_ancestorAt hq).1
    simp only [getLocatorWalk, locatorHeights, hch, List.filterMap_cons, hq]
    by_cases h0 : h = 0
    · simp [h0]
    · rw [if_neg h0, if_neg h0]
      -- a height above zero within the budget of entry `k` puts `k` below 40
      have hk40 : k < 40 := by
        by_contra hk40
        rw [locatorBudget_of_le (by omega)] at hbud
        omega
      obtain ⟨q', hq', hnext⟩ := getLocatorWalk_next hT hC hp hq h0 hstep
      obtain ⟨nStep', hn', hstep'⟩ := nextStep_eq_some hk40 hstep
      have hbud' : h - min (2 ^ (k - 10)) h ≤ locatorBudget (k + 1) := by
        rw [locatorBudget_succ hk40] at hbud
        omega
      simp only [List.length_append, List.length_singleton, hk, hn', Option.bind_some]
      rw [hnext, ih (k + 1) _ q' (vHave ++ [q]) nStep' (by simp [hk]) hstep' hbud' hq']
      simp

/-- Above the budget, the walk reaches entry 40 with a height left, and the doubling after it
overflows. -/
theorem getLocatorWalk_eq_none {p : BlockPtr} {b : CBlockIndex} (hp : T.get? p = some b)
    (fuel : Nat) : ∀ k h q (vHave : List BlockPtr) (nStep : Int32), vHave.length = k → k ≤ 40 →
      nStep.toInt = ((2 ^ (k - 10) : Nat) : Int) → locatorBudget k < h → 40 - k < fuel →
      hT.forest.ancestorAt p h = some q → getLocatorWalk T C fuel nStep vHave (some q) = none := by
  induction fuel with
  | zero => intro k h q vHave nStep _ _ _ _ hfuel _; omega
  | succ fuel ih =>
    intro k h q vHave nStep hk hk40 hstep hbud hfuel hq
    have hch : T.heightOf q = h := (ParentForest.height_of_ancestorAt hq).1
    have h0 : h ≠ 0 := by omega
    simp only [getLocatorWalk, hch, if_neg h0, List.length_append, List.length_singleton, hk]
    rcases Nat.lt_or_ge k 40 with hlt | hge
    · obtain ⟨q', hq', hnext⟩ := getLocatorWalk_next hT hC hp hq h0 hstep
      obtain ⟨nStep', hn', hstep'⟩ := nextStep_eq_some hlt hstep
      -- the step is the whole `2 ^ (k - 10)`, and what is left is still above the budget
      rw [locatorBudget_succ hlt] at hbud
      have hbud' : locatorBudget (k + 1) < h - min (2 ^ (k - 10)) h := by omega
      simp only [hn', Option.bind_some]
      rw [hnext]
      exact ih (k + 1) _ q' (vHave ++ [q]) nStep' (by simp [hk]) (by omega) hstep' hbud'
        (by omega) hq'
    · obtain rfl : k = 40 := by omega
      have hnone : nextStep (40 + 1) nStep = none := nextStep_forty_one hstep
      rw [hnone, Option.bind_none]

/-- The locator of `p`, below height `2 ^ 30 + 10`: the hashes of the ancestors of `p` at the
heights of the schedule. -/
theorem getLocator_eq {p : BlockPtr} {b : CBlockIndex} (hp : T.get? p = some b)
    (hh : b.nHeight < 2 ^ 30 + 10) :
    getLocator T C (some p) =
      some (((locatorHeights (b.nHeight + 1) 0 b.nHeight).filterMap
        (hT.forest.ancestorAt p)).map fun q => (T.deref q).hashBlock) := by
  have hph : T.heightOf p = b.nHeight := BlockTree.heightOf_of_get? hp
  have hself : hT.forest.ancestorAt p b.nHeight = some p := ancestorAt_self hT hp
  simp only [getLocator, Option.map_some, Option.getD_some, hph]
  rw [getLocatorWalk_eq hT hC hp _ 0 _ p [] 1 rfl rfl (by rw [locatorBudget_zero]; omega) hself,
    Option.map_some, List.nil_append]

/-- From height `2 ^ 30 + 10` on, `nStep` overflows. -/
theorem getLocator_eq_none {p : BlockPtr} {b : CBlockIndex} (hp : T.get? p = some b)
    (hh : 2 ^ 30 + 10 ≤ b.nHeight) : getLocator T C (some p) = none := by
  have hph : T.heightOf p = b.nHeight := BlockTree.heightOf_of_get? hp
  have hself : hT.forest.ancestorAt p b.nHeight = some p := ancestorAt_self hT hp
  simp only [getLocator, Option.map_some, Option.getD_some, hph]
  rw [getLocatorWalk_eq_none hT hC hp _ 0 _ p [] 1 rfl (by norm_num) rfl
    (by rw [locatorBudget_zero]; omega) (by omega) hself, Option.map_none]

end Walk

/-! ## What a locator holds -/

/-- On every chain that `SetTip` calls leave, the locator of a block `p` below height
`2 ^ 30 + 10` is the hashes of a list of blocks: `p` and ancestors of `p`, each lower than the
one before, ending with the genesis block.  Entry `i` and entry `i + 1` are
`min (2 ^ (i - 10)) h_i` heights apart: the first eleven gaps are one height, and each later gap
is at most twice the one before. -/
theorem getLocator_spec {T : BlockTree} (hT : T.WellFormed) (calls : List (Option BlockPtr))
    (hcalls : ∀ q, some q ∈ calls → ∃ b, T.get? q = some b) {p : BlockPtr} {b : CBlockIndex}
    (hp : T.get? p = some b) (hh : b.nHeight < 2 ^ 30 + 10) :
    ∃ L : List BlockPtr,
      getLocator T (calls.foldl (setTip T) ⟨[]⟩) (some p) =
        some (L.map (fun q => (T.deref q).hashBlock)) ∧
      (∀ q ∈ L, hT.forest.IsAncestor q p) ∧
      L.Pairwise (fun q r => T.heightOf r < T.heightOf q) ∧
      L.head? = some p ∧
      L.getLast? = hT.forest.ancestorAt p 0 ∧
      (∀ i (hi : i + 1 < L.length),
        T.heightOf L[i] - T.heightOf L[i + 1] = min (2 ^ (i - 10)) (T.heightOf L[i])) ∧
      (∀ i (hi : i + 1 < L.length), i ≤ 10 → T.heightOf L[i] = T.heightOf L[i + 1] + 1) ∧
      (∀ i (hi : i + 2 < L.length),
        T.heightOf L[i + 1] - T.heightOf L[i + 2] ≤ 2 * (T.heightOf L[i] - T.heightOf L[i + 1])) := by
  have hC : Consistent hT (calls.foldl (setTip T) ⟨[]⟩).vChain :=
    consistent_setTip_run calls hcalls ⟨[]⟩ consistent_nil
  have hph : hT.forest.height p = b.nHeight := BlockTree.heightOf_of_get? hp
  set H := locatorHeights (b.nHeight + 1) 0 b.nHeight with hH
  set L := H.filterMap (hT.forest.ancestorAt p) with hL
  -- the blocks are at the heights of the schedule
  have hle : ∀ h ∈ H, h ≤ hT.forest.height p := by
    intro h hh
    rw [hph]
    exact locatorHeights_le _ _ _ h hh
  have hmap : L.map T.heightOf = H := ParentForest.map_height_filterMap_ancestorAt hle
  have hget : ∀ i (hi : i < L.length) (hiH : i < H.length), T.heightOf L[i] = H[i] := by
    intro i hi hiH
    have h := List.getElem_of_eq hmap (by simpa using hi)
    simpa using h
  have hlen : L.length = H.length := by rw [← hmap, List.length_map]
  have hpw : L.Pairwise (fun q r => T.heightOf r < T.heightOf q) := by
    have h := locatorHeights_pairwise (b.nHeight + 1) 0 b.nHeight
    rw [← hH, ← hmap] at h
    exact List.pairwise_map.mp h
  have hlt : ∀ i (hi : i + 1 < L.length), T.heightOf L[i + 1] < T.heightOf L[i] :=
    fun i hi => List.pairwise_iff_getElem.mp hpw i (i + 1) (by omega) hi (by omega)
  have hgap : ∀ i (hi : i + 1 < L.length),
      T.heightOf L[i] - T.heightOf L[i + 1] = min (2 ^ (i - 10)) (T.heightOf L[i]) := by
    intro i hi
    rw [hget i (by omega) (by omega), hget (i + 1) hi (by omega), locatorHeights_gap _ 0 _ i,
      Nat.zero_add]
  refine ⟨L, getLocator_eq hT hC hp hh, fun q hq => ParentForest.isAncestor_of_mem_filterMap hq,
    hpw, ?_, ?_, hgap, ?_, ?_⟩
  · simp only [hL, hH, locatorHeights, List.filterMap_cons, ancestorAt_self hT hp]
    rfl
  · -- the last block is at height 0, and it is an ancestor of `p`
    have hl0 : (L.getLast?).map T.heightOf = some 0 := by
      rw [← List.getLast?_map, hmap, hH, locatorHeights_getLast _ _ _ (Nat.lt_succ_self _)]
    obtain ⟨g, hg, hg0⟩ := Option.map_eq_some_iff.mp hl0
    have hanc : hT.forest.IsAncestor g p :=
      ParentForest.isAncestor_of_mem_filterMap (List.mem_of_getLast? hg)
    unfold ParentForest.IsAncestor at hanc
    rw [hg, ← hanc]
    exact congrArg _ hg0
  · intro i hi hi10
    have := hgap i hi
    rw [show i - 10 = 0 by omega, pow_zero] at this
    have := hlt i hi
    omega
  · intro i hi
    have h1 := hgap i (by omega)
    have h2 := hgap (i + 1) hi
    have hlt1 := hlt i (by omega)
    have hlt2 := hlt (i + 1) hi
    have hpow : 2 ^ (i + 1 - 10) ≤ 2 * 2 ^ (i - 10) := by
      rw [← Nat.pow_succ']
      exact Nat.pow_le_pow_right (by norm_num) (by omega)
    generalize T.heightOf L[i] = x₀ at h1 h2 hlt1 hlt2 ⊢
    generalize T.heightOf L[i + 1] = x₁ at h1 h2 hlt1 hlt2 ⊢
    generalize T.heightOf L[i + 2] = x₂ at h1 h2 hlt1 hlt2 ⊢
    omega

theorem getLocator_spec_reorg :
    ∃ L : List BlockPtr,
      getLocator forkedTree ([some 1].foldl (setTip forkedTree) ⟨[]⟩) (some 2) =
        some (L.map (fun q => (forkedTree.deref q).hashBlock)) ∧
      (∀ q ∈ L, forkedTree_wellFormed.forest.IsAncestor q 2) ∧
      L.Pairwise (fun q r => forkedTree.heightOf r < forkedTree.heightOf q) ∧
      L.head? = some 2 ∧
      L.getLast? = forkedTree_wellFormed.forest.ancestorAt 2 0 ∧
      (∀ i (hi : i + 1 < L.length), forkedTree.heightOf L[i] - forkedTree.heightOf L[i + 1] =
        min (2 ^ (i - 10)) (forkedTree.heightOf L[i])) ∧
      (∀ i (hi : i + 1 < L.length), i ≤ 10 →
        forkedTree.heightOf L[i] = forkedTree.heightOf L[i + 1] + 1) ∧
      (∀ i (hi : i + 2 < L.length), forkedTree.heightOf L[i + 1] - forkedTree.heightOf L[i + 2] ≤
        2 * (forkedTree.heightOf L[i] - forkedTree.heightOf L[i + 1])) :=
  getLocator_spec forkedTree_wellFormed [some 1]
    (fun q hq => by
      simp only [List.mem_singleton, Option.some.injEq] at hq
      subst hq
      exact ⟨_, rfl⟩)
    (rfl : forkedTree.get? 2 = some (linkedEntry (some 0) 1)) (by decide)

/-- The block at height `2 ^ 30 + 10` of the linear chain of `2 ^ 30 + 11` blocks, on the empty
`CChain`: the walk reaches its entry 40 at height 1, and `nStep *= 2` overflows. -/
theorem getLocator_overflow_linear :
    getLocator (BlockTree.linear (List.replicate (2 ^ 30 + 11) 0)) ([].foldl
      (setTip (BlockTree.linear (List.replicate (2 ^ 30 + 11) 0))) ⟨[]⟩) (some (2 ^ 30 + 10)) =
      none :=
  getLocator_eq_none (BlockTree.linear_wellFormed _) consistent_nil
    (b := BlockTree.linearEntry _ (2 ^ 30 + 10))
    (by rw [BlockTree.get?_linear, if_pos (by rw [List.length_replicate]; norm_num)]) le_rfl

end Veles
