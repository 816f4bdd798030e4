import Veles.Chain.BlockIndex

/-!
# The active chain

`CChain` (chain.h) keeps `vChain`, the blocks of one branch by height.  `SetTip` resizes the
vector to the new tip's height and walks `pprev` from the tip, writing each block into its
slot until it meets a slot that already holds that block.  Stopping there is sound because
of an invariant every reachable `vChain` keeps (`Consistent`): below a block it holds, it
holds that block's ancestors.

    setTip T C (some p) = ⟨chainOf hT p⟩      when C is consistent      (setTip_eq_chainOf)
    contains T C q ↔ IsAncestor q p            on the chain of p         (contains_iff)
    findFork and lastCommonAncestor return the highest common ancestor
-/

namespace Veles

/-- `CChain`: `vChain[h]` is the block at height `h`, `nullptr` in a slot not yet written. -/
structure CChain where
  vChain : List (Option BlockPtr)

namespace CChain

/-- `Height()`: `vChain.size() - 1`, so `-1` for an empty chain. -/
def height (C : CChain) : Int := C.vChain.length - 1

/-- `operator[](nHeight)`: `nullptr` outside `0 .. Height()`. -/
def get (C : CChain) (nHeight : Int) : Option BlockPtr :=
  if nHeight < 0 ∨ nHeight ≥ C.vChain.length then none else C.vChain.getD nHeight.toNat none

/-- `Contains(pindex)`. -/
def contains (T : BlockTree) (C : CChain) (pindex : BlockPtr) : Prop :=
  C.get (T.heightOf pindex) = some pindex

instance (T : BlockTree) (C : CChain) (pindex : BlockPtr) : Decidable (C.contains T pindex) :=
  inferInstanceAs (Decidable (_ = _))

/-- `Tip()`: the last slot of `vChain`, `nullptr` for an empty chain. -/
def tip (C : CChain) : Option BlockPtr := C.vChain.getLast?.bind id

end CChain

/-- `vChain.resize(n)`: truncate, or pad with `nullptr`. -/
def resize (v : List (Option BlockPtr)) (n : Nat) : List (Option BlockPtr) :=
  v.take n ++ List.replicate (n - v.length) none

/-- The loop of `SetTip`: while `pindex` is not already in its slot, write it there and move
to `pprev`. -/
def setTipWalk (T : BlockTree) : Nat → List (Option BlockPtr) → Option BlockPtr →
    List (Option BlockPtr)
  | 0, vChain, _ => vChain
  | _ + 1, vChain, none => vChain
  | fuel + 1, vChain, some pindex =>
    if vChain.getD (T.heightOf pindex) none ≠ some pindex then
      setTipWalk T fuel (vChain.set (T.heightOf pindex) (some pindex)) (T.pprevOf pindex)
    else vChain

/-- `SetTip(pindex)`: the walk writes at most `nHeight + 1` slots. -/
def setTip (T : BlockTree) (C : CChain) : Option BlockPtr → CChain
  | none => ⟨[]⟩
  | some pindex =>
    ⟨setTipWalk T (T.heightOf pindex + 1) (resize C.vChain (T.heightOf pindex + 1)) (some pindex)⟩

/-- The loop of `FindFork`: walk `pprev` until a block of the chain. -/
def findForkWalk (T : BlockTree) (C : CChain) : Nat → Option BlockPtr → Option BlockPtr
  | 0, _ => none
  | _ + 1, none => none
  | fuel + 1, some pindex =>
    if C.contains T pindex then some pindex else findForkWalk T C fuel (T.pprevOf pindex)

/-- `FindFork(pindex)`: the last block of the chain on the branch of `pindex`. -/
def findFork (T : BlockTree) (C : CChain) : Option BlockPtr → Option BlockPtr
  | none => none
  | some pindex =>
    let pindex' := if (T.heightOf pindex : Int) > C.height then getAncestor T pindex C.height
      else some pindex
    findForkWalk T C (T.heightOf pindex + 1) pindex'

/-- The loop of `LastCommonAncestor`: step both blocks to `pprev` until they meet.  `none`
where both walks run out, or where `assert(pa == pb)` fails. -/
def lastCommonAncestorWalk (T : BlockTree) : Nat → Option BlockPtr → Option BlockPtr →
    Option BlockPtr
  | 0, _, _ => none
  | fuel + 1, pa, pb =>
    match pa, pb with
    | some a, some b =>
      if a ≠ b then lastCommonAncestorWalk T fuel (T.pprevOf a) (T.pprevOf b) else some a
    | _, _ => none

/-- `LastCommonAncestor(pa, pb)`: lift the higher block to the other's height, then walk
both down together. -/
def lastCommonAncestor (T : BlockTree) (pa pb : BlockPtr) : Option BlockPtr :=
  let pa' := if T.heightOf pa > T.heightOf pb then getAncestor T pa (T.heightOf pb) else some pa
  let pb' := if T.heightOf pb > T.heightOf pa then getAncestor T pb (T.heightOf pa) else some pb
  lastCommonAncestorWalk T (min (T.heightOf pa) (T.heightOf pb) + 1) pa' pb'

/-! ## Slots of `vChain` -/

theorem getD_set_slot {v : List (Option BlockPtr)} {k : Nat} (hk : k < v.length)
    (x : Option BlockPtr) (h : Nat) :
    (v.set k x).getD h none = if h = k then x else v.getD h none := by
  rw [List.getD_eq_getElem?_getD, List.getD_eq_getElem?_getD, List.getElem?_set]
  by_cases hh : h = k
  · subst hh
    simp [hk]
  · simp [Ne.symm hh, hh]

theorem getD_resize (v : List (Option BlockPtr)) (n h : Nat) :
    (resize v n).getD h none = if h < n then v.getD h none else none := by
  simp only [resize, List.getD_eq_getElem?_getD, List.getElem?_append, List.getElem?_take,
    List.getElem?_replicate, List.length_take]
  split_ifs <;> simp_all

theorem length_resize (v : List (Option BlockPtr)) (n : Nat) : (resize v n).length = n := by
  simp only [resize, List.length_append, List.length_take, List.length_replicate]
  omega

/-- Two vectors of one length that agree on every slot are equal. -/
theorem eq_of_getD {v w : List (Option BlockPtr)} (hlen : v.length = w.length)
    (h : ∀ k, v.getD k none = w.getD k none) : v = w := by
  apply List.ext_getElem hlen
  intro k hv hw
  have hk := h k
  rwa [List.getD_eq_getElem _ _ hv, List.getD_eq_getElem _ _ hw] at hk

/-! ## The chain of a tip -/

section Spec

variable {T : BlockTree} (hT : T.WellFormed)

/-- The chain whose tip is `p`: its ancestors at heights `0 .. nHeight`. -/
def chainOf (p : BlockPtr) : List (Option BlockPtr) :=
  (List.range (T.heightOf p + 1)).map (hT.forest.ancestorAt p)

/-- Below every block it holds, `vChain` holds that block's ancestors. -/
def Consistent (v : List (Option BlockPtr)) : Prop :=
  ∀ h x, v.getD h none = some x → ∀ h' ≤ h, v.getD h' none = hT.forest.ancestorAt x h'

variable {hT}

theorem length_chainOf (p : BlockPtr) : (chainOf hT p).length = T.heightOf p + 1 := by
  simp [chainOf]

theorem getD_chainOf (p : BlockPtr) (h : Nat) :
    (chainOf hT p).getD h none = hT.forest.ancestorAt p h := by
  simp only [chainOf, List.getD_eq_getElem?_getD, List.getElem?_map]
  by_cases hh : h < T.heightOf p + 1
  · rw [List.getElem?_range hh]
    rfl
  · rw [List.getElem?_eq_none (by simp; omega)]
    exact (ParentForest.ancestorAt_eq_none (F := hT.forest) (by show T.heightOf p < h; omega)).symm

theorem consistent_nil : Consistent hT [] := by
  intro h x hx
  simp at hx

theorem consistent_chainOf (p : BlockPtr) : Consistent hT (chainOf hT p) := by
  intro h x hx h' hh
  rw [getD_chainOf] at hx ⊢
  exact (ParentForest.ancestorAt_of_ancestorAt hx hh).symm

theorem consistent_resize {v : List (Option BlockPtr)} (hv : Consistent hT v) (n : Nat) :
    Consistent hT (resize v n) := by
  intro h x hx h' hh
  rw [getD_resize] at hx ⊢
  split_ifs at hx with hn
  · rw [if_pos (by omega)]
    exact hv h x hx h' hh

/-! ## `SetTip` -/

/-- From the ancestor of a block at height `k`, `pprev` leads to the one at `k - 1`, and
from the genesis block to `nullptr`. -/
theorem pprevOf_ancestorAt {p q : BlockPtr} {b : CBlockIndex} (hp : T.get? p = some b)
    {k : Nat} (hq : hT.forest.ancestorAt p k = some q) :
    T.pprevOf q = if k = 0 then none else hT.forest.ancestorAt p (k - 1) := by
  obtain ⟨c, hc⟩ := BlockTree.get?_of_ancestorAt hT.toLinked hq hp
  have hck : c.nHeight = k := by
    rw [← BlockTree.heightOf_of_get? hc]
    exact (ParentForest.height_of_ancestorAt hq).1
  by_cases hk0 : k = 0
  · rw [BlockTree.pprevOf_of_get? hc, if_pos hk0]
    cases hr : c.pprev with
    | none => rfl
    | some r =>
      obtain ⟨d, -, hdc⟩ := hT.prev_height hc hr
      omega
  · obtain ⟨k, rfl⟩ : ∃ k', k = k' + 1 := ⟨k - 1, by omega⟩
    obtain ⟨r, d, hr, hd, hdc⟩ := exists_pprev hT hc (by omega)
    have hrk : hT.forest.ancestorAt r k = some r := by
      have := ParentForest.ancestorAt_height (F := hT.forest) r
      rwa [show hT.forest.height r = k by show T.heightOf r = k; rw [BlockTree.heightOf_of_get? hd]; omega] at this
    rw [if_neg (Nat.succ_ne_zero k), Nat.add_sub_cancel,
      ← ParentForest.ancestorAt_of_ancestorAt hq (Nat.le_succ k),
      ParentForest.ancestorAt_of_parent hr (by show k < T.heightOf q; rw [BlockTree.heightOf_of_get? hc]; omega),
      hrk]
    exact hr

/-- The walk of `SetTip` from the tip down.  With the slots from `k` up already holding the
tip's ancestors and the others as the resized vector left them, it ends on the chain of the
tip: it stops early only at a slot that already holds its block, and below such a slot the
vector already holds that block's ancestors. -/
theorem setTipWalk_eq {p : BlockPtr} {b : CBlockIndex} (hp : T.get? p = some b)
    {v0 : List (Option BlockPtr)} (hv0 : Consistent hT v0) (k : Nat) (hk : k ≤ b.nHeight + 1) :
    ∀ fuel, k ≤ fuel → ∀ v : List (Option BlockPtr), v.length = b.nHeight + 1 →
      (∀ h, v.getD h none = if k ≤ h then hT.forest.ancestorAt p h else v0.getD h none) →
      setTipWalk T fuel v (if k = 0 then none else hT.forest.ancestorAt p (k - 1)) =
        chainOf hT p := by
  have hpb : T.heightOf p = b.nHeight := BlockTree.heightOf_of_get? hp
  have hlenp : (chainOf hT p).length = b.nHeight + 1 := by rw [length_chainOf, hpb]
  induction k with
  | zero =>
    intro fuel _ v hlen hv
    have hveq : v = chainOf hT p := by
      apply eq_of_getD (by rw [hlen, hlenp])
      intro h
      rw [hv h, if_pos (Nat.zero_le h), getD_chainOf]
    rw [if_pos rfl, hveq]
    cases fuel <;> rfl
  | succ k ih =>
    intro fuel hfuel v hlen hv
    obtain ⟨q, hq⟩ := ParentForest.exists_ancestorAt (F := hT.forest) (a := p) (h := k)
      (by show k ≤ T.heightOf p; omega)
    have hqk : T.heightOf q = k := (ParentForest.height_of_ancestorAt hq).1
    have hvk : v.getD k none = v0.getD k none := by rw [hv k, if_neg (by omega)]
    obtain ⟨fuel, rfl⟩ : ∃ f, fuel = f + 1 := ⟨fuel - 1, by omega⟩
    rw [if_neg (Nat.succ_ne_zero k), Nat.add_sub_cancel, hq, setTipWalk, hqk, hvk]
    by_cases hin : v0.getD k none = some q
    · rw [if_neg (by rw [hin]; exact not_not_intro rfl)]
      apply eq_of_getD (by rw [hlen, hlenp])
      intro h
      rw [hv h, getD_chainOf]
      split_ifs with hkh
      · rfl
      · rw [hv0 k q hin h (by omega)]
        exact ParentForest.ancestorAt_of_ancestorAt hq (by omega)
    · rw [if_pos hin, pprevOf_ancestorAt hp hq]
      apply ih (by omega) fuel (by omega)
      · rw [List.length_set, hlen]
      · intro h
        rw [getD_set_slot (by omega) _ h, hv h]
        by_cases hhk : h = k
        · rw [if_pos hhk, if_pos (by omega), hhk, hq]
        · rw [if_neg hhk]
          split_ifs <;> first | rfl | omega

/-- From a consistent vector, `SetTip(p)` leaves exactly the chain of `p`. -/
theorem setTip_eq_chainOf {C : CChain} (hC : Consistent hT C.vChain) {p : BlockPtr}
    {b : CBlockIndex} (hp : T.get? p = some b) : setTip T C (some p) = ⟨chainOf hT p⟩ := by
  have hpb : T.heightOf p = b.nHeight := BlockTree.heightOf_of_get? hp
  have hself : hT.forest.ancestorAt p b.nHeight = some p := ancestorAt_self hT hp
  have hwalk := setTipWalk_eq hp (consistent_resize hC (b.nHeight + 1)) (b.nHeight + 1) le_rfl
    (b.nHeight + 1) le_rfl (resize C.vChain (b.nHeight + 1)) (length_resize _ _) (by
      intro h
      split_ifs with hh
      · rw [getD_resize, if_neg (by omega)]
        exact (ParentForest.ancestorAt_eq_none (F := hT.forest) (by show T.heightOf p < h; omega)).symm
      · rfl)
  rw [if_neg (Nat.succ_ne_zero _), Nat.add_sub_cancel, hself] at hwalk
  rw [setTip, hpb, hwalk]

/-- Every chain reached from a consistent one by `SetTip` calls with blocks of the tree,
or with `nullptr`, is consistent. -/
theorem consistent_setTip_run (calls : List (Option BlockPtr))
    (hcalls : ∀ q, some q ∈ calls → ∃ b, T.get? q = some b) :
    ∀ C, Consistent hT C.vChain → Consistent hT (calls.foldl (setTip T) C).vChain := by
  induction calls with
  | nil => intro C hC; exact hC
  | cons c calls ih =>
    intro C hC
    rw [List.foldl_cons]
    apply ih (fun q hq => hcalls q (List.mem_cons_of_mem c hq))
    cases c with
    | none => exact consistent_nil
    | some q =>
      obtain ⟨b, hb⟩ := hcalls q List.mem_cons_self
      rw [setTip_eq_chainOf hC hb]
      exact consistent_chainOf q

/-! ## Queries on the chain of a tip -/

theorem height_chainOf {p : BlockPtr} {b : CBlockIndex} (hp : T.get? p = some b) :
    (⟨chainOf hT p⟩ : CChain).height = b.nHeight := by
  rw [CChain.height, length_chainOf, BlockTree.heightOf_of_get? hp]
  omega

theorem get_chainOf (p : BlockPtr) (h : Int) :
    (⟨chainOf hT p⟩ : CChain).get h = if 0 ≤ h then hT.forest.ancestorAt p h.toNat else none := by
  rw [CChain.get, length_chainOf]
  by_cases h0 : 0 ≤ h
  · rw [if_pos h0]
    by_cases hh : h ≥ ((T.heightOf p + 1 : Nat) : Int)
    · rw [if_pos (.inr hh)]
      exact (ParentForest.ancestorAt_eq_none (F := hT.forest)
        (by show T.heightOf p < h.toNat; omega)).symm
    · rw [if_neg (by omega)]
      exact getD_chainOf p h.toNat
  · rw [if_neg h0, if_pos (.inl (by omega))]

theorem contains_chainOf_iff (p q : BlockPtr) :
    CChain.contains T ⟨chainOf hT p⟩ q ↔ hT.forest.IsAncestor q p := by
  rw [CChain.contains, get_chainOf, if_pos (Int.natCast_nonneg _), Int.toNat_natCast]
  rfl

/-- The walk of `FindFork` stops at the first ancestor of `x` on the chain, which is the
highest common ancestor: a block that is not on the chain is no common ancestor, and the
genesis block always is. -/
theorem findForkWalk_chainOf {p : BlockPtr} {b : CBlockIndex} (hp : T.get? p = some b)
    (fuel : Nat) : ∀ x c, T.get? x = some c → c.nHeight < fuel →
      ∃ f, findForkWalk T ⟨chainOf hT p⟩ fuel (some x) = some f ∧
        hT.forest.IsHighestCommon f x p := by
  induction fuel with
  | zero => intro x c hc hlt; omega
  | succ fuel ih =>
    intro x c hc hlt
    rw [findForkWalk]
    by_cases hx : hT.forest.IsAncestor x p
    · rw [if_pos ((contains_chainOf_iff p x).mpr hx)]
      exact ⟨x, rfl, ParentForest.isHighestCommon_of_isAncestor hx⟩
    · rw [if_neg (mt (contains_chainOf_iff p x).mp hx)]
      have hpos : 0 < c.nHeight := by
        by_contra h0
        apply hx
        apply ParentForest.isAncestor_of_height_zero _ (ancestorAt_zero_eq hT hc hp)
        show T.heightOf x = 0
        rw [BlockTree.heightOf_of_get? hc]
        omega
      obtain ⟨y, d, hy, hd, hdc⟩ := exists_pprev hT hc hpos
      obtain ⟨f, hf, hhc⟩ := ih y d hd (by omega)
      refine ⟨f, ?_, hhc.of_parent_left hx hy⟩
      rw [show T.pprevOf x = some y from hy]
      exact hf

theorem findFork_chainOf {p : BlockPtr} {b : CBlockIndex} (hp : T.get? p = some b)
    {q : BlockPtr} {c : CBlockIndex} (hq : T.get? q = some c) :
    ∃ f, findFork T ⟨chainOf hT p⟩ (some q) = some f ∧ hT.forest.IsHighestCommon f q p := by
  have hqc : T.heightOf q = c.nHeight := BlockTree.heightOf_of_get? hq
  have hpb : hT.forest.height p = b.nHeight := BlockTree.heightOf_of_get? hp
  simp only [findFork]
  rw [height_chainOf hp, hqc]
  by_cases hgt : (c.nHeight : Int) > b.nHeight
  · rw [if_pos hgt, getAncestor_eq hT hq, if_pos (Int.natCast_nonneg _), Int.toNat_natCast]
    obtain ⟨x, hx⟩ := ParentForest.exists_ancestorAt (F := hT.forest) (a := q) (h := b.nHeight)
      (by show b.nHeight ≤ T.heightOf q; omega)
    obtain ⟨e, he⟩ := BlockTree.get?_of_ancestorAt hT.toLinked hx hq
    have hxe : e.nHeight = b.nHeight := by
      rw [← BlockTree.heightOf_of_get? he]
      exact (ParentForest.height_of_ancestorAt hx).1
    rw [hx]
    obtain ⟨f, hf, hhc⟩ := findForkWalk_chainOf hp (c.nHeight + 1) x e he (by omega)
    exact ⟨f, hf, hhc.of_ancestorAt_left (by rw [hpb]; exact hx)⟩
  · rw [if_neg hgt]
    exact findForkWalk_chainOf hp (c.nHeight + 1) q c hq (by omega)

end Spec

/-! ## `LastCommonAncestor` -/

section LastCommonAncestor

variable {T : BlockTree} (hT : T.WellFormed)
include hT

/-- Two different blocks at one height step to their parents; they meet at the latest at
the genesis block, where the walk has found the highest common ancestor. -/
theorem lastCommonAncestorWalk_eq (fuel : Nat) : ∀ x y cx cy, T.get? x = some cx →
    T.get? y = some cy → cx.nHeight = cy.nHeight → cx.nHeight < fuel →
      ∃ l, lastCommonAncestorWalk T fuel (some x) (some y) = some l ∧
        hT.forest.IsHighestCommon l x y := by
  induction fuel with
  | zero => intro x y cx cy hx hy hxy hlt; omega
  | succ fuel ih =>
    intro x y cx cy hx hy hxy hlt
    rw [lastCommonAncestorWalk]
    by_cases hne : x = y
    · subst hne
      rw [if_neg (not_not_intro rfl)]
      exact ⟨x, rfl, ParentForest.isHighestCommon_of_isAncestor (ParentForest.IsAncestor.refl x)⟩
    · rw [if_pos hne]
      have hhx : hT.forest.height x = cx.nHeight := BlockTree.heightOf_of_get? hx
      have hhy : hT.forest.height y = cy.nHeight := BlockTree.heightOf_of_get? hy
      have hpos : 0 < cx.nHeight := by
        by_contra h0
        exact hne (ParentForest.eq_of_height_zero (by omega) (by omega) (ancestorAt_zero_eq hT hx hy))
      obtain ⟨x', dx, hx', hdx, hdxc⟩ := exists_pprev hT hx hpos
      obtain ⟨y', dy, hy', hdy, hdyc⟩ := exists_pprev hT hy (by omega)
      obtain ⟨l, hl, hhc⟩ := ih x' y' dx dy hdx hdy (by omega) (by omega)
      refine ⟨l, ?_, hhc.of_parents hne (by omega) hx' hy'⟩
      rw [show T.pprevOf x = some x' from hx', show T.pprevOf y = some y' from hy']
      exact hl

/-- `LastCommonAncestor(a, b)` is the highest block that is an ancestor of both. -/
theorem lastCommonAncestor_eq {a b : BlockPtr} {ca cb : CBlockIndex} (ha : T.get? a = some ca)
    (hb : T.get? b = some cb) :
    ∃ l, lastCommonAncestor T a b = some l ∧ hT.forest.IsHighestCommon l a b := by
  have hha : T.heightOf a = ca.nHeight := BlockTree.heightOf_of_get? ha
  have hhb : T.heightOf b = cb.nHeight := BlockTree.heightOf_of_get? hb
  simp only [lastCommonAncestor]
  rw [hha, hhb]
  rcases lt_trichotomy ca.nHeight cb.nHeight with hlt | heq | hgt
  · rw [if_neg (by omega), if_pos hlt, getAncestor_eq hT hb, if_pos (Int.natCast_nonneg _),
      Int.toNat_natCast]
    obtain ⟨y, hy⟩ := ParentForest.exists_ancestorAt (F := hT.forest) (a := b) (h := ca.nHeight)
      (by show ca.nHeight ≤ T.heightOf b; omega)
    obtain ⟨dy, hdy⟩ := BlockTree.get?_of_ancestorAt hT.toLinked hy hb
    have hyd : dy.nHeight = ca.nHeight := by
      rw [← BlockTree.heightOf_of_get? hdy]
      exact (ParentForest.height_of_ancestorAt hy).1
    rw [hy]
    obtain ⟨l, hl, hhc⟩ := lastCommonAncestorWalk_eq hT (min ca.nHeight cb.nHeight + 1) a y ca dy ha hdy hyd.symm (by omega)
    refine ⟨l, hl, (hhc.symm.of_ancestorAt_left ?_).symm⟩
    rw [show hT.forest.height a = ca.nHeight from hha]
    exact hy
  · rw [if_neg (by omega), if_neg (by omega)]
    exact lastCommonAncestorWalk_eq hT (min ca.nHeight cb.nHeight + 1) a b ca cb ha hb heq (by omega)
  · rw [if_pos hgt, if_neg (by omega), getAncestor_eq hT ha, if_pos (Int.natCast_nonneg _),
      Int.toNat_natCast]
    obtain ⟨x, hx⟩ := ParentForest.exists_ancestorAt (F := hT.forest) (a := a) (h := cb.nHeight)
      (by show cb.nHeight ≤ T.heightOf a; omega)
    obtain ⟨dx, hdx⟩ := BlockTree.get?_of_ancestorAt hT.toLinked hx ha
    have hxd : dx.nHeight = cb.nHeight := by
      rw [← BlockTree.heightOf_of_get? hdx]
      exact (ParentForest.height_of_ancestorAt hx).1
    rw [hx]
    obtain ⟨l, hl, hhc⟩ := lastCommonAncestorWalk_eq hT (min ca.nHeight cb.nHeight + 1) x b dx cb hdx hb hxd (by omega)
    refine ⟨l, hl, hhc.of_ancestorAt_left ?_⟩
    rw [show hT.forest.height b = cb.nHeight from hhb]
    exact hx

end LastCommonAncestor

/-! ## Every reachable active chain -/

/-- After any run of `SetTip` calls from an empty chain ending with `SetTip(p)`: `Height()` is
`p->nHeight`, `chain[h]` is `p->GetAncestor(h)`, `Contains` holds exactly of `p` and its
ancestors, `FindFork(q)` is the highest common ancestor of `q` and `p`, and
`LastCommonAncestor(a, b)` the highest common ancestor of `a` and `b`. -/
theorem setTip_chain_invariant {T : BlockTree} (hT : T.WellFormed)
    (calls : List (Option BlockPtr)) (hcalls : ∀ q, some q ∈ calls → ∃ b, T.get? q = some b)
    {p : BlockPtr} {b : CBlockIndex} (hp : T.get? p = some b) :
    let C := setTip T (calls.foldl (setTip T) ⟨[]⟩) (some p)
    C.height = b.nHeight ∧
    (∀ h : Int, 0 ≤ h → h ≤ b.nHeight → C.get h = getAncestor T p h) ∧
    (∀ q c, T.get? q = some c → (C.contains T q ↔ hT.forest.IsAncestor q p)) ∧
    (∀ q c, T.get? q = some c →
      ∃ f, findFork T C (some q) = some f ∧ hT.forest.IsHighestCommon f q p) ∧
    (∀ a₁ a₂ c₁ c₂, T.get? a₁ = some c₁ → T.get? a₂ = some c₂ →
      ∃ l, lastCommonAncestor T a₁ a₂ = some l ∧ hT.forest.IsHighestCommon l a₁ a₂) := by
  intro C
  have hC : C = ⟨chainOf hT p⟩ :=
    setTip_eq_chainOf (consistent_setTip_run calls hcalls ⟨[]⟩ consistent_nil) hp
  rw [hC]
  refine ⟨height_chainOf hp, fun h h0 _ => ?_, fun q _ _ => contains_chainOf_iff p q,
    fun q _ hq => findFork_chainOf hp hq, fun _ _ _ _ h₁ h₂ => lastCommonAncestor_eq hT h₁ h₂⟩
  rw [get_chainOf, if_pos h0, getAncestor_eq hT hp, if_pos h0]

/-- A block index entry with only its links and height set. -/
def linkedEntry (pprev : Option BlockPtr) (nHeight : Nat) : CBlockIndex :=
  { hashBlock := 0, pprev := pprev, pskip := none, nHeight := nHeight, nVersion := 0,
    nTime := 0, nBits := 0, nChainWork := 0, nChainWorkAlgo := 0, nTimeMax := 0 }

/-- The genesis block with two competing children. -/
def forkedTree : BlockTree := ⟨[linkedEntry none 0, linkedEntry (some 0) 1, linkedEntry (some 0) 1]⟩

theorem forkedTree_wellFormed : forkedTree.WellFormed where
  prev_height {p b q} hb hq := by
    rcases p with _ | _ | _ | p <;> simp [forkedTree, BlockTree.get?] at hb <;> subst hb <;>
      simp [linkedEntry] at hq <;> subst hq <;> exact ⟨_, rfl, rfl⟩
  root_height {p b} hb hpr := by
    rcases p with _ | _ | _ | p <;> simp [forkedTree, BlockTree.get?] at hb <;> subst hb <;>
      simp [linkedEntry] at hpr ⊢
  genesis_unique {p q b c} hb hc h0 h0' := by
    rcases p with _ | _ | _ | p <;> simp [forkedTree, BlockTree.get?] at hb <;> subst hb <;>
      rcases q with _ | _ | _ | q <;> simp [forkedTree, BlockTree.get?] at hc <;> subst hc <;>
      simp [linkedEntry] at h0 h0' ⊢
  skip {p b s} hb hs := by
    rcases p with _ | _ | _ | p <;> simp [forkedTree, BlockTree.get?] at hb <;> subst hb <;>
      simp [linkedEntry] at hs

/-- The chain switches from one child of the genesis block to the other. -/
theorem setTip_chain_invariant_reorg :
    let C := setTip forkedTree ([some 1].foldl (setTip forkedTree) ⟨[]⟩) (some 2)
    C.height = (linkedEntry (some 0) 1).nHeight ∧
    (∀ h : Int, 0 ≤ h → h ≤ (linkedEntry (some 0) 1).nHeight →
      C.get h = getAncestor forkedTree 2 h) ∧
    (∀ q c, forkedTree.get? q = some c →
      (C.contains forkedTree q ↔ forkedTree_wellFormed.forest.IsAncestor q 2)) ∧
    (∀ q c, forkedTree.get? q = some c → ∃ f, findFork forkedTree C (some q) = some f ∧
      forkedTree_wellFormed.forest.IsHighestCommon f q 2) ∧
    (∀ a₁ a₂ c₁ c₂, forkedTree.get? a₁ = some c₁ → forkedTree.get? a₂ = some c₂ →
      ∃ l, lastCommonAncestor forkedTree a₁ a₂ = some l ∧
        forkedTree_wellFormed.forest.IsHighestCommon l a₁ a₂) :=
  setTip_chain_invariant forkedTree_wellFormed [some 1]
    (fun q hq => by
      simp only [List.mem_singleton, Option.some.injEq] at hq
      subst hq
      exact ⟨_, rfl⟩)
    (rfl : forkedTree.get? 2 = some (linkedEntry (some 0) 1))

end Veles
