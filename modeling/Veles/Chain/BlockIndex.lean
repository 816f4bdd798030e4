import Veles.Arith.Uint256
import Veles.Lib.ParentForest

/-!
# The block index

Every header the node knows has a `CBlockIndex` (chain.h), linked to its parent by `pprev`
and to one older ancestor by the skip pointer `pskip`.  The entries live in an arena: a
`CBlockIndex*` is the place of its entry, and pointer equality is equality of places.  In a
well-formed tree the `pprev` links make a `ParentForest` with one root, the genesis block,
and every `pskip` is the ancestor at `GetSkipHeight(nHeight)` that `BuildSkip` set.

    getSkipHeight h < h                                      (getSkipHeight_lt, for 0 < h)
    getAncestor T p h = hT.forest.ancestorAt p h            (getAncestor_eq)
-/

namespace Veles

/-- A `CBlockIndex*`: the place of an entry in the arena of block index entries. -/
abbrev BlockPtr := Nat

/-- The fields of `CBlockIndex` that the modelled functions read or write; `hashBlock` is
`*phashBlock`, the key of the entry in `mapBlockIndex`. -/
structure CBlockIndex where
  hashBlock : Nat
  pprev : Option BlockPtr
  pskip : Option BlockPtr
  nHeight : Nat
  nVersion : Int32
  nTime : UInt32
  nBits : UInt32
  nChainWork : ArithUint256
  nChainWorkAlgo : ArithUint256
  nTimeMax : UInt32
  deriving DecidableEq

/-- The fields of `CBlockHeader` that the modelled functions read; `hash` stands for
`GetHash()`. -/
structure CBlockHeader where
  hash : Nat
  hashPrevBlock : Nat
  nVersion : Int32
  nTime : UInt32
  nBits : UInt32
  deriving DecidableEq

/-- `CBlockIndex::GetBlockTime()`: `nTime` as an `int64_t`. -/
def CBlockIndex.getBlockTime (b : CBlockIndex) : Int := b.nTime.toNat

/-- `CBlockHeader::GetBlockTime()`. -/
def CBlockHeader.getBlockTime (b : CBlockHeader) : Int := b.nTime.toNat

/-- The arena of block index entries, `mapBlockIndex`'s values. -/
structure BlockTree where
  entries : List CBlockIndex

namespace BlockTree

variable (T : BlockTree)

/-- `*p`. -/
def get? (p : BlockPtr) : Option CBlockIndex := T.entries[p]?

/-- `p->pprev`, or none for a pointer outside the arena. -/
def pprevOf (p : BlockPtr) : Option BlockPtr := (T.get? p).bind CBlockIndex.pprev

/-- `p->nHeight`, or `0` for a pointer outside the arena. -/
def heightOf (p : BlockPtr) : Nat := ((T.get? p).map CBlockIndex.nHeight).getD 0

/-- Parents exist and are one level lower; a block without a parent is at height 0. -/
structure Linked : Prop where
  prev_height : ∀ {p b q}, T.get? p = some b → b.pprev = some q →
    ∃ c, T.get? q = some c ∧ c.nHeight + 1 = b.nHeight
  root_height : ∀ {p b}, T.get? p = some b → b.pprev = none → b.nHeight = 0

variable {T}

theorem heightOf_of_get? {p : BlockPtr} {b : CBlockIndex} (h : T.get? p = some b) :
    T.heightOf p = b.nHeight := by
  simp [heightOf, h]

theorem pprevOf_of_get? {p : BlockPtr} {b : CBlockIndex} (h : T.get? p = some b) :
    T.pprevOf p = b.pprev := by
  simp [pprevOf, h]

/-- The `pprev` links of a linked arena, as a forest. -/
def forest (hT : T.Linked) : ParentForest BlockPtr where
  parent := T.pprevOf
  height := T.heightOf
  height_parent {p q} h := by
    cases hb : T.get? p with
    | none => simp [pprevOf, hb] at h
    | some b =>
      rw [pprevOf_of_get? hb] at h
      obtain ⟨c, hc, hcb⟩ := hT.prev_height hb h
      rw [heightOf_of_get? hb, heightOf_of_get? hc, hcb]
  height_root {p} h := by
    cases hb : T.get? p with
    | none => simp [heightOf, hb]
    | some b =>
      rw [pprevOf_of_get? hb] at h
      rw [heightOf_of_get? hb, hT.root_height hb h]

/-- Induction over the entries of a linked arena, parents first. -/
@[elab_as_elim]
theorem Linked.induction (hT : T.Linked) {motive : BlockPtr → CBlockIndex → Prop}
    (root : ∀ p b, T.get? p = some b → b.pprev = none → motive p b)
    (prev : ∀ p b q c, T.get? p = some b → b.pprev = some q → T.get? q = some c →
      c.nHeight + 1 = b.nHeight → motive q c → motive p b)
    {p : BlockPtr} {b : CBlockIndex} (hb : T.get? p = some b) : motive p b := by
  suffices h : ∀ n p b, T.get? p = some b → b.nHeight = n → motive p b from h b.nHeight p b hb rfl
  intro n
  induction n with
  | zero =>
    intro p b hb hh
    cases hq : b.pprev with
    | none => exact root p b hb hq
    | some q =>
      obtain ⟨c, -, hcb⟩ := hT.prev_height hb hq
      omega
  | succ n ih =>
    intro p b hb hh
    cases hq : b.pprev with
    | none => exact root p b hb hq
    | some q =>
      obtain ⟨c, hc, hcb⟩ := hT.prev_height hb hq
      exact prev p b q c hb hq hc hcb (ih q c hc (by omega))

end BlockTree

/-! ## Skip heights -/

/-- `InvertLowestOne(n)`: turn the lowest set bit of `n` into a zero. -/
def invertLowestOne (n : Nat) : Nat := n &&& (n - 1)

/-- `GetSkipHeight(height)`: the height `BuildSkip` points `pskip` at. -/
def getSkipHeight (height : Nat) : Nat :=
  if height < 2 then 0
  else if height % 2 = 1 then invertLowestOne (invertLowestOne (height - 1)) + 1
  else invertLowestOne height

theorem invertLowestOne_le (n : Nat) : invertLowestOne n ≤ n - 1 := Nat.and_le_right

theorem getSkipHeight_lt {height : Nat} (h : 0 < height) : getSkipHeight height < height := by
  unfold getSkipHeight
  have h1 := invertLowestOne_le (height - 1)
  have h2 := invertLowestOne_le (invertLowestOne (height - 1))
  have h3 := invertLowestOne_le height
  split_ifs <;> omega

namespace BlockTree

/-- A well-formed block tree: linked, with one genesis block, and every skip pointer the
ancestor at its skip height. -/
structure WellFormed (T : BlockTree) : Prop extends T.Linked where
  genesis_unique : ∀ {p q b c}, T.get? p = some b → T.get? q = some c →
    b.nHeight = 0 → c.nHeight = 0 → p = q
  skip : ∀ {p b s}, T.get? p = some b → b.pskip = some s →
    (T.forest ⟨prev_height, root_height⟩).ancestorAt p (getSkipHeight b.nHeight) = some s

/-- The forest of a well-formed tree. -/
abbrev WellFormed.forest {T : BlockTree} (hT : T.WellFormed) : ParentForest BlockPtr :=
  T.forest hT.toLinked

variable {T : BlockTree}

/-- The ancestors of a block in the arena are in the arena. -/
theorem get?_of_up (hT : T.Linked) {k : Nat} {p s : BlockPtr} (hs : (T.forest hT).up k p = some s)
    {b : CBlockIndex} (hb : T.get? p = some b) : ∃ c, T.get? s = some c := by
  induction k generalizing p b with
  | zero =>
    cases hs
    exact ⟨b, hb⟩
  | succ k ih =>
    simp only [ParentForest.up, forest, pprevOf_of_get? hb] at hs
    cases hq : b.pprev with
    | none => rw [hq] at hs; cases hs
    | some q =>
      rw [hq, Option.bind_some] at hs
      obtain ⟨c, hc, -⟩ := hT.prev_height hb hq
      exact ih hs hc

theorem get?_of_ancestorAt (hT : T.Linked) {h : Nat} {p s : BlockPtr}
    (hs : (T.forest hT).ancestorAt p h = some s) {b : CBlockIndex} (hb : T.get? p = some b) :
    ∃ c, T.get? s = some c := by
  unfold ParentForest.ancestorAt at hs
  split at hs
  · exact get?_of_up hT hs hb
  · cases hs

end BlockTree

/-! ## `GetAncestor` -/

/-- The loop of `CBlockIndex::GetAncestor(height)` from `pindexWalk` at `heightWalk`: follow
`pskip` when it does not overshoot `height` and `pprev->pskip` is no better, else `pprev`.
`none` where the code would fail `assert(pindexWalk->pprev)` or leave the arena. -/
def getAncestorWalk (T : BlockTree) (height : Nat) : Nat → BlockPtr → Nat → Option BlockPtr
  | 0, _, _ => none
  | fuel + 1, pindexWalk, heightWalk =>
    if heightWalk > height then
      let heightSkip := getSkipHeight heightWalk
      let heightSkipPrev := getSkipHeight (heightWalk - 1)
      match T.get? pindexWalk with
      | none => none
      | some b =>
        match b.pskip, decide (heightSkip = height ∨ (heightSkip > height ∧
            ¬((heightSkipPrev : Int) < (heightSkip : Int) - 2 ∧ heightSkipPrev ≥ height))) with
        | some pskip, true => getAncestorWalk T height fuel pskip heightSkip
        | _, _ =>
          match b.pprev with
          | some pprev => getAncestorWalk T height fuel pprev (heightWalk - 1)
          | none => none
    else some pindexWalk

/-- `p->GetAncestor(height)`: every pass lowers `heightWalk`, so `nHeight + 1` passes
suffice. -/
def getAncestor (T : BlockTree) (p : BlockPtr) (height : Int) : Option BlockPtr :=
  match T.get? p with
  | none => none
  | some b =>
    if height > b.nHeight ∨ height < 0 then none
    else getAncestorWalk T height.toNat (b.nHeight + 1) p b.nHeight

section GetAncestor

variable {T : BlockTree} (hT : T.WellFormed)
include hT

/-- A block of the tree is its own ancestor at its height. -/
theorem ancestorAt_self {p : BlockPtr} {b : CBlockIndex} (hp : T.get? p = some b) :
    hT.forest.ancestorAt p b.nHeight = some p := by
  have := ParentForest.ancestorAt_height (F := hT.forest) p
  rwa [show hT.forest.height p = b.nHeight from BlockTree.heightOf_of_get? hp] at this

/-- Every pass of the walk stays on the ancestors of where it started, at its own height:
`pskip` is the ancestor at the skip height, which the test keeps at or above `height`,
and `pprev` the one just below. -/
theorem getAncestorWalk_eq {height : Nat} (fuel : Nat) :
    ∀ w b, T.get? w = some b → height ≤ b.nHeight → b.nHeight - height < fuel →
      getAncestorWalk T height fuel w b.nHeight = hT.forest.ancestorAt w height := by
  induction fuel with
  | zero => intro w b hb hle hlt; omega
  | succ fuel ih =>
    intro w b hb hle hlt
    have hhw : hT.forest.height w = b.nHeight := BlockTree.heightOf_of_get? hb
    rw [getAncestorWalk]
    by_cases hgt : b.nHeight > height
    · rw [if_pos hgt]
      simp only [hb]
      split
      · next s hs hcond =>
        have hsk := hT.skip hb hs
        obtain ⟨c, hc⟩ := BlockTree.get?_of_ancestorAt hT.toLinked hsk hb
        have hcs : c.nHeight = getSkipHeight b.nHeight := by
          rw [← BlockTree.heightOf_of_get? hc]
          exact (ParentForest.height_of_ancestorAt hsk).1
        have hge : height ≤ getSkipHeight b.nHeight := by
          simp only [decide_eq_true_eq] at hcond
          omega
        have hskip := getSkipHeight_lt (show 0 < b.nHeight by omega)
        rw [← hcs, ih s c hc (by omega) (by omega)]
        exact ParentForest.ancestorAt_of_ancestorAt hsk hge
      · split
        · next q hq =>
          obtain ⟨c, hc, hcb⟩ := hT.prev_height hb hq
          have hpq : hT.forest.parent w = some q := by
            show T.pprevOf w = some q
            rw [BlockTree.pprevOf_of_get? hb, hq]
          have h1 : height ≤ c.nHeight := by omega
          have h2 : c.nHeight - height < fuel := by omega
          rw [show b.nHeight - 1 = c.nHeight by omega, ih q c hc h1 h2]
          exact (ParentForest.ancestorAt_of_parent hpq (by omega)).symm
        · next hq =>
          have := hT.root_height hb hq
          omega
    · rw [if_neg hgt]
      have hw := ParentForest.ancestorAt_height (F := hT.forest) w
      rw [show hT.forest.height w = height by omega] at hw
      exact hw.symm

/-- `GetAncestor` finds the ancestor at every height from 0 to `nHeight`, and nothing
outside that range. -/
theorem getAncestor_eq {p : BlockPtr} {b : CBlockIndex} (hb : T.get? p = some b) (height : Int) :
    getAncestor T p height =
      if 0 ≤ height then hT.forest.ancestorAt p height.toNat else none := by
  simp only [getAncestor, hb]
  by_cases hh : height > b.nHeight ∨ height < 0
  · rw [if_pos hh]
    split_ifs with h0
    · have hlt : T.heightOf p < height.toNat := by
        rw [BlockTree.heightOf_of_get? hb]
        omega
      exact (ParentForest.ancestorAt_eq_none hlt).symm
    · rfl
  · rw [if_neg hh, if_pos (by omega)]
    exact getAncestorWalk_eq hT _ p b hb (by omega) (by omega)

/-- `k` parent links up the forest are `k` steps along `pprev`. -/
theorem iterate_bind_pprevOf (k : Nat) :
    ∀ o : Option BlockPtr, (fun o => o.bind T.pprevOf)^[k] o = o.bind (hT.forest.up k) := by
  induction k with
  | zero => intro o; cases o <;> rfl
  | succ k ih =>
    intro o
    rw [Function.iterate_succ_apply, ih, Option.bind_assoc]
    rfl

/-- Two blocks of a well-formed tree share their root, the genesis block. -/
theorem ancestorAt_zero_eq {p q : BlockPtr} {b c : CBlockIndex} (hb : T.get? p = some b)
    (hc : T.get? q = some c) : hT.forest.ancestorAt p 0 = hT.forest.ancestorAt q 0 := by
  obtain ⟨gp, hgp⟩ := ParentForest.exists_ancestorAt (F := hT.forest) (a := p) (Nat.zero_le _)
  obtain ⟨gq, hgq⟩ := ParentForest.exists_ancestorAt (F := hT.forest) (a := q) (Nat.zero_le _)
  obtain ⟨bp, hbp⟩ := BlockTree.get?_of_ancestorAt hT.toLinked hgp hb
  obtain ⟨bq, hbq⟩ := BlockTree.get?_of_ancestorAt hT.toLinked hgq hc
  have h0p : bp.nHeight = 0 := by
    rw [← BlockTree.heightOf_of_get? hbp]
    exact (ParentForest.height_of_ancestorAt hgp).1
  have h0q : bq.nHeight = 0 := by
    rw [← BlockTree.heightOf_of_get? hbq]
    exact (ParentForest.height_of_ancestorAt hgq).1
  rw [hgp, hgq, hT.genesis_unique hbp hbq h0p h0q]

/-- A block of a well-formed tree above the genesis block has its parent in the tree. -/
theorem exists_pprev {p : BlockPtr} {b : CBlockIndex} (hb : T.get? p = some b)
    (h : 0 < b.nHeight) : ∃ q c, hT.forest.parent p = some q ∧ T.get? q = some c ∧
      c.nHeight + 1 = b.nHeight := by
  cases hq : b.pprev with
  | none =>
    have := hT.root_height hb hq
    omega
  | some q =>
    obtain ⟨c, hc, hcb⟩ := hT.prev_height hb hq
    refine ⟨q, c, ?_, hc, hcb⟩
    show T.pprevOf p = some q
    rw [BlockTree.pprevOf_of_get? hb, hq]

end GetAncestor

end Veles
