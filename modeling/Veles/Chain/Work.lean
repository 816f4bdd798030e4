import Veles.Arith.Compact
import Veles.Chain.BlockIndex

/-!
# Chain work

Three fields of `CBlockIndex` live only in memory: `nChainWork`, the work of the block and
all its ancestors; `nChainWorkAlgo`, the work of the block plus that of the nearest
earlier block mined with the same algorithm (the genesis block when there is none); and
`nTimeMax`, the latest `nTime` down to the genesis block.  Both `AddToBlockIndex` and
`LoadBlockIndex` compute them from the parent with the same statements (`linkWork`).

The values they must take are stated along the `pprev` links, with fuel that the heights
bound (`chainWorkSpec`, `chainWorkAlgoSpec`, `timeMaxSpec`), over the tree as the block tree
database stores it (`BlockTree.reload`), and then in terms of the ancestors themselves
(`FieldsOfAncestors`):

    chainWorkSpec T (h + 1) p = sum of GetBlockProof over the path to p     (chainWorkSpec_eq_sum)
    algoWalk stops at the nearest ancestor with the algorithm, or genesis   (algoWalk_spec)
    linkWork T e = the specs at e, given correct entries below e            (linkWork_correct)
-/

namespace Veles

/-- `ALGO_VERSION_MASK`: the bits of `nVersion` that name the mining algorithm. -/
def ALGO_VERSION_MASK : Int32 := (255 : Int32) <<< 8

/-- `GetBlockProof(block)`: `2^256 / (target + 1)`, computed as `~target / (target + 1) + 1`;
no work for a negative, overflowing or zero target.  The divisor is never zero
(`getBlockProof_div_ok`), so `operator/` never throws here. -/
def getBlockProof (block : CBlockIndex) : ArithUint256 :=
  let bnTarget := setCompact block.nBits
  if bnTarget.fNegative || bnTarget.fOverflow || bnTarget.value == 0 then 0
  else ~~~bnTarget.value / (bnTarget.value + 1) + 1

/-- A target `SetCompact` decodes is never `2^256 - 1`: below size 3 it has at most 23 bits,
and above it its low byte is zero. -/
theorem setCompact_value_add_one_ne_zero (n : UInt32) : (setCompact n).value + 1 ≠ 0 := by
  intro h
  have hmax : (setCompact n).value.toNat = 2 ^ 256 - 1 := by
    rw [eq_sub_of_add_eq h]
    simp
  have hv := setCompact_value_toNat n
  have hw := cWord_le n
  have hm := cMantissa_lt n
  by_cases hs : cSize n ≤ 3
  · rw [show cSize n - 3 = 0 by omega, pow_zero, Nat.mul_one,
      Nat.mod_eq_of_lt (by omega : cWord n < 2 ^ 256)] at hv
    omega
  · have heven : cWord n * 256 ^ (cSize n - 3) % 2 ^ 256 % 2 = 0 := by
      rw [Nat.mod_mod_of_dvd _ (by norm_num : 2 ∣ 2 ^ 256)]
      obtain ⟨j, hj⟩ : ∃ j, cSize n - 3 = j + 1 := ⟨cSize n - 4, by omega⟩
      rw [hj]
      exact Nat.mod_eq_zero_of_dvd ⟨cWord n * 256 ^ j * 128, by ring⟩
    rw [← hv, hmax] at heven
    omega

/-- The division in `GetBlockProof` never throws `Division by zero`. -/
theorem getBlockProof_div_ok (block : CBlockIndex) :
    ArithUint256.div (~~~(setCompact block.nBits).value) ((setCompact block.nBits).value + 1) =
      .ok (~~~(setCompact block.nBits).value / ((setCompact block.nBits).value + 1)) :=
  ArithUint256.div_ok (setCompact_value_add_one_ne_zero block.nBits)

/-- `2^256 / d` is one more than `(2^256 - d) / d`: what lets `GetBlockProof` compute it in
256 bits as `~t / (t + 1) + 1`. -/
theorem div_eq_sub_div_add_one {N d : Nat} (hd : 0 < d) (hdN : d ≤ N) :
    (N - d) / d + 1 = N / d := by
  have hsplit : N = (N - d) + d := by omega
  conv_rhs => rw [hsplit, Nat.add_div_right _ hd]

/-- For a positive target `t` that is neither negative nor overflowing, `GetBlockProof` is
`2^256 / (t + 1)`: neither `t + 1` nor `~t / (t + 1) + 1` wraps, and the division does not
throw.  For every other `nBits` it is 0. -/
theorem getBlockProof_toNat (block : CBlockIndex) :
    let t := setCompact block.nBits
    (t.fNegative = false → t.fOverflow = false → t.value ≠ 0 →
      (t.value + 1).toNat = t.value.toNat + 1 ∧
      ArithUint256.div (~~~t.value) (t.value + 1) = .ok (~~~t.value / (t.value + 1)) ∧
      (~~~t.value / (t.value + 1) + 1).toNat = (~~~t.value / (t.value + 1)).toNat + 1 ∧
      (getBlockProof block).toNat = 2 ^ 256 / (t.value.toNat + 1)) ∧
    (t.fNegative = true ∨ t.fOverflow = true ∨ t.value = 0 → getBlockProof block = 0) := by
  intro t
  have hne := setCompact_value_add_one_ne_zero block.nBits
  have hv := t.value.isLt
  have hone : (1 : ArithUint256).toNat = 1 := rfl
  -- `t + 1` would wrap only at `t = 2^256 - 1`, which `SetCompact` never gives
  have hlt : t.value.toNat + 1 < 2 ^ 256 := by
    by_contra hge
    apply hne
    rw [BitVec.toNat_eq, BitVec.toNat_add, hone,
      show t.value.toNat + 1 = 2 ^ 256 by omega, Nat.mod_self]
    rfl
  have h1 : (t.value + 1).toNat = t.value.toNat + 1 := by
    rw [BitVec.toNat_add, hone, Nat.mod_eq_of_lt hlt]
  refine ⟨fun hn ho hz => ?_, fun h => ?_⟩
  · have hpos : 0 < t.value.toNat := by
      rcases Nat.eq_zero_or_pos t.value.toNat with h0 | h0
      · exact absurd (BitVec.toNat_eq.mpr (by rw [h0]; rfl)) hz
      · exact h0
    have hq : (~~~t.value / (t.value + 1)).toNat = (2 ^ 256 - 1 - t.value.toNat) / (t.value.toNat + 1) := by
      rw [BitVec.toNat_udiv, BitVec.toNat_not, h1]
    -- the quotient is at most `2^256 - 2`, so adding one does not wrap
    have hqlt : (~~~t.value / (t.value + 1)).toNat + 1 < 2 ^ 256 := by
      rw [hq]
      have := Nat.div_le_self (2 ^ 256 - 1 - t.value.toNat) (t.value.toNat + 1)
      omega
    have h2 : (~~~t.value / (t.value + 1) + 1).toNat = (~~~t.value / (t.value + 1)).toNat + 1 := by
      rw [BitVec.toNat_add, hone, Nat.mod_eq_of_lt hqlt]
    have hproof : getBlockProof block = ~~~t.value / (t.value + 1) + 1 := by
      have hz' : (setCompact block.nBits).value ≠ 0#256 := hz
      simp [getBlockProof, t, hn, ho, hz']
    refine ⟨h1, ArithUint256.div_ok hne, h2, ?_⟩
    rw [hproof, h2, hq, show 2 ^ 256 - 1 - t.value.toNat = 2 ^ 256 - (t.value.toNat + 1) by omega,
      div_eq_sub_div_add_one (Nat.succ_pos _) hlt.le]
  · rcases h with h | h | h <;> simp [getBlockProof, t, h]

theorem getBlockProof_difficulty_one :
    let block : CBlockIndex :=
      { hashBlock := 0, pprev := none, pskip := none, nHeight := 0, nVersion := 0, nTime := 0,
        nBits := 0x1d00ffff, nChainWork := 0, nChainWorkAlgo := 0, nTimeMax := 0 }
    (getBlockProof block).toNat = 2 ^ 256 / ((setCompact 0x1d00ffff).value.toNat + 1) := by
  intro block
  exact ((getBlockProof_toNat block).1 (by decide) (by decide) (by decide)).2.2.2

namespace BlockTree

/-- `*p` for a pointer into the arena. -/
def deref (T : BlockTree) (p : BlockPtr) : CBlockIndex := (T.get? p).getD
  { hashBlock := 0, pprev := none, pskip := none, nHeight := 0, nVersion := 0, nTime := 0,
    nBits := 0, nChainWork := 0, nChainWorkAlgo := 0, nTimeMax := 0 }

end BlockTree

/-- The loop `while (pindexAlgo->pprev && nAlgo != (pindexAlgo->nVersion & ALGO_VERSION_MASK))
pindexAlgo = pindexAlgo->pprev`: the nearest block from `pindexAlgo` down mined with
`nAlgo`, or the genesis block. -/
def algoWalk (T : BlockTree) (nAlgo : Int32) : Nat → BlockPtr → BlockPtr
  | 0, pindexAlgo => pindexAlgo
  | fuel + 1, pindexAlgo =>
    match T.get? pindexAlgo with
    | none => pindexAlgo
    | some b =>
      match b.pprev with
      | some pprev =>
        if nAlgo ≠ b.nVersion &&& ALGO_VERSION_MASK then algoWalk T nAlgo fuel pprev
        else pindexAlgo
      | none => pindexAlgo

/-- The memory-only fields that `AddToBlockIndex` and `LoadBlockIndex` both compute for
`pindex` from its parent.  The genesis block has no parent, and its `pindexAlgo` is the
block itself. -/
def linkWork (T : BlockTree) (pindex : CBlockIndex) : CBlockIndex :=
  let nAlgo := pindex.nVersion &&& ALGO_VERSION_MASK
  match pindex.pprev with
  | none =>
    { pindex with
      nChainWork := 0 + getBlockProof pindex
      nChainWorkAlgo := pindex.nChainWorkAlgo + getBlockProof pindex
      nTimeMax := pindex.nTime }
  | some pprev =>
    let pindexAlgo := algoWalk T nAlgo (T.heightOf pprev + 1) pprev
    { pindex with
      nChainWork := (T.deref pprev).nChainWork + getBlockProof pindex
      nChainWorkAlgo := (T.deref pindexAlgo).nChainWorkAlgo + getBlockProof pindex
      nTimeMax := max (T.deref pprev).nTimeMax pindex.nTime }

/-! ## The values the fields must take -/

/-- The sum of `GetBlockProof` over `p` and its ancestors, modulo `2^256`. -/
def chainWorkSpec (T : BlockTree) : Nat → BlockPtr → ArithUint256
  | 0, _ => 0
  | fuel + 1, p =>
    match T.get? p with
    | none => 0
    | some b =>
      match b.pprev with
      | none => getBlockProof b
      | some q => chainWorkSpec T fuel q + getBlockProof b

/-- `GetBlockProof(p)` plus the algorithm work of the nearest strict ancestor of `p` mined
with the same algorithm, or of the genesis block if there is none. -/
def chainWorkAlgoSpec (T : BlockTree) : Nat → BlockPtr → ArithUint256
  | 0, _ => 0
  | fuel + 1, p =>
    match T.get? p with
    | none => 0
    | some b =>
      match b.pprev with
      | none => getBlockProof b
      | some q =>
        chainWorkAlgoSpec T fuel (algoWalk T (b.nVersion &&& ALGO_VERSION_MASK) (T.heightOf q + 1) q) +
          getBlockProof b

/-- The latest `nTime` of `p` and its ancestors. -/
def timeMaxSpec (T : BlockTree) : Nat → BlockPtr → UInt32
  | 0, _ => 0
  | fuel + 1, p =>
    match T.get? p with
    | none => 0
    | some b =>
      match b.pprev with
      | none => b.nTime
      | some q => max (timeMaxSpec T fuel q) b.nTime

/-! ## The stored tree -/

/-- What survives a restart of an entry: the block tree database stores everything but the
memory-only fields and the skip pointer, which `InsertBlockIndex` creates at their
defaults. -/
def CBlockIndex.reload (b : CBlockIndex) : CBlockIndex :=
  { b with pskip := none, nChainWork := 0, nChainWorkAlgo := 0, nTimeMax := 0 }

namespace CBlockIndex

variable (b : CBlockIndex)

@[simp] theorem reload_pprev : b.reload.pprev = b.pprev := rfl
@[simp] theorem reload_nHeight : b.reload.nHeight = b.nHeight := rfl
@[simp] theorem reload_nVersion : b.reload.nVersion = b.nVersion := rfl
@[simp] theorem reload_nTime : b.reload.nTime = b.nTime := rfl

end CBlockIndex

/-- The arena as a restart reloads it. -/
def BlockTree.reload (T : BlockTree) : BlockTree := ⟨T.entries.map CBlockIndex.reload⟩

/-- The memory-only fields of the entry at `p` of `T` hold the values that the stored
tree `R` determines. -/
def WorkCorrectIn (R T : BlockTree) (p : BlockPtr) : Prop :=
  ∀ b, T.get? p = some b →
    b.nChainWork = chainWorkSpec R (b.nHeight + 1) p ∧
    b.nChainWorkAlgo = chainWorkAlgoSpec R (b.nHeight + 1) p ∧
    b.nTimeMax = timeMaxSpec R (b.nHeight + 1) p

/-- An entry's memory-only fields hold the values its stored ancestors determine. -/
def WorkCorrectAt (T : BlockTree) (p : BlockPtr) : Prop := WorkCorrectIn T.reload T p

namespace BlockTree

variable {T : BlockTree}

@[simp] theorem get?_reload (p : BlockPtr) : T.reload.get? p = (T.get? p).map CBlockIndex.reload := by
  simp [reload, get?]

@[simp] theorem heightOf_reload (p : BlockPtr) : T.reload.heightOf p = T.heightOf p := by
  simp only [heightOf, get?_reload, Option.map_map]
  rfl

theorem reload_linked (hT : T.Linked) : T.reload.Linked where
  prev_height {p b q} hb hq := by
    rw [get?_reload] at hb
    obtain ⟨b₀, hb₀, rfl⟩ := Option.map_eq_some_iff.mp hb
    obtain ⟨c, hc, hcb⟩ := hT.prev_height (b := b₀) hb₀ hq
    exact ⟨c.reload, by rw [get?_reload, hc]; rfl, hcb⟩
  root_height {p b} hb hq := by
    rw [get?_reload] at hb
    obtain ⟨b₀, hb₀, rfl⟩ := Option.map_eq_some_iff.mp hb
    exact hT.root_height (b := b₀) hb₀ hq

end BlockTree

@[simp] theorem getBlockProof_reload (b : CBlockIndex) : getBlockProof b.reload = getBlockProof b := rfl

theorem algoWalk_reload (T : BlockTree) (nAlgo : Int32) (fuel : Nat) (p : BlockPtr) :
    algoWalk T.reload nAlgo fuel p = algoWalk T nAlgo fuel p := by
  induction fuel generalizing p with
  | zero => rfl
  | succ fuel ih =>
    simp only [algoWalk, BlockTree.get?_reload]
    cases T.get? p with
    | none => rfl
    | some b =>
      simp only [Option.map_some, CBlockIndex.reload]
      cases b.pprev with
      | none => rfl
      | some q => simp only [ih]

section LinkWork

variable (T : BlockTree) (pindex : CBlockIndex)

@[simp] theorem linkWork_pprev : (linkWork T pindex).pprev = pindex.pprev := by
  unfold linkWork; split <;> rfl

@[simp] theorem linkWork_nHeight : (linkWork T pindex).nHeight = pindex.nHeight := by
  unfold linkWork; split <;> rfl

@[simp] theorem linkWork_pskip : (linkWork T pindex).pskip = pindex.pskip := by
  unfold linkWork; split <;> rfl

@[simp] theorem linkWork_hashBlock : (linkWork T pindex).hashBlock = pindex.hashBlock := by
  unfold linkWork; split <;> rfl

@[simp] theorem linkWork_reload : (linkWork T pindex).reload = pindex.reload := by
  unfold linkWork; split <;> rfl

theorem linkWork_of_root (h : pindex.pprev = none) :
    (linkWork T pindex).nChainWork = 0 + getBlockProof pindex ∧
    (linkWork T pindex).nChainWorkAlgo = pindex.nChainWorkAlgo + getBlockProof pindex ∧
    (linkWork T pindex).nTimeMax = pindex.nTime := by
  simp [linkWork, h]

theorem linkWork_of_prev {q : BlockPtr} (h : pindex.pprev = some q) :
    (linkWork T pindex).nChainWork = (T.deref q).nChainWork + getBlockProof pindex ∧
    (linkWork T pindex).nChainWorkAlgo =
      (T.deref (algoWalk T (pindex.nVersion &&& ALGO_VERSION_MASK) (T.heightOf q + 1) q)).nChainWorkAlgo +
        getBlockProof pindex ∧
    (linkWork T pindex).nTimeMax = max (T.deref q).nTimeMax pindex.nTime := by
  simp [linkWork, h]

end LinkWork

/-! ## Unfolding the specs -/

section Unfold

variable {T : BlockTree} {fuel : Nat} {p : BlockPtr} {b : CBlockIndex}

theorem chainWorkSpec_root (hb : T.get? p = some b) (hr : b.pprev = none) :
    chainWorkSpec T (fuel + 1) p = getBlockProof b := by
  simp [chainWorkSpec, hb, hr]

theorem chainWorkSpec_prev (hb : T.get? p = some b) {q : BlockPtr} (hq : b.pprev = some q) :
    chainWorkSpec T (fuel + 1) p = chainWorkSpec T fuel q + getBlockProof b := by
  simp [chainWorkSpec, hb, hq]

theorem chainWorkAlgoSpec_root (hb : T.get? p = some b) (hr : b.pprev = none) :
    chainWorkAlgoSpec T (fuel + 1) p = getBlockProof b := by
  simp [chainWorkAlgoSpec, hb, hr]

theorem chainWorkAlgoSpec_prev (hb : T.get? p = some b) {q : BlockPtr} (hq : b.pprev = some q) :
    chainWorkAlgoSpec T (fuel + 1) p =
      chainWorkAlgoSpec T fuel (algoWalk T (b.nVersion &&& ALGO_VERSION_MASK) (T.heightOf q + 1) q) +
        getBlockProof b := by
  simp [chainWorkAlgoSpec, hb, hq]

theorem timeMaxSpec_root (hb : T.get? p = some b) (hr : b.pprev = none) :
    timeMaxSpec T (fuel + 1) p = b.nTime := by
  simp [timeMaxSpec, hb, hr]

theorem timeMaxSpec_prev (hb : T.get? p = some b) {q : BlockPtr} (hq : b.pprev = some q) :
    timeMaxSpec T (fuel + 1) p = max (timeMaxSpec T fuel q) b.nTime := by
  simp [timeMaxSpec, hb, hq]

end Unfold

/-! ## The algorithm walk -/

section AlgoWalk

theorem BlockTree.deref_of_get? {T : BlockTree} {p : BlockPtr} {b : CBlockIndex}
    (hb : T.get? p = some b) : T.deref p = b := by
  simp [BlockTree.deref, hb]

variable {T : BlockTree} (hT : T.Linked)
include hT

theorem heightOf_algoWalk_le (nAlgo : Int32) (fuel : Nat) :
    ∀ p, T.heightOf (algoWalk T nAlgo fuel p) ≤ T.heightOf p := by
  induction fuel with
  | zero => intro p; exact Nat.le_refl _
  | succ fuel ih =>
    intro p
    cases hb : T.get? p with
    | none => simp only [algoWalk, hb, Nat.le_refl]
    | some b =>
      cases hq : b.pprev with
      | none => simp only [algoWalk, hb, hq, Nat.le_refl]
      | some q =>
        simp only [algoWalk, hb, hq]
        split
        · obtain ⟨c, hc, hcb⟩ := hT.prev_height hb hq
          have := ih q
          rw [BlockTree.heightOf_of_get? hb]
          rw [BlockTree.heightOf_of_get? hc] at this
          omega
        · exact Nat.le_refl _

/-- `algoWalk` stops at the nearest ancestor of where it starts that is mined with `nAlgo`,
or at the genesis block if there is none. -/
theorem algoWalk_spec (nAlgo : Int32) (fuel : Nat) : ∀ p b, T.get? p = some b →
    T.heightOf p < fuel →
      (T.forest hT).IsNearest (fun d => (T.deref d).nVersion &&& ALGO_VERSION_MASK = nAlgo)
        (algoWalk T nAlgo fuel p) p := by
  induction fuel with
  | zero => intro p b hb hlt; omega
  | succ fuel ih =>
    intro p b hb hlt
    have hstop : ((T.forest hT).parent p = none ∨
        (T.deref p).nVersion &&& ALGO_VERSION_MASK = nAlgo) →
        (T.forest hT).IsNearest (fun d => (T.deref d).nVersion &&& ALGO_VERSION_MASK = nAlgo) p p := by
      intro h
      refine ⟨ParentForest.IsAncestor.refl p, h, fun d hdp hpd hne => ?_⟩
      exact absurd (hdp.antisymm hpd) hne
    have hpq : (T.forest hT).parent p = b.pprev := BlockTree.pprevOf_of_get? hb
    simp only [algoWalk, hb]
    cases hq : b.pprev with
    | none =>
      apply hstop
      left
      rw [hpq, hq]
    | some q =>
      simp only
      split
      · next hne =>
        obtain ⟨c, hc, hcb⟩ := hT.prev_height hb hq
        rw [hq] at hpq
        obtain ⟨hanc, hend, hbetween⟩ := ih q c hc (by
          rw [BlockTree.heightOf_of_get? hb] at hlt
          rw [BlockTree.heightOf_of_get? hc]
          omega)
        refine ⟨hanc.of_parent hpq, hend, fun d hdp hrd hne' => ?_⟩
        rcases (ParentForest.isAncestor_iff).mp hdp with rfl | ⟨q', hq', hdq⟩
        · rw [BlockTree.deref_of_get? hb]
          exact fun h => hne h.symm
        · rw [hpq, Option.some.injEq] at hq'
          subst hq'
          exact hbetween d hdq hrd hne'
      · next heq =>
        apply hstop
        right
        rw [BlockTree.deref_of_get? hb]
        exact (not_not.mp heq).symm

/-- Every block the walk reaches from an entry is an entry. -/
theorem exists_get?_algoWalk (nAlgo : Int32) (fuel : Nat) :
    ∀ p b, T.get? p = some b → ∃ d, T.get? (algoWalk T nAlgo fuel p) = some d := by
  induction fuel with
  | zero => intro p b hb; exact ⟨b, hb⟩
  | succ fuel ih =>
    intro p b hb
    cases hq : b.pprev with
    | none => simp only [algoWalk, hb, hq]; exact ⟨b, rfl⟩
    | some q =>
      simp only [algoWalk, hb, hq]
      split
      · obtain ⟨c, hc, -⟩ := hT.prev_height hb hq
        exact ih q c hc
      · exact ⟨b, hb⟩

/-- A walk from below height `n` reads only entries below `n`, so an arena that agrees with
`T` there walks alike. -/
theorem algoWalk_congr {S : BlockTree} {n : Nat} (h : ∀ q, T.heightOf q < n → S.get? q = T.get? q)
    (nAlgo : Int32) (fuel : Nat) :
    ∀ p, T.heightOf p < n → algoWalk S nAlgo fuel p = algoWalk T nAlgo fuel p := by
  induction fuel with
  | zero => intro p _; rfl
  | succ fuel ih =>
    intro p hp
    cases hb : T.get? p with
    | none => simp only [algoWalk, h p hp, hb]
    | some b =>
      cases hq : b.pprev with
      | none => simp only [algoWalk, h p hp, hb, hq]
      | some q =>
        obtain ⟨c, hc, hcb⟩ := hT.prev_height hb hq
        have hqn : T.heightOf q < n := by
          rw [BlockTree.heightOf_of_get? hb] at hp
          rw [BlockTree.heightOf_of_get? hc]
          omega
        simp only [algoWalk, h p hp, hb, hq, ih q hqn]

/-- The algorithm work spec does not depend on the fuel, once it exceeds the height. -/
theorem chainWorkAlgoSpec_fuel (fuel : Nat) : ∀ fuel' p, T.heightOf p < fuel →
    T.heightOf p < fuel' → chainWorkAlgoSpec T fuel p = chainWorkAlgoSpec T fuel' p := by
  induction fuel with
  | zero => intro fuel' p h; omega
  | succ fuel ih =>
    intro fuel' p h h'
    obtain ⟨f', rfl⟩ : ∃ f', fuel' = f' + 1 := ⟨fuel' - 1, by omega⟩
    cases hb : T.get? p with
    | none => simp [chainWorkAlgoSpec, hb]
    | some b =>
      cases hq : b.pprev with
      | none => rw [chainWorkAlgoSpec_root hb hq, chainWorkAlgoSpec_root hb hq]
      | some q =>
        rw [chainWorkAlgoSpec_prev hb hq, chainWorkAlgoSpec_prev hb hq]
        obtain ⟨c, hc, hcb⟩ := hT.prev_height hb hq
        have hr := heightOf_algoWalk_le hT (b.nVersion &&& ALGO_VERSION_MASK) (T.heightOf q + 1) q
        have hqc : T.heightOf q = c.nHeight := BlockTree.heightOf_of_get? hc
        rw [BlockTree.heightOf_of_get? hb] at h h'
        rw [ih f' (algoWalk T (b.nVersion &&& ALGO_VERSION_MASK) (T.heightOf q + 1) q)
          (by omega) (by omega)]

end AlgoWalk

/-! ## `linkWork` computes the specs -/

section LinkWorkCorrect

variable {T R : BlockTree} (hR : R.Linked) {p : BlockPtr} {e : CBlockIndex}
  (hp : R.get? p = some e.reload)
  (hagree : ∀ q, R.heightOf q < e.nHeight → T.reload.get? q = R.get? q)
  (hcorrect : ∀ q, R.heightOf q < e.nHeight → WorkCorrectIn R T q)
include hR hp hagree hcorrect

/-- The entry at `p` of the stored tree `R` gets the fields `R` determines from `linkWork`
over an arena `T` that stores what `R` does below `p`'s height with correct fields, given
that a genesis entry starts with no algorithm work.  `AddToBlockIndex` and `LoadBlockIndex`
both compute the fields this way. -/
theorem linkWork_correct (hroot : e.pprev = none → e.nChainWorkAlgo = 0) :
    (linkWork T e).nChainWork = chainWorkSpec R (e.nHeight + 1) p ∧
    (linkWork T e).nChainWorkAlgo = chainWorkAlgoSpec R (e.nHeight + 1) p ∧
    (linkWork T e).nTimeMax = timeMaxSpec R (e.nHeight + 1) p := by
  cases hq : e.pprev with
  | none =>
    have hr : e.reload.pprev = none := hq
    obtain ⟨h1, h2, h3⟩ := linkWork_of_root T e hq
    refine ⟨?_, ?_, ?_⟩
    · rw [h1, chainWorkSpec_root hp hr, getBlockProof_reload, zero_add]
    · rw [h2, hroot hq, chainWorkAlgoSpec_root hp hr, getBlockProof_reload, zero_add]
    · rw [h3, timeMaxSpec_root hp hr, CBlockIndex.reload_nTime]
  | some q =>
    have hr : e.reload.pprev = some q := hq
    -- the parent, as `R` and as `T` hold it
    obtain ⟨c, hc, hce⟩ := hR.prev_height hp hr
    rw [CBlockIndex.reload_nHeight] at hce
    have hqn : R.heightOf q < e.nHeight := by rw [BlockTree.heightOf_of_get? hc]; omega
    have hTq : T.reload.get? q = some c := (hagree q hqn).trans hc
    rw [BlockTree.get?_reload] at hTq
    obtain ⟨c₀, hc₀, rfl⟩ := Option.map_eq_some_iff.mp hTq
    rw [CBlockIndex.reload_nHeight] at hce
    have hTh : T.heightOf q = R.heightOf q := by
      rw [BlockTree.heightOf_of_get? hc₀, BlockTree.heightOf_of_get? hc, CBlockIndex.reload_nHeight]
    obtain ⟨hw, -, ht⟩ := hcorrect q hqn c₀ hc₀
    obtain ⟨h1, h2, h3⟩ := linkWork_of_prev T e hq
    refine ⟨?_, ?_, ?_⟩
    · rw [h1, chainWorkSpec_prev hp hr, BlockTree.deref_of_get? hc₀, hw, hce, getBlockProof_reload]
    · -- the walk over `T` stops where the walk over `R` does, at an entry below `p`
      have hwalk : algoWalk T (e.nVersion &&& ALGO_VERSION_MASK) (T.heightOf q + 1) q =
          algoWalk R (e.nVersion &&& ALGO_VERSION_MASK) (R.heightOf q + 1) q := by
        rw [hTh, ← algoWalk_reload T]
        exact algoWalk_congr hR hagree _ _ q hqn
      obtain ⟨d, hd⟩ := exists_get?_algoWalk hR (e.nVersion &&& ALGO_VERSION_MASK) (R.heightOf q + 1) q _ hc
      have hdn : R.heightOf (algoWalk R (e.nVersion &&& ALGO_VERSION_MASK) (R.heightOf q + 1) q) <
          e.nHeight :=
        Nat.lt_of_le_of_lt (heightOf_algoWalk_le hR _ _ q) hqn
      have hTd := (hagree _ hdn).trans hd
      rw [BlockTree.get?_reload] at hTd
      obtain ⟨d₀, hd₀, rfl⟩ := Option.map_eq_some_iff.mp hTd
      obtain ⟨-, hda, -⟩ := hcorrect _ hdn d₀ hd₀
      have hdh := BlockTree.heightOf_of_get? hd
      rw [CBlockIndex.reload_nHeight] at hdh
      rw [h2, chainWorkAlgoSpec_prev hp hr, CBlockIndex.reload_nVersion, hwalk, BlockTree.deref_of_get? hd₀,
        hda, getBlockProof_reload,
        chainWorkAlgoSpec_fuel hR (d₀.nHeight + 1) e.nHeight _ (by omega) (by omega)]
    · rw [h3, timeMaxSpec_prev hp hr, BlockTree.deref_of_get? hc₀, ht, hce, CBlockIndex.reload_nTime]

end LinkWorkCorrect

/-! ## The fields in terms of the ancestors -/

theorem uint32_le_max_left (a b : UInt32) : a ≤ max a b := by
  rw [UInt32.le_iff_toNat_le, UInt32.toNat_max]
  omega

theorem uint32_le_max_right (a b : UInt32) : b ≤ max a b := by
  rw [UInt32.le_iff_toNat_le, UInt32.toNat_max]
  omega

theorem uint32_max_eq_or (a b : UInt32) : max a b = a ∨ max a b = b := by
  rw [UInt32.max_def]
  split
  · exact Or.inr rfl
  · exact Or.inl rfl

/-- An entry's memory-only fields as the blocks below it determine them: the work of the
path from the genesis block, its latest `nTime`, and the algorithm work of the nearest
ancestor mined with the same algorithm, or of the genesis block if there is none. -/
structure FieldsOfAncestors {T : BlockTree} (hT : T.Linked) (p : BlockPtr) (b : CBlockIndex) :
    Prop where
  chainWork : b.nChainWork = (((T.forest hT).path p).map fun a => getBlockProof (T.deref a)).sum
  timeMax_mem : b.nTimeMax ∈ ((T.forest hT).path p).map fun a => (T.deref a).nTime
  timeMax_le : ∀ a ∈ (T.forest hT).path p, (T.deref a).nTime ≤ b.nTimeMax
  chainWorkAlgo_root : b.pprev = none → b.nChainWorkAlgo = getBlockProof b
  chainWorkAlgo_prev : ∀ q, b.pprev = some q → ∃ a, (T.forest hT).IsNearest
      (fun d => (T.deref d).nVersion &&& ALGO_VERSION_MASK = b.nVersion &&& ALGO_VERSION_MASK) a q ∧
    b.nChainWorkAlgo = (T.deref a).nChainWorkAlgo + getBlockProof b

section Ancestors

variable {T : BlockTree} (hT : T.Linked)
include hT

theorem BlockTree.path_eq_of_root {p : BlockPtr} {b : CBlockIndex} (hb : T.get? p = some b)
    (hq : b.pprev = none) : (T.forest hT).path p = [p] :=
  ParentForest.path_of_root ((BlockTree.pprevOf_of_get? hb).trans hq)

theorem BlockTree.path_eq_of_prev {p q : BlockPtr} {b : CBlockIndex} (hb : T.get? p = some b)
    (hq : b.pprev = some q) : (T.forest hT).path p = (T.forest hT).path q ++ [p] :=
  ParentForest.path_of_parent ((BlockTree.pprevOf_of_get? hb).trans hq)

/-- `chainWorkSpec` is the sum of `GetBlockProof` over the path from the genesis block. -/
theorem chainWorkSpec_eq_sum {p : BlockPtr} {b : CBlockIndex} (hb : T.get? p = some b) :
    chainWorkSpec T (b.nHeight + 1) p =
      (((T.forest hT).path p).map fun a => getBlockProof (T.deref a)).sum := by
  refine hT.induction ?_ ?_ hb
  · intro p b hb hq
    rw [chainWorkSpec_root hb hq, BlockTree.path_eq_of_root hT hb hq, List.map_singleton,
      List.sum_singleton, BlockTree.deref_of_get? hb]
  · intro p b q c hb hq _ hcb ih
    rw [← hcb, chainWorkSpec_prev hb hq, ih, BlockTree.path_eq_of_prev hT hb hq, List.map_append,
      List.sum_append, List.map_singleton, List.sum_singleton, BlockTree.deref_of_get? hb]

/-- `timeMaxSpec` is the latest `nTime` on the path from the genesis block. -/
theorem timeMaxSpec_greatest {p : BlockPtr} {b : CBlockIndex} (hb : T.get? p = some b) :
    timeMaxSpec T (b.nHeight + 1) p ∈ ((T.forest hT).path p).map (fun a => (T.deref a).nTime) ∧
    ∀ a ∈ (T.forest hT).path p, (T.deref a).nTime ≤ timeMaxSpec T (b.nHeight + 1) p := by
  refine hT.induction ?_ ?_ hb
  · intro p b hb hq
    rw [timeMaxSpec_root hb hq, BlockTree.path_eq_of_root hT hb hq]
    refine ⟨?_, ?_⟩
    · rw [List.map_singleton, BlockTree.deref_of_get? hb]
      exact List.mem_singleton_self _
    · intro a ha
      rw [List.mem_singleton.mp ha, BlockTree.deref_of_get? hb]
      exact UInt32.le_refl _
  · intro p b q c hb hq _ hcb ih
    obtain ⟨hmem, hle⟩ := ih
    rw [← hcb, timeMaxSpec_prev hb hq, BlockTree.path_eq_of_prev hT hb hq]
    refine ⟨?_, ?_⟩
    · rw [List.map_append, List.mem_append]
      rcases uint32_max_eq_or (timeMaxSpec T (c.nHeight + 1) q) b.nTime with h | h
      · rw [h]
        exact Or.inl hmem
      · rw [h, List.map_singleton, BlockTree.deref_of_get? hb]
        exact Or.inr (List.mem_singleton_self _)
    · intro a ha
      rcases List.mem_append.mp ha with ha | ha
      · exact UInt32.le_trans (hle a ha) (uint32_le_max_left _ _)
      · rw [List.mem_singleton.mp ha, BlockTree.deref_of_get? hb]
        exact uint32_le_max_right _ _

/-- `chainWorkAlgoSpec` adds `GetBlockProof` to its value at the nearest strict ancestor mined
with the same algorithm, or at the genesis block if there is none. -/
theorem chainWorkAlgoSpec_nearest {p q : BlockPtr} {b : CBlockIndex} (hb : T.get? p = some b)
    (hq : b.pprev = some q) :
    ∃ a d, (T.forest hT).IsNearest
        (fun d => (T.deref d).nVersion &&& ALGO_VERSION_MASK = b.nVersion &&& ALGO_VERSION_MASK) a q ∧
      T.get? a = some d ∧
      chainWorkAlgoSpec T (b.nHeight + 1) p = chainWorkAlgoSpec T (d.nHeight + 1) a + getBlockProof b := by
  obtain ⟨c, hc, hcb⟩ := hT.prev_height hb hq
  obtain ⟨d, hd⟩ := exists_get?_algoWalk hT (b.nVersion &&& ALGO_VERSION_MASK) (T.heightOf q + 1) q c hc
  have hdc : d.nHeight ≤ c.nHeight := by
    rw [← BlockTree.heightOf_of_get? hd, ← BlockTree.heightOf_of_get? hc]
    exact heightOf_algoWalk_le hT _ _ q
  have hdh := BlockTree.heightOf_of_get? hd
  refine ⟨_, d, algoWalk_spec hT _ _ q c hc (Nat.lt_succ_self _), hd, ?_⟩
  rw [chainWorkAlgoSpec_prev hb hq,
    chainWorkAlgoSpec_fuel hT b.nHeight (d.nHeight + 1) _ (by omega) (by omega)]

end Ancestors

/-! ## The stored tree determines the same fields -/

namespace BlockTree

variable {T : BlockTree}

theorem deref_reload (p : BlockPtr) : T.reload.deref p = (T.deref p).reload := by
  unfold deref
  rw [get?_reload]
  cases T.get? p <;> rfl

theorem forest_reload (hT : T.Linked) : T.reload.forest (reload_linked hT) = T.forest hT := by
  have hp : T.reload.pprevOf = T.pprevOf := by
    funext p
    simp only [pprevOf, get?_reload]
    cases T.get? p <;> rfl
  have hh : T.reload.heightOf = T.heightOf := funext heightOf_reload
  simp only [forest, ParentForest.mk.injEq]
  exact ⟨hp, hh⟩

end BlockTree

/-- Fields that are correct against the stored tree are those the blocks below determine. -/
theorem fieldsOfAncestors_of_workCorrectAt {T : BlockTree} (hT : T.Linked)
    (hw : ∀ p, WorkCorrectAt T p) {p : BlockPtr} {b : CBlockIndex} (hb : T.get? p = some b) :
    FieldsOfAncestors hT p b := by
  have hR := BlockTree.reload_linked hT
  have hbR : T.reload.get? p = some b.reload := by rw [BlockTree.get?_reload, hb]; rfl
  obtain ⟨hw₁, hw₂, hw₃⟩ := hw p b hb
  have hsum := chainWorkSpec_eq_sum hR hbR
  have htime := timeMaxSpec_greatest hR hbR
  rw [BlockTree.forest_reload hT] at hsum htime
  simp only [BlockTree.deref_reload, getBlockProof_reload, CBlockIndex.reload_nTime,
    CBlockIndex.reload_nHeight] at hsum htime
  refine ⟨hw₁.trans hsum, hw₃ ▸ htime.1, hw₃ ▸ htime.2, ?_, ?_⟩
  · intro hq
    rw [hw₂, chainWorkAlgoSpec_root hbR hq, getBlockProof_reload]
  · intro q hq
    obtain ⟨a, d, hnear, hd, heq⟩ := chainWorkAlgoSpec_nearest hR hbR hq
    rw [BlockTree.forest_reload hT] at hnear
    simp only [BlockTree.deref_reload, CBlockIndex.reload_nVersion, CBlockIndex.reload_nHeight,
      getBlockProof_reload] at hnear heq
    rw [BlockTree.get?_reload] at hd
    obtain ⟨d₀, hd₀, rfl⟩ := Option.map_eq_some_iff.mp hd
    obtain ⟨-, hda, -⟩ := hw a d₀ hd₀
    refine ⟨a, hnear, ?_⟩
    rw [hw₂, heq, BlockTree.deref_of_get? hd₀, hda, CBlockIndex.reload_nHeight]

end Veles
