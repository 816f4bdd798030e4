import Veles.Reward.Halving
import Veles.Chain.Chain
import Veles.Pow.NextWorkRange

/-!
# `CountBlockRewards` and the supply of the halving epochs

`CountBlockRewards(nStartBlock, nEndBlock, halvingParams)` (validation.cpp) walks the active
chain from the tip's parent down to the genesis block and adds the subsidy of each block
whose height lies in `[nStartBlock, nEndBlock]`.  It memoises the sum in
`totalSupplyIndex`, keyed by the two heights only, and never drops an entry.

`GetSubsidyHalvingParameters` asks it for `[nStartBlock, nEndBlock - 1]` of an epoch that
spans `[nStartBlock, nEndBlock]`, so the supply of an epoch misses the subsidy of its last
block (`countBlockRewards_misses_epoch_end`).  The memo outlives the chain it was computed
on, so after the tip moves it returns a sum over another set of blocks
(`countBlockRewards_stale_after_setTip`).

From `SPORK_VELES_01_FXTC_CHAIN_START` on, `GetBlockSubsidy` computes a dynamic reward in
`double`s from `nBits` (`ConvertBitsToDouble`), the algorithm's efficiency, handbrake and
cost factor (`GetAlgoCostFactor`), the epoch's boost and a correction factor that sporks
set, and clamps it between `nMinimumSubsidy` and the halved base reward.  `double` is
`Float`; each `nSubsidy *= x` with `x` a `double` converts `nSubsidy` to `double` and the
product back to `CAmount` (`toAmount`).
-/

namespace Veles

open Spork

/-! ## The dynamic reward -/

/-- `ConvertBitsToDouble(nBits)`: `0xffff` over the mantissa, times `256` for each step the
size byte is below 29 and over `256` for each step above. -/
def convertBitsToDouble (nBits : UInt32) : Float :=
  let nShift := ((nBits >>> 24) &&& 0xff).toNat
  let dDiff := (0x0000ffff : Float) / (nBits &&& 0x00ffffff).toFloat
  if nShift < 29 then (· * 256.0)^[29 - nShift] dDiff else (· / 256.0)^[nShift - 29] dDiff

/-- The cost factor spork of an algorithm in the `switch` of `GetAlgoCostFactor`, from the
`SPORK_VELES_05B_*` table when `b` is set and from the `SPORK_VELES_05A_*` table otherwise. -/
def costFactorSpork (b : Bool) (nAlgo : Int32) : Option Spork :=
  if nAlgo = ALGO_SHA256D then
    some (if b then SPORK_VELES_05B_ADJUST_COST_FACTOR_SHA256D
      else SPORK_VELES_05A_ADJUST_COST_FACTOR_SHA256D)
  else if nAlgo = ALGO_SCRYPT then
    some (if b then SPORK_VELES_05B_ADJUST_COST_FACTOR_SCRYPT
      else SPORK_VELES_05A_ADJUST_COST_FACTOR_SCRYPT)
  else if nAlgo = ALGO_LYRA2Z then
    some (if b then SPORK_VELES_05B_ADJUST_COST_FACTOR_LYRA2Z
      else SPORK_VELES_05A_ADJUST_COST_FACTOR_LYRA2Z)
  else if nAlgo = ALGO_X11 then
    some (if b then SPORK_VELES_05B_ADJUST_COST_FACTOR_X11 else SPORK_VELES_05A_ADJUST_COST_FACTOR_X11)
  else if nAlgo = ALGO_X16R then
    some (if b then SPORK_VELES_05B_ADJUST_COST_FACTOR_X16R
      else SPORK_VELES_05A_ADJUST_COST_FACTOR_X16R)
  else if nAlgo = ALGO_NIST5 then
    some (if b then SPORK_VELES_05B_ADJUST_COST_FACTOR_NIST5
      else SPORK_VELES_05A_ADJUST_COST_FACTOR_NIST5)
  else none

/-- The algorithms of the `switch`, in the order `totalAdjustements` adds them. -/
def costFactorAlgos : List Int32 :=
  [ALGO_SHA256D, ALGO_SCRYPT, ALGO_LYRA2Z, ALGO_X11, ALGO_X16R, ALGO_NIST5]

/-- `factor` and `totalAdjustements` of one table of `GetAlgoCostFactor`, `value` giving each
spork's value: the factor of `nAlgo` (`100` for an algorithm off the table) and the sum of
the six. -/
def costFactorTable (b : Bool) (value : Spork → Int64) (nAlgo : Int32) : Float × Int64 :=
  (((costFactorSpork b nAlgo).map fun s => (value s).toFloat).getD 100,
    ((costFactorAlgos.filterMap (costFactorSpork b)).map value).sum)

/-- `GetAlgoCostFactor(nAlgo, nHeight)`: an algorithm's cost factor over the mean of the six,
from the `05B` sporks once they start, else from the `05A` sporks, else from their defaults,
with NIST5 bumped up tenfold from height 51000.  A `totalAdjustements` that overflows
`int64_t` is undefined in the code and wraps here. -/
def getAlgoCostFactor (sporks : SporkManager) (nAlgo : Int32) (nHeight : Int) : Float :=
  -- Nist5 bootstraping and reward discovery
  let nNistAlphaBumpUpFactor : Int64 := 10
  let nNistAlphaBumpUpHeight : Int := 51000
  let (factor, totalAdjustements) :=
    if (sporks.getSporkValue SPORK_VELES_05B_ADJUST_COST_FACTOR_START).toInt ≤ nHeight then
      costFactorTable true sporks.getSporkValue nAlgo
    else if (sporks.getSporkValue SPORK_VELES_05A_ADJUST_COST_FACTOR_START).toInt ≤ nHeight then
      costFactorTable false sporks.getSporkValue nAlgo
    else
      -- Apply default cost factor values if the sporks are not activated yet
      let nist5 := sporkDefault SPORK_VELES_05A_ADJUST_COST_FACTOR_NIST5
      let (factor, totalAdjustements) := costFactorTable false sporkDefault nAlgo
      if nNistAlphaBumpUpHeight ≤ nHeight then
        (if nAlgo = ALGO_NIST5 then (nist5 * nNistAlphaBumpUpFactor).toFloat else factor,
          totalAdjustements + nist5 * (nNistAlphaBumpUpFactor - 1))
      else (factor, totalAdjustements)
  factor / (totalAdjustements / 6).toFloat

/-- `GetBlockAlgoCostFactor(pblock, nHeight)`. -/
def getBlockAlgoCostFactor (sporks : SporkManager) (pblock : CBlockIndex) (nHeight : Int) :
    Float :=
  getAlgoCostFactor sporks (pblock.nVersion &&& ALGO_VERSION_MASK) nHeight

/-- One of the three boosts of `nDynamicSubsidyCorrectionFactor`: from the height its start
spork gives, the `int` its factor spork gives. -/
def correctionBoost (sporks : SporkManager) (start factor : Spork) (nHeight : Int)
    (nDynamicSubsidyCorrectionFactor : Int32) : Int32 :=
  if (sporks.getSporkValue start).toInt ≤ nHeight then (sporks.getSporkValue factor).toInt32
  else nDynamicSubsidyCorrectionFactor

/-- `nDynamicSubsidyCorrectionFactor`, in percent: 300, 400 from height 51000, then each boost
that has started. -/
def dynamicSubsidyCorrectionFactor (sporks : SporkManager) (nHeight : Int) : Int32 :=
  let f : Int32 := if 51000 ≤ nHeight then 400 else 300
  let f := correctionBoost sporks SPORK_VELES_06A_DYNAMIC_REWARD_BOOST1_START
    SPORK_VELES_06A_DYNAMIC_REWARD_BOOST1_FACTOR nHeight f
  let f := correctionBoost sporks SPORK_VELES_06B_DYNAMIC_REWARD_BOOST2_START
    SPORK_VELES_06B_DYNAMIC_REWARD_BOOST2_FACTOR nHeight f
  correctionBoost sporks SPORK_VELES_06C_DYNAMIC_REWARD_BOOST3_START
    SPORK_VELES_06C_DYNAMIC_REWARD_BOOST3_FACTOR nHeight f

/-- A `double` stored in a `CAmount`, truncated toward zero.  Outside the range of `int64_t`
the conversion is undefined in the code; `Float.toInt64` saturates there and gives `0` for
a NaN. -/
def toAmount (x : Float) : Int := x.toInt64.toInt

/-- The dynamic reward of `GetBlockSubsidy`, before its clamps: the difficulty of `nBits` in
coins over `49500000 / GetAlgoEfficiency`, divided by the handbrake force and halved
`nHalvingCount` times; from the reward upgrade on, times the cost factor, the boost, the
alpha multiplier and the correction factor.  A handbrake force of `0` divides by zero in
the code, where the quotient is `0` here. -/
def dynamicBlockSubsidy (sporks : SporkManager) (consensus : RewardParams) (nHeight : Int)
    (pblock : CBlockIndex) (halvingParams : HalvingParameters) : Int :=
  -- Calculate the dynamic block reward accordingly to an algo efficiency table
  let nSubsidy := toAmount (convertBitsToDouble pblock.nBits * Float.ofInt COIN /
    ((49500000 : UInt32) / getAlgoEfficiency pblock.nVersion).toFloat)
  let nSubsidy := nSubsidy.tdiv (getHandbrakeForce sporks pblock.nVersion nHeight).toNat
  -- Cut subsidy a half on each halving
  let nSubsidy := nSubsidy >>> halvingParams.nHalvingCount.toNat
  -- VCIP01 adjust the rewards accordingly as per algo
  if (sporks.getSporkValue SPORK_VELES_04_REWARD_UPGRADE_ALPHA_START).toInt ≤ nHeight then
    let nSubsidy := toAmount (Float.ofInt nSubsidy * getBlockAlgoCostFactor sporks pblock nHeight)
    let nSubsidy :=
      toAmount (Float.ofInt nSubsidy * (1 + halvingParams.nDynamicRewardsBoostFactor))
    let nSubsidy := nSubsidy * consensus.nVlsRewardsAlphaMultiplier
    toAmount (Float.ofInt nSubsidy *
      (Float.ofInt (dynamicSubsidyCorrectionFactor sporks nHeight).toInt * 0.01))
  else nSubsidy

/-! ## `GetBlockSubsidy` and `CountBlockRewards` -/

/-- `GetBlockSubsidy(nHeight, pblock, consensusParams, fSuperblockPartOnly, halvingParams)`
for a given `halvingParams`. -/
def getBlockSubsidy (sporks : SporkManager) (consensus : RewardParams) (nHeight : Int)
    (pblock : CBlockIndex) (fSuperblockPartOnly : Bool) (halvingParams : HalvingParameters) :
    Int :=
  -- Force block reward to zero when right shift is undefined.
  if 64 ≤ halvingParams.nHalvingCount then 0
  else
    let nSubsidy : Int := if nHeight = 1 then 50000 * COIN else 8 * COIN
    -- Subsidy is cut on each halving that has occured
    let nSubsidy := nSubsidy >>> halvingParams.nHalvingCount.toNat
    let nSubsidy :=
      if (sporks.getSporkValue SPORK_VELES_01_FXTC_CHAIN_START).toInt ≤ nHeight then
        let nMaxSubsidy :=
          if (sporks.getSporkValue SPORK_VELES_04_REWARD_UPGRADE_ALPHA_START).toInt ≤ nHeight then
            nSubsidy * consensus.nVlsRewardsAlphaMultiplier
          else nSubsidy
        let nSubsidy := dynamicBlockSubsidy sporks consensus nHeight pblock halvingParams
        -- Ensure minimum subsidy
        let nSubsidy := if nSubsidy < consensus.nMinimumSubsidy then consensus.nMinimumSubsidy
          else nSubsidy
        -- Ensure maximum subsidy
        if nSubsidy > nMaxSubsidy then nMaxSubsidy else nSubsidy
      else nSubsidy
    let nSuperblockPart :=
      if consensus.nBudgetPaymentsStartBlock ≤ nHeight then nSubsidy.tdiv 10 else 0
    if fSuperblockPartOnly then nSuperblockPart else nSubsidy - nSuperblockPart

/-- `totalSupplyIndex`: the sums already computed, by start and end height. -/
structure TotalSupplyIndex where
  get : Int → Int → Option Int

/-- The index of a node that has computed nothing. -/
def TotalSupplyIndex.empty : TotalSupplyIndex := ⟨fun _ _ => none⟩

/-- `totalSupplyIndex[nStartBlock][nEndBlock] = nRewards`. -/
def TotalSupplyIndex.insert (m : TotalSupplyIndex) (nStartBlock nEndBlock nRewards : Int) :
    TotalSupplyIndex :=
  ⟨fun s e => if s = nStartBlock ∧ e = nEndBlock then some nRewards else m.get s e⟩

/-- What `CountBlockRewards` reads of the node: the block tree, `chainActive` and
`totalSupplyIndex`. -/
structure SupplyState where
  T : BlockTree
  chainActive : CChain
  totalSupplyIndex : TotalSupplyIndex

/-- `while (pb->pprev) { pb = pb->pprev; … }`: the subsidies of the blocks in the range from
the parent of `pb` down. -/
def countBlockRewardsWalk (T : BlockTree) (subsidy : CBlockIndex → Int)
    (nStartBlock nEndBlock : Int) : Nat → BlockPtr → Int
  | 0, _ => 0
  | fuel + 1, pb =>
    match T.pprevOf pb with
    | none => 0
    | some pprev =>
      let b := T.deref pprev
      (if nStartBlock ≤ b.nHeight ∧ b.nHeight ≤ nEndBlock then subsidy b else 0) +
        countBlockRewardsWalk T subsidy nStartBlock nEndBlock fuel pprev

/-- `CountBlockRewards(nStartBlock, nEndBlock, halvingParams)`: the indexed value if there is
one, else the walk from the tip, which is then indexed.  The node always has a tip; an
empty chain counts nothing here. -/
def countBlockRewards (sporks : SporkManager) (consensus : RewardParams) (nStartBlock nEndBlock : Int)
    (halvingParams : HalvingParameters) (st : SupplyState) : Int × SupplyState :=
  -- use indexed value if exists
  match st.totalSupplyIndex.get nStartBlock nEndBlock with
  | some nRewards => (nRewards, st)
  | none =>
    let nRewards :=
      match st.chainActive.tip with
      | some pb =>
        countBlockRewardsWalk st.T
          (fun b => getBlockSubsidy sporks consensus b.nHeight b false halvingParams)
          nStartBlock nEndBlock (st.T.heightOf pb + 1) pb
      | none => 0
    -- update the index
    (nRewards,
      { st with totalSupplyIndex := st.totalSupplyIndex.insert nStartBlock nEndBlock nRewards })

/-- The coins issued to the blocks of the active chain at heights in
`[nStartBlock, nEndBlock]`, `subsidy` giving each block's. -/
def activeChainRewards (subsidy : CBlockIndex → Int) (T : BlockTree) (C : CChain)
    (nStartBlock nEndBlock : Int) : Int :=
  (((List.range C.vChain.length).filter fun h => nStartBlock ≤ h ∧ h ≤ nEndBlock).map
    fun h => match C.get h with
      | some p => subsidy (T.deref p)
      | none => 0).sum

/-! ## The supply of an epoch misses its last block -/

/-- The reward upgrade, hence the first VCIP01 epoch, at height 3. -/
def sporksAlphaAt3 : SporkManager :=
  ⟨fun s => if s = SPORK_VELES_04_REWARD_UPGRADE_ALPHA_START then some 3 else none⟩

/-- A fresh node whose active chain is three `scrypt` blocks, the tip at height 2. -/
def supplyAtHeight2 : SupplyState :=
  { T := testChain 3 ALGO_SCRYPT 0x1e0fffff
    chainActive := setTip (testChain 3 ALGO_SCRYPT 0x1e0fffff) ⟨[]⟩ (some 2)
    totalSupplyIndex := TotalSupplyIndex.empty }

/-- With the reward upgrade at height 3 and the tip at height 2, the bootstrap epoch is
`[2, 2]` and ended, but its supply counts no block: `CountBlockRewards(2, 1)` is asked for.
The block at height 2 was issued `8 * COIN`. -/
theorem countBlockRewards_misses_epoch_end :
    ((getSubsidyHalvingParameters
        (countBlockRewards sporksAlphaAt3 mainRewardParams)
        sporksAlphaAt3 mainRewardParams 3 supplyAtHeight2).map fun r =>
      r.1.epochs.map fun e =>
        (e.nStartBlock, e.nEndBlock, e.fHasEnded, e.nEndSupply - e.nStartSupply)).bind
        (·[1]?) = some (2, 2, true, 0) ∧
      activeChainRewards (fun b =>
          getBlockSubsidy sporksAlphaAt3 mainRewardParams b.nHeight b false {})
        supplyAtHeight2.T supplyAtHeight2.chainActive 2 2 = 8 * COIN := by
  constructor <;> decide

/-! ## The index outlives the tip -/

/-- The tree of seven `scrypt` blocks, the active chain at height 2 and nothing indexed. -/
def supplyShortTip : SupplyState :=
  { T := testChain 7 ALGO_SCRYPT 0x1e0fffff
    chainActive := setTip (testChain 7 ALGO_SCRYPT 0x1e0fffff) ⟨[]⟩ (some 2)
    totalSupplyIndex := TotalSupplyIndex.empty }

/-- `CountBlockRewards(1, 5)` at tip height 2, then `SetTip` to height 6, then
`CountBlockRewards(1, 5)` again: the second call returns the sum over height 1 computed on
the shorter chain, while the active chain then has blocks 1 to 5 below its tip. -/
theorem countBlockRewards_stale_after_setTip :
    let count := countBlockRewards SporkManager.empty mainRewardParams 1 5 {}
    let r₁ := count supplyShortTip
    let st := { r₁.2 with chainActive := setTip r₁.2.T r₁.2.chainActive (some 6) }
    let r₂ := count st
    r₂.1 = r₁.1 ∧ r₂.1 = 50000 * COIN ∧
      activeChainRewards (fun b =>
          getBlockSubsidy SporkManager.empty mainRewardParams b.nHeight b false {})
        st.T st.chainActive 1 5 = 50000 * COIN + 4 * (8 * COIN) := by
  decide

end Veles
