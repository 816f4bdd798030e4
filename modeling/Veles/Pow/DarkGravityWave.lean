import Veles.Pow.Params

/-!
# `DarkGravityWave` and `GetNextWorkRequired`

`GetNextWorkRequired` (pow.cpp) gives the compact target the next block must meet.  Before
the spork `SPORK_VELES_01_FXTC_CHAIN_START` it runs the original Veles rule
(`DarkGravityWaveVLS`, an average over the last 24 blocks); from it on, the multi-algorithm
`DarkGravityWave` followed by the dead-lock protection, which halves the difficulty for
every two block spacings without a block.

`DarkGravityWave` walks back from `pindexLast` under two counters, keeping running averages
of the normalised targets of all blocks and of the blocks mined with the candidate's
algorithm, each with a fast variant over the first few blocks.  It then retargets the
algorithm's average by the algorithm's timespan and the result by the chain's timespan,
converts it back to the algorithm's scale, and applies the spork handbrake.

Arithmetic is `arith_uint256`'s: `mulU32` for a product with an `unsigned int` or an
`int64_t` (truncated to 32 bits), `div` for a quotient (an error on a zero divisor, which
`base_uint` throws), and an `int64_t` divisor converted through `base_uint(uint64_t)`.
The `int64_t` time and timespan arithmetic is `Int`: with `nTime` below `2^32` and a
spacing below `2^32`, none of it comes near `2^63`.  A failed `assert` or a null pointer
dereference is an error too.
-/

namespace Veles

open ArithUint256 Spork

/-- `nPastAlgoFastBlocks`: the blocks of an algorithm's fast average. -/
def nPastAlgoFastBlocks : Nat := 5

/-- `nPastAlgoBlocks`: the blocks of an algorithm's average. -/
def nPastAlgoBlocks : Nat := nPastAlgoFastBlocks * ALGO_ACTIVE_COUNT

/-- `nPastFastBlocks`: the blocks of the chain's fast average. -/
def nPastFastBlocks : Nat := nPastAlgoFastBlocks * 2

/-! ## The loop

The loop's walk and counters do not depend on how the averages are computed, so the loop
is stated over any type of averages `α`, with the block's normalised target (`target`) and
the running-average update (`average`) as parameters.  `DarkGravityWave` runs it with
`arith_uint256` (`dgwTarget`, `runningAverage`).
-/

/-- The locals of `DarkGravityWave` that its loop updates. -/
structure DgwState (α : Type) where
  pindex : BlockPtr
  pindexFast : BlockPtr
  bnPastTargetAvg : α
  bnPastTargetAvgFast : α
  pindexAlgo : Option BlockPtr
  pindexAlgoFast : Option BlockPtr
  pindexAlgoLast : Option BlockPtr
  bnPastAlgoTargetAvg : α
  bnPastAlgoTargetAvgFast : α
  nCountBlocks : Nat
  nCountFastBlocks : Nat
  nCountAlgoBlocks : Nat
  nCountAlgoFastBlocks : Nat

section Loop

variable {α : Type} (average : α → α → Nat → Except String α)

/-- The locals as the loop starts, at `pindexLast`. -/
def DgwState.init [Zero α] (pindexLast : BlockPtr) : DgwState α where
  pindex := pindexLast
  pindexFast := pindexLast
  bnPastTargetAvg := 0
  bnPastTargetAvgFast := 0
  pindexAlgo := none
  pindexAlgoFast := none
  pindexAlgoLast := none
  bnPastAlgoTargetAvg := 0
  bnPastAlgoTargetAvgFast := 0
  nCountBlocks := 0
  nCountFastBlocks := 0
  nCountAlgoBlocks := 0
  nCountAlgoFastBlocks := 0

/-- The locals after a block mined with the candidate's algorithm, given its new algorithm
average. -/
def DgwState.countAlgo (s : DgwState α) (bnPastAlgoTargetAvg : α) : DgwState α :=
  let nCountAlgoBlocks := s.nCountAlgoBlocks + 1
  { s with
    nCountAlgoBlocks := nCountAlgoBlocks
    pindexAlgo := some s.pindex
    pindexAlgoLast := if s.pindexAlgoLast.isNone then some s.pindex else s.pindexAlgoLast
    bnPastAlgoTargetAvg := bnPastAlgoTargetAvg
    -- fast algo average
    nCountAlgoFastBlocks :=
      if nCountAlgoBlocks ≤ nPastAlgoFastBlocks then s.nCountAlgoFastBlocks + 1
      else s.nCountAlgoFastBlocks
    pindexAlgoFast :=
      if nCountAlgoBlocks ≤ nPastAlgoFastBlocks then some s.pindex else s.pindexAlgoFast
    bnPastAlgoTargetAvgFast :=
      if nCountAlgoBlocks ≤ nPastAlgoFastBlocks then bnPastAlgoTargetAvg
      else s.bnPastAlgoTargetAvgFast }

/-- The locals after any block, given its new chain average. -/
def DgwState.count (s : DgwState α) (bnPastTargetAvg : α) : DgwState α :=
  let nCountBlocks := s.nCountBlocks + 1
  { s with
    nCountBlocks := nCountBlocks
    bnPastTargetAvg := bnPastTargetAvg
    -- fast average
    nCountFastBlocks :=
      if nCountBlocks ≤ nPastFastBlocks then s.nCountFastBlocks + 1 else s.nCountFastBlocks
    pindexFast := if nCountBlocks ≤ nPastFastBlocks then s.pindex else s.pindexFast
    bnPastTargetAvgFast :=
      if nCountBlocks ≤ nPastFastBlocks then bnPastTargetAvg else s.bnPastTargetAvgFast }

section Fields

variable (s : DgwState α) (a : α)

@[simp] theorem DgwState.countAlgo_pindex : (s.countAlgo a).pindex = s.pindex := rfl
@[simp] theorem DgwState.countAlgo_nCountBlocks : (s.countAlgo a).nCountBlocks = s.nCountBlocks := rfl
@[simp] theorem DgwState.countAlgo_nCountFastBlocks :
    (s.countAlgo a).nCountFastBlocks = s.nCountFastBlocks := rfl
@[simp] theorem DgwState.countAlgo_nCountAlgoBlocks :
    (s.countAlgo a).nCountAlgoBlocks = s.nCountAlgoBlocks + 1 := rfl
@[simp] theorem DgwState.countAlgo_nCountAlgoFastBlocks :
    (s.countAlgo a).nCountAlgoFastBlocks =
      if s.nCountAlgoBlocks + 1 ≤ nPastAlgoFastBlocks then s.nCountAlgoFastBlocks + 1
      else s.nCountAlgoFastBlocks := rfl
@[simp] theorem DgwState.countAlgo_pindexAlgoFast :
    (s.countAlgo a).pindexAlgoFast =
      if s.nCountAlgoBlocks + 1 ≤ nPastAlgoFastBlocks then some s.pindex else s.pindexAlgoFast :=
  rfl

@[simp] theorem DgwState.count_pindex : (s.count a).pindex = s.pindex := rfl
@[simp] theorem DgwState.count_nCountBlocks : (s.count a).nCountBlocks = s.nCountBlocks + 1 := rfl
@[simp] theorem DgwState.count_nCountFastBlocks :
    (s.count a).nCountFastBlocks =
      if s.nCountBlocks + 1 ≤ nPastFastBlocks then s.nCountFastBlocks + 1 else s.nCountFastBlocks :=
  rfl
@[simp] theorem DgwState.count_nCountAlgoBlocks :
    (s.count a).nCountAlgoBlocks = s.nCountAlgoBlocks := rfl
@[simp] theorem DgwState.count_nCountAlgoFastBlocks :
    (s.count a).nCountAlgoFastBlocks = s.nCountAlgoFastBlocks := rfl
@[simp] theorem DgwState.count_pindexAlgoFast : (s.count a).pindexAlgoFast = s.pindexAlgoFast := rfl

end Fields

/-- The algorithm average, for a block mined with the candidate's algorithm. -/
def dgwAlgoAverage (s : DgwState α) (bnTarget : α) : Except String (DgwState α) := do
  let bnPastAlgoTargetAvg ← average s.bnPastAlgoTargetAvg bnTarget (s.nCountAlgoBlocks + 1)
  pure (s.countAlgo bnPastAlgoTargetAvg)

/-- The chain average, for every block. -/
def dgwAverage (s : DgwState α) (bnTarget : α) : Except String (DgwState α) := do
  let bnPastTargetAvg ← average s.bnPastTargetAvg bnTarget (s.nCountBlocks + 1)
  pure (s.count bnPastTargetAvg)

/-- `if (nCountBlocks != nPastBlocks) { assert(pindex->pprev); pindex = pindex->pprev; }` -/
def dgwNext (T : BlockTree) (nPastBlocks : Nat) (s : DgwState α) : Except String (DgwState α) :=
  if s.nCountBlocks ≠ nPastBlocks then
    match T.pprevOf s.pindex with
    | some pprev => pure { s with pindex := pprev }
    | none => throw "assert(pindex->pprev)"
  else pure s

variable (target : CBlockIndex → Except String α)

/-- One pass of the loop body: the block's normalised target, the two averages, and the
step to the parent. -/
def dgwStep (T : BlockTree) (nVersion : Int32) (nPastBlocks : Nat) (s : DgwState α) :
    Except String (DgwState α) := do
  let b := T.deref s.pindex
  let bnTarget ← target b
  -- calculate algo average
  let s ← if nVersion = b.nVersion &&& ALGO_VERSION_MASK then dgwAlgoAverage average s bnTarget
    else pure s
  let s ← dgwAverage average s bnTarget
  dgwNext T nPastBlocks s

/-- `while (nCountBlocks < nPastBlocks && nCountAlgoBlocks < nPastAlgoBlocks)`.  Every pass
counts one block, so `nPastBlocks` passes always reach the end of the loop. -/
def dgwLoop (T : BlockTree) (nVersion : Int32) (nPastBlocks : Nat) :
    Nat → DgwState α → Except String (DgwState α)
  | 0, s => pure s
  | fuel + 1, s =>
    if s.nCountBlocks < nPastBlocks ∧ s.nCountAlgoBlocks < nPastAlgoBlocks then do
      let s ← dgwStep average target T nVersion nPastBlocks s
      dgwLoop T nVersion nPastBlocks fuel s
    else pure s

end Loop

/-- `arith_uint256().SetCompact(pindex->nBits) / GetAlgoEfficiency(pindex->nHeight)`: the
target normalised by its algorithm's efficiency. -/
def dgwTarget (b : CBlockIndex) : Except String ArithUint256 :=
  div (setCompact b.nBits).value (ofU64 (getAlgoEfficiency b.nVersion).toUInt64)

/-- `(avg * (n - 1) + bnTarget) / n`, the update of both running averages. -/
def runningAverage (avg bnTarget : ArithUint256) (n : Nat) : Except String ArithUint256 :=
  div (avg.mulU32 (UInt32.ofNat (n - 1)) + bnTarget) (ofU64 (UInt64.ofNat n))

/-! ## After the loop -/

/-- `nActualTimespan` clamped to `[1, 2 * nTargetTimespan]`, then
`bnNew *= nActualTimespan; bnNew /= nTargetTimespan`: both retargets. -/
def dgwRetarget (bnNew : ArithUint256) (nActualTimespan nTargetTimespan : Int) :
    Except String ArithUint256 :=
  -- higher diff faster
  let nActualTimespan := if nActualTimespan < 1 then 1 else nActualTimespan
  -- lower diff slower
  let nActualTimespan :=
    if nActualTimespan > nTargetTimespan * 2 then nTargetTimespan * 2 else nActualTimespan
  div (bnNew.mulU32 (UInt32.ofInt nActualTimespan)) (ofInt64 nTargetTimespan)

/-- The algorithm's average retargeted over the algorithm's blocks, taking the fast
average when its last fast block is recent (FXTC instamine protection for algo). -/
def dgwAlgoTarget (T : BlockTree) (params : ConsensusParams) (last : CBlockIndex)
    (s : DgwState ArithUint256) : Except String ArithUint256 :=
  match s.pindexAlgoFast, s.pindexAlgo with
  | some pindexAlgoFast, some pindexAlgo =>
    let fast := decide (last.getBlockTime - (T.deref pindexAlgoFast).getBlockTime <
      (params.nPowTargetSpacing * ALGO_ACTIVE_COUNT).tdiv 2)
    let nCountAlgoBlocks := if fast then s.nCountAlgoFastBlocks else s.nCountAlgoBlocks
    let pindexAlgo := if fast then pindexAlgoFast else pindexAlgo
    let bnNew := if fast then s.bnPastAlgoTargetAvgFast else s.bnPastAlgoTargetAvg
    -- pindexLast instead of pindexAlgoLast on purpose
    dgwRetarget bnNew (last.getBlockTime - (T.deref pindexAlgo).getBlockTime)
      (nCountAlgoBlocks * params.nPowTargetSpacing * ALGO_ACTIVE_COUNT)
  | _, _ => throw "null pointer"

/-- The chain's count and first block, the fast ones when the chain's last fast block is
recent (FXTC instamine protection for blockchain). -/
def dgwInstamine {α : Type} (T : BlockTree) (params : ConsensusParams) (last : CBlockIndex)
    (s : DgwState α) : DgwState α :=
  if last.getBlockTime - (T.deref s.pindexFast).getBlockTime < params.nPowTargetSpacing.tdiv 2 then
    { s with nCountBlocks := s.nCountFastBlocks, pindex := s.pindexFast,
             bnPastTargetAvg := s.bnPastTargetAvgFast }
  else s

/-- The normalised target back at the candidate's algorithm's scale, at most `powLimit`,
then the handbrake: divided by the force, or `powLimit` when the force times `powLimit` is
below it. -/
def dgwLimit (sporks : SporkManager) (params : ConsensusParams) (last : CBlockIndex)
    (pblock : CBlockHeader) (bnNew : ArithUint256) : Except String ArithUint256 := do
  let bnPowLimit := params.powLimit
  let nEfficiency := getAlgoEfficiency pblock.nVersion
  let bnLimitNormal ← div bnPowLimit (ofU64 nEfficiency.toUInt64)
  -- at least PoW limit
  let bnNew := if bnLimitNormal > bnNew then bnNew.mulU32 nEfficiency else bnPowLimit
  -- mining handbrake via spork
  let nForce := getHandbrakeForce sporks pblock.nVersion (last.nHeight + 1)
  if bnPowLimit.mulU32 nForce < bnNew then pure bnPowLimit
  else div bnNew (ofU64 nForce.toUInt64)

/-- `nPastBlocks` as `DarkGravityWave` first sets it, before the height check. -/
def dgwPastBlocks (nHeight : Nat) : Nat :=
  let nPastBlocks := nPastFastBlocks * ALGO_ACTIVE_COUNT
  -- stabilizing block spacing
  if (nHeight : Int) + 1 ≥ 0 then nPastBlocks * 100 else nPastBlocks

/-- The target `DarkGravityWave` computes from `nPastBlocks` blocks down from `pindexLast`,
before `GetCompact`. -/
def darkGravityWaveTarget (T : BlockTree) (sporks : SporkManager) (params : ConsensusParams)
    (pindexLast : BlockPtr) (pblock : CBlockHeader) (nPastBlocks : Nat) :
    Except String ArithUint256 := do
  let last := T.deref pindexLast
  -- count blocks mined by actual algo for secondary average
  let nVersion := pblock.nVersion &&& ALGO_VERSION_MASK
  let s ← dgwLoop runningAverage dgwTarget T nVersion nPastBlocks nPastBlocks
    (DgwState.init pindexLast)
  let s := dgwInstamine T params last s
  let bnNew ← if s.pindexAlgo.isSome ∧ s.pindexAlgoLast.isSome ∧ 1 < s.nCountAlgoBlocks then
      dgwAlgoTarget T params last s
    else pure params.powLimit
  let bnNew ← dgwRetarget bnNew (last.getBlockTime - (T.deref s.pindex).getBlockTime)
    (s.nCountBlocks * params.nPowTargetSpacing)
  dgwLimit sporks params last pblock bnNew

/-- `DarkGravityWave(pindexLast, pblock, params)`: the last block's `nBits` without
retargeting, `powLimit` below `nPastAlgoBlocks` blocks, the computed target otherwise,
over at most as many blocks as `pindexLast`'s height. -/
def darkGravityWave (T : BlockTree) (sporks : SporkManager) (params : ConsensusParams)
    (pindexLast : BlockPtr) (pblock : CBlockHeader) : Except String UInt32 :=
  let last := T.deref pindexLast
  if params.fPowNoRetargeting then pure last.nBits
  else
    let nPastBlocks := dgwPastBlocks last.nHeight
    -- make sure we have at least ALGO_ACTIVE_COUNT blocks, otherwise just return powLimit
    if last.nHeight < nPastBlocks ∧ last.nHeight < nPastAlgoBlocks then
      pure (getCompact params.powLimit false)
    else do
      let nPastBlocks := if last.nHeight < nPastBlocks then last.nHeight else nPastBlocks
      let bnNew ← darkGravityWaveTarget T sporks params pindexLast pblock nPastBlocks
      pure (getCompact bnNew false)

/-! ## The original rule -/

/-- `PastBlocksMin` and `PastBlocksMax` of `DarkGravityWaveVLS`. -/
def pastBlocksVLS : Nat := 24

/-- The locals of `DarkGravityWaveVLS`'s loop. -/
structure VlsState where
  blockReading : BlockPtr
  nActualTimespan : Int
  lastBlockTime : Int
  countBlocks : Nat
  pastDifficultyAverage : ArithUint256
  pastDifficultyAveragePrev : ArithUint256

/-- `PastDifficultyAverage` after the block of target `bnBits`, the `CountBlocks`-th. -/
def vlsAverage (s : VlsState) (countBlocks : Nat) (bnBits : ArithUint256) :
    Except String ArithUint256 :=
  if countBlocks ≤ pastBlocksVLS then
    if countBlocks = 1 then pure bnBits
    else div (s.pastDifficultyAveragePrev.mulU32 (UInt32.ofNat countBlocks) + bnBits)
      (ofU64 (UInt64.ofNat (countBlocks + 1)))
  else pure s.pastDifficultyAverage

/-- `for (unsigned int i = 1; BlockReading && BlockReading->nHeight > 0; i++)`, left by
`break` once `i > PastBlocksMax` or at a block without a parent.  Started with `25` passes
at `i = 1`, the fuel never runs out before the `break`. -/
def vlsLoop (T : BlockTree) : Nat → Nat → VlsState → Except String VlsState
  | 0, _, s => pure s
  | fuel + 1, i, s =>
    let b := T.deref s.blockReading
    if b.nHeight = 0 ∨ i > pastBlocksVLS then pure s
    else do
      let countBlocks := s.countBlocks + 1
      let average ← vlsAverage s countBlocks (setCompact b.nBits).value
      let s : VlsState :=
        { s with
          countBlocks := countBlocks
          pastDifficultyAverage := average
          pastDifficultyAveragePrev :=
            if countBlocks ≤ pastBlocksVLS then average else s.pastDifficultyAveragePrev
          nActualTimespan := if s.lastBlockTime > 0 then
              s.nActualTimespan + (s.lastBlockTime - b.getBlockTime)
            else s.nActualTimespan
          lastBlockTime := b.getBlockTime }
      match b.pprev with
      | none => pure s
      | some pprev => vlsLoop T fuel (i + 1) { s with blockReading := pprev }

/-- `DarkGravityWaveVLS(pindexLast, params)`: the average of the last 24 targets retargeted
by their timespan clamped to a third and three times the target timespan, at most
`powLimit`. -/
def darkGravityWaveVLS (T : BlockTree) (params : ConsensusParams) (pindexLast : BlockPtr) :
    Except String UInt32 := do
  let last := T.deref pindexLast
  if last.nHeight = 0 ∨ last.nHeight < pastBlocksVLS then pure (getCompact params.powLimit false)
  else
    let s ← vlsLoop T (pastBlocksVLS + 1) 1 ⟨pindexLast, 0, 0, 0, 0, 0⟩
    let nTargetTimespan : Int := s.countBlocks * params.nPowTargetSpacing
    let nActualTimespan := if s.nActualTimespan < nTargetTimespan.tdiv 3 then nTargetTimespan.tdiv 3
      else s.nActualTimespan
    let nActualTimespan :=
      if nActualTimespan > nTargetTimespan * 3 then nTargetTimespan * 3 else nActualTimespan
    let bnNew ← div (s.pastDifficultyAverage.mulU32 (UInt32.ofInt nActualTimespan))
      (ofInt64 nTargetTimespan)
    let bnNew := if bnNew > params.powLimit then params.powLimit else bnNew
    pure (getCompact bnNew false)

/-- `GetNextWorkRequiredVLS`: its `retarget` is the constant `DIFF_DGW`, so it is
`DarkGravityWaveVLS`. -/
def getNextWorkRequiredVLS (T : BlockTree) (params : ConsensusParams) (pindexLast : BlockPtr) :
    Except String UInt32 :=
  darkGravityWaveVLS T params pindexLast

/-! ## `GetNextWorkRequired` -/

/-- The dead-lock protection: the difficulty halves for every two block spacings past
`ALGO_ACTIVE_COUNT` spacings without a block, down to `powLimit`. -/
def deadLockProtection (params : ConsensusParams) (nHalvings : Int) (nBits : UInt32) : UInt32 :=
  if nHalvings > 0 then
    let bnPowLimit := params.powLimit
    let bnBits := (setCompact nBits).value
    let bnBits :=
      if params.fPowAllowMinDifficultyBlocks || decide ((bnPowLimit >>> nHalvings.toNat) < bnBits)
      then bnPowLimit
      else bnBits <<< nHalvings.toNat
    getCompact bnBits false
  else nBits

/-- `GetNextWorkRequired(pindexLast, pblock, params)`. -/
def getNextWorkRequired (T : BlockTree) (sporks : SporkManager) (params : ConsensusParams)
    (pindexLast : BlockPtr) (pblock : CBlockHeader) : Except String UInt32 :=
  let last := T.deref pindexLast
  if (last.nHeight : Int) + 1 < (sporks.getSporkValue SPORK_VELES_01_FXTC_CHAIN_START).toInt then
    getNextWorkRequiredVLS T params pindexLast
  else do
    let nBits ← darkGravityWave T sporks params pindexLast pblock
    -- an integer division by zero traps
    if params.nPowTargetSpacing * 2 = 0 then throw "division by zero"
    else
      let nHalvings := (pblock.getBlockTime - last.getBlockTime).tdiv (params.nPowTargetSpacing * 2) -
        ALGO_ACTIVE_COUNT + 1
      pure (deadLockProtection params nHalvings nBits)

end Veles
