import Veles.Pow.Params

/-!
# Subsidy halving epochs

`GetSubsidyHalvingParameters(nHeight)` (validation.cpp) splits the heights into epochs: the
premine block, the bootstrap epoch up to `SPORK_VELES_04_REWARD_UPGRADE_ALPHA_START`, and
from there epochs of `nHalvingInterval` blocks.  At the end of each epoch it asks
`CountBlockRewards` for the coins the epoch issued; once the coins issued since the last
halving reach 80% of what the epochs could have issued, the subsidy halves and the
interval doubles.

The supply computation is a parameter here: a function of the heights and of the
parameters built so far, with a state of its own (the node's is `totalSupplyIndex` over
the active chain, `Reward/Supply.lean`).  The epochs are described for every outcome of
it.  `int` and `CAmount` are integers, without the bounds of the machine types: the
heights for which nothing overflows; `double` is `Float`.

    LoopInv s → nHalvingInterval ≤ nBlocksToProccess → LoopInv (halvingStep … s st).1
    getSubsidyHalvingParameters … nHeight st = some (p, st') ∧ EpochsTile consensus nHeight p
-/

namespace Veles

open Spork

/-- `COIN`. -/
def COIN : Int := 100000000

def HALVING_MIN_SUPPLY_TARGET : Float := 0.80
def HALVING_MIN_BOOST_SUPPLY_TARGET : Float := 0.60
def HALVING_MAX_BOOST_STEP : Float := 0.5

/-- The fields of `Consensus::Params` that the block reward reads. -/
structure RewardParams where
  nSubsidyHalvingInterval : Int
  nVlsRewardsAlphaMultiplier : Int
  nMinimumSubsidy : Int
  nBudgetPaymentsStartBlock : Int

/-- `CMainParams`. -/
def mainRewardParams : RewardParams where
  nSubsidyHalvingInterval := 2000
  nVlsRewardsAlphaMultiplier := 10
  nMinimumSubsidy := 100000
  nBudgetPaymentsStartBlock := 999 * 365 * 576

/-- `HalvingEpoch`, with its default member initialisers. -/
structure HalvingEpoch where
  nStartBlock : Int := 0
  nEndBlock : Int := 0
  nDynamicRewardsBoostFactor : Float := 0
  fHasEnded : Bool := false
  fIsSubsidyHalved : Bool := false
  nMaxBlockSubsidy : Int := 0
  nStartSupply : Int := 0
  nEndSupply : Int := 0

/-- `HalvingParameters`. -/
structure HalvingParameters where
  nHalvingCount : Int := 0
  nHalvingInterval : Int := 0
  nDynamicRewardsBoostFactor : Float := 0
  epochs : List HalvingEpoch := []

/-- `nHeightOffset`: the reward upgrade spork, converted to `int`. -/
def halvingHeightOffset (sporks : SporkManager) : Int :=
  (sporks.getSporkValue SPORK_VELES_04_REWARD_UPGRADE_ALPHA_START).toInt32.toInt

/-! ## The loop -/

/-- The state of `GetSubsidyHalvingParameters`'s loop: the parameters, with the epoch being
built (`epochs[nCurrentEpoch]`) apart from the ended ones, and the locals carried across
passes. -/
structure HalvingLoop where
  nHalvingCount : Int
  nHalvingInterval : Int
  nDynamicRewardsBoostFactor : Float
  ended : List HalvingEpoch
  cur : HalvingEpoch
  nBlocksToProccess : Int
  nCurrentHalvingRealSupply : Int

/-- `*params`: the ended epochs, then the current one. -/
def HalvingLoop.params (s : HalvingLoop) : HalvingParameters where
  nHalvingCount := s.nHalvingCount
  nHalvingInterval := s.nHalvingInterval
  nDynamicRewardsBoostFactor := s.nDynamicRewardsBoostFactor
  epochs := s.ended ++ [s.cur]

/-- The boost after a halving: slow down the dynamic reward boost. -/
def boostAfterHalving (f : Float) : Float :=
  if f > HALVING_MAX_BOOST_STEP then f / 2 else 0

/-- The boost of an epoch far from its target supply. -/
def boostWhenShort (f : Float) : Float :=
  if f != 0 then f * 2 else HALVING_MAX_BOOST_STEP

section Loop

variable {σ : Type} (countBlockRewards : Int → Int → HalvingParameters → σ → Int × σ)

/-- Finish the current epoch: mark it ended and give it the coins `CountBlockRewards`
counts from its start to the block before its end. -/
def finishEpoch (s : HalvingLoop) (st : σ) : HalvingEpoch × σ :=
  let prev := { s.cur with fHasEnded := true }
  let r := countBlockRewards prev.nStartBlock (prev.nEndBlock - 1) { s with cur := prev }.params st
  ({ prev with nEndSupply := prev.nStartSupply + r.1 }, r.2)

/-- Whether enough coins were released since the last halving, `prev` being the epoch just
finished. -/
def halvingDue (s : HalvingLoop) (prev : HalvingEpoch) : Bool :=
  let nCurrentMaxSupply := prev.nMaxBlockSubsidy * s.nHalvingInterval
  let nCurrentEpochRealSupply := prev.nEndSupply - prev.nStartSupply
  decide (Float.ofInt (s.nCurrentHalvingRealSupply + nCurrentEpochRealSupply) ≥
    Float.ofInt nCurrentMaxSupply * HALVING_MIN_SUPPLY_TARGET)

/-- The new epoch's boost: slowed down after a halving, boosted when far from the target
supply. -/
def nextBoost (s : HalvingLoop) (prev : HalvingEpoch) (halve : Bool) : Float :=
  let nCurrentMaxSupply := prev.nMaxBlockSubsidy * s.nHalvingInterval
  let nCurrentEpochRealSupply := prev.nEndSupply - prev.nStartSupply
  if halve then boostAfterHalving prev.nDynamicRewardsBoostFactor
  -- boost dynamic rewards if we're far from target supply
  else if Float.ofInt nCurrentEpochRealSupply <
      Float.ofInt nCurrentMaxSupply * HALVING_MIN_BOOST_SUPPLY_TARGET then
    boostWhenShort prev.nDynamicRewardsBoostFactor
  else prev.nDynamicRewardsBoostFactor

/-- One pass of the `while` loop: finish the current epoch, open the next one, and halve
the subsidy and double the halving interval once enough coins were released. -/
def halvingStep (s : HalvingLoop) (st : σ) : HalvingLoop × σ :=
  let r := finishEpoch countBlockRewards s st
  let prev := r.1
  let halve := halvingDue s prev
  let nHalvingInterval := if halve then s.nHalvingInterval * 2 else s.nHalvingInterval
  let nDynamicRewardsBoostFactor := nextBoost s prev halve
  ({ nHalvingCount := if halve then s.nHalvingCount + 1 else s.nHalvingCount
     nHalvingInterval := nHalvingInterval
     nDynamicRewardsBoostFactor := nDynamicRewardsBoostFactor
     ended := s.ended ++ [prev]
     cur :=
      { nStartBlock := prev.nEndBlock + 1, nStartSupply := prev.nEndSupply,
        nMaxBlockSubsidy :=
          if halve then prev.nMaxBlockSubsidy >>> (1 : Nat) else prev.nMaxBlockSubsidy,
        fIsSubsidyHalved := halve,
        nDynamicRewardsBoostFactor := nDynamicRewardsBoostFactor,
        -- complete the next epoch struct
        nEndBlock := prev.nEndBlock + nHalvingInterval }
     nBlocksToProccess := s.nBlocksToProccess - s.nHalvingInterval
     nCurrentHalvingRealSupply :=
      if halve then 0 else s.nCurrentHalvingRealSupply + (prev.nEndSupply - prev.nStartSupply) },
    r.2)

/-- `while (nBlocksToProccess >= params->nHalvingInterval)`; `none` when the fuel runs out
with the condition still true. -/
def halvingLoop : Nat → HalvingLoop → σ → Option (HalvingLoop × σ)
  | 0, s, st => if s.nHalvingInterval ≤ s.nBlocksToProccess then none else some (s, st)
  | fuel + 1, s, st =>
    if s.nHalvingInterval ≤ s.nBlocksToProccess then
      let r := halvingStep countBlockRewards s st
      halvingLoop fuel r.1 r.2
    else some (s, st)

/-- The premine epoch. -/
def premineEpoch : HalvingEpoch :=
  { nMaxBlockSubsidy := 50000 * COIN, nStartBlock := 1, nEndBlock := 1, nStartSupply := 0,
    nEndSupply := 50000 * COIN, fHasEnded := true }

/-- The bootstrap epoch, up to the block before the reward upgrade. -/
def bootstrapEpoch (nHeightOffset : Int) : HalvingEpoch :=
  { nMaxBlockSubsidy := 8 * COIN, nStartBlock := 2, nStartSupply := 50000 * COIN,
    nEndBlock := nHeightOffset - 1 }

/-- The first VCIP01 epoch, before the first halving. -/
def alphaEpoch (consensus : RewardParams) (nHeightOffset nStartSupply : Int) : HalvingEpoch :=
  { nMaxBlockSubsidy := 8 * COIN * consensus.nVlsRewardsAlphaMultiplier,
    nStartBlock := nHeightOffset, nStartSupply := nStartSupply,
    nEndBlock := nHeightOffset + consensus.nSubsidyHalvingInterval - 1 }

/-- The parameters and locals with the bootstrap epoch being built. -/
def bootstrapState (sporks : SporkManager) (consensus : RewardParams) (nHeight : Int) :
    HalvingLoop where
  nHalvingCount := 0
  -- default halving settings for first epoch
  nHalvingInterval := consensus.nSubsidyHalvingInterval
  nDynamicRewardsBoostFactor := 0
  ended := [premineEpoch]
  cur := bootstrapEpoch (halvingHeightOffset sporks)
  nBlocksToProccess := nHeight - halvingHeightOffset sporks
  nCurrentHalvingRealSupply := 0

/-- The parameters and locals once the bootstrap epoch `prev` is finished and the first
VCIP01 epoch opened. -/
def alphaState (consensus : RewardParams) (nHeightOffset : Int) (s : HalvingLoop)
    (prev : HalvingEpoch) : HalvingLoop :=
  { s with ended := s.ended ++ [prev], cur := alphaEpoch consensus nHeightOffset prev.nEndSupply }

section Fields

variable (consensus : RewardParams) (nHeightOffset : Int) (s : HalvingLoop) (prev : HalvingEpoch)
  (sporks : SporkManager) (nHeight : Int)

@[simp] theorem alphaState_ended : (alphaState consensus nHeightOffset s prev).ended = s.ended ++ [prev] :=
  rfl
@[simp] theorem alphaState_cur :
    (alphaState consensus nHeightOffset s prev).cur = alphaEpoch consensus nHeightOffset prev.nEndSupply :=
  rfl
@[simp] theorem alphaState_nHalvingCount :
    (alphaState consensus nHeightOffset s prev).nHalvingCount = s.nHalvingCount := rfl
@[simp] theorem alphaState_nHalvingInterval :
    (alphaState consensus nHeightOffset s prev).nHalvingInterval = s.nHalvingInterval := rfl
@[simp] theorem alphaState_nBlocksToProccess :
    (alphaState consensus nHeightOffset s prev).nBlocksToProccess = s.nBlocksToProccess := rfl

@[simp] theorem bootstrapState_ended : (bootstrapState sporks consensus nHeight).ended = [premineEpoch] :=
  rfl
@[simp] theorem bootstrapState_cur :
    (bootstrapState sporks consensus nHeight).cur = bootstrapEpoch (halvingHeightOffset sporks) := rfl
@[simp] theorem bootstrapState_nHalvingCount : (bootstrapState sporks consensus nHeight).nHalvingCount = 0 :=
  rfl
@[simp] theorem bootstrapState_nHalvingInterval :
    (bootstrapState sporks consensus nHeight).nHalvingInterval = consensus.nSubsidyHalvingInterval := rfl
@[simp] theorem bootstrapState_nBlocksToProccess :
    (bootstrapState sporks consensus nHeight).nBlocksToProccess = nHeight - halvingHeightOffset sporks :=
  rfl

end Fields

/-- `GetSubsidyHalvingParameters(nHeight, consensusParams)`, with `CountBlockRewards` a
parameter.  The bootstrap epoch is finished as the loop finishes an epoch.  The loop gets
one pass per block to process, more than it can make. -/
def getSubsidyHalvingParameters (sporks : SporkManager) (consensus : RewardParams)
    (nHeight : Int) (st : σ) : Option (HalvingParameters × σ) :=
  let nHeightOffset := halvingHeightOffset sporks
  let s := bootstrapState sporks consensus nHeight
  -- we're still in the bootstrap epoch
  if nHeight < nHeightOffset then some (s.params, st)
  else
    let r := finishEpoch countBlockRewards s st
    let s := alphaState consensus nHeightOffset s r.1
    -- we're still before the first halving is supposed to occur
    if nHeight ≤ s.cur.nEndBlock then some (s.params, r.2)
    else (halvingLoop countBlockRewards (s.nBlocksToProccess.toNat + 1) s r.2).map
      fun r => (r.1.params, r.2)

end Loop

/-! ## What a pass does

One lemma per field of the next state, true by `rfl`, so that the invariant's proof never
unfolds the pass. -/

section Step

variable {σ : Type} (countBlockRewards : Int → Int → HalvingParameters → σ → Int × σ)
  (s : HalvingLoop) (st : σ)

@[simp] theorem finishEpoch_nStartBlock :
    (finishEpoch countBlockRewards s st).1.nStartBlock = s.cur.nStartBlock := rfl
@[simp] theorem finishEpoch_nEndBlock :
    (finishEpoch countBlockRewards s st).1.nEndBlock = s.cur.nEndBlock := rfl
@[simp] theorem finishEpoch_nStartSupply :
    (finishEpoch countBlockRewards s st).1.nStartSupply = s.cur.nStartSupply := rfl
@[simp] theorem finishEpoch_fHasEnded : (finishEpoch countBlockRewards s st).1.fHasEnded = true :=
  rfl
@[simp] theorem finishEpoch_fIsSubsidyHalved :
    (finishEpoch countBlockRewards s st).1.fIsSubsidyHalved = s.cur.fIsSubsidyHalved := rfl
@[simp] theorem finishEpoch_nMaxBlockSubsidy :
    (finishEpoch countBlockRewards s st).1.nMaxBlockSubsidy = s.cur.nMaxBlockSubsidy := rfl

@[simp] theorem halvingStep_ended :
    (halvingStep countBlockRewards s st).1.ended = s.ended ++ [(finishEpoch countBlockRewards s st).1] :=
  rfl
@[simp] theorem halvingStep_cur_nStartBlock :
    (halvingStep countBlockRewards s st).1.cur.nStartBlock = s.cur.nEndBlock + 1 := rfl
@[simp] theorem halvingStep_cur_nStartSupply :
    (halvingStep countBlockRewards s st).1.cur.nStartSupply =
      ((finishEpoch countBlockRewards s st).1).nEndSupply := rfl
@[simp] theorem halvingStep_nHalvingInterval :
    (halvingStep countBlockRewards s st).1.nHalvingInterval =
      if halvingDue s (finishEpoch countBlockRewards s st).1 then s.nHalvingInterval * 2 else s.nHalvingInterval :=
  rfl
@[simp] theorem halvingStep_nHalvingCount :
    (halvingStep countBlockRewards s st).1.nHalvingCount =
      if halvingDue s (finishEpoch countBlockRewards s st).1 then s.nHalvingCount + 1 else s.nHalvingCount := rfl
@[simp] theorem halvingStep_cur_nMaxBlockSubsidy :
    (halvingStep countBlockRewards s st).1.cur.nMaxBlockSubsidy =
      if halvingDue s (finishEpoch countBlockRewards s st).1 then
        s.cur.nMaxBlockSubsidy >>> (1 : Nat)
      else s.cur.nMaxBlockSubsidy := rfl
@[simp] theorem halvingStep_cur_fIsSubsidyHalved :
    (halvingStep countBlockRewards s st).1.cur.fIsSubsidyHalved =
      halvingDue s (finishEpoch countBlockRewards s st).1 := rfl
@[simp] theorem halvingStep_cur_nEndBlock :
    (halvingStep countBlockRewards s st).1.cur.nEndBlock =
      s.cur.nEndBlock + (halvingStep countBlockRewards s st).1.nHalvingInterval := rfl
@[simp] theorem halvingStep_nBlocksToProccess :
    (halvingStep countBlockRewards s st).1.nBlocksToProccess =
      s.nBlocksToProccess - s.nHalvingInterval := rfl

end Step

/-! ## The epochs the loop builds -/

/-- `b` starts the block after `a` ends, with the supply `a` ends with. -/
def Follows (a b : HalvingEpoch) : Prop :=
  b.nStartBlock = a.nEndBlock + 1 ∧ b.nStartSupply = a.nEndSupply

/-- The number of epochs whose subsidy was halved. -/
def halvedCount (es : List HalvingEpoch) : Nat := (es.filter (·.fIsSubsidyHalved)).length

theorem halvedCount_append (l l' : List HalvingEpoch) :
    halvedCount (l ++ l') = halvedCount l + halvedCount l' := by
  simp [halvedCount, List.filter_append]

theorem halvedCount_singleton (e : HalvingEpoch) :
    halvedCount [e] = if e.fIsSubsidyHalved then 1 else 0 := by
  cases h : e.fIsSubsidyHalved <;> simp [halvedCount, h]

/-- Replacing the last epoch by one with the same start, and appending one that follows it,
keeps the epochs contiguous. -/
theorem isChain_follows_push {l : List HalvingEpoch} {a a' b : HalvingEpoch}
    (h : (l ++ [a]).IsChain Follows) (hs : a'.nStartBlock = a.nStartBlock)
    (hss : a'.nStartSupply = a.nStartSupply) (hb : Follows a' b) :
    (l ++ [a', b]).IsChain Follows := by
  rw [List.isChain_append] at h ⊢
  obtain ⟨hl, -, hlast⟩ := h
  refine ⟨hl, List.isChain_pair.mpr hb, fun x hx y hy => ?_⟩
  obtain rfl : y = a' := by simpa using hy.symm
  obtain ⟨h1, h2⟩ := hlast x hx a (by simp)
  exact ⟨hs.trans h1, hss.trans h2⟩

/-- What holds of the loop's state at every pass, for the height `nHeight` asked for: the
epochs tile the heights from the premine block, all but the current one have ended, the
current one holds `nHeight` from its start and spans the interval, and the interval and
the subsidy follow the halvings. -/
structure LoopInv (consensus : RewardParams) (nHeight : Int) (s : HalvingLoop) : Prop where
  tiles : (s.ended ++ [s.cur]).IsChain Follows
  premine : s.ended.head? = some premineEpoch
  ended : ∀ e ∈ s.ended, e.fHasEnded = true
  blocks : s.nBlocksToProccess = nHeight - s.cur.nStartBlock
  start_le : s.cur.nStartBlock ≤ nHeight
  length : s.cur.nEndBlock = s.cur.nStartBlock + s.nHalvingInterval - 1
  count_nonneg : 0 ≤ s.nHalvingCount
  interval : s.nHalvingInterval = consensus.nSubsidyHalvingInterval * 2 ^ s.nHalvingCount.toNat
  halved : s.nHalvingCount = halvedCount (s.ended ++ [s.cur])
  subsidy : s.cur.nMaxBlockSubsidy =
    (8 * COIN * consensus.nVlsRewardsAlphaMultiplier) >>> s.nHalvingCount.toNat

section Inv

variable {σ : Type} (countBlockRewards : Int → Int → HalvingParameters → σ → Int × σ)
  {consensus : RewardParams} {nHeight : Int} {s : HalvingLoop}

/-- A pass keeps the invariant: the finished epoch keeps its start, the new one follows it
with the interval in force after the halving decision. -/
theorem LoopInv.step (h : LoopInv consensus nHeight s)
    (hc : s.nHalvingInterval ≤ s.nBlocksToProccess) (st : σ) :
    LoopInv consensus nHeight (halvingStep countBlockRewards s st).1 where
  tiles := by
    rw [halvingStep_ended, List.append_assoc, List.singleton_append]
    exact isChain_follows_push h.tiles (finishEpoch_nStartBlock _ _ _)
      (finishEpoch_nStartSupply _ _ _) ⟨halvingStep_cur_nStartBlock _ _ _, rfl⟩
  premine := by
    rw [halvingStep_ended, List.head?_append, h.premine]
    rfl
  ended e he := by
    rw [halvingStep_ended, List.mem_append, List.mem_singleton] at he
    rcases he with he | rfl
    · exact h.ended e he
    · exact finishEpoch_fHasEnded _ _ _
  blocks := by
    have := h.blocks
    have := h.length
    simp only [halvingStep_nBlocksToProccess, halvingStep_cur_nStartBlock]
    omega
  start_le := by
    have := h.blocks
    have := h.length
    simp only [halvingStep_cur_nStartBlock]
    omega
  length := by
    simp only [halvingStep_cur_nEndBlock, halvingStep_cur_nStartBlock]
    omega
  count_nonneg := by
    have := h.count_nonneg
    simp only [halvingStep_nHalvingCount]
    split_ifs <;> omega
  interval := by
    have hk := h.count_nonneg
    simp only [halvingStep_nHalvingInterval, halvingStep_nHalvingCount]
    split_ifs
    · rw [h.interval, show (s.nHalvingCount + 1).toNat = s.nHalvingCount.toNat + 1 by omega,
        pow_succ, mul_assoc]
    · exact h.interval
  halved := by
    rw [halvingStep_ended, halvingStep_nHalvingCount, halvedCount_append, halvedCount_append,
      halvedCount_singleton, halvedCount_singleton, halvingStep_cur_fIsSubsidyHalved,
      finishEpoch_fIsSubsidyHalved]
    have := h.halved
    rw [halvedCount_append, halvedCount_singleton] at this
    split_ifs at this ⊢ <;> omega
  subsidy := by
    have hk := h.count_nonneg
    simp only [halvingStep_cur_nMaxBlockSubsidy, halvingStep_nHalvingCount]
    split_ifs
    · rw [h.subsidy, show (s.nHalvingCount + 1).toNat = s.nHalvingCount.toNat + 1 by omega]
      exact (Int.shiftRight_add _ _ _).symm
    · exact h.subsidy

/-- The interval in force is positive when the network's is. -/
theorem LoopInv.interval_pos (h : LoopInv consensus nHeight s)
    (hI : 0 < consensus.nSubsidyHalvingInterval) : 0 < s.nHalvingInterval := by
  rw [h.interval]
  positivity

/-- With more fuel than blocks to process, the loop ends by its condition, in a state of
the invariant. -/
theorem halvingLoop_ok (hI : 0 < consensus.nSubsidyHalvingInterval) :
    ∀ (fuel : Nat) (s : HalvingLoop) (st : σ), LoopInv consensus nHeight s →
      s.nBlocksToProccess.toNat < fuel →
      ∃ s' st', halvingLoop countBlockRewards fuel s st = some (s', st') ∧
        LoopInv consensus nHeight s' ∧ s'.nBlocksToProccess < s'.nHalvingInterval := by
  intro fuel
  induction fuel with
  | zero =>
    intro s st h hf
    exact absurd hf (Nat.not_lt_zero _)
  | succ fuel ih =>
    intro s st h hf
    rw [halvingLoop]
    split_ifs with hc
    · have hpos := h.interval_pos hI
      exact ih _ _ (h.step countBlockRewards hc st) (by simp only [halvingStep_nBlocksToProccess]; omega)
    · exact ⟨s, st, rfl, h, by omega⟩

end Inv

/-! ## The epochs `GetSubsidyHalvingParameters` returns -/

/-- The epochs tile the heights from the premine block on: each starts the block after the
previous ends and with its end supply, all but the last have ended, the last holds `nHeight`
and spans the interval in force, the interval has doubled at every halving, the halvings
are the epochs marked halved, and the last subsidy is the upgraded one halved as often. -/
structure EpochsTile (consensus : RewardParams) (nHeight : Int) (p : HalvingParameters) :
    Prop where
  premine : ∃ e, p.epochs.head? = some e ∧ e.nStartBlock = 1 ∧ e.nEndBlock = 1
  contiguous : ∀ i (hi : i + 1 < p.epochs.length),
    p.epochs[i + 1].nStartBlock = p.epochs[i].nEndBlock + 1 ∧
      p.epochs[i + 1].nStartSupply = p.epochs[i].nEndSupply
  ended : ∀ i (hi : i + 1 < p.epochs.length), p.epochs[i].fHasEnded = true
  last : ∃ e, p.epochs.getLast? = some e ∧ e.nStartBlock ≤ nHeight ∧ nHeight ≤ e.nEndBlock ∧
    e.nEndBlock - e.nStartBlock + 1 = p.nHalvingInterval ∧
    e.nMaxBlockSubsidy = (8 * COIN * consensus.nVlsRewardsAlphaMultiplier) >>> p.nHalvingCount.toNat
  count_nonneg : 0 ≤ p.nHalvingCount
  interval : p.nHalvingInterval = consensus.nSubsidyHalvingInterval * 2 ^ p.nHalvingCount.toNat
  halved : p.nHalvingCount = halvedCount p.epochs

section Result

variable {σ : Type} (countBlockRewards : Int → Int → HalvingParameters → σ → Int × σ)
  {consensus : RewardParams} {nHeight : Int} {s : HalvingLoop}

/-- Where the loop stops, the invariant gives the epochs their shape. -/
theorem LoopInv.epochsTile (h : LoopInv consensus nHeight s)
    (hlt : s.nBlocksToProccess < s.nHalvingInterval) : EpochsTile consensus nHeight s.params where
  premine := ⟨premineEpoch, by
    show (s.ended ++ [s.cur]).head? = _
    rw [List.head?_append, h.premine]
    rfl, rfl, rfl⟩
  contiguous i hi := List.isChain_iff_getElem.mp h.tiles i hi
  ended i hi := by
    have hi' : i < s.ended.length := by simpa [HalvingLoop.params] using hi
    simp only [HalvingLoop.params]
    rw [List.getElem_append_left hi']
    exact h.ended _ (List.getElem_mem hi')
  last := by
    have := h.blocks
    have := h.length
    have hI : s.params.nHalvingInterval = s.nHalvingInterval := rfl
    refine ⟨s.cur, List.getLast?_concat .., h.start_le, by omega, by omega, h.subsidy⟩
  count_nonneg := h.count_nonneg
  interval := h.interval
  halved := h.halved

/-- The state once the first VCIP01 epoch is opened keeps the invariant, whatever the
bootstrap epoch's coins. -/
theorem loopInv_alpha (sporks : SporkManager) (st : σ)
    (hh : halvingHeightOffset sporks ≤ nHeight) :
    LoopInv consensus nHeight (alphaState consensus (halvingHeightOffset sporks)
      (bootstrapState sporks consensus nHeight)
      (finishEpoch countBlockRewards (bootstrapState sporks consensus nHeight) st).1) where
  tiles := by
    simp only [alphaState_ended, alphaState_cur, bootstrapState_ended, List.cons_append,
      List.nil_append]
    refine List.isChain_cons_cons.mpr ⟨⟨rfl, rfl⟩, List.isChain_pair.mpr ⟨?_, rfl⟩⟩
    simp [alphaEpoch, bootstrapEpoch]
  premine := rfl
  ended e he := by
    simp only [alphaState_ended, bootstrapState_ended, List.cons_append, List.nil_append,
      List.mem_cons, List.not_mem_nil, or_false] at he
    rcases he with rfl | rfl
    · rfl
    · exact finishEpoch_fHasEnded _ _ _
  blocks := by simp [alphaEpoch]
  start_le := by simpa [alphaEpoch] using hh
  length := by simp [alphaEpoch]
  count_nonneg := by simp
  interval := by simp
  halved := by simp [halvedCount, premineEpoch, alphaEpoch, bootstrapEpoch]
  subsidy := by simp [alphaEpoch]

end Result

/-- From the reward upgrade on, on a network with a positive halving interval and for every
outcome of `CountBlockRewards`, `GetSubsidyHalvingParameters` returns epochs that tile the
heights up to one holding `nHeight`. -/
theorem getSubsidyHalvingParameters_tiles {σ : Type}
    (countBlockRewards : Int → Int → HalvingParameters → σ → Int × σ) (sporks : SporkManager)
    (consensus : RewardParams) (nHeight : Int) (st : σ)
    (hI : 0 < consensus.nSubsidyHalvingInterval) (hh : halvingHeightOffset sporks ≤ nHeight) :
    ∃ p st', getSubsidyHalvingParameters countBlockRewards sporks consensus nHeight st =
      some (p, st') ∧ EpochsTile consensus nHeight p := by
  have hinv : LoopInv consensus nHeight _ := loopInv_alpha countBlockRewards sporks st hh
  unfold getSubsidyHalvingParameters
  dsimp only
  rw [if_neg (not_lt.mpr hh)]
  split_ifs with hlow
  · -- before the first halving, the first VCIP01 epoch is the last one
    have := hinv.blocks
    have := hinv.length
    exact ⟨_, _, rfl, hinv.epochsTile (by omega)⟩
  · obtain ⟨s', st', hs', hinv', hlt⟩ :=
      halvingLoop_ok countBlockRewards hI _ _ _ hinv (Nat.lt_add_one _)
    rw [hs']
    exact ⟨_, _, rfl, hinv'.epochsTile hlt⟩

/-- On mainnet with the default reward upgrade height: at that height, where the first VCIP01
epoch is the last one, and at 60000, past the end of that epoch at 51999, where the halving
loop runs. -/
theorem getSubsidyHalvingParameters_tiles_mainnet :
    (0 : Int) < mainRewardParams.nSubsidyHalvingInterval ∧
      halvingHeightOffset SporkManager.empty ≤ 50000 ∧
      (∃ p st', getSubsidyHalvingParameters (fun _ _ _ st => (0, st)) SporkManager.empty
        mainRewardParams 50000 () = some (p, st') ∧ EpochsTile mainRewardParams 50000 p) ∧
      (alphaEpoch mainRewardParams (halvingHeightOffset SporkManager.empty) 0).nEndBlock =
        51999 ∧
      ∃ p st', getSubsidyHalvingParameters (fun _ _ _ st => (0, st)) SporkManager.empty
        mainRewardParams 60000 () = some (p, st') ∧ EpochsTile mainRewardParams 60000 p :=
  ⟨by decide, by decide,
    getSubsidyHalvingParameters_tiles _ _ _ _ () (by decide) (by decide), by decide,
    getSubsidyHalvingParameters_tiles _ _ _ _ () (by decide) (by decide)⟩

end Veles
