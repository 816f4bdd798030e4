import Veles.Pow.NextWorkRange

/-!
# `DarkGravityWave` over unbounded naturals

The same formula as `DarkGravityWave`, with every `arith_uint256` value a natural number:
the running averages with floor division, the clamps of the timespans, the efficiency
scaling, the `powLimit` clamp and the handbrake.  The loop is the one of the code,
`dgwLoop`, run with natural averages.

The two differ: `bnPowLimit * GetHandbrakeForce(…)` wraps modulo `2^256` once the force
exceeds `2^20`, and the wrapped product can fall below the target, so the code returns
`powLimit` where the formula divides by the force (`darkGravityWaveTarget_handbrake_wraps`).

    darkGravityWaveTarget … = .ok powLimit
    darkGravityWaveTargetNat … = .ok (powLimit / (2^20 + 1))
-/

namespace Veles

open Spork

/-- `a / b` over `Nat`, an error on a zero divisor as in `base_uint`. -/
def divNat (a b : Nat) : Except String Nat :=
  if b = 0 then .error "Division by zero" else .ok (a / b)

/-- `(avg * (n - 1) + bnTarget) / n`. -/
def runningAverageNat (avg bnTarget : Nat) (n : Nat) : Except String Nat :=
  divNat (avg * (n - 1) + bnTarget) n

/-- The decoded target normalised by its algorithm's efficiency. -/
def dgwTargetNat (b : CBlockIndex) : Except String Nat :=
  divNat (setCompact b.nBits).value.toNat (getAlgoEfficiency b.nVersion).toNat

/-- The clamps of `dgwRetarget`, then the product and quotient without a bound. -/
def dgwRetargetNat (bnNew : Nat) (nActualTimespan nTargetTimespan : Int) : Except String Nat :=
  let nActualTimespan := if nActualTimespan < 1 then 1 else nActualTimespan
  let nActualTimespan :=
    if nActualTimespan > nTargetTimespan * 2 then nTargetTimespan * 2 else nActualTimespan
  divNat (bnNew * nActualTimespan.toNat) nTargetTimespan.toNat

/-- `dgwAlgoTarget` over `Nat`. -/
def dgwAlgoTargetNat (T : BlockTree) (params : ConsensusParams) (last : CBlockIndex)
    (s : DgwState Nat) : Except String Nat :=
  match s.pindexAlgoFast, s.pindexAlgo with
  | some pindexAlgoFast, some pindexAlgo =>
    let fast := decide (last.getBlockTime - (T.deref pindexAlgoFast).getBlockTime <
      (params.nPowTargetSpacing * ALGO_ACTIVE_COUNT).tdiv 2)
    let nCountAlgoBlocks := if fast then s.nCountAlgoFastBlocks else s.nCountAlgoBlocks
    let pindexAlgo := if fast then pindexAlgoFast else pindexAlgo
    let bnNew := if fast then s.bnPastAlgoTargetAvgFast else s.bnPastAlgoTargetAvg
    dgwRetargetNat bnNew (last.getBlockTime - (T.deref pindexAlgo).getBlockTime)
      (nCountAlgoBlocks * params.nPowTargetSpacing * ALGO_ACTIVE_COUNT)
  | _, _ => throw "null pointer"

/-- `dgwLimit` over `Nat`: the same comparisons, with `powLimit * nForce` not reduced. -/
def dgwLimitNat (sporks : SporkManager) (params : ConsensusParams) (last : CBlockIndex)
    (pblock : CBlockHeader) (bnNew : Nat) : Except String Nat := do
  let bnPowLimit := params.powLimit.toNat
  let nEfficiency := (getAlgoEfficiency pblock.nVersion).toNat
  let bnLimitNormal ← divNat bnPowLimit nEfficiency
  let bnNew := if bnLimitNormal > bnNew then bnNew * nEfficiency else bnPowLimit
  let nForce := (getHandbrakeForce sporks pblock.nVersion (last.nHeight + 1)).toNat
  if bnPowLimit * nForce < bnNew then pure bnPowLimit
  else divNat bnNew nForce

/-- `darkGravityWaveTarget` over `Nat`. -/
def darkGravityWaveTargetNat (T : BlockTree) (sporks : SporkManager) (params : ConsensusParams)
    (pindexLast : BlockPtr) (pblock : CBlockHeader) (nPastBlocks : Nat) : Except String Nat := do
  let last := T.deref pindexLast
  let nVersion := pblock.nVersion &&& ALGO_VERSION_MASK
  let s ← dgwLoop runningAverageNat dgwTargetNat T nVersion nPastBlocks nPastBlocks
    (DgwState.init pindexLast)
  let s := dgwInstamine T params last s
  let bnNew ← if s.pindexAlgo.isSome ∧ s.pindexAlgoLast.isSome ∧ 1 < s.nCountAlgoBlocks then
      dgwAlgoTargetNat T params last s
    else pure params.powLimit.toNat
  let bnNew ← dgwRetargetNat bnNew (last.getBlockTime - (T.deref s.pindex).getBlockTime)
    (s.nCountBlocks * params.nPowTargetSpacing)
  dgwLimitNat sporks params last pblock bnNew

/-! ## The handbrake product wraps -/

/-- The handbrake at `2^20 + 1` for `scrypt` from height 0. -/
def sporksForceLarge : SporkManager :=
  ⟨fun s => if s = SPORK_FXTC_01_HANDBRAKE_HEIGHT then some 0
    else if s = SPORK_FXTC_01_HANDBRAKE_FORCE_SCRYPT then some 1048577 else none⟩

set_option maxRecDepth 10000 in
/-- After 26 `sha256d` blocks, a `scrypt` candidate's target is `powLimit` before the
handbrake; `powLimit * (2^20 + 1)` wraps below it, so the code keeps `powLimit` while the
formula divides it by the force. -/
theorem darkGravityWaveTarget_handbrake_wraps :
    darkGravityWaveTarget (testChain 26 ALGO_SHA256D 0x1e0fffff) sporksForceLarge mainParams 25
        ⟨0, 25, ALGO_SCRYPT, UInt32.ofNat (26 * 120), 0⟩ 25 = .ok mainParams.powLimit ∧
      darkGravityWaveTargetNat (testChain 26 ALGO_SHA256D 0x1e0fffff) sporksForceLarge mainParams 25
        ⟨0, 25, ALGO_SCRYPT, UInt32.ofNat (26 * 120), 0⟩ 25 =
        .ok (mainParams.powLimit.toNat / (2 ^ 20 + 1)) ∧
      mainParams.powLimit.toNat / (2 ^ 20 + 1) ≠ mainParams.powLimit.toNat :=
  ⟨by decide, by decide, by decide⟩

end Veles
