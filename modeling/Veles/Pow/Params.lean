import Veles.Chain.Work

/-!
# Proof-of-work parameters, sporks and the per-algorithm constants

The difficulty of the next block depends on the consensus parameters of the network, on
the sporks (network-wide values that the spork key holders can set, each with a default
compiled in), and on two tables keyed by the algorithm bits of `nVersion`:
`GetAlgoEfficiency`, which scales each algorithm's targets to a common measure, and
`GetHandbrakeForce`, a divisor that slows one algorithm down.

`GetSporkValue` returns an `int64_t`; `GetHandbrakeForce` returns it as an `unsigned int`,
so a spork value is taken modulo `2^32` there (`handbrakeForce_eq`).
-/

namespace Veles

/-- The proof-of-work fields of `Consensus::Params` that the difficulty reads. -/
structure ConsensusParams where
  powLimit : ArithUint256
  nPowTargetSpacing : Int
  fPowAllowMinDifficultyBlocks : Bool
  fPowNoRetargeting : Bool

/-- `CMainParams`: `powLimit` is `0x00000fff…ff`, blocks every two minutes. -/
def mainParams : ConsensusParams where
  powLimit := BitVec.ofNat 256 (2 ^ 236 - 1)
  nPowTargetSpacing := 2 * 60
  fPowAllowMinDifficultyBlocks := false
  fPowNoRetargeting := false

/-! ## Sporks -/

/-- The sporks that the difficulty and the block reward read. -/
inductive Spork where
  | SPORK_FXTC_01_HANDBRAKE_HEIGHT
  | SPORK_FXTC_01_HANDBRAKE_FORCE_SHA256D
  | SPORK_FXTC_01_HANDBRAKE_FORCE_SCRYPT
  | SPORK_FXTC_01_HANDBRAKE_FORCE_NIST5
  | SPORK_FXTC_01_HANDBRAKE_FORCE_LYRA2Z
  | SPORK_FXTC_01_HANDBRAKE_FORCE_X11
  | SPORK_FXTC_01_HANDBRAKE_FORCE_X16R
  | SPORK_VELES_01_FXTC_CHAIN_START
  | SPORK_VELES_04_REWARD_UPGRADE_ALPHA_START
  | SPORK_VELES_05A_ADJUST_COST_FACTOR_START
  | SPORK_VELES_05A_ADJUST_COST_FACTOR_SHA256D
  | SPORK_VELES_05A_ADJUST_COST_FACTOR_SCRYPT
  | SPORK_VELES_05A_ADJUST_COST_FACTOR_NIST5
  | SPORK_VELES_05A_ADJUST_COST_FACTOR_LYRA2Z
  | SPORK_VELES_05A_ADJUST_COST_FACTOR_X11
  | SPORK_VELES_05A_ADJUST_COST_FACTOR_X16R
  | SPORK_VELES_05B_ADJUST_COST_FACTOR_START
  | SPORK_VELES_05B_ADJUST_COST_FACTOR_SHA256D
  | SPORK_VELES_05B_ADJUST_COST_FACTOR_SCRYPT
  | SPORK_VELES_05B_ADJUST_COST_FACTOR_NIST5
  | SPORK_VELES_05B_ADJUST_COST_FACTOR_LYRA2Z
  | SPORK_VELES_05B_ADJUST_COST_FACTOR_X11
  | SPORK_VELES_05B_ADJUST_COST_FACTOR_X16R
  | SPORK_VELES_06A_DYNAMIC_REWARD_BOOST1_START
  | SPORK_VELES_06A_DYNAMIC_REWARD_BOOST1_FACTOR
  | SPORK_VELES_06B_DYNAMIC_REWARD_BOOST2_START
  | SPORK_VELES_06B_DYNAMIC_REWARD_BOOST2_FACTOR
  | SPORK_VELES_06C_DYNAMIC_REWARD_BOOST3_START
  | SPORK_VELES_06C_DYNAMIC_REWARD_BOOST3_FACTOR
  deriving DecidableEq, Repr

open Spork

/-- The `*_DEFAULT` value of each spork (spork.h). -/
def sporkDefault : Spork → Int64
  | SPORK_FXTC_01_HANDBRAKE_HEIGHT => 4070908800
  | SPORK_FXTC_01_HANDBRAKE_FORCE_SHA256D => 1
  | SPORK_FXTC_01_HANDBRAKE_FORCE_SCRYPT => 1
  | SPORK_FXTC_01_HANDBRAKE_FORCE_NIST5 => 1
  | SPORK_FXTC_01_HANDBRAKE_FORCE_LYRA2Z => 1
  | SPORK_FXTC_01_HANDBRAKE_FORCE_X11 => 1
  | SPORK_FXTC_01_HANDBRAKE_FORCE_X16R => 1
  | SPORK_VELES_01_FXTC_CHAIN_START => 11
  | SPORK_VELES_04_REWARD_UPGRADE_ALPHA_START => 50000
  | SPORK_VELES_05A_ADJUST_COST_FACTOR_START => 4070908800
  | SPORK_VELES_05A_ADJUST_COST_FACTOR_SHA256D => 900
  | SPORK_VELES_05A_ADJUST_COST_FACTOR_SCRYPT => 250
  | SPORK_VELES_05A_ADJUST_COST_FACTOR_NIST5 => 100
  | SPORK_VELES_05A_ADJUST_COST_FACTOR_LYRA2Z => 50
  | SPORK_VELES_05A_ADJUST_COST_FACTOR_X11 => 125
  | SPORK_VELES_05A_ADJUST_COST_FACTOR_X16R => 150
  | SPORK_VELES_05B_ADJUST_COST_FACTOR_START => 4070908800
  | SPORK_VELES_05B_ADJUST_COST_FACTOR_SHA256D => 900
  | SPORK_VELES_05B_ADJUST_COST_FACTOR_SCRYPT => 250
  | SPORK_VELES_05B_ADJUST_COST_FACTOR_NIST5 => 100
  | SPORK_VELES_05B_ADJUST_COST_FACTOR_LYRA2Z => 50
  | SPORK_VELES_05B_ADJUST_COST_FACTOR_X11 => 125
  | SPORK_VELES_05B_ADJUST_COST_FACTOR_X16R => 150
  | SPORK_VELES_06A_DYNAMIC_REWARD_BOOST1_START => 4070908800
  | SPORK_VELES_06A_DYNAMIC_REWARD_BOOST1_FACTOR => 100
  | SPORK_VELES_06B_DYNAMIC_REWARD_BOOST2_START => 4070908800
  | SPORK_VELES_06B_DYNAMIC_REWARD_BOOST2_FACTOR => 100
  | SPORK_VELES_06C_DYNAMIC_REWARD_BOOST3_START => 4070908800
  | SPORK_VELES_06C_DYNAMIC_REWARD_BOOST3_FACTOR => 100

/-- `CSporkManager`: the values of the sporks that a signed message has set. -/
structure SporkManager where
  mapSporksActive : Spork → Option Int64

/-- `CSporkManager::GetSporkValue(nSporkID)`: the active value, or the default. -/
def SporkManager.getSporkValue (sm : SporkManager) (nSporkID : Spork) : Int64 :=
  (sm.mapSporksActive nSporkID).getD (sporkDefault nSporkID)

/-- A node that has received no spork message. -/
def SporkManager.empty : SporkManager := ⟨fun _ => none⟩

/-! ## Algorithms -/

def ALGO_SHA256D : Int32 := (0 : Int32) <<< 8
def ALGO_SCRYPT : Int32 := (1 : Int32) <<< 8
def ALGO_NIST5 : Int32 := (2 : Int32) <<< 8
def ALGO_LYRA2Z : Int32 := (3 : Int32) <<< 8
def ALGO_X11 : Int32 := (4 : Int32) <<< 8
def ALGO_X16R : Int32 := (5 : Int32) <<< 8

/-- `ALGO_ACTIVE_COUNT`. -/
def ALGO_ACTIVE_COUNT : Nat := 5

/-- `CBlockHeader::GetAlgoEfficiency(nBlockHeight)`; the height is not read. -/
def getAlgoEfficiency (nVersion : Int32) : UInt32 :=
  let nAlgo := nVersion &&& ALGO_VERSION_MASK
  if nAlgo = ALGO_SHA256D then 1
  else if nAlgo = ALGO_SCRYPT then 12984
  else if nAlgo = ALGO_NIST5 then 513
  else if nAlgo = ALGO_LYRA2Z then 1973648
  else if nAlgo = ALGO_X11 then 513
  else if nAlgo = ALGO_X16R then 257849
  else 1

theorem getAlgoEfficiency_pos (nVersion : Int32) : 0 < (getAlgoEfficiency nVersion).toNat := by
  unfold getAlgoEfficiency
  dsimp only
  split_ifs <;> decide

/-- The handbrake spork of an algorithm, the `switch` of `GetHandbrakeForce`. -/
def handbrakeForceSpork (nVersionAlgo : Int32) : Option Spork :=
  if nVersionAlgo = ALGO_SHA256D then some SPORK_FXTC_01_HANDBRAKE_FORCE_SHA256D
  else if nVersionAlgo = ALGO_SCRYPT then some SPORK_FXTC_01_HANDBRAKE_FORCE_SCRYPT
  else if nVersionAlgo = ALGO_NIST5 then some SPORK_FXTC_01_HANDBRAKE_FORCE_NIST5
  else if nVersionAlgo = ALGO_LYRA2Z then some SPORK_FXTC_01_HANDBRAKE_FORCE_LYRA2Z
  else if nVersionAlgo = ALGO_X11 then some SPORK_FXTC_01_HANDBRAKE_FORCE_X11
  else if nVersionAlgo = ALGO_X16R then some SPORK_FXTC_01_HANDBRAKE_FORCE_X16R
  else none

/-- The sporks that set a handbrake force. -/
def handbrakeForceSporks : List Spork :=
  [SPORK_FXTC_01_HANDBRAKE_FORCE_SHA256D, SPORK_FXTC_01_HANDBRAKE_FORCE_SCRYPT,
    SPORK_FXTC_01_HANDBRAKE_FORCE_NIST5, SPORK_FXTC_01_HANDBRAKE_FORCE_LYRA2Z,
    SPORK_FXTC_01_HANDBRAKE_FORCE_X11, SPORK_FXTC_01_HANDBRAKE_FORCE_X16R]

theorem handbrakeForceSpork_mem {nVersionAlgo : Int32} {s : Spork}
    (h : handbrakeForceSpork nVersionAlgo = some s) : s ∈ handbrakeForceSporks := by
  unfold handbrakeForceSpork at h
  split_ifs at h <;> cases h <;> simp [handbrakeForceSporks]

/-- `GetHandbrakeForce(nVersion, nHeight)`: NIST5 is braked hard until the reward upgrade;
from the handbrake height on, each algorithm's spork, converted to `unsigned int`. -/
def getHandbrakeForce (sporks : SporkManager) (nVersion : Int32) (nHeight : Int) : UInt32 :=
  let nVersionAlgo := nVersion &&& ALGO_VERSION_MASK
  if nVersionAlgo = ALGO_NIST5 ∧
      nHeight < (sporks.getSporkValue SPORK_VELES_04_REWARD_UPGRADE_ALPHA_START).toInt then
    4070908800
  else if (sporks.getSporkValue SPORK_FXTC_01_HANDBRAKE_HEIGHT).toInt ≤ nHeight then
    match handbrakeForceSpork nVersionAlgo with
    | some s => UInt32.ofInt (sporks.getSporkValue s).toInt
    | none => 1
  else 1

/-- Every force `GetHandbrakeForce` returns is the constant brake, `1`, or a handbrake
spork's value modulo `2^32`. -/
theorem handbrakeForce_eq (sporks : SporkManager) (nVersion : Int32) (nHeight : Int) :
    getHandbrakeForce sporks nVersion nHeight = 4070908800 ∨
      getHandbrakeForce sporks nVersion nHeight = 1 ∨
      ∃ s ∈ handbrakeForceSporks,
        getHandbrakeForce sporks nVersion nHeight = UInt32.ofInt (sporks.getSporkValue s).toInt := by
  unfold getHandbrakeForce
  dsimp only
  split_ifs
  · exact .inl rfl
  · split
    · next s hs => exact .inr (.inr ⟨s, handbrakeForceSpork_mem hs, rfl⟩)
    · exact .inr (.inl rfl)
  · exact .inr (.inl rfl)

/-- A force is zero only for a handbrake spork that is a multiple of `2^32`. -/
theorem handbrakeForce_ne_zero (sporks : SporkManager)
    (h : ∀ s ∈ handbrakeForceSporks, (sporks.getSporkValue s).toInt % 2 ^ 32 ≠ 0)
    (nVersion : Int32) (nHeight : Int) : getHandbrakeForce sporks nVersion nHeight ≠ 0 := by
  rcases handbrakeForce_eq sporks nVersion nHeight with h1 | h1 | ⟨s, hs, h1⟩
  · rw [h1]; decide
  · rw [h1]; decide
  · rw [h1]
    intro h0
    have h0' := congrArg UInt32.toNat h0
    rw [ArithUint256.toNat_uint32_ofInt_eq, UInt32.toNat_zero] at h0'
    have := h s hs
    omega

end Veles
