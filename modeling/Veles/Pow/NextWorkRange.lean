import Veles.Lib.ExceptBind
import Veles.Pow.DarkGravityWave

/-!
# The difficulty the node demands is always in range

Over a linked block tree, from the FXTC chain start on, `GetNextWorkRequired` returns a
compact target that `SetCompact` decodes without the negative or overflow flag to at most
`powLimit`, so it passes the range checks of `CheckProofOfWork` but for a zero target.
That needs a network that retargets, a block spacing below `2^32` seconds, and handbrake
forces that are not zero modulo `2^32`.  A force that is zero modulo `2^32` divides a
zero target by zero (`getNextWorkRequired_handbrake_zero`).

    DgwInv T H nPastBlocks s → dgwStep … s = .ok s' ∧ DgwInv T H nPastBlocks s'   (dgwStep_ok)
    dgwLimit … bnNew = .ok r ∧ r ≤ powLimit                                        (dgwLimit_ok)
    InRange params (getNextWorkRequired T sporks params pindexLast pblock)
-/

namespace Veles

open ArithUint256 Spork

/-! ## The loop's counters -/

/-- The counters of `DarkGravityWave`'s loop: each fast count is at most its count and
positive with it, no count passes its bound, and once a block of the candidate's algorithm
is counted there is a fast one. -/
structure DgwCounts {α : Type} (nPastBlocks : Nat) (s : DgwState α) : Prop where
  count_le : s.nCountBlocks ≤ nPastBlocks
  fast_le : s.nCountFastBlocks ≤ s.nCountBlocks
  fast_pos : 0 < s.nCountBlocks → 0 < s.nCountFastBlocks
  algo_le : s.nCountAlgoBlocks ≤ s.nCountBlocks
  algo_le_past : s.nCountAlgoBlocks ≤ nPastAlgoBlocks
  algoFast_le : s.nCountAlgoFastBlocks ≤ s.nCountAlgoBlocks
  algoFast_pos : 0 < s.nCountAlgoBlocks → 0 < s.nCountAlgoFastBlocks ∧ s.pindexAlgoFast.isSome

/-- The loop's invariant over a tree `T` with `pindexLast` at height `H`: the counters, and
while blocks remain to be counted, `pindex` is the entry `nCountBlocks` levels down. -/
structure DgwInv {α : Type} (T : BlockTree) (H nPastBlocks : Nat) (s : DgwState α) : Prop
    extends DgwCounts nPastBlocks s where
  pindex : s.nCountBlocks < nPastBlocks →
    ∃ b, T.get? s.pindex = some b ∧ b.nHeight + s.nCountBlocks = H

section Counts

variable {α : Type} {nPastBlocks : Nat} {s : DgwState α}

theorem dgwCounts_init [Zero α] (pindexLast : BlockPtr) :
    DgwCounts nPastBlocks (DgwState.init pindexLast : DgwState α) where
  count_le := Nat.zero_le _
  fast_le := Nat.le_refl _
  fast_pos h := absurd h (Nat.lt_irrefl 0)
  algo_le := Nat.le_refl _
  algo_le_past := Nat.zero_le _
  algoFast_le := Nat.le_refl _
  algoFast_pos h := absurd h (Nat.lt_irrefl 0)

/-- Counting a block that is not of the candidate's algorithm keeps the counters. -/
theorem DgwCounts.count (h : DgwCounts nPastBlocks s) (hc : s.nCountBlocks < nPastBlocks)
    (a : α) : DgwCounts nPastBlocks (s.count a) where
  count_le := by simp only [DgwState.count_nCountBlocks]; omega
  fast_le := by
    have := h.fast_le
    simp only [DgwState.count_nCountFastBlocks, DgwState.count_nCountBlocks]
    split_ifs <;> omega
  fast_pos _ := by
    have := h.fast_pos
    simp only [DgwState.count_nCountFastBlocks]
    split_ifs with hf
    · omega
    · exact this (by simp only [nPastFastBlocks, nPastAlgoFastBlocks] at hf; omega)
  algo_le := by have := h.algo_le; simp only [DgwState.count_nCountAlgoBlocks,
    DgwState.count_nCountBlocks]; omega
  algo_le_past := h.algo_le_past
  algoFast_le := h.algoFast_le
  algoFast_pos := h.algoFast_pos

/-- Counting a block of the candidate's algorithm keeps the counters. -/
theorem DgwCounts.countAlgo_count (h : DgwCounts nPastBlocks s)
    (hc : s.nCountBlocks < nPastBlocks) (ha : s.nCountAlgoBlocks < nPastAlgoBlocks) (a a' : α) :
    DgwCounts nPastBlocks ((s.countAlgo a).count a') where
  count_le := by simp only [DgwState.count_nCountBlocks, DgwState.countAlgo_nCountBlocks]; omega
  fast_le := (h.count hc a').fast_le
  fast_pos := (h.count hc a').fast_pos
  algo_le := by
    have := h.algo_le
    simp only [DgwState.count_nCountAlgoBlocks, DgwState.countAlgo_nCountAlgoBlocks,
      DgwState.count_nCountBlocks, DgwState.countAlgo_nCountBlocks]
    omega
  algo_le_past := by
    simp only [DgwState.count_nCountAlgoBlocks, DgwState.countAlgo_nCountAlgoBlocks]
    omega
  algoFast_le := by
    have := h.algoFast_le
    simp only [DgwState.count_nCountAlgoFastBlocks, DgwState.countAlgo_nCountAlgoFastBlocks,
      DgwState.count_nCountAlgoBlocks, DgwState.countAlgo_nCountAlgoBlocks]
    split_ifs <;> omega
  algoFast_pos _ := by
    simp only [DgwState.count_nCountAlgoFastBlocks, DgwState.countAlgo_nCountAlgoFastBlocks,
      DgwState.count_pindexAlgoFast, DgwState.countAlgo_pindexAlgoFast]
    split_ifs with hf
    · exact ⟨Nat.succ_pos _, rfl⟩
    · -- past the fast window, the fast count was already positive
      exact h.algoFast_pos (by simp only [nPastAlgoFastBlocks] at hf; omega)

/-- Moving `pindex` keeps the counters. -/
theorem DgwCounts.withPindex (h : DgwCounts nPastBlocks s) (p : BlockPtr) :
    DgwCounts nPastBlocks { s with pindex := p } :=
  ⟨h.count_le, h.fast_le, h.fast_pos, h.algo_le, h.algo_le_past, h.algoFast_le, h.algoFast_pos⟩

end Counts

/-! ## One pass of the loop

A pass fails only on a failed target, a failed average, or a missing parent.  Averages are
taken over at most `nPastBlocks` blocks, and a parent is asked for only while fewer than
`nPastBlocks` blocks are counted, so a block `nPastBlocks ≤ H` levels up has one. -/

section Step

variable {α : Type} {average : α → α → Nat → Except String α}
  {target : CBlockIndex → Except String α} {T : BlockTree} {H nPastBlocks : Nat}

theorem dgwAlgoAverage_ok
    (havg : ∀ a t n, 0 < n → n ≤ nPastBlocks → ∃ r, average a t n = .ok r)
    {s : DgwState α} (hn : s.nCountAlgoBlocks < nPastBlocks) (t : α) :
    ∃ a, dgwAlgoAverage average s t = .ok (s.countAlgo a) := by
  obtain ⟨a, ha⟩ := havg s.bnPastAlgoTargetAvg t (s.nCountAlgoBlocks + 1) (Nat.succ_pos _) hn
  exact ⟨a, by simp only [dgwAlgoAverage, ha, Except.ok_bind, Except.pure_eq_ok]⟩

theorem dgwAverage_ok
    (havg : ∀ a t n, 0 < n → n ≤ nPastBlocks → ∃ r, average a t n = .ok r)
    {s : DgwState α} (hn : s.nCountBlocks < nPastBlocks) (t : α) :
    ∃ a, dgwAverage average s t = .ok (s.count a) := by
  obtain ⟨a, ha⟩ := havg s.bnPastTargetAvg t (s.nCountBlocks + 1) (Nat.succ_pos _) hn
  exact ⟨a, by simp only [dgwAverage, ha, Except.ok_bind, Except.pure_eq_ok]⟩

/-- `assert(pindex->pprev)` holds while blocks remain: the block counted last is
`nCountBlocks - 1` levels below `pindexLast`, above the genesis block. -/
theorem dgwNext_ok (hT : T.Linked) (hH : nPastBlocks ≤ H) {s : DgwState α} {b : CBlockIndex}
    (hb : T.get? s.pindex = some b) (hc : s.nCountBlocks ≤ nPastBlocks)
    (hh : b.nHeight + s.nCountBlocks = H + 1) :
    ∃ p, dgwNext T nPastBlocks s = .ok { s with pindex := p } ∧
      (s.nCountBlocks < nPastBlocks → ∃ c, T.get? p = some c ∧ c.nHeight + s.nCountBlocks = H) := by
  unfold dgwNext
  by_cases hne : s.nCountBlocks ≠ nPastBlocks
  · rw [if_pos hne, BlockTree.pprevOf_of_get? hb]
    cases hq : b.pprev with
    | none =>
      have := hT.root_height hb hq
      omega
    | some q =>
      obtain ⟨c, hc', hcb⟩ := hT.prev_height hb hq
      exact ⟨q, rfl, fun _ => ⟨c, hc', by omega⟩⟩
  · rw [if_neg hne]
    exact ⟨s.pindex, rfl, fun h => absurd h (by omega)⟩

/-- A pass from a state of the invariant succeeds, counts one block and keeps the
invariant. -/
theorem dgwStep_ok (hT : T.Linked) (hH : nPastBlocks ≤ H)
    (havg : ∀ a t n, 0 < n → n ≤ nPastBlocks → ∃ r, average a t n = .ok r)
    (htarget : ∀ b, ∃ r, target b = .ok r) (nVersion : Int32)
    {s : DgwState α} (hinv : DgwInv T H nPastBlocks s)
    (hc : s.nCountBlocks < nPastBlocks) (ha : s.nCountAlgoBlocks < nPastAlgoBlocks) :
    ∃ s', dgwStep average target T nVersion nPastBlocks s = .ok s' ∧ DgwInv T H nPastBlocks s' ∧
      s'.nCountBlocks = s.nCountBlocks + 1 := by
  obtain ⟨b, hb, hbH⟩ := hinv.pindex hc
  obtain ⟨t, ht⟩ := htarget (T.deref s.pindex)
  have hca : s.nCountAlgoBlocks < nPastBlocks := lt_of_le_of_lt hinv.algo_le hc
  -- whichever averages are taken, the state counts the block and `pindex` stays
  have hnext : ∀ s₁ : DgwState α, DgwCounts nPastBlocks s₁ → s₁.pindex = s.pindex →
      s₁.nCountBlocks = s.nCountBlocks + 1 →
      ∃ s', dgwNext T nPastBlocks s₁ = .ok s' ∧ DgwInv T H nPastBlocks s' ∧
        s'.nCountBlocks = s.nCountBlocks + 1 := by
    intro s₁ hinv₁ hp₁ hn₁
    obtain ⟨p, hp, hpinv⟩ :=
      dgwNext_ok hT hH (s := s₁) (by rw [hp₁]; exact hb) (by omega) (by omega)
    exact ⟨_, hp, ⟨hinv₁.withPindex p, hpinv⟩, hn₁⟩
  simp only [dgwStep, ht, Except.ok_bind]
  -- the algorithm's average only for a block of the candidate's algorithm
  split_ifs
  · obtain ⟨a, ha'⟩ := dgwAlgoAverage_ok havg hca t
    obtain ⟨a', ha''⟩ := dgwAverage_ok havg (s := s.countAlgo a) hc t
    rw [ha', Except.ok_bind, ha'', Except.ok_bind]
    exact hnext _ (hinv.countAlgo_count hc ha a a') rfl rfl
  · obtain ⟨a', ha''⟩ := dgwAverage_ok havg hc t
    rw [Except.pure_eq_ok, Except.ok_bind, ha'', Except.ok_bind]
    exact hnext _ (hinv.count hc a') rfl rfl

/-- The loop run from a state of the invariant with enough fuel succeeds in a state of the
invariant where its condition fails: it never runs out of fuel with blocks to count. -/
theorem dgwLoop_ok (hT : T.Linked) (hH : nPastBlocks ≤ H)
    (havg : ∀ a t n, 0 < n → n ≤ nPastBlocks → ∃ r, average a t n = .ok r)
    (htarget : ∀ b, ∃ r, target b = .ok r) (nVersion : Int32) :
    ∀ (fuel : Nat) (s : DgwState α), DgwInv T H nPastBlocks s →
      nPastBlocks - s.nCountBlocks ≤ fuel →
      ∃ s', dgwLoop average target T nVersion nPastBlocks fuel s = .ok s' ∧
        DgwInv T H nPastBlocks s' ∧ s.nCountBlocks ≤ s'.nCountBlocks ∧
        ¬(s'.nCountBlocks < nPastBlocks ∧ s'.nCountAlgoBlocks < nPastAlgoBlocks) := by
  intro fuel
  induction fuel with
  | zero =>
    -- no fuel left: every block is counted
    intro s hinv hf
    exact ⟨s, rfl, hinv, le_rfl, fun h => by omega⟩
  | succ fuel ih =>
    intro s hinv hf
    rw [dgwLoop]
    split_ifs with hg
    · obtain ⟨s₁, hs₁, hinv₁, hn₁⟩ := dgwStep_ok hT hH havg htarget nVersion hinv hg.1 hg.2
      obtain ⟨s', hs', hinv', hle, hdone⟩ := ih s₁ hinv₁ (by omega)
      refine ⟨s', ?_, hinv', by omega, hdone⟩
      rw [hs₁, Except.ok_bind, hs']
    · exact ⟨s, rfl, hinv, le_rfl, hg⟩

end Step

/-! ## The arithmetic after the loop

Every divisor after the loop is a block count times the spacing, an algorithm's
efficiency, or the handbrake force, and the target stays at most `powLimit` through the
efficiency clamp, the handbrake and the dead-lock shifts. -/

section Tail

/-- A timespan of `k` blocks, `0 < k < 2^32`, is a non-zero `int64_t` divisor for a spacing
below `2^32`. -/
theorem timespan_bounds {k : Nat} {nSpacing : Int} (hk0 : 0 < k) (hk : k < 2 ^ 32)
    (hs0 : 0 < nSpacing) (hs : nSpacing < 2 ^ 32) :
    0 < (k : Int) * nSpacing ∧ (k : Int) * nSpacing < 2 ^ 64 := by
  have hk' : (k : Int) < 2 ^ 32 := by exact_mod_cast hk
  exact ⟨Int.mul_pos (by exact_mod_cast hk0) hs0, by nlinarith⟩

theorem ofInt64_ne_zero {x : Int} (h0 : 0 < x) (h : x < 2 ^ 64) : ofInt64 x ≠ 0 :=
  ne_zero_of_toNat_pos (by rw [toNat_ofInt64 h0.le h]; omega)

theorem ofU64_efficiency_ne_zero (nVersion : Int32) :
    ofU64 (getAlgoEfficiency nVersion).toUInt64 ≠ 0 :=
  ne_zero_of_toNat_pos (by
    rw [toNat_ofU64, UInt32.toNat_toUInt64]
    exact getAlgoEfficiency_pos nVersion)

theorem dgwTarget_ok (b : CBlockIndex) : ∃ r, dgwTarget b = .ok r :=
  ⟨_, div_ok (ofU64_efficiency_ne_zero b.nVersion)⟩

theorem runningAverage_ok (avg bnTarget : ArithUint256) {n : Nat} (h0 : 0 < n) (h : n < 2 ^ 64) :
    ∃ r, runningAverage avg bnTarget n = .ok r :=
  ⟨_, div_ok (ne_zero_of_toNat_pos (by rw [toNat_ofU64_ofNat h]; exact h0))⟩

/-- Both retargets succeed on a positive target timespan below `2^64`. -/
theorem dgwRetarget_ok (bnNew : ArithUint256) (nActualTimespan : Int) {nTargetTimespan : Int}
    (h0 : 0 < nTargetTimespan) (h : nTargetTimespan < 2 ^ 64) :
    ∃ r, dgwRetarget bnNew nActualTimespan nTargetTimespan = .ok r :=
  ⟨_, div_ok (ofInt64_ne_zero h0 h)⟩

/-- The algorithm's retarget succeeds once two blocks of the algorithm are counted: the
fast pointer is then set, and the timespan is of at most `nPastAlgoBlocks` blocks. -/
theorem dgwAlgoTarget_ok {T : BlockTree} {params : ConsensusParams} {nPastBlocks : Nat}
    (hs0 : 0 < params.nPowTargetSpacing) (hs : params.nPowTargetSpacing < 2 ^ 32)
    (last : CBlockIndex) {s : DgwState ArithUint256} (hinv : DgwCounts nPastBlocks s)
    (ha : s.pindexAlgo.isSome) (hn : 1 < s.nCountAlgoBlocks) :
    ∃ r, dgwAlgoTarget T params last s = .ok r := by
  obtain ⟨hfast0, hfast⟩ := hinv.algoFast_pos (by omega)
  obtain ⟨pf, hpf⟩ := Option.isSome_iff_exists.mp hfast
  obtain ⟨pa, hpa⟩ := Option.isSome_iff_exists.mp ha
  -- the timespan is of `5 k` block spacings, for the fast or the full count `k ≤ 25`
  have hspan : ∀ k : Nat, 0 < k → k ≤ 25 →
      0 < (k : Int) * params.nPowTargetSpacing * (ALGO_ACTIVE_COUNT : Nat) ∧
        (k : Int) * params.nPowTargetSpacing * (ALGO_ACTIVE_COUNT : Nat) < 2 ^ 64 := by
    intro k hk0 hk
    have hk0' : (0 : Int) < k := by exact_mod_cast hk0
    have hk' : (k : Int) ≤ 25 := by exact_mod_cast hk
    simp only [ALGO_ACTIVE_COUNT, Nat.cast_ofNat]
    constructor <;> nlinarith
  have hpast : s.nCountAlgoBlocks ≤ 25 := hinv.algo_le_past
  obtain ⟨hf0, hf⟩ := hspan s.nCountAlgoFastBlocks hfast0 (le_trans hinv.algoFast_le hpast)
  obtain ⟨ha0, ha1⟩ := hspan s.nCountAlgoBlocks (by omega) hpast
  unfold dgwAlgoTarget
  rw [hpf, hpa]
  dsimp only
  apply dgwRetarget_ok <;> split_ifs <;> assumption

/-- The handbrake keeps a target at most `powLimit`: it is `powLimit` or a quotient of a
target at most `powLimit`. -/
theorem handbrake_ok {bnPowLimit bnNew : ArithUint256} {nForce : UInt32} (hF : nForce ≠ 0)
    (hle : bnNew ≤ bnPowLimit) :
    ∃ r, (if bnPowLimit.mulU32 nForce < bnNew then pure bnPowLimit
      else div bnNew (ofU64 nForce.toUInt64)) = .ok r ∧ r ≤ bnPowLimit := by
  have hF' : ofU64 nForce.toUInt64 ≠ 0 := ne_zero_of_toNat_pos (by
    rw [toNat_ofU64, UInt32.toNat_toUInt64]
    exact Nat.pos_of_ne_zero (fun h => hF (UInt32.toNat_inj.mp h)))
  split_ifs
  · exact ⟨bnPowLimit, rfl, BitVec.le_refl _⟩
  · exact ⟨_, div_ok hF', BitVec.le_trans (udiv_le_self _ _) hle⟩

/-- The last stage of `DarkGravityWave` succeeds at most at `powLimit` under a non-zero
handbrake force, whatever the retargeted target. -/
theorem dgwLimit_ok (sporks : SporkManager) (params : ConsensusParams) (last : CBlockIndex)
    (pblock : CBlockHeader) (bnNew : ArithUint256)
    (hforce : getHandbrakeForce sporks pblock.nVersion (last.nHeight + 1) ≠ 0) :
    ∃ r, dgwLimit sporks params last pblock bnNew = .ok r ∧ r ≤ params.powLimit := by
  -- at least PoW limit: the efficiency product of a target below the normal limit does
  -- not wrap
  have hclamp : (if params.powLimit / ofU64 (getAlgoEfficiency pblock.nVersion).toUInt64 > bnNew
      then bnNew.mulU32 (getAlgoEfficiency pblock.nVersion) else params.powLimit) ≤
      params.powLimit := by
    split_ifs with h
    · exact mulU32_le_of_lt_div h
    · exact BitVec.le_refl _
  simp only [dgwLimit, div_ok (ofU64_efficiency_ne_zero pblock.nVersion), Except.ok_bind]
  exact handbrake_ok hforce hclamp

end Tail

/-! ## The range checks of `CheckProofOfWork` -/

/-- `CheckProofOfWork(hash, nBits, params)`: the range checks on the decoded target, then
the hash against it. -/
def checkProofOfWork (hash : ArithUint256) (nBits : UInt32) (params : ConsensusParams) : Bool :=
  let bnTarget := setCompact nBits
  -- Check range
  if bnTarget.fNegative || bnTarget.value == 0 || bnTarget.fOverflow ||
      decide (bnTarget.value > params.powLimit) then false
  -- Check proof of work matches claimed amount
  else !decide (hash > bnTarget.value)

/-- The range checks of `CheckProofOfWork` but the zero target: `nBits` decodes without the
negative or overflow flag to at most `powLimit`. -/
structure InPowRange (params : ConsensusParams) (nBits : UInt32) : Prop where
  not_negative : (setCompact nBits).fNegative = false
  not_overflow : (setCompact nBits).fOverflow = false
  le_powLimit : (setCompact nBits).value ≤ params.powLimit

/-- `CheckProofOfWork` accepts exactly the hashes at most a non-zero target in range. -/
theorem checkProofOfWork_eq_true_iff (hash : ArithUint256) (nBits : UInt32)
    (params : ConsensusParams) :
    checkProofOfWork hash nBits params = true ↔
      InPowRange params nBits ∧ (setCompact nBits).value ≠ 0 ∧ hash ≤ (setCompact nBits).value := by
  unfold checkProofOfWork
  dsimp only
  constructor
  · intro h
    split_ifs at h with hr
    simp only [Bool.or_eq_true, beq_iff_eq, decide_eq_true_eq, not_or, Bool.not_eq_true] at hr
    obtain ⟨⟨⟨hn, h0⟩, ho⟩, hl⟩ := hr
    simp only [Bool.not_eq_true', decide_eq_false_iff_not] at h
    exact ⟨⟨hn, ho, BitVec.not_lt.mp hl⟩, h0, BitVec.not_lt.mp h⟩
  · rintro ⟨⟨hn, ho, hl⟩, h0, hh⟩
    rw [if_neg (by simpa [hn, ho, BitVec.not_lt.mpr hl] using h0)]
    simp [BitVec.not_lt.mpr hh]

/-- `GetCompact` of a target at most `powLimit` is in range: the encoding only clears low
bits. -/
theorem inPowRange_getCompact {params : ConsensusParams} {bnNew : ArithUint256}
    (h : bnNew ≤ params.powLimit) : InPowRange params (getCompact bnNew false) where
  not_negative := setCompact_getCompact_fNegative bnNew
  not_overflow := setCompact_getCompact_fOverflow bnNew
  le_powLimit := by
    refine BitVec.le_trans ?_ h
    rw [BitVec.le_def, setCompact_getCompact_value]
    exact Nat.div_mul_le_self _ _

/-- The dead-lock protection keeps `nBits` in range: it only lowers the difficulty down to
`powLimit`, and a shift is taken only where it drops no bit. -/
theorem deadLockProtection_inPowRange {params : ConsensusParams} {nBits : UInt32}
    (h : InPowRange params nBits) (nHalvings : Int) :
    InPowRange params (deadLockProtection params nHalvings nBits) := by
  unfold deadLockProtection
  split_ifs with hpos
  · apply inPowRange_getCompact
    split_ifs with hmin
    · exact BitVec.le_refl _
    · simp only [Bool.or_eq_true, decide_eq_true_eq, not_or] at hmin
      exact shiftLeft_le_of_le_shiftRight (BitVec.not_lt.mp hmin.2)
  · exact h

/-! ## `DarkGravityWave` and `GetNextWorkRequired` -/

section Run

variable {T : BlockTree} {sporks : SporkManager} {params : ConsensusParams}
  {pindexLast : BlockPtr} {pblock : CBlockHeader}

/-- `nPastBlocks` is `5000` before the height check, the height being unsigned here. -/
theorem dgwPastBlocks_eq (nHeight : Nat) : dgwPastBlocks nHeight = 5000 := by
  unfold dgwPastBlocks
  rw [if_pos (by omega)]
  rfl

/-- The instamine protection does not touch what the algorithm's retarget reads. -/
theorem dgwAlgoTarget_instamine (last : CBlockIndex) (s : DgwState ArithUint256) :
    dgwAlgoTarget T params last (dgwInstamine T params last s) = dgwAlgoTarget T params last s := by
  unfold dgwInstamine
  split_ifs <;> rfl

/-- The instamine protection counts at least one and at most `nPastBlocks` blocks. -/
theorem dgwInstamine_nCountBlocks {α : Type} {nPastBlocks : Nat} (last : CBlockIndex)
    {s : DgwState α} (h : DgwCounts nPastBlocks s) (h0 : 0 < s.nCountBlocks) :
    0 < (dgwInstamine T params last s).nCountBlocks ∧
      (dgwInstamine T params last s).nCountBlocks ≤ nPastBlocks := by
  have hf := h.fast_pos h0
  have hle := h.fast_le
  have hc := h.count_le
  unfold dgwInstamine
  split_ifs
  · exact ⟨hf, by dsimp only; omega⟩
  · exact ⟨h0, hc⟩

/-- The target `DarkGravityWave` computes over `0 < nPastBlocks ≤ nHeight` blocks is
computed without error and at most `powLimit`. -/
theorem darkGravityWaveTarget_ok (hT : T.Linked) {last : CBlockIndex}
    (hlast : T.get? pindexLast = some last)
    (hs0 : 0 < params.nPowTargetSpacing) (hs : params.nPowTargetSpacing < 2 ^ 32)
    {nPastBlocks : Nat} (hpos : 0 < nPastBlocks) (hH : nPastBlocks ≤ last.nHeight)
    (hN : nPastBlocks < 2 ^ 32)
    (hforce : getHandbrakeForce sporks pblock.nVersion (last.nHeight + 1) ≠ 0) :
    ∃ r, darkGravityWaveTarget T sporks params pindexLast pblock nPastBlocks = .ok r ∧
      r ≤ params.powLimit := by
  have hinit : DgwInv T last.nHeight nPastBlocks (DgwState.init pindexLast : DgwState ArithUint256) :=
    ⟨dgwCounts_init pindexLast, fun _ => ⟨last, hlast, rfl⟩⟩
  -- the loop runs to its end with the `arith_uint256` averages
  obtain ⟨s, hloop, hinv, -, hdone⟩ := dgwLoop_ok hT hH
    (fun a t n h0 hn => runningAverage_ok a t h0 (by omega)) dgwTarget_ok
    (pblock.nVersion &&& ALGO_VERSION_MASK) nPastBlocks _ hinit (by omega)
  have hcount : 0 < s.nCountBlocks := by
    have := hinv.algo_le
    have h25 : nPastAlgoBlocks = 25 := rfl
    omega
  obtain ⟨hc0, hcN⟩ : 0 < (dgwInstamine T params last s).nCountBlocks ∧
      (dgwInstamine T params last s).nCountBlocks ≤ nPastBlocks :=
    dgwInstamine_nCountBlocks last hinv.toDgwCounts hcount
  -- the chain's retarget and the limits succeed on any target
  have htail : ∀ bnAlgo, ∃ r, (dgwRetarget bnAlgo
      (last.getBlockTime - (T.deref (dgwInstamine T params last s).pindex).getBlockTime)
      ((dgwInstamine T params last s).nCountBlocks * params.nPowTargetSpacing) >>=
        fun bnNew => dgwLimit sporks params last pblock bnNew) = .ok r ∧ r ≤ params.powLimit := by
    intro bnAlgo
    have hspan := timespan_bounds hc0 (by omega) hs0 hs
    obtain ⟨bnNew, hbnNew⟩ := dgwRetarget_ok bnAlgo
      (last.getBlockTime - (T.deref (dgwInstamine T params last s).pindex).getBlockTime)
      hspan.1 hspan.2
    rw [hbnNew, Except.ok_bind]
    exact dgwLimit_ok sporks params last pblock bnNew hforce
  simp only [darkGravityWaveTarget, BlockTree.deref_of_get? hlast, hloop, Except.ok_bind]
  -- the algorithm's retarget, or `powLimit`
  split_ifs with hc
  · rw [dgwAlgoTarget_instamine]
    obtain ⟨bnAlgo, hbnAlgo⟩ : ∃ bnAlgo, dgwAlgoTarget T params last s = .ok bnAlgo := by
      unfold dgwInstamine at hc
      split_ifs at hc <;> exact dgwAlgoTarget_ok hs0 hs last hinv.toDgwCounts hc.1 hc.2.2
    rw [hbnAlgo, Except.ok_bind]
    exact htail bnAlgo
  · rw [Except.pure_eq_ok, Except.ok_bind]
    exact htail params.powLimit

/-- From the chain start on, `DarkGravityWave` of a retargeting network returns a compact
target in range. -/
theorem darkGravityWave_inPowRange (hT : T.Linked) (hret : params.fPowNoRetargeting = false)
    (hs0 : 0 < params.nPowTargetSpacing) (hs : params.nPowTargetSpacing < 2 ^ 32)
    (hforce : getHandbrakeForce sporks pblock.nVersion ((T.deref pindexLast).nHeight + 1) ≠ 0) :
    ∃ nBits, darkGravityWave T sporks params pindexLast pblock = .ok nBits ∧
      InPowRange params nBits := by
  have h25 : nPastAlgoBlocks = 25 := rfl
  unfold darkGravityWave
  simp only [hret, Bool.false_eq_true, if_false, dgwPastBlocks_eq]
  by_cases hlow : (T.deref pindexLast).nHeight < 5000 ∧
      (T.deref pindexLast).nHeight < nPastAlgoBlocks
  · rw [if_pos hlow]
    exact ⟨_, rfl, inPowRange_getCompact (BitVec.le_refl _)⟩
  · rw [if_neg hlow]
    cases hlast : T.get? pindexLast with
    | none =>
      -- a pointer outside the arena reads as the genesis height
      simp [BlockTree.deref, hlast, h25] at hlow
    | some last =>
      rw [BlockTree.deref_of_get? hlast] at hlow hforce ⊢
      obtain ⟨r, hr, hle⟩ : ∃ r, darkGravityWaveTarget T sporks params pindexLast pblock
          (if last.nHeight < 5000 then last.nHeight else 5000) = .ok r ∧ r ≤ params.powLimit :=
        darkGravityWaveTarget_ok hT hlast hs0 hs
          (by split_ifs <;> omega) (by split_ifs <;> omega) (by split_ifs <;> omega) hforce
      simp only [hr, Except.ok_bind]
      exact ⟨_, rfl, inPowRange_getCompact hle⟩

/-- From `SPORK_VELES_01_FXTC_CHAIN_START` on, over a linked tree, a retargeting network with
a spacing below `2^32` and handbrake sporks that are not multiples of `2^32`,
`GetNextWorkRequired` returns without an error a compact target in range. -/
theorem getNextWorkRequired_inPowRange (T : BlockTree) (sporks : SporkManager)
    (params : ConsensusParams) (pindexLast : BlockPtr) (pblock : CBlockHeader) (hT : T.Linked)
    (hret : params.fPowNoRetargeting = false)
    (hs0 : 0 < params.nPowTargetSpacing) (hs : params.nPowTargetSpacing < 2 ^ 32)
    (hforce : ∀ s ∈ handbrakeForceSporks, (sporks.getSporkValue s).toInt % 2 ^ 32 ≠ 0)
    (hstart : (sporks.getSporkValue SPORK_VELES_01_FXTC_CHAIN_START).toInt ≤
      ((T.deref pindexLast).nHeight : Int) + 1) :
    ∃ nBits, getNextWorkRequired T sporks params pindexLast pblock = .ok nBits ∧
      InPowRange params nBits := by
  obtain ⟨nBits, hn, hr⟩ := darkGravityWave_inPowRange hT hret hs0 hs
    (handbrakeForce_ne_zero sporks hforce _ _)
  unfold getNextWorkRequired
  dsimp only
  rw [if_neg (not_lt.mpr hstart), hn, Except.ok_bind, if_neg (by omega)]
  exact ⟨_, rfl, deadLockProtection_inPowRange hr _⟩

end Run

/-! ## A chain of blocks at consecutive heights -/

/-- Block `h` of a test chain: parent `h - 1`, two minutes after its parent. -/
def testBlock (nVersion : Int32) (nBits : UInt32) (h : Nat) : CBlockIndex :=
  { hashBlock := h, pprev := if h = 0 then none else some (h - 1), pskip := none, nHeight := h,
    nVersion := nVersion, nTime := UInt32.ofNat (h * 120), nBits := nBits, nChainWork := 0,
    nChainWorkAlgo := 0, nTimeMax := 0 }

/-- `n` blocks of one algorithm and one `nBits`, block `h` at index `h`. -/
def testChain (n : Nat) (nVersion : Int32) (nBits : UInt32) : BlockTree :=
  ⟨(List.range n).map (testBlock nVersion nBits)⟩

theorem testChain_get? (n : Nat) (nVersion : Int32) (nBits : UInt32) (p : BlockPtr) :
    (testChain n nVersion nBits).get? p =
      if p < n then some (testBlock nVersion nBits p) else none := by
  unfold testChain BlockTree.get?
  rw [List.getElem?_map]
  split_ifs with hp
  · rw [List.getElem?_range hp]
    rfl
  · rw [List.getElem?_eq_none (by simpa using hp)]
    rfl

theorem testChain_linked (n : Nat) (nVersion : Int32) (nBits : UInt32) :
    (testChain n nVersion nBits).Linked where
  prev_height {p b q} hb hq := by
    rw [testChain_get?] at hb
    split_ifs at hb with hp
    obtain rfl := Option.some_injective _ hb
    unfold testBlock at hq
    split_ifs at hq with h0
    obtain rfl := Option.some_injective _ hq
    refine ⟨testBlock nVersion nBits (p - 1), ?_, ?_⟩
    · rw [testChain_get?, if_pos (Nat.lt_of_le_of_lt (Nat.sub_le p 1) hp)]
    · simp only [testBlock]
      omega
  root_height {p b} hb hq := by
    rw [testChain_get?] at hb
    split_ifs at hb with hp
    obtain rfl := Option.some_injective _ hb
    unfold testBlock at hq ⊢
    split_ifs at hq with h0
    exact h0

/-- On mainnet's parameters and default sporks, the next target after a chain of 26
`scrypt` blocks is in range. -/
theorem getNextWorkRequired_inPowRange_mainnet :
    (testChain 26 ALGO_SCRYPT 0x1e0fffff).Linked ∧
      ∃ nBits, getNextWorkRequired (testChain 26 ALGO_SCRYPT 0x1e0fffff) SporkManager.empty
        mainParams 25 ⟨0, 25, ALGO_SCRYPT, UInt32.ofNat (26 * 120), 0⟩ = .ok nBits ∧
        InPowRange mainParams nBits :=
  ⟨testChain_linked 26 ALGO_SCRYPT 0x1e0fffff,
    getNextWorkRequired_inPowRange _ _ _ _ _ (testChain_linked 26 ALGO_SCRYPT 0x1e0fffff) rfl
      (by decide) (by decide) (by decide) (by decide)⟩

/-- A handbrake spork of `2^32` is at least 1 but a force of 0 as an `unsigned int`. -/
def sporksForceWraps : SporkManager :=
  ⟨fun s => if s = SPORK_FXTC_01_HANDBRAKE_HEIGHT then some 0
    else if s = SPORK_FXTC_01_HANDBRAKE_FORCE_SCRYPT then some 4294967296 else none⟩

set_option maxRecDepth 10000 in
/-- With the `scrypt` handbrake spork at `2^32` from height 0 and a chain of zero targets,
the handbrake divides the zero target by zero. -/
theorem getNextWorkRequired_handbrake_zero :
    (testChain 26 ALGO_SCRYPT 0).Linked ∧
      (∀ s ∈ handbrakeForceSporks, 1 ≤ (sporksForceWraps.getSporkValue s).toInt) ∧
      (sporksForceWraps.getSporkValue SPORK_VELES_01_FXTC_CHAIN_START).toInt ≤
        (((testChain 26 ALGO_SCRYPT 0).deref 25).nHeight : Int) + 1 ∧
      getNextWorkRequired (testChain 26 ALGO_SCRYPT 0) sporksForceWraps mainParams 25
        ⟨0, 25, ALGO_SCRYPT, UInt32.ofNat (26 * 120), 0⟩ = .error "Division by zero" :=
  ⟨testChain_linked 26 ALGO_SCRYPT 0, by decide, by decide, by decide⟩

end Veles
