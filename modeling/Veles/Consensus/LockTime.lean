import Veles.Chain.MedianTime
import Veles.Lib.CheckedInt
import Veles.Lib.ExceptBind
import Veles.Primitives.Transaction

/-!
# Lock times: `IsFinalTx` and the sequence locks of BIP68

consensus/tx_verify.cpp.  `IsFinalTx` compares `nLockTime` with a height or a time.
`CalculateSequenceLocks` folds the relative lock of every input into the last invalid height
and time, the maxima of `nCoinHeight + n - 1` and of `nCoinTime + (n << 9) - 1`, where
`nCoinTime` is the median time past of the block before the coin's; `EvaluateSequenceLocks`
compares them with the block's height and its parent's median time past.

Read input by input, the locks pass exactly when every input's own lock is met
(`sequenceLocks_eq`, against `inputLockMet`); and because heights and median times past
only grow along a chain whose blocks passed the timestamp test, locks that pass in a block
pass in all its descendants (`sequenceLocks_of_isAncestor`), as does finality measured by
median time past (`isFinalTx_of_isAncestor`).

A `const CBlockIndex&` is a place in the arena; `CalculateSequenceLocks` dereferences what
`GetAncestor` returns, a null pointer above the block's height (`nullDereference`), and
signed overflows are undefined behaviour (`signedOverflow`).
-/

namespace Veles

/-- `LOCKTIME_THRESHOLD` (script/script.h): an `nLockTime` below it is a height. -/
def LOCKTIME_THRESHOLD : UInt32 := 500000000

/-- `LOCKTIME_VERIFY_SEQUENCE` (consensus/consensus.h). -/
def LOCKTIME_VERIFY_SEQUENCE : UInt32 := (1 : UInt32) <<< 0

/-- `CTxIn::SEQUENCE_FINAL`. -/
def CTxIn.SEQUENCE_FINAL : UInt32 := 0xffffffff

/-- `CTxIn::SEQUENCE_LOCKTIME_DISABLE_FLAG`: no relative lock. -/
def CTxIn.SEQUENCE_LOCKTIME_DISABLE_FLAG : UInt32 := (1 : UInt32) <<< 31

/-- `CTxIn::SEQUENCE_LOCKTIME_TYPE_FLAG`: a time lock, in units of 512 seconds. -/
def CTxIn.SEQUENCE_LOCKTIME_TYPE_FLAG : UInt32 := (1 : UInt32) <<< 22

/-- `CTxIn::SEQUENCE_LOCKTIME_MASK`. -/
def CTxIn.SEQUENCE_LOCKTIME_MASK : UInt32 := 0x0000ffff

/-- `CTxIn::SEQUENCE_LOCKTIME_GRANULARITY`, an `int`. -/
def CTxIn.SEQUENCE_LOCKTIME_GRANULARITY : Int32 := 9

open CTxIn

/-- `IsFinalTx(tx, nBlockHeight, nBlockTime)`. -/
def isFinalTx (tx : CMutableTransaction) (nBlockHeight : Int32) (nBlockTime : Int64) : Bool :=
  if tx.nLockTime = 0 then true
  else if (tx.nLockTime.toNat : Int) <
      (if (tx.nLockTime.toNat : Int) < LOCKTIME_THRESHOLD.toNat then nBlockHeight.toInt
        else nBlockTime.toInt) then true
  else tx.vin.all fun txin => txin.nSequence == SEQUENCE_FINAL

/-- How `CalculateSequenceLocks` and `EvaluateSequenceLocks` end when they do not return. -/
inductive LockError where
  /-- An `assert` that does not hold. -/
  | assertFailure
  /-- A signed overflow: undefined behaviour. -/
  | signedOverflow
  /-- A null `CBlockIndex*` dereferenced, or a reference outside the arena. -/
  | nullDereference
  deriving DecidableEq, Repr

namespace LockError

/-- A signed operation of the source: its result where it is defined. -/
def defined {α : Type} : Option α → Except LockError α
  | some a => .ok a
  | none => .error .signedOverflow

/-- `*pindex` for a `CBlockIndex*`. -/
def deref : Option BlockPtr → Except LockError BlockPtr
  | some p => .ok p
  | none => .error .nullDereference

@[simp] theorem defined_some {α : Type} (a : α) : defined (some a) = .ok a := rfl

@[simp] theorem deref_some (p : BlockPtr) : deref (some p) = .ok p := rfl

end LockError

/-- `std::max(a, b)`: `(a < b) ? b : a`. -/
def stdMax {α : Type} [LT α] [DecidableLT α] (a b : α) : α := if a < b then b else a

/-- `fEnforceBIP68`: a version of at least 2, read unsigned, and `LOCKTIME_VERIFY_SEQUENCE`
among the flags. -/
def enforceBIP68 (tx : CMutableTransaction) (flags : Int32) : Bool :=
  tx.nVersion.toUInt32 ≥ 2 && (flags.toUInt32 &&& LOCKTIME_VERIFY_SEQUENCE) != 0

/-- The body of the loop of `CalculateSequenceLocks` for an input whose relative lock is not
disabled: a time lock raises `nMinTime` to `nCoinTime + (n << 9) - 1`, with `nCoinTime` the
median time past of `block.GetAncestor(max(nCoinHeight - 1, 0))`, and a height lock raises
`nMinHeight` to `nCoinHeight + n - 1`. -/
def sequenceLockStep (T : BlockTree) (block : BlockPtr) (txin : CTxIn) (nCoinHeight : Int32)
    (nMinHeight : Int32) (nMinTime : Int64) : Except LockError (Int32 × Int64) :=
  if txin.nSequence &&& SEQUENCE_LOCKTIME_TYPE_FLAG ≠ 0 then do
    let nPrevHeight ← LockError.defined (nCoinHeight.subChecked 1)
    let pindex ← LockError.deref (getAncestor T block (stdMax nPrevHeight 0).toInt)
    let nCoinTime : Int64 := Int64.ofInt (T.getMedianTimePast pindex)
    let nLock : Int64 := Int64.ofNat ((txin.nSequence &&& SEQUENCE_LOCKTIME_MASK) <<<
      SEQUENCE_LOCKTIME_GRANULARITY.toUInt32).toNat
    let nTime ← LockError.defined (nCoinTime.addChecked nLock)
    let nTime ← LockError.defined (nTime.subChecked 1)
    pure (nMinHeight, stdMax nMinTime nTime)
  else do
    let nHeight ← LockError.defined
      (nCoinHeight.addChecked (Int32.ofNat (txin.nSequence &&& SEQUENCE_LOCKTIME_MASK).toNat))
    let nHeight ← LockError.defined (nHeight.subChecked 1)
    pure (stdMax nMinHeight nHeight, nMinTime)

/-- The loop of `CalculateSequenceLocks` over the inputs and `*prevHeights`, returning the
vector as the loop leaves it and the pair. -/
def calculateSequenceLocksLoop (T : BlockTree) (block : BlockPtr) :
    List (CTxIn × Int32) → Int32 → Int64 → Except LockError (List Int32 × Int32 × Int64)
  | [], nMinHeight, nMinTime => .ok ([], nMinHeight, nMinTime)
  | (txin, nCoinHeight) :: inputs, nMinHeight, nMinTime =>
    -- a disabled relative lock sets `(*prevHeights)[txinIndex] = 0` and is skipped
    if txin.nSequence &&& SEQUENCE_LOCKTIME_DISABLE_FLAG ≠ 0 then do
      let (prevHeights, lockPair) ← calculateSequenceLocksLoop T block inputs nMinHeight nMinTime
      pure (0 :: prevHeights, lockPair)
    else do
      let (nMinHeight, nMinTime) ← sequenceLockStep T block txin nCoinHeight nMinHeight nMinTime
      let (prevHeights, lockPair) ← calculateSequenceLocksLoop T block inputs nMinHeight nMinTime
      pure (nCoinHeight :: prevHeights, lockPair)

/-- `CalculateSequenceLocks(tx, flags, prevHeights, block)`: the new `*prevHeights` and the
pair `(nMinHeight, nMinTime)`, the last invalid height and time. -/
def calculateSequenceLocks (T : BlockTree) (tx : CMutableTransaction) (flags : Int32)
    (prevHeights : List Int32) (block : BlockPtr) :
    Except LockError (List Int32 × Int32 × Int64) :=
  if prevHeights.length ≠ tx.vin.length then .error .assertFailure
  else if !enforceBIP68 tx flags then .ok (prevHeights, -1, -1)
  else calculateSequenceLocksLoop T block (tx.vin.zip prevHeights) (-1) (-1)

/-- `EvaluateSequenceLocks(block, lockPair)`. -/
def evaluateSequenceLocks (T : BlockTree) (block : BlockPtr) (lockPair : Int32 × Int64) :
    Except LockError Bool :=
  match T.get? block with
  | none => .error .nullDereference
  | some b =>
    match b.pprev with
    | none => .error .assertFailure
    | some pprev =>
      let nBlockTime := T.getMedianTimePast pprev
      .ok !(decide (lockPair.1.toInt ≥ b.nHeight) || decide (lockPair.2.toInt ≥ nBlockTime))

/-- `SequenceLocks(tx, flags, prevHeights, block)`, with the `*prevHeights` it leaves. -/
def sequenceLocks (T : BlockTree) (tx : CMutableTransaction) (flags : Int32)
    (prevHeights : List Int32) (block : BlockPtr) : Except LockError (List Int32 × Bool) := do
  let (prevHeights, lockPair) ← calculateSequenceLocks T tx flags prevHeights block
  let r ← evaluateSequenceLocks T block lockPair
  pure (prevHeights, r)


/-! ## The locks read input by input -/

/-- The `*prevHeights` entry the loop leaves: `0` for an input whose relative lock is
disabled. -/
def prevHeightAfter (input : CTxIn × Int32) : Int32 :=
  if input.1.nSequence &&& SEQUENCE_LOCKTIME_DISABLE_FLAG ≠ 0 then 0 else input.2

/-- BIP68 for one input, spending a coin at height `nCoinHeight`, in a block `block` of the
forest `F` at height `nHeight` whose parent has median time past `nBlockTime`: nothing if the
relative lock is disabled; for a time lock of `n` units of 512 seconds, `n · 512` seconds
past the median time past of the block before the coin's; otherwise `n` blocks past the
coin. -/
def inputLockMet (F : ParentForest BlockPtr) (T : BlockTree) (block : BlockPtr)
    (nHeight nBlockTime : Int) (txin : CTxIn) (nCoinHeight : Int32) : Bool :=
  let n : Int := (txin.nSequence &&& SEQUENCE_LOCKTIME_MASK).toNat
  if txin.nSequence &&& SEQUENCE_LOCKTIME_DISABLE_FLAG ≠ 0 then true
  else if txin.nSequence &&& SEQUENCE_LOCKTIME_TYPE_FLAG ≠ 0 then
    match F.ancestorAt block (max (nCoinHeight.toInt - 1) 0).toNat with
    | some pindex => decide (T.getMedianTimePast pindex + n * 2 ^ 9 ≤ nBlockTime)
    | none => false
  else decide (nCoinHeight.toInt + n ≤ nHeight)

theorem Int32.toInt_stdMax (a b : Int32) : (stdMax a b).toInt = max a.toInt b.toInt := by
  unfold stdMax
  split_ifs with h
  · rw [Int32.lt_iff_toInt_lt] at h
    omega
  · rw [Int32.lt_iff_toInt_lt] at h
    omega

theorem Int64.toInt_stdMax (a b : Int64) : (stdMax a b).toInt = max a.toInt b.toInt := by
  unfold stdMax
  split_ifs with h
  · rw [Int64.lt_iff_toInt_lt] at h
    omega
  · rw [Int64.lt_iff_toInt_lt] at h
    omega

theorem toNat_and_mask_lt (nSequence : UInt32) :
    (nSequence &&& SEQUENCE_LOCKTIME_MASK).toNat < 2 ^ 16 := by
  rw [UInt32.toNat_and]
  exact Nat.and_lt_two_pow _ (by decide)

/-- The time lock in seconds: the masked value shifted by the granularity, with no bits lost. -/
theorem toNat_lockShift (nSequence : UInt32) :
    ((nSequence &&& SEQUENCE_LOCKTIME_MASK) <<< SEQUENCE_LOCKTIME_GRANULARITY.toUInt32).toNat =
      (nSequence &&& SEQUENCE_LOCKTIME_MASK).toNat * 2 ^ 9 := by
  have hlt := toNat_and_mask_lt nSequence
  have hg : SEQUENCE_LOCKTIME_GRANULARITY.toUInt32.toNat = 9 := by decide
  rw [UInt32.toNat_shiftLeft, hg, show 9 % 32 = 9 from rfl, Nat.shiftLeft_eq,
    Nat.mod_eq_of_lt (by omega)]

section Spec

variable {T : BlockTree} (hT : T.WellFormed) {block : BlockPtr} {b : CBlockIndex}

/-- A height lock raises `nMinHeight` to `nCoinHeight + n - 1`, with no overflow. -/
theorem sequenceLockStep_height (txin : CTxIn) {nCoinHeight : Int32}
    (hcoin : 0 ≤ nCoinHeight.toInt ∧ nCoinHeight.toInt + 2 ^ 16 ≤ 2 ^ 31)
    (htype : ¬(txin.nSequence &&& SEQUENCE_LOCKTIME_TYPE_FLAG ≠ 0)) (H : Int32) (Tm : Int64) :
    ∃ H', sequenceLockStep T block txin nCoinHeight H Tm = .ok (H', Tm) ∧
      H'.toInt = max H.toInt
        (nCoinHeight.toInt + ((txin.nSequence &&& SEQUENCE_LOCKTIME_MASK).toNat : Int) - 1) := by
  have hn := toNat_and_mask_lt txin.nSequence
  set n := (txin.nSequence &&& SEQUENCE_LOCKTIME_MASK).toNat with hn_def
  have hnI : (Int32.ofNat n).toInt = n := Int32.toInt_ofNat_of_lt (by omega)
  obtain ⟨h₁, hadd, hh₁⟩ := Int32.exists_addChecked_eq_some (a := nCoinHeight)
    (b := Int32.ofNat n) (by omega) (by omega)
  obtain ⟨h₂, hsub, hh₂⟩ := Int32.exists_subChecked_eq_some (a := h₁) (b := 1)
    (by simp; omega) (by have := h₁.toInt_lt; simp; omega)
  refine ⟨stdMax H h₂, ?_, ?_⟩
  · rw [sequenceLockStep, if_neg htype, ← hn_def, hadd, LockError.defined_some, Except.ok_bind,
      hsub, LockError.defined_some, Except.ok_bind]
    rfl
  · rw [Int32.toInt_stdMax, hh₂, hh₁, hnI]
    simp

/-- A time lock raises `nMinTime` to the median time past of the block before the coin's
plus `n · 512 - 1`, with no overflow and with the ancestor `GetAncestor` finds. -/
theorem sequenceLockStep_time (hb : T.get? block = some b) (txin : CTxIn) {nCoinHeight : Int32}
    (hcoin : 0 ≤ nCoinHeight.toInt ∧ nCoinHeight.toInt ≤ b.nHeight)
    (htype : txin.nSequence &&& SEQUENCE_LOCKTIME_TYPE_FLAG ≠ 0) (H : Int32) (Tm : Int64) :
    ∃ pindex Tm', hT.forest.ancestorAt block (max (nCoinHeight.toInt - 1) 0).toNat = some pindex ∧
      sequenceLockStep T block txin nCoinHeight H Tm = .ok (H, Tm') ∧
      Tm'.toInt = max Tm.toInt (T.getMedianTimePast pindex +
        ((txin.nSequence &&& SEQUENCE_LOCKTIME_MASK).toNat : Int) * 2 ^ 9 - 1) := by
  obtain ⟨hprev, hsub, hprev_eq⟩ := Int32.exists_subChecked_eq_some (a := nCoinHeight) (b := 1)
    (by simp; omega) (by have := nCoinHeight.toInt_lt; simp; omega)
  have hx : (stdMax hprev 0).toInt = max (nCoinHeight.toInt - 1) 0 := by
    rw [Int32.toInt_stdMax, hprev_eq]
    simp
  have hheight : hT.forest.height block = b.nHeight := BlockTree.heightOf_of_get? hb
  obtain ⟨pindex, hpindex⟩ := ParentForest.exists_ancestorAt (F := hT.forest) (a := block)
    (h := (max (nCoinHeight.toInt - 1) 0).toNat) (by omega)
  have hanc : getAncestor T block (stdMax hprev 0).toInt = some pindex := by
    rw [getAncestor_eq hT hb, hx, if_pos (le_max_right _ _), hpindex]
  have hmtp := BlockTree.getMedianTimePast_lt (T := T) pindex
  have hmtp₀ := BlockTree.getMedianTimePast_nonneg (T := T) pindex
  have hn := toNat_and_mask_lt txin.nSequence
  set n := (txin.nSequence &&& SEQUENCE_LOCKTIME_MASK).toNat with hn_def
  have hcoinTime : (Int64.ofInt (T.getMedianTimePast pindex)).toInt = T.getMedianTimePast pindex :=
    Int64.toInt_ofInt_of_le (by omega) (by omega)
  have hlock : (Int64.ofNat ((txin.nSequence &&& SEQUENCE_LOCKTIME_MASK) <<<
      SEQUENCE_LOCKTIME_GRANULARITY.toUInt32).toNat).toInt = (n : Int) * 2 ^ 9 := by
    rw [toNat_lockShift, Int64.toInt_ofNat_of_lt (by omega)]
    push_cast
    rfl
  obtain ⟨t₁, hadd, ht₁⟩ := Int64.exists_addChecked_eq_some
    (a := Int64.ofInt (T.getMedianTimePast pindex))
    (b := Int64.ofNat ((txin.nSequence &&& SEQUENCE_LOCKTIME_MASK) <<<
      SEQUENCE_LOCKTIME_GRANULARITY.toUInt32).toNat) (by omega) (by omega)
  obtain ⟨t₂, hsub₂, ht₂⟩ := Int64.exists_subChecked_eq_some (a := t₁) (b := 1)
    (by simp; omega) (by have := t₁.toInt_lt; simp; omega)
  refine ⟨pindex, stdMax Tm t₂, hpindex, ?_, ?_⟩
  · rw [sequenceLockStep, if_pos htype, hsub, LockError.defined_some, Except.ok_bind, hanc,
      LockError.deref_some, Except.ok_bind]
    dsimp only
    rw [hadd, LockError.defined_some, Except.ok_bind, hsub₂, LockError.defined_some,
      Except.ok_bind]
    rfl
  · rw [Int64.toInt_stdMax, ht₂, ht₁, hcoinTime, hlock]
    simp

/-- One enabled input: the new pair is below `(N, M)` exactly when the old one is and the
input's lock is met at height `N` and time `M`. -/
theorem sequenceLockStep_spec (hb : T.get? block = some b) (hmax : b.nHeight + 2 ^ 16 ≤ 2 ^ 31)
    (txin : CTxIn) {nCoinHeight : Int32}
    (hcoin : 0 ≤ nCoinHeight.toInt ∧ nCoinHeight.toInt ≤ b.nHeight)
    (hen : ¬(txin.nSequence &&& SEQUENCE_LOCKTIME_DISABLE_FLAG ≠ 0)) (H : Int32) (Tm : Int64) :
    ∃ H' Tm', sequenceLockStep T block txin nCoinHeight H Tm = .ok (H', Tm') ∧
      ∀ N M : Int, (H'.toInt < N ∧ Tm'.toInt < M) ↔
        (H.toInt < N ∧ Tm.toInt < M ∧
          inputLockMet hT.forest T block N M txin nCoinHeight = true) := by
  by_cases htype : txin.nSequence &&& SEQUENCE_LOCKTIME_TYPE_FLAG ≠ 0
  · obtain ⟨pindex, Tm', hpindex, hstep, hTm'⟩ := sequenceLockStep_time hT hb txin hcoin htype H Tm
    refine ⟨H, Tm', hstep, fun N M => ?_⟩
    simp only [inputLockMet, if_neg hen, if_pos htype, hpindex, decide_eq_true_eq]
    omega
  · obtain ⟨H', hstep, hH'⟩ := @sequenceLockStep_height T block txin nCoinHeight
      ⟨hcoin.1, by omega⟩ htype H Tm
    refine ⟨H', Tm, hstep, fun N M => ?_⟩
    simp only [inputLockMet, if_neg hen, if_neg htype, decide_eq_true_eq]
    omega

/-- The loop of `CalculateSequenceLocks`: it returns, leaves `prevHeightAfter` of every
input in the vector, and its pair is below `(N, M)` exactly when the starting pair is and
every input's lock is met at height `N` and time `M`. -/
theorem calculateSequenceLocksLoop_spec (hb : T.get? block = some b)
    (hmax : b.nHeight + 2 ^ 16 ≤ 2 ^ 31) :
    ∀ (inputs : List (CTxIn × Int32)) (H : Int32) (Tm : Int64),
      (∀ input ∈ inputs, 0 ≤ input.2.toInt ∧ input.2.toInt ≤ b.nHeight) →
      ∃ H' Tm', calculateSequenceLocksLoop T block inputs H Tm =
          .ok (inputs.map prevHeightAfter, H', Tm') ∧
        ∀ N M : Int, (H'.toInt < N ∧ Tm'.toInt < M) ↔ (H.toInt < N ∧ Tm.toInt < M ∧
          ∀ input ∈ inputs, inputLockMet hT.forest T block N M input.1 input.2 = true)
  | [], H, Tm, _ => ⟨H, Tm, rfl, fun N M => by simp⟩
  | (txin, nCoinHeight) :: inputs, H, Tm, hcoins => by
    have hcoin := hcoins _ List.mem_cons_self
    have hrest : ∀ input ∈ inputs, 0 ≤ input.2.toInt ∧ input.2.toInt ≤ b.nHeight :=
      fun input h => hcoins input (List.mem_cons_of_mem _ h)
    by_cases hdis : txin.nSequence &&& SEQUENCE_LOCKTIME_DISABLE_FLAG ≠ 0
    · obtain ⟨H', Tm', hloop, hiff⟩ := calculateSequenceLocksLoop_spec hb hmax inputs H Tm hrest
      refine ⟨H', Tm', ?_, fun N M => ?_⟩
      · rw [calculateSequenceLocksLoop, if_pos hdis, hloop, Except.ok_bind]
        simp [prevHeightAfter, hdis]
      · rw [hiff, List.forall_mem_cons]
        simp [inputLockMet, hdis]
    · obtain ⟨H₁, Tm₁, hstep, hiff₁⟩ := sequenceLockStep_spec hT hb hmax txin hcoin hdis H Tm
      obtain ⟨H', Tm', hloop, hiff⟩ := calculateSequenceLocksLoop_spec hb hmax inputs H₁ Tm₁ hrest
      refine ⟨H', Tm', ?_, fun N M => ?_⟩
      · rw [calculateSequenceLocksLoop, if_neg hdis, hstep, Except.ok_bind]
        simp only [hloop, Except.ok_bind, Except.pure_eq_ok, List.map_cons]
        simp [prevHeightAfter, hdis]
      · rw [hiff, List.forall_mem_cons]
        have := hiff₁ N M
        tauto


/-- `EvaluateSequenceLocks` in a block with a parent: the pair is below the block's height
and its parent's median time past. -/
theorem evaluateSequenceLocks_of_pprev (hb : T.get? block = some b) {pprev : BlockPtr}
    (hprev : b.pprev = some pprev) (lockPair : Int32 × Int64) :
    evaluateSequenceLocks T block lockPair =
      .ok (decide (lockPair.1.toInt < b.nHeight ∧ lockPair.2.toInt < T.getMedianTimePast pprev)) := by
  simp only [evaluateSequenceLocks, hb, hprev, Except.ok.injEq]
  rw [Bool.eq_iff_iff]
  simp only [Bool.not_eq_true', Bool.or_eq_false_iff, decide_eq_false_iff_not, decide_eq_true_eq]
  omega

/-- `SequenceLocks` in a block with a parent, for coins at heights up to the block's: it
returns, and passes exactly when BIP68 is not enforced or every input's relative lock is
met. -/
theorem sequenceLocks_ok_iff (hb : T.get? block = some b) {pprev : BlockPtr}
    (hprev : b.pprev = some pprev) (hmax : b.nHeight + 2 ^ 16 ≤ 2 ^ 31)
    (tx : CMutableTransaction) (flags : Int32) (prevHeights : List Int32)
    (hlen : prevHeights.length = tx.vin.length)
    (hcoins : ∀ h ∈ prevHeights, 0 ≤ h.toInt ∧ h.toInt ≤ b.nHeight) :
    ∃ ok, sequenceLocks T tx flags prevHeights block =
        .ok (if enforceBIP68 tx flags then (tx.vin.zip prevHeights).map prevHeightAfter
          else prevHeights, ok) ∧
      (ok = true ↔ (enforceBIP68 tx flags = true → ∀ input ∈ tx.vin.zip prevHeights,
        inputLockMet hT.forest T block b.nHeight (T.getMedianTimePast pprev) input.1 input.2 =
          true)) := by
  have hmtp := BlockTree.getMedianTimePast_nonneg (T := T) pprev
  cases hen : enforceBIP68 tx flags with
  | false =>
    refine ⟨true, ?_, by simp⟩
    have hcalc : calculateSequenceLocks T tx flags prevHeights block = .ok (prevHeights, -1, -1) := by
      rw [calculateSequenceLocks, if_neg (by omega), hen]
      rfl
    rw [sequenceLocks, hcalc, Except.ok_bind]
    dsimp only
    rw [evaluateSequenceLocks_of_pprev hb hprev, Except.ok_bind]
    have h1 : (-1 : Int32).toInt = -1 := by decide
    have h2 : (-1 : Int64).toInt = -1 := by decide
    simp only [Except.pure_eq_ok, Except.ok.injEq, Prod.mk.injEq, Bool.false_eq_true, if_false,
      h1, h2, decide_eq_true_eq, true_and]
    omega
  | true =>
    have hzip : ∀ input ∈ tx.vin.zip prevHeights, 0 ≤ input.2.toInt ∧ input.2.toInt ≤ b.nHeight :=
      fun input h => hcoins input.2 (List.of_mem_zip h).2
    obtain ⟨H', Tm', hloop, hiff⟩ := calculateSequenceLocksLoop_spec hT hb hmax _ (-1) (-1) hzip
    have hcalc : calculateSequenceLocks T tx flags prevHeights block =
        .ok ((tx.vin.zip prevHeights).map prevHeightAfter, H', Tm') := by
      rw [calculateSequenceLocks, if_neg (by omega), hen]
      exact hloop
    refine ⟨decide (H'.toInt < b.nHeight ∧ Tm'.toInt < T.getMedianTimePast pprev), ?_, ?_⟩
    · rw [sequenceLocks, hcalc, Except.ok_bind]
      dsimp only
      rw [evaluateSequenceLocks_of_pprev hb hprev, Except.ok_bind]
      rfl
    · rw [decide_eq_true_iff, hiff]
      have h1 : (-1 : Int32).toInt = -1 := by decide
      have h2 : (-1 : Int64).toInt = -1 := by decide
      rw [h1, h2]
      constructor
      · rintro ⟨-, -, hall⟩ -
        exact hall
      · intro hall
        exact ⟨by omega, by omega, hall rfl⟩


/-- `SequenceLocks` in a block with a parent, for coins at heights up to the block's, is the
plain reading of BIP68: it never fails, leaves `prevHeightAfter` of each input in the
vector where BIP68 is enforced, and passes exactly when BIP68 is not enforced or every
input's own lock is met, the height against the block's and the time against its parent's
median time past.  The code keeps one running maximum of heights and one of times instead. -/
theorem sequenceLocks_eq (hb : T.get? block = some b) {pprev : BlockPtr}
    (hprev : b.pprev = some pprev) (hmax : b.nHeight + 2 ^ 16 ≤ 2 ^ 31)
    (tx : CMutableTransaction) (flags : Int32) (prevHeights : List Int32)
    (hlen : prevHeights.length = tx.vin.length)
    (hcoins : ∀ h ∈ prevHeights, 0 ≤ h.toInt ∧ h.toInt ≤ b.nHeight) :
    sequenceLocks T tx flags prevHeights block =
      .ok (if enforceBIP68 tx flags then (tx.vin.zip prevHeights).map prevHeightAfter
          else prevHeights,
        !enforceBIP68 tx flags || (tx.vin.zip prevHeights).all fun input =>
          inputLockMet hT.forest T block b.nHeight (T.getMedianTimePast pprev) input.1 input.2) := by
  obtain ⟨ok, hseq, hiff⟩ := sequenceLocks_ok_iff hT hb hprev hmax tx flags prevHeights hlen hcoins
  rw [hseq, Except.ok.injEq, Prod.mk.injEq]
  refine ⟨rfl, ?_⟩
  rw [Bool.eq_iff_iff, hiff]
  cases enforceBIP68 tx flags <;> simp [List.all_eq_true]


/-- A height lock of one block and a time lock of 512 seconds, on coins of the second block,
are met in the third block of a chain spaced by 1000 seconds. -/
theorem sequenceLocks_eq_height_and_time_lock :
    sequenceLocks (BlockTree.linear [1000, 2000, 3000])
      ⟨[⟨⟨Vector.replicate 32 0, 0⟩, [], 1, ⟨[]⟩⟩, ⟨⟨Vector.replicate 32 0, 1⟩, [], 4194305, ⟨[]⟩⟩],
        [], 2, 0⟩ 1 [1, 1] 2 = .ok ([1, 1], true) :=
  (sequenceLocks_eq (BlockTree.linear_wellFormed _)
    (b := BlockTree.linearEntry [1000, 2000, 3000] 2) rfl rfl (by decide) _ 1 [1, 1] rfl
    (by simp [BlockTree.linearEntry])).trans (by decide)

end Spec


/-! ## Along the chain -/

/-- An input's lock met in a block is met in every descendant: the ancestor that starts a
time lock lies at or below the block, and heights and times only grow. -/
theorem inputLockMet_of_isAncestor {F : ParentForest BlockPtr} {T : BlockTree}
    {block block' : BlockPtr} (hanc : F.IsAncestor block block') {N N' M M' : Int}
    (hN : N ≤ N') (hM : M ≤ M') {txin : CTxIn} {nCoinHeight : Int32}
    (h : inputLockMet F T block N M txin nCoinHeight = true) :
    inputLockMet F T block' N' M' txin nCoinHeight = true := by
  unfold inputLockMet at h ⊢
  split_ifs at h ⊢ with hdis htype
  · rfl
  · cases hpindex : F.ancestorAt block (max (nCoinHeight.toInt - 1) 0).toNat with
    | none => rw [hpindex] at h; cases h
    | some pindex =>
      have hle := (ParentForest.height_of_ancestorAt hpindex).2
      rw [hpindex, decide_eq_true_eq] at h
      rw [← hanc.ancestorAt_eq hle, hpindex, decide_eq_true_eq]
      omega
  · rw [decide_eq_true_eq] at h ⊢
    omega

/-- The parent of an ancestor of `block'` is an ancestor of the parent of `block'`. -/
theorem isAncestor_pprev_of_isAncestor {T : BlockTree} (hT : T.Linked) {block block' : BlockPtr}
    {b b' : CBlockIndex} (hb : T.get? block = some b) (hb' : T.get? block' = some b')
    {pprev pprev' : BlockPtr} (hprev : b.pprev = some pprev) (hprev' : b'.pprev = some pprev')
    (hanc : (T.forest hT).IsAncestor block block') :
    (T.forest hT).IsAncestor pprev pprev' := by
  have hp : (T.forest hT).parent block = some pprev := by
    show T.pprevOf block = some pprev
    rw [BlockTree.pprevOf_of_get? hb, hprev]
  have hp' : (T.forest hT).parent block' = some pprev' := by
    show T.pprevOf block' = some pprev'
    rw [BlockTree.pprevOf_of_get? hb', hprev']
  rcases ParentForest.isAncestor_iff.mp hanc with rfl | ⟨q, hq, hdq⟩
  · rw [hp, Option.some.injEq] at hp'
    rw [hp']
    exact ParentForest.IsAncestor.refl _
  · rw [hp', Option.some.injEq] at hq
    subst hq
    exact (ParentForest.isAncestor_parent hp).trans hdq

theorem pprev_of_sequenceLocks_eq_ok {T : BlockTree} {tx : CMutableTransaction} {flags : Int32}
    {prevHeights : List Int32} {block : BlockPtr} {r : List Int32 × Bool}
    (h : sequenceLocks T tx flags prevHeights block = .ok r) :
    ∃ b pprev, T.get? block = some b ∧ b.pprev = some pprev := by
  obtain ⟨⟨heights, lockPair⟩, -, hr⟩ := Except.bind_eq_ok.mp h
  obtain ⟨ok, hev, -⟩ := Except.bind_eq_ok.mp hr
  unfold evaluateSequenceLocks at hev
  split at hev
  · cases hev
  · next b hb =>
    split at hev
    · cases hev
    · next pprev hprev => exact ⟨b, pprev, hb, hprev⟩

/-- Sequence locks that pass in a block pass in every descendant of it, in a well-formed
tree whose blocks passed the timestamp test, for the same coins and with the same vector
left behind: the running maxima do not depend on the block but through the ancestors below
it, and the height and the parent's median time past only grow. -/
theorem sequenceLocks_of_isAncestor {T : BlockTree} (hT : T.WellFormed) (hto : T.TimeOrdered)
    {block block' : BlockPtr} {b' : CBlockIndex} (hb' : T.get? block' = some b')
    (hanc : hT.forest.IsAncestor block block') (hmax : b'.nHeight + 2 ^ 16 ≤ 2 ^ 31)
    (tx : CMutableTransaction) (flags : Int32) (prevHeights : List Int32)
    (hcoins : ∀ h ∈ prevHeights, 0 ≤ h.toInt ∧ h.toInt ≤ T.heightOf block)
    {heights : List Int32} (hok : sequenceLocks T tx flags prevHeights block = .ok (heights, true)) :
    sequenceLocks T tx flags prevHeights block' = .ok (heights, true) := by
  obtain ⟨b, pprev, hb, hprev⟩ := pprev_of_sequenceLocks_eq_ok hok
  have hlen : prevHeights.length = tx.vin.length := by
    by_contra hne
    rw [sequenceLocks, calculateSequenceLocks, if_pos hne] at hok
    cases hok
  have hheight : b.nHeight ≤ b'.nHeight := by
    rw [← BlockTree.heightOf_of_get? hb, ← BlockTree.heightOf_of_get? hb']
    exact hanc.height_le
  have hcoins₀ : ∀ h ∈ prevHeights, 0 ≤ h.toInt ∧ h.toInt ≤ b.nHeight := by
    simpa [BlockTree.heightOf_of_get? hb] using hcoins
  obtain ⟨c, -, hc⟩ := hT.prev_height hb hprev
  obtain ⟨pprev', -, hpar', -⟩ := exists_pprev hT hb' (by omega)
  have hprev' : b'.pprev = some pprev' := by
    rw [← BlockTree.pprevOf_of_get? hb']
    exact hpar'
  obtain ⟨ok, hseq, hiff⟩ := sequenceLocks_ok_iff hT hb hprev (by omega) tx flags prevHeights hlen
    hcoins₀
  obtain ⟨ok', hseq', hiff'⟩ := sequenceLocks_ok_iff hT hb' hprev' hmax tx flags prevHeights hlen
    (fun h hh => ⟨(hcoins₀ h hh).1, by have := (hcoins₀ h hh).2; omega⟩)
  rw [hseq, Except.ok.injEq, Prod.mk.injEq] at hok
  obtain ⟨hheights, rfl⟩ := hok
  rw [hseq', ← hheights]
  have htime : T.getMedianTimePast pprev ≤ T.getMedianTimePast pprev' :=
    BlockTree.getMedianTimePast_mono hT.toLinked hto
      (isAncestor_pprev_of_isAncestor hT.toLinked hb hb' hprev hprev' hanc)
  have hmet : ok' = true := by
    rw [hiff']
    intro hen input hinput
    exact inputLockMet_of_isAncestor hanc (by omega) htime (hiff.mp rfl hen input hinput)
  rw [hmet]


/-- A height lock of one block on a coin of the genesis block, met in the second block, is
met in the third. -/
theorem sequenceLocks_of_isAncestor_next_block :
    sequenceLocks (BlockTree.linear [1000, 2000, 3000])
      ⟨[⟨⟨Vector.replicate 32 0, 0⟩, [], 1, ⟨[]⟩⟩, ⟨⟨Vector.replicate 32 0, 1⟩, [], 0x80000000, ⟨[]⟩⟩],
        [], 2, 0⟩ 1 [0, 0] 2 = .ok ([0, 0], true) :=
  sequenceLocks_of_isAncestor (BlockTree.linear_wellFormed _)
    (BlockTree.timeOrdered_linear (by decide))
    (show (BlockTree.linear [1000, 2000, 3000]).get? 2 =
      some (BlockTree.linearEntry [1000, 2000, 3000] 2) from rfl) (show (BlockTree.linear_wellFormed [1000, 2000, 3000]).forest.IsAncestor 1 2 by
      unfold ParentForest.IsAncestor; decide) (by decide) _ 1 [0, 0]
    (by simp [BlockTree.heightOf, BlockTree.get?_linear, BlockTree.linearEntry]) (by decide)

/-- `IsFinalTx` holds at every later height and time where it holds: a lock time below the
height or time stays below, and the inputs do not change. -/
theorem isFinalTx_mono (tx : CMutableTransaction) {h h' : Int32} {t t' : Int64}
    (hh : h.toInt ≤ h'.toInt) (ht : t.toInt ≤ t'.toInt) (hf : isFinalTx tx h t = true) :
    isFinalTx tx h' t' = true := by
  unfold isFinalTx at hf ⊢
  by_cases h0 : tx.nLockTime = 0
  · rw [if_pos h0]
  · rw [if_neg h0] at hf ⊢
    by_cases hlt : (tx.nLockTime.toNat : Int) < (if (tx.nLockTime.toNat : Int) <
        LOCKTIME_THRESHOLD.toNat then h.toInt else t.toInt)
    · rw [if_pos]
      split_ifs at hlt ⊢ <;> omega
    · rw [if_neg hlt] at hf
      by_cases hlt' : (tx.nLockTime.toNat : Int) < (if (tx.nLockTime.toNat : Int) <
          LOCKTIME_THRESHOLD.toNat then h'.toInt else t'.toInt)
      · rw [if_pos hlt']
      · rw [if_neg hlt']
        exact hf

/-- Under `LOCKTIME_MEDIAN_TIME_PAST`, `ContextualCheckBlock` asks `IsFinalTx` at the height
after `pindexPrev` and at its median time past.  A transaction final after a block is final
after every descendant of it, in a tree whose blocks passed the timestamp test. -/
theorem isFinalTx_of_isAncestor {T : BlockTree} (hT : T.Linked) (hto : T.TimeOrdered)
    {pindexPrev pindexPrev' : BlockPtr} (hanc : (T.forest hT).IsAncestor pindexPrev pindexPrev')
    (hheight : T.heightOf pindexPrev' + 1 < 2 ^ 31) (tx : CMutableTransaction)
    (hf : isFinalTx tx (Int32.ofNat (T.heightOf pindexPrev + 1))
      (Int64.ofInt (T.getMedianTimePast pindexPrev)) = true) :
    isFinalTx tx (Int32.ofNat (T.heightOf pindexPrev' + 1))
      (Int64.ofInt (T.getMedianTimePast pindexPrev')) = true := by
  have hle : T.heightOf pindexPrev ≤ T.heightOf pindexPrev' := hanc.height_le
  have htime := BlockTree.getMedianTimePast_mono hT hto hanc
  have hmtp (p : BlockPtr) : (Int64.ofInt (T.getMedianTimePast p)).toInt = T.getMedianTimePast p :=
    Int64.toInt_ofInt_of_le
      (by have := BlockTree.getMedianTimePast_nonneg (T := T) p; omega)
      (by have := BlockTree.getMedianTimePast_lt (T := T) p; omega)
  refine isFinalTx_mono tx ?_ ?_ hf
  · rw [Int32.toInt_ofNat_of_lt (by omega), Int32.toInt_ofNat_of_lt hheight]
    push_cast
    omega
  · rw [hmtp, hmtp]
    exact htime


/-- A lock time of height 1 is final after the second block, and so after the third. -/
theorem isFinalTx_of_isAncestor_next_block :
    isFinalTx ⟨[⟨⟨Vector.replicate 32 0, 0⟩, [], 0, ⟨[]⟩⟩], [], 1, 1⟩
      (Int32.ofNat ((BlockTree.linear [1000, 2000, 3000]).heightOf 2 + 1))
      (Int64.ofInt ((BlockTree.linear [1000, 2000, 3000]).getMedianTimePast 2)) = true :=
  isFinalTx_of_isAncestor (BlockTree.linear_wellFormed _).toLinked
    (BlockTree.timeOrdered_linear (by decide))
    (show (BlockTree.linear_wellFormed [1000, 2000, 3000]).forest.IsAncestor 1 2 by
      unfold ParentForest.IsAncestor; decide) (by decide) _ (by decide)

end Veles
