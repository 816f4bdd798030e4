import Mathlib
import Veles.Consensus.MerkleBlock
import Veles.Lib.CheckedInt

/-!
# The amount checks of `CheckTransaction` and `Consensus::CheckTxInputs`

From consensus/tx_verify.cpp and primitives/transaction.cpp.  `CheckTransaction` checks each
output value and the running total `nValueOut` before the next addition; `GetValueOut` adds
first and checks after, and throws; `CheckTxInputs` spends coins of a `CCoinsViewCache`,
checks the maturity of a coinbase coin against the coin's own height (60 blocks below height
850000, 200 from it), adds each coin's value to `nValueIn` and checks after, and returns the
fee `nValueIn - GetValueOut()`.

`CAmount` is `Int64`, and its `+` and `-` go through `Int64.addChecked` and `subChecked`: an
overflow is undefined behaviour, `TxError.signedOverflow`.  The result of each function is
an `Except TxError`, whose errors are a rejection (`state.DoS` with its level and reason),
a thrown `std::runtime_error`, a failed `assert` and undefined behaviour.

    checkTransaction tx f = .ok () → every partial sum of the output values is in
      [0, MAX_MONEY], and getValueOut tx = .ok (their sum)   (getValueOut_of_checkTransaction)
    checkTxInputs tx inputs h = .ok txfee → txfee = Σ inputs - Σ outputs, and the
      partial input sums are in [0, MAX_MONEY]         (checkTxInputs_eq_ok, checkTxInputsLoop_ok)
    checkTransaction never throws, asserts or overflows    (checkTransaction_returnsOrRejects)
    nor does checkTxInputs on what checkTransaction accepts, not a coinbase, at a height ≥ 0
      in a view of coins in range                             (checkTxInputs_returnsOrRejects)
-/

namespace Veles

/-- `PROTOCOL_VERSION` (version.h). -/
def PROTOCOL_VERSION : Int32 := 80010

/-- `COINBASE_MATURITY` (consensus/consensus.h). -/
def COINBASE_MATURITY : Int32 := 60

/-- `COINBASE_MATURITY_850k` (consensus/consensus.h). -/
def COINBASE_MATURITY_850k : Int32 := 200

/-- `MoneyRange(nValue)`. -/
def moneyRange (nValue : Int64) : Bool := 0 ≤ nValue.toInt && nValue.toInt ≤ MAX_MONEY

/-- How a function of consensus/tx_verify.cpp ends when it does not return. -/
inductive TxError where
  /-- `return state.DoS(level, false, REJECT_INVALID, strRejectReason)`; `state.Invalid` is
  level `0`. -/
  | invalid (level : Int) (strRejectReason : String)
  /-- A thrown `std::runtime_error`, with its `what()`. -/
  | runtimeError (what : String)
  /-- An `assert` that does not hold. -/
  | assertFailure
  /-- A signed overflow: undefined behaviour. -/
  | signedOverflow
  deriving DecidableEq, Repr

/-- A signed operation of the source: its result where it is defined. -/
def defined {α : Type} : Option α → Except TxError α
  | some a => .ok a
  | none => .error .signedOverflow

/-! ## Transactions and coins -/

/-- `COutPoint::NULL_INDEX`. -/
def NULL_INDEX : UInt32 := 0xffffffff

/-- `COutPoint::IsNull()`: `hash.IsNull() && n == NULL_INDEX`. -/
def COutPoint.isNull (prevout : COutPoint) : Bool :=
  prevout.hash.toList.all (· == 0) && prevout.n == NULL_INDEX

/-- `CTransaction::IsCoinBase()`: `vin.size() == 1 && vin[0].prevout.IsNull()`. -/
def CMutableTransaction.isCoinBase (tx : CMutableTransaction) : Bool :=
  match tx.vin with
  | [txin] => txin.prevout.isNull
  | _ => false

/-- `::GetSerializeSize(tx, nVersion)`. -/
def getSerializeSize (tx : CMutableTransaction) (nVersion : Int32) : Nat :=
  (serializeTransaction nVersion tx).length

/-- `CTxOut::IsNull()`: `nValue == -1`, the mark of a spent output. -/
def CTxOut.isNull (txout : CTxOut) : Bool := txout.nValue == -1

/-- `Coin`: the output, whether its transaction was a coinbase, and its height, a 31-bit
field. -/
structure Coin where
  out : CTxOut
  fCoinBase : Bool
  nHeight : BitVec 31
  deriving DecidableEq, Repr

/-- `Coin::IsSpent()`. -/
def Coin.isSpent (coin : Coin) : Bool := coin.out.isNull

/-- `coin.nHeight` in an expression: the 31-bit field is promoted to `int`. -/
def Coin.height (coin : Coin) : Int32 := Int32.ofNat coin.nHeight.toNat

/-- `coinEmpty`, a default `Coin()`: its `CTxOut()` is null. -/
def coinEmpty : Coin := ⟨⟨-1, []⟩, false, 0⟩

/-- A `CCoinsViewCache`, through what `FetchCoin` finds at each outpoint: a coin, which may be
spent, or no entry. -/
structure CCoinsViewCache where
  fetchCoin : COutPoint → Option Coin

/-- `CCoinsViewCache::AccessCoin(outpoint)`. -/
def CCoinsViewCache.accessCoin (view : CCoinsViewCache) (outpoint : COutPoint) : Coin :=
  (view.fetchCoin outpoint).getD coinEmpty

/-- `CCoinsViewCache::HaveCoin(outpoint)`. -/
def CCoinsViewCache.haveCoin (view : CCoinsViewCache) (outpoint : COutPoint) : Bool :=
  match view.fetchCoin outpoint with
  | some coin => !coin.isSpent
  | none => false

/-- `CCoinsViewCache::HaveInputs(tx)`: a coinbase has no inputs to look up. -/
def CCoinsViewCache.haveInputs (view : CCoinsViewCache) (tx : CMutableTransaction) : Bool :=
  if !tx.isCoinBase then tx.vin.all fun txin => view.haveCoin txin.prevout else true

/-! ## Algorithm -/

/-- The loop `for (const auto& tx_out : vout)` of `CTransaction::GetValueOut()`, from
`nValueOut`: the value is added before it is checked. -/
def getValueOutLoop : List CTxOut → Int64 → Except TxError Int64
  | [], nValueOut => .ok nValueOut
  | tx_out :: vout, nValueOut => do
    let nValueOut ← defined (nValueOut.addChecked tx_out.nValue)
    if !moneyRange tx_out.nValue || !moneyRange nValueOut then
      .error (.runtimeError "GetValueOut: value out of range")
    else getValueOutLoop vout nValueOut

/-- `CTransaction::GetValueOut()`. -/
def getValueOut (tx : CMutableTransaction) : Except TxError Int64 := getValueOutLoop tx.vout 0

/-- The loop `for (const auto& txout : tx.vout)` of `CheckTransaction`, from `nValueOut`: the
value is checked before it is added. -/
def checkVoutValues : List CTxOut → Int64 → Except TxError Unit
  | [], _ => .ok ()
  | txout :: vout, nValueOut =>
    if txout.nValue.toInt < 0 then .error (.invalid 100 "bad-txns-vout-negative")
    else if txout.nValue.toInt > MAX_MONEY then .error (.invalid 100 "bad-txns-vout-toolarge")
    else do
      let nValueOut ← defined (nValueOut.addChecked txout.nValue)
      if !moneyRange nValueOut then .error (.invalid 100 "bad-txns-txouttotal-toolarge")
      else checkVoutValues vout nValueOut

/-- The loop `if (!vInOutPoints.insert(txin.prevout).second)` of `CheckTransaction` over
`vin`, with `vInOutPoints` the outpoints inserted so far: whether every insertion was new. -/
def insertPrevouts (vInOutPoints : List COutPoint) : List CTxIn → Bool
  | [] => true
  | txin :: vin =>
    if txin.prevout ∈ vInOutPoints then false else insertPrevouts (txin.prevout :: vInOutPoints) vin

/-- The checks of `CheckTransaction` after the outputs: duplicate inputs, then the size of a
coinbase's `scriptSig` or the outpoints of the other inputs. -/
def checkTxIns (tx : CMutableTransaction) (fCheckDuplicateInputs : Bool) : Except TxError Unit :=
  if fCheckDuplicateInputs && !insertPrevouts [] tx.vin then
    .error (.invalid 100 "bad-txns-inputs-duplicate")
  else if tx.isCoinBase then
    match tx.vin with
    | txin :: _ =>
      if txin.scriptSig.length < 2 ∨ txin.scriptSig.length > 100 then
        .error (.invalid 100 "bad-cb-length")
      else .ok ()
    | [] => .ok ()
  else if tx.vin.any fun txin => txin.prevout.isNull then
    .error (.invalid 10 "bad-txns-prevout-null")
  else .ok ()

/-- `CheckTransaction(tx, state, fCheckDuplicateInputs)`. -/
def checkTransaction (tx : CMutableTransaction) (fCheckDuplicateInputs : Bool) :
    Except TxError Unit :=
  -- Basic checks that don't depend on any context
  if tx.vin.isEmpty then .error (.invalid 10 "bad-txns-vin-empty")
  else if tx.vout.isEmpty then .error (.invalid 10 "bad-txns-vout-empty")
  -- Size limits; the serialization leaves the witness out
  else if getSerializeSize tx (PROTOCOL_VERSION ||| SERIALIZE_TRANSACTION_NO_WITNESS) *
      WITNESS_SCALE_FACTOR > MAX_BLOCK_WEIGHT then .error (.invalid 100 "bad-txns-oversize")
  else do
    checkVoutValues tx.vout 0
    checkTxIns tx fCheckDuplicateInputs

/-- `coin.nHeight<850000 ? COINBASE_MATURITY : COINBASE_MATURITY_850k`. -/
def coinbaseMaturity (nHeight : Int32) : Int32 :=
  if nHeight < 850000 then COINBASE_MATURITY else COINBASE_MATURITY_850k

/-- `if (coin.IsCoinBase() && nSpendHeight - coin.nHeight < maturity) return state.Invalid(..)`:
a coinbase coin is spent only at a depth of at least its maturity. -/
def checkMaturity (nSpendHeight : Int32) (coin : Coin) : Except TxError Unit :=
  if coin.fCoinBase then do
    let depth ← defined (nSpendHeight.subChecked coin.height)
    if depth < coinbaseMaturity coin.height then
      .error (.invalid 0 "bad-txns-premature-spend-of-coinbase")
    else .ok ()
  else .ok ()

/-- The loop `for (unsigned int i = 0; i < tx.vin.size(); ++i)` of `CheckTxInputs`, from
`nValueIn`: the coin's value is added before it is checked. -/
def checkTxInputsLoop (inputs : CCoinsViewCache) (nSpendHeight : Int32) :
    List CTxIn → Int64 → Except TxError Int64
  | [], nValueIn => .ok nValueIn
  | txin :: vin, nValueIn =>
    let coin := inputs.accessCoin txin.prevout
    if coin.isSpent then .error .assertFailure
    else do
      -- If prev is coinbase, check that it's matured
      checkMaturity nSpendHeight coin
      -- Check for negative or overflow input values
      let nValueIn ← defined (nValueIn.addChecked coin.out.nValue)
      if !moneyRange coin.out.nValue || !moneyRange nValueIn then
        .error (.invalid 100 "bad-txns-inputvalues-outofrange")
      else checkTxInputsLoop inputs nSpendHeight vin nValueIn

/-- `Consensus::CheckTxInputs(tx, state, inputs, nSpendHeight, txfee)`: the fee it writes to
`txfee`. -/
def checkTxInputs (tx : CMutableTransaction) (inputs : CCoinsViewCache) (nSpendHeight : Int32) :
    Except TxError Int64 :=
  -- are the actual inputs available?
  if !inputs.haveInputs tx then .error (.invalid 100 "bad-txns-inputs-missingorspent")
  else do
    let nValueIn ← checkTxInputsLoop inputs nSpendHeight tx.vin 0
    let value_out ← getValueOut tx
    if nValueIn < value_out then .error (.invalid 100 "bad-txns-in-belowout")
    else do
      -- Tally transaction fees
      let txfee_aux ← defined (nValueIn.subChecked value_out)
      if !moneyRange txfee_aux then .error (.invalid 100 "bad-txns-fee-outofrange")
      else .ok txfee_aux

/-! ## Lemmas: one step of each loop -/

/-- The sum of the output values, over the integers. -/
def valueSum (vout : List CTxOut) : Int := (vout.map fun txout => txout.nValue.toInt).sum

/-- The sum of the values of the coins that `vin` spends, over the integers. -/
def inputValueSum (inputs : CCoinsViewCache) (vin : List CTxIn) : Int :=
  (vin.map fun txin => (inputs.accessCoin txin.prevout).out.nValue.toInt).sum

@[simp] theorem valueSum_nil : valueSum [] = 0 := rfl

@[simp] theorem valueSum_cons (txout : CTxOut) (vout : List CTxOut) :
    valueSum (txout :: vout) = txout.nValue.toInt + valueSum vout := by
  simp [valueSum]

@[simp] theorem inputValueSum_nil (inputs : CCoinsViewCache) : inputValueSum inputs [] = 0 := rfl

@[simp] theorem inputValueSum_cons (inputs : CCoinsViewCache) (txin : CTxIn) (vin : List CTxIn) :
    inputValueSum inputs (txin :: vin) =
      (inputs.accessCoin txin.prevout).out.nValue.toInt + inputValueSum inputs vin := by
  simp [inputValueSum]

theorem moneyRange_iff (nValue : Int64) :
    moneyRange nValue = true ↔ 0 ≤ nValue.toInt ∧ nValue.toInt ≤ MAX_MONEY := by
  simp [moneyRange]

@[simp] theorem defined_some {α : Type} (a : α) : defined (some a) = .ok a := rfl

theorem defined_bind_eq_ok {α β : Type} {o : Option α} {f : α → Except TxError β} {b : β} :
    (defined o >>= f) = .ok b ↔ ∃ a, o = some a ∧ f a = .ok b := by
  cases o with
  | none => simp [defined]
  | some a => simp

theorem getValueOutLoop_cons_eq_ok {tx_out : CTxOut} {vout : List CTxOut} {nValueOut r : Int64} :
    getValueOutLoop (tx_out :: vout) nValueOut = .ok r ↔
      ∃ acc, nValueOut.addChecked tx_out.nValue = some acc ∧ moneyRange tx_out.nValue = true ∧
        moneyRange acc = true ∧ getValueOutLoop vout acc = .ok r := by
  rw [getValueOutLoop, defined_bind_eq_ok]
  refine exists_congr fun acc => and_congr_right fun _ => ?_
  by_cases h1 : moneyRange tx_out.nValue <;> by_cases h2 : moneyRange acc <;> simp [h1, h2]

theorem checkVoutValues_cons_eq_ok {txout : CTxOut} {vout : List CTxOut} {nValueOut : Int64} :
    checkVoutValues (txout :: vout) nValueOut = .ok () ↔
      moneyRange txout.nValue = true ∧ ∃ acc, nValueOut.addChecked txout.nValue = some acc ∧
        moneyRange acc = true ∧ checkVoutValues vout acc = .ok () := by
  rw [checkVoutValues, moneyRange_iff]
  by_cases h1 : txout.nValue.toInt < 0
  · simp [h1]
  by_cases h2 : txout.nValue.toInt > MAX_MONEY
  · simp [h1, h2]
  rw [if_neg h1, if_neg h2, defined_bind_eq_ok]
  simp only [not_lt.mp h1, not_lt.mp h2, and_self, true_and]
  refine exists_congr fun acc => and_congr_right fun _ => ?_
  by_cases h3 : moneyRange acc <;> simp [h3]

theorem checkMaturity_eq_ok {nSpendHeight : Int32} {coin : Coin} :
    checkMaturity nSpendHeight coin = .ok () ↔
      (coin.fCoinBase = true → ∃ depth, nSpendHeight.subChecked coin.height = some depth ∧
        coinbaseMaturity coin.height ≤ depth) := by
  unfold checkMaturity
  cases coin.fCoinBase with
  | false => simp
  | true =>
    rw [if_pos rfl, defined_bind_eq_ok, imp_iff_right rfl]
    refine exists_congr fun depth => and_congr_right fun _ => ?_
    by_cases h : depth < coinbaseMaturity coin.height
    · simp [h, Int32.not_le.mpr h]
    · simp [h, Int32.not_lt.mp h]

theorem checkTxInputsLoop_cons_eq_ok {inputs : CCoinsViewCache} {nSpendHeight : Int32}
    {txin : CTxIn} {vin : List CTxIn} {nValueIn r : Int64} :
    checkTxInputsLoop inputs nSpendHeight (txin :: vin) nValueIn = .ok r ↔
      (inputs.accessCoin txin.prevout).isSpent = false ∧
        checkMaturity nSpendHeight (inputs.accessCoin txin.prevout) = .ok () ∧
        ∃ acc, nValueIn.addChecked (inputs.accessCoin txin.prevout).out.nValue = some acc ∧
          moneyRange (inputs.accessCoin txin.prevout).out.nValue = true ∧ moneyRange acc = true ∧
          checkTxInputsLoop inputs nSpendHeight vin acc = .ok r := by
  rw [checkTxInputsLoop]
  cases hs : (inputs.accessCoin txin.prevout).isSpent with
  | true => simp
  | false =>
    rw [if_neg (by simp), Except.bind_eq_ok]
    simp only [true_and]
    constructor
    · rintro ⟨u, hm, h⟩
      refine ⟨hm, ((defined_bind_eq_ok).mp h).imp fun acc ⟨hacc, h⟩ => ⟨hacc, ?_⟩⟩
      by_cases h1 : moneyRange (inputs.accessCoin txin.prevout).out.nValue <;>
        by_cases h2 : moneyRange acc <;> simp_all
    · rintro ⟨hm, acc, hacc, h1, h2, h⟩
      exact ⟨(), hm, (defined_bind_eq_ok).mpr ⟨acc, hacc, by simp [h1, h2, h]⟩⟩

/-- The `std::set` insertions of `CheckTransaction` fail exactly on a repeated outpoint. -/
theorem insertPrevouts_eq_true_iff (vInOutPoints : List COutPoint) (vin : List CTxIn) :
    insertPrevouts vInOutPoints vin = true ↔
      (vin.map fun txin => txin.prevout).Nodup ∧ ∀ txin ∈ vin, txin.prevout ∉ vInOutPoints := by
  induction vin generalizing vInOutPoints with
  | nil => simp [insertPrevouts]
  | cons txin vin ih =>
    by_cases hmem : txin.prevout ∈ vInOutPoints
    · simp only [insertPrevouts, if_pos hmem, Bool.false_eq_true, false_iff]
      exact fun ⟨_, h⟩ => h txin List.mem_cons_self hmem
    · rw [insertPrevouts, if_neg hmem, ih]
      simp only [List.map_cons, List.nodup_cons, List.mem_map, List.mem_cons, forall_eq_or_imp,
        not_or]
      grind

/-! ## Lemmas: the running totals -/

/-- Every partial sum of the amounts `vs`, counted from `acc`, is in `[0, MAX_MONEY]`. -/
def PartialSumsInRange (acc : Int) (vs : List Int) : Prop :=
  ∀ k ≤ vs.length, 0 ≤ acc + (vs.take k).sum ∧ acc + (vs.take k).sum ≤ MAX_MONEY

theorem partialSumsInRange_nil {acc : Int} :
    PartialSumsInRange acc [] ↔ 0 ≤ acc ∧ acc ≤ MAX_MONEY := by
  simp [PartialSumsInRange]

theorem partialSumsInRange_cons {acc v : Int} {vs : List Int} :
    PartialSumsInRange acc (v :: vs) ↔
      (0 ≤ acc ∧ acc ≤ MAX_MONEY) ∧ PartialSumsInRange (acc + v) vs := by
  constructor
  · intro h
    refine ⟨by simpa using h 0 (by simp), fun k hk => ?_⟩
    have := h (k + 1) (by simp only [List.length_cons]; omega)
    simpa [add_assoc] using this
  · rintro ⟨h0, h⟩ k hk
    cases k with
    | zero => simpa using h0
    | succ k =>
      have := h k (by simp only [List.length_cons] at hk; omega)
      simpa [add_assoc] using this

/-- The first partial sum is the start. -/
theorem PartialSumsInRange.start {acc : Int} {vs : List Int} (h : PartialSumsInRange acc vs) :
    0 ≤ acc ∧ acc ≤ MAX_MONEY := by
  simpa using h 0 (Nat.zero_le _)

/-- The last partial sum is the whole sum. -/
theorem PartialSumsInRange.sum {acc : Int} {vs : List Int} (h : PartialSumsInRange acc vs) :
    0 ≤ acc + vs.sum ∧ acc + vs.sum ≤ MAX_MONEY := by
  simpa using h vs.length le_rfl

/-- Two amounts in `[0, MAX_MONEY]` add without overflow. -/
theorem exists_addChecked_of_moneyRange {a b : Int64} (ha : moneyRange a = true)
    (hb : moneyRange b = true) : ∃ c, a.addChecked b = some c ∧ c.toInt = a.toInt + b.toInt := by
  rw [moneyRange_iff] at ha hb
  have hmax := MAX_MONEY_eq
  exact Int64.exists_addChecked_eq_some (by omega) (by omega)

theorem getValueOutLoop_ok {vout : List CTxOut} {acc r : Int64}
    (h : getValueOutLoop vout acc = .ok r) : r.toInt = acc.toInt + valueSum vout := by
  induction vout generalizing acc with
  | nil =>
    cases h
    simp
  | cons tx_out vout ih =>
    obtain ⟨acc', hadd, -, -, h⟩ := (getValueOutLoop_cons_eq_ok).mp h
    rw [ih h, ((Int64.addChecked_eq_some_iff).mp hadd).2, valueSum_cons]
    omega

/-- `GetValueOut` neither throws nor overflows where every value and every partial sum is in
`[0, MAX_MONEY]`. -/
theorem getValueOutLoop_of_partialSums {vout : List CTxOut} {acc : Int64}
    (hvals : ∀ txout ∈ vout, moneyRange txout.nValue = true)
    (hsums : PartialSumsInRange acc.toInt (vout.map fun txout => txout.nValue.toInt)) :
    ∃ r, getValueOutLoop vout acc = .ok r ∧ r.toInt = acc.toInt + valueSum vout := by
  induction vout generalizing acc with
  | nil => exact ⟨acc, rfl, by simp⟩
  | cons txout vout ih =>
    obtain ⟨hacc, hsums⟩ := (partialSumsInRange_cons).mp hsums
    have hval := hvals txout List.mem_cons_self
    obtain ⟨acc', hadd, hacc'⟩ := exists_addChecked_of_moneyRange
      ((moneyRange_iff acc).mpr hacc) hval
    rw [← hacc'] at hsums
    have hrange : moneyRange acc' = true := (moneyRange_iff acc').mpr hsums.start
    obtain ⟨r, hr, hrv⟩ := ih (fun o ho => hvals o (List.mem_cons_of_mem _ ho)) hsums
    refine ⟨r, (getValueOutLoop_cons_eq_ok).mpr ⟨acc', hadd, hval, hrange, hr⟩, ?_⟩
    rw [hrv, hacc', valueSum_cons]
    omega

theorem checkVoutValues_ok {vout : List CTxOut} {acc : Int64} (hacc : moneyRange acc = true)
    (h : checkVoutValues vout acc = .ok ()) :
    (∀ txout ∈ vout, moneyRange txout.nValue = true) ∧
      PartialSumsInRange acc.toInt (vout.map fun txout => txout.nValue.toInt) := by
  induction vout generalizing acc with
  | nil => exact ⟨by simp, (partialSumsInRange_nil).mpr ((moneyRange_iff acc).mp hacc)⟩
  | cons txout vout ih =>
    obtain ⟨hval, acc', hadd, hacc', h⟩ := (checkVoutValues_cons_eq_ok).mp h
    obtain ⟨hvals, hsums⟩ := ih hacc' h
    refine ⟨?_, (partialSumsInRange_cons).mpr ⟨(moneyRange_iff acc).mp hacc, ?_⟩⟩
    · exact List.forall_mem_cons.mpr ⟨hval, hvals⟩
    · rwa [← ((Int64.addChecked_eq_some_iff).mp hadd).2]

theorem checkTxInputsLoop_ok {inputs : CCoinsViewCache} {nSpendHeight : Int32}
    {vin : List CTxIn} {acc r : Int64} (hacc : moneyRange acc = true)
    (h : checkTxInputsLoop inputs nSpendHeight vin acc = .ok r) :
    r.toInt = acc.toInt + inputValueSum inputs vin ∧
      PartialSumsInRange acc.toInt
        (vin.map fun txin => (inputs.accessCoin txin.prevout).out.nValue.toInt) ∧
      ∀ txin ∈ vin, checkMaturity nSpendHeight (inputs.accessCoin txin.prevout) = .ok () := by
  induction vin generalizing acc with
  | nil =>
    simp only [checkTxInputsLoop, Except.ok.injEq] at h
    subst h
    exact ⟨by simp, (partialSumsInRange_nil).mpr ((moneyRange_iff acc).mp hacc), by simp⟩
  | cons txin vin ih =>
    obtain ⟨-, hmat, acc', hadd, -, hacc', h⟩ := (checkTxInputsLoop_cons_eq_ok).mp h
    obtain ⟨hr, hsums, hmats⟩ := ih hacc' h
    have hsum := ((Int64.addChecked_eq_some_iff).mp hadd).2
    refine ⟨?_, (partialSumsInRange_cons).mpr ⟨(moneyRange_iff acc).mp hacc, ?_⟩, ?_⟩
    · rw [hr, hsum, inputValueSum_cons]
      omega
    · rwa [← hsum]
    · exact List.forall_mem_cons.mpr ⟨hmat, hmats⟩

/-! ## Lemmas: maturity -/

theorem toInt_height (coin : Coin) : coin.height.toInt = coin.nHeight.toNat := by
  have hlt := coin.nHeight.isLt
  have hsize : ((Int32.size : Nat) : Int) = 4294967296 := rfl
  rw [Coin.height, Int32.toInt_ofNat', Int.bmod_eq_of_le] <;> omega

theorem toInt_coinbaseMaturity (coin : Coin) :
    (coinbaseMaturity coin.height).toInt =
      if coin.nHeight.toNat < 850000 then COINBASE_MATURITY.toInt
      else COINBASE_MATURITY_850k.toInt := by
  have hlt : coin.height < 850000 ↔ coin.nHeight.toNat < 850000 := by
    have h85 : (850000 : Int32).toInt = 850000 := rfl
    rw [Int32.lt_iff_toInt_lt, toInt_height, h85]
    omega
  by_cases h : coin.nHeight.toNat < 850000
  · rw [coinbaseMaturity, if_pos (hlt.mpr h), if_pos h]
  · rw [coinbaseMaturity, if_neg (mt hlt.mp h), if_neg h]

/-- A coinbase coin that passes the maturity check is spent at a depth, counted from its own
height, of at least the maturity in force at that height. -/
theorem mature_of_checkMaturity {nSpendHeight : Int32} {coin : Coin}
    (h : checkMaturity nSpendHeight coin = .ok ()) (hcb : coin.fCoinBase = true) :
    (if coin.nHeight.toNat < 850000 then COINBASE_MATURITY.toInt
      else COINBASE_MATURITY_850k.toInt) ≤ nSpendHeight.toInt - coin.nHeight.toNat := by
  obtain ⟨depth, hsub, hle⟩ := (checkMaturity_eq_ok).mp h hcb
  rw [Int32.le_iff_toInt_le, toInt_coinbaseMaturity, ((Int32.subChecked_eq_some_iff).mp hsub).2,
    toInt_height] at hle
  exact hle

/-! ## Lemmas: the two checks -/

@[simp] theorem moneyRange_zero : moneyRange 0 = true := by
  simp [moneyRange, MAX_MONEY_eq]

theorem checkVoutValues_of_checkTransaction {tx : CMutableTransaction}
    {fCheckDuplicateInputs : Bool} (h : checkTransaction tx fCheckDuplicateInputs = .ok ()) :
    checkVoutValues tx.vout 0 = .ok () := by
  unfold checkTransaction at h
  split_ifs at h
  obtain ⟨u, hv, -⟩ := (Except.bind_eq_ok).mp h
  exact hv

theorem checkTxInputs_eq_ok {tx : CMutableTransaction} {inputs : CCoinsViewCache}
    {nSpendHeight : Int32} {txfee : Int64} (h : checkTxInputs tx inputs nSpendHeight = .ok txfee) :
    ∃ nValueIn value_out, checkTxInputsLoop inputs nSpendHeight tx.vin 0 = .ok nValueIn ∧
      getValueOut tx = .ok value_out ∧ nValueIn.subChecked value_out = some txfee ∧
      moneyRange txfee = true := by
  unfold checkTxInputs at h
  split_ifs at h
  obtain ⟨nValueIn, hin, h⟩ := (Except.bind_eq_ok).mp h
  obtain ⟨value_out, hout, h⟩ := (Except.bind_eq_ok).mp h
  split_ifs at h
  obtain ⟨txfee', hsub, h⟩ := (defined_bind_eq_ok).mp h
  split_ifs at h with hfee
  cases h
  exact ⟨nValueIn, value_out, hin, hout, hsub, by simpa using hfee⟩

theorem partialSumsInRange_valueSum (vout : List CTxOut) :
    PartialSumsInRange (0 : Int64).toInt (vout.map fun txout => txout.nValue.toInt) ↔
      ∀ k ≤ vout.length, 0 ≤ valueSum (vout.take k) ∧ valueSum (vout.take k) ≤ MAX_MONEY := by
  simp [PartialSumsInRange, valueSum, List.map_take]

theorem partialSumsInRange_inputValueSum (inputs : CCoinsViewCache) (vin : List CTxIn) :
    PartialSumsInRange (0 : Int64).toInt
        (vin.map fun txin => (inputs.accessCoin txin.prevout).out.nValue.toInt) ↔
      ∀ k ≤ vin.length, 0 ≤ inputValueSum inputs (vin.take k) ∧
        inputValueSum inputs (vin.take k) ≤ MAX_MONEY := by
  simp [PartialSumsInRange, inputValueSum, List.map_take]

/-- What `CheckTransaction` accepts has an output total that `GetValueOut` computes without
throwing or overflowing. -/
theorem getValueOut_of_checkTransaction {tx : CMutableTransaction} {fCheckDuplicateInputs : Bool}
    (h : checkTransaction tx fCheckDuplicateInputs = .ok ()) :
    ∃ value_out, getValueOut tx = .ok value_out ∧ value_out.toInt = valueSum tx.vout ∧
      PartialSumsInRange (0 : Int64).toInt (tx.vout.map fun txout => txout.nValue.toInt) := by
  obtain ⟨hvals, hsums⟩ :=
    checkVoutValues_ok moneyRange_zero (checkVoutValues_of_checkTransaction h)
  obtain ⟨value_out, hv, hvalue⟩ := getValueOutLoop_of_partialSums hvals hsums
  exact ⟨value_out, hv, by simpa using hvalue, hsums⟩

/-! ## Lemmas: what can go wrong -/

/-- `r` returns, or rejects through `state.DoS`: it throws nothing, fails no `assert` and has
no undefined behaviour. -/
def ReturnsOrRejects {α : Type} (r : Except TxError α) : Prop :=
  ∀ e, r = .error e → ∃ level strRejectReason, e = .invalid level strRejectReason

theorem returnsOrRejects_ok {α : Type} (a : α) : ReturnsOrRejects (.ok a : Except TxError α) := by
  intro e h
  cases h

theorem returnsOrRejects_invalid {α : Type} (level : Int) (strRejectReason : String) :
    ReturnsOrRejects (.error (.invalid level strRejectReason) : Except TxError α) := by
  intro e h
  cases h
  exact ⟨level, strRejectReason, rfl⟩

theorem ReturnsOrRejects.bind {α β : Type} {x : Except TxError α} {f : α → Except TxError β}
    (hx : ReturnsOrRejects x) (hf : ∀ a, x = .ok a → ReturnsOrRejects (f a)) :
    ReturnsOrRejects (x >>= f) := by
  cases x with
  | error e =>
    rw [Except.error_bind]
    intro e' he
    exact hx e' (by cases he; rfl)
  | ok a => exact hf a rfl

theorem ReturnsOrRejects.ne_signedOverflow {α : Type} {r : Except TxError α}
    (h : ReturnsOrRejects r) : r ≠ .error .signedOverflow := by
  intro he
  obtain ⟨_, _, h'⟩ := h _ he
  cases h'

theorem ReturnsOrRejects.ne_assertFailure {α : Type} {r : Except TxError α}
    (h : ReturnsOrRejects r) : r ≠ .error .assertFailure := by
  intro he
  obtain ⟨_, _, h'⟩ := h _ he
  cases h'

theorem checkVoutValues_returnsOrRejects (vout : List CTxOut) {acc : Int64}
    (hacc : moneyRange acc = true) : ReturnsOrRejects (checkVoutValues vout acc) := by
  induction vout generalizing acc with
  | nil => exact returnsOrRejects_ok ()
  | cons txout vout ih =>
    rw [checkVoutValues]
    by_cases h1 : txout.nValue.toInt < 0
    · rw [if_pos h1]
      exact returnsOrRejects_invalid _ _
    by_cases h2 : txout.nValue.toInt > MAX_MONEY
    · rw [if_neg h1, if_pos h2]
      exact returnsOrRejects_invalid _ _
    -- the value is checked first, so the addition stays below `2 * MAX_MONEY`
    obtain ⟨acc', hadd, -⟩ :=
      exists_addChecked_of_moneyRange hacc ((moneyRange_iff txout.nValue).mpr ⟨by omega, by omega⟩)
    rw [if_neg h1, if_neg h2, hadd, defined_some, Except.ok_bind]
    by_cases h3 : moneyRange acc' = true
    · rw [if_neg (by simp [h3])]
      exact ih h3
    · rw [if_pos (by simpa using h3)]
      exact returnsOrRejects_invalid _ _

theorem checkTxIns_returnsOrRejects (tx : CMutableTransaction) (fCheckDuplicateInputs : Bool) :
    ReturnsOrRejects (checkTxIns tx fCheckDuplicateInputs) := by
  unfold checkTxIns
  split_ifs
  · exact returnsOrRejects_invalid _ _
  · split
    · split_ifs
      · exact returnsOrRejects_invalid _ _
      · exact returnsOrRejects_ok _
    · exact returnsOrRejects_ok _
  · exact returnsOrRejects_invalid _ _
  · exact returnsOrRejects_ok _

/-- `CheckTransaction` never throws, fails no `assert` and never overflows, on any
transaction. -/
theorem checkTransaction_returnsOrRejects (tx : CMutableTransaction)
    (fCheckDuplicateInputs : Bool) :
    ReturnsOrRejects (checkTransaction tx fCheckDuplicateInputs) := by
  unfold checkTransaction
  split_ifs
  · exact returnsOrRejects_invalid _ _
  · exact returnsOrRejects_invalid _ _
  · exact returnsOrRejects_invalid _ _
  exact (checkVoutValues_returnsOrRejects tx.vout moneyRange_zero).bind fun _ _ =>
    checkTxIns_returnsOrRejects tx fCheckDuplicateInputs

/-- The unspent coins of the view hold amounts in `[0, MAX_MONEY]`. -/
def UnspentInMoneyRange (inputs : CCoinsViewCache) : Prop :=
  ∀ outpoint coin, inputs.fetchCoin outpoint = some coin → coin.isSpent = false →
    moneyRange coin.out.nValue = true

theorem isSpent_accessCoin_of_haveCoin {inputs : CCoinsViewCache} {outpoint : COutPoint}
    (h : inputs.haveCoin outpoint = true) : (inputs.accessCoin outpoint).isSpent = false := by
  unfold CCoinsViewCache.haveCoin at h
  unfold CCoinsViewCache.accessCoin
  cases hf : inputs.fetchCoin outpoint with
  | none =>
    rw [hf] at h
    cases h
  | some coin =>
    rw [hf] at h
    simpa using h

/-- `HaveInputs` makes the `assert(!coin.IsSpent())` of `CheckTxInputs` hold, unless the
transaction is a coinbase, whose inputs it does not look up. -/
theorem isSpent_accessCoin_of_haveInputs {inputs : CCoinsViewCache} {tx : CMutableTransaction}
    (hcb : tx.isCoinBase = false) (h : inputs.haveInputs tx = true) :
    ∀ txin ∈ tx.vin, (inputs.accessCoin txin.prevout).isSpent = false := by
  intro txin htxin
  simp only [CCoinsViewCache.haveInputs, hcb, Bool.not_false, ↓reduceIte] at h
  exact isSpent_accessCoin_of_haveCoin (List.all_eq_true.mp h txin htxin)

theorem moneyRange_accessCoin {inputs : CCoinsViewCache} {outpoint : COutPoint}
    (hview : UnspentInMoneyRange inputs) (hs : (inputs.accessCoin outpoint).isSpent = false) :
    moneyRange (inputs.accessCoin outpoint).out.nValue = true := by
  unfold CCoinsViewCache.accessCoin at hs ⊢
  cases hf : inputs.fetchCoin outpoint with
  | none =>
    rw [hf] at hs
    exact absurd hs (by decide)
  | some coin =>
    rw [hf] at hs
    exact hview outpoint coin hf hs

/-- From a spend height that is not negative, the depth of a coin does not overflow. -/
theorem checkMaturity_returnsOrRejects {nSpendHeight : Int32} (hh : 0 ≤ nSpendHeight.toInt)
    (coin : Coin) : ReturnsOrRejects (checkMaturity nSpendHeight coin) := by
  unfold checkMaturity
  cases coin.fCoinBase with
  | false => exact returnsOrRejects_ok ()
  | true =>
    have hlt := coin.nHeight.isLt
    have hheight := toInt_height coin
    have hspend := Int32.toInt_lt nSpendHeight
    obtain ⟨depth, hsub, -⟩ :=
      Int32.exists_subChecked_eq_some (a := nSpendHeight) (b := coin.height) (by omega) (by omega)
    rw [if_pos rfl, hsub, defined_some, Except.ok_bind]
    split_ifs
    · exact returnsOrRejects_invalid _ _
    · exact returnsOrRejects_ok ()

theorem checkTxInputsLoop_returnsOrRejects {inputs : CCoinsViewCache} {nSpendHeight : Int32}
    (hview : UnspentInMoneyRange inputs) (hh : 0 ≤ nSpendHeight.toInt) (vin : List CTxIn)
    (hunspent : ∀ txin ∈ vin, (inputs.accessCoin txin.prevout).isSpent = false) {acc : Int64}
    (hacc : moneyRange acc = true) :
    ReturnsOrRejects (checkTxInputsLoop inputs nSpendHeight vin acc) := by
  induction vin generalizing acc with
  | nil => exact returnsOrRejects_ok _
  | cons txin vin ih =>
    have hs := hunspent txin List.mem_cons_self
    have hval := moneyRange_accessCoin hview hs
    rw [checkTxInputsLoop, if_neg (by simp [hs])]
    refine (checkMaturity_returnsOrRejects hh _).bind fun _ _ => ?_
    -- the coin is in range by the view, so the addition stays below `2 * MAX_MONEY`
    obtain ⟨acc', hadd, -⟩ := exists_addChecked_of_moneyRange hacc hval
    rw [hadd, defined_some, Except.ok_bind]
    by_cases h3 : moneyRange acc' = true
    · rw [if_neg (by simp [hval, h3])]
      exact ih (fun t ht => hunspent t (List.mem_cons_of_mem _ ht)) h3
    · rw [if_pos (by simp [h3])]
      exact returnsOrRejects_invalid _ _

/-- `CheckTxInputs`, on a transaction that is not a coinbase and that `CheckTransaction`
accepts, at a spend height that is not negative and in a view whose unspent coins hold amounts
in `[0, MAX_MONEY]`, never throws, fails no `assert` and never overflows. -/
theorem checkTxInputs_returnsOrRejects {tx : CMutableTransaction} {fCheckDuplicateInputs : Bool}
    {inputs : CCoinsViewCache} {nSpendHeight : Int32}
    (htx : checkTransaction tx fCheckDuplicateInputs = .ok ()) (hcb : tx.isCoinBase = false)
    (hview : UnspentInMoneyRange inputs) (hh : 0 ≤ nSpendHeight.toInt) :
    ReturnsOrRejects (checkTxInputs tx inputs nSpendHeight) := by
  unfold checkTxInputs
  split_ifs with hin
  · exact returnsOrRejects_invalid _ _
  have hunspent := isSpent_accessCoin_of_haveInputs hcb (by simpa using hin)
  refine (checkTxInputsLoop_returnsOrRejects hview hh tx.vin hunspent moneyRange_zero).bind
    fun nValueIn hloop => ?_
  obtain ⟨value_out, hout, hvalue, hsums⟩ := getValueOut_of_checkTransaction htx
  have hinr : 0 ≤ nValueIn.toInt ∧ nValueIn.toInt ≤ MAX_MONEY := by
    obtain ⟨hr, hs, -⟩ := checkTxInputsLoop_ok moneyRange_zero hloop
    rw [hr]
    simpa [inputValueSum] using hs.sum
  have houtr : 0 ≤ value_out.toInt ∧ value_out.toInt ≤ MAX_MONEY := by
    rw [hvalue]
    simpa [valueSum] using hsums.sum
  have hmax := MAX_MONEY_eq
  obtain ⟨txfee, hsub, -⟩ :=
    Int64.exists_subChecked_eq_some (a := nValueIn) (b := value_out) (by omega) (by omega)
  rw [hout, Except.ok_bind]
  split_ifs
  · exact returnsOrRejects_invalid _ _
  rw [hsub, defined_some, Except.ok_bind]
  split_ifs
  · exact returnsOrRejects_invalid _ _
  · exact returnsOrRejects_ok _

/-! ## The amounts of an accepted transaction -/

theorem checkTransaction_checkTxInputs_amounts :
    (∀ (tx : CMutableTransaction) (fCheckDuplicateInputs : Bool),
      checkTransaction tx fCheckDuplicateInputs ≠ .error .signedOverflow ∧
      (checkTransaction tx fCheckDuplicateInputs = .ok () →
        (∀ k ≤ tx.vout.length,
          0 ≤ valueSum (tx.vout.take k) ∧ valueSum (tx.vout.take k) ≤ MAX_MONEY) ∧
        ∃ value_out, getValueOut tx = .ok value_out ∧ value_out.toInt = valueSum tx.vout)) ∧
    (∀ (tx : CMutableTransaction) (inputs : CCoinsViewCache) (nSpendHeight : Int32)
      (txfee : Int64), checkTxInputs tx inputs nSpendHeight = .ok txfee →
        txfee.toInt = inputValueSum inputs tx.vin - valueSum tx.vout ∧
        0 ≤ txfee.toInt ∧ txfee.toInt ≤ MAX_MONEY ∧
        (∀ k ≤ tx.vin.length, 0 ≤ inputValueSum inputs (tx.vin.take k) ∧
          inputValueSum inputs (tx.vin.take k) ≤ MAX_MONEY) ∧
        ∀ txin ∈ tx.vin, (inputs.accessCoin txin.prevout).fCoinBase = true →
          (if (inputs.accessCoin txin.prevout).nHeight.toNat < 850000 then COINBASE_MATURITY.toInt
            else COINBASE_MATURITY_850k.toInt) ≤
            nSpendHeight.toInt - (inputs.accessCoin txin.prevout).nHeight.toNat) := by
  refine ⟨fun tx f => ⟨(checkTransaction_returnsOrRejects tx f).ne_signedOverflow, fun h => ?_⟩,
    fun tx inputs nSpendHeight txfee h => ?_⟩
  · obtain ⟨value_out, hv, hvalue, hsums⟩ := getValueOut_of_checkTransaction h
    exact ⟨(partialSumsInRange_valueSum tx.vout).mp hsums, value_out, hv, hvalue⟩
  · obtain ⟨nValueIn, value_out, hloop, hout, hsub, hfee⟩ := checkTxInputs_eq_ok h
    obtain ⟨hin, hsums, hmats⟩ := checkTxInputsLoop_ok moneyRange_zero hloop
    have htxfee : txfee.toInt = inputValueSum inputs tx.vin - valueSum tx.vout := by
      rw [(Int64.subChecked_eq_some_iff.mp hsub).2, hin, getValueOutLoop_ok hout]
      simp
    obtain ⟨hfee0, hfee1⟩ := (moneyRange_iff txfee).mp hfee
    exact ⟨htxfee, hfee0, hfee1, (partialSumsInRange_inputValueSum inputs tx.vin).mp hsums,
      fun txin htxin hcb => mature_of_checkMaturity (hmats txin htxin) hcb⟩

/-- A transaction that spends a coin of 10 into an output of 8 passes both checks: its value
out is 8 and its fee is 2. -/
theorem checkTransaction_checkTxInputs_amounts_fee_two :
    let o : COutPoint := ⟨Vector.replicate 32 1, 0⟩
    let tx : CMutableTransaction := ⟨[⟨o, [], 0xffffffff, ⟨[]⟩⟩], [⟨8, []⟩], 2, 0⟩
    let view : CCoinsViewCache := ⟨fun _ => some ⟨⟨10, []⟩, false, 5⟩⟩
    checkTransaction tx true = .ok () ∧ checkTxInputs tx view 100 = .ok 2 ∧
      (∃ value_out, getValueOut tx = .ok value_out ∧ value_out.toInt = valueSum tx.vout) ∧
      (2 : Int64).toInt = inputValueSum view tx.vin - valueSum tx.vout := by
  intro o tx view
  have hcheck : checkTransaction tx true = .ok () := by decide
  have hfee : checkTxInputs tx view 100 = .ok 2 := by decide
  have hamounts := checkTransaction_checkTxInputs_amounts
  exact ⟨hcheck, hfee, ((hamounts.1 tx true).2 hcheck).2, (hamounts.2 tx view 100 2 hfee).1⟩

end Veles
