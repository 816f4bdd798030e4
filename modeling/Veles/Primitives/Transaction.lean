import Veles.Serialize.Vector
import Veles.Serialize.Compressor

/-!
# Transactions on the wire

`SerializeTransaction` (primitives/transaction.h) writes `nVersion`, `vin`, `vout` and
`nLockTime`.  When the stream allows witnesses and an input has one, it writes the extended
format instead: an empty `vin` as a marker and a flags byte `1` after `nVersion`, and the
witness stacks of the inputs before `nLockTime`.  `UnserializeTransaction` reads `vin`; an
empty one on a stream that allows witnesses is the marker, and the next byte is the flags
(or, for a transaction with no inputs, the size of an empty `vout`).  A witness record
whose stacks are all empty, and any flag but bit 0, are errors.

The stream's version is `s.GetVersion()`; `CTxOut.nRounds` is not serialized and is left
out of `CTxOut`.  Every length is read with `ReadCompactSize`, which rejects one above
`MAX_SIZE` (`WithinMaxSize`).

    tx.vin ≠ [] → WithinMaxSize tx →
      unserializeTransaction v (serializeTransaction v tx ++ rest)
        = .ok (if fAllowWitness v then tx else tx.withoutWitness, rest)
    tx.hasWitness = false → serializeTransaction v₁ tx = serializeTransaction v₂ tx
-/

namespace Veles

/-- `SERIALIZE_TRANSACTION_NO_WITNESS`. -/
def SERIALIZE_TRANSACTION_NO_WITNESS : Int32 := 0x40000000

/-- `COutPoint`: a transaction hash and an index into its `vout`. -/
structure COutPoint where
  hash : Vector UInt8 32
  n : UInt32
  deriving DecidableEq, Repr

/-- `CScriptWitness`: the data elements pushed. -/
structure CScriptWitness where
  stack : List (List UInt8)
  deriving DecidableEq, Repr

/-- `CTxIn`; `scriptWitness` is only serialized through the transaction. -/
structure CTxIn where
  prevout : COutPoint
  scriptSig : List UInt8
  nSequence : UInt32
  scriptWitness : CScriptWitness
  deriving DecidableEq, Repr

/-- `CMutableTransaction`. -/
structure CMutableTransaction where
  vin : List CTxIn
  vout : List CTxOut
  nVersion : Int32
  nLockTime : UInt32
  deriving DecidableEq, Repr

/-- `CScriptWitness::IsNull()`. -/
def CScriptWitness.isNull (w : CScriptWitness) : Bool := w.stack.isEmpty

/-- The loop of `HasWitness()`: some input has a witness. -/
def anyWitness (vin : List CTxIn) : Bool := vin.any fun txin => !txin.scriptWitness.isNull

/-- `CMutableTransaction::HasWitness()`. -/
def CMutableTransaction.hasWitness (tx : CMutableTransaction) : Bool := anyWitness tx.vin

/-! ## The fields -/

/-- `uint256::Serialize`: the 32 bytes. -/
def serializeUint256 (hash : Vector UInt8 32) : List UInt8 := hash.toList

/-- `uint256::Unserialize`: `s.read(data, sizeof(data))`. -/
def unserializeUint256 (s : List UInt8) : Except String (Vector UInt8 32 × List UInt8) :=
  if h : 32 ≤ s.length then .ok (⟨(s.take 32).toArray, by simp [h]⟩, s.drop 32)
  else .error "CDataStream::read(): end of data"

/-- `COutPoint::SerializationOp` writing. -/
def serializeOutPoint (prevout : COutPoint) : List UInt8 :=
  serializeUint256 prevout.hash ++ serWritedata32 prevout.n

/-- `COutPoint::SerializationOp` reading. -/
def unserializeOutPoint (s : List UInt8) : Except String (COutPoint × List UInt8) := do
  let (hash, s) ← unserializeUint256 s
  let (n, s) ← serReaddata32 s
  pure (⟨hash, n⟩, s)

/-- `CTxIn::SerializationOp` writing: the witness is not part of it. -/
def serializeCTxIn (txin : CTxIn) : List UInt8 :=
  serializeOutPoint txin.prevout ++ serializeBytes txin.scriptSig ++ serWritedata32 txin.nSequence

/-- `CTxIn::SerializationOp` reading into a new `CTxIn`, whose witness is empty. -/
def unserializeCTxIn (s : List UInt8) : Except String (CTxIn × List UInt8) := do
  let (prevout, s) ← unserializeOutPoint s
  let (scriptSig, s) ← unserializeBytes s
  let (nSequence, s) ← serReaddata32 s
  pure ({ prevout, scriptSig, nSequence, scriptWitness := ⟨[]⟩ }, s)

/-- `CTxOut::SerializationOp` writing. -/
def serializeCTxOut (txout : CTxOut) : List UInt8 :=
  serWritedata64 txout.nValue.toUInt64 ++ serializeBytes txout.scriptPubKey

/-- `CTxOut::SerializationOp` reading. -/
def unserializeCTxOut (s : List UInt8) : Except String (CTxOut × List UInt8) := do
  let (nValue, s) ← serReaddata64 s
  let (scriptPubKey, s) ← unserializeBytes s
  pure (⟨nValue.toInt64, scriptPubKey⟩, s)

/-- `s << tx.vin[i].scriptWitness.stack`. -/
def serializeWitness (txin : CTxIn) : List UInt8 :=
  serializeVector serializeBytes txin.scriptWitness.stack

/-- `for (i = 0; i < tx.vin.size(); i++) s >> tx.vin[i].scriptWitness.stack;`. -/
def unserializeWitnesses : List CTxIn → List UInt8 → Except String (List CTxIn × List UInt8)
  | [], s => pure ([], s)
  | txin :: vin, s => do
    let (stack, s) ← unserializeVector unserializeBytes s
    let (vin, s) ← unserializeWitnesses vin s
    pure ({ txin with scriptWitness := ⟨stack⟩ } :: vin, s)

/-! ## The transaction -/

/-- `!(s.GetVersion() & SERIALIZE_TRANSACTION_NO_WITNESS)`. -/
def fAllowWitness (version : Int32) : Bool := (version &&& SERIALIZE_TRANSACTION_NO_WITNESS) == 0

/-- `SerializeTransaction(tx, s)` on a stream of version `version`. -/
def serializeTransaction (version : Int32) (tx : CMutableTransaction) : List UInt8 :=
  let flags : UInt8 := if fAllowWitness version ∧ tx.hasWitness then 0 ||| 1 else 0
  serWritedata32 tx.nVersion.toUInt32 ++
    -- Use extended format in case witnesses are to be serialized.
    (if flags ≠ 0 then serializeVector serializeCTxIn [] ++ serWritedata8 flags else []) ++
    serializeVector serializeCTxIn tx.vin ++ serializeVector serializeCTxOut tx.vout ++
    (if flags &&& 1 ≠ 0 then tx.vin.flatMap serializeWitness else []) ++
    serWritedata32 tx.nLockTime

/-- `UnserializeTransaction(tx, s)` on a stream of version `version`: the transaction read,
whose every field is overwritten. -/
def unserializeTransaction (version : Int32) (s : List UInt8) :
    Except String (CMutableTransaction × List UInt8) := do
  let (nVersion, s) ← serReaddata32 s
  -- Try to read the vin. In case the dummy is there, this will be read as an empty vector.
  let (vin, s) ← unserializeVector unserializeCTxIn s
  let (flags, vin, vout, s) ← if vin.length = 0 ∧ fAllowWitness version then do
      -- We read a dummy or an empty vin.
      let (flags, s) ← serReaddata8 s
      if flags ≠ 0 then do
        let (vin, s) ← unserializeVector unserializeCTxIn s
        let (vout, s) ← unserializeVector unserializeCTxOut s
        pure (flags, vin, vout, s)
      else pure (flags, vin, [], s)
    else do
      -- We read a non-empty vin. Assume a normal vout follows.
      let (vout, s) ← unserializeVector unserializeCTxOut s
      pure ((0 : UInt8), vin, vout, s)
  let (flags, vin, s) ← if flags &&& 1 ≠ 0 ∧ fAllowWitness version then do
      -- The witness flag is present, and we support witnesses.
      let flags := flags ^^^ 1
      let (vin, s) ← unserializeWitnesses vin s
      if !anyWitness vin then throw "Superfluous witness record"
      pure (flags, vin, s)
    else pure (flags, vin, s)
  if flags ≠ 0 then throw "Unknown transaction optional data"
  let (nLockTime, s) ← serReaddata32 s
  pure ({ vin, vout, nVersion := nVersion.toInt32, nLockTime }, s)

/-- `tx` with every witness stack empty. -/
def CTxIn.withoutWitness (txin : CTxIn) : CTxIn := { txin with scriptWitness := ⟨[]⟩ }

/-- `tx` with every witness stack empty: what a stream without witnesses carries. -/
def CMutableTransaction.withoutWitness (tx : CMutableTransaction) : CMutableTransaction :=
  { tx with vin := tx.vin.map CTxIn.withoutWitness }

/-- Every length in `tx` that `ReadCompactSize` reads is at most `MAX_SIZE`. -/
structure WithinMaxSize (tx : CMutableTransaction) : Prop where
  vin_le : tx.vin.length ≤ MAX_SIZE.toNat
  vout_le : tx.vout.length ≤ MAX_SIZE.toNat
  scriptSig_le : ∀ txin ∈ tx.vin, txin.scriptSig.length ≤ MAX_SIZE.toNat
  stack_le : ∀ txin ∈ tx.vin, txin.scriptWitness.stack.length ≤ MAX_SIZE.toNat
  item_le : ∀ txin ∈ tx.vin, ∀ item ∈ txin.scriptWitness.stack, item.length ≤ MAX_SIZE.toNat
  scriptPubKey_le : ∀ txout ∈ tx.vout, txout.scriptPubKey.length ≤ MAX_SIZE.toNat

/-! ## Reading the fields back -/

theorem unserializeUint256_serializeUint256 (hash : Vector UInt8 32) (rest : List UInt8) :
    unserializeUint256 (serializeUint256 hash ++ rest) = .ok (hash, rest) := by
  have hlen : (serializeUint256 hash).length = 32 := by simp [serializeUint256]
  rw [unserializeUint256, dif_pos (by simp [hlen])]
  congr 2
  · apply Vector.toList_inj.mp
    simp [serializeUint256]
  · exact List.drop_left' hlen

theorem unserializeOutPoint_serializeOutPoint (prevout : COutPoint) (rest : List UInt8) :
    unserializeOutPoint (serializeOutPoint prevout ++ rest) = .ok (prevout, rest) := by
  rw [unserializeOutPoint, serializeOutPoint, List.append_assoc,
    unserializeUint256_serializeUint256, Except.ok_bind]
  dsimp only
  rw [(serReaddata32_eq_ok).mpr rfl, Except.ok_bind]
  rfl

/-- A `CTxIn` is read back without its witness. -/
theorem unserializeCTxIn_serializeCTxIn (txin : CTxIn) (rest : List UInt8)
    (h : txin.scriptSig.length ≤ MAX_SIZE.toNat) :
    unserializeCTxIn (serializeCTxIn txin ++ rest) = .ok (txin.withoutWitness, rest) := by
  rw [unserializeCTxIn, serializeCTxIn, List.append_assoc, List.append_assoc,
    unserializeOutPoint_serializeOutPoint, Except.ok_bind]
  dsimp only
  rw [unserializeBytes_serializeBytes _ _ h, Except.ok_bind]
  dsimp only
  rw [(serReaddata32_eq_ok).mpr rfl, Except.ok_bind]
  rfl

theorem unserializeCTxOut_serializeCTxOut (txout : CTxOut) (rest : List UInt8)
    (h : txout.scriptPubKey.length ≤ MAX_SIZE.toNat) :
    unserializeCTxOut (serializeCTxOut txout ++ rest) = .ok (txout, rest) := by
  rw [unserializeCTxOut, serializeCTxOut, List.append_assoc, (serReaddata64_eq_ok).mpr rfl,
    Except.ok_bind]
  dsimp only
  rw [unserializeBytes_serializeBytes _ _ h, Except.ok_bind]
  simp

/-- The witness stacks written after `vout` are read into the inputs read without them. -/
theorem unserializeWitnesses_flatMap : ∀ (vin : List CTxIn) (rest : List UInt8),
    (∀ txin ∈ vin, txin.scriptWitness.stack.length ≤ MAX_SIZE.toNat ∧
      ∀ item ∈ txin.scriptWitness.stack, item.length ≤ MAX_SIZE.toNat) →
    unserializeWitnesses (vin.map CTxIn.withoutWitness) (vin.flatMap serializeWitness ++ rest) =
      .ok (vin, rest)
  | [], _, _ => rfl
  | txin :: vin, rest, h => by
    obtain ⟨hstack, hitem⟩ := h txin List.mem_cons_self
    rw [List.map_cons, List.flatMap_cons, List.append_assoc, unserializeWitnesses, serializeWitness,
      unserializeVector_serializeVector (f := id) _
        (fun item hi rest => unserializeBytes_serializeBytes item rest (hitem item hi)) _ hstack,
      Except.ok_bind]
    dsimp only
    rw [unserializeWitnesses_flatMap vin rest (fun t ht => h t (List.mem_cons_of_mem _ ht)),
      Except.ok_bind, List.map_id]
    rfl

theorem withoutWitness_of_not_anyWitness : ∀ {vin : List CTxIn}, anyWitness vin = false →
    vin.map CTxIn.withoutWitness = vin
  | [], _ => rfl
  | txin :: vin, h => by
    simp only [anyWitness, List.any_cons, Bool.or_eq_false_iff, Bool.not_eq_false'] at h
    obtain ⟨h1, h2⟩ := h
    rw [List.map_cons, withoutWitness_of_not_anyWitness h2]
    congr 1
    obtain ⟨prevout, scriptSig, nSequence, ⟨stack⟩⟩ := txin
    simp only [CScriptWitness.isNull, List.isEmpty_iff] at h1
    subst h1
    rfl

/-! ## The two formats -/

/-- Without witnesses to write, the basic format. -/
theorem serializeTransaction_eq_basic {version : Int32} {tx : CMutableTransaction}
    (h : ¬ (fAllowWitness version = true ∧ tx.hasWitness = true)) :
    serializeTransaction version tx =
      serWritedata32 tx.nVersion.toUInt32 ++ (serializeVector serializeCTxIn tx.vin ++
        (serializeVector serializeCTxOut tx.vout ++ serWritedata32 tx.nLockTime)) := by
  rw [serializeTransaction, if_neg h, if_neg (by decide), if_neg (by decide)]
  simp

/-- With witnesses to write, the extended format: the dummy `vin`, the flags, and the
stacks before `nLockTime`. -/
theorem serializeTransaction_eq_extended {version : Int32} {tx : CMutableTransaction}
    (h : fAllowWitness version = true ∧ tx.hasWitness = true) :
    serializeTransaction version tx =
      serWritedata32 tx.nVersion.toUInt32 ++ (serializeVector serializeCTxIn [] ++ (1 ::
        (serializeVector serializeCTxIn tx.vin ++ (serializeVector serializeCTxOut tx.vout ++
          (tx.vin.flatMap serializeWitness ++ serWritedata32 tx.nLockTime))))) := by
  rw [serializeTransaction, if_pos h, if_pos (by decide), if_pos (by decide), serWritedata8_eq]
  simp

theorem unserializeVector_CTxIn (tx : CMutableTransaction) (hsize : WithinMaxSize tx)
    (rest : List UInt8) :
    unserializeVector unserializeCTxIn (serializeVector serializeCTxIn tx.vin ++ rest) =
      .ok (tx.vin.map CTxIn.withoutWitness, rest) :=
  unserializeVector_serializeVector _
    (fun txin hin rest => unserializeCTxIn_serializeCTxIn txin rest (hsize.scriptSig_le txin hin))
    rest hsize.vin_le

theorem unserializeVector_CTxOut (tx : CMutableTransaction) (hsize : WithinMaxSize tx)
    (rest : List UInt8) :
    unserializeVector unserializeCTxOut (serializeVector serializeCTxOut tx.vout ++ rest) =
      .ok (tx.vout, rest) := by
  rw [unserializeVector_serializeVector (f := id) _
    (fun txout hin rest => unserializeCTxOut_serializeCTxOut txout rest
      (hsize.scriptPubKey_le txout hin)) rest hsize.vout_le, List.map_id]

/-- The basic format is read back without witnesses: a non-empty `vin` is no marker. -/
theorem unserializeTransaction_basic (version : Int32) (tx : CMutableTransaction)
    (rest : List UInt8) (hvin : tx.vin ≠ []) (hsize : WithinMaxSize tx) :
    unserializeTransaction version (serWritedata32 tx.nVersion.toUInt32 ++
      (serializeVector serializeCTxIn tx.vin ++ (serializeVector serializeCTxOut tx.vout ++
        (serWritedata32 tx.nLockTime ++ rest)))) = .ok (tx.withoutWitness, rest) := by
  rw [unserializeTransaction, (serReaddata32_eq_ok).mpr rfl, Except.ok_bind]
  dsimp only
  rw [unserializeVector_CTxIn tx hsize, Except.ok_bind]
  dsimp only
  rw [if_neg (fun h => hvin (by simpa using h.1)), unserializeVector_CTxOut tx hsize,
    Except.ok_bind]
  dsimp only
  rw [Except.pure_eq_ok, Except.ok_bind]
  dsimp only
  rw [if_neg (fun h => absurd h.1 (by decide)), Except.pure_eq_ok, Except.ok_bind]
  dsimp only
  rw [if_neg (by decide), (serReaddata32_eq_ok).mpr rfl, Except.ok_bind]
  simp [CMutableTransaction.withoutWitness, Int32.toInt32_toUInt32]

/-- The extended format is read back with its witnesses. -/
theorem unserializeTransaction_extended (version : Int32) (tx : CMutableTransaction)
    (rest : List UInt8) (hsize : WithinMaxSize tx)
    (h : fAllowWitness version = true ∧ tx.hasWitness = true) :
    unserializeTransaction version (serWritedata32 tx.nVersion.toUInt32 ++
      (serializeVector serializeCTxIn [] ++ (1 ::
        (serializeVector serializeCTxIn tx.vin ++ (serializeVector serializeCTxOut tx.vout ++
          (tx.vin.flatMap serializeWitness ++ (serWritedata32 tx.nLockTime ++ rest))))))) =
      .ok (tx, rest) := by
  have hempty : ∀ rest : List UInt8,
      unserializeVector unserializeCTxIn (serializeVector serializeCTxIn [] ++ rest) =
        .ok ([], rest) :=
    fun rest => unserializeVector_serializeVector (f := id) [] (by simp) rest (by simp)
  rw [unserializeTransaction, (serReaddata32_eq_ok).mpr rfl, Except.ok_bind]
  dsimp only
  rw [hempty, Except.ok_bind]
  dsimp only
  rw [if_pos (by simpa using h.1), serReaddata8_cons, Except.ok_bind]
  dsimp only
  rw [if_pos (by decide), unserializeVector_CTxIn tx hsize, Except.ok_bind]
  dsimp only
  rw [unserializeVector_CTxOut tx hsize, Except.ok_bind]
  dsimp only
  rw [Except.pure_eq_ok, Except.ok_bind]
  dsimp only
  rw [if_pos ⟨by decide, h.1⟩, unserializeWitnesses_flatMap tx.vin _
    (fun txin hin => ⟨hsize.stack_le txin hin, hsize.item_le txin hin⟩), Except.ok_bind]
  dsimp only
  rw [if_neg (by simpa [CMutableTransaction.hasWitness] using h.2), Except.pure_eq_ok,
    Except.ok_bind]
  dsimp only
  rw [if_neg (by decide), (serReaddata32_eq_ok).mpr rfl, Except.ok_bind]
  simp [Int32.toInt32_toUInt32]

/-- The round trip: the bytes written are read back, to the witnesses a stream that allows
them carries. -/
theorem unserializeTransaction_serializeTransaction (version : Int32) (tx : CMutableTransaction)
    (rest : List UInt8) (hvin : tx.vin ≠ []) (hsize : WithinMaxSize tx) :
    unserializeTransaction version (serializeTransaction version tx ++ rest) =
      .ok (if fAllowWitness version then tx else tx.withoutWitness, rest) := by
  by_cases hw : fAllowWitness version = true ∧ tx.hasWitness = true
  case pos =>
    rw [serializeTransaction_eq_extended hw]
    simp only [List.append_assoc, List.cons_append]
    rw [unserializeTransaction_extended version tx rest hsize hw, if_pos hw.1]
  case neg =>
    rw [serializeTransaction_eq_basic hw]
    simp only [List.append_assoc]
    rw [unserializeTransaction_basic version tx rest hvin hsize]
    by_cases hallow : fAllowWitness version = true
    · -- A stream that allows witnesses wrote none: the transaction has none.
      have hnone : tx.hasWitness = false := by simpa [hallow] using hw
      rw [if_pos hallow, CMutableTransaction.withoutWitness,
        withoutWitness_of_not_anyWitness hnone]
    · rw [if_neg hallow]

/-- A transaction with no witness is written the same way on every stream. -/
theorem serializeTransaction_of_not_hasWitness (tx : CMutableTransaction)
    (h : tx.hasWitness = false) (version₁ version₂ : Int32) :
    serializeTransaction version₁ tx = serializeTransaction version₂ tx := by
  have hnot : ∀ version : Int32, ¬ (fAllowWitness version = true ∧ tx.hasWitness = true) := by
    simp [h]
  rw [serializeTransaction_eq_basic (hnot version₁), serializeTransaction_eq_basic (hnot version₂)]

/-- The round trip, on every stream and for every transaction with inputs whose lengths
`ReadCompactSize` accepts; and without a witness, the same bytes on every stream. -/
theorem transaction_roundtrip :
    (∀ (version : Int32) (tx : CMutableTransaction) (rest : List UInt8),
      tx.vin ≠ [] → WithinMaxSize tx →
      unserializeTransaction version (serializeTransaction version tx ++ rest) =
        .ok (if fAllowWitness version then tx else tx.withoutWitness, rest)) ∧
    (∀ tx : CMutableTransaction, tx.hasWitness = false →
      ∀ version₁ version₂ : Int32,
        serializeTransaction version₁ tx = serializeTransaction version₂ tx) :=
  ⟨unserializeTransaction_serializeTransaction, serializeTransaction_of_not_hasWitness⟩

theorem transaction_roundtrip_witness :
    let tx : CMutableTransaction :=
      { vin := [⟨⟨Vector.replicate 32 0, 0⟩, [0x51], 0xffffffff, ⟨[[1, 2]]⟩⟩],
        vout := [⟨100000000, [0x51]⟩], nVersion := 2, nLockTime := 0 }
    tx.vin ≠ [] ∧ WithinMaxSize tx ∧
      unserializeTransaction 0 (serializeTransaction 0 tx ++ []) = .ok (tx, []) := by
  intro tx
  have hmax : MAX_SIZE.toNat = 33554432 := rfl
  have hsize : WithinMaxSize tx :=
    ⟨by simp [tx, hmax], by simp [tx, hmax], by simp [tx, hmax], by simp [tx, hmax],
      by simp [tx, hmax], by simp [tx, hmax]⟩
  refine ⟨by simp [tx], hsize, ?_⟩
  rw [transaction_roundtrip.1 0 tx [] (by simp [tx]) hsize, if_pos (by decide)]

/-- An input whose `scriptSig` is longer than `MAX_SIZE` is written, and reading it fails. -/
theorem unserializeCTxIn_serializeCTxIn_of_lt (txin : CTxIn) (rest : List UInt8)
    (h : MAX_SIZE.toNat < txin.scriptSig.length) (h64 : txin.scriptSig.length < 2 ^ 64) :
    unserializeCTxIn (serializeCTxIn txin ++ rest) = .error "ReadCompactSize(): size too large" := by
  rw [unserializeCTxIn, serializeCTxIn, List.append_assoc, List.append_assoc,
    unserializeOutPoint_serializeOutPoint, Except.ok_bind]
  dsimp only
  rw [unserializeBytes_serializeBytes_of_lt _ _ h h64]
  rfl

/-- So a transaction whose first input has such a `scriptSig` is written and not read back. -/
theorem unserializeTransaction_of_lt (version : Int32) (tx : CMutableTransaction) (txin : CTxIn)
    (vin : List CTxIn) (rest : List UInt8) (hvin : tx.vin = txin :: vin)
    (hw : tx.hasWitness = false) (hlen : tx.vin.length ≤ MAX_SIZE.toNat)
    (h : MAX_SIZE.toNat < txin.scriptSig.length) (h64 : txin.scriptSig.length < 2 ^ 64) :
    unserializeTransaction version (serializeTransaction version tx ++ rest) =
      .error "ReadCompactSize(): size too large" := by
  rw [serializeTransaction_eq_basic (by simp [hw]), unserializeTransaction, List.append_assoc,
    (serReaddata32_eq_ok).mpr rfl, Except.ok_bind]
  dsimp only
  rw [unserializeVector, serializeVector, List.append_assoc, List.append_assoc,
    readCompactSize_writeCompactSize, if_neg (not_lt_max_size hlen), Except.ok_bind]
  dsimp only
  rw [toNat_toUInt64_length hlen, hvin, List.length_cons, readElements, List.flatMap_cons,
    List.append_assoc, unserializeCTxIn_serializeCTxIn_of_lt txin _ h h64]
  rfl

theorem transaction_oversized_scriptSig :
    let tx : CMutableTransaction :=
      { vin := [⟨⟨Vector.replicate 32 0, 0⟩, List.replicate (MAX_SIZE.toNat + 1) 0, 0xffffffff,
          ⟨[]⟩⟩],
        vout := [], nVersion := 2, nLockTime := 0 }
    unserializeTransaction 0 (serializeTransaction 0 tx ++ []) =
      .error "ReadCompactSize(): size too large" := by
  intro tx
  have hmax : MAX_SIZE.toNat = 33554432 := rfl
  have hw : tx.hasWitness = false := rfl
  have hlen : tx.vin.length ≤ MAX_SIZE.toNat := by
    rw [List.length_singleton, hmax]
    decide
  have hscript : (List.replicate (MAX_SIZE.toNat + 1) (0 : UInt8)).length = 33554433 := by
    rw [List.length_replicate, hmax]
  exact unserializeTransaction_of_lt 0 tx _ [] [] rfl hw hlen (by rw [hscript, hmax]; decide)
    (by rw [hscript]; decide)

example : fAllowWitness 0 = true ∧ fAllowWitness SERIALIZE_TRANSACTION_NO_WITNESS = false := by
  decide

end Veles
