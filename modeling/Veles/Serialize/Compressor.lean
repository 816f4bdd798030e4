import Veles.Serialize.VarInt
import Veles.Reward.Halving
import Veles.Lib.ListGetD

/-!
# The compressed `CTxOut` of the UTXO database

`CTxOutCompressor` (compressor.h) writes an output's amount as `VARINT(CompressAmount(nValue))`
and its script through `CScriptCompressor`: the six special forms of `CompressScript`, a tag
byte below 6 and 20 or 32 bytes, or else `VARINT(size + 6)` and the script.
`CompressAmount` strips up to nine decimal zeros into an exponent `e` and, below nine, packs
the last digit left with a mixed 9/10 radix; `DecompressAmount` undoes it.

secp256k1 is outside the model: `IsFullyValid` and `CPubKey::Decompress` are parameters
(`isFullyValid`, `decompress`), and `DecompressRestores` is the property of the curve that
the round trip of a 65-byte key needs.

    decompressAmount (compressAmount n) = n                   (n ≤ MAX_MONEY)
    compressAmount (decompressAmount x) = x                   (no overflow)
    compressScript script = some out → decompressScript out[0] out[1..] = some script
    unserializeTxOut (serializeTxOut txout ++ rest) = .ok (txout, rest)
-/

namespace Veles

open ListGetD

/-- `MAX_MONEY`. -/
def MAX_MONEY : Int := 21000000 * COIN

/-- `MAX_SCRIPT_SIZE`. -/
def MAX_SCRIPT_SIZE : Nat := 10000

def OP_RETURN : UInt8 := 0x6a
def OP_DUP : UInt8 := 0x76
def OP_EQUAL : UInt8 := 0x87
def OP_EQUALVERIFY : UInt8 := 0x88
def OP_HASH160 : UInt8 := 0xa9
def OP_CHECKSIG : UInt8 := 0xac

/-- `CTxOut`: the amount, a `CAmount`, and the script. -/
structure CTxOut where
  nValue : Int64
  scriptPubKey : List UInt8
  deriving DecidableEq, Repr

/-! ## Amounts -/

/-- `while (((n % 10) == 0) && e < 9) { n /= 10; e++; }`, with nine passes as fuel. -/
def compressAmountLoop : Nat → UInt64 → Nat → UInt64 × Nat
  | 0, n, e => (n, e)
  | fuel + 1, n, e =>
    if n % 10 = 0 ∧ e < 9 then compressAmountLoop fuel (n / 10) (e + 1) else (n, e)

/-- `CompressAmount(n)`. -/
def compressAmount (n : UInt64) : UInt64 :=
  if n = 0 then 0
  else
    let r := compressAmountLoop 9 n 0
    let n := r.1
    let e := r.2
    if e < 9 then
      let d := n % 10
      let n := n / 10
      1 + (n * 9 + d - 1) * 10 + UInt64.ofNat e
    else 1 + (n - 1) * 10 + 9

/-- `while (e) { n *= 10; e--; }`. -/
def decompressAmountLoop : Nat → UInt64 → UInt64
  | 0, n => n
  | e + 1, n => decompressAmountLoop e (n * 10)

/-- `DecompressAmount(x)`. -/
def decompressAmount (x : UInt64) : UInt64 :=
  if x = 0 then 0
  else
    let x := x - 1
    let e := (x % 10).toNat
    let x := x / 10
    let n :=
      if e < 9 then
        let d := x % 9 + 1
        let x := x / 9
        x * 10 + d
      else x + 1
    decompressAmountLoop e n

/-! ## Scripts -/

/-- `IsToKeyID(script, hash)`: the hash of a pay-to-pubkey-hash script. -/
def isToKeyID (script : List UInt8) : Option (List UInt8) :=
  if script.length = 25 ∧ script.getD 0 0 = OP_DUP ∧ script.getD 1 0 = OP_HASH160 ∧
      script.getD 2 0 = 20 ∧ script.getD 23 0 = OP_EQUALVERIFY ∧
      script.getD 24 0 = OP_CHECKSIG then
    some ((script.drop 3).take 20)
  else none

/-- `IsToScriptID(script, hash)`: the hash of a pay-to-script-hash script. -/
def isToScriptID (script : List UInt8) : Option (List UInt8) :=
  if script.length = 23 ∧ script.getD 0 0 = OP_HASH160 ∧ script.getD 1 0 = 20 ∧
      script.getD 22 0 = OP_EQUAL then
    some ((script.drop 2).take 20)
  else none

/-- `IsToPubKey(script, pubkey)`: the key of a pay-to-pubkey script, a compressed one or an
uncompressed one that `IsFullyValid` accepts. -/
def isToPubKey (isFullyValid : List UInt8 → Bool) (script : List UInt8) :
    Option (List UInt8) :=
  if script.length = 35 ∧ script.getD 0 0 = 33 ∧ script.getD 34 0 = OP_CHECKSIG ∧
      (script.getD 1 0 = 0x02 ∨ script.getD 1 0 = 0x03) then
    some ((script.drop 1).take 33)
  else if script.length = 67 ∧ script.getD 0 0 = 65 ∧ script.getD 66 0 = OP_CHECKSIG ∧
      script.getD 1 0 = 0x04 then
    let pubkey := (script.drop 1).take 65
    if isFullyValid pubkey then some pubkey else none
  else none

/-- `CompressScript(script, out)`. -/
def compressScript (isFullyValid : List UInt8 → Bool) (script : List UInt8) :
    Option (List UInt8) :=
  match isToKeyID script with
  | some keyID => some (0x00 :: keyID)
  | none =>
    match isToScriptID script with
    | some scriptID => some (0x01 :: scriptID)
    | none =>
      match isToPubKey isFullyValid script with
      | some pubkey =>
        if pubkey.getD 0 0 = 0x02 ∨ pubkey.getD 0 0 = 0x03 then
          some (pubkey.getD 0 0 :: (pubkey.drop 1).take 32)
        else if pubkey.getD 0 0 = 0x04 then
          some ((0x04 ||| (pubkey.getD 64 0 &&& 0x01)) :: (pubkey.drop 1).take 32)
        else none
      | none => none

/-- `GetSpecialScriptSize(nSize)`. -/
def getSpecialScriptSize (nSize : Nat) : Nat :=
  if nSize = 0 ∨ nSize = 1 then 20
  else if nSize = 2 ∨ nSize = 3 ∨ nSize = 4 ∨ nSize = 5 then 32
  else 0

/-- `DecompressScript(script, nSize, in)`: the script it writes, `none` where it returns
`false` and leaves the script alone.  `decompress` is `CPubKey::Decompress` on a 33-byte
key, whose result the code asserts to have 65 bytes. -/
def decompressScript (decompress : List UInt8 → Option (List UInt8)) (nSize : Nat)
    (input : List UInt8) : Option (List UInt8) :=
  if nSize = 0x00 then
    some ([OP_DUP, OP_HASH160, 20] ++ input.take 20 ++ [OP_EQUALVERIFY, OP_CHECKSIG])
  else if nSize = 0x01 then
    some ([OP_HASH160, 20] ++ input.take 20 ++ [OP_EQUAL])
  else if nSize = 0x02 ∨ nSize = 0x03 then
    some ([33, UInt8.ofNat nSize] ++ input.take 32 ++ [OP_CHECKSIG])
  else if nSize = 0x04 ∨ nSize = 0x05 then
    let vch := UInt8.ofNat (nSize - 2) :: input.take 32
    match decompress vch with
    | none => none
    | some pubkey => some ([65] ++ pubkey ++ [OP_CHECKSIG])
  else none

/-- `nSpecialScripts`. -/
def nSpecialScripts : Nat := 6

/-- `CScriptCompressor::Serialize`. -/
def serializeScript (isFullyValid : List UInt8 → Bool) (script : List UInt8) : List UInt8 :=
  match compressScript isFullyValid script with
  | some compr => compr
  | none =>
    -- `unsigned int nSize = script.size() + nSpecialScripts;`
    let nSize := (script.length + nSpecialScripts) % 2 ^ 32
    writeVarInt nSize ++ script

/-- `CScriptCompressor::Unserialize` into the script `script`. -/
def unserializeScript (decompress : List UInt8 → Option (List UInt8)) (script : List UInt8)
    (s : List UInt8) : Except String (List UInt8 × List UInt8) := do
  let (nSize, s) ← readVarInt VarIntType.uint32 s
  if nSize < nSpecialScripts then
    let (vch, s) ← streamRead (getSpecialScriptSize nSize) s
    pure ((decompressScript decompress nSize vch).getD script, s)
  else
    let nSize := nSize - nSpecialScripts
    if nSize > MAX_SCRIPT_SIZE then
      -- Overly long script, replace with a short invalid one
      let s ← streamIgnore (if nSize < 2 ^ 31 then nSize else nSize - 2 ^ 32) s
      pure (script ++ [OP_RETURN], s)
    else streamRead nSize s

/-- `CTxOutCompressor::SerializationOp` writing. -/
def serializeTxOut (isFullyValid : List UInt8 → Bool) (txout : CTxOut) : List UInt8 :=
  let nVal := compressAmount txout.nValue.toUInt64
  writeVarInt nVal.toNat ++ serializeScript isFullyValid txout.scriptPubKey

/-- `CTxOutCompressor::SerializationOp` reading into `txout`. -/
def unserializeTxOut (decompress : List UInt8 → Option (List UInt8)) (txout : CTxOut)
    (s : List UInt8) : Except String (CTxOut × List UInt8) := do
  let (nVal, s) ← readVarInt VarIntType.uint64 s
  let nValue := (decompressAmount (UInt64.ofNat nVal)).toInt64
  let (script, s) ← unserializeScript decompress txout.scriptPubKey s
  pure ({ nValue := nValue, scriptPubKey := script }, s)

/-! ## The amount code

An amount `n ≠ 0` is `m * 10 ^ e` with `e ≤ 9` as large as it can be, so that below nine `m`
is not a multiple of ten; `CompressAmount` writes that pair as `amountCode m e` and
`DecompressAmount` reads any code back as such a pair. -/

/-- The code of `m * 10 ^ e` in unbounded arithmetic. -/
def amountCode (m e : Nat) : Nat :=
  if e < 9 then 1 + (m / 10 * 9 + m % 10 - 1) * 10 + e else 1 + (m - 1) * 10 + 9

/-- `DecompressAmount` in unbounded arithmetic. -/
def decompressAmountNat (x : Nat) : Nat :=
  if x = 0 then 0
  else
    let e := (x - 1) % 10
    let x := (x - 1) / 10
    (if e < 9 then x / 9 * 10 + x % 9 + 1 else x + 1) * 10 ^ e

/-- The pair `(m, e)` the loop of `CompressAmount` ends with. -/
def Canonical (m e : Nat) : Prop := 0 < m ∧ e ≤ 9 ∧ (e < 9 → m % 10 ≠ 0)

theorem two_pow_64 : (2 : Nat) ^ 64 = 18446744073709551616 := by norm_num

theorem toNat_pos_of_ne_zero {n : UInt64} (hn : n ≠ 0) : 0 < n.toNat := by
  rcases Nat.eq_zero_or_pos n.toNat with h | h
  · exact absurd (UInt64.toNat_inj.mp (h.trans UInt64.toNat_zero.symm)) hn
  · exact h

/-- The loop strips zeros while it may: what it ends with is canonical. -/
theorem compressAmountLoop_spec : ∀ (fuel : Nat) (n : UInt64) (e : Nat), n ≠ 0 → e + fuel = 9 →
    n.toNat * 10 ^ e = (compressAmountLoop fuel n e).1.toNat * 10 ^ (compressAmountLoop fuel n e).2 ∧
      Canonical (compressAmountLoop fuel n e).1.toNat (compressAmountLoop fuel n e).2 := by
  intro fuel
  induction fuel with
  | zero =>
    intro n e hn he
    exact ⟨rfl, toNat_pos_of_ne_zero hn, by simp [compressAmountLoop]; omega,
      by simp [compressAmountLoop]; omega⟩
  | succ fuel ih =>
    intro n e hn he
    rw [compressAmountLoop]
    split_ifs with hstrip
    · -- a zero is stripped: `n` is ten times `n / 10`, which is not zero
      obtain ⟨h10, hlt⟩ := hstrip
      have hmod : n.toNat % 10 = 0 := by simpa [UInt64.toNat_mod] using congrArg UInt64.toNat h10
      have hdiv : (n / 10).toNat = n.toNat / 10 := by simp [UInt64.toNat_div]
      have hne : n / 10 ≠ 0 := by
        intro h
        have h0 := congrArg UInt64.toNat h
        rw [hdiv] at h0
        simp at h0
        have := toNat_pos_of_ne_zero hn
        omega
      obtain ⟨h1, h2⟩ := ih (n / 10) (e + 1) hne (by omega)
      refine ⟨?_, h2⟩
      rw [← h1, hdiv, Nat.pow_succ]
      have := Nat.div_add_mod n.toNat 10
      rw [hmod, Nat.add_zero] at this
      calc n.toNat * 10 ^ e = (10 * (n.toNat / 10)) * 10 ^ e := by rw [this]
        _ = n.toNat / 10 * (10 ^ e * 10) := by ring
    · -- the loop stops at a non-multiple of ten, or at nine zeros
      refine ⟨rfl, toNat_pos_of_ne_zero hn, by omega, fun he9 h10 => hstrip ⟨?_, he9⟩⟩
      apply UInt64.toNat_inj.mp
      simpa [UInt64.toNat_mod] using h10

theorem decompressAmountLoop_toNat :
    ∀ (e : Nat) (n : UInt64), (decompressAmountLoop e n).toNat = n.toNat * 10 ^ e % 2 ^ 64
  | 0, n => by simp [decompressAmountLoop, Nat.mod_eq_of_lt n.toNat_lt]
  | e + 1, n => by
    rw [decompressAmountLoop, decompressAmountLoop_toNat e, UInt64.toNat_mul]
    simp only [UInt64.reduceToNat]
    rw [Nat.mod_mul_mod, Nat.pow_succ 10 e,
      Nat.mul_comm (10 ^ e) 10, Nat.mul_assoc]

/-- `CompressAmount` computes `amountCode` of the canonical pair of its input, where that
fits in 64 bits. -/
theorem compressAmount_toNat (n : UInt64) (hn : n ≠ 0) :
    ∃ m e, n.toNat = m * 10 ^ e ∧ Canonical m e ∧
      (amountCode m e < 2 ^ 64 → (compressAmount n).toNat = amountCode m e) := by
  obtain ⟨h1, hc⟩ := compressAmountLoop_spec 9 n 0 hn rfl
  refine ⟨_, _, by simpa using h1, hc, fun hlt => ?_⟩
  rw [compressAmount, if_neg hn]
  have hm := (compressAmountLoop 9 n 0).1.toNat_lt
  unfold amountCode at hlt ⊢
  by_cases he : (compressAmountLoop 9 n 0).2 < 9
  · -- the last digit is packed below the mantissa with radix nine
    have hd := hc.2.2 he
    simp only [if_pos he] at hlt ⊢
    simp only [UInt64.toNat_add, UInt64.toNat_mul, UInt64.toNat_sub, UInt64.toNat_div,
      UInt64.toNat_mod, UInt64.toNat_ofNat', UInt64.reduceToNat]
    rw [two_pow_64] at hlt hm ⊢
    omega
  · simp only [if_neg he] at hlt ⊢
    have hpos := hc.1
    simp only [UInt64.toNat_add, UInt64.toNat_mul, UInt64.toNat_sub, UInt64.reduceToNat]
    rw [two_pow_64] at hlt hm ⊢
    omega

theorem decompressAmountNat_succ (c : Nat) : decompressAmountNat (c + 1) =
    (if c % 10 < 9 then c / 10 / 9 * 10 + c / 10 % 9 + 1 else c / 10 + 1) * 10 ^ (c % 10) := by
  simp [decompressAmountNat]

/-- `DecompressAmount` computes `decompressAmountNat` where that fits in 64 bits. -/
theorem decompressAmount_toNat (x : UInt64) (h : decompressAmountNat x.toNat < 2 ^ 64) :
    (decompressAmount x).toNat = decompressAmountNat x.toNat := by
  by_cases hx : x = 0
  · simp [decompressAmount, decompressAmountNat, hx]
  have hpos := toNat_pos_of_ne_zero hx
  have hlt := x.toNat_lt
  have hsub : (x - 1).toNat = x.toNat - 1 := by
    simp only [UInt64.toNat_sub, UInt64.reduceToNat]
    rw [two_pow_64] at hlt ⊢
    omega
  have hq : ((x - 1) / 10).toNat = (x.toNat - 1) / 10 := by rw [UInt64.toNat_div, hsub]; rfl
  have he : ((x - 1) % 10).toNat = (x.toNat - 1) % 10 := by rw [UInt64.toNat_mod, hsub]; rfl
  rw [decompressAmount, if_neg hx]
  obtain ⟨c, hc⟩ : ∃ c, x.toNat = c + 1 := ⟨x.toNat - 1, by omega⟩
  rw [hc, decompressAmountNat_succ] at h ⊢
  rw [hc, Nat.add_sub_cancel] at hq he
  dsimp only
  rw [decompressAmountLoop_toNat, he]
  by_cases h9 : c % 10 < 9
  · simp only [if_pos h9] at h ⊢
    have hn : ((x - 1) / 10 / 9 * 10 + ((x - 1) / 10 % 9 + 1)).toNat =
        c / 10 / 9 * 10 + c / 10 % 9 + 1 := by
      simp only [UInt64.toNat_add, UInt64.toNat_mul, UInt64.toNat_div, UInt64.toNat_mod, hq,
        UInt64.reduceToNat]
      rw [two_pow_64] at hlt ⊢
      omega
    rw [hn, Nat.mod_eq_of_lt h]
  · simp only [if_neg h9] at h ⊢
    have hn : ((x - 1) / 10 + 1).toNat = c / 10 + 1 := by
      simp only [UInt64.toNat_add, hq, UInt64.reduceToNat]
      rw [two_pow_64] at hlt ⊢
      omega
    rw [hn, Nat.mod_eq_of_lt h]

/-- The code of a canonical pair decodes to its amount. -/
theorem decompressAmountNat_amountCode {m e : Nat} (hc : Canonical m e) :
    decompressAmountNat (amountCode m e) = m * 10 ^ e := by
  obtain ⟨hm, he9, hmod⟩ := hc
  by_cases he : e < 9
  · have hd := hmod he
    have hcode : amountCode m e = ((m / 10 * 9 + m % 10 - 1) * 10 + e) + 1 := by
      rw [amountCode, if_pos he]
      omega
    have h1 : ((m / 10 * 9 + m % 10 - 1) * 10 + e) % 10 = e := by omega
    have h2 : ((m / 10 * 9 + m % 10 - 1) * 10 + e) / 10 = m / 10 * 9 + m % 10 - 1 := by omega
    rw [hcode, decompressAmountNat_succ, h1, h2, if_pos he]
    congr 1
    omega
  · obtain rfl : e = 9 := by omega
    have hcode : amountCode m 9 = ((m - 1) * 10 + 9) + 1 := by
      rw [amountCode, if_neg he]
      omega
    have h1 : ((m - 1) * 10 + 9) % 10 = 9 := by omega
    have h2 : ((m - 1) * 10 + 9) / 10 = m - 1 := by omega
    rw [hcode, decompressAmountNat_succ, h1, h2, if_neg he]
    congr 1
    omega

/-- Every code but zero is the code of a canonical pair. -/
theorem exists_amountCode_eq {x : Nat} (hx : x ≠ 0) : ∃ m e, Canonical m e ∧ amountCode m e = x := by
  obtain ⟨c, rfl⟩ : ∃ c, x = c + 1 := ⟨x - 1, by omega⟩
  by_cases he : c % 10 < 9
  · refine ⟨c / 10 / 9 * 10 + c / 10 % 9 + 1, c % 10, ⟨by omega, by omega, fun _ => by omega⟩, ?_⟩
    rw [amountCode, if_pos he]
    omega
  · refine ⟨c / 10 + 1, 9, ⟨by omega, le_refl 9, fun h => absurd h (by omega)⟩, ?_⟩
    rw [amountCode, if_neg (by omega)]
    omega

/-- A larger exponent leaves a mantissa that is a multiple of ten. -/
theorem mod_ten_eq_zero_of_lt {m m' e e' : Nat} (h : m * 10 ^ e = m' * 10 ^ e') (he : e < e') :
    m % 10 = 0 := by
  have hm : m = m' * 10 ^ (e' - e) := by
    apply Nat.eq_of_mul_eq_mul_right (Nat.pow_pos (n := e) (by norm_num : 0 < 10))
    rw [h, Nat.mul_assoc, ← Nat.pow_add, Nat.sub_add_cancel he.le]
  rw [hm, show e' - e = (e' - e - 1) + 1 by omega, Nat.pow_succ, ← Nat.mul_assoc, Nat.mul_mod_left]

/-- An amount has one canonical pair. -/
theorem canonical_unique {m e m' e' : Nat} (hc : Canonical m e) (hc' : Canonical m' e')
    (h : m * 10 ^ e = m' * 10 ^ e') : m = m' ∧ e = e' := by
  rcases lt_trichotomy e e' with he | rfl | he
  · exact absurd (mod_ten_eq_zero_of_lt h he) (hc.2.2 (by have := hc'.2.1; omega))
  · exact ⟨Nat.eq_of_mul_eq_mul_right (Nat.pow_pos (n := e) (by norm_num : 0 < 10)) h, rfl⟩
  · exact absurd (mod_ten_eq_zero_of_lt h.symm he) (hc'.2.2 (by have := hc.2.1; omega))

/-- The code of `m * 10 ^ e` is at most ten times its mantissa. -/
theorem amountCode_le {m e : Nat} (hc : Canonical m e) : amountCode m e ≤ 10 * m := by
  have := hc.1
  unfold amountCode
  split_ifs <;> omega

example : compressAmount 5000000000 = 0x32 := by decide
example : decompressAmount 0x32 = 5000000000 := by decide

theorem MAX_MONEY_eq : MAX_MONEY = 2100000000000000 := by
  simp [MAX_MONEY, COIN]

/-- Every amount up to `MAX_MONEY` comes back from its code. -/
theorem decompressAmount_compressAmount (n : UInt64) (h : (n.toNat : Int) ≤ MAX_MONEY) :
    decompressAmount (compressAmount n) = n := by
  by_cases h0 : n = 0
  · subst h0
    decide
  obtain ⟨m, e, hn, hc, hcode⟩ := compressAmount_toNat n h0
  have hm : m ≤ n.toNat := by
    rw [hn]
    exact Nat.le_mul_of_pos_right m (Nat.pow_pos (by norm_num))
  have hlt : amountCode m e < 2 ^ 64 := by
    have := amountCode_le hc
    rw [MAX_MONEY_eq] at h
    rw [two_pow_64]
    omega
  have hval : decompressAmountNat (compressAmount n).toNat = n.toNat := by
    rw [hcode hlt, decompressAmountNat_amountCode hc, hn]
  apply UInt64.toNat_inj.mp
  rw [decompressAmount_toNat _ (hval ▸ n.toNat_lt), hval]

/-- Every code whose amount fits in 64 bits comes back from its amount. -/
theorem compressAmount_decompressAmount (x : UInt64) (h : decompressAmountNat x.toNat < 2 ^ 64) :
    compressAmount (decompressAmount x) = x := by
  by_cases hx : x = 0
  · subst hx
    decide
  obtain ⟨m, e, hc, hcode⟩ := exists_amountCode_eq (toNat_pos_of_ne_zero hx).ne'
  have hD : (decompressAmount x).toNat = m * 10 ^ e := by
    rw [decompressAmount_toNat x h, ← hcode, decompressAmountNat_amountCode hc]
  have hne : decompressAmount x ≠ 0 := by
    intro h0
    rw [h0, UInt64.toNat_zero] at hD
    exact Nat.mul_ne_zero hc.1.ne' (Nat.pow_pos (by norm_num)).ne' hD.symm
  obtain ⟨m', e', hn', hc', hcode'⟩ := compressAmount_toNat _ hne
  obtain ⟨rfl, rfl⟩ := canonical_unique hc' hc (hn'.symm.trans hD)
  apply UInt64.toNat_inj.mp
  rw [hcode' (hcode ▸ x.toNat_lt), hcode]

/-! ## The special forms come back -/

/-- `CPubKey::Decompress` restores every 65-byte key that `IsFullyValid` accepts from its
x-coordinate and the parity of its y-coordinate. -/
def DecompressRestores (isFullyValid : List UInt8 → Bool)
    (decompress : List UInt8 → Option (List UInt8)) : Prop :=
  ∀ pubkey : List UInt8, pubkey.length = 65 → pubkey.getD 0 0 = 0x04 → isFullyValid pubkey = true →
    decompress ((0x02 ||| (pubkey.getD 64 0 &&& 0x01)) :: (pubkey.drop 1).take 32) = some pubkey

/-- What `CompressScript` writes for `script`: a tag below `nSpecialScripts`, then as many
bytes as `GetSpecialScriptSize` gives for it, from which `DecompressScript` rebuilds
`script`. -/
def SpecialForm (decompress : List UInt8 → Option (List UInt8)) (script out : List UInt8) :
    Prop :=
  ∃ tag rest, out = tag :: rest ∧ tag.toNat < nSpecialScripts ∧
    rest.length = getSpecialScriptSize tag.toNat ∧
    decompressScript decompress tag.toNat rest = some script

theorem specialForm_keyID {decompress : List UInt8 → Option (List UInt8)} {script keyID : List UInt8}
    (h : isToKeyID script = some keyID) : SpecialForm decompress script (0x00 :: keyID) := by
  unfold isToKeyID at h
  split_ifs at h with hs
  cases h
  obtain ⟨hlen, h0, h1, h2, h23, h24⟩ := hs
  -- the three opcodes in front, the hash, then two opcodes
  rcases script with _ | ⟨a, _ | ⟨b, _ | ⟨c, t⟩⟩⟩
  all_goals simp only [List.length_cons, List.length_nil] at hlen
  all_goals try omega
  simp only [List.getD_cons_zero, List.getD_cons_succ] at h0 h1 h2 h23 h24
  subst h0 h1 h2
  have ht : t.length = 20 + 2 := by omega
  refine ⟨0x00, _, rfl, by decide, by simp [getSpecialScriptSize, ht], ?_⟩
  rw [decompressScript, if_pos (by decide)]
  simp only [List.drop_succ_cons, List.drop_zero, List.take_take, Nat.min_self]
  rw [← h23, ← h24, List.append_assoc, take_append_getD_two 0 t 20 ht]
  rfl

theorem specialForm_scriptID {decompress : List UInt8 → Option (List UInt8)}
    {script scriptID : List UInt8} (h : isToScriptID script = some scriptID) :
    SpecialForm decompress script (0x01 :: scriptID) := by
  unfold isToScriptID at h
  split_ifs at h with hs
  cases h
  obtain ⟨hlen, h0, h1, h22⟩ := hs
  -- two opcodes in front, the hash, then one opcode
  rcases script with _ | ⟨a, _ | ⟨b, t⟩⟩
  all_goals simp only [List.length_cons, List.length_nil] at hlen
  all_goals try omega
  simp only [List.getD_cons_zero, List.getD_cons_succ] at h0 h1 h22
  subst h0 h1
  have ht : t.length = 20 + 1 := by omega
  refine ⟨0x01, _, rfl, by decide, by simp [getSpecialScriptSize, ht], ?_⟩
  rw [decompressScript, if_neg (by decide), if_pos (by decide)]
  simp only [List.drop_succ_cons, List.drop_zero, List.take_take, Nat.min_self]
  rw [← h22, List.append_assoc, take_append_getD_last 0 t 20 ht]
  rfl

theorem and_one_eq_zero_or_one (b : UInt8) : b &&& 0x01 = 0 ∨ b &&& 0x01 = 1 := by
  have h : (b &&& 0x01).toNat = b.toNat % 2 := by
    rw [UInt8.toNat_and, show (0x01 : UInt8).toNat = 1 from rfl, Nat.and_one_is_mod]
  rcases Nat.mod_two_eq_zero_or_one b.toNat with h2 | h2
  · exact Or.inl (UInt8.toNat_inj.mp (by rw [h, h2]; rfl))
  · exact Or.inr (UInt8.toNat_inj.mp (by rw [h, h2]; rfl))

/-- The tag of an uncompressed key is 4 or 5, by the parity of the key's last byte. -/
theorem toNat_parity_tag (b : UInt8) :
    (0x04 ||| (b &&& 0x01)).toNat = 4 ∨ (0x04 ||| (b &&& 0x01)).toNat = 5 := by
  rcases and_one_eq_zero_or_one b with h | h <;> rw [h] <;> decide

/-- `vch[0] = nSize - 2` turns the tag of an uncompressed key into its compressed prefix. -/
theorem parity_tag_sub_two (b : UInt8) :
    UInt8.ofNat ((0x04 ||| (b &&& 0x01)).toNat - 2) = 0x02 ||| (b &&& 0x01) := by
  rcases and_one_eq_zero_or_one b with h | h <;> rw [h] <;> decide

theorem specialForm_pubkey {isFullyValid : List UInt8 → Bool}
    {decompress : List UInt8 → Option (List UInt8)} (hdec : DecompressRestores isFullyValid decompress)
    {script pubkey out : List UInt8} (h : isToPubKey isFullyValid script = some pubkey)
    (hout : (if pubkey.getD 0 0 = 0x02 ∨ pubkey.getD 0 0 = 0x03 then
        some (pubkey.getD 0 0 :: (pubkey.drop 1).take 32)
      else if pubkey.getD 0 0 = 0x04 then
        some ((0x04 ||| (pubkey.getD 64 0 &&& 0x01)) :: (pubkey.drop 1).take 32)
      else none) = some out) :
    SpecialForm decompress script out := by
  unfold isToPubKey at h
  dsimp only at h
  split_ifs at h with h35 h67 hvalid
  · -- a compressed key: its prefix byte is the tag
    cases h
    obtain ⟨hlen, h0, h34, h1⟩ := h35
    rcases script with _ | ⟨a, _ | ⟨c, u⟩⟩
    all_goals simp only [List.length_cons, List.length_nil] at hlen
    all_goals try omega
    simp only [List.getD_cons_zero, List.getD_cons_succ] at h0 h34 h1
    subst h0
    have hu : u.length = 32 + 1 := by omega
    simp only [List.drop_succ_cons, List.drop_zero, List.take_succ_cons, List.getD_cons_zero,
      if_pos h1, Option.some.injEq] at hout
    subst hout
    have hc : c.toNat = 2 ∨ c.toNat = 3 := by rcases h1 with rfl | rfl <;> decide
    refine ⟨c, _, rfl, by simp only [nSpecialScripts]; omega, ?_, ?_⟩
    · rw [getSpecialScriptSize, if_neg (by omega), if_pos (by omega)]
      simp [hu]
    · rw [decompressScript, if_neg (by omega), if_neg (by omega), if_pos hc, UInt8.ofNat_toNat]
      simp only [List.take_take, Nat.min_self]
      rw [← h34, List.append_assoc, take_append_getD_last 0 u 32 hu]
      rfl
  · -- an uncompressed key: the tag keeps the parity of `y`, the x-coordinate follows
    cases h
    obtain ⟨hlen, h0, h66, h1⟩ := h67
    rcases script with _ | ⟨a, t⟩
    all_goals simp only [List.length_cons, List.length_nil] at hlen
    all_goals try omega
    simp only [List.getD_cons_zero, List.getD_cons_succ] at h0 h66 h1
    subst h0
    have ht : t.length = 65 + 1 := by omega
    simp only [List.drop_succ_cons, List.drop_zero] at hout hvalid ⊢
    have hhead : (t.take 65).getD 0 0 = 0x04 := by rw [getD_take_of_lt (by omega), h1]
    rw [hhead, if_neg (by decide), if_pos rfl, Option.some.injEq] at hout
    subst hout
    have hkey := hdec (t.take 65) (by simp [ht]) hhead hvalid
    have htag := toNat_parity_tag ((t.take 65).getD 64 0)
    refine ⟨_, _, rfl, by simp only [nSpecialScripts]; omega, ?_, ?_⟩
    · rw [getSpecialScriptSize, if_neg (by omega), if_pos (by omega)]
      simp [ht]
    · rw [decompressScript, if_neg (by omega), if_neg (by omega), if_neg (by omega), if_pos htag]
      simp only [List.take_take, Nat.min_self, parity_tag_sub_two, hkey]
      rw [← h66, List.append_assoc, take_append_getD_last 0 t 65 ht]
      rfl

/-- Whatever `CompressScript` writes is a special form of the script, given that
decompression restores uncompressed keys. -/
theorem compressScript_specialForm {isFullyValid : List UInt8 → Bool}
    {decompress : List UInt8 → Option (List UInt8)} (hdec : DecompressRestores isFullyValid decompress)
    {script out : List UInt8} (h : compressScript isFullyValid script = some out) :
    SpecialForm decompress script out := by
  unfold compressScript at h
  rcases hk : isToKeyID script with _ | keyID
  · rcases hs : isToScriptID script with _ | scriptID
    · rcases hp : isToPubKey isFullyValid script with _ | pubkey
      · simp [hk, hs, hp] at h
      · simp only [hk, hs, hp] at h
        exact specialForm_pubkey hdec hp h
    · simp only [hk, hs, Option.some.injEq] at h
      subst h
      exact specialForm_scriptID hs
  · simp only [hk, Option.some.injEq] at h
    subst h
    exact specialForm_keyID hk

/-- `DecompressScript(CompressScript(script)) = script`. -/
theorem decompressScript_compressScript {isFullyValid : List UInt8 → Bool}
    {decompress : List UInt8 → Option (List UInt8)} (hdec : DecompressRestores isFullyValid decompress)
    {script out : List UInt8} (h : compressScript isFullyValid script = some out) :
    decompressScript decompress (out.headD 0).toNat (out.drop 1) = some script := by
  obtain ⟨tag, rest, rfl, -, -, hd⟩ := compressScript_specialForm hdec h
  exact hd

/-! ## Reading what was written -/

/-- `CScriptCompressor` reads back every script of at most `MAX_SCRIPT_SIZE` bytes. -/
theorem unserializeScript_serializeScript {isFullyValid : List UInt8 → Bool}
    {decompress : List UInt8 → Option (List UInt8)} (hdec : DecompressRestores isFullyValid decompress)
    (script0 script rest : List UInt8) (hlen : script.length ≤ MAX_SCRIPT_SIZE) :
    unserializeScript decompress script0 (serializeScript isFullyValid script ++ rest) =
      .ok (script, rest) := by
  unfold serializeScript
  rcases hc : compressScript isFullyValid script with _ | compr
  · -- the raw form: `VARINT(size + 6)`, then the bytes
    have hmax : MAX_SCRIPT_SIZE = 10000 := rfl
    have hsize : (script.length + nSpecialScripts) % 2 ^ 32 = script.length + nSpecialScripts :=
      Nat.mod_eq_of_lt (by simp only [nSpecialScripts]; omega)
    have hle : script.length + nSpecialScripts ≤ VarIntType.uint32.max := by
      rw [VarIntType.uint32_max]
      simp only [nSpecialScripts]
      omega
    rw [hsize, unserializeScript, List.append_assoc, readVarInt_writeVarInt, if_pos hle]
    simp only [Except.ok_bind, nSpecialScripts, Nat.add_sub_cancel]
    rw [if_neg (by omega), if_neg (by omega), streamRead_append]
  · -- a special form: its tag is a one-byte `VARINT` below `nSpecialScripts`
    obtain ⟨tag, r, rfl, htag, hr, hd⟩ := compressScript_specialForm hdec hc
    have htag' : tag.toNat ≤ 127 := by simp only [nSpecialScripts] at htag; omega
    have hle : tag.toNat ≤ VarIntType.uint32.max := by
      rw [VarIntType.uint32_max]
      omega
    have hbytes : tag :: r ++ rest = writeVarInt tag.toNat ++ (r ++ rest) := by
      rw [writeVarInt_of_le htag', UInt8.ofNat_toNat]
      rfl
    rw [hbytes, unserializeScript, readVarInt_writeVarInt, if_pos hle]
    simp only [Except.ok_bind]
    rw [if_pos htag, ← hr, streamRead_append]
    simp [hd]

/-- An amount in `[0, MAX_MONEY]` as a `uint64_t`. -/
theorem toNat_toUInt64_of_nonneg {v : Int64} (h : 0 ≤ v.toInt) : (v.toUInt64.toNat : Int) = v.toInt := by
  have hv : 0 ≤ v := Int64.le_iff_toInt_le.mpr (by simpa using h)
  rw [Int64.toNat_toUInt64_of_le hv, Int64.toInt_eq_toNatClampNeg hv]

/-- `CTxOutCompressor` reads back every output with an amount in `[0, MAX_MONEY]` and a
script of at most `MAX_SCRIPT_SIZE` bytes, and consumes exactly what it wrote. -/
theorem unserializeTxOut_serializeTxOut {isFullyValid : List UInt8 → Bool}
    {decompress : List UInt8 → Option (List UInt8)} (hdec : DecompressRestores isFullyValid decompress)
    (txout0 txout : CTxOut) (rest : List UInt8) (hv : 0 ≤ txout.nValue.toInt)
    (hmax : txout.nValue.toInt ≤ MAX_MONEY) (hlen : txout.scriptPubKey.length ≤ MAX_SCRIPT_SIZE) :
    unserializeTxOut decompress txout0 (serializeTxOut isFullyValid txout ++ rest) =
      .ok (txout, rest) := by
  have hamount : decompressAmount (compressAmount txout.nValue.toUInt64) = txout.nValue.toUInt64 :=
    decompressAmount_compressAmount _ (by rw [toNat_toUInt64_of_nonneg hv]; exact hmax)
  have hle : (compressAmount txout.nValue.toUInt64).toNat ≤ VarIntType.uint64.max := by
    have := (compressAmount txout.nValue.toUInt64).toNat_lt
    rw [VarIntType.uint64_max]
    rw [two_pow_64] at this
    omega
  rw [serializeTxOut, unserializeTxOut, List.append_assoc, readVarInt_writeVarInt, if_pos hle]
  simp only [Except.ok_bind, UInt64.ofNat_toNat, hamount, Int64.toInt64_toUInt64]
  rw [unserializeScript_serializeScript hdec _ _ _ hlen]
  rfl

/-- The curve facts for one uncompressed key `K`: `IsFullyValid` accepts only `K`, and
decompression maps its compressed form back to it. -/
theorem decompressRestores_single (K : List UInt8) :
    DecompressRestores (fun pubkey => pubkey == K) fun vch =>
      if vch = (0x02 ||| (K.getD 64 0 &&& 0x01)) :: (K.drop 1).take 32 then some K else none := by
  intro pubkey _ _ hvalid
  obtain rfl : pubkey = K := by simpa using hvalid
  exact if_pos rfl

end Veles
