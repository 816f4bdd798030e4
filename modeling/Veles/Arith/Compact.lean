import Veles.Arith.Uint256

/-!
# The compact encoding of targets: `SetCompact` and `GetCompact`

A compact word (arith_uint256.h) is a size byte `s` above a sign bit and a
23-bit mantissa `m`; it stands for `m * 256^(s-3)`.  `SetCompact` decodes a
word and reports a set sign bit (`fNegative`) and a value too wide for 256
bits (`fOverflow`); `GetCompact` encodes a value, keeping its top two or three
bytes and moving the mantissa down a byte when its top bit would read as a
sign.

Both are modelled on the `uint32_t` and `uint64_t` words the C++ computes
with.  The `Nat` readings `cSize`, `cMantissa`, `cWord`, `rawSize`,
`rawMantissa`, `compactSize` and `compactMantissa` carry the proofs:

    (setCompact n).value.toNat = cWord n * 256 ^ (cSize n - 3) % 2 ^ 256   (setCompact_value_toNat)
    (getCompact a false).toNat = compactMantissa x + compactSize x * 2^24  (getCompact_toNat)
-/

namespace Veles

open ArithUint256

/-- What `SetCompact` leaves in `*this`, `*pfNegative` and `*pfOverflow`. -/
structure CompactDecode where
  value : ArithUint256
  fNegative : Bool
  fOverflow : Bool

/-- The word `SetCompact` keeps in `nWord`: the mantissa, shifted down for sizes up to 3
before the flags read it. -/
def setCompactWord (nCompact : UInt32) : UInt32 :=
  let nSize := (nCompact >>> 24).toNat
  let nWord := nCompact &&& 0x007fffff
  if nSize ≤ 3 then nWord >>> UInt32.ofNat (8 * (3 - nSize)) else nWord

/-- `arith_uint256::SetCompact(nCompact, pfNegative, pfOverflow)`. -/
def setCompact (nCompact : UInt32) : CompactDecode :=
  let nSize := (nCompact >>> 24).toNat
  let nWord := setCompactWord nCompact
  { value := if nSize ≤ 3 then ofU64 nWord.toUInt64 else ofU64 nWord.toUInt64 <<< (8 * (nSize - 3))
    fNegative := nWord != 0 && (nCompact &&& 0x00800000) != 0
    fOverflow := nWord != 0 &&
      (nSize > 34 || (nWord > 0xff && nSize > 33) || (nWord > 0xffff && nSize > 32)) }

/-- The mantissa word `GetCompact` first reads off: the value moved up to three bytes, or
its top three bytes. -/
def getCompactRaw (a : ArithUint256) (nSize : Nat) : UInt32 :=
  if nSize ≤ 3 then (getLow64 a <<< UInt64.ofNat (8 * (3 - nSize))).toUInt32
  else (getLow64 (a >>> (8 * (nSize - 3)))).toUInt32

/-- `arith_uint256::GetCompact(fNegative)`.  Its two asserts hold for every value, so they are
left out: the mantissa left is below `2 ^ 23` and the size at most 33 (`compactMantissa_lt`,
`compactSize_le`, which `getCompact_toNat` reads on the words computed here). -/
def getCompact (a : ArithUint256) (fNegative : Bool) : UInt32 :=
  let nSize := (bits a + 7) / 8
  let nCompact := getCompactRaw a nSize
  -- the 0x00800000 bit is the sign: divide the mantissa by 256 and grow the size instead
  let signed := nCompact &&& 0x00800000 != 0
  let nCompact := if signed then nCompact >>> 8 else nCompact
  let nSize := if signed then nSize + 1 else nSize
  let nCompact := nCompact ||| UInt32.ofNat nSize <<< 24
  nCompact ||| (if fNegative && nCompact &&& 0x007fffff != 0 then 0x00800000 else 0)

/-! ## `Nat` readings of a compact word -/

/-- The size byte. -/
def cSize (n : UInt32) : Nat := n.toNat / 2 ^ 24

/-- The 23-bit mantissa. -/
def cMantissa (n : UInt32) : Nat := n.toNat % 2 ^ 23

/-- The word `SetCompact` stores and tests: the mantissa, shifted down for sizes up to 3. -/
def cWord (n : UInt32) : Nat :=
  if cSize n ≤ 3 then cMantissa n / 256 ^ (3 - cSize n) else cMantissa n

theorem two_pow_eight_mul (k : Nat) : 2 ^ (8 * k) = 256 ^ k := by
  rw [Nat.pow_mul]

theorem cMantissa_lt (n : UInt32) : cMantissa n < 2 ^ 23 := Nat.mod_lt _ (by decide)

theorem cSize_lt (n : UInt32) : cSize n < 256 := by
  have := n.toNat_lt
  unfold cSize; omega

theorem cWord_le (n : UInt32) : cWord n ≤ cMantissa n := by
  unfold cWord; split
  · exact Nat.div_le_self _ _
  · exact le_rfl

theorem toNat_shiftRight24 (n : UInt32) : (n >>> 24).toNat = cSize n := by
  simp [UInt32.toNat_shiftRight, Nat.shiftRight_eq_div_pow, cSize]

theorem toNat_and_mantissa (n : UInt32) : (n &&& 0x007fffff).toNat = cMantissa n := by
  rw [UInt32.toNat_and, show (0x007fffff : UInt32).toNat = 2 ^ 23 - 1 from rfl,
    Nat.and_two_pow_sub_one_eq_mod]
  rfl

theorem and_signBit_ne_zero (n : UInt32) :
    (n &&& 0x00800000 != 0) = decide (n.toNat / 2 ^ 23 % 2 = 1) := by
  have h : (n &&& 0x00800000).toNat = n.toNat / 2 ^ 23 % 2 * 2 ^ 23 := by
    rw [UInt32.toNat_and, show (0x00800000 : UInt32).toNat = 2 ^ 23 from rfl, Nat.and_two_pow,
      Nat.testBit_eq_decide_div_mod_eq]
    rcases Nat.mod_two_eq_zero_or_one (n.toNat / 2 ^ 23) with h2 | h2 <;> rw [h2] <;> rfl
  apply Bool.eq_iff_iff.mpr
  rw [bne_iff_ne, ne_eq, ← UInt32.toNat_inj, h, decide_eq_true_iff, UInt32.toNat_zero]
  omega

theorem bne_zero_eq (w : UInt32) : (w != 0) = decide (w.toNat ≠ 0) := by
  rw [Bool.eq_iff_iff, bne_iff_ne, ne_eq, ← UInt32.toNat_inj, UInt32.toNat_zero, decide_eq_true_iff]

@[simp] theorem toNat_setCompactWord (n : UInt32) : (setCompactWord n).toNat = cWord n := by
  simp only [setCompactWord, toNat_shiftRight24]
  rw [cWord]
  split
  · next hs =>
    rw [UInt32.toNat_shiftRight, toNat_and_mantissa, Nat.shiftRight_eq_div_pow,
      UInt32.toNat_ofNat', Nat.mod_eq_of_lt (by omega), Nat.mod_eq_of_lt (by omega),
      two_pow_eight_mul]
  · exact toNat_and_mantissa n

theorem setCompact_value_toNat (n : UInt32) :
    (setCompact n).value.toNat = cWord n * 256 ^ (cSize n - 3) % 2 ^ 256 := by
  have hw := cWord_le n
  have hm := cMantissa_lt n
  simp only [setCompact, toNat_shiftRight24]
  split
  · next hs =>
    rw [toNat_ofU64, UInt32.toNat_toUInt64, toNat_setCompactWord, Nat.sub_eq_zero_of_le hs,
      Nat.pow_zero, Nat.mul_one, Nat.mod_eq_of_lt (by omega)]
  · rw [BitVec.toNat_shiftLeft, toNat_ofU64, UInt32.toNat_toUInt64, toNat_setCompactWord,
      Nat.shiftLeft_eq, two_pow_eight_mul]

theorem setCompact_fNegative (n : UInt32) :
    (setCompact n).fNegative = decide (cWord n ≠ 0 ∧ n.toNat / 2 ^ 23 % 2 = 1) := by
  simp only [setCompact]
  rw [and_signBit_ne_zero, bne_zero_eq, toNat_setCompactWord]
  simp

theorem setCompact_fOverflow (n : UInt32) :
    (setCompact n).fOverflow = decide (cWord n ≠ 0 ∧ (34 < cSize n ∨ (255 < cWord n ∧ 33 < cSize n) ∨
      (65535 < cWord n ∧ 32 < cSize n))) := by
  simp only [setCompact, bne_zero_eq, toNat_setCompactWord, toNat_shiftRight24,
    UInt32.lt_iff_toNat_lt]
  simp [Bool.or_assoc]

/-! ## `Nat` readings of `GetCompact` -/

/-- `GetCompact`'s first size: the byte length `(bits() + 7) / 8`. -/
def rawSize (x : Nat) : Nat := (Nat.size x + 7) / 8

/-- `GetCompact`'s first mantissa, on `Nat`. -/
def rawMantissa (x : Nat) : Nat :=
  if rawSize x ≤ 3 then x * 256 ^ (3 - rawSize x) else x / 256 ^ (rawSize x - 3)

/-- The mantissa `GetCompact` writes: a byte shorter when its top bit would read as the sign. -/
def compactMantissa (x : Nat) : Nat :=
  if 2 ^ 23 ≤ rawMantissa x then rawMantissa x / 256 else rawMantissa x

/-- The size `GetCompact` writes. -/
def compactSize (x : Nat) : Nat :=
  if 2 ^ 23 ≤ rawMantissa x then rawSize x + 1 else rawSize x

theorem lt_pow_rawSize (x : Nat) : x < 256 ^ rawSize x := by
  have h : Nat.size x ≤ 8 * rawSize x := by unfold rawSize; omega
  calc x < 2 ^ Nat.size x := Nat.lt_size_self x
    _ ≤ 2 ^ (8 * rawSize x) := Nat.pow_le_pow_right (by decide) h
    _ = 256 ^ rawSize x := two_pow_eight_mul _

theorem pow_rawSize_le (x : Nat) (hx : x ≠ 0) : 256 ^ (rawSize x - 1) ≤ x := by
  have hs : 0 < Nat.size x := Nat.size_pos.mpr (Nat.pos_of_ne_zero hx)
  have h : 8 * (rawSize x - 1) ≤ Nat.size x - 1 := by unfold rawSize; omega
  calc 256 ^ (rawSize x - 1) = 2 ^ (8 * (rawSize x - 1)) := (two_pow_eight_mul _).symm
    _ ≤ 2 ^ (Nat.size x - 1) := Nat.pow_le_pow_right (by decide) h
    _ ≤ x := Nat.lt_size.mp (by omega)

theorem rawSize_le (x : Nat) (hx : x < 2 ^ 256) : rawSize x ≤ 32 := by
  have := Nat.size_le.mpr hx
  unfold rawSize; omega

theorem rawSize_pos (x : Nat) (hx : x ≠ 0) : 0 < rawSize x := by
  have := Nat.size_pos.mpr (Nat.pos_of_ne_zero hx)
  unfold rawSize; omega

theorem rawMantissa_lt (x : Nat) : rawMantissa x < 2 ^ 24 := by
  have hx := lt_pow_rawSize x
  unfold rawMantissa
  split
  · next hs =>
    calc x * 256 ^ (3 - rawSize x) < 256 ^ rawSize x * 256 ^ (3 - rawSize x) :=
          Nat.mul_lt_mul_of_pos_right hx (by positivity)
      _ = 2 ^ 24 := by rw [← Nat.pow_add, Nat.add_sub_cancel' hs]; rfl
  · next hs =>
    rw [Nat.div_lt_iff_lt_mul (by positivity)]
    calc x < 256 ^ rawSize x := hx
      _ = 2 ^ 24 * 256 ^ (rawSize x - 3) := by
        rw [show (2 : Nat) ^ 24 = 256 ^ 3 from rfl, ← Nat.pow_add]; congr 1; omega

theorem le_rawMantissa (x : Nat) (hx : x ≠ 0) : 2 ^ 16 ≤ rawMantissa x := by
  have hlo := pow_rawSize_le x hx
  have hpos := rawSize_pos x hx
  unfold rawMantissa
  split
  · next hs =>
    calc 2 ^ 16 = 256 ^ (rawSize x - 1) * 256 ^ (3 - rawSize x) := by
          rw [← Nat.pow_add, show rawSize x - 1 + (3 - rawSize x) = 2 by omega]; rfl
      _ ≤ x * 256 ^ (3 - rawSize x) := Nat.mul_le_mul_right _ hlo
  · next hs =>
    rw [Nat.le_div_iff_mul_le (by positivity)]
    calc 2 ^ 16 * 256 ^ (rawSize x - 3) = 256 ^ (rawSize x - 1) := by
          rw [show (2 : Nat) ^ 16 = 256 ^ 2 from rfl, ← Nat.pow_add]; congr 1; omega
      _ ≤ x := hlo

theorem toNat_getCompactRaw (a : ArithUint256) :
    (getCompactRaw a (rawSize a.toNat)).toNat = rawMantissa a.toNat := by
  have hlt := rawMantissa_lt a.toNat
  rw [getCompactRaw, rawMantissa]
  split
  · next hs =>
    rw [rawMantissa, if_pos hs] at hlt
    have h64 : a.toNat < 2 ^ 64 := by
      have := Nat.le_mul_of_pos_right a.toNat (Nat.pow_pos (n := 3 - rawSize a.toNat) (by decide : 0 < 256))
      omega
    rw [UInt64.toNat_toUInt32, UInt64.toNat_shiftLeft, toNat_getLow64, UInt64.toNat_ofNat',
      Nat.mod_eq_of_lt (show 8 * (3 - rawSize a.toNat) < 2 ^ 64 by omega),
      Nat.mod_eq_of_lt (show 8 * (3 - rawSize a.toNat) < 64 by omega), Nat.mod_eq_of_lt h64,
      Nat.shiftLeft_eq, two_pow_eight_mul, Nat.mod_eq_of_lt (by omega), Nat.mod_eq_of_lt (by omega)]
  · next hs =>
    rw [rawMantissa, if_neg hs] at hlt
    have h64 : a.toNat / 256 ^ (rawSize a.toNat - 3) < 2 ^ 64 := lt_trans hlt (by decide)
    have h32 : a.toNat / 256 ^ (rawSize a.toNat - 3) < 2 ^ 32 := lt_trans hlt (by decide)
    rw [UInt64.toNat_toUInt32, toNat_getLow64, BitVec.toNat_ushiftRight, Nat.shiftRight_eq_div_pow,
      two_pow_eight_mul, Nat.mod_eq_of_lt h64, Nat.mod_eq_of_lt h32]

theorem compactMantissa_lt (x : Nat) : compactMantissa x < 2 ^ 23 := by
  have := rawMantissa_lt x
  unfold compactMantissa; split <;> omega

theorem compactSize_le (x : Nat) (hx : x < 2 ^ 256) : compactSize x ≤ 33 := by
  have := rawSize_le x hx
  unfold compactSize; split <;> omega

/-- Or-ing the size byte above a 24-bit mantissa adds it. -/
theorem toNat_or_size (m : UInt32) (s : Nat) (hm : m.toNat < 2 ^ 24) (hs : s < 256) :
    (m ||| UInt32.ofNat s <<< 24).toNat = m.toNat + s * 2 ^ 24 := by
  have hsh : (UInt32.ofNat s <<< 24).toNat = 2 ^ 24 * s := by
    rw [UInt32.toNat_shiftLeft, UInt32.toNat_ofNat', Nat.mod_eq_of_lt (show s < 2 ^ 32 by omega),
      show (24 : UInt32).toNat % 32 = 24 from rfl, Nat.shiftLeft_eq]
    omega
  rw [UInt32.toNat_or, hsh, Nat.lor_comm, ← Nat.two_pow_add_eq_or_of_lt hm]
  omega

theorem signBit_iff (m : Nat) (hm : m < 2 ^ 24) : m / 2 ^ 23 % 2 = 1 ↔ 2 ^ 23 ≤ m := by
  omega

theorem getCompact_toNat (a : ArithUint256) :
    (getCompact a false).toNat = compactMantissa a.toNat + compactSize a.toNat * 2 ^ 24 := by
  have hlt := rawMantissa_lt a.toNat
  have hsz : (bits a + 7) / 8 = rawSize a.toNat := by rw [bits_eq_size]; rfl
  have hrs := rawSize_le a.toNat a.isLt
  simp only [getCompact, hsz, Bool.false_and, Bool.false_eq_true, if_false, UInt32.or_zero]
  rw [and_signBit_ne_zero, toNat_getCompactRaw, compactMantissa, compactSize]
  by_cases hsign : 2 ^ 23 ≤ rawMantissa a.toNat
  · have hd : decide (rawMantissa a.toNat / 2 ^ 23 % 2 = 1) = true := by
      simpa using (signBit_iff _ hlt).mpr hsign
    have hshift : (getCompactRaw a (rawSize a.toNat) >>> 8).toNat = rawMantissa a.toNat / 256 := by
      rw [UInt32.toNat_shiftRight, toNat_getCompactRaw, Nat.shiftRight_eq_div_pow]; rfl
    simp only [hd, if_true, if_pos hsign]
    rw [toNat_or_size _ _ (by omega) (by omega), hshift]
  · have hd : decide (rawMantissa a.toNat / 2 ^ 23 % 2 = 1) = false := by
      simpa using fun h => hsign ((signBit_iff _ hlt).mp h)
    simp only [hd, Bool.false_eq_true, if_false, if_neg hsign]
    rw [toNat_or_size _ _ (by rw [toNat_getCompactRaw]; exact hlt) (by omega), toNat_getCompactRaw]

/-! ## The encoding as floor division

`GetCompact` keeps `x * 2^24 / 256^s` as mantissa, `SetCompact` returns
`m * 256^s / 2^24`: both are floor divisions by the scale `256^s / 2^24`. -/

theorem rawMantissa_eq_div (x : Nat) : rawMantissa x = x * 2 ^ 24 / 256 ^ rawSize x := by
  have h24 : (2 : Nat) ^ 24 = 256 ^ 3 := rfl
  unfold rawMantissa
  split
  · next hs =>
    have e : x * 2 ^ 24 = 256 ^ rawSize x * (x * 256 ^ (3 - rawSize x)) := by
      rw [h24, show (256 : Nat) ^ 3 = 256 ^ rawSize x * 256 ^ (3 - rawSize x) by
        rw [← Nat.pow_add, Nat.add_sub_cancel' hs]]
      ring
    rw [e, Nat.mul_div_cancel_left _ (by positivity)]
  · next hs =>
    rw [h24, show 256 ^ rawSize x = 256 ^ 3 * 256 ^ (rawSize x - 3) by
      rw [← Nat.pow_add]; congr 1; omega, Nat.mul_comm x,
      Nat.mul_div_mul_left _ _ (by positivity)]

theorem compactMantissa_eq_div (x : Nat) :
    compactMantissa x = x * 2 ^ 24 / 256 ^ compactSize x := by
  unfold compactMantissa compactSize
  split
  · rw [rawMantissa_eq_div, Nat.div_div_eq_div_mul, ← Nat.pow_succ]
  · exact rawMantissa_eq_div x

/-- Up to three bytes nothing is cut off: the mantissa is the value moved up. -/
theorem compactMantissa_mul_of_le (x : Nat) (h : compactSize x ≤ 3) :
    compactMantissa x * 256 ^ compactSize x = x * 2 ^ 24 := by
  have hr : rawSize x ≤ 3 := by unfold compactSize at h; split at h <;> omega
  obtain ⟨k, hk⟩ : ∃ k, 3 = rawSize x + k := ⟨3 - rawSize x, by omega⟩
  have hraw : rawMantissa x = x * 256 ^ k := by
    rw [rawMantissa, if_pos hr, show 3 - rawSize x = k by omega]
  have h24 : x * 2 ^ 24 = x * 256 ^ k * 256 ^ rawSize x := by
    rw [Nat.mul_assoc, ← Nat.pow_add, Nat.add_comm, ← hk]; rfl
  unfold compactMantissa
  unfold compactSize at h ⊢
  split
  · next hsign =>
    rw [if_pos hsign] at h
    -- the sign byte was added, so the value had been moved up by at least one byte
    obtain ⟨j, rfl⟩ : ∃ j, k = j + 1 := ⟨k - 1, by omega⟩
    rw [hraw, h24, Nat.pow_succ, ← Nat.mul_assoc, Nat.mul_div_cancel _ (by decide : 0 < 256),
      Nat.pow_succ]
    ring
  · rw [hraw, h24]

theorem le_compactMantissa (x : Nat) (hx : x ≠ 0) : 2 ^ 15 ≤ compactMantissa x := by
  have := le_rawMantissa x hx
  unfold compactMantissa; split <;> omega

theorem rawSize_le_of_lt (x k : Nat) (h : x < 2 ^ 23 * 256 ^ k) : rawSize x ≤ k + 3 := by
  have hs : Nat.size x ≤ 23 + 8 * k := by
    rw [Nat.size_le, Nat.pow_add, two_pow_eight_mul]; exact h
  unfold rawSize; omega

/-- A value below `2^23 * 256^k` is encoded with a size of at most `k + 3`. -/
theorem compactSize_le_of_lt (x k : Nat) (h : x < 2 ^ 23 * 256 ^ k) : compactSize x ≤ k + 3 := by
  have hr := rawSize_le_of_lt x k h
  unfold compactSize
  split
  · next hsign =>
    -- a full-width first size leaves the mantissa below 2^23, so no sign byte was added
    rcases Nat.lt_or_ge (rawSize x) (k + 3) with hlt | hge
    · omega
    · exfalso
      have hraw : rawMantissa x < 2 ^ 23 := by
        rw [rawMantissa_eq_div, Nat.div_lt_iff_lt_mul (by positivity),
          show rawSize x = 3 + k by omega, Nat.pow_add]
        calc x * 2 ^ 24 < 2 ^ 23 * 256 ^ k * 2 ^ 24 := Nat.mul_lt_mul_of_pos_right h (by decide)
          _ = 2 ^ 23 * (256 ^ 3 * 256 ^ k) := by ring
      omega
  · exact hr

/-- `SetCompact`'s value before the cut to 256 bits is `m * 256^s / 2^24`. -/
theorem cWord_mul_eq_div (n : UInt32) :
    cWord n * 256 ^ (cSize n - 3) = cMantissa n * 256 ^ cSize n / 2 ^ 24 := by
  unfold cWord
  split
  · next hs =>
    rw [Nat.sub_eq_zero_of_le hs, Nat.pow_zero, Nat.mul_one,
      show (2 : Nat) ^ 24 = 256 ^ (3 - cSize n) * 256 ^ cSize n by
        rw [← Nat.pow_add, Nat.sub_add_cancel hs]; rfl,
      Nat.mul_div_mul_right _ _ (by positivity)]
  · next hs =>
    rw [show 256 ^ cSize n = 256 ^ 3 * 256 ^ (cSize n - 3) by rw [← Nat.pow_add]; congr 1; omega,
      Nat.mul_left_comm, show (2 : Nat) ^ 24 = 256 ^ 3 from rfl,
      Nat.mul_div_cancel_left _ (by positivity)]

/-- Decoding what `GetCompact` wrote clears the bits below `8 * (size - 3)`. -/
theorem compactMantissa_decode (x : Nat) :
    compactMantissa x * 256 ^ compactSize x / 2 ^ 24 =
      x / 256 ^ (compactSize x - 3) * 256 ^ (compactSize x - 3) := by
  by_cases hs : compactSize x ≤ 3
  · rw [compactMantissa_mul_of_le x hs, Nat.mul_div_cancel _ (by positivity),
      Nat.sub_eq_zero_of_le hs, Nat.pow_zero, Nat.div_one, Nat.mul_one]
  · have e : 256 ^ compactSize x = 2 ^ 24 * 256 ^ (compactSize x - 3) := by
      rw [show (2 : Nat) ^ 24 = 256 ^ 3 from rfl, ← Nat.pow_add]; congr 1; omega
    have h1 : x * 2 ^ 24 / (2 ^ 24 * 256 ^ (compactSize x - 3)) = x / 256 ^ (compactSize x - 3) := by
      rw [Nat.mul_comm x, Nat.mul_div_mul_left _ _ (by decide)]
    have h2 : x / 256 ^ (compactSize x - 3) * (2 ^ 24 * 256 ^ (compactSize x - 3)) / 2 ^ 24 =
        x / 256 ^ (compactSize x - 3) * 256 ^ (compactSize x - 3) := by
      rw [Nat.mul_left_comm, Nat.mul_div_cancel_left _ (by decide)]
    rw [compactMantissa_eq_div, e, h1, h2]

/-- A value `w * 256^k` with a 23-bit `w` survives encoding and decoding unchanged. -/
theorem compactMantissa_decode_of_mul (w k : Nat) (hw : w < 2 ^ 23) :
    compactMantissa (w * 256 ^ k) * 256 ^ compactSize (w * 256 ^ k) / 2 ^ 24 = w * 256 ^ k := by
  have hsz := compactSize_le_of_lt (w * 256 ^ k) k
    (Nat.mul_lt_mul_of_pos_right hw (by positivity))
  rw [compactMantissa_decode]
  apply Nat.div_mul_cancel
  exact Dvd.dvd.mul_left (Nat.pow_dvd_pow 256 (by omega)) w

/-- Two mantissas of 16 to 23 significant bits at equal scaled values are equal. -/
theorem mantissa_unique {m₁ m₂ s₁ s₂ : Nat} (h₁ : 2 ^ 15 ≤ m₁) (h₁' : m₁ < 2 ^ 23)
    (h₂ : 2 ^ 15 ≤ m₂) (h₂' : m₂ < 2 ^ 23) (h : m₁ * 256 ^ s₁ = m₂ * 256 ^ s₂) :
    m₁ = m₂ ∧ s₁ = s₂ := by
  -- a larger size would need a mantissa 256 times larger, past 2^23
  have key : ∀ {a b : Nat} {s t : Nat}, 2 ^ 15 ≤ b → a < 2 ^ 23 → a * 256 ^ s = b * 256 ^ t → ¬ s < t := by
    intro a b s t hb ha he hst
    obtain ⟨d, rfl⟩ : ∃ d, t = s + d + 1 := ⟨t - s - 1, by omega⟩
    have : a = b * 256 ^ (d + 1) := by
      apply Nat.eq_of_mul_eq_mul_right (show 0 < 256 ^ s by positivity)
      rw [he, Nat.pow_add, Nat.pow_add, Nat.pow_add]; ring
    have : b * 256 ≤ b * 256 ^ (d + 1) := Nat.mul_le_mul_left b (Nat.le_self_pow (by omega) 256)
    omega
  have hs : s₁ = s₂ := by
    rcases lt_trichotomy s₁ s₂ with hlt | heq | hgt
    · exact absurd hlt (key h₂ h₁' h)
    · exact heq
    · exact absurd hgt (key h₁ h₂' h.symm)
  subst hs
  exact ⟨Nat.eq_of_mul_eq_mul_right (by positivity) h, rfl⟩

/-! ## `GetCompact` then `SetCompact` -/

theorem getCompact_fields (a : ArithUint256) :
    cSize (getCompact a false) = compactSize a.toNat ∧
      cMantissa (getCompact a false) = compactMantissa a.toNat ∧
      (getCompact a false).toNat / 2 ^ 23 % 2 = 0 := by
  have h := getCompact_toNat a
  have hm := compactMantissa_lt a.toNat
  unfold cSize cMantissa
  omega

/-- The decoded word times its scale never exceeds the encoded value. -/
theorem cWord_getCompact_le (a : ArithUint256) :
    cWord (getCompact a false) * 256 ^ (cSize (getCompact a false) - 3) ≤ a.toNat := by
  obtain ⟨hs, hm, -⟩ := getCompact_fields a
  rw [cWord_mul_eq_div, hs, hm, compactMantissa_decode]
  exact Nat.div_mul_le_self _ _

theorem setCompact_getCompact_value (a : ArithUint256) :
    (setCompact (getCompact a false)).value.toNat =
      a.toNat / 256 ^ (compactSize a.toNat - 3) * 256 ^ (compactSize a.toNat - 3) := by
  obtain ⟨hs, hm, -⟩ := getCompact_fields a
  have hle := cWord_getCompact_le a
  rw [setCompact_value_toNat, Nat.mod_eq_of_lt (lt_of_le_of_lt hle a.isLt), cWord_mul_eq_div, hs,
    hm, compactMantissa_decode]

theorem setCompact_getCompact_fNegative (a : ArithUint256) :
    (setCompact (getCompact a false)).fNegative = false := by
  obtain ⟨-, -, hsign⟩ := getCompact_fields a
  rw [setCompact_fNegative, decide_eq_false_iff_not]
  omega

theorem setCompact_getCompact_fOverflow (a : ArithUint256) :
    (setCompact (getCompact a false)).fOverflow = false := by
  obtain ⟨hs, -, -⟩ := getCompact_fields a
  have hle := cWord_getCompact_le a
  have hsz := compactSize_le a.toNat a.isLt
  rw [setCompact_fOverflow, decide_eq_false_iff_not]
  rintro ⟨-, h⟩
  rw [hs] at hle h
  -- only a 33-byte encoding could overflow, and its word is below 2^16
  rcases h with h | ⟨-, h⟩ | ⟨hw, h33⟩
  · omega
  · omega
  · have h33' : compactSize a.toNat = 33 := by omega
    rw [h33'] at hle
    have := a.isLt
    have : cWord (getCompact a false) * 256 ^ 30 < 2 ^ 16 * 256 ^ 30 := by
      calc _ ≤ a.toNat := hle
        _ < 2 ^ 256 := a.isLt
        _ = 2 ^ 16 * 256 ^ 30 := by norm_num
    have := Nat.lt_of_mul_lt_mul_right this
    omega

/-! ## `SetCompact` then `GetCompact` -/

/-- A compact word is canonical when it is what `GetCompact` writes for its own value: zero,
or a clear sign bit, a mantissa of at least `0x8000`, and below size 3 no mantissa bits
that `SetCompact` shifts out. -/
def CanonicalCompact (n : UInt32) : Prop :=
  n = 0 ∨ (n.toNat / 2 ^ 23 % 2 = 0 ∧ 2 ^ 15 ≤ cMantissa n ∧ 256 ^ (3 - cSize n) ∣ cMantissa n)

instance : DecidablePred CanonicalCompact := fun _ => inferInstanceAs (Decidable (_ ∨ _))

/-- Without the overflow flag the shift in `SetCompact` loses no bits. -/
theorem setCompact_value_of_not_overflow (n : UInt32) (ho : (setCompact n).fOverflow = false) :
    (setCompact n).value.toNat = cWord n * 256 ^ (cSize n - 3) := by
  rw [setCompact_fOverflow, decide_eq_false_iff_not] at ho
  have hw : cWord n < 2 ^ 23 := lt_of_le_of_lt (cWord_le n) (cMantissa_lt n)
  have hlt : cWord n * 256 ^ (cSize n - 3) < 2 ^ 256 := by
    by_cases h0 : cWord n = 0
    · rw [h0, Nat.zero_mul]; positivity
    by_cases hs : cSize n ≤ 32
    · calc cWord n * 256 ^ (cSize n - 3) ≤ cWord n * 256 ^ 29 :=
            Nat.mul_le_mul_left _ (Nat.pow_le_pow_right (by decide) (by omega))
        _ < 2 ^ 23 * 256 ^ 29 := Nat.mul_lt_mul_of_pos_right hw (by positivity)
        _ ≤ 2 ^ 256 := by norm_num
    · -- sizes 33 and 34 pass the overflow test only with a short word
      have hs' : cSize n = 33 ∧ cWord n ≤ 65535 ∨ cSize n = 34 ∧ cWord n ≤ 255 := by omega
      rcases hs' with ⟨h33, hw'⟩ | ⟨h34, hw'⟩
      · rw [h33]
        calc cWord n * 256 ^ (33 - 3) < 2 ^ 16 * 256 ^ 30 :=
              Nat.mul_lt_mul_of_pos_right (by omega) (by positivity)
          _ = 2 ^ 256 := by norm_num
      · rw [h34]
        calc cWord n * 256 ^ (34 - 3) < 2 ^ 8 * 256 ^ 31 :=
              Nat.mul_lt_mul_of_pos_right (by omega) (by positivity)
          _ = 2 ^ 256 := by norm_num
  rw [setCompact_value_toNat, Nat.mod_eq_of_lt hlt]

/-- When decoding the encoding gives the value back, the mantissa is exactly the value
moved to its scale. -/
theorem compactMantissa_mul_of_decode (x : Nat)
    (h : x / 256 ^ (compactSize x - 3) * 256 ^ (compactSize x - 3) = x) :
    compactMantissa x * 256 ^ compactSize x = x * 2 ^ 24 := by
  by_cases hs : compactSize x ≤ 3
  · exact compactMantissa_mul_of_le x hs
  · have e : 256 ^ compactSize x = 2 ^ 24 * 256 ^ (compactSize x - 3) := by
      rw [show (2 : Nat) ^ 24 = 256 ^ 3 from rfl, ← Nat.pow_add]; congr 1; omega
    rw [compactMantissa_eq_div, e, Nat.mul_comm x, Nat.mul_div_mul_left _ _ (by decide)]
    calc x / 256 ^ (compactSize x - 3) * (2 ^ 24 * 256 ^ (compactSize x - 3))
        = 2 ^ 24 * (x / 256 ^ (compactSize x - 3) * 256 ^ (compactSize x - 3)) := by ring
      _ = 2 ^ 24 * x := by rw [h]

theorem getCompact_zero : getCompact 0 false = 0 := by
  apply UInt32.toNat_inj.mp
  rw [getCompact_toNat]
  simp [compactMantissa, compactSize, rawMantissa, rawSize]

theorem getCompact_canonical (a : ArithUint256) : CanonicalCompact (getCompact a false) := by
  by_cases ha : a = 0
  · subst ha; exact Or.inl getCompact_zero
  have hx : a.toNat ≠ 0 := fun h => ha (BitVec.eq_of_toNat_eq (by simpa using h))
  obtain ⟨hs, hm, hsign⟩ := getCompact_fields a
  refine Or.inr ⟨hsign, hm ▸ le_compactMantissa _ hx, ?_⟩
  rw [hs, hm]
  by_cases hle : compactSize a.toNat ≤ 3
  · -- below size 3 the mantissa is the value moved up by `3 - size` bytes
    have e := compactMantissa_mul_of_le a.toNat hle
    have e' : a.toNat * 2 ^ 24 = a.toNat * 256 ^ (3 - compactSize a.toNat) * 256 ^ compactSize a.toNat := by
      rw [Nat.mul_assoc, ← Nat.pow_add, Nat.sub_add_cancel hle]; rfl
    rw [e', Nat.mul_right_cancel_iff (by positivity)] at e
    exact ⟨a.toNat, by rw [e, Nat.mul_comm]⟩
  · rw [Nat.sub_eq_zero_of_le (by omega), Nat.pow_zero]
    exact Nat.one_dvd _

/-- Decoding, encoding and decoding again gives the first decoding back. -/
theorem setCompact_getCompact_setCompact (n : UInt32) (ho : (setCompact n).fOverflow = false) :
    (setCompact (getCompact (setCompact n).value false)).value = (setCompact n).value := by
  have hw : cWord n < 2 ^ 23 := lt_of_le_of_lt (cWord_le n) (cMantissa_lt n)
  apply BitVec.eq_of_toNat_eq
  rw [setCompact_getCompact_value, setCompact_value_of_not_overflow n ho, ← compactMantissa_decode,
    compactMantissa_decode_of_mul _ _ hw]

theorem getCompact_setCompact_of_canonical (n : UInt32) (hc : CanonicalCompact n)
    (ho : (setCompact n).fOverflow = false) :
    getCompact (setCompact n).value false = n := by
  rcases hc with rfl | ⟨hsign, hm, hdvd⟩
  · have : (setCompact 0).value = 0 := by decide
    rw [this, getCompact_zero]
  have hw : cWord n < 2 ^ 23 := lt_of_le_of_lt (cWord_le n) (cMantissa_lt n)
  have hx := setCompact_value_of_not_overflow n ho
  -- a canonical word decodes exactly: no mantissa bit is shifted out
  have hd : 2 ^ 24 ∣ cMantissa n * 256 ^ cSize n := by
    by_cases hs : cSize n ≤ 3
    · obtain ⟨q, hq⟩ := hdvd
      exact ⟨q, by rw [hq, Nat.mul_right_comm, ← Nat.pow_add, Nat.sub_add_cancel hs]; rfl⟩
    · exact ⟨cMantissa n * 256 ^ (cSize n - 3), by
        rw [show 256 ^ cSize n = 256 ^ 3 * 256 ^ (cSize n - 3) by
          rw [← Nat.pow_add]; congr 1; omega]; ring⟩
  have hexact : (setCompact n).value.toNat * 2 ^ 24 = cMantissa n * 256 ^ cSize n := by
    rw [hx, cWord_mul_eq_div, Nat.div_mul_cancel hd]
  have hdec : (setCompact n).value.toNat / 256 ^ (compactSize (setCompact n).value.toNat - 3) *
      256 ^ (compactSize (setCompact n).value.toNat - 3) = (setCompact n).value.toNat := by
    rw [hx, ← compactMantissa_decode, compactMantissa_decode_of_mul _ _ hw]
  have henc := compactMantissa_mul_of_decode _ hdec
  have hx0 : (setCompact n).value.toNat ≠ 0 := by
    intro h0
    rw [h0, Nat.zero_mul] at hexact
    have : 0 < cMantissa n * 256 ^ cSize n := Nat.mul_pos (by omega) (by positivity)
    omega
  -- both mantissas are 16 to 23 bits wide at the same scaled value, so they agree
  obtain ⟨hmm, hss⟩ := mantissa_unique (le_compactMantissa _ hx0) (compactMantissa_lt _) hm
    (cMantissa_lt n) (henc.trans hexact)
  apply UInt32.toNat_inj.mp
  rw [getCompact_toNat, hmm, hss]
  unfold cMantissa cSize at *
  omega

theorem getCompact_setCompact_eq_iff (n : UInt32) (ho : (setCompact n).fOverflow = false) :
    getCompact (setCompact n).value false = n ↔ CanonicalCompact n := by
  constructor
  · intro h
    rw [← h]
    exact getCompact_canonical _
  · intro hc
    exact getCompact_setCompact_of_canonical n hc ho

/-! ## The two directions together -/

theorem compact_roundtrip :
    (∀ a : ArithUint256,
      (setCompact (getCompact a false)).fNegative = false ∧
      (setCompact (getCompact a false)).fOverflow = false ∧
      (setCompact (getCompact a false)).value ≤ a ∧
      (setCompact (getCompact a false)).value.toNat =
        a.toNat / 256 ^ (cSize (getCompact a false) - 3) * 256 ^ (cSize (getCompact a false) - 3) ∧
      a.toNat - (setCompact (getCompact a false)).value.toNat <
        256 ^ (cSize (getCompact a false) - 3)) ∧
    (∀ n : UInt32, (setCompact n).fNegative = false → (setCompact n).fOverflow = false →
      (setCompact (getCompact (setCompact n).value false)).value = (setCompact n).value ∧
      (getCompact (setCompact n).value false = n ↔ CanonicalCompact n)) := by
  refine ⟨fun a => ?_, fun n _ ho => ⟨setCompact_getCompact_setCompact n ho,
    getCompact_setCompact_eq_iff n ho⟩⟩
  obtain ⟨hs, -, -⟩ := getCompact_fields a
  have hv := setCompact_getCompact_value a
  rw [← hs] at hv
  have hpos : 0 < 256 ^ (cSize (getCompact a false) - 3) := by positivity
  have hmod := Nat.div_add_mod a.toNat (256 ^ (cSize (getCompact a false) - 3))
  have hlt := Nat.mod_lt a.toNat hpos
  refine ⟨setCompact_getCompact_fNegative a, setCompact_getCompact_fOverflow a, ?_, hv, ?_⟩
  · rw [BitVec.le_def, hv]
    exact Nat.div_mul_le_self _ _
  · rw [hv, Nat.mul_comm]
    omega

theorem compact_roundtrip_difficulty_one :
    (setCompact 0x1d00ffff).fNegative = false ∧ (setCompact 0x1d00ffff).fOverflow = false ∧
      (getCompact (setCompact 0x1d00ffff).value false = 0x1d00ffff ↔
        CanonicalCompact 0x1d00ffff) :=
  ⟨by decide, by decide, (compact_roundtrip.2 0x1d00ffff (by decide) (by decide)).2⟩

/-- Encoding `0x8000ff` keeps 16 significant bits, neither 23 nor 24; `0x03000001` (size 3,
nothing shifted out) and `0x01123456` (a non-zero top mantissa byte) decode without a flag
yet do not come back from `GetCompact`. -/
theorem compact_normal_form_counterexample :
    (setCompact (getCompact 0x8000ff false)).value ≠ 0x8000fe ∧
    (setCompact (getCompact 0x8000ff false)).value ≠ 0x8000ff ∧
    cSize 0x03000001 ≤ 3 ∧ cMantissa 0x03000001 % 256 ^ (3 - cSize 0x03000001) = 0 ∧
    (setCompact 0x03000001).fNegative = false ∧ (setCompact 0x03000001).fOverflow = false ∧
    getCompact (setCompact 0x03000001).value false ≠ 0x03000001 ∧
    cMantissa 0x01123456 / 2 ^ 16 ≠ 0 ∧
    (setCompact 0x01123456).fNegative = false ∧ (setCompact 0x01123456).fOverflow = false ∧
    getCompact (setCompact 0x01123456).value false ≠ 0x01123456 := by
  decide +kernel

end Veles
