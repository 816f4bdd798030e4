import Mathlib

/-!
# `arith_uint256`: 256-bit unsigned arithmetic

`base_uint<256>` (arith_uint256.h, arith_uint256.cpp) keeps eight 32-bit limbs
and computes modulo 2^256.  A value here is a `BitVec 256`; `+`, `-`, `*`,
`<<<`, `>>>` and the comparisons are the `BitVec` ones.  The operations below
are those whose C++ meaning is not a `BitVec` operator as it stands:

* `ofU64`: `base_uint(uint64_t)` and `operator=(uint64_t)`;
* `mulU32`: `operator*=(uint32_t)`, the overload C++ picks for every scalar
  factor the node multiplies by (an `int64_t` factor is first truncated to 32 bits);
* `div`: `operator/=`, which throws `uint_error("Division by zero")`;
* `bits`: the index of the highest set bit plus one;
* `getLow64`: the two low limbs.

Each comes with its `toNat` equation; later modules reason on `Nat` through them.
-/

namespace Veles

/-- `arith_uint256`. -/
abbrev ArithUint256 := BitVec 256

namespace ArithUint256

/-- `base_uint(uint64_t b)`: the two low limbs are `b`, the others zero. -/
def ofU64 (b : UInt64) : ArithUint256 := BitVec.ofNat 256 b.toNat

/-- `operator*=(uint32_t b32)`: the limb loop with a 64-bit carry, dropping the last carry. -/
def mulU32 (a : ArithUint256) (b32 : UInt32) : ArithUint256 := a * BitVec.ofNat 256 b32.toNat

/-- `operator/=`: a zero divisor throws, anything else gives the floor quotient. -/
def div (a b : ArithUint256) : Except String ArithUint256 :=
  if b = 0 then .error "Division by zero" else .ok (a / b)

/-- The scan of `bits()`, from bit `pos - 1` down to bit 0. -/
def bitsFrom (a : ArithUint256) : Nat → Nat
  | 0 => 0
  | pos + 1 => if a.getLsbD pos then pos + 1 else bitsFrom a pos

/-- `bits()`: the position of the highest bit set plus one, or zero if the value is zero. -/
def bits (a : ArithUint256) : Nat := bitsFrom a 256

/-- `GetLow64()`: `pn[0] | (uint64_t)pn[1] << 32`. -/
def getLow64 (a : ArithUint256) : UInt64 := UInt64.ofNat a.toNat

/-! ## `toNat` equations -/

@[simp] theorem toNat_ofU64 (b : UInt64) : (ofU64 b).toNat = b.toNat := by
  have := b.toNat_lt
  simp only [ofU64, BitVec.toNat_ofNat]
  exact Nat.mod_eq_of_lt (by omega)

@[simp] theorem toNat_mulU32 (a : ArithUint256) (b32 : UInt32) :
    (mulU32 a b32).toNat = a.toNat * b32.toNat % 2 ^ 256 := by
  have := b32.toNat_lt
  simp only [mulU32, BitVec.toNat_mul, BitVec.toNat_ofNat]
  rw [Nat.mod_eq_of_lt (show b32.toNat < 2 ^ 256 by omega)]

@[simp] theorem div_zero (a : ArithUint256) : div a 0 = .error "Division by zero" := rfl

theorem div_ok {a b : ArithUint256} (hb : b ≠ 0) : div a b = .ok (a / b) := by
  rw [div, if_neg hb]

theorem div_eq_ok {a b r : ArithUint256} : div a b = .ok r ↔ b ≠ 0 ∧ r = a / b := by
  by_cases hb : b = 0
  · subst hb
    simp only [div_zero, ne_eq, not_true_eq_false, false_and, iff_false]
    exact fun h => nomatch h
  · rw [div_ok hb]
    constructor
    · intro h
      cases h
      exact ⟨hb, rfl⟩
    · rintro ⟨-, rfl⟩
      rfl


@[simp] theorem toNat_getLow64 (a : ArithUint256) : (getLow64 a).toNat = a.toNat % 2 ^ 64 := by
  simp [getLow64]

/-- The scan up to `pos` finds the bit length of the low `pos` bits. -/
theorem bitsFrom_eq_size (a : ArithUint256) (pos : Nat) :
    bitsFrom a pos = Nat.size (a.toNat % 2 ^ pos) := by
  induction pos with
  | zero => simp [bitsFrom, Nat.mod_one]
  | succ pos ih =>
    unfold bitsFrom
    have hsplit : a.toNat % 2 ^ (pos + 1) =
        2 ^ pos * (a.toNat / 2 ^ pos % 2) + a.toNat % 2 ^ pos := by
      rw [Nat.pow_succ, Nat.mod_mul, Nat.add_comm]
    have hlow : a.toNat % 2 ^ pos < 2 ^ pos := Nat.mod_lt _ (by positivity)
    split
    · next hbit =>
      -- bit `pos` is set, so the low `pos + 1` bits have exactly `pos + 1` bits
      have h1 : a.toNat / 2 ^ pos % 2 = 1 := by
        rw [BitVec.getLsbD, Nat.testBit_eq_decide_div_mod_eq] at hbit
        simpa using hbit
      rw [hsplit, h1, Nat.mul_one]
      apply le_antisymm
      · exact Nat.lt_size.mpr (by omega)
      · rw [Nat.size_le, Nat.pow_succ]; omega
    · next hbit =>
      have h0 : a.toNat / 2 ^ pos % 2 = 0 := by
        rw [BitVec.getLsbD, Nat.testBit_eq_decide_div_mod_eq] at hbit
        simp only [decide_eq_true_eq] at hbit
        omega
      rw [ih, hsplit, h0]
      simp

theorem bits_eq_size (a : ArithUint256) : bits a = Nat.size a.toNat := by
  rw [bits, bitsFrom_eq_size, Nat.mod_eq_of_lt a.isLt]

theorem toNat_lt_two_pow_bits (a : ArithUint256) : a.toNat < 2 ^ bits a := by
  rw [bits_eq_size]; exact Nat.lt_size_self _

theorem two_pow_bits_le (a : ArithUint256) (h : a ≠ 0) : 2 ^ (bits a - 1) ≤ a.toNat := by
  have hpos : 0 < a.toNat := by
    rcases Nat.eq_zero_or_pos a.toNat with h0 | h0
    · exact absurd (BitVec.eq_of_toNat_eq (by simpa using h0)) h
    · exact h0
  rw [bits_eq_size, ← Nat.lt_size]
  have := Nat.size_pos.mpr hpos
  omega

theorem bits_le (a : ArithUint256) : bits a ≤ 256 := by
  rw [bits_eq_size, Nat.size_le]; exact a.isLt

/-! ## Integer operands

An `unsigned int` or `int64_t` operand of `/` becomes a `base_uint` through
`base_uint(uint64_t)`; an `int64_t` operand of `*=` becomes a `uint32_t`. -/

/-- `base_uint(uint64_t)` of an `int64_t`. -/
def ofInt64 (x : Int) : ArithUint256 := ofU64 (UInt64.ofInt x)

theorem ne_zero_of_toNat_pos {a : ArithUint256} (h : 0 < a.toNat) : a ≠ 0 := by
  rintro rfl
  simp at h

theorem toNat_ofU64_ofNat {n : Nat} (h : n < 2 ^ 64) : (ofU64 (UInt64.ofNat n)).toNat = n := by
  rw [toNat_ofU64, UInt64.toNat_ofNat', Nat.mod_eq_of_lt h]

theorem toNat_ofInt64 {x : Int} (h0 : 0 ≤ x) (h : x < 2 ^ 64) : (ofInt64 x).toNat = x.toNat := by
  rw [ofInt64, toNat_ofU64, UInt64.ofInt, UInt64.toNat_ofNat', Int.emod_eq_of_lt h0 h]
  exact Nat.mod_eq_of_lt (by omega)

/-- An `int64_t` converted to `uint32_t` is taken modulo `2^32`. -/
theorem toNat_uint32_ofInt_eq (x : Int) : (UInt32.ofInt x).toNat = (x % 2 ^ 32).toNat := by
  rw [UInt32.ofInt, UInt32.toNat_ofNat']
  exact Nat.mod_eq_of_lt (by omega)

theorem toNat_uint32_ofInt {x : Int} (h0 : 0 ≤ x) (h : x < 2 ^ 32) :
    (UInt32.ofInt x).toNat = x.toNat := by
  rw [toNat_uint32_ofInt_eq, Int.emod_eq_of_lt h0 h]

/-! ## Bounds that keep a product from wrapping -/

theorem udiv_le_self (a b : ArithUint256) : a / b ≤ a := by
  rw [BitVec.le_def, BitVec.toNat_udiv]
  exact Nat.div_le_self _ _

/-- A value below `c / e` times `e` stays below `c`: `operator*=` does not wrap there. -/
theorem mulU32_le_of_lt_div {a c : ArithUint256} {e : UInt32} (h : a < c / ofU64 e.toUInt64) :
    mulU32 a e ≤ c := by
  rw [BitVec.lt_def, BitVec.toNat_udiv, toNat_ofU64, UInt32.toNat_toUInt64] at h
  have he : 0 < e.toNat := by
    rcases Nat.eq_zero_or_pos e.toNat with h0 | h0
    · rw [h0, Nat.div_zero] at h
      omega
    · exact h0
  have hmul : (a.toNat + 1) * e.toNat ≤ c.toNat := (Nat.le_div_iff_mul_le he).mp h
  have hc := c.isLt
  rw [BitVec.le_def, toNat_mulU32, Nat.mod_eq_of_lt (by nlinarith)]
  nlinarith

/-- A value at most `c >>> n` shifted left by `n` stays at most `c`: `operator<<=` does not
drop a bit there. -/
theorem shiftLeft_le_of_le_shiftRight {a c : ArithUint256} {n : Nat} (h : a ≤ c >>> n) :
    a <<< n ≤ c := by
  rw [BitVec.le_def, BitVec.toNat_ushiftRight, Nat.shiftRight_eq_div_pow] at h
  have hmul : a.toNat * 2 ^ n ≤ c.toNat := (Nat.le_div_iff_mul_le (Nat.two_pow_pos n)).mp h
  have hc := c.isLt
  rw [BitVec.le_def, BitVec.toNat_shiftLeft, Nat.shiftLeft_eq, Nat.mod_eq_of_lt (by omega)]
  exact hmul

end ArithUint256

end Veles
