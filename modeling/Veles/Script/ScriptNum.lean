import Mathlib
import Veles.Lib.SignMagnitude

/-!
# Script numbers

`CScriptNum` (script/script.h) holds an `int64_t`.  `serialize` writes it as the bytes of its
magnitude, least significant first, with the sign in the top bit of the last byte, or in a
byte of its own when the magnitude uses that bit; `set_vch` assembles such a string back into
an `int64_t`; the constructor from bytes first refuses a string longer than `nMaxNumSize` and,
under `fRequireMinimal`, one that is not the shortest.  `CastToBool` (script/interpreter.cpp)
reads a stack element as a truth value.

The strings are those of `SignMagnitude`, and on what an `int64_t` holds the code computes
its `encode` and `decode`:

    n ≠ INT64_MIN → serialize n = encode n.toInt                  (serialize_eq_encode)
    vch.length ≤ 8 → (setVch vch).toInt = decode vch              (toInt_setVch)
    castToBool vch = false ↔ decode vch = 0                       (castToBool_eq_false_iff)
-/

namespace Veles

open SignMagnitude

/-- `CScriptNum`. -/
structure CScriptNum where
  m_value : Int64
  deriving DecidableEq, Repr

namespace CScriptNum

/-- `nDefaultMaxNumSize`. -/
def nDefaultMaxNumSize : Nat := 4

/-- The loop `while (absvalue) { result.push_back(absvalue & 0xff); absvalue >>= 8; }`, for at
most `fuel` passes. -/
def serializeLoop : Nat → UInt64 → List UInt8 → List UInt8
  | 0, _, result => result
  | fuel + 1, absvalue, result =>
    if absvalue = 0 then result
    else serializeLoop fuel (absvalue >>> 8) (result ++ [(absvalue &&& 0xff).toUInt8])

/-- `CScriptNum::serialize`.  Eight passes of the loop take any `uint64_t` to zero. -/
def serialize (value : Int64) : List UInt8 :=
  if value = 0 then [] else
  let neg := decide (value < 0)
  let absvalue : UInt64 := (if neg then -value else value).toUInt64
  let result := serializeLoop 8 absvalue []
  if result.getLastD 0 &&& 0x80 ≠ 0 then result ++ [if neg then 0x80 else 0]
  else if neg then result.dropLast ++ [result.getLastD 0 ||| 0x80]
  else result

/-- The first `n` passes of the loop of `set_vch`,
`result |= static_cast<int64_t>(vch[i]) << 8*i`, on the bits of the `int64_t`. -/
def setVchLoop (vch : List UInt8) (n : Nat) : UInt64 :=
  (List.range n).foldl (fun result i => result ||| (vch.getD i 0).toUInt64 <<< (8 * i).toUInt64) 0

/-- `CScriptNum::set_vch`. -/
def setVch (vch : List UInt8) : Int64 :=
  if vch = [] then 0 else
  let result := setVchLoop vch vch.length
  if vch.getLastD 0 &&& 0x80 ≠ 0 then
    -((result &&& ~~~((0x80 : UInt64) <<< (8 * (vch.length - 1)).toUInt64)).toInt64)
  else result.toInt64

/-- The constructor `CScriptNum(vch, fRequireMinimal, nMaxNumSize)`, with its two
`scriptnum_error`s. -/
def ofVch (vch : List UInt8) (fRequireMinimal : Bool) (nMaxNumSize : Nat := nDefaultMaxNumSize) :
    Except String CScriptNum :=
  if vch.length > nMaxNumSize then .error "script number overflow"
  else if fRequireMinimal ∧ vch.length > 0 ∧ vch.getLastD 0 &&& 0x7f = 0 ∧
      (vch.length ≤ 1 ∨ vch.getD (vch.length - 2) 0 &&& 0x80 = 0) then
    .error "non-minimally encoded script number"
  else .ok ⟨setVch vch⟩

/-- `CScriptNum::getvch`. -/
def getvch (n : CScriptNum) : List UInt8 := serialize n.m_value

end CScriptNum

/-- `CastToBool`: the first nonzero byte makes the element true, unless it is a last `0x80`, a
negative zero. -/
def castToBool : List UInt8 → Bool
  | [] => false
  | b :: rest => if b ≠ 0 then !(rest.isEmpty && b == 0x80) else castToBool rest

namespace CScriptNum

/-! ## Writing -/

theorem toUInt8_and_0xff (a : UInt64) : (a &&& 0xff).toUInt8 = (a.toNat % 256).toUInt8 := by
  apply UInt8.toNat_inj.mp
  rw [UInt64.toNat_toUInt8, UInt64.toNat_and, show (0xff : UInt64).toNat = 2 ^ 8 - 1 from rfl,
    Nat.and_two_pow_sub_one_eq_mod]
  simp

/-- The loop writes the magnitude of what it is given, once it has passes enough. -/
theorem serializeLoop_eq (fuel : Nat) (absvalue : UInt64) (result : List UInt8)
    (h : absvalue.toNat < 256 ^ fuel) :
    serializeLoop fuel absvalue result = result ++ magnitude absvalue.toNat := by
  induction fuel generalizing absvalue result with
  | zero =>
    have : absvalue.toNat = 0 := by simpa using h
    simp [serializeLoop, this, magnitude]
  | succ fuel ih =>
    by_cases ha : absvalue = 0
    · simp [serializeLoop, ha, magnitude]
    have hne : absvalue.toNat ≠ 0 := fun h0 => ha (UInt64.toNat_inj.mp (by simpa using h0))
    have hshift : (absvalue >>> 8).toNat = absvalue.toNat / 256 := by
      rw [UInt64.toNat_shiftRight, Nat.shiftRight_eq_div_pow]
      rfl
    have hlt : (absvalue >>> 8).toNat < 256 ^ fuel := by
      rw [hshift, Nat.div_lt_iff_lt_mul (by omega), ← Nat.pow_succ]
      exact h
    rw [serializeLoop, if_neg ha, ih _ _ hlt, hshift, magnitude_of_ne_zero hne,
      toUInt8_and_0xff, List.append_assoc, List.singleton_append]

/-- What the loop is given: the magnitude of the number, for all but `INT64_MIN`. -/
theorem toNat_absvalue {n : Int64} (hn : n ≠ Int64.minValue) :
    (if n < 0 then -n else n).toUInt64.toNat = n.toInt.natAbs := by
  have hlow : Int64.minValue.toInt < n.toInt := by
    rcases (Int64.minValue_le_toInt n).lt_or_eq with h | h
    · exact h
    · exact absurd (Int64.toInt_inj.mp h.symm) hn
  rw [Int64.toInt_minValue] at hlow
  split
  · next hneg =>
    rw [Int64.lt_iff_toInt_lt, Int64.toInt_zero] at hneg
    have hneg' : (-n).toInt = -n.toInt := by
      rw [Int64.toInt_neg]
      exact Int.bmod_eq_of_le (by omega) (by omega)
    have hnonneg : 0 ≤ -n := by rw [Int64.le_iff_toInt_le, hneg', Int64.toInt_zero]; omega
    rw [Int64.toNat_toUInt64_of_le hnonneg, Int64.toNatClampNeg, hneg']
    omega
  · next hnonneg =>
    rw [Int64.lt_iff_toInt_lt, Int64.toInt_zero] at hnonneg
    have : 0 ≤ n := by rw [Int64.le_iff_toInt_le, Int64.toInt_zero]; omega
    rw [Int64.toNat_toUInt64_of_le this, Int64.toNatClampNeg]
    omega

theorem natAbs_toInt_lt {n : Int64} (hn : n ≠ Int64.minValue) : n.toInt.natAbs < 2 ^ 63 := by
  have hlow : Int64.minValue.toInt < n.toInt := by
    rcases (Int64.minValue_le_toInt n).lt_or_eq with h | h
    · exact h
    · exact absurd (Int64.toInt_inj.mp h.symm) hn
  have hhigh := Int64.toInt_lt n
  rw [Int64.toInt_minValue] at hlow
  omega

/-- `serialize` writes the shortest string of the number. -/
theorem serialize_eq_encode {n : Int64} (hn : n ≠ Int64.minValue) :
    serialize n = encode n.toInt := by
  by_cases h0 : n = 0
  · rw [h0]
    rfl
  have hz : n.toInt ≠ 0 := fun h => h0 (Int64.toInt_inj.mp h)
  obtain ⟨init, d, hid, -, -, henc⟩ := encode_of_ne_zero hz
  have hloop : serializeLoop 8 (if n < 0 then -n else n).toUInt64 [] = init ++ [d] := by
    rw [serializeLoop_eq _ _ _ (by rw [toNat_absvalue hn]; exact (natAbs_toInt_lt hn).trans (by norm_num)),
      toNat_absvalue hn, List.nil_append, hid]
  have hneg : n < 0 ↔ n.toInt < 0 := by rw [Int64.lt_iff_toInt_lt, Int64.toInt_zero]
  rw [henc, serialize, if_neg h0]
  simp only [decide_eq_true_eq, hloop]
  simp only [List.getLastD_concat, List.dropLast_concat, hneg]

example : serialize (-255) = [0xff, 0x80] := by decide

/-! ## Reading -/

theorem toNat_shiftLeft_byte (b : UInt8) {i : Nat} (hi : i < 8) :
    (b.toUInt64 <<< (8 * i).toUInt64).toNat = 2 ^ (8 * i) * b.toNat := by
  have hb := b.toNat_lt
  have h8 : (8 * i).toUInt64.toNat = 8 * i := by
    rw [Nat.toUInt64, UInt64.toNat_ofNat']
    exact Nat.mod_eq_of_lt (by omega)
  have hlt : b.toNat * 2 ^ (8 * i) < 2 ^ 64 := by
    calc b.toNat * 2 ^ (8 * i) < 2 ^ 8 * 2 ^ (8 * i) := Nat.mul_lt_mul_of_pos_right hb (by positivity)
      _ = 2 ^ (8 * i + 8) := by rw [← Nat.pow_add, Nat.add_comm]
      _ ≤ 2 ^ 64 := Nat.pow_le_pow_right (by omega) (by omega)
  rw [UInt64.toNat_shiftLeft, UInt8.toNat_toUInt64, h8, Nat.mod_eq_of_lt (show 8 * i < 64 by omega),
    Nat.shiftLeft_eq, Nat.mod_eq_of_lt hlt, Nat.mul_comm]

/-- The loop of `set_vch` invariant: after `i` passes the `uint64_t` holds the value of the
first `i` bytes. -/
theorem toNat_setVchLoop (vch : List UInt8) (h8 : vch.length ≤ 8) :
    ∀ i ≤ vch.length, (setVchLoop vch i).toNat = value (vch.take i)
  | 0, _ => rfl
  | i + 1, hi => by
    have hprev := toNat_setVchLoop vch h8 i (by omega)
    have hv := value_lt (vch.take i)
    rw [List.length_take_of_le (by omega)] at hv
    have hbyte : vch.getD i 0 = vch[i] := by
      rw [List.getD_eq_getElem?_getD, List.getElem?_eq_getElem (by omega), Option.getD_some]
    have hpow : (256 : Nat) ^ i = 2 ^ (8 * i) := by rw [Nat.pow_mul]
    unfold setVchLoop
    rw [List.range_succ, List.foldl_append, List.foldl_cons, List.foldl_nil, UInt64.toNat_or,
      ← setVchLoop, hprev, toNat_shiftLeft_byte _ (by omega), List.take_add_one,
      List.getElem?_eq_getElem (by omega), Option.toList_some, value_concat,
      List.length_take_of_le (by omega), ← hbyte, hpow, Nat.or_comm,
      ← Nat.two_pow_add_eq_or_of_lt (by rw [← hpow]; exact hv)]
    omega

/-- Clearing the sign bit `p` of a number that has it set. -/
theorem and_not_two_pow {M p : Nat} (hp : p < 64) (hM : M < 2 ^ p) :
    (2 ^ p + M) &&& (2 ^ 64 - 1 - 2 ^ p) = M := by
  have hpow : 2 ^ p < 2 ^ 64 := Nat.pow_lt_pow_right (by omega) hp
  apply Nat.eq_of_testBit_eq
  intro i
  rw [Nat.testBit_and, show 2 ^ 64 - 1 - 2 ^ p = 2 ^ 64 - (2 ^ p + 1) by omega,
    Nat.testBit_two_pow_sub_succ hpow, Nat.testBit_two_pow,
    show 2 ^ p + M = 2 ^ p * 1 ||| M from by rw [← Nat.two_pow_add_eq_or_of_lt hM]; ring,
    Nat.testBit_or, Nat.mul_one, Nat.testBit_two_pow]
  rcases Nat.lt_or_ge i p with hi | hi
  · simp [show p ≠ i by omega, show i < 64 by omega]
  · have hM' : M.testBit i = false :=
      Nat.testBit_lt_two_pow (lt_of_lt_of_le hM (Nat.pow_le_pow_right (by omega) hi))
    by_cases hpi : p = i <;> simp [hpi, hM']

theorem toInt_toInt64_of_lt (x : UInt64) (h : x.toNat < 2 ^ 63) : x.toInt64.toInt = x.toNat := by
  show x.toBitVec.toInt = _
  rw [BitVec.toInt_eq_toNat_of_lt (by show 2 * x.toNat < 2 ^ 64; omega)]
  rfl

theorem toInt_neg_toInt64_of_lt (x : UInt64) (h : x.toNat < 2 ^ 63) :
    (-x.toInt64).toInt = -(x.toNat : Int) := by
  rw [Int64.toInt_neg, toInt_toInt64_of_lt x h]
  exact Int.bmod_eq_of_le (by omega) (by omega)

/-- `set_vch` reads what the string stands for. -/
theorem toInt_setVch (vch : List UInt8) (h8 : vch.length ≤ 8) :
    (setVch vch).toInt = decode vch := by
  rcases List.eq_nil_or_concat vch with rfl | ⟨init, b, rfl⟩
  · rfl
  rw [List.concat_eq_append] at h8 ⊢
  rw [List.length_append, List.length_singleton] at h8
  have hloop := toNat_setVchLoop (init ++ [b]) (by simpa using h8) (init ++ [b]).length le_rfl
  rw [List.take_length, value_concat] at hloop
  simp only [List.length_append, List.length_singleton] at hloop
  have hv := value_lt init
  have hb := b.toNat_lt
  have hpow : (256 : Nat) ^ init.length = 2 ^ (8 * init.length) := by rw [Nat.pow_mul]
  have hroom : 128 * 256 ^ init.length ≤ 2 ^ 63 := by
    rw [hpow, show (128 : Nat) = 2 ^ 7 from rfl, ← Nat.pow_add]
    exact Nat.pow_le_pow_right (by omega) (by omega)
  rw [setVch, if_neg (List.concat_ne_nil b init ∘ (List.concat_eq_append ▸ id)), decode_concat]
  simp only [List.getLastD_concat, List.length_append, List.length_singleton, Nat.add_sub_cancel]
  by_cases hs : b &&& 0x80 = 0
  · -- a positive number: the bits are the value
    have hlt : b.toNat < 128 := (and_0x80_eq_zero_iff b).mp hs
    have hmul : 256 ^ init.length * b.toNat ≤ 256 ^ init.length * 127 :=
      Nat.mul_le_mul_left _ (by omega)
    rw [if_neg (not_not.mpr hs), if_pos hs, and_0x7f_of_and_0x80 b hs,
      toInt_toInt64_of_lt _ (by omega), hloop]
  · -- a negative number: the sign bit is cleared before the negation
    have hge : 128 ≤ b.toNat := by have := (and_0x80_eq_zero_iff b).not.mp hs; omega
    have hmask : ((0x80 : UInt64) <<< (8 * init.length).toUInt64).toNat = 2 ^ (8 * init.length + 7) := by
      have := toNat_shiftLeft_byte 0x80 (show init.length < 8 by omega)
      rw [show (0x80 : UInt8).toUInt64 = 0x80 from rfl] at this
      rw [this, show (0x80 : UInt8).toNat = 2 ^ 7 from rfl, ← Nat.pow_add]
    have hsplit : value init + 256 ^ init.length * b.toNat =
        2 ^ (8 * init.length + 7) + (value init + 256 ^ init.length * (b.toNat % 128)) := by
      rw [Nat.pow_add, ← hpow]
      have : b.toNat = 128 + b.toNat % 128 := by omega
      conv_lhs => rw [this]
      ring
    have hmul : 256 ^ init.length * (b.toNat % 128) ≤ 256 ^ init.length * 127 :=
      Nat.mul_le_mul_left _ (by omega)
    have hlow : value init + 256 ^ init.length * (b.toNat % 128) < 2 ^ (8 * init.length + 7) := by
      rw [Nat.pow_add, ← hpow]
      omega
    have hclear : (setVchLoop (init ++ [b]) (init.length + 1) &&&
        ~~~((0x80 : UInt64) <<< (8 * init.length).toUInt64)).toNat =
          value init + 256 ^ init.length * (b.toNat % 128) := by
      rw [UInt64.toNat_and, UInt64.toNat_not, hmask, hloop, hsplit]
      exact and_not_two_pow (by omega) hlow
    rw [if_pos hs, if_neg hs, toNat_and_0x7f, toInt_neg_toInt64_of_lt _ (by rw [hclear]; omega),
      hclear]

/-- Eight bytes hold no magnitude as large as that of `INT64_MIN`. -/
theorem setVch_ne_minValue {vch : List UInt8} (h8 : vch.length ≤ 8) :
    setVch vch ≠ Int64.minValue := by
  intro h
  have hmin := congrArg Int64.toInt h
  rw [toInt_setVch vch h8, Int64.toInt_minValue] at hmin
  rcases List.eq_nil_or_concat vch with rfl | ⟨init, b, rfl⟩
  · simp at hmin
  rw [List.concat_eq_append] at h8 hmin
  rw [List.length_append, List.length_singleton] at h8
  have hlt := natAbs_decode_lt init b
  have hroom : 128 * 256 ^ init.length ≤ 2 ^ 63 :=
    calc 128 * 256 ^ init.length ≤ 128 * 256 ^ 7 :=
          Nat.mul_le_mul_left _ (Nat.pow_le_pow_right (by omega) (by omega))
      _ = 2 ^ 63 := by norm_num
  rw [hmin] at hlt
  omega

/-! ## The constructor -/

/-- The constructor's test for a string that is not the shortest is `isMinimal` failing. -/
theorem nonMinimal_iff (vch : List UInt8) :
    (vch.length > 0 ∧ vch.getLastD 0 &&& 0x7f = 0 ∧
      (vch.length ≤ 1 ∨ vch.getD (vch.length - 2) 0 &&& 0x80 = 0)) ↔ isMinimal vch = false := by
  rcases List.eq_nil_or_concat vch with rfl | ⟨init, b, rfl⟩
  · simp [isMinimal]
  rcases List.eq_nil_or_concat init with rfl | ⟨init', c, rfl⟩
  · simp [isMinimal]
  simp only [List.concat_eq_append, isMinimal, List.getLast?_concat, List.dropLast_concat,
    List.getLastD_concat, List.length_append, List.length_singleton, Bool.or_eq_false_iff,
    bne_eq_false_iff_eq]
  rw [show init'.length + 1 + 1 - 2 = init'.length by omega, List.getD_append _ _ _ _ (by simp),
    List.getD_append_right _ _ _ _ le_rfl, Nat.sub_self, List.getD_cons_zero]
  have hlen : ¬ init'.length + 1 + 1 ≤ 1 := by omega
  simp [hlen]

/-- The constructor: too long a string is an overflow, a string that is not the shortest is
refused when asked, and any other string is read by `set_vch`. -/
theorem ofVch_eq (vch : List UInt8) (fRequireMinimal : Bool) (nMaxNumSize : Nat) :
    ofVch vch fRequireMinimal nMaxNumSize =
      if vch.length > nMaxNumSize then .error "script number overflow"
      else if fRequireMinimal ∧ isMinimal vch = false then
        .error "non-minimally encoded script number"
      else .ok ⟨setVch vch⟩ := by
  simp only [ofVch, nonMinimal_iff]

end CScriptNum

/-! ## Truth values -/

/-- `CastToBool` is false when every byte but the last is zero and the last is a zero or a
negative zero. -/
theorem castToBool_eq_false_iff_bytes :
    ∀ vch : List UInt8, castToBool vch = false ↔
      (∀ x ∈ vch.dropLast, x = 0) ∧ vch.getLastD 0 &&& 0x7f = 0
  | [] => by simp [castToBool]
  | [b] => by
    rw [and_0x7f_eq_zero_iff]
    by_cases hb : b = 0 <;> simp [castToBool, hb]
  | b :: c :: rest => by
    have ih := castToBool_eq_false_iff_bytes (c :: rest)
    by_cases hb : b = 0
    · subst hb
      rw [show castToBool (0 :: c :: rest) = castToBool (c :: rest) from if_neg (by simp), ih]
      simp [List.dropLast_cons_cons]
    · simp [castToBool, hb, List.dropLast_cons_cons]

theorem castToBool_eq_false_iff (vch : List UInt8) :
    castToBool vch = false ↔ decode vch = 0 := by
  rw [castToBool_eq_false_iff_bytes]
  rcases List.eq_nil_or_concat vch with rfl | ⟨init, b, rfl⟩
  · simp
  rw [List.concat_eq_append, List.dropLast_concat, List.getLastD_concat,
    decode_concat_eq_zero_iff, value_eq_zero_iff]

open CScriptNum in
theorem serialize_setVch_roundtrip :
    (∀ n : Int64, n ≠ Int64.minValue →
      (serialize n).length ≤ 8 ∧
      (∀ nMaxNumSize, (serialize n).length ≤ nMaxNumSize →
        ofVch (serialize n) true nMaxNumSize = .ok ⟨n⟩) ∧
      setVch (serialize n) = n) ∧
    (∀ v : List UInt8, v.length ≤ 8 → ∀ nMaxNumSize,
      (∃ x, ofVch v true nMaxNumSize = .ok x) → serialize (setVch v) = v) ∧
    (∀ v : List UInt8, v.length ≤ 8 → (castToBool v = false ↔ setVch v = 0)) := by
  refine ⟨fun n hn => ?_, fun v hv nMaxNumSize hok => ?_, fun v hv => ?_⟩
  · -- from a number: the string is the shortest, of at most eight bytes
    have hlen : (serialize n).length ≤ 8 := by
      rw [serialize_eq_encode hn]
      exact length_encode_le 7 ((natAbs_toInt_lt hn).trans_le (by norm_num))
    have hset : setVch (serialize n) = n := by
      rw [← Int64.toInt_inj, toInt_setVch _ hlen, serialize_eq_encode hn, decode_encode]
    refine ⟨hlen, fun nMaxNumSize hmax => ?_, hset⟩
    rw [ofVch_eq, if_neg (Nat.not_lt.mpr hmax),
      if_neg (by simp [serialize_eq_encode hn, isMinimal_encode]), hset]
  · -- from a string the constructor accepts: it is the shortest
    obtain ⟨x, hx⟩ := hok
    have hmin : isMinimal v = true := by
      rw [ofVch_eq] at hx
      split_ifs at hx with hmax hnon
      simpa using hnon
    rw [serialize_eq_encode (setVch_ne_minValue hv), toInt_setVch v hv, encode_decode v hmin]
  · rw [castToBool_eq_false_iff, ← toInt_setVch v hv, ← Int64.toInt_zero, Int64.toInt_inj]

theorem serialize_setVch_roundtrip_neg255 :
    (-255 : Int64) ≠ Int64.minValue ∧
      CScriptNum.setVch (CScriptNum.serialize (-255)) = -255 :=
  ⟨by decide, (serialize_setVch_roundtrip.1 (-255) (by decide)).2.2⟩

end Veles
