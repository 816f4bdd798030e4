import Veles.Util.StrEncodings
import Veles.Lib.DigitBuffer
import Veles.Lib.ExceptBind

/-!
# Base58

`EncodeBase58` (base58.cpp) counts the leading zero bytes and converts the rest to base 58
in a buffer of `n * 138 / 100 + 1` digits, one pass `b58 = b58 * 256 + ch` per byte; it
writes a `1` per zero byte and then the digits without their leading zeros.
`DecodeBase58` skips leading spaces, counts the leading `1`s and converts the characters up
to the next space or the end in a buffer of `strlen * 733 / 1000 + 1` bytes, one pass
`b256 = b256 * 58 + digit` per character; only spaces may follow.  Each pass ends with
`assert(carry == 0)`, the error `"assert(carry == 0)"` here, and a pass only walks the
digits up to the last one set or while a carry is left (`mulAddLoop_eq`).

The number of leading zeros and the buffer's `size` are `int`s: `zeroes++` overflows past
`INT_MAX`, and `size` is the `ptrdiff_t` (or `size_t`) value narrowed to `int`, so that from
1556147571 bytes (2929718482 characters) it wraps, and `std::vector`'s constructor throws
for a negative size (`base58_size_wrap_and_embedded_zero`).  Below that, both buffers are
large enough: `256 ^ n < 58 ^ (n * 138 / 100 + 1)` and `58 ^ m < 256 ^ (m * 733 / 1000 + 1)`.
`DecodeBase58(str)` reads `str.c_str()`, which ends at the first zero byte, so a string with
a zero byte inside is read up to it, where base58.h has it decode the string.  `Hash` is a
parameter.

    |v| * 138 / 100 + 1 < 2 ^ 31 → (encodeBase58 v >>= decodeBase58) = .ok (some v)
    |s| < 2 ^ 30 → 0 ∉ s → decodeBase58 s = .ok (some v) → encodeBase58 v = .ok (trimSpace s)
    (|v| + 4) * 138 / 100 + 1 < 2 ^ 31 →
      (encodeBase58Check hash v >>= decodeBase58Check hash) = .ok (some v)
-/

namespace Veles

open DigitBuffer

/-- `pszBase58`: all alphanumeric characters except for `0`, `I`, `O` and `l`. -/
def pszBase58 : List UInt8 :=
  "123456789ABCDEFGHJKLMNPQRSTUVWXYZabcdefghijkmnopqrstuvwxyz".toList.map Char.toUInt8

/-- `mapBase58`: the digit of each character, `-1` off the alphabet. -/
def mapBase58 : List Int :=
  ([-1, -1, -1, -1, -1, -1, -1, -1, -1, -1, -1, -1, -1, -1, -1, -1] : List Int) ++
  ([-1, -1, -1, -1, -1, -1, -1, -1, -1, -1, -1, -1, -1, -1, -1, -1] : List Int) ++
  ([-1, -1, -1, -1, -1, -1, -1, -1, -1, -1, -1, -1, -1, -1, -1, -1] : List Int) ++
  ([-1, 0, 1, 2, 3, 4, 5, 6, 7, 8, -1, -1, -1, -1, -1, -1] : List Int) ++
  ([-1, 9, 10, 11, 12, 13, 14, 15, 16, -1, 17, 18, 19, 20, 21, -1] : List Int) ++
  ([22, 23, 24, 25, 26, 27, 28, 29, 30, 31, 32, -1, -1, -1, -1, -1] : List Int) ++
  ([-1, 33, 34, 35, 36, 37, 38, 39, 40, 41, 42, 43, -1, 44, 45, 46] : List Int) ++
  ([47, 48, 49, 50, 51, 52, 53, 54, 55, 56, 57, -1, -1, -1, -1, -1] : List Int) ++
  ([-1, -1, -1, -1, -1, -1, -1, -1, -1, -1, -1, -1, -1, -1, -1, -1] : List Int) ++
  ([-1, -1, -1, -1, -1, -1, -1, -1, -1, -1, -1, -1, -1, -1, -1, -1] : List Int) ++
  ([-1, -1, -1, -1, -1, -1, -1, -1, -1, -1, -1, -1, -1, -1, -1, -1] : List Int) ++
  ([-1, -1, -1, -1, -1, -1, -1, -1, -1, -1, -1, -1, -1, -1, -1, -1] : List Int) ++
  ([-1, -1, -1, -1, -1, -1, -1, -1, -1, -1, -1, -1, -1, -1, -1, -1] : List Int) ++
  ([-1, -1, -1, -1, -1, -1, -1, -1, -1, -1, -1, -1, -1, -1, -1, -1] : List Int) ++
  ([-1, -1, -1, -1, -1, -1, -1, -1, -1, -1, -1, -1, -1, -1, -1, -1] : List Int) ++
  ([-1, -1, -1, -1, -1, -1, -1, -1, -1, -1, -1, -1, -1, -1, -1, -1] : List Int)

/-- The pass of carries of both conversions, over the buffer from its last digit:
`for (i = 0; (carry != 0 || i < length) && it != rend; ++it, ++i) { carry += mul * (*it);
*it = carry % base; carry /= base; }`.  The digits, the carry and `i` after it. -/
def mulAddLoop (base mul length : Nat) : Nat → Nat → List Nat → List Nat × Nat × Nat
  | carry, i, [] => ([], carry, i)
  | carry, i, d :: ds =>
    if carry ≠ 0 ∨ i < length then
      let carry := carry + mul * d
      let r := mulAddLoop base mul length (carry / base) (i + 1) ds
      (carry % base :: r.1, r.2)
    else (d :: ds, carry, i)

/-- The byte loop of `EncodeBase58`: `b58 = b58 * 256 + ch` for each byte. -/
def encodeBase58Loop : List UInt8 → List Nat → Nat → Except String (List Nat × Nat)
  | [], b58, length => .ok (b58, length)
  | ch :: pbegin, b58, length =>
    let r := mulAddLoop 58 256 length ch.toNat 0 b58.reverse
    if r.2.1 ≠ 0 then .error "assert(carry == 0)"
    else encodeBase58Loop pbegin r.1.reverse r.2.2

/-- What `std::vector`'s constructor throws for a size above `max_size()`, as an `int` size
below zero is once converted to `size_type`. -/
def vectorLengthError : String := "cannot create std::vector larger than max_size()"

/-- `EncodeBase58(pbegin, pend)`.  `zeroes`, `length` and `size` are `int`s. -/
def encodeBase58 (input : List UInt8) : Except String (List UInt8) := do
  -- Skip & count leading zeroes; `zeroes++` past `INT_MAX` overflows.
  let zeroes := (input.takeWhile (· == 0)).length
  if 2 ^ 31 ≤ zeroes then throw "signed integer overflow"
  let pbegin := input.dropWhile (· == 0)
  -- Allocate enough space in big-endian base58 representation: the `ptrdiff_t` value is
  -- narrowed to `int`.
  let size := Int32.ofNat (pbegin.length * 138 / 100 + 1)
  if size < 0 then throw vectorLengthError
  let (b58, length) ← encodeBase58Loop pbegin (List.replicate size.toNatClampNeg 0) 0
  -- Skip leading zeroes in base58 result.
  let it := (b58.drop (size.toNatClampNeg - length)).dropWhile (· == 0)
  -- Translate the result into a string.
  pure (List.replicate zeroes '1'.toUInt8 ++ it.map fun d => pszBase58.getD d 0)

/-- `strlen(psz)`. -/
def strlen (psz : List UInt8) : Nat := (psz.takeWhile (· != 0)).length

/-- The character loop of `DecodeBase58`: `b256 = b256 * 58 + digit` for each character up
to a space or the end of the string.  `none` at an invalid character, else the buffer, its
`length` and the rest of the string. -/
def decodeBase58Loop :
    List UInt8 → List Nat → Nat → Except String (Option (List Nat × Nat × List UInt8))
  | [], b256, length => .ok (some (b256, length, []))
  | c :: psz, b256, length =>
    if c = 0 ∨ isSpace c then .ok (some (b256, length, c :: psz))
    else
      -- Decode base58 character
      let carry := mapBase58.getD c.toNat (-1)
      if carry = -1 then .ok none
      else
        let r := mulAddLoop 256 58 length carry.toNat 0 b256.reverse
        if r.2.1 ≠ 0 then .error "assert(carry == 0)"
        else decodeBase58Loop psz r.1.reverse r.2.2

/-- `DecodeBase58(psz, vch)`, `none` where it returns `false`.  `zeroes`, `length` and
`size` are `int`s. -/
def decodeBase58 (psz : List UInt8) : Except String (Option (List UInt8)) := do
  -- Skip leading spaces.
  let psz := psz.dropWhile fun c => c != 0 && isSpace c
  -- Skip and count leading '1's; `zeroes++` past `INT_MAX` overflows.
  let zeroes := (psz.takeWhile (· == '1'.toUInt8)).length
  if 2 ^ 31 ≤ zeroes then throw "signed integer overflow"
  let psz := psz.dropWhile (· == '1'.toUInt8)
  -- Allocate enough space in big-endian base256 representation: the `size_t` value is
  -- narrowed to `int`.
  let size := Int32.ofNat (strlen psz * 733 / 1000 + 1)
  if size < 0 then throw vectorLengthError
  match ← decodeBase58Loop psz (List.replicate size.toNatClampNeg 0) 0 with
  | none => pure none
  | some (b256, length, psz) =>
    -- Skip trailing spaces.
    let psz := psz.dropWhile isSpace
    if psz.headD 0 != 0 then pure none
    else
      -- Skip leading zeroes in b256.
      let it := (b256.drop (size.toNatClampNeg - length)).dropWhile (· == 0)
      pure (some (List.replicate zeroes 0 ++ it.map UInt8.ofNat))

/-- `EncodeBase58Check(vchIn)`: the first four bytes of `Hash(vchIn)` appended. -/
def encodeBase58Check (hash : List UInt8 → Vector UInt8 32) (vchIn : List UInt8) :
    Except String (List UInt8) :=
  encodeBase58 (vchIn ++ (hash vchIn).toList.take 4)

/-- `DecodeBase58Check(psz, vchRet)`, `none` where it returns `false`. -/
def decodeBase58Check (hash : List UInt8 → Vector UInt8 32) (psz : List UInt8) :
    Except String (Option (List UInt8)) := do
  match ← decodeBase58 psz with
  | none => pure none
  | some vchRet =>
    if vchRet.length < 4 then pure none
    else
      -- re-calculate the checksum, ensure it matches the included 4-byte checksum
      let payload := vchRet.take (vchRet.length - 4)
      if (hash payload).toList.take 4 ≠ vchRet.drop (vchRet.length - 4) then pure none
      else pure (some payload)

/-- `s` without its leading and trailing spaces. -/
def trimSpace (s : List UInt8) : List UInt8 :=
  ((s.dropWhile isSpace).reverse.dropWhile isSpace).reverse

/-! ## The alphabet -/

/-- A character of the alphabet. -/
def IsBase58 (c : UInt8) : Prop := mapBase58.getD c.toNat (-1) ≠ -1

instance (c : UInt8) : Decidable (IsBase58 c) := inferInstanceAs (Decidable (_ ≠ _))

/-- The digit of a character of the alphabet. -/
def digitOf (c : UInt8) : Nat := (mapBase58.getD c.toNat (-1)).toNat

/-- The characters up to the first space or zero byte. -/
def segBase58 (psz : List UInt8) : List UInt8 := psz.takeWhile fun c => !(c == 0 || isSpace c)

section Alphabet

theorem digitOf_pszBase58 : ∀ d < 58, digitOf (pszBase58.getD d 0) = d ∧
    IsBase58 (pszBase58.getD d 0) := by
  decide

set_option maxRecDepth 20000 in
theorem pszBase58_digitOf :
    ∀ c : UInt8, IsBase58 c → digitOf c < 58 ∧ pszBase58.getD (digitOf c) 0 = c := by
  decide

theorem pszBase58_char : ∀ d < 58, pszBase58.getD d 0 ≠ 0 ∧ isSpace (pszBase58.getD d 0) = false ∧
    (pszBase58.getD d 0 = '1'.toUInt8 → d = 0) := by
  decide

theorem isSpace_one : isSpace '1'.toUInt8 = false := by decide

end Alphabet

/-! ## A pass of carries -/

/-- The pass stops where no carry is left and the digits above are all zero: it computes
the whole pass of `DigitBuffer.carryPass`, and no digit at or above the `i` it ends with is
set. -/
theorem mulAddLoop_eq (base mul length : Nat) : ∀ (ds : List Nat) (carry i : Nat),
    (∀ k, length ≤ i + k → ds.getD k 0 = 0) →
    (mulAddLoop base mul length carry i ds).1 = (carryPass base mul carry ds).1 ∧
    (mulAddLoop base mul length carry i ds).2.1 = (carryPass base mul carry ds).2 ∧
    i ≤ (mulAddLoop base mul length carry i ds).2.2 ∧
    ∀ k, (mulAddLoop base mul length carry i ds).2.2 ≤ i + k →
      (mulAddLoop base mul length carry i ds).1.getD k 0 = 0
  | [], carry, i, _ => by simp [mulAddLoop, carryPass]
  | d :: ds, carry, i, hz => by
    by_cases hgo : carry ≠ 0 ∨ i < length
    · have hz' : ∀ k, length ≤ i + 1 + k → ds.getD k 0 = 0 := fun k hk => by
        simpa using hz (k + 1) (by omega)
      obtain ⟨h1, h2, h3, h4⟩ :=
        mulAddLoop_eq base mul length ds ((carry + mul * d) / base) (i + 1) hz'
      rw [mulAddLoop, if_pos hgo]
      refine ⟨by simp [carryPass, h1], by simp [carryPass, h2], by simp only; omega, ?_⟩
      intro k hk
      cases k with
      | zero => simp only at hk; omega
      | succ k => simpa using h4 k (by simp only at hk; omega)
    · -- no carry and past `length`: the digits left are zeros, which the pass keeps
      obtain ⟨rfl, hi⟩ : carry = 0 ∧ length ≤ i := by omega
      have hzero : ∀ x ∈ d :: ds, x = 0 := by
        intro x hx
        obtain ⟨k, hk, rfl⟩ := List.getElem_of_mem hx
        rw [← List.getD_eq_getElem _ 0 hk]
        exact hz k (by omega)
      rw [mulAddLoop, if_neg hgo, carryPass_zeros base mul _ hzero]
      exact ⟨rfl, rfl, le_refl i, fun k hk => hz k (by omega)⟩

/-- A pass over a buffer that holds `V` leaves `mul * V + c` in it, with no carry, when that
fits. -/
theorem holds_mulAddLoop {base mul V c : Nat} (hb : 1 < base) {b : List Nat} {len : Nat}
    (h : Holds base V b len) (hlt : mul * V + c < base ^ b.length) :
    (mulAddLoop base mul len c 0 b.reverse).2.1 = 0 ∧
      Holds base (mul * V + c) (mulAddLoop base mul len c 0 b.reverse).1.reverse
        (mulAddLoop base mul len c 0 b.reverse).2.2 ∧
      (mulAddLoop base mul len c 0 b.reverse).1.reverse.length = b.length := by
  obtain ⟨h1, h2, -, h4⟩ :=
    mulAddLoop_eq base mul len b.reverse c 0 (fun k hk => h.high_zero k (by omega))
  have hspec := carryPass_spec base mul c b.reverse
  rw [← h1, ← h2, List.length_reverse] at hspec
  have hV : Nat.ofDigits base b.reverse = V := h.value_eq
  rw [hV] at hspec
  have hcarry : (mulAddLoop base mul len c 0 b.reverse).2.1 = 0 := by
    by_contra hne
    have := Nat.le_mul_of_pos_right (base ^ b.length) (Nat.pos_of_ne_zero hne)
    omega
  refine ⟨hcarry, ⟨?_, ?_, ?_⟩, by simp [h1]⟩
  · intro d hd
    rw [List.mem_reverse, h1] at hd
    exact carryPass_lt (by omega) mul c b.reverse d hd
  · rw [value, List.reverse_reverse]
    simpa [hcarry] using hspec
  · intro k hk
    rw [List.reverse_reverse]
    exact h4 k (by omega)

/-! ## The buffers are large enough -/

theorem pow_256_lt_pow_58 (n : Nat) : 256 ^ n < 58 ^ (n * 138 / 100 + 1) :=
  pow_lt_pow_div_of_pow_le (by norm_num) (by norm_num) (by norm_num) (by norm_num) le_rfl n

-- `63 / 86` lies between `log 58 / log 256` and `733 / 1000`
theorem pow_58_lt_pow_256 (m : Nat) : 58 ^ m < 256 ^ (m * 733 / 1000 + 1) :=
  pow_lt_pow_div_of_pow_le (p := 86) (q := 63) (by norm_num) (by norm_num) (by norm_num)
    (by norm_num) (by norm_num) m

/-- The base-58 digits of `n` bytes fit in the `n * 138 / 100 + 1` of `EncodeBase58`'s
buffer. -/
theorem length_digits_58_le (p : List UInt8) :
    (Nat.digits 58 (value 256 (p.map UInt8.toNat))).length ≤ p.length * 138 / 100 + 1 := by
  have hbytes : ∀ d ∈ p.map UInt8.toNat, d < 256 := by
    intro d hd
    obtain ⟨a, -, rfl⟩ := List.mem_map.mp hd
    exact a.toNat_lt
  rw [Nat.digits_length_le_iff (by norm_num)]
  calc value 256 (p.map UInt8.toNat) < 256 ^ p.length := by
        simpa using value_lt (by norm_num) hbytes
    _ < _ := pow_256_lt_pow_58 _

/-- The bytes of `m` base-58 digits fit in the `m * 733 / 1000 + 1` of `DecodeBase58`'s
buffer. -/
theorem length_digits_256_le {ds : List Nat} (hds : ∀ d ∈ ds, d < 58) :
    (Nat.digits 256 (value 58 ds)).length ≤ ds.length * 733 / 1000 + 1 := by
  rw [Nat.digits_length_le_iff (by norm_num)]
  calc value 58 ds < 58 ^ ds.length := value_lt (by norm_num) hds
    _ < _ := pow_58_lt_pow_256 _

/-! ## The `int` sizes -/

/-- A size below `2 ^ 31` is narrowed to `int` unchanged. -/
theorem int32_ofNat_size {n : Nat} (h : n < 2 ^ 31) :
    ¬Int32.ofNat n < 0 ∧ (Int32.ofNat n).toNatClampNeg = n := by
  refine ⟨?_, Int32.toNatClampNeg_ofNat_of_lt h⟩
  rw [Int32.lt_iff_toInt_lt, Int32.toInt_ofNat_of_lt h]
  simp

theorem length_takeWhile_add_length_dropWhile {α : Type} (p : α → Bool) (l : List α) :
    (l.takeWhile p).length + (l.dropWhile p).length = l.length := by
  rw [← List.length_append, List.takeWhile_append_dropWhile]

/-! ## `EncodeBase58` -/

theorem encodeBase58Loop_spec : ∀ (pbegin : List UInt8) (b : List Nat) (len V : Nat),
    Holds 58 V b len → V * 256 ^ pbegin.length + value 256 (pbegin.map UInt8.toNat) < 58 ^ b.length →
    ∃ b' len', encodeBase58Loop pbegin b len = .ok (b', len') ∧ b'.length = b.length ∧
      Holds 58 (V * 256 ^ pbegin.length + value 256 (pbegin.map UInt8.toNat)) b' len'
  | [], b, len, V, h, _ => ⟨b, len, rfl, rfl, by simpa using h⟩
  | ch :: pbegin, b, len, V, h, hlt => by
    have hvalue : V * 256 ^ (ch :: pbegin).length + value 256 ((ch :: pbegin).map UInt8.toNat) =
        (256 * V + ch.toNat) * 256 ^ pbegin.length + value 256 (pbegin.map UInt8.toNat) := by
      simp only [List.map_cons, value_cons, List.length_map, List.length_cons, Nat.pow_succ]
      ring
    rw [hvalue] at hlt ⊢
    have hstep : 256 * V + ch.toNat < 58 ^ b.length :=
      calc 256 * V + ch.toNat ≤ (256 * V + ch.toNat) * 256 ^ pbegin.length :=
            Nat.le_mul_of_pos_right _ (Nat.pow_pos (by norm_num))
        _ ≤ (256 * V + ch.toNat) * 256 ^ pbegin.length + value 256 (pbegin.map UInt8.toNat) :=
            Nat.le_add_right _ _
        _ < 58 ^ b.length := hlt
    obtain ⟨hc, hh, hlen⟩ := holds_mulAddLoop (by norm_num) h hstep
    obtain ⟨b', len', hloop, hlen', hh'⟩ :=
      encodeBase58Loop_spec pbegin _ _ _ hh (by rw [hlen]; exact hlt)
    refine ⟨b', len', ?_, by rw [hlen', hlen], hh'⟩
    rw [encodeBase58Loop, if_neg (by simpa using hc), hloop]

/-- `EncodeBase58` writes a `1` per leading zero byte, then the base-58 digits of the rest. -/
theorem encodeBase58_eq (input : List UInt8) (hv : input.length * 138 / 100 + 1 < 2 ^ 31) :
    encodeBase58 input = .ok (List.replicate (input.takeWhile (· == 0)).length '1'.toUInt8 ++
      (Nat.digits 58 (value 256 ((input.dropWhile (· == 0)).map UInt8.toNat))).reverse.map
        fun d => pszBase58.getD d 0) := by
  have hbytes : ∀ d ∈ (input.dropWhile (· == 0)).map UInt8.toNat, d < 256 := by
    intro d hd
    obtain ⟨a, -, rfl⟩ := List.mem_map.mp hd
    exact a.toNat_lt
  have hbound : 0 * 256 ^ (input.dropWhile (· == 0)).length +
      value 256 ((input.dropWhile (· == 0)).map UInt8.toNat) <
      58 ^ (List.replicate ((input.dropWhile (· == 0)).length * 138 / 100 + 1) 0).length := by
    rw [List.length_replicate, Nat.zero_mul, Nat.zero_add]
    calc value 256 _ < 256 ^ (input.dropWhile (· == 0)).length := by
          simpa using value_lt (by norm_num) hbytes
      _ < _ := pow_256_lt_pow_58 _
  obtain ⟨b', len', hloop, hlen, hh⟩ :=
    encodeBase58Loop_spec _ _ 0 0 (holds_replicate 58 _ (by norm_num)) hbound
  rw [List.length_replicate] at hlen
  rw [Nat.zero_mul, Nat.zero_add] at hh
  -- neither `int` overflows: the zero bytes and the rest are no more than `input`
  have hsplit := length_takeWhile_add_length_dropWhile (· == 0) input
  have hz : (input.takeWhile (· == 0)).length < 2 ^ 31 := by omega
  obtain ⟨hneg, hsize⟩ :=
    int32_ofNat_size (show (input.dropWhile (· == 0)).length * 138 / 100 + 1 < 2 ^ 31 by omega)
  simp only [encodeBase58, if_neg (Nat.not_le.mpr hz), hneg, hsize, hloop, if_false,
    Except.ok_bind]
  rw [← hlen, hh.read (by norm_num)]
  rfl

/-! ## `DecodeBase58` -/

theorem segBase58_cons_of_stop {c : UInt8} {psz : List UInt8} (h : c = 0 ∨ isSpace c) :
    segBase58 (c :: psz) = [] :=
  List.takeWhile_cons_of_neg (by rcases h with h | h <;> simp [h])

theorem segBase58_cons {c : UInt8} {psz : List UInt8} (h : ¬(c = 0 ∨ isSpace c)) :
    segBase58 (c :: psz) = c :: segBase58 psz :=
  List.takeWhile_cons_of_pos (by simpa using h)

/-- The character loop stops at the first space or zero byte; it gives up at a character
off the alphabet, and otherwise the buffer holds the number the characters stand for.  The
buffer is large enough while `(V + 1) * 58 ^ strlen psz` fits in it. -/
theorem decodeBase58Loop_spec : ∀ (psz : List UInt8) (b : List Nat) (len V : Nat),
    Holds 256 V b len → (V + 1) * 58 ^ strlen psz ≤ 256 ^ b.length →
    ∃ r, decodeBase58Loop psz b len = .ok r ∧ (r.isSome ↔ ∀ c ∈ segBase58 psz, IsBase58 c) ∧
      ∀ b' len' rest, r = some (b', len', rest) →
        rest = psz.drop (segBase58 psz).length ∧ b'.length = b.length ∧
        Holds 256 (V * 58 ^ (segBase58 psz).length + value 58 ((segBase58 psz).map digitOf)) b' len'
  | [], b, len, V, h, _ => by
    refine ⟨some (b, len, []), rfl, by simp [segBase58], ?_⟩
    rintro b' len' rest ⟨⟩
    simpa [segBase58] using h
  | c :: psz, b, len, V, h, hle => by
    by_cases hstop : c = 0 ∨ isSpace c
    · refine ⟨some (b, len, c :: psz), by rw [decodeBase58Loop, if_pos hstop], ?_, ?_⟩
      · simp [segBase58_cons_of_stop hstop]
      · rintro b' len' rest ⟨⟩
        simpa [segBase58_cons_of_stop hstop] using h
    have hc0 : c ≠ 0 := fun h0 => hstop (Or.inl h0)
    have hstrlen : strlen (c :: psz) = strlen psz + 1 := by
      rw [strlen, strlen, List.takeWhile_cons_of_pos (by simpa using hc0), List.length_cons]
    rw [hstrlen] at hle
    by_cases hvalid : IsBase58 c
    · obtain ⟨hd, -⟩ := pszBase58_digitOf c hvalid
      -- one more digit: `58 * V + d` and the bound for the rest of the string
      have hnext : (58 * V + digitOf c + 1) * 58 ^ strlen psz ≤ 256 ^ b.length :=
        calc (58 * V + digitOf c + 1) * 58 ^ strlen psz ≤ (58 * (V + 1)) * 58 ^ strlen psz :=
              Nat.mul_le_mul_right _ (by omega)
          _ = (V + 1) * 58 ^ (strlen psz + 1) := by rw [Nat.pow_succ]; ring
          _ ≤ 256 ^ b.length := hle
      have hstep : 58 * V + digitOf c < 256 ^ b.length :=
        calc 58 * V + digitOf c < (58 * V + digitOf c + 1) * 1 := by omega
          _ ≤ (58 * V + digitOf c + 1) * 58 ^ strlen psz :=
              Nat.mul_le_mul_left _ (Nat.one_le_pow _ _ (by norm_num))
          _ ≤ 256 ^ b.length := hnext
      obtain ⟨hcarry, hh, hlen⟩ := holds_mulAddLoop (by norm_num) h hstep
      obtain ⟨r, hr, hsome, hrest⟩ := decodeBase58Loop_spec psz _ _ _ hh (by rw [hlen]; exact hnext)
      refine ⟨r, ?_, ?_, ?_⟩
      · rw [decodeBase58Loop, if_neg hstop]
        simp only [show mapBase58.getD c.toNat (-1) ≠ -1 from hvalid, if_false]
        rw [if_neg (by simpa [digitOf] using hcarry)]
        simpa [digitOf] using hr
      · rw [hsome, segBase58_cons hstop]
        simp [hvalid]
      · intro b' len' rest hr'
        obtain ⟨h1, h2, h3⟩ := hrest b' len' rest hr'
        refine ⟨by rw [h1, segBase58_cons hstop]; rfl, by rw [h2, hlen], ?_⟩
        have hvalue : V * 58 ^ (segBase58 (c :: psz)).length +
            value 58 ((segBase58 (c :: psz)).map digitOf) =
            (58 * V + digitOf c) * 58 ^ (segBase58 psz).length +
              value 58 ((segBase58 psz).map digitOf) := by
          simp only [segBase58_cons hstop, List.map_cons, value_cons, List.length_map,
            List.length_cons, Nat.pow_succ]
          ring
        rw [hvalue]
        exact h3
    · refine ⟨none, ?_, by simp [segBase58_cons hstop, hvalid], by simp⟩
      rw [decodeBase58Loop, if_neg hstop]
      simp only [show mapBase58.getD c.toNat (-1) = -1 from not_not.mp hvalid, if_true]

/-- `DecodeBase58` in closed form: after the leading spaces and `1`s, the characters up to
the next space or zero byte must be in the alphabet and only spaces may follow them; the
result is a zero byte per `1`, then the bytes of the number the characters stand for. -/
theorem decodeBase58_eq (s : List UInt8) (hs : s.length < 2 ^ 31) : decodeBase58 s =
    let s1 := s.dropWhile fun c => c != 0 && isSpace c
    let s2 := s1.dropWhile (· == '1'.toUInt8)
    .ok (if (∀ c ∈ segBase58 s2, IsBase58 c) ∧
          ((s2.drop (segBase58 s2).length).dropWhile isSpace).headD 0 = 0 then
        some (List.replicate (s1.takeWhile (· == '1'.toUInt8)).length 0 ++
          (Nat.digits 256 (value 58 ((segBase58 s2).map digitOf))).reverse.map UInt8.ofNat)
      else none) := by
  dsimp only
  set s1 := s.dropWhile fun c => c != 0 && isSpace c with hs1
  set s2 := s1.dropWhile (· == '1'.toUInt8) with hs2
  have hbound : (0 + 1) * 58 ^ strlen s2 ≤
      256 ^ (List.replicate (strlen s2 * 733 / 1000 + 1) 0).length := by
    rw [List.length_replicate, Nat.zero_add, Nat.one_mul]
    exact (pow_58_lt_pow_256 _).le
  obtain ⟨r, hr, hsome, hrest⟩ :=
    decodeBase58Loop_spec s2 _ 0 0 (holds_replicate 256 _ (by norm_num)) hbound
  -- neither `int` overflows: the `1`s and the characters after them are no more than `s`
  have hs1len : s1.length ≤ s.length := (List.dropWhile_suffix _).length_le
  have hz : (s1.takeWhile (· == '1'.toUInt8)).length < 2 ^ 31 :=
    lt_of_le_of_lt ((List.takeWhile_prefix _).length_le.trans hs1len) hs
  have hstrlen : strlen s2 ≤ s.length :=
    calc strlen s2 ≤ s2.length := (List.takeWhile_prefix _).length_le
      _ ≤ s1.length := (List.dropWhile_suffix _).length_le
      _ ≤ s.length := hs1len
  obtain ⟨hneg, hsize⟩ := int32_ofNat_size (show strlen s2 * 733 / 1000 + 1 < 2 ^ 31 by omega)
  simp only [decodeBase58]
  rw [← hs1, ← hs2, if_neg (Nat.not_le.mpr hz)]
  simp only [hneg, hsize, if_false, hr]
  rcases r with _ | ⟨b', len', rest⟩
  · have hnot : ¬ ∀ c ∈ segBase58 s2, IsBase58 c := fun hall => by simpa using hsome.mpr hall
    simp [hnot]
  · obtain ⟨h1, h2, h3⟩ := hrest b' len' rest rfl
    have hall : ∀ c ∈ segBase58 s2, IsBase58 c := hsome.mp rfl
    rw [List.length_replicate] at h2
    rw [Nat.zero_mul, Nat.zero_add] at h3
    subst h1
    simp only [Except.ok_bind]
    by_cases htail : ((s2.drop (segBase58 s2).length).dropWhile isSpace).headD 0 = 0
    · rw [if_neg (by simpa using htail), if_pos ⟨hall, htail⟩, ← h2, h3.read (by norm_num)]
      rfl
    · rw [if_pos (by simpa using htail), if_neg (fun h => htail h.2)]
      rfl

/-! ## Reading what was written -/

section Lists

variable {α : Type}

theorem dropWhile_eq_self_of_head {p : α → Bool} {l : List α}
    (h : ∀ x, l.head? = some x → p x = false) : l.dropWhile p = l := by
  cases l with
  | nil => rfl
  | cons x l => exact List.dropWhile_cons_of_neg (by simp [h x rfl])

theorem takeWhile_eq_nil_of_head {p : α → Bool} {l : List α}
    (h : ∀ x, l.head? = some x → p x = false) : l.takeWhile p = [] := by
  cases l with
  | nil => rfl
  | cons x l => exact List.takeWhile_cons_of_neg (by simp [h x rfl])

/-- The most significant digit of a number is not zero. -/
theorem head_digits_reverse_ne_zero (b W : Nat) :
    ∀ x, (Nat.digits b W).reverse.head? = some x → x ≠ 0 := by
  intro x hx
  rw [List.head?_reverse] at hx
  by_cases hW : W = 0
  · subst hW
    simp at hx
  · rw [List.getLast?_eq_some_getLast (Nat.digits_ne_nil_iff_ne_zero.mpr hW)] at hx
    obtain rfl := Option.some.inj hx
    exact Nat.getLast_digit_ne_zero b hW

end Lists

theorem trimSpace_eq (sp1 core sp2 : List UInt8) (h1 : ∀ c ∈ sp1, isSpace c = true)
    (h2 : ∀ c ∈ sp2, isSpace c = true) (hc : ∀ c ∈ core, isSpace c = false) :
    trimSpace (sp1 ++ core ++ sp2) = core := by
  unfold trimSpace
  rw [List.append_assoc, List.dropWhile_append_of_pos h1]
  cases core with
  | nil => simp [List.dropWhile_eq_nil_iff.mpr h2]
  | cons c core =>
    have hfront : (c :: core ++ sp2).dropWhile isSpace = c :: core ++ sp2 :=
      List.dropWhile_cons_of_neg (by simp [hc c (by simp)])
    have hback : (c :: core).reverse.dropWhile isSpace = (c :: core).reverse :=
      dropWhile_eq_self_of_head fun y hy => hc y (by
        rw [List.head?_reverse] at hy
        exact List.mem_of_getLast? hy)
    rw [hfront, List.reverse_append, List.dropWhile_append_of_pos (by simpa using h2), hback,
      List.reverse_reverse]

theorem dropWhile_eq_self_of_forall {α : Type} {p : α → Bool} {l : List α}
    (h : ∀ x ∈ l, p x = false) : l.dropWhile p = l :=
  dropWhile_eq_self_of_head fun x hx => h x (List.mem_of_mem_head? hx)

/-- The bytes of a number written without leading zeros are read back. -/
theorem digits_value_bytes (p : List UInt8) (hp : ∀ x, p.head? = some x → x ≠ 0) :
    (Nat.digits 256 (value 256 (p.map UInt8.toNat))).reverse.map UInt8.ofNat = p := by
  have hlt : ∀ d ∈ p.map UInt8.toNat, d < 256 := by
    intro d hd
    obtain ⟨a, -, rfl⟩ := List.mem_map.mp hd
    exact a.toNat_lt
  have h0 : (p.map UInt8.toNat).head? ≠ some 0 := by
    rw [List.head?_map]
    cases hh : p.head? with
    | none => simp
    | some x =>
      have := hp x hh
      simpa [← UInt8.toNat_inj] using this
  rw [digits_value (by norm_num) hlt h0, List.map_map]
  exact (List.map_congr_left fun a _ => UInt8.ofNat_toNat).trans (List.map_id p)

/-- A byte string is its leading zeros followed by the rest. -/
theorem replicate_append_dropWhile (v : List UInt8) :
    List.replicate (v.takeWhile (· == 0)).length 0 ++ v.dropWhile (· == 0) = v := by
  have h : v.takeWhile (· == 0) = List.replicate (v.takeWhile (· == 0)).length 0 :=
    List.eq_replicate_iff.mpr ⟨rfl, fun b hb => by simpa using List.mem_takeWhile_imp hb⟩
  rw [← h]
  exact List.takeWhile_append_dropWhile

theorem head_dropWhile_ne (v : List UInt8) : ∀ x, (v.dropWhile (· == 0)).head? = some x → x ≠ 0 := by
  intro x hx
  have hne : v.dropWhile (· == 0) ≠ [] := by
    intro h
    simp [h] at hx
  have := List.head_dropWhile_not (· == 0) hne
  rw [List.head?_eq_some_head hne, Option.some.injEq] at hx
  subst hx
  simpa using this

/-- `DecodeBase58(EncodeBase58(v)) = v`. -/
theorem decodeBase58_encodeBase58 (v : List UInt8) (hv : v.length * 138 / 100 + 1 < 2 ^ 31) :
    (encodeBase58 v >>= decodeBase58) = .ok (some v) := by
  -- what `EncodeBase58` writes, a `1` per zero byte and the digits of the rest, is shorter
  -- than `2 ^ 31`
  have hsplit := length_takeWhile_add_length_dropWhile (· == 0) v
  have hdigits := length_digits_58_le (v.dropWhile (· == 0))
  have hwritten : (List.replicate (v.takeWhile (· == 0)).length '1'.toUInt8 ++
      (Nat.digits 58 (value 256 ((v.dropWhile (· == 0)).map UInt8.toNat))).reverse.map
        fun d => pszBase58.getD d 0).length < 2 ^ 31 := by
    simp only [List.length_append, List.length_replicate, List.length_map, List.length_reverse]
    omega
  rw [encodeBase58_eq v hv, Except.ok_bind, decodeBase58_eq _ hwritten]
  dsimp only
  set W := value 256 ((v.dropWhile (· == 0)).map UInt8.toNat)
  set ds := (Nat.digits 58 W).reverse with hds
  have hds_lt : ∀ d ∈ ds, d < 58 := fun d hd =>
    Nat.digits_lt_base (by norm_num) (List.mem_reverse.mp hd)
  -- the characters written: `1`s, then digits of the alphabet, the first of them not `1`
  have hones : ∀ c ∈ List.replicate (v.takeWhile (· == 0)).length '1'.toUInt8,
      (c == '1'.toUInt8) = true := by
    intro c hc
    simp [List.eq_of_mem_replicate hc]
  have hchars : ∀ c ∈ ds.map fun d => pszBase58.getD d 0,
      c ≠ 0 ∧ isSpace c = false ∧ IsBase58 c := by
    intro c hc
    obtain ⟨d, hd, rfl⟩ := List.mem_map.mp hc
    obtain ⟨h0, hsp, -⟩ := pszBase58_char d (hds_lt d hd)
    exact ⟨h0, hsp, (digitOf_pszBase58 d (hds_lt d hd)).2⟩
  have hhead : ∀ c, (ds.map fun d => pszBase58.getD d 0).head? = some c →
      (c == '1'.toUInt8) = false := by
    intro c hc
    rw [List.head?_map] at hc
    obtain ⟨d, hd, rfl⟩ := Option.map_eq_some_iff.mp hc
    have hd0 := head_digits_reverse_ne_zero 58 W d hd
    have h1 := (pszBase58_char d (hds_lt d (List.mem_of_mem_head? hd))).2.2
    simpa using fun h => hd0 (h1 h)
  have hs1 : (List.replicate (v.takeWhile (· == 0)).length '1'.toUInt8 ++
      ds.map fun d => pszBase58.getD d 0).dropWhile (fun c => c != 0 && isSpace c) =
      List.replicate (v.takeWhile (· == 0)).length '1'.toUInt8 ++ ds.map fun d => pszBase58.getD d 0 := by
    apply dropWhile_eq_self_of_forall
    intro c hc
    rcases List.mem_append.mp hc with hc | hc
    · simp [List.eq_of_mem_replicate hc, isSpace_one]
    · simp [(hchars c hc).2.1]
  have hseg : segBase58 (ds.map fun d => pszBase58.getD d 0) = ds.map fun d => pszBase58.getD d 0 :=
    List.takeWhile_eq_self_iff.mpr fun c hc => by simp [(hchars c hc).1, (hchars c hc).2.1]
  have hvalue : value 58 ((ds.map fun d => pszBase58.getD d 0).map digitOf) = W := by
    have hid : ds.map (digitOf ∘ fun d => pszBase58.getD d 0) = ds :=
      (List.map_congr_left fun d hd => (digitOf_pszBase58 d (hds_lt d hd)).1).trans (List.map_id ds)
    rw [List.map_map, hid, value, hds, List.reverse_reverse, Nat.ofDigits_digits]
  rw [hs1, List.takeWhile_append_of_pos hones, takeWhile_eq_nil_of_head hhead,
    List.dropWhile_append_of_pos hones, dropWhile_eq_self_of_head hhead, hseg, List.drop_length,
    if_pos ⟨fun c hc => (hchars c hc).2.2, rfl⟩, hvalue, List.append_nil, List.length_replicate,
    digits_value_bytes _ (head_dropWhile_ne v), replicate_append_dropWhile]

/-- The leading zero bytes of what `DecodeBase58` returns are the leading `1`s. -/
theorem encodeBase58_replicate_append (z : Nat) (W : Nat)
    (hv : (z + (Nat.digits 256 W).length) * 138 / 100 + 1 < 2 ^ 31) :
    encodeBase58 (List.replicate z 0 ++ (Nat.digits 256 W).reverse.map UInt8.ofNat) =
      .ok (List.replicate z '1'.toUInt8 ++ (Nat.digits 58 W).reverse.map fun d => pszBase58.getD d 0) := by
  have hlt : ∀ d ∈ (Nat.digits 256 W).reverse, d < 256 := fun d hd =>
    Nat.digits_lt_base (by norm_num) (List.mem_reverse.mp hd)
  have hzeros : ∀ x ∈ List.replicate z (0 : UInt8), (x == 0) = true := by
    intro x hx
    simp [List.eq_of_mem_replicate hx]
  have hhead : ∀ x, ((Nat.digits 256 W).reverse.map UInt8.ofNat).head? = some x → (x == 0) = false := by
    intro x hx
    rw [List.head?_map] at hx
    obtain ⟨d, hd, rfl⟩ := Option.map_eq_some_iff.mp hx
    have hd0 := head_digits_reverse_ne_zero 256 W d hd
    have hd256 := hlt d (List.mem_of_mem_head? hd)
    simp only [beq_eq_false_iff_ne, ne_eq, ← UInt8.toNat_inj, UInt8.toNat_ofNat', UInt8.toNat_zero]
    rw [Nat.mod_eq_of_lt hd256]
    exact hd0
  have hbytes : value 256 (((Nat.digits 256 W).reverse.map UInt8.ofNat).map UInt8.toNat) = W := by
    have hid : (Nat.digits 256 W).reverse.map (UInt8.toNat ∘ UInt8.ofNat) = (Nat.digits 256 W).reverse :=
      (List.map_congr_left fun d hd => by
        simp [UInt8.toNat_ofNat', Nat.mod_eq_of_lt (hlt d hd)]).trans (List.map_id _)
    rw [List.map_map, hid, value, List.reverse_reverse, Nat.ofDigits_digits]
  rw [encodeBase58_eq _ (by simpa using hv), List.takeWhile_append_of_pos hzeros,
    takeWhile_eq_nil_of_head hhead,
    List.dropWhile_append_of_pos hzeros, dropWhile_eq_self_of_head hhead, hbytes, List.append_nil,
    List.length_replicate]

/-- The characters `DecodeBase58` reads are the base-58 digits of what it returns. -/
theorem digits_segBase58 (s2 : List UInt8) (hall : ∀ c ∈ segBase58 s2, IsBase58 c)
    (hone : ∀ x, s2.head? = some x → (x == '1'.toUInt8) = false) :
    (Nat.digits 58 (value 58 ((segBase58 s2).map digitOf))).reverse.map
      (fun d => pszBase58.getD d 0) = segBase58 s2 := by
  have hlt : ∀ d ∈ (segBase58 s2).map digitOf, d < 58 := by
    intro d hd
    obtain ⟨c, hc, rfl⟩ := List.mem_map.mp hd
    exact (pszBase58_digitOf c (hall c hc)).1
  have hhead : ((segBase58 s2).map digitOf).head? ≠ some 0 := by
    rw [List.head?_map]
    intro h0
    obtain ⟨c, hc, hc0⟩ := Option.map_eq_some_iff.mp h0
    obtain ⟨t, ht⟩ := List.takeWhile_prefix (l := s2) fun c => !(c == 0 || isSpace c)
    have hs2 : s2.head? = some c := by
      rw [← ht, List.head?_append, show (List.takeWhile _ s2).head? = some c from hc]
      rfl
    have hc1 : c = '1'.toUInt8 := by
      have := (pszBase58_digitOf c (hall c (List.mem_of_mem_head? hc))).2
      rw [hc0] at this
      rw [← this]
      decide
    simpa [hc1] using hone c hs2
  rw [digits_value (by norm_num) hlt hhead, List.map_map]
  exact (List.map_congr_left fun c hc => (pszBase58_digitOf c (hall c hc)).2).trans (List.map_id _)

/-- `EncodeBase58(DecodeBase58(s))` is `s` without its leading and trailing spaces, for a
string with no zero byte. -/
theorem encodeBase58_decodeBase58 {s v : List UInt8} (hlen : s.length < 2 ^ 30)
    (hs : ∀ c ∈ s, c ≠ 0) (h : decodeBase58 s = .ok (some v)) :
    encodeBase58 v = .ok (trimSpace s) := by
  rw [decodeBase58_eq s (by omega)] at h
  dsimp only at h
  set s1 := s.dropWhile fun c => c != 0 && isSpace c with hs1
  set s2 := s1.dropWhile (· == '1'.toUInt8) with hs2
  split_ifs at h with hcond
  · obtain ⟨hall, htail⟩ := hcond
    have hv : v = List.replicate (s1.takeWhile (· == '1'.toUInt8)).length 0 ++
        (Nat.digits 256 (value 58 ((segBase58 s2).map digitOf))).reverse.map UInt8.ofNat := by
      simpa using h.symm
    -- the result, a zero byte per `1` and the bytes of the rest, is short enough to encode
    have hdigits : (Nat.digits 256 (value 58 ((segBase58 s2).map digitOf))).length ≤
        (segBase58 s2).length * 733 / 1000 + 1 := by
      have hds : ∀ d ∈ (segBase58 s2).map digitOf, d < 58 := by
        intro d hd
        obtain ⟨c, hc, rfl⟩ := List.mem_map.mp hd
        exact (pszBase58_digitOf c (hall c hc)).1
      simpa using length_digits_256_le hds
    have hread : (s1.takeWhile (· == '1'.toUInt8)).length + (segBase58 s2).length ≤ s.length :=
      calc (s1.takeWhile (· == '1'.toUInt8)).length + (segBase58 s2).length
          ≤ (s1.takeWhile (· == '1'.toUInt8)).length + s2.length :=
            Nat.add_le_add_left (List.takeWhile_prefix _).length_le _
        _ = s1.length := length_takeWhile_add_length_dropWhile _ s1
        _ ≤ s.length := (List.dropWhile_suffix _).length_le
    rw [hv, encodeBase58_replicate_append _ _ (by omega), digits_segBase58 s2 hall fun x hx => by
      have hne : s2 ≠ [] := fun h => by simp [h] at hx
      rw [List.head?_eq_some_head hne, Option.some.injEq] at hx
      subst hx
      exact List.head_dropWhile_not _ hne]
    -- `s` is spaces, `1`s, the characters read and spaces
    have hones : s1.takeWhile (· == '1'.toUInt8) =
        List.replicate (s1.takeWhile (· == '1'.toUInt8)).length '1'.toUInt8 :=
      List.eq_replicate_iff.mpr ⟨rfl, fun b hb => by simpa using List.mem_takeWhile_imp hb⟩
    have hrest : ∀ c ∈ s2.drop (segBase58 s2).length, isSpace c = true := by
      have hsub : ∀ c ∈ s2.drop (segBase58 s2).length, c ∈ s := fun c hc =>
        ((List.drop_suffix _ _).trans ((List.dropWhile_suffix _).trans (List.dropWhile_suffix _))).subset hc
      apply List.dropWhile_eq_nil_iff.mp
      cases hl : (s2.drop (segBase58 s2).length).dropWhile isSpace with
      | nil => rfl
      | cons x l =>
        rw [hl] at htail
        have hx : x ∈ s2.drop (segBase58 s2).length :=
          (List.dropWhile_suffix isSpace).subset (hl ▸ List.mem_cons_self)
        exact absurd htail (hs x (hsub x hx))
    have hsplit : s = s.takeWhile (fun c => c != 0 && isSpace c) ++
        (List.replicate (s1.takeWhile (· == '1'.toUInt8)).length '1'.toUInt8 ++ segBase58 s2) ++
        s2.drop (segBase58 s2).length := by
      have hseg : segBase58 s2 ++ s2.drop (segBase58 s2).length = s2 :=
        List.prefix_iff_eq_append.mp (List.takeWhile_prefix _)
      rw [List.append_assoc, List.append_assoc, hseg, ← hones, List.takeWhile_append_dropWhile,
        List.takeWhile_append_dropWhile]
    congr 1
    rw [hsplit, trimSpace_eq]
    · intro c hc
      exact (by simpa using List.mem_takeWhile_imp hc : ¬c = 0 ∧ isSpace c = true).2
    · exact hrest
    · intro c hc
      rcases List.mem_append.mp hc with hc | hc
      · rw [List.eq_of_mem_replicate hc]
        exact isSpace_one
      · exact (by simpa using List.mem_takeWhile_imp hc : ¬c = 0 ∧ isSpace c = false).2
  · simp at h

/-- `DecodeBase58Check(EncodeBase58Check(v)) = v`. -/
theorem decodeBase58Check_encodeBase58Check (hash : List UInt8 → Vector UInt8 32)
    (v : List UInt8) (hv : (v.length + 4) * 138 / 100 + 1 < 2 ^ 31) :
    (encodeBase58Check hash v >>= decodeBase58Check hash) = .ok (some v) := by
  have h4 : ((hash v).toList.take 4).length = 4 := by simp
  have hv' : (v ++ (hash v).toList.take 4).length * 138 / 100 + 1 < 2 ^ 31 := by
    rwa [List.length_append, h4]
  have h := decodeBase58_encodeBase58 (v ++ (hash v).toList.take 4) hv'
  rw [encodeBase58_eq _ hv', Except.ok_bind] at h
  rw [encodeBase58Check, encodeBase58_eq _ hv', Except.ok_bind, decodeBase58Check, h,
    Except.ok_bind]
  simp only [List.length_append, h4, Nat.add_sub_cancel, List.take_left', List.drop_left',
    show ¬v.length + 4 < 4 by omega, if_false, ne_eq, not_true_eq_false]
  rfl

section SizeWraps

variable {c : UInt8} {rest : List UInt8}

/-- A byte string that starts with a non-zero byte goes straight to its `int` size. -/
theorem encodeBase58_cons (hc : c ≠ 0) :
    encodeBase58 (c :: rest) =
      let size := Int32.ofNat ((rest.length + 1) * 138 / 100 + 1)
      if size < 0 then .error vectorLengthError else
        encodeBase58Loop (c :: rest) (List.replicate size.toNatClampNeg 0) 0 >>= fun r =>
          pure (((r.1.drop (size.toNatClampNeg - r.2)).dropWhile (· == 0)).map
            fun d => pszBase58.getD d 0) := by
  have hne : ¬(c == 0) = true := by simpa using hc
  have htake : (c :: rest).takeWhile (· == 0) = [] := List.takeWhile_cons_of_neg hne
  have hdrop : (c :: rest).dropWhile (· == 0) = c :: rest := List.dropWhile_cons_of_neg hne
  simp only [encodeBase58, htake, hdrop, List.length_nil, List.length_cons,
    show ¬2 ^ 31 ≤ 0 by decide, if_false, List.replicate_zero, List.nil_append]
  rfl

/-- Where the size wraps below zero, `std::vector` throws. -/
theorem encodeBase58_cons_of_size_neg (hc : c ≠ 0)
    (hsize : Int32.ofNat ((rest.length + 1) * 138 / 100 + 1) < 0) :
    encodeBase58 (c :: rest) = .error vectorLengthError := by
  rw [encodeBase58_cons hc]
  exact if_pos hsize

/-- Where the size wraps to zero, the buffer is empty and the first pass keeps its carry. -/
theorem encodeBase58_cons_of_size_zero (hc : c ≠ 0)
    (hsize : Int32.ofNat ((rest.length + 1) * 138 / 100 + 1) = 0) :
    encodeBase58 (c :: rest) = .error "assert(carry == 0)" := by
  have hcarry : c.toNat ≠ 0 := by simpa [← UInt8.toNat_inj] using hc
  rw [encodeBase58_cons hc]
  simp only [hsize, show ¬(0 : Int32) < 0 by decide, if_false,
    show (0 : Int32).toNatClampNeg = 0 from rfl, List.replicate_zero, encodeBase58Loop,
    List.reverse_nil, mulAddLoop, if_pos hcarry]
  rfl

end SizeWraps

example : encodeBase58 [0, 0, 1] = .ok ("112".toList.map Char.toUInt8) := by decide
example : decodeBase58 (" 112 ".toList.map Char.toUInt8) = .ok (some [0, 0, 1]) := by decide

end Veles
