import Veles.Serialize.Stream

/-!
# VarInt

The `VARINT` format of serialize.h: MSB-first base-128 digits, bit `0x80` on every byte but
the last, and one subtracted from every digit but the last, so that every number has
exactly one encoding.  `WriteVarInt` and `GetSizeOfVarInt` run the loop
`n ← (n >> 7) - 1`; `ReadVarInt<I>` accumulates `n ← (n << 7) | (chData & 0x7F)` and throws
rather than let `n` pass `std::numeric_limits<I>::max()`.

The values VarInt encodes are non-negative (unsigned `I` in `DEFAULT` mode, or signed `I`
in `NONNEGATIVE_SIGNED` mode), so a value of `I` is a `Nat` up to `I.max`; that the reader's
accumulator never leaves that range, so that no shift or increment wraps, is
`readVarIntLoop_le_max`.

    varIntBytes cont n        the bytes of n, the last one flagged when cont
    writeVarInt n = varIntBytes false n                                      (writeVarInt_eq)
    readVarInt I (writeVarInt n ++ rest) =
      if n ≤ I.max then .ok (n, rest) else .error "ReadVarInt(): size too large"
    readVarInt I s = .ok (n, rest) → s = writeVarInt n ++ rest
-/

namespace Veles

/-- The integer type `I` of `ReadVarInt<I>`: its width `8 * sizeof(I)` and signedness. -/
structure VarIntType where
  bits : Nat
  signed : Bool
  eight_le_bits : 8 ≤ bits

/-- `std::numeric_limits<I>::max()`. -/
def VarIntType.max (I : VarIntType) : Nat :=
  if I.signed then 2 ^ (I.bits - 1) - 1 else 2 ^ I.bits - 1

/-- `uint64_t`. -/
def VarIntType.uint64 : VarIntType := ⟨64, false, by decide⟩

/-- `unsigned int`. -/
def VarIntType.uint32 : VarIntType := ⟨32, false, by decide⟩

theorem VarIntType.uint64_max : VarIntType.uint64.max = 18446744073709551615 := rfl

theorem VarIntType.uint32_max : VarIntType.uint32.max = 4294967295 := rfl

/-! ## The code -/

/-- The loop of `GetSizeOfVarInt`, with `nRet` bytes counted so far. -/
def getSizeOfVarIntLoop : Nat → Nat → Nat → Nat
  | 0, _, nRet => nRet
  | fuel + 1, n, nRet =>
    let nRet := nRet + 1
    if n ≤ 0x7F then nRet else getSizeOfVarIntLoop fuel ((n >>> 7) - 1) nRet

/-- `GetSizeOfVarInt(n)`: `n` decreases at every pass, so `n + 1` passes suffice. -/
def getSizeOfVarInt (n : Nat) : Nat := getSizeOfVarIntLoop (n + 1) n 0

/-- The first loop of `WriteVarInt`: `tmp[len]`, `tmp[len + 1]`, ... for the remaining `n`. -/
def writeVarIntTmp : Nat → Nat → Nat → List UInt8
  | 0, _, _ => []
  | fuel + 1, n, len =>
    let b := UInt8.ofNat ((n &&& 0x7F) ||| (if len ≠ 0 then 0x80 else 0x00))
    if n ≤ 0x7F then [b] else b :: writeVarIntTmp fuel ((n >>> 7) - 1) (len + 1)

/-- `WriteVarInt(os, n)`: `tmp[len]` down to `tmp[0]`, one `ser_writedata8` each. -/
def writeVarInt (n : Nat) : List UInt8 :=
  (writeVarIntTmp (n + 1) n 0).reverse.flatMap serWritedata8

/-- The loop of `ReadVarInt<I>` from the accumulator `n`.  Each pass reads one byte with
`ser_readdata8`, which throws on an empty stream (`serReaddata8_nil`). -/
def readVarIntLoop (I : VarIntType) (n : Nat) : List UInt8 → Except String (Nat × List UInt8)
  | [] => throw "CDataStream::read(): end of data"
  | chData :: s =>
    if n > I.max >>> 7 then throw "ReadVarInt(): size too large"
    else
      let n := n <<< 7 ||| (chData.toNat &&& 0x7F)
      if chData &&& 0x80 != 0 then
        if n = I.max then throw "ReadVarInt(): size too large"
        else readVarIntLoop I (n + 1) s
      else pure (n, s)

/-- `ReadVarInt<I>(is)`. -/
def readVarInt (I : VarIntType) (s : List UInt8) : Except String (Nat × List UInt8) :=
  readVarIntLoop I 0 s

/-! ## The encoding -/

/-- The byte of the low digit of `n`, with the continuation bit when `cont`. -/
def varIntDigit (cont : Bool) (n : Nat) : UInt8 :=
  UInt8.ofNat (n % 128 + if cont then 128 else 0)

/-- The encoding of `n` whose last byte carries the continuation bit when `cont`: the
digits above the last one encode `n / 128 - 1`, all of them flagged. -/
def varIntBytes (cont : Bool) (n : Nat) : List UInt8 :=
  if n ≤ 127 then [varIntDigit cont n]
  else varIntBytes true (n / 128 - 1) ++ [varIntDigit cont n]
termination_by n
decreasing_by omega

/-! ## Bit operations on `Nat` -/

theorem and_0x7F (n : Nat) : n &&& 0x7F = n % 128 := Nat.and_two_pow_sub_one_eq_mod n 7

theorem shiftRight_seven (n : Nat) : n >>> 7 = n / 128 := Nat.shiftRight_eq_div_pow n 7

theorem shiftLeft_seven_or (a : Nat) {x : Nat} (hx : x < 128) : a <<< 7 ||| x = a * 128 + x := by
  rw [← Nat.shiftLeft_add_eq_or_of_lt (show x < 2 ^ 7 from hx) a, Nat.shiftLeft_eq]

theorem or_0x80 {x : Nat} (hx : x < 128) : x ||| 0x80 = x + 128 := by
  rw [Nat.or_comm, show (0x80 : Nat) = 2 ^ 7 * 1 from rfl,
    ← Nat.two_pow_add_eq_or_of_lt (show x < 2 ^ 7 from hx)]
  omega

theorem and_0x80_ne_zero (ch : UInt8) : (ch &&& 0x80 != 0) = decide (128 ≤ ch.toNat) := by
  have h := ch.toNat_lt
  rw [Bool.eq_iff_iff, bne_iff_ne, ne_eq, ← UInt8.toNat_inj, UInt8.toNat_and]
  simp only [UInt8.reduceToNat, UInt8.toNat_zero, decide_eq_true_eq]
  rw [show (128 : Nat) = 2 ^ 7 from rfl, Nat.and_two_pow, Nat.testBit_eq_decide_div_mod_eq]
  by_cases hb : ch.toNat / 2 ^ 7 % 2 = 1 <;> simp <;> omega

/-! ## The type maximum -/

theorem two_pow_sub_one_mod {k : Nat} (hk : 7 ≤ k) : (2 ^ k - 1) % 128 = 127 := by
  obtain ⟨q, hq⟩ : 2 ^ 7 ∣ 2 ^ k := Nat.pow_dvd_pow 2 hk
  have hpos : 0 < 2 ^ k := Nat.pow_pos (by decide)
  omega

/-- Every maximum is `2 ^ k - 1` with `7 ≤ k`: its low seven bits are all set, which is what
lets the reader's guard `n > max >> 7` stop exactly the values past `max`. -/
theorem VarIntType.max_mod (I : VarIntType) : I.max % 128 = 127 := by
  have h := I.eight_le_bits
  unfold VarIntType.max
  split
  · exact two_pow_sub_one_mod (by omega)
  · exact two_pow_sub_one_mod (by omega)

theorem VarIntType.max_lt (I : VarIntType) : I.max < 2 ^ I.bits := by
  have h := I.eight_le_bits
  have hle : 2 ^ (I.bits - 1) ≤ 2 ^ I.bits := Nat.pow_le_pow_right (by decide) (by omega)
  have hpos : 0 < 2 ^ (I.bits - 1) := Nat.pow_pos (by decide)
  unfold VarIntType.max
  split <;> omega

/-! ## The writer refines the encoding -/

theorem toNat_varIntDigit (cont : Bool) (n : Nat) :
    (varIntDigit cont n).toNat = n % 128 + if cont then 128 else 0 := by
  have := Nat.mod_lt n (show 0 < 128 by decide)
  unfold varIntDigit
  rw [UInt8.toNat_ofNat']
  split <;> omega

theorem varIntBytes_of_le {cont : Bool} {n : Nat} (h : n ≤ 127) :
    varIntBytes cont n = [varIntDigit cont n] := by
  rw [varIntBytes, if_pos h]

theorem varIntBytes_of_lt {cont : Bool} {n : Nat} (h : 127 < n) :
    varIntBytes cont n = varIntBytes true (n / 128 - 1) ++ [varIntDigit cont n] := by
  rw [varIntBytes, if_neg (by omega)]

/-- `tmp[len] = (n & 0x7F) | (len ? 0x80 : 0x00)` is the digit byte, flagged unless it is
the last one written. -/
theorem tmp_byte_eq (n len : Nat) :
    UInt8.ofNat ((n &&& 0x7F) ||| (if len ≠ 0 then 0x80 else 0x00)) = varIntDigit (len != 0) n := by
  have := Nat.mod_lt n (show 0 < 128 by decide)
  unfold varIntDigit
  rw [and_0x7F]
  by_cases hl : len = 0
  · simp [hl]
  · simp [hl, or_0x80 this]

theorem writeVarIntTmp_eq (fuel : Nat) :
    ∀ n len, n < fuel → (writeVarIntTmp fuel n len).reverse = varIntBytes (len != 0) n := by
  induction fuel with
  | zero => intro n len h; omega
  | succ fuel ih =>
    intro n len h
    simp only [writeVarIntTmp, tmp_byte_eq]
    by_cases hn : n ≤ 127
    · rw [if_pos hn, varIntBytes_of_le hn, List.reverse_singleton]
    · rw [if_neg hn, varIntBytes_of_lt (by omega), List.reverse_cons, shiftRight_seven,
        ih _ _ (by omega)]
      simp

theorem writeVarInt_eq (n : Nat) : writeVarInt n = varIntBytes false n := by
  have h8 : serWritedata8 = fun b => [b] := funext serWritedata8_eq
  rw [writeVarInt, writeVarIntTmp_eq (n + 1) n 0 (by omega), h8]
  simp

/-! ## Sizes -/

/-- A value below 128 is written as one byte. -/
theorem writeVarInt_of_le {n : Nat} (h : n ≤ 127) : writeVarInt n = [UInt8.ofNat n] := by
  rw [writeVarInt_eq, varIntBytes_of_le h, varIntDigit, Nat.mod_eq_of_lt (by omega)]
  rfl

theorem length_varIntBytes_of_lt {cont : Bool} {n : Nat} (h : 127 < n) :
    (varIntBytes cont n).length = (varIntBytes true (n / 128 - 1)).length + 1 := by
  rw [varIntBytes_of_lt h, List.length_append, List.length_singleton]

theorem getSizeOfVarIntLoop_eq (fuel : Nat) : ∀ n nRet cont, n < fuel →
    getSizeOfVarIntLoop fuel n nRet = nRet + (varIntBytes cont n).length := by
  induction fuel with
  | zero => intro n nRet cont h; omega
  | succ fuel ih =>
    intro n nRet cont h
    simp only [getSizeOfVarIntLoop]
    by_cases hn : n ≤ 127
    · rw [if_pos hn, varIntBytes_of_le hn, List.length_singleton]
    · rw [if_neg hn, shiftRight_seven, ih _ _ true (by omega),
        @length_varIntBytes_of_lt cont n (by omega)]
      omega

theorem getSizeOfVarInt_eq (n : Nat) : getSizeOfVarInt n = (writeVarInt n).length := by
  rw [getSizeOfVarInt, getSizeOfVarIntLoop_eq (n + 1) n 0 false (by omega), writeVarInt_eq]
  omega

/-- Below `128 ^ (k + 1)` an encoding has at most `k + 1` bytes. -/
theorem length_varIntBytes_le (k : Nat) : ∀ cont n, n < 128 ^ (k + 1) →
    (varIntBytes cont n).length ≤ k + 1 := by
  induction k with
  | zero =>
    intro cont n h
    rw [varIntBytes_of_le (by omega), List.length_singleton]
  | succ k ih =>
    intro cont n h
    by_cases hn : n ≤ 127
    · rw [varIntBytes_of_le hn, List.length_singleton]
      omega
    · have hdiv : n / 128 < 128 ^ (k + 1) := by
        rw [Nat.div_lt_iff_lt_mul (by decide), ← Nat.pow_succ]
        exact h
      rw [length_varIntBytes_of_lt (by omega)]
      have := ih true (n / 128 - 1) (by omega)
      omega

/-- A value of `I` never fills more than the `(8 * sizeof(n) + 6) / 7` bytes of `tmp`. -/
theorem getSizeOfVarInt_le (I : VarIntType) {n : Nat} (h : n ≤ I.max) :
    getSizeOfVarInt n ≤ (I.bits + 6) / 7 := by
  have hb := I.eight_le_bits
  have hk : I.bits ≤ 7 * ((I.bits + 6) / 7 - 1 + 1) := by omega
  have hpow : 2 ^ I.bits ≤ 128 ^ ((I.bits + 6) / 7 - 1 + 1) := by
    rw [show (128 : Nat) = 2 ^ 7 from rfl, ← Nat.pow_mul]
    exact Nat.pow_le_pow_right (by decide) hk
  have hlt := I.max_lt
  rw [getSizeOfVarInt_eq, writeVarInt_eq]
  have := length_varIntBytes_le ((I.bits + 6) / 7 - 1) false n (by omega)
  omega

/-! ## The reader -/

/-- One pass of the reader on `Nat`: `(n << 7) | (chData & 0x7F)` is `n * 128 + chData % 128`. -/
theorem readVarIntLoop_cons (I : VarIntType) (n : Nat) (chData : UInt8) (s : List UInt8) :
    readVarIntLoop I n (chData :: s) =
      if I.max / 128 < n then .error "ReadVarInt(): size too large"
      else if 128 ≤ chData.toNat then
        if n * 128 + chData.toNat % 128 = I.max then .error "ReadVarInt(): size too large"
        else readVarIntLoop I (n * 128 + chData.toNat % 128 + 1) s
      else .ok (n * 128 + chData.toNat % 128, s) := by
  rw [readVarIntLoop, shiftRight_seven, and_0x7F, shiftLeft_seven_or n (Nat.mod_lt _ (by decide)),
    and_0x80_ne_zero]
  simp

/-- The shift never passes `I.max` once the guard `n > max >> 7` has let it through. -/
theorem shift_le_max (I : VarIntType) {n c : Nat} (h : ¬I.max / 128 < n) (hc : c < 128) :
    n * 128 + c ≤ I.max := by
  have := I.max_mod
  omega

/-- The accumulator of `ReadVarInt<I>` stays a value of `I`: what the loop returns is at
most `I.max`, so the `Nat` model and the fixed-width code compute the same. -/
theorem readVarIntLoop_le_max (I : VarIntType) (s : List UInt8) :
    ∀ n m rest, readVarIntLoop I n s = .ok (m, rest) → m ≤ I.max := by
  induction s with
  | nil => intro n m rest h; cases h
  | cons chData s ih =>
    intro n m rest h
    rw [readVarIntLoop_cons] at h
    split_ifs at h with hg hc
    · exact ih _ m rest h
    · obtain ⟨rfl, -⟩ : n * 128 + chData.toNat % 128 = m ∧ s = rest := by simpa using h
      exact shift_le_max I hg (Nat.mod_lt _ (by decide))

/-- Reading a digit byte after the digits above it, which leave `n / 128` in the
accumulator. -/
theorem readVarIntLoop_digit (I : VarIntType) (cont : Bool) (n : Nat) (s : List UInt8) :
    readVarIntLoop I (n / 128) (varIntDigit cont n :: s) =
      if n + (if cont then 1 else 0) ≤ I.max then
        (if cont then readVarIntLoop I (n + 1) s else .ok (n, s))
      else .error "ReadVarInt(): size too large" := by
  have hmod := I.max_mod
  have hd := toNat_varIntDigit cont n
  have hn : n / 128 * 128 + (varIntDigit cont n).toNat % 128 = n := by
    rw [hd]
    cases cont <;> simp <;> omega
  rw [readVarIntLoop_cons, hn]
  cases cont
  · have hc : ¬128 ≤ (varIntDigit false n).toNat := by
      rw [hd]
      simp
      omega
    simp only [if_neg hc, Bool.false_eq_true, ↓reduceIte, Nat.add_zero]
    split_ifs <;> first | rfl | omega
  · have hc : 128 ≤ (varIntDigit true n).toNat := by
      rw [hd]
      simp
    simp only [if_pos hc, ↓reduceIte]
    split_ifs <;> first | rfl | omega

/-- The reader on a whole encoding: it returns the value, or continues after a flagged
last byte, exactly when that stays within `I.max`, and throws otherwise. -/
theorem readVarIntLoop_varIntBytes (I : VarIntType) (n : Nat) : ∀ cont s,
    readVarIntLoop I 0 (varIntBytes cont n ++ s) =
      if n + (if cont then 1 else 0) ≤ I.max then
        (if cont then readVarIntLoop I (n + 1) s else .ok (n, s))
      else .error "ReadVarInt(): size too large" := by
  induction n using Nat.strong_induction_on with
  | _ n ih =>
  intro cont s
  by_cases hn : n ≤ 127
  · have hd := readVarIntLoop_digit I cont n s
    rw [show n / 128 = 0 by omega] at hd
    rw [varIntBytes_of_le hn, List.singleton_append, hd]
  · rw [varIntBytes_of_lt (by omega), List.append_assoc, List.singleton_append,
      ih _ (by omega) true]
    simp only [↓reduceIte]
    by_cases hle : n / 128 - 1 + 1 ≤ I.max
    · rw [if_pos hle, show n / 128 - 1 + 1 = n / 128 by omega, readVarIntLoop_digit]
    · rw [if_neg hle]
      cases cont <;> simp <;> omega

theorem readVarInt_writeVarInt (I : VarIntType) (n : Nat) (rest : List UInt8) :
    readVarInt I (writeVarInt n ++ rest) =
      if n ≤ I.max then .ok (n, rest) else .error "ReadVarInt(): size too large" := by
  rw [readVarInt, writeVarInt_eq, readVarIntLoop_varIntBytes]
  simp

/-! ## Every accepted encoding is the written one -/

/-- The digits consumed so far, which leave `n` in the accumulator, followed by one more
byte, are the encoding of the accumulator that byte produces. -/
theorem consumed_append_byte (n : Nat) (chData : UInt8) :
    (if n = 0 then [] else varIntBytes true (n - 1)) ++ [chData] =
      varIntBytes (decide (128 ≤ chData.toNat)) (n * 128 + chData.toNat % 128) := by
  have hlt := chData.toNat_lt
  have hdigit : varIntDigit (decide (128 ≤ chData.toNat)) (n * 128 + chData.toNat % 128) =
      chData := by
    apply UInt8.toNat_inj.mp
    rw [toNat_varIntDigit]
    by_cases hc : 128 ≤ chData.toNat <;> simp [hc] <;> omega
  by_cases hn : n = 0
  · subst hn
    rw [Nat.zero_mul, Nat.zero_add] at hdigit ⊢
    rw [if_pos rfl, List.nil_append, varIntBytes_of_le (by omega), hdigit]
  · rw [if_neg hn, @varIntBytes_of_lt _ (n * 128 + chData.toNat % 128) (by omega), hdigit,
      show (n * 128 + chData.toNat % 128) / 128 - 1 = n - 1 by omega]

/-- A run of the reader from accumulator `n` that returns `m` has consumed exactly the rest
of the encoding of `m`. -/
theorem eq_of_readVarIntLoop (I : VarIntType) (s : List UInt8) : ∀ n m rest,
    readVarIntLoop I n s = .ok (m, rest) →
      (if n = 0 then [] else varIntBytes true (n - 1)) ++ s = varIntBytes false m ++ rest := by
  induction s with
  | nil => intro n m rest h; cases h
  | cons chData s ih =>
    intro n m rest h
    rw [readVarIntLoop_cons] at h
    rw [← List.singleton_append, ← List.append_assoc, consumed_append_byte]
    split_ifs at h with hg hc
    · have hs := ih _ m rest h
      rw [if_neg (by omega), Nat.add_sub_cancel] at hs
      rw [decide_eq_true hc, hs]
    · obtain ⟨rfl, rfl⟩ : n * 128 + chData.toNat % 128 = m ∧ s = rest := by simpa using h
      rw [decide_eq_false hc]

theorem eq_of_readVarInt {I : VarIntType} {s rest : List UInt8} {n : Nat}
    (h : readVarInt I s = .ok (n, rest)) : s = writeVarInt n ++ rest := by
  have hs := eq_of_readVarIntLoop I s 0 n rest h
  rw [if_pos rfl, List.nil_append] at hs
  rw [hs, writeVarInt_eq]

/-! ## VarInt is a bijection -/

/-- Every value of `I` reads back from its encoding, which has `GetSizeOfVarInt` bytes and
fits `tmp`; every accepted prefix is the encoding of what was read; and an encoding of a
value past `I.max` makes the reader throw. -/
theorem varInt_bijection (I : VarIntType) :
    (∀ n rest, n ≤ I.max →
      readVarInt I (writeVarInt n ++ rest) = .ok (n, rest) ∧
        (writeVarInt n).length = getSizeOfVarInt n ∧ getSizeOfVarInt n ≤ (I.bits + 6) / 7) ∧
    (∀ s n rest, readVarInt I s = .ok (n, rest) → s = writeVarInt n ++ rest) ∧
    (∀ n rest, I.max < n →
      readVarInt I (writeVarInt n ++ rest) = .error "ReadVarInt(): size too large") := by
  refine ⟨fun n rest hn => ⟨?_, (getSizeOfVarInt_eq n).symm, getSizeOfVarInt_le I hn⟩,
    fun s n rest h => eq_of_readVarInt h, fun n rest hn => ?_⟩
  · rw [readVarInt_writeVarInt, if_pos hn]
  · rw [readVarInt_writeVarInt, if_neg (by omega)]

theorem varInt_bijection_uint64_max :
    readVarInt .uint64 (writeVarInt (2 ^ 64 - 1) ++ []) = .ok (2 ^ 64 - 1, []) ∧
    [0x80, 0x00] = writeVarInt 128 ++ [] ∧
    readVarInt .uint64 (writeVarInt (2 ^ 64) ++ []) = .error "ReadVarInt(): size too large" :=
  ⟨((varInt_bijection .uint64).1 (2 ^ 64 - 1) [] (by decide)).1,
    (varInt_bijection .uint64).2.1 [0x80, 0x00] 128 [] (by decide),
    (varInt_bijection .uint64).2.2 (2 ^ 64) [] (by decide)⟩

end Veles
