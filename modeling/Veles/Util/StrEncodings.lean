import Veles.Lib.BitGroups

/-!
# `ConvertBits`, base64 and base32

`ConvertBits<frombits, tobits, pad>` (util/strencodings.h) regroups a sequence of
`frombits`-bit values into `tobits`-bit values through an accumulator masked to
`frombits + tobits - 1` bits.  With `pad` the last group is filled with zero bits; without
it, leftover bits are an error when they make a whole input value or are not zero.
`EncodeBase64` and `EncodeBase32` regroup bytes into 6 and 5 bits, map them through the
alphabet and pad with `=`; `DecodeBase64` and `DecodeBase32` read characters through a
256-entry table up to the first one outside the alphabet, regroup the values back into
bytes and then accept only `=` up to the next multiple of 4 or 8 characters.

Strings are byte strings; a C string ends at the first zero byte or at the end of the list.
Every value `ConvertBits` computes stays below `2^21`, so `size_t` is `Nat` here.

    convertBits b a false (convertBits a b true xs).1 = (xs, true)    (convertBits_roundtrip)
    decodeBase64 (encodeBase64 s) = (s, false)
-/

namespace Veles

open BitGroups

/-! ## `ConvertBits` -/

/-- `while (bits >= tobits) { bits -= tobits; outfn((acc >> bits) & maxv); }`, with `bits`
as fuel: each pass takes `tobits` bits. -/
def convertBitsEmit (tobits acc : Nat) : Nat → Nat → List Nat → Nat × List Nat
  | 0, bits, out => (bits, out)
  | fuel + 1, bits, out =>
    if bits ≥ tobits then
      let bits := bits - tobits
      convertBitsEmit tobits acc fuel bits (out ++ [(acc >>> bits) &&& ((1 <<< tobits) - 1)])
    else (bits, out)

/-- `while (it != end)`: shift the next value into `acc`, then emit the full groups. -/
def convertBitsLoop (frombits tobits : Nat) :
    List Nat → Nat → Nat → List Nat → Nat × Nat × List Nat
  | [], acc, bits, out => (acc, bits, out)
  | x :: xs, acc, bits, out =>
    let acc := ((acc <<< frombits) ||| x) &&& ((1 <<< (frombits + tobits - 1)) - 1)
    let bits := bits + frombits
    let r := convertBitsEmit tobits acc bits bits out
    convertBitsLoop frombits tobits xs acc r.1 r.2

/-- `ConvertBits<frombits, tobits, pad>(outfn, it, end)`: the values passed to `outfn`, and
the result. -/
def convertBits (frombits tobits : Nat) (pad : Bool) (input : List Nat) : List Nat × Bool :=
  let maxv := (1 <<< tobits) - 1
  let r := convertBitsLoop frombits tobits input 0 0 []
  let acc := r.1
  let bits := r.2.1
  let out := r.2.2
  if pad then
    (if bits ≠ 0 then out ++ [(acc <<< (tobits - bits)) &&& maxv] else out, true)
  else if bits ≥ frombits ∨ (acc <<< (tobits - bits)) &&& maxv ≠ 0 then (out, false)
  else (out, true)

/-! ## What `ConvertBits` computes

After values worth `V` over `N` bits, the `bits` bits not yet emitted are the low bits of
`acc` and of `V`, and the groups emitted are the rest of `V`.  `frombits + tobits - 1` bits of
`acc` are enough to keep them, since fewer than `tobits` are left after each value. -/

/-- The state of `ConvertBits` after values worth `V` over `N` bits. -/
structure Regrouped (tobits V N acc bits : Nat) (out : List Nat) : Prop where
  low : acc % 2 ^ bits = V % 2 ^ bits
  high : groupsValue tobits out = V / 2 ^ bits
  length : out.length * tobits + bits = N
  fits : Fits tobits out

theorem regrouped_init (tobits : Nat) : Regrouped tobits 0 0 0 0 [] :=
  ⟨rfl, by simp, by simp, fits_nil _⟩

/-- One pass of the inner loop emits the next group of `V`. -/
theorem Regrouped.emit {t V N acc bits : Nat} {out : List Nat} (h : Regrouped t V N acc bits out)
    (ht : t ≤ bits) :
    Regrouped t V N acc (bits - t) (out ++ [(acc >>> (bits - t)) &&& ((1 <<< t) - 1)]) := by
  have hb : bits - t + t = bits := Nat.sub_add_cancel ht
  rw [shiftRight_and_eq]
  have hgroup : acc / 2 ^ (bits - t) % 2 ^ t = V / 2 ^ (bits - t) % 2 ^ t :=
    div_two_pow_mod_eq _ _ _ _ (by rw [hb]; exact h.low)
  refine ⟨mod_two_pow_mod_of_le (Nat.sub_le _ _) h.low, ?_, ?_, h.fits.concat (Nat.mod_lt _ ?_)⟩
  · rw [groupsValue_concat, h.high, hgroup]
    conv_rhs => rw [div_two_pow_eq V (bits - t) t, hb]
  · have := h.length
    rw [List.length_append, List.length_singleton, Nat.add_mul, Nat.one_mul]
    omega
  · exact Nat.two_pow_pos t

/-- The inner loop emits every full group: fewer than `tobits` bits are left. -/
theorem convertBitsEmit_spec {t V N acc : Nat} (ht : 0 < t) :
    ∀ (fuel bits : Nat) (out : List Nat),
    bits ≤ fuel → Regrouped t V N acc bits out →
    Regrouped t V N acc (convertBitsEmit t acc fuel bits out).1
      (convertBitsEmit t acc fuel bits out).2 ∧ (convertBitsEmit t acc fuel bits out).1 < t := by
  intro fuel
  induction fuel with
  | zero => intro bits out hb h; exact ⟨h, by simp only [convertBitsEmit]; omega⟩
  | succ fuel ih =>
    intro bits out hb h
    rw [convertBitsEmit]
    split_ifs with hge
    · exact ih _ _ (by omega) (h.emit hge)
    · exact ⟨h, by omega⟩

/-- Shifting the next value into `acc` keeps the bits not yet emitted. -/
theorem Regrouped.shiftIn {f t V N acc bits x : Nat} {out : List Nat}
    (h : Regrouped t V N acc bits out) (hbits : bits < t) (hx : x < 2 ^ f) :
    Regrouped t (V * 2 ^ f + x) (N + f)
      (((acc <<< f) ||| x) &&& ((1 <<< (f + t - 1)) - 1)) (bits + f) out := by
  rw [shiftLeft_or_and_eq _ _ _ _ hx]
  refine ⟨?_, ?_, by have := h.length; omega, h.fits⟩
  · calc (acc * 2 ^ f + x) % 2 ^ (f + t - 1) % 2 ^ (bits + f)
        = (acc * 2 ^ f + x) % 2 ^ (bits + f) :=
          Nat.mod_mod_of_dvd _ (Nat.pow_dvd_pow 2 (by omega))
      _ = acc % 2 ^ bits * 2 ^ f + x := mul_two_pow_add_mod _ _ _ _ hx
      _ = V % 2 ^ bits * 2 ^ f + x := by rw [h.low]
      _ = (V * 2 ^ f + x) % 2 ^ (bits + f) := (mul_two_pow_add_mod _ _ _ _ hx).symm
  · rw [h.high, mul_two_pow_add_div _ _ _ _ hx]

/-- The outer loop over the values `xs` after the values `ps`. -/
theorem convertBitsLoop_spec {f t : Nat} (ht : 0 < t) : ∀ (xs ps : List Nat) (acc bits : Nat)
    (out : List Nat), Fits f xs → bits < t →
    Regrouped t (groupsValue f ps) (ps.length * f) acc bits out →
    Regrouped t (groupsValue f (ps ++ xs)) ((ps ++ xs).length * f)
        (convertBitsLoop f t xs acc bits out).1 (convertBitsLoop f t xs acc bits out).2.1
        (convertBitsLoop f t xs acc bits out).2.2 ∧
      (convertBitsLoop f t xs acc bits out).2.1 < t := by
  intro xs
  induction xs with
  | nil => intro ps acc bits out _ hb h; simpa [convertBitsLoop] using ⟨h, hb⟩
  | cons x xs ih =>
    intro ps acc bits out hxs hb h
    have hx : x < 2 ^ f := hxs x List.mem_cons_self
    have hin := h.shiftIn hb hx
    obtain ⟨hemit, hlt⟩ := convertBitsEmit_spec ht (bits + f) (bits + f) out le_rfl hin
    rw [← groupsValue_concat, show ps.length * f + f = (ps ++ [x]).length * f by
      simp [Nat.add_mul]] at hemit
    rw [convertBitsLoop, ← List.singleton_append, ← List.append_assoc]
    exact ih (ps ++ [x]) _ _ _ (fun y hy => hxs y (List.mem_cons_of_mem _ hy)) hlt hemit

/-- The loop from the start: the state after all of `input`. -/
theorem convertBitsLoop_regrouped {f t : Nat} (ht : 0 < t) {input : List Nat} (hin : Fits f input) :
    Regrouped t (groupsValue f input) (input.length * f)
        (convertBitsLoop f t input 0 0 []).1 (convertBitsLoop f t input 0 0 []).2.1
        (convertBitsLoop f t input 0 0 []).2.2 ∧
      (convertBitsLoop f t input 0 0 []).2.1 < t := by
  simpa using convertBitsLoop_spec ht input [] 0 0 [] hin ht (by simpa using regrouped_init t)

/-- With `pad`, the groups are those of the input followed by `p < tobits` zero bits. -/
theorem convertBits_pad {f t : Nat} (ht : 0 < t) {input : List Nat} (hin : Fits f input) :
    ∃ p < t, (convertBits f t true input).2 = true ∧
      groupsValue t (convertBits f t true input).1 = groupsValue f input * 2 ^ p ∧
      (convertBits f t true input).1.length * t = input.length * f + p ∧
      Fits t (convertBits f t true input).1 := by
  obtain ⟨h, hlt⟩ := convertBitsLoop_regrouped ht hin
  rcases hr : convertBitsLoop f t input 0 0 [] with ⟨acc, bits, out⟩
  rw [hr] at h hlt
  dsimp only at h hlt
  simp only [convertBits, hr, if_true]
  by_cases h0 : bits = 0
  · -- nothing is left: the groups are exactly the input's bits
    subst h0
    simp only [ne_eq, not_true_eq_false, if_false]
    refine ⟨0, ht, trivial, ?_, ?_, h.fits⟩
    · simpa using h.high
    · simpa using h.length
  · -- the last group is the bits left, filled with zeros
    have ht' : t = bits + (t - bits) := by omega
    rw [if_pos h0, shiftLeft_and_eq _ _ _ hlt.le]
    refine ⟨t - bits, by omega, trivial, ?_, ?_, ?_⟩
    · rw [groupsValue_concat, h.high, h.low]
      have := div_mul_add_mod_mul (groupsValue f input) bits (t - bits)
      rwa [← ht'] at this
    · have := h.length
      rw [List.length_append, List.length_singleton, Nat.add_mul, Nat.one_mul]
      omega
    · have := mod_mul_two_pow_lt acc bits (t - bits)
      rw [← ht'] at this
      exact h.fits.concat this

/-- Without `pad`, the groups are those of the input without its `bits < tobits` last bits;
the call succeeds when those are fewer than an input value and all zero. -/
theorem convertBits_noPad {f t : Nat} (ht : 0 < t) {input : List Nat} (hin : Fits f input) :
    ∃ bits < t, groupsValue t (convertBits f t false input).1 = groupsValue f input / 2 ^ bits ∧
      (convertBits f t false input).1.length * t + bits = input.length * f ∧
      Fits t (convertBits f t false input).1 ∧
      ((convertBits f t false input).2 = true ↔
        bits < f ∧ groupsValue f input % 2 ^ bits = 0) := by
  obtain ⟨h, hlt⟩ := convertBitsLoop_regrouped ht hin
  rcases hr : convertBitsLoop f t input 0 0 [] with ⟨acc, bits, out⟩
  rw [hr] at h hlt
  dsimp only at h hlt
  -- the filled last group is zero exactly when the bits left are
  have hzero :
      acc <<< (t - bits) &&& ((1 <<< t) - 1) = 0 ↔ groupsValue f input % 2 ^ bits = 0 := by
    rw [shiftLeft_and_eq _ _ _ hlt.le, h.low, Nat.mul_eq_zero]
    simp
  refine ⟨bits, hlt, ?_⟩
  simp only [convertBits, hr, Bool.false_eq_true, if_false]
  split_ifs with hfail
  · refine ⟨h.high, h.length, h.fits, ?_⟩
    simp only [false_iff, not_and]
    intro hf hz
    rcases hfail with hfail | hfail
    · omega
    · exact hfail (hzero.mpr hz)
  · refine ⟨h.high, h.length, h.fits, ?_⟩
    simp only [not_or, not_le, not_not] at hfail
    simp only [true_iff]
    exact ⟨hfail.1, hzero.mp hfail.2⟩

/-- Regrouping `a`-bit values into `b ≤ a` bits with padding, and back without, gives the
values back. -/
theorem convertBits_roundtrip {a b : Nat} (hb : 0 < b) (hba : b ≤ a) {xs : List Nat}
    (hxs : Fits a xs) : convertBits b a false (convertBits a b true xs).1 = (xs, true) := by
  obtain ⟨p, hp, -, hv, hl, hfit⟩ := convertBits_pad hb hxs
  obtain ⟨bits, hbits, hv', hl', hfit', hok⟩ :=
    convertBits_noPad (Nat.lt_of_lt_of_le hb hba) hfit
  -- the decoder is left with the padding bits, and as many values as the encoder read
  have hsame := eq_of_mul_add_eq hbits (by omega : p < a) (hl'.trans (by rw [hl]))
  obtain ⟨hlen, rfl⟩ := hsame
  have hval : groupsValue a (convertBits b a false (convertBits a b true xs).1).1 =
      groupsValue a xs := by
    rw [hv', hv, Nat.mul_div_cancel _ (Nat.two_pow_pos _)]
  refine Prod.ext (groupsValue_inj (by omega) hlen hfit' hxs hval) ?_
  exact hok.mpr ⟨hp, by rw [hv, Nat.mul_mod_left]⟩

/-! ## Characters -/

/-- `IsSpace(c)`: space, form feed, newline, carriage return, horizontal and vertical tab. -/
def isSpace (c : UInt8) : Bool :=
  c == ' '.toUInt8 || c == 0x0c || c == 0x0a || c == 0x0d || c == 0x09 || c == 0x0b

/-! ## Base64 and base32 -/

/-- `'='`. -/
def padChar : UInt8 := '='.toUInt8

/-- `while (str.size() % quantum) str += '=';`, with `quantum` as fuel. -/
def padEncoded (quantum : Nat) : Nat → List UInt8 → List UInt8
  | 0, str => str
  | fuel + 1, str => if str.length % quantum ≠ 0 then padEncoded quantum fuel (str ++ [padChar])
    else str

/-- `EncodeBase64` and `EncodeBase32`: the groups of `bits` bits of the bytes as characters of
`alphabet`, padded with `=` to a multiple of `quantum` characters. -/
def encodeBase (bits : Nat) (alphabet : List UInt8) (quantum : Nat) (input : List UInt8) :
    List UInt8 :=
  let str := (convertBits 8 bits true (input.map UInt8.toNat)).1.map fun v => alphabet.getD v 0
  padEncoded quantum quantum str

/-- The first loop of `DecodeBase64` and `DecodeBase32`:
`while (*p != 0) { int x = table[(unsigned char)*p]; if (x == -1) break; val.push_back(x); ++p; }`.
The values read and the string from the first character not read. -/
def readDigits (table : List Int) : List UInt8 → List Nat × List UInt8
  | [] => ([], [])
  | c :: cs =>
    if c = 0 then ([], c :: cs)
    else
      let x := table.getD c.toNat (-1)
      if x = -1 then ([], c :: cs)
      else
        let r := readDigits table cs
        (x.toNat :: r.1, r.2)

/-- `while (valid && *p != 0) { if (*p != '=') { valid = false; break; } ++p; }` from a valid
state: whether only `=` follow, and how many were read. -/
def readPadding : List UInt8 → Bool × Nat
  | [] => (true, 0)
  | c :: cs =>
    if c = 0 then (true, 0)
    else if c ≠ padChar then (false, 0)
    else
      let r := readPadding cs
      (r.1, r.2 + 1)

/-- `DecodeBase64(p, pf_invalid)` and `DecodeBase32(p, pf_invalid)`: the decoded bytes and
`*pf_invalid`. -/
def decodeBase (bits : Nat) (table : List Int) (quantum : Nat) (p : List UInt8) :
    List UInt8 × Bool :=
  let r := readDigits table p
  let val := r.1
  let conv := convertBits bits 8 false val
  let ret := conv.1.map UInt8.ofNat
  let pad := if conv.2 then readPadding r.2 else (false, 0)
  let valid := pad.1 && (val.length + pad.2) % quantum == 0 && decide (pad.2 < quantum)
  (ret, !valid)

/-- `pbase64`. -/
def pbase64 : List UInt8 :=
  "ABCDEFGHIJKLMNOPQRSTUVWXYZabcdefghijklmnopqrstuvwxyz0123456789+/".toList.map Char.toUInt8

/-- `decode64_table`. -/
def decode64_table : List Int :=
  ([-1, -1, -1, -1, -1, -1, -1, -1, -1, -1, -1, -1, -1, -1, -1, -1, -1, -1, -1, -1] : List Int) ++
  ([-1, -1, -1, -1, -1, -1, -1, -1, -1, -1, -1, -1, -1, -1, -1, -1, -1, -1, -1, -1] : List Int) ++
  ([-1, -1, -1, 62, -1, -1, -1, 63, 52, 53, 54, 55, 56, 57, 58, 59, 60, 61, -1, -1] : List Int) ++
  ([-1, -1, -1, -1, -1, 0, 1, 2, 3, 4, 5, 6, 7, 8, 9, 10, 11, 12, 13, 14] : List Int) ++
  ([15, 16, 17, 18, 19, 20, 21, 22, 23, 24, 25, -1, -1, -1, -1, -1, -1, 26, 27, 28] : List Int) ++
  ([29, 30, 31, 32, 33, 34, 35, 36, 37, 38, 39, 40, 41, 42, 43, 44, 45, 46, 47, 48] : List Int) ++
  ([49, 50, 51, -1, -1, -1, -1, -1, -1, -1, -1, -1, -1, -1, -1, -1, -1, -1, -1, -1] : List Int) ++
  ([-1, -1, -1, -1, -1, -1, -1, -1, -1, -1, -1, -1, -1, -1, -1, -1, -1, -1, -1, -1] : List Int) ++
  ([-1, -1, -1, -1, -1, -1, -1, -1, -1, -1, -1, -1, -1, -1, -1, -1, -1, -1, -1, -1] : List Int) ++
  ([-1, -1, -1, -1, -1, -1, -1, -1, -1, -1, -1, -1, -1, -1, -1, -1, -1, -1, -1, -1] : List Int) ++
  ([-1, -1, -1, -1, -1, -1, -1, -1, -1, -1, -1, -1, -1, -1, -1, -1, -1, -1, -1, -1] : List Int) ++
  ([-1, -1, -1, -1, -1, -1, -1, -1, -1, -1, -1, -1, -1, -1, -1, -1, -1, -1, -1, -1] : List Int) ++
  ([-1, -1, -1, -1, -1, -1, -1, -1, -1, -1, -1, -1, -1, -1, -1, -1] : List Int)

/-- `EncodeBase64(pch, len)`. -/
def encodeBase64 (input : List UInt8) : List UInt8 := encodeBase 6 pbase64 4 input

/-- `DecodeBase64(p, pf_invalid)`. -/
def decodeBase64 (p : List UInt8) : List UInt8 × Bool := decodeBase 6 decode64_table 4 p

/-- `pbase32`. -/
def pbase32 : List UInt8 := "abcdefghijklmnopqrstuvwxyz234567".toList.map Char.toUInt8

/-- `decode32_table`: upper and lower case letters both decode. -/
def decode32_table : List Int :=
  ([-1, -1, -1, -1, -1, -1, -1, -1, -1, -1, -1, -1, -1, -1, -1, -1, -1, -1, -1, -1] : List Int) ++
  ([-1, -1, -1, -1, -1, -1, -1, -1, -1, -1, -1, -1, -1, -1, -1, -1, -1, -1, -1, -1] : List Int) ++
  ([-1, -1, -1, -1, -1, -1, -1, -1, -1, -1, 26, 27, 28, 29, 30, 31, -1, -1, -1, -1] : List Int) ++
  ([-1, -1, -1, -1, -1, 0, 1, 2, 3, 4, 5, 6, 7, 8, 9, 10, 11, 12, 13, 14] : List Int) ++
  ([15, 16, 17, 18, 19, 20, 21, 22, 23, 24, 25, -1, -1, -1, -1, -1, -1, 0, 1, 2] : List Int) ++
  ([3, 4, 5, 6, 7, 8, 9, 10, 11, 12, 13, 14, 15, 16, 17, 18, 19, 20, 21, 22] : List Int) ++
  ([23, 24, 25, -1, -1, -1, -1, -1, -1, -1, -1, -1, -1, -1, -1, -1, -1, -1, -1, -1] : List Int) ++
  ([-1, -1, -1, -1, -1, -1, -1, -1, -1, -1, -1, -1, -1, -1, -1, -1, -1, -1, -1, -1] : List Int) ++
  ([-1, -1, -1, -1, -1, -1, -1, -1, -1, -1, -1, -1, -1, -1, -1, -1, -1, -1, -1, -1] : List Int) ++
  ([-1, -1, -1, -1, -1, -1, -1, -1, -1, -1, -1, -1, -1, -1, -1, -1, -1, -1, -1, -1] : List Int) ++
  ([-1, -1, -1, -1, -1, -1, -1, -1, -1, -1, -1, -1, -1, -1, -1, -1, -1, -1, -1, -1] : List Int) ++
  ([-1, -1, -1, -1, -1, -1, -1, -1, -1, -1, -1, -1, -1, -1, -1, -1, -1, -1, -1, -1] : List Int) ++
  ([-1, -1, -1, -1, -1, -1, -1, -1, -1, -1, -1, -1, -1, -1, -1, -1] : List Int)

/-- `EncodeBase32(pch, len)`. -/
def encodeBase32 (input : List UInt8) : List UInt8 := encodeBase 5 pbase32 8 input

/-- `DecodeBase32(p, pf_invalid)`. -/
def decodeBase32 (p : List UInt8) : List UInt8 × Bool := decodeBase 5 decode32_table 8 p

/-! ## Decoding what was encoded -/

theorem padChar_ne_zero : padChar ≠ 0 := by decide

/-- Some count of `=` up to `quantum` fills the string to a multiple of `quantum`. -/
theorem exists_pad_count (len quantum : Nat) (hq : 0 < quantum) :
    ∃ k ≤ quantum, (len + k) % quantum = 0 := by
  refine ⟨quantum - len % quantum, Nat.sub_le _ _, ?_⟩
  have h1 := Nat.div_add_mod len quantum
  have h2 := Nat.mod_lt len hq
  have h3 : len + (quantum - len % quantum) = quantum * (len / quantum + 1) := by
    rw [Nat.mul_succ]
    omega
  rw [h3, Nat.mul_mod_right]

/-- The padding loop appends fewer than `quantum` characters `=`, up to a multiple of
`quantum`. -/
theorem padEncoded_spec {quantum : Nat} (hq : 0 < quantum) : ∀ (fuel : Nat) (str : List UInt8)
    (k : Nat), k ≤ fuel → (str.length + k) % quantum = 0 →
    ∃ r < quantum, padEncoded quantum fuel str = str ++ List.replicate r padChar ∧
      (str.length + r) % quantum = 0 := by
  intro fuel
  induction fuel with
  | zero =>
    intro str k hk hmod
    obtain rfl : k = 0 := by omega
    exact ⟨0, hq, by simp [padEncoded], hmod⟩
  | succ fuel ih =>
    intro str k hk hmod
    rw [padEncoded]
    split_ifs with hne
    · -- one more `=`: the count is one more than the rest of the loop's
      obtain ⟨k, rfl⟩ : ∃ j, k = j + 1 := ⟨k - 1, by
        rcases Nat.eq_zero_or_pos k with h | h
        · rw [h, Nat.add_zero] at hmod; exact absurd hmod hne
        · omega⟩
      have hmod1 : ((str ++ [padChar]).length + k) % quantum = 0 := by
        rw [List.length_append, List.length_singleton, Nat.add_assoc, Nat.add_comm 1]
        exact hmod
      obtain ⟨r, hr, heq, hmod'⟩ := ih (str ++ [padChar]) k (by omega) hmod1
      rw [List.length_append, List.length_singleton] at hmod'
      refine ⟨r + 1, ?_, ?_, ?_⟩
      · -- `r + 1 = quantum` would make the string a multiple of `quantum` already
        by_contra hge
        have hr' : r = quantum - 1 := by omega
        rw [hr', Nat.add_assoc, Nat.add_sub_cancel' hq, Nat.add_mod_right] at hmod'
        exact hne hmod'
      · rw [heq, List.append_assoc, List.singleton_append, List.replicate_succ]
      · rwa [← Nat.add_assoc, Nat.add_right_comm]
    · exact ⟨0, hq, by simp, by simpa using hne⟩

section Alphabet

variable {bits : Nat} {alphabet : List UInt8} {table : List Int}

/-- The table inverts the alphabet, and `=` is not in it. -/
structure AlphabetTable (bits : Nat) (alphabet : List UInt8) (table : List Int) : Prop where
  decode : ∀ v < 2 ^ bits,
    alphabet.getD v 0 ≠ 0 ∧ table.getD (alphabet.getD v 0).toNat (-1) = v
  pad : table.getD padChar.toNat (-1) = -1

/-- The first loop of the decoder reads the values of the alphabet characters and stops at
the padding. -/
theorem readDigits_encoded (h : AlphabetTable bits alphabet table) (r : Nat) :
    ∀ e : List Nat, Fits bits e →
      readDigits table (e.map (fun v => alphabet.getD v 0) ++ List.replicate r padChar) =
        (e, List.replicate r padChar)
  | [], _ => by
    cases r with
    | zero => rfl
    | succ r =>
      simp only [List.map_nil, List.nil_append, List.replicate_succ, readDigits,
        padChar_ne_zero, if_false, h.pad, if_true]
  | v :: e, he => by
    obtain ⟨hne, hv⟩ := h.decode v (he v List.mem_cons_self)
    have ih := readDigits_encoded h r e (fun w hw => he w (List.mem_cons_of_mem _ hw))
    simp only [List.map_cons, List.cons_append, readDigits, hne, if_false, hv, ih]
    simp

theorem readPadding_replicate (r : Nat) : readPadding (List.replicate r padChar) = (true, r) := by
  induction r with
  | zero => rfl
  | succ r ih => simp [List.replicate_succ, readPadding, padChar_ne_zero, ih]

/-- `DecodeBase64` and `DecodeBase32` read back what `EncodeBase64` and `EncodeBase32` wrote,
and report it valid. -/
theorem decodeBase_encodeBase {quantum : Nat} (hb : 0 < bits) (hb8 : bits ≤ 8) (hq : 0 < quantum)
    (h : AlphabetTable bits alphabet table) (input : List UInt8) :
    decodeBase bits table quantum (encodeBase bits alphabet quantum input) = (input, false) := by
  have hin : Fits 8 (input.map UInt8.toNat) := by
    intro x hx
    obtain ⟨b, -, rfl⟩ := List.mem_map.mp hx
    exact b.toNat_lt
  obtain ⟨-, -, -, -, -, hfits⟩ := convertBits_pad hb hin
  obtain ⟨k, hk, hkmod⟩ := exists_pad_count
    ((convertBits 8 bits true (input.map UInt8.toNat)).1.map fun v => alphabet.getD v 0).length
    quantum hq
  obtain ⟨r, hr, heq, hmod⟩ := padEncoded_spec hq quantum _ k hk hkmod
  rw [List.length_map] at hmod
  simp only [encodeBase, heq, decodeBase, readDigits_encoded h r _ hfits,
    convertBits_roundtrip hb hb8 hin, if_true, readPadding_replicate, hmod, hr]
  simp [Function.comp_def]

end Alphabet

theorem base64_alphabet : AlphabetTable 6 pbase64 decode64_table :=
  ⟨by decide, by decide⟩

theorem base32_alphabet : AlphabetTable 5 pbase32 decode32_table :=
  ⟨by decide, by decide⟩

example : encodeBase64 [77, 97, 110] = "TWFu".toList.map Char.toUInt8 := by decide

/-- Base64 and base32 decode what they encode and report it valid, and `ConvertBits` from
bytes to 5 or 6 bits and back gives the bytes. -/
theorem base64_base32_convertBits_roundtrip :
    (∀ s : List UInt8, decodeBase64 (encodeBase64 s) = (s, false)) ∧
    (∀ s : List UInt8, decodeBase32 (encodeBase32 s) = (s, false)) ∧
    (∀ k : Nat, k = 5 ∨ k = 6 → ∀ s : List UInt8,
      convertBits k 8 false (convertBits 8 k true (s.map UInt8.toNat)).1 =
        (s.map UInt8.toNat, true)) := by
  refine ⟨fun s => ?_, fun s => ?_, fun k hk s => ?_⟩
  · exact decodeBase_encodeBase (by decide) (by decide) (by decide) base64_alphabet s
  · exact decodeBase_encodeBase (by decide) (by decide) (by decide) base32_alphabet s
  · have hs : Fits 8 (s.map UInt8.toNat) := by
      intro x hx
      obtain ⟨b, -, rfl⟩ := List.mem_map.mp hx
      exact b.toNat_lt
    have hk8 : 0 < k ∧ k ≤ 8 := by omega
    exact convertBits_roundtrip hk8.1 hk8.2 hs

theorem convertBits_roundtrip_man :
    convertBits 6 8 false (convertBits 8 6 true (([77, 97, 110] : List UInt8).map UInt8.toNat)).1 =
      (([77, 97, 110] : List UInt8).map UInt8.toNat, true) :=
  base64_base32_convertBits_roundtrip.2.2 6 (Or.inr rfl) [77, 97, 110]

end Veles
