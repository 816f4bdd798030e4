import Mathlib

/-!
# Sign and magnitude, little endian

A byte string stands for an integer: its bytes are the magnitude, least significant first,
and the top bit of the last byte is the sign.  `decode` reads any string.  `encode` writes
the shortest one: the bytes of the magnitude, with the sign put in the top bit of the last
byte, or in a byte of its own when the magnitude already uses that bit.  The shortest
strings are those whose last byte carries a magnitude bit, or is only a sign because the
byte below it uses the top bit (`isMinimal`), and between them and the integers `encode`
and `decode` are inverse:

    decode (encode z) = z                                    (decode_encode)
    isMinimal (encode z) = true                              (isMinimal_encode)
    isMinimal v = true → encode (decode v) = v               (encode_decode)
    decode (init ++ [b]) = 0 ↔ value init = 0 ∧ b &&& 0x7f = 0   (decode_concat_eq_zero_iff)
-/

namespace SignMagnitude

/-- The number the bytes stand for, least significant first. -/
def value (v : List UInt8) : Nat := Nat.ofDigits 256 (v.map UInt8.toNat)

/-- The bytes of a magnitude, least significant first, with no zero byte on top. -/
def magnitude (m : Nat) : List UInt8 := (Nat.digits 256 m).map Nat.toUInt8

/-- The integer a byte string stands for. -/
def decode (v : List UInt8) : Int :=
  match v.getLast? with
  | none => 0
  | some b =>
    let m : Nat := value v.dropLast + 256 ^ (v.length - 1) * (b &&& 0x7f).toNat
    if b &&& 0x80 = 0 then (m : Int) else -(m : Int)

/-- The shortest byte string of an integer. -/
def encode (z : Int) : List UInt8 :=
  let r := magnitude z.natAbs
  match r.getLast? with
  | none => []
  | some d =>
    if d &&& 0x80 ≠ 0 then r ++ [if z < 0 then 0x80 else 0]
    else if z < 0 then r.dropLast ++ [d ||| 0x80] else r

/-- The last byte carries a magnitude bit, or the byte below it uses the top bit. -/
def isMinimal (v : List UInt8) : Bool :=
  match v.getLast? with
  | none => true
  | some b => b &&& 0x7f != 0 || (match v.dropLast.getLast? with
    | none => false
    | some c => c &&& 0x80 != 0)

/-! ## Bytes -/

theorem toNat_and_0x7f (b : UInt8) : (b &&& 0x7f).toNat = b.toNat % 128 := by
  rw [UInt8.toNat_and, show (0x7f : UInt8).toNat = 2 ^ 7 - 1 from rfl,
    Nat.and_two_pow_sub_one_eq_mod]

theorem toNat_and_0x80 (b : UInt8) : (b &&& 0x80).toNat = if b.toNat < 128 then 0 else 128 := by
  have hb := b.toNat_lt
  rw [UInt8.toNat_and, show (0x80 : UInt8).toNat = 2 ^ 7 from rfl, Nat.and_two_pow,
    Nat.testBit_eq_decide_div_mod_eq]
  split
  · next h => rw [Nat.div_eq_of_lt (by omega)]; rfl
  · next h => rw [Nat.div_eq_of_lt_le (k := 1) (by omega) (by change _ < 256 at hb; omega)]; rfl

theorem toNat_or_0x80 (b : UInt8) : (b ||| 0x80).toNat = b.toNat % 128 + 128 := by
  have hb : b.toNat < 2 ^ 8 := b.toNat_lt
  rw [UInt8.toNat_or, show (0x80 : UInt8).toNat = 2 ^ 7 from rfl,
    show b.toNat % 128 + 128 = 2 ^ 7 * 1 + b.toNat % 2 ^ 7 by omega,
    Nat.two_pow_add_eq_or_of_lt (Nat.mod_lt _ (by omega)), Nat.mul_one]
  apply Nat.eq_of_testBit_eq
  intro i
  rw [Nat.testBit_or, Nat.testBit_or, Nat.testBit_mod_two_pow, Nat.testBit_two_pow]
  -- the two sides differ only in the bits below 7, and `b` has none from 8 up
  by_cases hi : i < 7
  · simp [hi, show 7 ≠ i by omega]
  · by_cases h7 : i = 7
    · simp [h7]
    · have : b.toNat.testBit i = false :=
        Nat.testBit_lt_two_pow (lt_of_lt_of_le hb (Nat.pow_le_pow_right (by omega) (by omega)))
      simp [hi, this, show 7 ≠ i by omega]

/-- The sign bit is clear exactly on the bytes below `0x80`. -/
theorem and_0x80_eq_zero_iff (b : UInt8) : b &&& 0x80 = 0 ↔ b.toNat < 128 := by
  rw [← UInt8.toNat_inj, toNat_and_0x80, UInt8.toNat_zero]
  split <;> omega

theorem and_0x7f_of_and_0x80 (b : UInt8) (h : b &&& 0x80 = 0) : b &&& 0x7f = b := by
  rw [and_0x80_eq_zero_iff] at h
  apply UInt8.toNat_inj.mp
  rw [toNat_and_0x7f]
  omega

theorem or_0x80_and_0x7f (d : UInt8) (h : d &&& 0x80 = 0) : (d ||| 0x80) &&& 0x7f = d := by
  rw [and_0x80_eq_zero_iff] at h
  apply UInt8.toNat_inj.mp
  rw [toNat_and_0x7f, toNat_or_0x80]
  omega

theorem or_0x80_and_0x80 (d : UInt8) : (d ||| 0x80) &&& 0x80 ≠ 0 := by
  rw [ne_eq, and_0x80_eq_zero_iff, toNat_or_0x80]
  omega

theorem and_0x7f_or_0x80 (b : UInt8) (h : b &&& 0x80 ≠ 0) : (b &&& 0x7f) ||| 0x80 = b := by
  rw [ne_eq, and_0x80_eq_zero_iff] at h
  have hb := b.toNat_lt
  apply UInt8.toNat_inj.mp
  rw [toNat_or_0x80, toNat_and_0x7f]
  change b.toNat < 256 at hb
  omega

theorem and_0x7f_and_0x80 (b : UInt8) : (b &&& 0x7f) &&& 0x80 = 0 := by
  rw [and_0x80_eq_zero_iff, toNat_and_0x7f]
  omega

theorem and_0x7f_eq_zero_iff (b : UInt8) : b &&& 0x7f = 0 ↔ b = 0 ∨ b = 0x80 := by
  have hb := b.toNat_lt
  change b.toNat < 256 at hb
  have e0 : b = 0 ↔ b.toNat = 0 := by rw [← UInt8.toNat_inj]; rfl
  have e1 : b = 0x80 ↔ b.toNat = 128 := by rw [← UInt8.toNat_inj]; rfl
  rw [← UInt8.toNat_inj, toNat_and_0x7f, UInt8.toNat_zero, e0, e1]
  omega

/-! ## Magnitudes -/

@[simp] theorem value_nil : value [] = 0 := rfl

theorem value_append (l₁ l₂ : List UInt8) :
    value (l₁ ++ l₂) = value l₁ + 256 ^ l₁.length * value l₂ := by
  simp [value, Nat.ofDigits_append]

@[simp] theorem value_singleton (b : UInt8) : value [b] = b.toNat := by
  simp [value]

theorem value_concat (l : List UInt8) (b : UInt8) :
    value (l ++ [b]) = value l + 256 ^ l.length * b.toNat := by
  rw [value_append, value_singleton]

theorem value_lt (l : List UInt8) : value l < 256 ^ l.length := by
  have h := Nat.ofDigits_lt_base_pow_length (b := 256) (l := l.map UInt8.toNat) (by omega)
    (fun x hx => by obtain ⟨b, -, rfl⟩ := List.mem_map.mp hx; exact b.toNat_lt)
  rwa [List.length_map] at h

theorem value_eq_zero_iff : ∀ l : List UInt8, value l = 0 ↔ ∀ x ∈ l, x = 0
  | [] => by simp
  | b :: l => by
    have ih := value_eq_zero_iff l
    have hb : b = 0 ↔ b.toNat = 0 := by rw [← UInt8.toNat_inj]; rfl
    simp only [value, List.map_cons, Nat.ofDigits_cons] at ih ⊢
    rw [List.forall_mem_cons, ← ih, hb]
    omega

theorem digits_map_toNat (m : Nat) : (magnitude m).map UInt8.toNat = Nat.digits 256 m := by
  rw [magnitude, List.map_map]
  conv => rhs; rw [← List.map_id (Nat.digits 256 m)]
  apply List.map_congr_left
  intro d hd
  have : d < 256 := Nat.digits_lt_base (by omega) hd
  simp only [Function.comp_apply, Nat.toUInt8, UInt8.toNat_ofNat', id]
  omega

@[simp] theorem value_magnitude (m : Nat) : value (magnitude m) = m := by
  rw [value, digits_map_toNat, Nat.ofDigits_digits]

theorem length_magnitude (m : Nat) : (magnitude m).length = (Nat.digits 256 m).length := by
  rw [magnitude, List.length_map]

theorem magnitude_eq_nil_iff {m : Nat} : magnitude m = [] ↔ m = 0 := by
  rw [magnitude, List.map_eq_nil_iff, Nat.digits_eq_nil_iff_eq_zero]

/-- A nonzero magnitude is its low byte followed by the magnitude of the rest. -/
theorem magnitude_of_ne_zero {m : Nat} (hm : m ≠ 0) :
    magnitude m = (m % 256).toUInt8 :: magnitude (m / 256) := by
  rw [magnitude, Nat.digits_def' (by omega) (Nat.pos_of_ne_zero hm), List.map_cons]
  rfl

/-- Bytes with a nonzero last byte are the magnitude of their value. -/
theorem magnitude_value {l : List UInt8} {b : UInt8} (hb : b ≠ 0) :
    magnitude (value (l ++ [b])) = l ++ [b] := by
  have hdig : Nat.digits 256 (value (l ++ [b])) = (l ++ [b]).map UInt8.toNat := by
    apply Nat.digits_ofDigits _ (by omega)
    · intro x hx
      obtain ⟨c, -, rfl⟩ := List.mem_map.mp hx
      exact c.toNat_lt
    · intro _
      rw [List.getLast_map, List.getLast_concat]
      exact fun h => hb (UInt8.toNat_inj.mp h)
  rw [magnitude, hdig, List.map_map]
  conv => rhs; rw [← List.map_id (l ++ [b])]
  apply List.map_congr_left
  intro c _
  simp

/-- A nonzero magnitude ends in a nonzero byte. -/
theorem magnitude_eq_concat {m : Nat} (hm : m ≠ 0) :
    ∃ init d, magnitude m = init ++ [d] ∧ d ≠ 0 ∧ value init + 256 ^ init.length * d.toNat = m := by
  obtain ⟨init, d, hid⟩ : ∃ init d, magnitude m = init ++ [d] := by
    rcases List.eq_nil_or_concat (magnitude m) with h | ⟨init, d, h⟩
    · exact absurd ((magnitude_eq_nil_iff).mp h) hm
    · exact ⟨init, d, by rw [h, List.concat_eq_append]⟩
  refine ⟨init, d, hid, ?_, ?_⟩
  · intro hd
    have hlast := Nat.getLast_digit_ne_zero 256 hm
    have hmap := digits_map_toNat m
    rw [hid] at hmap
    simp only [← hmap, List.getLast_map, List.getLast_concat, hd, UInt8.toNat_zero] at hlast
    exact hlast rfl
  · rw [← value_concat, ← hid, value_magnitude]

/-! ## Reading and writing -/

theorem decode_concat (init : List UInt8) (b : UInt8) :
    decode (init ++ [b]) =
      if b &&& 0x80 = 0 then ((value init + 256 ^ init.length * (b &&& 0x7f).toNat : Nat) : Int)
      else -((value init + 256 ^ init.length * (b &&& 0x7f).toNat : Nat) : Int) := by
  simp [decode]

@[simp] theorem decode_nil : decode [] = 0 := rfl

@[simp] theorem encode_zero : encode 0 = [] := rfl

/-- The three shapes of `encode` on a nonzero integer. -/
theorem encode_of_ne_zero {z : Int} (hz : z ≠ 0) :
    ∃ init d, magnitude z.natAbs = init ++ [d] ∧ d ≠ 0 ∧
      value init + 256 ^ init.length * d.toNat = z.natAbs ∧
      encode z = if d &&& 0x80 ≠ 0 then init ++ [d] ++ [if z < 0 then 0x80 else 0]
        else if z < 0 then init ++ [d ||| 0x80] else init ++ [d] := by
  obtain ⟨init, d, hid, hd, hval⟩ := magnitude_eq_concat (Int.natAbs_ne_zero.mpr hz)
  refine ⟨init, d, hid, hd, hval, ?_⟩
  simp only [encode, hid, List.getLast?_concat, List.dropLast_concat]

theorem decode_encode (z : Int) : decode (encode z) = z := by
  rcases eq_or_ne z 0 with rfl | hz
  · rfl
  obtain ⟨init, d, -, -, hval, henc⟩ := encode_of_ne_zero hz
  rw [henc]
  by_cases htop : d &&& 0x80 ≠ 0
  · -- a byte of its own for the sign
    rw [if_pos htop, decode_concat, List.length_append, List.length_singleton, value_concat]
    by_cases hneg : z < 0
    · simp only [if_pos hneg, show (0x80 : UInt8) &&& 0x80 ≠ 0 by decide, if_false,
        show (0x80 : UInt8) &&& 0x7f = 0 by decide, UInt8.toNat_zero]
      omega
    · simp only [if_neg hneg, show (0 : UInt8) &&& 0x80 = 0 by decide, if_true,
        show (0 : UInt8) &&& 0x7f = 0 by decide, UInt8.toNat_zero]
      omega
  · rw [if_neg htop]
    rw [not_not] at htop
    by_cases hneg : z < 0
    · -- the sign in the top bit of the last byte
      rw [if_pos hneg, decode_concat, if_neg (or_0x80_and_0x80 d), or_0x80_and_0x7f d htop]
      omega
    · rw [if_neg hneg, decode_concat, if_pos htop, and_0x7f_of_and_0x80 d htop]
      omega

theorem isMinimal_encode (z : Int) : isMinimal (encode z) = true := by
  rcases eq_or_ne z 0 with rfl | hz
  · rfl
  obtain ⟨init, d, -, hd, -, henc⟩ := encode_of_ne_zero hz
  rw [henc]
  by_cases htop : d &&& 0x80 ≠ 0
  · rw [if_pos htop]
    simp [isMinimal, htop]
  · rw [if_neg htop]
    rw [not_not] at htop
    have hd7 : d &&& 0x7f ≠ 0 := by rw [and_0x7f_of_and_0x80 d htop]; exact hd
    by_cases hneg : z < 0
    · rw [if_pos hneg]
      simp [isMinimal, or_0x80_and_0x7f d htop, hd]
    · rw [if_neg hneg]
      simp [isMinimal, hd7]

/-- A shortest string is the encoding of what it stands for. -/
theorem encode_decode (v : List UInt8) (hv : isMinimal v = true) : encode (decode v) = v := by
  rcases List.eq_nil_or_concat v with rfl | ⟨init, b, rfl⟩
  · rfl
  rw [List.concat_eq_append] at hv ⊢
  simp only [isMinimal, List.getLast?_concat, List.dropLast_concat, Bool.or_eq_true,
    bne_iff_ne] at hv
  rw [decode_concat]
  by_cases hb : b &&& 0x7f = 0
  · -- only a sign: the byte below it uses the top bit, and the magnitude ends there
    obtain ⟨init', c, rfl, hc⟩ : ∃ init' c, init = init' ++ [c] ∧ c &&& 0x80 ≠ 0 := by
      rcases List.eq_nil_or_concat init with rfl | ⟨init', c, rfl⟩
      · simp [hb] at hv
      · refine ⟨init', c, List.concat_eq_append, ?_⟩
        simpa [hb] using hv
    have hc0 : c ≠ 0 := fun h => hc (by rw [h]; decide)
    have hmag := magnitude_value (l := init') hc0
    have hpos : value (init' ++ [c]) ≠ 0 := by
      rw [value_concat]
      have : c.toNat ≠ 0 := fun h => hc0 (UInt8.toNat_inj.mp h)
      positivity
    rw [hb, UInt8.toNat_zero, Nat.mul_zero, Nat.add_zero]
    rcases (and_0x7f_eq_zero_iff b).mp hb with rfl | rfl
    · rw [if_pos (by decide)]
      simp only [encode, Int.natAbs_natCast, hmag, List.getLast?_concat, ne_eq, hc,
        not_false_eq_true, if_true]
      rw [if_neg (by omega)]
    · rw [if_neg (by decide)]
      simp only [encode, Int.natAbs_neg, Int.natAbs_natCast, hmag, List.getLast?_concat, ne_eq,
        hc, not_false_eq_true, if_true]
      rw [if_pos (by omega)]
  · -- the last byte carries magnitude bits: the magnitude ends in it
    have hmag := magnitude_value (l := init) hb
    rw [value_concat] at hmag
    have hpos : value init + 256 ^ init.length * (b &&& 0x7f).toNat ≠ 0 := by
      have : (b &&& 0x7f).toNat ≠ 0 := fun h => hb (UInt8.toNat_inj.mp h)
      positivity
    have htop := and_0x7f_and_0x80 b
    by_cases hs : b &&& 0x80 = 0
    · rw [if_pos hs]
      simp only [encode, Int.natAbs_natCast, hmag, List.getLast?_concat, List.dropLast_concat,
        htop, ne_eq, not_true_eq_false, if_false]
      rw [if_neg (by omega), and_0x7f_of_and_0x80 b hs]
    · rw [if_neg hs]
      simp only [encode, Int.natAbs_neg, Int.natAbs_natCast, hmag, List.getLast?_concat,
        List.dropLast_concat, htop, ne_eq, not_true_eq_false, if_false]
      rw [if_pos (by omega), and_0x7f_or_0x80 b hs]

/-- The string stands for zero when its magnitude bits are all clear: a last byte `0x80` is a
negative zero. -/
theorem decode_concat_eq_zero_iff (init : List UInt8) (b : UInt8) :
    decode (init ++ [b]) = 0 ↔ value init = 0 ∧ b &&& 0x7f = 0 := by
  have hpow : 0 < 256 ^ init.length := Nat.pow_pos (by omega)
  have hb : b &&& 0x7f = 0 ↔ (b &&& 0x7f).toNat = 0 := by rw [← UInt8.toNat_inj]; rfl
  rw [decode_concat, hb]
  split
  · rw [Int.natCast_eq_zero, Nat.add_eq_zero_iff, Nat.mul_eq_zero]
    omega
  · rw [neg_eq_zero, Int.natCast_eq_zero, Nat.add_eq_zero_iff, Nat.mul_eq_zero]
    omega

/-- The magnitude of a string of `k + 1` bytes is below `128 * 256 ^ k`. -/
theorem natAbs_decode_lt (init : List UInt8) (b : UInt8) :
    (decode (init ++ [b])).natAbs < 128 * 256 ^ init.length := by
  have hv := value_lt init
  have hb : (b &&& 0x7f).toNat < 128 := by rw [toNat_and_0x7f]; omega
  have hmul : 256 ^ init.length * (b &&& 0x7f).toNat ≤ 256 ^ init.length * 127 :=
    Nat.mul_le_mul_left _ (by omega)
  rw [decode_concat]
  split
  · rw [Int.natAbs_natCast]
    omega
  · rw [Int.natAbs_neg, Int.natAbs_natCast]
    omega

/-- A magnitude below `128 * 256 ^ k` is written in at most `k + 1` bytes. -/
theorem length_encode_le {z : Int} (k : Nat) (h : z.natAbs < 128 * 256 ^ k) :
    (encode z).length ≤ k + 1 := by
  rcases eq_or_ne z 0 with rfl | hz
  · simp
  obtain ⟨init, d, -, hd, hval, henc⟩ := encode_of_ne_zero hz
  have hd1 : 1 ≤ d.toNat := Nat.pos_of_ne_zero (fun h => hd (UInt8.toNat_inj.mp h))
  have hlow : 256 ^ init.length * 1 ≤ 256 ^ init.length * d.toNat := Nat.mul_le_mul_left _ hd1
  -- the top byte is nonzero, so the magnitude is at least `256 ^ init.length`
  have hk : init.length ≤ k := by
    by_contra hgt
    have : 256 ^ (k + 1) ≤ 256 ^ init.length := Nat.pow_le_pow_right (by omega) (by omega)
    rw [Nat.pow_succ] at this
    omega
  rw [henc]
  split
  · next htop =>
    -- a top byte from `0x80` up leaves room for the sign byte only below `k`
    rw [ne_eq, and_0x80_eq_zero_iff] at htop
    have hhigh : 256 ^ init.length * 128 ≤ 256 ^ init.length * d.toNat :=
      Nat.mul_le_mul_left _ (by omega)
    have hk' : init.length < k := by
      by_contra hge
      have : 256 ^ k ≤ 256 ^ init.length := Nat.pow_le_pow_right (by omega) (by omega)
      have : 128 * 256 ^ k ≤ 256 ^ init.length * 128 := by rw [Nat.mul_comm]; omega
      omega
    simp only [List.length_append, List.length_singleton]
    omega
  · split <;> simp only [List.length_append, List.length_singleton] <;> omega

end SignMagnitude
