import Veles.Lib.BitGroups

/-!
# Bech32

`bech32::Encode(hrp, values)` (bech32.cpp) writes the human-readable part, the separator
`1`, then the values and a six-value checksum through `CHARSET`.  The checksum makes
`PolyMod` of the expanded part followed by the values equal to 1.  `bech32::Decode` accepts
printable strings of one case and at most 90 characters, splits them at the last `1`,
checks the checksum and lower-cases the human-readable part.

`PolyMod` keeps a remainder below `2^30` (`polyMod_lt`), so `uint32_t` is `Nat` here.  Its
six last steps only shift their input into the low 30 bits: the checksum of a string is
the remainder of its values followed by zeros, xor the packed checksum
(`polyModSteps_xor`).

    decode (encode hrp values) = (hrp, values)
    decode s = (hrp, values), hrp ≠ [] → encode hrp values = s.map lowerCase
-/

namespace Veles.Bech32

open BitGroups

/-- `CHARSET`. -/
def CHARSET : List UInt8 := "qpzry9x8gf2tvdw0s3jn54khce6mua7l".toList.map Char.toUInt8

/-- `CHARSET_REV`. -/
def CHARSET_REV : List Int :=
  ([-1, -1, -1, -1, -1, -1, -1, -1, -1, -1, -1, -1, -1, -1, -1, -1] : List Int) ++
  ([-1, -1, -1, -1, -1, -1, -1, -1, -1, -1, -1, -1, -1, -1, -1, -1] : List Int) ++
  ([-1, -1, -1, -1, -1, -1, -1, -1, -1, -1, -1, -1, -1, -1, -1, -1] : List Int) ++
  ([15, -1, 10, 17, 21, 20, 26, 30, 7, 5, -1, -1, -1, -1, -1, -1] : List Int) ++
  ([-1, 29, -1, 24, 13, 25, 9, 8, 23, -1, 18, 22, 31, 27, 19, -1] : List Int) ++
  ([1, 0, 3, 16, 11, 28, 12, 14, 6, 4, 2, -1, -1, -1, -1, -1] : List Int) ++
  ([-1, 29, -1, 24, 13, 25, 9, 8, 23, -1, 18, 22, 31, 27, 19, -1] : List Int) ++
  ([1, 0, 3, 16, 11, 28, 12, 14, 6, 4, 2, -1, -1, -1, -1, -1] : List Int)

/-- The generator multiples `{2^n}k(x)` that `PolyMod` adds for each bit of `c0`. -/
def polyModStep (c : Nat) (v_i : UInt8) : Nat :=
  let c0 := c >>> 25
  let c := ((c &&& 0x1ffffff) <<< 5) ^^^ v_i.toNat
  let c := if c0 &&& 1 ≠ 0 then c ^^^ 0x3b6a57b2 else c
  let c := if c0 &&& 2 ≠ 0 then c ^^^ 0x26508e6d else c
  let c := if c0 &&& 4 ≠ 0 then c ^^^ 0x1ea119fa else c
  let c := if c0 &&& 8 ≠ 0 then c ^^^ 0x3d4233dd else c
  if c0 &&& 16 ≠ 0 then c ^^^ 0x2a1462b3 else c

/-- `PolyMod(v)`: the remainder of `v`, with an implicit leading 1, by the generator. -/
def polyMod (v : List UInt8) : Nat := v.foldl polyModStep 1

/-- `LowerCase(c)`. -/
def lowerCase (c : UInt8) : UInt8 :=
  if c ≥ 'A'.toUInt8 ∧ c ≤ 'Z'.toUInt8 then (c - 'A'.toUInt8) + 'a'.toUInt8 else c

/-- `ExpandHRP(hrp)`: the high bits of each character, a zero, then the low five bits. -/
def expandHRP (hrp : List UInt8) : List UInt8 :=
  hrp.map (fun c : UInt8 => c >>> 5) ++ [0] ++ hrp.map (fun c : UInt8 => c &&& 0x1f)

/-- `VerifyChecksum(hrp, values)`. -/
def verifyChecksum (hrp values : List UInt8) : Bool :=
  polyMod (expandHRP hrp ++ values) == 1

/-- `ret[i] = (mod >> (5 * (5 - i))) & 31` for the six checksum values. -/
def checksumGroups (mod : Nat) : List UInt8 :=
  (List.range 6).map fun i => UInt8.ofNat ((mod >>> (5 * (5 - i))) &&& 31)

/-- `CreateChecksum(hrp, values)`: the six five-bit groups of what makes the remainder 1. -/
def createChecksum (hrp values : List UInt8) : List UInt8 :=
  let enc := expandHRP hrp ++ values ++ List.replicate 6 0
  let mod := polyMod enc ^^^ 1
  checksumGroups mod

/-- The separator `'1'`. -/
def separator : UInt8 := '1'.toUInt8

/-- `bech32::Encode(hrp, values)`. -/
def encode (hrp values : List UInt8) : List UInt8 :=
  let checksum := createChecksum hrp values
  let combined := values ++ checksum
  hrp ++ [separator] ++ combined.map fun c => CHARSET.getD c.toNat 0

/-- The first loop of `Decode`: which cases occur, or `none` for a character outside
`33..126` that is not a letter. -/
def checkCase : List UInt8 → Bool → Bool → Option (Bool × Bool)
  | [], lower, upper => some (lower, upper)
  | c :: cs, lower, upper =>
    if c ≥ 'a'.toUInt8 ∧ c ≤ 'z'.toUInt8 then checkCase cs true upper
    else if c ≥ 'A'.toUInt8 ∧ c ≤ 'Z'.toUInt8 then checkCase cs lower true
    else if c < 33 ∨ c > 126 then none
    else checkCase cs lower upper

/-- `str.rfind(c)`: the position of the last `c`. -/
def rfind (c : UInt8) : List UInt8 → Option Nat
  | [] => none
  | x :: xs =>
    match rfind c xs with
    | some i => some (i + 1)
    | none => if x = c then some 0 else none

/-- The loop of `Decode` over the data part: `CHARSET_REV` of each character, `none` at the
first that is not in the character set. -/
def decodeValues : List UInt8 → Option (List UInt8)
  | [] => some []
  | c :: cs =>
    let rev := CHARSET_REV.getD c.toNat (-1)
    if rev = -1 then none else (decodeValues cs).map (UInt8.ofNat rev.toNat :: ·)

/-- `bech32::Decode(str)`: the human-readable part and the values, `{}` for a rejected
string. -/
def decode (str : List UInt8) : List UInt8 × List UInt8 :=
  match checkCase str false false with
  | none => ([], [])
  | some (lower, upper) =>
    if lower && upper then ([], [])
    else
      match rfind separator str with
      | none => ([], [])
      | some pos =>
        if str.length > 90 ∨ pos = 0 ∨ pos + 7 > str.length then ([], [])
        else
          match decodeValues (str.drop (pos + 1)) with
          | none => ([], [])
          | some values =>
            let hrp := (str.take pos).map lowerCase
            if !verifyChecksum hrp values then ([], [])
            else (hrp, values.take (values.length - 6))

example : decode ("a12uel5l".toList.map Char.toUInt8) = (['a'.toUInt8], []) := by
  decide


example : encode ['a'.toUInt8] [] = "a12uel5l".toList.map Char.toUInt8 := by decide

/-! ## `PolyMod`

A step shifts the remainder up by five bits, adds the value and reduces the five bits
shifted out with the generator.  What is xored into the remainder below bit 25 only moves up,
so over six steps the input values end up packed in the low 30 bits. -/

/-- The reduction by the generator of the five bits `c0` shifted out. -/
def polyModGen (c0 : Nat) : Nat :=
  (if c0 &&& 1 ≠ 0 then 0x3b6a57b2 else 0) ^^^ (if c0 &&& 2 ≠ 0 then 0x26508e6d else 0) ^^^
    (if c0 &&& 4 ≠ 0 then 0x1ea119fa else 0) ^^^ (if c0 &&& 8 ≠ 0 then 0x3d4233dd else 0) ^^^
    (if c0 &&& 16 ≠ 0 then 0x2a1462b3 else 0)

theorem ite_xor (p : Prop) [Decidable p] (x k : Nat) :
    (if p then x ^^^ k else x) = x ^^^ (if p then k else 0) := by
  split_ifs <;> simp

theorem polyModStep_eq (c : Nat) (v : UInt8) :
    polyModStep c v = ((c &&& 0x1ffffff) <<< 5) ^^^ v.toNat ^^^ polyModGen (c >>> 25) := by
  dsimp only [polyModStep]
  rw [ite_xor, ite_xor, ite_xor, ite_xor, ite_xor]
  simp only [polyModGen, Nat.xor_assoc]

theorem polyModGen_lt (c0 : Nat) : polyModGen c0 < 2 ^ 30 := by
  have h : ∀ (p : Prop) [Decidable p] (k : Nat), k < 2 ^ 30 → (if p then k else 0) < 2 ^ 30 := by
    intro p _ k hk
    split_ifs <;> omega
  unfold polyModGen
  repeat apply Nat.xor_lt_two_pow
  all_goals exact h _ _ (by norm_num)

/-- The remainder stays below `2^30`, so `uint32_t` never wraps. -/
theorem polyModStep_lt (c : Nat) (v : UInt8) : polyModStep c v < 2 ^ 30 := by
  rw [polyModStep_eq]
  have hmask : (c &&& 0x1ffffff) <<< 5 < 2 ^ 30 := by
    have : c &&& 0x1ffffff ≤ 0x1ffffff := Nat.and_le_right
    rw [Nat.shiftLeft_eq]
    omega
  have hv : v.toNat < 2 ^ 30 := Nat.lt_of_lt_of_le v.toNat_lt (by norm_num)
  exact Nat.xor_lt_two_pow (Nat.xor_lt_two_pow hmask hv) (polyModGen_lt _)

theorem polyMod_lt (v : List UInt8) : polyMod v < 2 ^ 30 := by
  have h : ∀ (l : List UInt8) (c : Nat), c < 2 ^ 30 → l.foldl polyModStep c < 2 ^ 30 := by
    intro l
    induction l with
    | nil => intro c hc; exact hc
    | cons x l ih => intro c _; exact ih _ (polyModStep_lt c x)
  exact h v 1 (by norm_num)

/-- A difference below bit 25 moves up by five bits, and the value is xored in. -/
theorem polyModStep_xor (c d : Nat) (v : UInt8) (hd : d < 2 ^ 25) :
    polyModStep (c ^^^ d) v = polyModStep c 0 ^^^ ((d <<< 5) ^^^ v.toNat) := by
  have hhigh : (c ^^^ d) >>> 25 = c >>> 25 := by
    rw [Nat.shiftRight_xor_distrib, Nat.shiftRight_eq_zero d 25 hd, Nat.xor_zero]
  have hlow : (c ^^^ d) &&& 0x1ffffff = (c &&& 0x1ffffff) ^^^ d := by
    rw [Nat.and_xor_distrib_right, show (0x1ffffff : Nat) = 2 ^ 25 - 1 from rfl,
      Nat.and_two_pow_sub_one_of_lt_two_pow hd]
  rw [polyModStep_eq, polyModStep_eq, hhigh, hlow, Nat.shiftLeft_xor_distrib, UInt8.toNat_zero,
    Nat.xor_zero]
  simp only [Nat.xor_assoc, Nat.xor_comm, Nat.xor_left_comm]

/-- Up to six values of five bits after a difference `d`: the steps over zeros, xor `d`
shifted up and the values packed below it. -/
theorem polyModSteps_xor : ∀ (vs : List UInt8) (c d : Nat), (∀ v ∈ vs, v.toNat < 32) →
    vs.length ≤ 6 → d < 2 ^ (30 - 5 * vs.length) →
    vs.foldl polyModStep (c ^^^ d) =
      (List.replicate vs.length 0).foldl polyModStep c ^^^
        (d * 2 ^ (5 * vs.length) + groupsValue 5 (vs.map UInt8.toNat))
  | [], c, d, _, _, _ => by simp
  | v :: vs, c, d, hvs, hlen, hd => by
    have hv : v.toNat < 32 := hvs v List.mem_cons_self
    simp only [List.length_cons] at hlen hd
    have hd25 : d < 2 ^ 25 := Nat.lt_of_lt_of_le hd (Nat.pow_le_pow_right (by omega) (by omega))
    -- the next difference is `d` shifted up with `v` below it
    have hd' : d * 2 ^ 5 + v.toNat < 2 ^ (30 - 5 * vs.length) := by
      have hpow : 2 ^ (30 - 5 * vs.length) = 2 ^ (30 - 5 * (vs.length + 1)) * 32 := by
        rw [show (32 : Nat) = 2 ^ 5 by norm_num, ← Nat.pow_add]
        congr 1
        omega
      rw [hpow, show (2 : Nat) ^ 5 = 32 by norm_num]
      omega
    rw [List.foldl_cons, polyModStep_xor c d v hd25, shiftLeft_xor_eq _ _ 5 hv,
      polyModSteps_xor vs _ _ (fun w hw => hvs w (List.mem_cons_of_mem _ hw)) (by omega) hd',
      List.length_cons, List.replicate_succ, List.foldl_cons, List.map_cons, groupsValue_cons,
      List.length_map]
    congr 1
    rw [show 5 * (vs.length + 1) = 5 + 5 * vs.length by ring, Nat.pow_add]
    ring

/-! ## The checksum -/

theorem length_checksumGroups (m : Nat) : (checksumGroups m).length = 6 := by
  simp [checksumGroups]

theorem checksumGroups_lt (m : Nat) : ∀ v ∈ checksumGroups m, v.toNat < 32 := by
  intro v hv
  obtain ⟨i, -, rfl⟩ := List.mem_map.mp hv
  rw [UInt8.toNat_ofNat', show (31 : Nat) = 2 ^ 5 - 1 from rfl, Nat.and_two_pow_sub_one_eq_mod]
  have := Nat.mod_lt (m >>> (5 * (5 - i))) (show 0 < 2 ^ 5 by norm_num)
  omega

theorem length_createChecksum (hrp values : List UInt8) :
    (createChecksum hrp values).length = 6 :=
  length_checksumGroups _

/-- A value of `ret` read off the packed checksum. -/
theorem ofNat_group_eq (m i : Nat) (a : UInt8) (h : m / 2 ^ i % 32 = a.toNat) :
    UInt8.ofNat ((m >>> i) &&& 31) = a := by
  apply UInt8.toNat_inj.mp
  rw [UInt8.toNat_ofNat', show (31 : Nat) = 2 ^ 5 - 1 from rfl, Nat.and_two_pow_sub_one_eq_mod,
    Nat.shiftRight_eq_div_pow, show (2 : Nat) ^ 5 = 32 by norm_num, h]
  exact Nat.mod_eq_of_lt a.toNat_lt

theorem range_six : List.range 6 = [0, 1, 2, 3, 4, 5] := rfl

/-- Unpacking six packed five-bit values gives them back. -/
theorem checksumGroups_groupsValue : ∀ cs : List UInt8, cs.length = 6 →
    (∀ v ∈ cs, v.toNat < 32) → checksumGroups (groupsValue 5 (cs.map UInt8.toNat)) = cs
  | [a, b, c, d, e, f], _, hcs => by
    have ha := hcs a (by simp)
    have hb := hcs b (by simp)
    have hc := hcs c (by simp)
    have hd := hcs d (by simp)
    have he := hcs e (by simp)
    have hf := hcs f (by simp)
    simp only [checksumGroups, range_six, List.map_cons, List.map_nil, List.cons.injEq, and_true]
    refine ⟨ofNat_group_eq _ _ _ ?_, ofNat_group_eq _ _ _ ?_, ofNat_group_eq _ _ _ ?_,
      ofNat_group_eq _ _ _ ?_, ofNat_group_eq _ _ _ ?_, ofNat_group_eq _ _ _ ?_⟩ <;>
    · simp only [groupsValue_cons, List.length_cons, List.length_nil, groupsValue_nil]
      norm_num
      omega

/-- Packing the six values of a remainder below `2^30` gives it back. -/
theorem groupsValue_checksumGroups (m : Nat) (hm : m < 2 ^ 30) :
    groupsValue 5 ((checksumGroups m).map UInt8.toNat) = m := by
  simp only [checksumGroups, range_six, List.map_cons, List.map_nil, groupsValue_cons,
    List.length_cons, List.length_nil, groupsValue_nil, UInt8.toNat_ofNat',
    show (31 : Nat) = 2 ^ 5 - 1 from rfl, Nat.and_two_pow_sub_one_eq_mod,
    Nat.shiftRight_eq_div_pow]
  norm_num
  omega

/-- The remainder after six five-bit values is the remainder after six zeros, xor the
packed values. -/
theorem polyMod_append_six (X cs : List UInt8) (h6 : cs.length = 6)
    (hcs : ∀ v ∈ cs, v.toNat < 32) :
    polyMod (X ++ cs) =
      polyMod (X ++ List.replicate 6 0) ^^^ groupsValue 5 (cs.map UInt8.toNat) := by
  have h := polyModSteps_xor cs (polyMod X) 0 hcs (by omega) (by rw [h6]; norm_num)
  rw [Nat.xor_zero, h6, Nat.zero_mul, Nat.zero_add] at h
  rw [polyMod, polyMod, List.foldl_append, List.foldl_append]
  exact h

/-- `CreateChecksum` makes the remainder 1. -/
theorem polyMod_createChecksum (hrp values : List UInt8) :
    polyMod (expandHRP hrp ++ values ++ createChecksum hrp values) = 1 := by
  have hM : polyMod (expandHRP hrp ++ values ++ List.replicate 6 0) ^^^ 1 < 2 ^ 30 :=
    Nat.xor_lt_two_pow (polyMod_lt _) (by norm_num)
  rw [createChecksum, polyMod_append_six _ _ (length_checksumGroups _) (checksumGroups_lt _),
    groupsValue_checksumGroups _ hM, ← Nat.xor_assoc, Nat.xor_self, Nat.zero_xor]

/-- Six values that make the remainder 1 are the checksum. -/
theorem createChecksum_of_verifyChecksum (hrp values cs : List UInt8) (h6 : cs.length = 6)
    (hcs : ∀ v ∈ cs, v.toNat < 32) (hv : verifyChecksum hrp (values ++ cs) = true) :
    createChecksum hrp values = cs := by
  have h1 : polyMod (expandHRP hrp ++ values ++ cs) = 1 := by
    simpa [verifyChecksum, List.append_assoc] using hv
  rw [polyMod_append_six _ _ h6 hcs] at h1
  have hP : groupsValue 5 (cs.map UInt8.toNat) =
      polyMod (expandHRP hrp ++ values ++ List.replicate 6 0) ^^^ 1 := by
    rw [← h1, ← Nat.xor_assoc, Nat.xor_self, Nat.zero_xor]
  rw [createChecksum, ← hP, checksumGroups_groupsValue cs h6 hcs]

/-! ## Characters -/

/-- A character `Decode` accepts in a human-readable part kept as it is: printable and not
upper case. -/
def LowerPrintable (c : UInt8) : Prop :=
  33 ≤ c.toNat ∧ c.toNat ≤ 126 ∧ ¬(c ≥ 'A'.toUInt8 ∧ c ≤ 'Z'.toUInt8)

instance (c : UInt8) : Decidable (LowerPrintable c) := inferInstanceAs (Decidable (_ ∧ _))

theorem charset_rev_charset : ∀ v < 32, CHARSET_REV.getD (CHARSET.getD v 0).toNat (-1) = v := by
  decide

theorem charset_lowerPrintable : ∀ v < 32,
    LowerPrintable (CHARSET.getD v 0) ∧ CHARSET.getD v 0 ≠ separator := by
  decide

set_option maxRecDepth 20000 in
/-- A character with a value in `CHARSET_REV` is the lower case of its character in
`CHARSET`. -/
theorem charset_of_rev : ∀ n < 128, CHARSET_REV.getD n (-1) ≠ -1 →
    0 ≤ CHARSET_REV.getD n (-1) ∧ CHARSET_REV.getD n (-1) < 32 ∧
      CHARSET.getD (CHARSET_REV.getD n (-1)).toNat 0 = lowerCase (UInt8.ofNat n) := by
  decide

theorem lowerCase_of_not_upper {c : UInt8} (h : ¬(c ≥ 'A'.toUInt8 ∧ c ≤ 'Z'.toUInt8)) :
    lowerCase c = c := by
  rw [lowerCase, if_neg h]

theorem lowerCase_separator : lowerCase separator = separator := by decide

/-- The case loop passes a string of printable characters with no upper case. -/
theorem checkCase_of_lowerPrintable : ∀ (s : List UInt8) (lower upper : Bool),
    (∀ c ∈ s, LowerPrintable c) → ∃ l, checkCase s lower upper = some (l, upper)
  | [], l, _, _ => ⟨l, rfl⟩
  | c :: cs, l, u, h => by
    obtain ⟨h33, h126, hup⟩ := h c List.mem_cons_self
    have ih := fun l' =>
      checkCase_of_lowerPrintable cs l' u fun x hx => h x (List.mem_cons_of_mem _ hx)
    rw [checkCase]
    by_cases ha : c ≥ 'a'.toUInt8 ∧ c ≤ 'z'.toUInt8
    · rw [if_pos ha]
      exact ih true
    · have hok : ¬(c < 33 ∨ c > 126) := by
        rw [gt_iff_lt, UInt8.lt_iff_toNat_lt, UInt8.lt_iff_toNat_lt]
        simp only [UInt8.reduceToNat]
        omega
      rw [if_neg ha, if_neg hup, if_neg hok]
      exact ih l

theorem rfind_eq_none {c : UInt8} : ∀ {l : List UInt8}, c ∉ l → rfind c l = none
  | [], _ => rfl
  | x :: xs, h => by
    rw [rfind, rfind_eq_none (fun hm => h (List.mem_cons_of_mem _ hm))]
    exact if_neg fun hx => h (by rw [← hx]; exact List.mem_cons_self)

/-- The last `c` of `a ++ c :: b`, with no `c` in `b`, is at the length of `a`. -/
theorem rfind_append_cons {c : UInt8} (b : List UInt8) (hb : c ∉ b) :
    ∀ a : List UInt8, rfind c (a ++ c :: b) = some a.length
  | [] => by rw [List.nil_append, rfind, rfind_eq_none hb, if_pos rfl]; rfl
  | x :: a => by rw [List.cons_append, rfind, rfind_append_cons b hb a]; rfl

/-- `rfind` finds a `c`, with no `c` after it. -/
theorem rfind_eq_some {c : UInt8} : ∀ {l : List UInt8} {pos : Nat}, rfind c l = some pos →
    pos < l.length ∧ l.getD pos 0 = c
  | [], _, h => by simp [rfind] at h
  | x :: xs, pos, h => by
    rw [rfind] at h
    cases hr : rfind c xs with
    | some i =>
      rw [hr] at h
      obtain rfl : i + 1 = pos := Option.some.inj h
      obtain ⟨hi, hc⟩ := rfind_eq_some hr
      exact ⟨by simp; omega, by simpa using hc⟩
    | none =>
      rw [hr] at h
      split_ifs at h with hx
      obtain rfl : 0 = pos := Option.some.inj h
      exact ⟨by simp, by simpa using hx⟩

/-- The data part of an encoding decodes to its values. -/
theorem decodeValues_encoded : ∀ vs : List UInt8, (∀ v ∈ vs, v.toNat < 32) →
    decodeValues (vs.map fun c => CHARSET.getD c.toNat 0) = some vs
  | [], _ => rfl
  | v :: vs, h => by
    have hv := charset_rev_charset v.toNat (h v List.mem_cons_self)
    rw [List.map_cons, decodeValues, hv, if_neg (by omega),
      decodeValues_encoded vs fun w hw => h w (List.mem_cons_of_mem _ hw)]
    simp

/-- What a data part decodes to: one five-bit value per character, whose character in
`CHARSET` is the lower case of the one read. -/
theorem decodeValues_spec : ∀ {cs vals : List UInt8}, decodeValues cs = some vals →
    vals.length = cs.length ∧ (∀ v ∈ vals, v.toNat < 32) ∧
      vals.map (fun c => CHARSET.getD c.toNat 0) = cs.map lowerCase
  | [], vals, h => by
    obtain rfl : [] = vals := Option.some.inj h
    simp
  | c :: cs, vals, h => by
    rw [decodeValues] at h
    split_ifs at h with hrev
    obtain ⟨rest, hrest, rfl⟩ := Option.map_eq_some_iff.mp h
    obtain ⟨hlen, hlt, hmap⟩ := decodeValues_spec hrest
    have hc : c.toNat < 128 := by
      by_contra hge
      exact hrev (List.getD_eq_default _ _ (by simp [CHARSET_REV]; omega))
    obtain ⟨h0, h32, hchar⟩ := charset_of_rev c.toNat hc hrev
    have hv : (UInt8.ofNat (CHARSET_REV.getD c.toNat (-1)).toNat).toNat =
        (CHARSET_REV.getD c.toNat (-1)).toNat := by
      rw [UInt8.toNat_ofNat']
      omega
    refine ⟨by simp [hlen], ?_, ?_⟩
    · intro v hv'
      rcases List.mem_cons.mp hv' with rfl | hv'
      · omega
      · exact hlt v hv'
    · rw [List.map_cons, List.map_cons, hmap, hv, hchar, UInt8.ofNat_toNat]

/-! ## Decoding an encoding, encoding a decoding -/

/-- `Encode` then `Decode` gives the human-readable part and the values back, for a
printable lower-case part and five-bit values within 90 characters. -/
theorem decode_encode (hrp values : List UInt8) (hne : hrp ≠ [])
    (hhrp : ∀ c ∈ hrp, LowerPrintable c) (hvals : ∀ v ∈ values, v.toNat < 32)
    (hlen : hrp.length + 1 + values.length + 6 ≤ 90) :
    decode (encode hrp values) = (hrp, values) := by
  have hcv : ∀ v ∈ values ++ createChecksum hrp values, v.toNat < 32 := by
    intro v hv
    rcases List.mem_append.mp hv with hv | hv
    · exact hvals v hv
    · exact checksumGroups_lt _ v hv
  have hclen : (values ++ createChecksum hrp values).length = values.length + 6 := by
    rw [List.length_append, length_createChecksum]
  -- the data part: printable, lower case, and no separator in it
  have hdata : ∀ c ∈ (values ++ createChecksum hrp values).map (fun c => CHARSET.getD c.toNat 0),
      LowerPrintable c ∧ c ≠ separator := by
    intro c hc
    obtain ⟨v, hv, rfl⟩ := List.mem_map.mp hc
    exact charset_lowerPrintable v.toNat (hcv v hv)
  have henc : encode hrp values =
      hrp ++ separator :: (values ++ createChecksum hrp values).map
        (fun c => CHARSET.getD c.toNat 0) := by
    simp [encode]
  obtain ⟨l, hl⟩ := checkCase_of_lowerPrintable (encode hrp values) false false (by
    rw [henc]
    intro c hc
    rcases List.mem_append.mp hc with hc | hc
    · exact hhrp c hc
    · rcases List.mem_cons.mp hc with rfl | hc
      · decide
      · exact (hdata c hc).1)
  have hpos : rfind separator (encode hrp values) = some hrp.length := by
    rw [henc]
    exact rfind_append_cons _ (fun h => (hdata _ h).2 rfl) hrp
  have hslen : (encode hrp values).length = hrp.length + 1 + values.length + 6 := by
    rw [henc, List.length_append, List.length_cons, List.length_map, hclen]
    omega
  have hcond : ¬((encode hrp values).length > 90 ∨ hrp.length = 0 ∨
      hrp.length + 7 > (encode hrp values).length) := by
    have := List.length_pos_of_ne_nil hne
    omega
  have hdrop : (encode hrp values).drop (hrp.length + 1) =
      (values ++ createChecksum hrp values).map (fun c => CHARSET.getD c.toNat 0) := by
    simp [henc]
  have htake : (encode hrp values).take hrp.length = hrp := by
    simp [henc]
  have hlower : hrp.map lowerCase = hrp := by
    conv_rhs => rw [← List.map_id hrp]
    exact List.map_congr_left fun c hc => lowerCase_of_not_upper (hhrp c hc).2.2
  have hverify : verifyChecksum hrp (values ++ createChecksum hrp values) = true := by
    simp [verifyChecksum, ← List.append_assoc, polyMod_createChecksum]
  simp only [decode, hl, Bool.and_false, Bool.false_eq_true, if_false, hpos, if_neg hcond, hdrop,
    decodeValues_encoded _ hcv, htake, hlower, hverify, Bool.not_true, hclen]
  simp

/-- What `Decode` accepts is, in lower case, the encoding of what it returns. -/
theorem encode_decode {s hrp values : List UInt8} (h : decode s = (hrp, values))
    (hne : hrp ≠ []) : encode hrp values = s.map lowerCase := by
  -- every rejection returns an empty human-readable part
  have hrej : ∀ x : List UInt8, (([] : List UInt8), x) ≠ (hrp, values) :=
    fun x hx => hne (congrArg Prod.fst hx).symm
  unfold decode at h
  rcases hc : checkCase s false false with _ | ⟨lower, upper⟩
  · rw [hc] at h
    exact absurd h (hrej _)
  rw [hc] at h
  dsimp only at h
  by_cases hlu : (lower && upper) = true
  · rw [if_pos hlu] at h
    exact absurd h (hrej _)
  rw [if_neg hlu] at h
  rcases hr : rfind separator s with _ | pos
  · rw [hr] at h
    exact absurd h (hrej _)
  rw [hr] at h
  dsimp only at h
  by_cases hcond : s.length > 90 ∨ pos = 0 ∨ pos + 7 > s.length
  · rw [if_pos hcond] at h
    exact absurd h (hrej _)
  rw [if_neg hcond] at h
  rcases hv : decodeValues (s.drop (pos + 1)) with _ | vals
  · rw [hv] at h
    exact absurd h (hrej _)
  rw [hv] at h
  dsimp only at h
  by_cases hver : (!verifyChecksum ((s.take pos).map lowerCase) vals) = true
  · rw [if_pos hver] at h
    exact absurd h (hrej _)
  rw [if_neg hver] at h
  obtain ⟨rfl, rfl⟩ := Prod.mk.inj h
  -- the accepted string: the part before the last separator, and values ending in a checksum
  obtain ⟨hlen, hlt, hmap⟩ := decodeValues_spec hv
  obtain ⟨hpos, hsep⟩ := rfind_eq_some hr
  rw [List.length_drop] at hlen
  have hsplit := (List.take_append_drop (vals.length - 6) vals).symm
  have hcs : createChecksum ((s.take pos).map lowerCase) (vals.take (vals.length - 6)) =
      vals.drop (vals.length - 6) := by
    apply createChecksum_of_verifyChecksum
    · rw [List.length_drop]
      omega
    · exact fun v hv => hlt v (List.mem_of_mem_drop hv)
    · rw [← hsplit]
      simpa using hver
  have hs : s = s.take pos ++ separator :: s.drop (pos + 1) := by
    conv_lhs => rw [← List.take_append_drop pos s, List.drop_eq_getElem_cons hpos]
    rw [← hsep, List.getD_eq_getElem _ _ hpos]
  rw [encode, hcs, ← hsplit, hmap]
  conv_rhs => rw [hs]
  simp [lowerCase_separator]

/-- `bech32::Encode` and `bech32::Decode` are inverse: decoding an encoding of a printable
lower-case part and five-bit values that fit in 90 characters gives them back, and encoding
what `Decode` accepts gives the string in lower case. -/
theorem bech32_encode_decode_roundtrip :
    (∀ hrp values : List UInt8, hrp ≠ [] → (∀ c ∈ hrp, LowerPrintable c) →
      (∀ v ∈ values, v.toNat < 32) → hrp.length + 1 + values.length + 6 ≤ 90 →
      decode (encode hrp values) = (hrp, values)) ∧
    (∀ s hrp values : List UInt8, decode s = (hrp, values) → hrp ≠ [] →
      encode hrp values = s.map lowerCase) :=
  ⟨fun hrp values hne hhrp hvals hlen => decode_encode hrp values hne hhrp hvals hlen,
    fun _ _ _ h hne => encode_decode h hne⟩

/-- The test vector `a12uel5l` both ways. -/
theorem bech32_roundtrip_a :
    decode (encode ['a'.toUInt8] []) = (['a'.toUInt8], []) ∧
      encode ['a'.toUInt8] [] = ("a12uel5l".toList.map Char.toUInt8).map lowerCase :=
  ⟨bech32_encode_decode_roundtrip.1 _ _ (by simp) (by decide +kernel) (by simp) (by decide),
    bech32_encode_decode_roundtrip.2 _ _ _ (by decide +kernel) (by simp)⟩

end Veles.Bech32
