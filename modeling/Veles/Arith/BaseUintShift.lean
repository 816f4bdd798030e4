import Veles.Arith.BaseUint

/-!
# `base_uint`: shifts and long division

`operator<<=` and `operator>>=` (arith_uint256.cpp) move the limbs by `k = shift / 32`
places and the bits by the residual `shift % 32`, each limb of the operand landing in two
limbs of the result (one of them only when the residual shift is not zero).  After the
loop every limb of the result is the OR of its two sources (`getD_shlLimbs`,
`getD_shrLimbs`), and bit by bit that is the shifted number:

    toNat (a.shiftLeft s) = toNat a * 2 ^ s % 2 ^ (32 * WIDTH)      (toNat_shiftLeft)
    toNat (a.shiftRight s) = toNat a / 2 ^ s                        (toNat_shiftRight)

`operator/=` aligns the divisor with the dividend by their `bits()` and then runs the
restoring long division of `Limbs.longDiv`, one bit of the quotient per pass
(`toNat_divLoop`), so that it gives the floor quotient (`div_eq_ok`).
-/

namespace Veles

namespace BaseUint

/-! ## Limb bits -/

theorem testBit_or_limb (x y : UInt32) (q : Nat) :
    (x ||| y).toNat.testBit q = (x.toNat.testBit q || y.toNat.testBit q) := by
  rw [UInt32.toNat_or, Nat.testBit_or]

theorem testBit_shiftLeft_limb (x : UInt32) {sh q : Nat} (hsh : sh < 32) (hq : q < 32) :
    (x <<< UInt32.ofNat sh).toNat.testBit q = (decide (sh ≤ q) && x.toNat.testBit (q - sh)) := by
  rw [UInt32.toNat_shiftLeft, UInt32.toNat_ofNat', Nat.mod_eq_of_lt (show sh < 2 ^ 32 by omega),
    Nat.mod_eq_of_lt hsh, Nat.shiftLeft_eq, Nat.testBit_mod_two_pow, Nat.testBit_mul_two_pow]
  simp [hq]

theorem testBit_shiftRight_limb (x : UInt32) {r : Nat} (hr : r < 32) (q : Nat) :
    (x >>> UInt32.ofNat r).toNat.testBit q = x.toNat.testBit (q + r) := by
  rw [UInt32.toNat_shiftRight, UInt32.toNat_ofNat', Nat.mod_eq_of_lt (show r < 2 ^ 32 by omega),
    Nat.mod_eq_of_lt hr, Nat.shiftRight_eq_div_pow, Nat.testBit_div_two_pow]

theorem testBit_limb_high (x : UInt32) {j : Nat} (hj : 32 ≤ j) : x.toNat.testBit j = false :=
  Nat.testBit_lt_two_pow (lt_of_lt_of_le x.toNat_lt (Nat.pow_le_pow_right (by omega) hj))

/-! ## `pn[p] |= x` -/

/-- `pn[p] |= x`; a position past the last limb is left alone. -/
def orAt (pn : List UInt32) (p : Nat) (x : UInt32) : List UInt32 := pn.modify p (· ||| x)

@[simp] theorem length_orAt (pn : List UInt32) (p : Nat) (x : UInt32) :
    (orAt pn p x).length = pn.length := List.length_modify _ _ _

theorem getD_orAt (pn : List UInt32) (p : Nat) (x : UInt32) {q : Nat} (hq : q < pn.length) :
    (orAt pn p x).getD q 0 = pn.getD q 0 ||| if q = p then x else 0 := by
  unfold orAt
  rw [List.getD_eq_getElem _ _ (by simpa using hq), List.getD_eq_getElem _ _ hq,
    List.getElem_modify]
  by_cases h : q = p
  · simp [h]
  · simp [h, Ne.symm h, UInt32.or_zero]

/-! ## `operator<<=` -/

/-- One pass of the loop of `operator<<=`, for limb `i` of the operand `a`, with the limb
shift `k = shift / 32` and the residual shift `sh = shift % 32`. -/
def shlStep (WIDTH : Nat) (a : List UInt32) (k sh : Nat) (pn : List UInt32) (i : Nat) :
    List UInt32 :=
  let pn' := if i + k + 1 < WIDTH ∧ sh ≠ 0 then
      orAt pn (i + k + 1) (a.getD i 0 >>> UInt32.ofNat (32 - sh)) else pn
  if i + k < WIDTH then orAt pn' (i + k) (a.getD i 0 <<< UInt32.ofNat sh) else pn'

/-- The loop of `operator<<=` over the limbs of the operand, into zero limbs. -/
def shlLimbs (WIDTH : Nat) (a : List UInt32) (shift : Nat) : List UInt32 :=
  (List.range WIDTH).foldl (shlStep WIDTH a (shift / 32) (shift % 32)) (List.replicate WIDTH 0)

theorem length_shlStep {WIDTH : Nat} (a : List UInt32) (k sh : Nat) (pn : List UInt32) (i : Nat) :
    (shlStep WIDTH a k sh pn i).length = pn.length := by
  unfold shlStep
  split_ifs <;> simp

/-- A write `pn[q] |= x` made only when `c` holds. -/
theorem getD_ite_orAt (c : Prop) [Decidable c] (pn : List UInt32) (q : Nat) (x : UInt32) {p : Nat}
    (hp : p < pn.length) :
    (if c then orAt pn q x else pn).getD p 0 = pn.getD p 0 ||| if c ∧ p = q then x else 0 := by
  by_cases hc : c
  · simp only [hc, if_true, true_and, getD_orAt _ _ _ hp]
  · simp [hc, UInt32.or_zero]

/-- The pass for limb `i` ORs it into limbs `i + k` and `i + k + 1`. -/
theorem getD_shlStep {WIDTH : Nat} (a : List UInt32) (k sh : Nat) (pn : List UInt32) (i p : Nat)
    (hlen : pn.length = WIDTH) (hp : p < WIDTH) :
    (shlStep WIDTH a k sh pn i).getD p 0 =
      (pn.getD p 0 |||
        if p = i + k + 1 ∧ sh ≠ 0 then a.getD i 0 >>> UInt32.ofNat (32 - sh) else 0) |||
      if p = i + k then a.getD i 0 <<< UInt32.ofNat sh else 0 := by
  have hp' : p < pn.length := hlen ▸ hp
  -- the bounds the loop tests are implied by `p < WIDTH`
  have hY : (i + k + 1 < WIDTH ∧ sh ≠ 0) ∧ p = i + k + 1 ↔ p = i + k + 1 ∧ sh ≠ 0 := by omega
  have hX : i + k < WIDTH ∧ p = i + k ↔ p = i + k := by omega
  unfold shlStep
  rw [getD_ite_orAt _ _ _ _ (by split <;> simp [hp']), getD_ite_orAt _ _ _ _ hp']
  simp only [hY, hX]

/-- After the passes for limbs `0 .. n - 1`, limb `p` holds what those passes sent there. -/
theorem shlLimbs_passes {WIDTH : Nat} (a : List UInt32) (k sh : Nat) : ∀ n ≤ WIDTH,
    ((List.range n).foldl (shlStep WIDTH a k sh) (List.replicate WIDTH 0)).length = WIDTH ∧
    ∀ p < WIDTH, ((List.range n).foldl (shlStep WIDTH a k sh) (List.replicate WIDTH 0)).getD p 0 =
      (if k ≤ p ∧ p - k < n then a.getD (p - k) 0 <<< UInt32.ofNat sh else 0) |||
      if k + 1 ≤ p ∧ p - k - 1 < n ∧ sh ≠ 0 then
        a.getD (p - k - 1) 0 >>> UInt32.ofNat (32 - sh) else 0 := by
  intro n
  induction n with
  | zero =>
    intro _
    refine ⟨List.length_replicate, fun p hp => ?_⟩
    simp
  | succ n ih =>
    intro hn
    obtain ⟨hlen, hval⟩ := ih (by omega)
    rw [List.range_succ, List.foldl_append, List.foldl_cons, List.foldl_nil]
    refine ⟨by rw [length_shlStep, hlen], fun p hp => ?_⟩
    rw [getD_shlStep a k sh _ n p hlen hp, hval p hp]
    -- pass `n` sends limb `n` to limb `n + k` and, shifted down, to limb `n + k + 1`
    have hB' : (k + 1 ≤ p ∧ p - k - 1 < n + 1 ∧ sh ≠ 0) ↔
        (k + 1 ≤ p ∧ p - k - 1 < n ∧ sh ≠ 0) ∨ (p = n + k + 1 ∧ sh ≠ 0) := by omega
    have hA' : (k ≤ p ∧ p - k < n + 1) ↔ (k ≤ p ∧ p - k < n) ∨ p = n + k := by omega
    by_cases hA : p = n + k
    · rw [if_neg (show ¬ (p = n + k + 1 ∧ sh ≠ 0) by omega), if_pos hA,
        if_neg (show ¬ (k ≤ p ∧ p - k < n) by omega), if_pos (hA'.mpr (.inr hA)),
        if_congr (hB'.trans (or_iff_left (by omega))) rfl rfl, show p - k = n by omega,
        UInt32.or_zero, UInt32.zero_or, UInt32.or_comm]
    · by_cases hB : p = n + k + 1 ∧ sh ≠ 0
      · rw [if_pos hB, if_neg hA, if_neg (show ¬ (k ≤ p ∧ p - k < n) by omega),
          if_neg (show ¬ (k ≤ p ∧ p - k < n + 1) by omega),
          if_neg (show ¬ (k + 1 ≤ p ∧ p - k - 1 < n ∧ sh ≠ 0) by omega), if_pos (hB'.mpr (.inr hB)),
          show p - k - 1 = n by omega, UInt32.or_zero, UInt32.zero_or, UInt32.zero_or]
      · rw [if_neg hB, if_neg hA, UInt32.or_zero, UInt32.or_zero,
          if_congr (hA'.trans (or_iff_left hA)) rfl rfl, if_congr (hB'.trans (or_iff_left hB)) rfl rfl]

/-- Limb `p` of `a << shift` is limb `p - k` shifted up by the residual shift, ORed with
the bits that limb `p - k - 1` pushes over. -/
theorem getD_shlLimbs {WIDTH : Nat} (a : List UInt32) (shift p : Nat) (hp : p < WIDTH) :
    (shlLimbs WIDTH a shift).getD p 0 =
      (if shift / 32 ≤ p then a.getD (p - shift / 32) 0 <<< UInt32.ofNat (shift % 32) else 0) |||
      if shift / 32 + 1 ≤ p ∧ shift % 32 ≠ 0 then
        a.getD (p - shift / 32 - 1) 0 >>> UInt32.ofNat (32 - shift % 32) else 0 := by
  rw [shlLimbs, (shlLimbs_passes a _ _ WIDTH le_rfl).2 p hp]
  simp only [show p - shift / 32 < WIDTH by omega, show p - shift / 32 - 1 < WIDTH by omega,
    and_true, true_and]

theorem length_shlLimbs {WIDTH : Nat} (a : List UInt32) (shift : Nat) :
    (shlLimbs WIDTH a shift).length = WIDTH :=
  (shlLimbs_passes a _ _ WIDTH le_rfl).1

/-- `<<` multiplies by `2 ^ shift`, dropping the bits past the last limb, for every shift. -/
theorem value_shlLimbs {WIDTH : Nat} (a : List UInt32) (shift : Nat) :
    value (shlLimbs WIDTH a shift) = value a * 2 ^ shift % 2 ^ (32 * WIDTH) := by
  apply Nat.eq_of_testBit_eq
  intro m
  rw [testBit_value, Nat.testBit_mod_two_pow, Nat.testBit_mul_two_pow, testBit_value]
  by_cases hm : m < 32 * WIDTH
  case neg =>
    rw [List.getD_eq_default _ _ (by rw [length_shlLimbs]; omega)]
    simp [hm]
  case pos =>
    have hsh : shift % 32 < 32 := Nat.mod_lt _ (by omega)
    have hq : m % 32 < 32 := Nat.mod_lt _ (by omega)
    rw [getD_shlLimbs a shift (m / 32) (by omega), testBit_or_limb, decide_eq_true hm,
      Bool.true_and]
    -- split on where bit `m - shift` of the operand sits: in limb `p - k` or `p - k - 1`
    by_cases hlow : shift % 32 ≤ m % 32
    · have hB : (if shift / 32 + 1 ≤ m / 32 ∧ shift % 32 ≠ 0 then
            a.getD (m / 32 - shift / 32 - 1) 0 >>> UInt32.ofNat (32 - shift % 32) else 0).toNat.testBit
            (m % 32) = false := by
        split
        · rw [testBit_shiftRight_limb _ (by omega), testBit_limb_high _ (by omega)]
        · simp
      rw [hB, Bool.or_false]
      by_cases hk : shift / 32 ≤ m / 32
      · have hdiv : (m - shift) / 32 = m / 32 - shift / 32 := by omega
        have hmod : (m - shift) % 32 = m % 32 - shift % 32 := by omega
        rw [if_pos hk, testBit_shiftLeft_limb _ hsh hq, decide_eq_true hlow,
          decide_eq_true (show shift ≤ m by omega), hdiv, hmod]
      · rw [if_neg hk, decide_eq_false (show ¬ shift ≤ m by omega)]
        simp
    · have hA : (if shift / 32 ≤ m / 32 then
            a.getD (m / 32 - shift / 32) 0 <<< UInt32.ofNat (shift % 32) else 0).toNat.testBit
            (m % 32) = false := by
        split
        · rw [testBit_shiftLeft_limb _ hsh hq, decide_eq_false hlow, Bool.false_and]
        · simp
      rw [hA, Bool.false_or]
      by_cases hk : shift / 32 + 1 ≤ m / 32
      · have hdiv : (m - shift) / 32 = m / 32 - shift / 32 - 1 := by omega
        have hmod : (m - shift) % 32 = m % 32 + (32 - shift % 32) := by omega
        rw [if_pos ⟨hk, by omega⟩, testBit_shiftRight_limb _ (by omega),
          decide_eq_true (show shift ≤ m by omega), hdiv, hmod, Bool.true_and]
      · rw [if_neg (fun h => hk h.1), decide_eq_false (show ¬ shift ≤ m by omega)]
        simp

/-! ## `operator>>=` -/

/-- One pass of the loop of `operator>>=`, for limb `i` of the operand `a`: `i - k - 1 >= 0`
and `i - k >= 0` are the `int` tests of the source. -/
def shrStep (a : List UInt32) (k sh : Nat) (pn : List UInt32) (i : Nat) :
    List UInt32 :=
  let pn' := if k + 1 ≤ i ∧ sh ≠ 0 then
      orAt pn (i - k - 1) (a.getD i 0 <<< UInt32.ofNat (32 - sh)) else pn
  if k ≤ i then orAt pn' (i - k) (a.getD i 0 >>> UInt32.ofNat sh) else pn'

/-- The loop of `operator>>=` over the limbs of the operand, into zero limbs. -/
def shrLimbs (WIDTH : Nat) (a : List UInt32) (shift : Nat) : List UInt32 :=
  (List.range WIDTH).foldl (shrStep a (shift / 32) (shift % 32)) (List.replicate WIDTH 0)

theorem length_shrStep (a : List UInt32) (k sh : Nat) (pn : List UInt32) (i : Nat) :
    (shrStep a k sh pn i).length = pn.length := by
  unfold shrStep
  split_ifs <;> simp

/-- The pass for limb `i` ORs it into limbs `i - k` and `i - k - 1`. -/
theorem getD_shrStep {WIDTH : Nat} (a : List UInt32) (k sh : Nat) (pn : List UInt32) (i p : Nat)
    (hlen : pn.length = WIDTH) (hp : p < WIDTH) :
    (shrStep a k sh pn i).getD p 0 =
      (pn.getD p 0 |||
        if i = p + k + 1 ∧ sh ≠ 0 then a.getD i 0 <<< UInt32.ofNat (32 - sh) else 0) |||
      if i = p + k then a.getD i 0 >>> UInt32.ofNat sh else 0 := by
  have hp' : p < pn.length := hlen ▸ hp
  have hY : (k + 1 ≤ i ∧ sh ≠ 0) ∧ p = i - k - 1 ↔ i = p + k + 1 ∧ sh ≠ 0 := by omega
  have hX : k ≤ i ∧ p = i - k ↔ i = p + k := by omega
  unfold shrStep
  rw [getD_ite_orAt _ _ _ _ (by split <;> simp [hp']), getD_ite_orAt _ _ _ _ hp']
  simp only [hY, hX]

/-- After the passes for limbs `0 .. n - 1`, limb `p` holds what those passes sent there. -/
theorem shrLimbs_passes {WIDTH : Nat} (a : List UInt32) (k sh : Nat) : ∀ n ≤ WIDTH,
    ((List.range n).foldl (shrStep a k sh) (List.replicate WIDTH 0)).length = WIDTH ∧
    ∀ p < WIDTH, ((List.range n).foldl (shrStep a k sh) (List.replicate WIDTH 0)).getD p 0 =
      (if p + k < n then a.getD (p + k) 0 >>> UInt32.ofNat sh else 0) |||
      if p + k + 1 < n ∧ sh ≠ 0 then a.getD (p + k + 1) 0 <<< UInt32.ofNat (32 - sh) else 0 := by
  intro n
  induction n with
  | zero =>
    intro _
    refine ⟨List.length_replicate, fun p hp => ?_⟩
    simp
  | succ n ih =>
    intro hn
    obtain ⟨hlen, hval⟩ := ih (by omega)
    rw [List.range_succ, List.foldl_append, List.foldl_cons, List.foldl_nil]
    refine ⟨by rw [length_shrStep, hlen], fun p hp => ?_⟩
    rw [getD_shrStep a k sh _ n p hlen hp, hval p hp]
    -- pass `n` sends limb `n` to limb `n - k` and, shifted up, to limb `n - k - 1`
    have hA' : p + k < n + 1 ↔ p + k < n ∨ n = p + k := by omega
    have hB' : (p + k + 1 < n + 1 ∧ sh ≠ 0) ↔ (p + k + 1 < n ∧ sh ≠ 0) ∨ (n = p + k + 1 ∧ sh ≠ 0) := by
      omega
    by_cases hA : n = p + k
    · rw [if_neg (show ¬ (n = p + k + 1 ∧ sh ≠ 0) by omega), if_pos hA,
        if_neg (show ¬ p + k < n by omega), if_pos (hA'.mpr (.inr hA)),
        if_congr (hB'.trans (or_iff_left (by omega))) rfl rfl, ← hA,
        UInt32.or_zero, UInt32.zero_or, UInt32.or_comm]
    · by_cases hB : n = p + k + 1 ∧ sh ≠ 0
      · rw [if_pos hB, if_neg hA, if_congr (hA'.trans (or_iff_left hA)) rfl rfl,
          if_neg (show ¬ (p + k + 1 < n ∧ sh ≠ 0) by omega), if_pos (hB'.mpr (.inr hB)), ← hB.1,
          UInt32.or_zero, UInt32.or_zero]
      · rw [if_neg hB, if_neg hA, UInt32.or_zero, UInt32.or_zero,
          if_congr (hA'.trans (or_iff_left hA)) rfl rfl, if_congr (hB'.trans (or_iff_left hB)) rfl rfl]

theorem length_shrLimbs {WIDTH : Nat} (a : List UInt32) (shift : Nat) :
    (shrLimbs WIDTH a shift).length = WIDTH :=
  (shrLimbs_passes a _ _ WIDTH le_rfl).1

/-- `>>` divides by `2 ^ shift`, for every shift. -/
theorem value_shrLimbs {WIDTH : Nat} (a : List UInt32) (ha : a.length = WIDTH) (shift : Nat) :
    value (shrLimbs WIDTH a shift) = value a / 2 ^ shift := by
  apply Nat.eq_of_testBit_eq
  intro m
  rw [testBit_value, Nat.testBit_div_two_pow, testBit_value]
  by_cases hm : m / 32 < WIDTH
  case neg =>
    rw [List.getD_eq_default _ _ (by rw [length_shrLimbs]; omega),
      List.getD_eq_default _ _ (by rw [ha]; omega)]
    simp
  case pos =>
    have hsh : shift % 32 < 32 := Nat.mod_lt _ (by omega)
    have hq : m % 32 < 32 := Nat.mod_lt _ (by omega)
    rw [shrLimbs, (shrLimbs_passes a _ _ WIDTH le_rfl).2 _ hm, testBit_or_limb]
    -- a limb index past the operand reads as zero, as the `if` does
    have hbeyond : ∀ j, ¬ j < WIDTH → a.getD j 0 = 0 := fun j hj =>
      List.getD_eq_default _ _ (by rw [ha]; omega)
    by_cases hlow : m % 32 + shift % 32 < 32
    · have hdiv : (m + shift) / 32 = m / 32 + shift / 32 := by omega
      have hmod : (m + shift) % 32 = m % 32 + shift % 32 := by omega
      have hB : (if m / 32 + shift / 32 + 1 < WIDTH ∧ shift % 32 ≠ 0 then
            a.getD (m / 32 + shift / 32 + 1) 0 <<< UInt32.ofNat (32 - shift % 32) else 0).toNat.testBit
            (m % 32) = false := by
        split
        · rw [testBit_shiftLeft_limb _ (by omega) hq, decide_eq_false (by omega), Bool.false_and]
        · simp
      rw [hB, Bool.or_false, hdiv, hmod]
      by_cases hk : m / 32 + shift / 32 < WIDTH
      · rw [if_pos hk, testBit_shiftRight_limb _ hsh]
      · rw [if_neg hk, hbeyond _ hk]
        simp
    · have hdiv : (m + shift) / 32 = m / 32 + shift / 32 + 1 := by omega
      have hmod : (m + shift) % 32 = m % 32 - (32 - shift % 32) := by omega
      have hA : (if m / 32 + shift / 32 < WIDTH then
            a.getD (m / 32 + shift / 32) 0 >>> UInt32.ofNat (shift % 32) else 0).toNat.testBit
            (m % 32) = false := by
        split
        · rw [testBit_shiftRight_limb _ hsh, testBit_limb_high _ (by omega)]
        · simp
      rw [hA, Bool.false_or, hdiv, hmod]
      by_cases hk : m / 32 + shift / 32 + 1 < WIDTH
      · rw [if_pos ⟨hk, by omega⟩, testBit_shiftLeft_limb _ (by omega) hq,
          decide_eq_true (by omega), Bool.true_and]
      · rw [if_neg (fun h => hk h.1), hbeyond _ hk]
        simp

/-! ## The shift operators -/

variable {WIDTH : Nat}

/-- `operator<<`, through `operator<<=`; the `int` shift is taken as it converts to
`unsigned int`, and every amount is allowed. -/
def shiftLeft (a : BaseUint WIDTH) (shift : Nat) : BaseUint WIDTH :=
  ⟨shlLimbs WIDTH a.pn shift, length_shlLimbs _ _⟩

/-- `operator>>`, through `operator>>=`. -/
def shiftRight (a : BaseUint WIDTH) (shift : Nat) : BaseUint WIDTH :=
  ⟨shrLimbs WIDTH a.pn shift, length_shrLimbs _ _⟩

theorem toNat_shiftLeft (a : BaseUint WIDTH) (shift : Nat) :
    (a.shiftLeft shift).toNat = a.toNat * 2 ^ shift % 2 ^ (32 * WIDTH) :=
  value_shlLimbs _ _

theorem toNat_shiftRight (a : BaseUint WIDTH) (shift : Nat) :
    (a.shiftRight shift).toNat = a.toNat / 2 ^ shift :=
  value_shrLimbs _ a.length_pn _

/-! ## `operator/=` -/

/-- `pn[shift / 32] |= (1 << (shift & 31))`: set bit `shift` of the quotient. -/
def setBit (q : BaseUint WIDTH) (shift : Nat) : BaseUint WIDTH :=
  ⟨orAt q.pn (shift / 32) (1 <<< UInt32.ofNat (shift % 32)), by rw [length_orAt, q.length_pn]⟩

/-- One pass of the `while (shift >= 0)` loop before the divisor moves down:
`if (num >= div) { num -= div; pn[shift / 32] |= ...; }`. -/
def divStep (num div q : BaseUint WIDTH) (shift : Nat) : BaseUint WIDTH × BaseUint WIDTH :=
  if num.compareTo div ≥ 0 then (num.sub div, q.setBit shift) else (num, q)

/-- The `while (shift >= 0)` loop of `operator/=`, from bit `shift` down to bit 0, with
`div >>= 1; shift--` between the passes. -/
def divLoop : Nat → BaseUint WIDTH → BaseUint WIDTH → BaseUint WIDTH → BaseUint WIDTH
  | 0, num, div, q => (divStep num div q 0).2
  | shift + 1, num, div, q =>
    divLoop shift (divStep num div q (shift + 1)).1 (div.shiftRight 1)
      (divStep num div q (shift + 1)).2

/-- `operator/`, through `operator/=`: a zero divisor throws `uint_error`, a divisor with
more bits than the dividend gives zero, and otherwise the divisor is aligned with the
dividend and the loop runs from the bit they differ by. -/
def div (a b : BaseUint WIDTH) : Except String (BaseUint WIDTH) :=
  if b.bits = 0 then .error "Division by zero"
  else if b.bits > a.bits then .ok (zero WIDTH)
  else .ok (divLoop (a.bits - b.bits) a (b.shiftLeft (a.bits - b.bits)) (zero WIDTH))

theorem cmp_nonneg_iff (m n : Nat) : cmp m n ≥ 0 ↔ n ≤ m := by
  unfold cmp
  split_ifs <;> omega

/-- Setting a bit above every bit the quotient has adds it. -/
theorem toNat_setBit (q : BaseUint WIDTH) {shift : Nat} (hs : shift < 32 * WIDTH)
    (hq : q.toNat % 2 ^ (shift + 1) = 0) : (q.setBit shift).toNat = q.toNat + 2 ^ shift := by
  rw [Limbs.add_two_pow_eq_or hq]
  apply Nat.eq_of_testBit_eq
  intro m
  rw [setBit, toNat, testBit_value, Nat.testBit_or, Nat.testBit_two_pow, toNat, testBit_value]
  by_cases hm : m / 32 < WIDTH
  · have hbit : (1 <<< UInt32.ofNat (shift % 32) : UInt32).toNat.testBit (m % 32) =
        decide (shift % 32 = m % 32) := by
      have hone : ∀ j, Nat.testBit 1 j = decide (0 = j) := fun j => by
        simpa using Nat.testBit_two_pow (n := 0) (m := j)
      rw [testBit_shiftLeft_limb _ (Nat.mod_lt _ (by omega)) (Nat.mod_lt _ (by omega)),
        UInt32.toNat_one, hone, Bool.eq_iff_iff]
      simp only [Bool.and_eq_true, decide_eq_true_eq]
      omega
    rw [getD_orAt _ _ _ (by rw [q.length_pn]; exact hm), testBit_or_limb]
    by_cases hp : m / 32 = shift / 32
    · rw [if_pos hp, hbit]
      congr 1
      simp only [decide_eq_decide]
      omega
    · rw [if_neg hp, UInt32.toNat_zero, Nat.zero_testBit, Bool.or_false, decide_eq_false (by omega),
        Bool.or_false]
  · rw [List.getD_eq_default _ _ (by rw [length_orAt, q.length_pn]; omega),
      List.getD_eq_default _ _ (by rw [q.length_pn]; omega), decide_eq_false (by omega)]
    simp

/-- The loop computes restoring long division on `toNat`, as long as the divisor stands at
bit `shift` and the quotient has no bit at or below it. -/
theorem toNat_divLoop {d : Nat} : ∀ (shift : Nat) (num div q : BaseUint WIDTH),
    div.toNat = d * 2 ^ shift → q.toNat % 2 ^ (shift + 1) = 0 → shift < 32 * WIDTH →
    (divLoop shift num div q).toNat = Limbs.longDiv d shift num.toNat q.toNat := by
  intro shift
  induction shift with
  | zero =>
    intro num div q hdiv hq hs
    rw [Nat.pow_zero, Nat.mul_one] at hdiv
    simp only [divLoop, divStep, compareTo_eq, cmp_nonneg_iff, hdiv, Limbs.longDiv]
    split
    · rw [toNat_setBit q hs hq, Nat.pow_zero]
    · rfl
  | succ shift ih =>
    intro num div q hdiv hq hs
    have hdiv' : (div.shiftRight 1).toNat = d * 2 ^ shift := by
      rw [toNat_shiftRight, hdiv, Nat.pow_succ, Nat.pow_one, ← Nat.mul_assoc,
        Nat.mul_div_cancel _ (by omega)]
    have hq' : q.toNat % 2 ^ (shift + 1) = 0 :=
      Nat.mod_eq_zero_of_dvd (Nat.dvd_trans (Nat.pow_dvd_pow 2 (by omega))
        (Nat.dvd_of_mod_eq_zero hq))
    simp only [divLoop, divStep, compareTo_eq, cmp_nonneg_iff, hdiv, Limbs.longDiv]
    split
    · next hle =>
      -- the divisor fits: subtract it and set bit `shift + 1`
      dsimp only
      have hset := toNat_setBit q hs hq
      have hq'' : (q.setBit (shift + 1)).toNat % 2 ^ (shift + 1) = 0 := by
        rw [hset, Nat.add_mod_right, hq']
      rw [ih _ _ _ hdiv' hq'' (by omega), toNat_sub_of_le (by omega), hdiv, hset]
    · exact ih _ _ _ hdiv' hq' (by omega)

@[simp] theorem toNat_eq_zero_iff (a : BaseUint WIDTH) : a.bits = 0 ↔ a.toNat = 0 := by
  rw [bits_eq_size, Nat.size_eq_zero]

/-- A zero divisor throws `uint_error("Division by zero")`. -/
theorem div_of_toNat_eq_zero (a b : BaseUint WIDTH) (hb : b.toNat = 0) :
    a.div b = .error "Division by zero" := by
  rw [div, if_pos ((toNat_eq_zero_iff b).mpr hb)]

/-- Any other divisor gives the floor quotient. -/
theorem div_eq_ok (a b : BaseUint WIDTH) (hb : b.toNat ≠ 0) :
    ∃ q, a.div b = .ok q ∧ q.toNat = a.toNat / b.toNat := by
  have hbpos : 0 < b.toNat := Nat.pos_of_ne_zero hb
  have hsb : 0 < Nat.size b.toNat := Nat.size_pos.mpr hbpos
  have hbhigh : b.toNat < 2 ^ Nat.size b.toNat := Nat.lt_size_self _
  have hblow : 2 ^ (Nat.size b.toNat - 1) ≤ b.toNat := Nat.lt_size.mp (by omega)
  have hahigh : a.toNat < 2 ^ Nat.size a.toNat := Nat.lt_size_self _
  have hsa : Nat.size a.toNat ≤ 32 * WIDTH := Nat.size_le.mpr a.toNat_lt
  rw [div, if_neg (by rw [toNat_eq_zero_iff]; exact hb), bits_eq_size, bits_eq_size]
  by_cases hgt : Nat.size b.toNat > Nat.size a.toNat
  · -- the divisor has more bits: it is larger than the dividend
    refine ⟨zero WIDTH, if_pos hgt, ?_⟩
    have : a.toNat < b.toNat :=
      lt_of_lt_of_le hahigh (le_trans (Nat.pow_le_pow_right (by omega) (by omega)) hblow)
    rw [toNat_zero, Nat.div_eq_of_lt this]
  · refine ⟨_, if_neg hgt, ?_⟩
    set shift := Nat.size a.toNat - Nat.size b.toNat
    have hfits : b.toNat * 2 ^ shift < 2 ^ (32 * WIDTH) :=
      calc b.toNat * 2 ^ shift < 2 ^ Nat.size b.toNat * 2 ^ shift :=
            Nat.mul_lt_mul_of_pos_right hbhigh (Nat.two_pow_pos _)
        _ = 2 ^ Nat.size a.toNat := by rw [← Nat.pow_add]; congr 1; omega
        _ ≤ 2 ^ (32 * WIDTH) := Nat.pow_le_pow_right (by omega) hsa
    have hdiv : (b.shiftLeft shift).toNat = b.toNat * 2 ^ shift := by
      rw [toNat_shiftLeft, Nat.mod_eq_of_lt hfits]
    -- the dividend is below twice the aligned divisor
    have hbelow : a.toNat < b.toNat * 2 ^ (shift + 1) :=
      calc a.toNat < 2 ^ Nat.size a.toNat := hahigh
        _ = 2 ^ (Nat.size b.toNat - 1) * 2 ^ (shift + 1) := by rw [← Nat.pow_add]; congr 1; omega
        _ ≤ b.toNat * 2 ^ (shift + 1) := Nat.mul_le_mul_right _ hblow
    rw [toNat_divLoop shift a _ (zero WIDTH) hdiv (by simp) (by omega), toNat_zero,
      Limbs.longDiv_eq hbpos _ _ _ hbelow, Nat.zero_add]

/-! ## `base_uint<256>` -/

/-- `base_uint<256>` computes modulo `2 ^ 256`: `+`, `-`, `*` and `* uint32_t` wrap, `<<`
multiplies and `>>` divides by `2 ^ shift` for every shift, `CompareTo` orders by value,
`bits()` is the bit length, and `/` is the floor quotient or throws on a zero divisor. -/
theorem base_uint_mod_arith (a b : BaseUint 8) (b32 : UInt32) (shift : Nat) :
    (a.add b).toNat = (a.toNat + b.toNat) % 2 ^ 256 ∧
    ((a.sub b).toNat : Int) = ((a.toNat : Int) - b.toNat) % 2 ^ 256 ∧
    (a.mul b).toNat = a.toNat * b.toNat % 2 ^ 256 ∧
    (a.mulU32 b32).toNat = a.toNat * b32.toNat % 2 ^ 256 ∧
    (a.shiftLeft shift).toNat = a.toNat * 2 ^ shift % 2 ^ 256 ∧
    (a.shiftRight shift).toNat = a.toNat / 2 ^ shift ∧
    a.compareTo b = (if a.toNat < b.toNat then -1 else if b.toNat < a.toNat then 1 else 0) ∧
    a.bits = Nat.size a.toNat ∧
    (b.toNat ≠ 0 → ∃ q, a.div b = .ok q ∧ q.toNat = a.toNat / b.toNat) ∧
    (b.toNat = 0 → a.div b = .error "Division by zero") :=
  ⟨toNat_add a b, toNat_sub a b, toNat_mul a b, toNat_mulU32 a b32, toNat_shiftLeft a shift,
    toNat_shiftRight a shift, compareTo_eq a b, bits_eq_size a, div_eq_ok a b,
    div_of_toNat_eq_zero a b⟩

/-- The `BitVec 256` a `base_uint<256>` stands for. -/
def toArith (a : BaseUint 8) : ArithUint256 := BitVec.ofNat 256 a.toNat

section Arith

variable (a b : BaseUint 8)

@[simp] theorem toNat_toArith : a.toArith.toNat = a.toNat := by
  rw [toArith, BitVec.toNat_ofNat, Nat.mod_eq_of_lt a.toNat_lt]

theorem toArith_add : (a.add b).toArith = a.toArith + b.toArith :=
  BitVec.eq_of_toNat_eq (by rw [toNat_toArith, BitVec.toNat_add, toNat_toArith, toNat_toArith, toNat_add])

theorem toArith_sub : (a.sub b).toArith = a.toArith - b.toArith :=
  BitVec.eq_of_toNat_eq (by rw [toNat_toArith, BitVec.toNat_sub, toNat_toArith, toNat_toArith, toNat_sub_eq])

theorem toArith_mul : (a.mul b).toArith = a.toArith * b.toArith :=
  BitVec.eq_of_toNat_eq (by rw [toNat_toArith, BitVec.toNat_mul, toNat_toArith, toNat_toArith, toNat_mul])

theorem toArith_mulU32 (b32 : UInt32) : (a.mulU32 b32).toArith = ArithUint256.mulU32 a.toArith b32 :=
  BitVec.eq_of_toNat_eq (by rw [toNat_toArith, ArithUint256.toNat_mulU32, toNat_toArith, toNat_mulU32])

theorem toArith_shiftLeft (shift : Nat) : (a.shiftLeft shift).toArith = a.toArith <<< shift :=
  BitVec.eq_of_toNat_eq (by
    rw [toNat_toArith, BitVec.toNat_shiftLeft, toNat_toArith, toNat_shiftLeft, Nat.shiftLeft_eq])

theorem toArith_shiftRight (shift : Nat) : (a.shiftRight shift).toArith = a.toArith >>> shift :=
  BitVec.eq_of_toNat_eq (by
    rw [toNat_toArith, BitVec.toNat_ushiftRight, toNat_toArith, toNat_shiftRight,
      Nat.shiftRight_eq_div_pow])

theorem compareTo_neg_iff : a.compareTo b < 0 ↔ a.toArith < b.toArith := by
  rw [compareTo_eq, BitVec.lt_def, toNat_toArith, toNat_toArith, cmp]
  split_ifs <;> omega

theorem bits_eq_arith : a.bits = ArithUint256.bits a.toArith := by
  rw [bits_eq_size, ArithUint256.bits_eq_size, toNat_toArith]

/-- `operator/` on the limbs is `ArithUint256.div`, the quotient of the other modules. -/
theorem div_map_toArith : (a.div b).map toArith = ArithUint256.div a.toArith b.toArith := by
  by_cases hb : b.toNat = 0
  · have hb' : b.toArith = 0 := BitVec.eq_of_toNat_eq (by rw [toNat_toArith, hb]; rfl)
    rw [div_of_toNat_eq_zero a b hb, hb', ArithUint256.div_zero]
    rfl
  · obtain ⟨q, hq, hqv⟩ := div_eq_ok a b hb
    have hb' : b.toArith ≠ 0 := fun h => hb (by rw [← toNat_toArith b, h]; rfl)
    rw [hq, ArithUint256.div_ok hb']
    show Except.ok q.toArith = Except.ok (a.toArith / b.toArith)
    congr 1
    exact BitVec.eq_of_toNat_eq (by rw [toNat_toArith, BitVec.toNat_udiv, toNat_toArith, toNat_toArith, hqv])

end Arith

end BaseUint

end Veles
