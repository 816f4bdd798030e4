import Mathlib

/-!
# Little-endian limbs and binary long division

A list of limbs of `w` bits, least significant first, stands for `Nat.ofDigits (2 ^ w) L`.
What the limb loops of a fixed-width integer need about that number:

    testBit (ofDigits (2^w) L) n = testBit (L.getD (n / w) 0) (n % w)        (testBit_ofDigits)
    (n + 2^w * V) % 2^(w * (k+1)) = n % 2^w + 2^w * ((n / 2^w + V) % 2^(w * k))  (carry_mod)
    size (y + 2^p * x) = p + size x, for y < 2^p and 0 < x                  (size_add_two_pow_mul)

and restoring binary long division: from the top bit down, subtract the divisor shifted to
the bit where it fits and set that bit of the quotient.  Started with what is left below
twice the shifted divisor, it ends on the floor quotient (`longDiv_eq`).
-/

namespace Limbs

/-- Bit `n` of the number is bit `n % w` of limb `n / w`; past the last limb it is clear. -/
theorem testBit_ofDigits {w : Nat} (hw : 0 < w) :
    ∀ (L : List Nat), (∀ d ∈ L, d < 2 ^ w) → ∀ n,
      (Nat.ofDigits (2 ^ w) L).testBit n = (L.getD (n / w) 0).testBit (n % w)
  | [], _, n => by simp
  | d :: L, hL, n => by
    rw [Nat.ofDigits_cons, Nat.add_comm, Nat.testBit_two_pow_mul_add _ (hL d (by simp))]
    by_cases hn : n < w
    · rw [if_pos hn, Nat.div_eq_of_lt hn, Nat.mod_eq_of_lt hn]
      rfl
    · obtain ⟨m, rfl⟩ : ∃ m, n = m + w := ⟨n - w, by omega⟩
      rw [if_neg hn, Nat.add_sub_cancel, Nat.add_div_right _ hw, Nat.add_mod_right,
        List.getD_cons_succ]
      exact testBit_ofDigits hw L (fun d hd => hL d (by simp [hd])) m

/-- One limb of a carry loop: the limb written is the low part of `n`, and the high part
goes on as the carry into the limbs above. -/
theorem carry_mod (w k n V : Nat) :
    (n + 2 ^ w * V) % 2 ^ (w * (k + 1)) = n % 2 ^ w + 2 ^ w * ((n / 2 ^ w + V) % 2 ^ (w * k)) := by
  have hpos : 0 < 2 ^ w := Nat.two_pow_pos w
  rw [Nat.mul_succ, Nat.pow_add, Nat.mul_comm (2 ^ (w * k)), Nat.mod_mul,
    Nat.add_mul_mod_self_left, Nat.add_mul_div_left _ _ hpos]

/-- Limbs above a number that fits in `p` bits add their bit length on top of `p`. -/
theorem size_add_two_pow_mul {y x p : Nat} (hy : y < 2 ^ p) (hx : 0 < x) :
    Nat.size (y + 2 ^ p * x) = p + Nat.size x := by
  have hxs : x < 2 ^ Nat.size x := Nat.lt_size_self x
  have hsx : 0 < Nat.size x := Nat.size_pos.mpr hx
  have hlow : 2 ^ (Nat.size x - 1) ≤ x := Nat.lt_size.mp (by omega)
  apply le_antisymm
  · rw [Nat.size_le, Nat.pow_add]
    -- `y + 2^p x < 2^p (x + 1) ≤ 2^p 2^(size x)`
    have : 2 ^ p * (x + 1) ≤ 2 ^ p * 2 ^ Nat.size x := Nat.mul_le_mul_left _ hxs
    rw [Nat.mul_succ] at this
    omega
  · have hle : 2 ^ (p + (Nat.size x - 1)) ≤ y + 2 ^ p * x := by
      rw [Nat.pow_add]
      exact le_trans (Nat.mul_le_mul_left _ hlow) (Nat.le_add_left _ _)
    have := Nat.lt_size.mpr hle
    omega

/-- A number whose bits up to `s` are clear gains bit `s` by adding it. -/
theorem add_two_pow_eq_or {q s : Nat} (hq : q % 2 ^ (s + 1) = 0) : q + 2 ^ s = q ||| 2 ^ s := by
  obtain ⟨m, rfl⟩ : ∃ m, q = 2 ^ (s + 1) * m := ⟨q / 2 ^ (s + 1), (Nat.mul_div_cancel' (Nat.dvd_of_mod_eq_zero hq)).symm⟩
  exact Nat.two_pow_add_eq_or_of_lt (Nat.pow_lt_pow_right (by omega) (by omega)) m

/-! ## Restoring binary long division -/

/-- Long division by `d` from bit `shift` down to bit 0: `num` is what is left of the
dividend, `q` the quotient so far. -/
def longDiv (d : Nat) : Nat → Nat → Nat → Nat
  | 0, num, q => if d ≤ num then q + 1 else q
  | shift + 1, num, q =>
    if d * 2 ^ (shift + 1) ≤ num then
      longDiv d shift (num - d * 2 ^ (shift + 1)) (q + 2 ^ (shift + 1))
    else longDiv d shift num q

/-- What is left below twice the divisor shifted to the top bit is divided exactly. -/
theorem longDiv_eq {d : Nat} (hd : 0 < d) :
    ∀ shift num q, num < d * 2 ^ (shift + 1) → longDiv d shift num q = q + num / d := by
  intro shift
  induction shift with
  | zero =>
    intro num q hnum
    rw [Nat.pow_one] at hnum
    simp only [longDiv]
    split
    · next hle => rw [Nat.div_eq_of_lt_le (k := 1) (by omega) (by omega)]
    · next hlt => rw [Nat.div_eq_of_lt (by omega), Nat.add_zero]
  | succ shift ih =>
    intro num q hnum
    have htwice : d * 2 ^ (shift + 1 + 1) = 2 * (d * 2 ^ (shift + 1)) := by
      rw [Nat.pow_succ]; ring
    simp only [longDiv]
    split
    · next hle =>
      -- the bit is set: the rest is below the divisor at this bit
      rw [ih _ _ (by omega), Nat.add_assoc]
      congr 1
      obtain ⟨r, hr⟩ : ∃ r, num = r + d * 2 ^ (shift + 1) := ⟨num - d * 2 ^ (shift + 1), by omega⟩
      rw [hr, Nat.add_sub_cancel, Nat.add_mul_div_left _ _ hd, Nat.add_comm]
    · next hlt => exact ih _ _ (by omega)

end Limbs
