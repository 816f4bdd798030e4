import Mathlib

/-!
# Groups of bits

A bit string cut into groups of `w` bits, most significant group first, stands for the
number `groupsValue w gs`.  Converting between group widths keeps that number and the
number of bits; what is left over at the end is the low bits, `V % 2 ^ bits`, and what is
emitted is the rest, `V / 2 ^ bits`.

    groupsValue w (gs ++ [g]) = groupsValue w gs * 2 ^ w + g      (groupsValue_concat)
    equal values of equally long lists of groups → equal lists    (groupsValue_inj)
    (a * 2 ^ f + x) % 2 ^ (b + f) = a % 2 ^ b * 2 ^ f + x          (mul_two_pow_add_mod)
-/

namespace BitGroups

/-- The number the groups of `w` bits stand for, most significant group first. -/
def groupsValue (w : Nat) (gs : List Nat) : Nat := Nat.ofDigits (2 ^ w) gs.reverse

/-- Every group fits in `w` bits. -/
def Fits (w : Nat) (gs : List Nat) : Prop := ∀ g ∈ gs, g < 2 ^ w

@[simp] theorem groupsValue_nil (w : Nat) : groupsValue w [] = 0 := rfl

@[simp] theorem groupsValue_concat (w : Nat) (gs : List Nat) (g : Nat) :
    groupsValue w (gs ++ [g]) = groupsValue w gs * 2 ^ w + g := by
  simp only [groupsValue, List.reverse_append, List.reverse_singleton, List.singleton_append,
    Nat.ofDigits_cons]
  ring

@[simp] theorem groupsValue_cons (w : Nat) (g : Nat) (gs : List Nat) :
    groupsValue w (g :: gs) = g * 2 ^ (w * gs.length) + groupsValue w gs := by
  simp only [groupsValue, List.reverse_cons, Nat.ofDigits_append, List.length_reverse,
    Nat.ofDigits_singleton, ← Nat.pow_mul]
  ring

@[simp] theorem fits_nil (w : Nat) : Fits w [] := fun _ h => absurd h List.not_mem_nil

theorem Fits.concat {w : Nat} {gs : List Nat} {g : Nat} (h : Fits w gs) (hg : g < 2 ^ w) :
    Fits w (gs ++ [g]) := by
  intro x hx
  rcases List.mem_append.mp hx with hx | hx
  · exact h x hx
  · rw [List.mem_singleton.mp hx]
    exact hg

theorem groupsValue_inj {w : Nat} (hw : 0 < w) {gs hs : List Nat} (hlen : gs.length = hs.length)
    (hg : Fits w gs) (hh : Fits w hs) (h : groupsValue w gs = groupsValue w hs) : gs = hs := by
  have hb : 1 < 2 ^ w := Nat.one_lt_two_pow (by omega)
  have := Nat.ofDigits_inj_of_len_eq hb (by simpa using hlen)
    (fun g hm => hg g (List.mem_reverse.mp hm)) (fun g hm => hh g (List.mem_reverse.mp hm)) h
  exact List.reverse_inj.mp this

/-! ## Shifting groups in and out -/

/-- Shifting `f` bits `x` in below `a`: the low `b + f` bits are the low `b` bits of `a`
followed by `x`. -/
theorem mul_two_pow_add_mod (a x b f : Nat) (hx : x < 2 ^ f) :
    (a * 2 ^ f + x) % 2 ^ (b + f) = a % 2 ^ b * 2 ^ f + x := by
  have hlt : a % 2 ^ b * 2 ^ f + x < 2 ^ (b + f) := by
    have hr : a % 2 ^ b + 1 ≤ 2 ^ b := Nat.mod_lt _ (Nat.two_pow_pos b)
    calc a % 2 ^ b * 2 ^ f + x < a % 2 ^ b * 2 ^ f + 2 ^ f := by omega
      _ = (a % 2 ^ b + 1) * 2 ^ f := by ring
      _ ≤ 2 ^ b * 2 ^ f := Nat.mul_le_mul_right _ hr
      _ = 2 ^ (b + f) := (Nat.pow_add 2 b f).symm
  have hsplit : a * 2 ^ f + x = (a % 2 ^ b * 2 ^ f + x) + 2 ^ (b + f) * (a / 2 ^ b) := by
    conv_lhs => rw [← Nat.mod_add_div a (2 ^ b)]
    rw [Nat.pow_add]
    ring
  rw [hsplit, Nat.add_mul_mod_self_left, Nat.mod_eq_of_lt hlt]

/-- Shifting `f` bits in below `a` and `b + f` bits out leaves `a` without its `b` low bits. -/
theorem mul_two_pow_add_div (a x b f : Nat) (hx : x < 2 ^ f) :
    (a * 2 ^ f + x) / 2 ^ (b + f) = a / 2 ^ b := by
  have h : (a * 2 ^ f + x) / 2 ^ f = a := by
    rw [Nat.add_comm, Nat.add_mul_div_right _ _ (Nat.two_pow_pos f), Nat.div_eq_of_lt hx,
      Nat.zero_add]
  rw [Nat.add_comm b f, Nat.pow_add, ← Nat.div_div_eq_div_mul, h]

/-- The group of `t` bits above the `c` low bits, and what is above it. -/
theorem div_two_pow_eq (a c t : Nat) :
    a / 2 ^ c = a / 2 ^ (c + t) * 2 ^ t + a / 2 ^ c % 2 ^ t := by
  rw [Nat.pow_add, ← Nat.div_div_eq_div_mul]
  exact (Nat.div_add_mod' _ _).symm

/-- The group of `t` bits above the `c` low bits depends only on the `c + t` low bits. -/
theorem div_two_pow_mod_eq (a a' c t : Nat) (h : a % 2 ^ (c + t) = a' % 2 ^ (c + t)) :
    a / 2 ^ c % 2 ^ t = a' / 2 ^ c % 2 ^ t := by
  rw [← Nat.mod_mul_right_div_self, ← Nat.mod_mul_right_div_self, ← Nat.pow_add, h]

theorem mod_two_pow_mod_of_le {a a' b c : Nat} (hcb : c ≤ b) (h : a % 2 ^ b = a' % 2 ^ b) :
    a % 2 ^ c = a' % 2 ^ c := by
  rw [← Nat.mod_mod_of_dvd a (Nat.pow_dvd_pow 2 hcb), h,
    Nat.mod_mod_of_dvd _ (Nat.pow_dvd_pow 2 hcb)]

/-- The groups above the `b` low bits followed by those bits filled with `c` zeros. -/
theorem div_mul_add_mod_mul (a b c : Nat) :
    a / 2 ^ b * 2 ^ (b + c) + a % 2 ^ b * 2 ^ c = a * 2 ^ c := by
  rw [Nat.pow_add, ← Nat.mul_assoc, ← Nat.add_mul, Nat.div_add_mod']

theorem mod_mul_two_pow_lt (a b c : Nat) : a % 2 ^ b * 2 ^ c < 2 ^ (b + c) := by
  rw [Nat.pow_add]
  exact Nat.mul_lt_mul_of_pos_right (Nat.mod_lt _ (Nat.two_pow_pos b)) (Nat.two_pow_pos c)

/-- A quotient and remainder by `a` are unique. -/
theorem eq_of_mul_add_eq {a q q' r r' : Nat} (hr : r < a) (hr' : r' < a)
    (h : q * a + r = q' * a + r') : q = q' ∧ r = r' := by
  have ha : 0 < a := by omega
  have hq : (q * a + r) / a = q := by
    rw [Nat.add_comm, Nat.add_mul_div_right _ _ ha, Nat.div_eq_of_lt hr, Nat.zero_add]
  have hq' : (q' * a + r') / a = q' := by
    rw [Nat.add_comm, Nat.add_mul_div_right _ _ ha, Nat.div_eq_of_lt hr', Nat.zero_add]
  have hqq : q = q' := by rw [← hq, ← hq', h]
  subst hqq
  exact ⟨rfl, by omega⟩

/-! ## The bit operations of a group converter -/

/-- `((acc << f) | x) & ((1 << k) - 1)` for `x` of `f` bits. -/
theorem shiftLeft_or_and_eq (acc x f k : Nat) (hx : x < 2 ^ f) :
    ((acc <<< f) ||| x) &&& ((1 <<< k) - 1) = (acc * 2 ^ f + x) % 2 ^ k := by
  rw [← Nat.shiftLeft_add_eq_or_of_lt hx, Nat.one_shiftLeft, Nat.and_two_pow_sub_one_eq_mod,
    Nat.shiftLeft_eq]

/-- `(a << n) ^ x` for `x` of `n` bits: the bits of `x` go below those of `a`. -/
theorem shiftLeft_xor_eq (a x n : Nat) (hx : x < 2 ^ n) : (a <<< n) ^^^ x = a * 2 ^ n + x := by
  rw [← Nat.shiftLeft_eq, Nat.shiftLeft_add_eq_or_of_lt hx]
  apply Nat.eq_of_testBit_eq
  intro i
  simp only [Nat.testBit_xor, Nat.testBit_or, Nat.testBit_shiftLeft]
  by_cases hi : n ≤ i
  · have hxi : x.testBit i = false :=
      Nat.testBit_lt_two_pow (Nat.lt_of_lt_of_le hx (Nat.pow_le_pow_right (by omega) hi))
    simp [hxi]
  · simp [hi]

/-- `(acc >> b) & ((1 << t) - 1)`: the group of `t` bits above the `b` low bits. -/
theorem shiftRight_and_eq (acc b t : Nat) :
    (acc >>> b) &&& ((1 <<< t) - 1) = acc / 2 ^ b % 2 ^ t := by
  rw [Nat.one_shiftLeft, Nat.and_two_pow_sub_one_eq_mod, Nat.shiftRight_eq_div_pow]

/-- `(acc << (t - b)) & ((1 << t) - 1)`: the `b` low bits of `acc` filled up to `t` bits. -/
theorem shiftLeft_and_eq (acc b t : Nat) (h : b ≤ t) :
    (acc <<< (t - b)) &&& ((1 <<< t) - 1) = acc % 2 ^ b * 2 ^ (t - b) := by
  rw [Nat.one_shiftLeft, Nat.and_two_pow_sub_one_eq_mod, Nat.shiftLeft_eq,
    show t = b + (t - b) by omega, Nat.add_sub_cancel_left]
  simpa using mul_two_pow_add_mod acc 0 b (t - b) (Nat.two_pow_pos _)

end BitGroups
