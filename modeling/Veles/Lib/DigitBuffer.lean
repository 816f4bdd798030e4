import Mathlib

/-!
# Numbers in fixed-size digit buffers

A buffer of digits in base `base`, most significant first, holds the number `value base b`.
Multiplying that number by `mul` and adding `c` is one pass of carries from the least
significant digit up (`carryPass`); the buffer stays exact while the result is below
`base ^ b.length`.  Reading the number back skips the leading zeros and gives
`Nat.digits`.

    ofDigits base (carryPass base mul c ds).1 + base ^ ds.length * (carryPass base mul c ds).2
      = mul * ofDigits base ds + c                                        (carryPass_spec)
    Nat.digits base (ofDigits base L) = L.rdropWhile (· == 0)             (digits_ofDigits_eq)
    Holds base V b len → (b.drop (b.length - len)).dropWhile (· == 0)
      = (Nat.digits base V).reverse                                       (Holds.read)
-/

namespace DigitBuffer

/-- The number a list of digits stands for, most significant first. -/
def value (base : Nat) (l : List Nat) : Nat := Nat.ofDigits base l.reverse

@[simp] theorem value_nil (base : Nat) : value base [] = 0 := rfl

@[simp] theorem value_concat (base : Nat) (l : List Nat) (x : Nat) :
    value base (l ++ [x]) = x + base * value base l := by
  simp [value, Nat.ofDigits_cons]

@[simp] theorem value_cons (base : Nat) (x : Nat) (l : List Nat) :
    value base (x :: l) = x * base ^ l.length + value base l := by
  simp only [value, List.reverse_cons, Nat.ofDigits_append, List.length_reverse,
    Nat.ofDigits_singleton]
  ring

theorem value_lt {base : Nat} (hb : 1 < base) {l : List Nat} (hl : ∀ d ∈ l, d < base) :
    value base l < base ^ l.length := by
  simpa [value] using Nat.ofDigits_lt_base_pow_length hb (l := l.reverse) (by simpa using hl)

/-! ## One pass of carries -/

/-- `carry += mul * d; d = carry % base; carry /= base` over the digits, least significant
first; the carry left over at the top. -/
def carryPass (base mul : Nat) : Nat → List Nat → List Nat × Nat
  | c, [] => ([], c)
  | c, d :: ds =>
    let x := c + mul * d
    let r := carryPass base mul (x / base) ds
    (x % base :: r.1, r.2)

theorem carryPass_spec (base mul : Nat) : ∀ (c : Nat) (ds : List Nat),
    Nat.ofDigits base (carryPass base mul c ds).1 + base ^ ds.length * (carryPass base mul c ds).2 =
      mul * Nat.ofDigits base ds + c
  | c, [] => by simp [carryPass]
  | c, d :: ds => by
    have ih := carryPass_spec base mul ((c + mul * d) / base) ds
    have hx := Nat.mod_add_div (c + mul * d) base
    simp only [carryPass, Nat.ofDigits_cons, List.length_cons, Nat.pow_succ]
    calc (c + mul * d) % base + base * Nat.ofDigits base (carryPass base mul ((c + mul * d) / base) ds).1 +
          base ^ ds.length * base * (carryPass base mul ((c + mul * d) / base) ds).2
        = (c + mul * d) % base + base * (Nat.ofDigits base (carryPass base mul ((c + mul * d) / base) ds).1 +
          base ^ ds.length * (carryPass base mul ((c + mul * d) / base) ds).2) := by ring
      _ = (c + mul * d) % base + base * ((c + mul * d) / base) + base * (mul * Nat.ofDigits base ds) := by
          rw [ih]; ring
      _ = mul * (d + base * Nat.ofDigits base ds) + c := by rw [hx]; ring

@[simp] theorem length_carryPass (base mul : Nat) :
    ∀ (c : Nat) (ds : List Nat), (carryPass base mul c ds).1.length = ds.length
  | _, [] => rfl
  | c, _ :: ds => by simp [carryPass, length_carryPass base mul _ ds]

theorem carryPass_lt {base : Nat} (hb : 0 < base) (mul : Nat) :
    ∀ (c : Nat) (ds : List Nat), ∀ d ∈ (carryPass base mul c ds).1, d < base
  | _, [] => by simp [carryPass]
  | c, _ :: ds => by
    intro d hd
    simp only [carryPass, List.mem_cons] at hd
    rcases hd with rfl | hd
    · exact Nat.mod_lt _ hb
    · exact carryPass_lt hb mul _ ds d hd

/-- A pass of no carry over zeros changes nothing. -/
theorem carryPass_zeros (base mul : Nat) :
    ∀ ds : List Nat, (∀ d ∈ ds, d = 0) → carryPass base mul 0 ds = (ds, 0)
  | [], _ => rfl
  | d :: ds, h => by
    obtain rfl := h d (by simp)
    have := carryPass_zeros base mul ds (fun d hd => h d (by simp [hd]))
    simp [carryPass, this]

/-! ## Reading the number back -/

/-- The digits of `ofDigits base L` are `L` without its most significant zeros. -/
theorem digits_ofDigits_eq {base : Nat} (hb : 1 < base) (L : List Nat) (hL : ∀ d ∈ L, d < base) :
    Nat.digits base (Nat.ofDigits base L) = L.rdropWhile (· == 0) := by
  induction L using List.reverseRecOn with
  | nil => simp
  | append_singleton L x ih =>
    have hL' : ∀ d ∈ L, d < base := fun d hd => hL d (by simp [hd])
    by_cases hx : x = 0
    · subst hx
      rw [List.rdropWhile_concat_pos _ _ _ (by simp), ← ih hL', Nat.ofDigits_append]
      simp
    · rw [List.rdropWhile_concat_neg _ _ _ (by simpa using hx)]
      exact Nat.digits_ofDigits base hb _ hL (fun _ => by simpa using hx)

/-- A number written without leading zeros is read back as its digits. -/
theorem digits_value {base : Nat} (hb : 1 < base) {l : List Nat} (hl : ∀ d ∈ l, d < base)
    (h0 : l.head? ≠ some 0) : (Nat.digits base (value base l)).reverse = l := by
  rw [value, digits_ofDigits_eq hb _ (by simpa using hl)]
  have hself : l.reverse.rdropWhile (· == 0) = l.reverse := by
    apply List.rdropWhile_eq_self_iff.mpr
    intro hne
    rw [List.getLast_reverse]
    cases l with
    | nil => simp at hne
    | cons a l => simpa using h0
  rw [hself, List.reverse_reverse]

/-- Zeros in front are skipped with the rest. -/
theorem dropWhile_replicate_append (k : Nat) (l : List Nat) :
    (List.replicate k 0 ++ l).dropWhile (· == 0) = l.dropWhile (· == 0) := by
  induction k with
  | zero => rfl
  | succ k ih => simp [List.replicate_succ, ih]

/-- A buffer that holds `V`, with no digit set above the `len` low ones. -/
structure Holds (base V : Nat) (b : List Nat) (len : Nat) : Prop where
  digit_lt : ∀ d ∈ b, d < base
  value_eq : value base b = V
  high_zero : ∀ k, len ≤ k → b.reverse.getD k 0 = 0

theorem holds_replicate (base size : Nat) (hb : 0 < base) : Holds base 0 (List.replicate size 0) 0 where
  digit_lt := by simp [List.mem_replicate]; omega
  value_eq := by
    induction size with
    | zero => rfl
    | succ n ih => rw [List.replicate_succ', value_concat, ih, Nat.mul_zero]
  high_zero := by
    intro k _
    simp [List.getD_eq_getElem?_getD, List.getElem?_replicate]
    split_ifs <;> rfl

/-- The first `b.length - len` digits of a buffer that holds its number in `len` digits are
zeros. -/
theorem Holds.eq_replicate_append {base V : Nat} {b : List Nat} {len : Nat} (h : Holds base V b len) :
    b = List.replicate (b.length - len) 0 ++ b.drop (b.length - len) := by
  conv_lhs => rw [← List.take_append_drop (b.length - len) b]
  congr 1
  apply List.eq_replicate_iff.mpr
  refine ⟨by simp, fun d hd => ?_⟩
  obtain ⟨j, hj, rfl⟩ := List.getElem_of_mem hd
  have hj' : j < b.length - len := by simpa using hj
  have := h.high_zero (b.length - 1 - j) (by omega)
  rw [List.getD_eq_getElem _ _ (by simp; omega), List.getElem_reverse] at this
  simpa [show b.length - 1 - (b.length - 1 - j) = j by omega] using this

theorem Holds.read {base V : Nat} (hb : 1 < base) {b : List Nat} {len : Nat} (h : Holds base V b len) :
    (b.drop (b.length - len)).dropWhile (· == 0) = (Nat.digits base V).reverse := by
  have hdrop : b.dropWhile (· == 0) = (b.drop (b.length - len)).dropWhile (· == 0) := by
    conv_lhs => rw [h.eq_replicate_append]
    exact dropWhile_replicate_append _ _
  rw [← hdrop, ← h.value_eq, value, digits_ofDigits_eq hb _ (fun d hd => h.digit_lt d (by simpa using hd)),
    List.rdropWhile, List.reverse_reverse, List.reverse_reverse]

/-! ## Buffer sizes from a rational estimate

A buffer of `n * k / P + 1` digits in base `b` holds every number of `n` digits in base `a`
when `k / P` is at least `log a / log b`; a fraction `q / p` between the two, with
`a ^ p ≤ b ^ q`, is the evidence. -/

theorem pow_lt_pow_div_of_pow_le {a b p q k P : Nat} (hb : 1 < b) (hp : 0 < p) (hP : 0 < P)
    (h : a ^ p ≤ b ^ q) (hqk : q * P ≤ k * p) (n : Nat) : a ^ n < b ^ (n * k / P + 1) := by
  by_contra hle
  rw [Nat.not_lt] at hle
  -- raised to the `p`-th power, the right side would stay below `(a ^ p) ^ n ≤ b ^ (q * n)`
  have hpow : b ^ ((n * k / P + 1) * p) ≤ b ^ (q * n) :=
    calc b ^ ((n * k / P + 1) * p) = (b ^ (n * k / P + 1)) ^ p := Nat.pow_mul _ _ _
      _ ≤ (a ^ n) ^ p := Nat.pow_le_pow_left hle p
      _ = (a ^ p) ^ n := by rw [← Nat.pow_mul, ← Nat.pow_mul, Nat.mul_comm]
      _ ≤ (b ^ q) ^ n := Nat.pow_le_pow_left h n
      _ = b ^ (q * n) := (Nat.pow_mul _ _ _).symm
  have hexp : (n * k / P + 1) * p ≤ q * n := (Nat.pow_le_pow_iff_right hb).mp hpow
  have hdiv : n * k < (n * k / P + 1) * P := by
    rw [Nat.add_mul, Nat.one_mul]
    exact Nat.lt_div_mul_add hP
  have h1 : (n * k / P + 1) * p * P ≤ q * n * P := Nat.mul_le_mul_right P hexp
  have h2 : q * n * P ≤ n * k * p :=
    calc q * n * P = n * (q * P) := by ring
      _ ≤ n * (k * p) := Nat.mul_le_mul_left n hqk
      _ = n * k * p := by ring
  have h3 : n * k * p < (n * k / P + 1) * P * p := Nat.mul_lt_mul_of_pos_right hdiv hp
  have := (h1.trans h2).trans_lt h3
  rw [Nat.mul_right_comm] at this
  exact Nat.lt_irrefl _ this

end DigitBuffer
