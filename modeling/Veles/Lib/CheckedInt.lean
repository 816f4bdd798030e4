import Mathlib

/-!
# Signed arithmetic of C, where an overflow is undefined

C's `+`, `-` and `*` on `int` and `int64_t` are defined only when the exact result is
representable; an overflow is undefined behaviour.  `addChecked`, `subChecked` and
`mulChecked` give the operation where it is defined and `none` where it is not, so that a model
which runs through them and is shown to end in `some` has shown that no overflow happens on the
way.

    a.addChecked b = some c ↔ -2^63 ≤ a.toInt + b.toInt < 2^63 ∧ c.toInt = a.toInt + b.toInt
    a.subChecked b = some c ↔ -2^63 ≤ a.toInt - b.toInt < 2^63 ∧ c.toInt = a.toInt - b.toInt

and `Int32.mulChecked` the same for `*` on `int`.
-/

namespace BitVec

variable {w : Nat} {x y : BitVec w}

theorem saddOverflow_eq_false_iff : x.saddOverflow y = false ↔
    -2 ^ (w - 1) ≤ x.toInt + y.toInt ∧ x.toInt + y.toInt < 2 ^ (w - 1) := by
  simp [BitVec.saddOverflow]
  omega

theorem ssubOverflow_eq_false_iff : x.ssubOverflow y = false ↔
    -2 ^ (w - 1) ≤ x.toInt - y.toInt ∧ x.toInt - y.toInt < 2 ^ (w - 1) := by
  simp [BitVec.ssubOverflow]
  omega

theorem smulOverflow_eq_false_iff : x.smulOverflow y = false ↔
    -2 ^ (w - 1) ≤ x.toInt * y.toInt ∧ x.toInt * y.toInt < 2 ^ (w - 1) := by
  simp only [BitVec.smulOverflow, Bool.or_eq_false_iff, decide_eq_false_iff_not, not_le, not_lt]
  exact And.comm

end BitVec

namespace Int64

/-- `a + b` on `int64_t`; `none` where it overflows. -/
def addChecked (a b : Int64) : Option Int64 :=
  if a.toBitVec.saddOverflow b.toBitVec then none else some (a + b)

/-- `a - b` on `int64_t`; `none` where it overflows. -/
def subChecked (a b : Int64) : Option Int64 :=
  if a.toBitVec.ssubOverflow b.toBitVec then none else some (a - b)

theorem saddOverflow_eq_false_iff {a b : Int64} :
    a.toBitVec.saddOverflow b.toBitVec = false ↔
      -2 ^ 63 ≤ a.toInt + b.toInt ∧ a.toInt + b.toInt < 2 ^ 63 := by
  simpa [Int64.toInt_toBitVec] using
    BitVec.saddOverflow_eq_false_iff (x := a.toBitVec) (y := b.toBitVec)

theorem ssubOverflow_eq_false_iff {a b : Int64} :
    a.toBitVec.ssubOverflow b.toBitVec = false ↔
      -2 ^ 63 ≤ a.toInt - b.toInt ∧ a.toInt - b.toInt < 2 ^ 63 := by
  simpa [Int64.toInt_toBitVec] using
    BitVec.ssubOverflow_eq_false_iff (x := a.toBitVec) (y := b.toBitVec)

theorem addChecked_eq_some_iff {a b c : Int64} :
    a.addChecked b = some c ↔
      (-2 ^ 63 ≤ a.toInt + b.toInt ∧ a.toInt + b.toInt < 2 ^ 63) ∧
        c.toInt = a.toInt + b.toInt := by
  unfold addChecked
  cases h : a.toBitVec.saddOverflow b.toBitVec with
  | true =>
    rw [if_pos rfl]
    simp only [reduceCtorEq, false_iff]
    rintro ⟨hr, -⟩
    rw [(saddOverflow_eq_false_iff).mpr hr] at h
    cases h
  | false =>
    have hadd : (a + b).toInt = a.toInt + b.toInt := by
      have := BitVec.toInt_add_of_not_saddOverflow (x := a.toBitVec) (y := b.toBitVec) (by simp [h])
      simpa [Int64.toInt_toBitVec] using this
    rw [if_neg (by simp), Option.some.injEq, ← Int64.toInt_inj, hadd, eq_comm]
    exact (and_iff_right ((saddOverflow_eq_false_iff).mp h)).symm

theorem subChecked_eq_some_iff {a b c : Int64} :
    a.subChecked b = some c ↔
      (-2 ^ 63 ≤ a.toInt - b.toInt ∧ a.toInt - b.toInt < 2 ^ 63) ∧
        c.toInt = a.toInt - b.toInt := by
  unfold subChecked
  cases h : a.toBitVec.ssubOverflow b.toBitVec with
  | true =>
    rw [if_pos rfl]
    simp only [reduceCtorEq, false_iff]
    rintro ⟨hr, -⟩
    rw [(ssubOverflow_eq_false_iff).mpr hr] at h
    cases h
  | false =>
    have hsub : (a - b).toInt = a.toInt - b.toInt := by
      have := BitVec.toInt_sub_of_not_ssubOverflow (x := a.toBitVec) (y := b.toBitVec) (by simp [h])
      simpa [Int64.toInt_toBitVec] using this
    rw [if_neg (by simp), Option.some.injEq, ← Int64.toInt_inj, hsub, eq_comm]
    exact (and_iff_right ((ssubOverflow_eq_false_iff).mp h)).symm

/-- Where the exact sum is representable, `addChecked` is defined and gives it. -/
theorem exists_addChecked_eq_some {a b : Int64} (hlo : -2 ^ 63 ≤ a.toInt + b.toInt)
    (hhi : a.toInt + b.toInt < 2 ^ 63) :
    ∃ c, a.addChecked b = some c ∧ c.toInt = a.toInt + b.toInt := by
  have hdef : a.addChecked b = some (a + b) := by
    rw [addChecked, (saddOverflow_eq_false_iff).mpr ⟨hlo, hhi⟩]
    rfl
  exact ⟨a + b, hdef, ((addChecked_eq_some_iff).mp hdef).2⟩

/-- Where the exact difference is representable, `subChecked` is defined and gives it. -/
theorem exists_subChecked_eq_some {a b : Int64} (hlo : -2 ^ 63 ≤ a.toInt - b.toInt)
    (hhi : a.toInt - b.toInt < 2 ^ 63) :
    ∃ c, a.subChecked b = some c ∧ c.toInt = a.toInt - b.toInt := by
  have hdef : a.subChecked b = some (a - b) := by
    rw [subChecked, (ssubOverflow_eq_false_iff).mpr ⟨hlo, hhi⟩]
    rfl
  exact ⟨a - b, hdef, ((subChecked_eq_some_iff).mp hdef).2⟩

end Int64

namespace Int32

/-- `a - b` on `int`; `none` where it overflows. -/
def subChecked (a b : Int32) : Option Int32 :=
  if a.toBitVec.ssubOverflow b.toBitVec then none else some (a - b)

theorem ssubOverflow_eq_false_iff {a b : Int32} :
    a.toBitVec.ssubOverflow b.toBitVec = false ↔
      -2 ^ 31 ≤ a.toInt - b.toInt ∧ a.toInt - b.toInt < 2 ^ 31 := by
  simpa [Int32.toInt_toBitVec] using
    BitVec.ssubOverflow_eq_false_iff (x := a.toBitVec) (y := b.toBitVec)

theorem subChecked_eq_some_iff {a b c : Int32} :
    a.subChecked b = some c ↔
      (-2 ^ 31 ≤ a.toInt - b.toInt ∧ a.toInt - b.toInt < 2 ^ 31) ∧
        c.toInt = a.toInt - b.toInt := by
  unfold subChecked
  cases h : a.toBitVec.ssubOverflow b.toBitVec with
  | true =>
    rw [if_pos rfl]
    simp only [reduceCtorEq, false_iff]
    rintro ⟨hr, -⟩
    rw [(ssubOverflow_eq_false_iff).mpr hr] at h
    cases h
  | false =>
    have hsub : (a - b).toInt = a.toInt - b.toInt := by
      have := BitVec.toInt_sub_of_not_ssubOverflow (x := a.toBitVec) (y := b.toBitVec) (by simp [h])
      simpa [Int32.toInt_toBitVec] using this
    rw [if_neg (by simp), Option.some.injEq, ← Int32.toInt_inj, hsub, eq_comm]
    exact (and_iff_right ((ssubOverflow_eq_false_iff).mp h)).symm

/-- Where the exact difference is representable, `subChecked` is defined and gives it. -/
theorem exists_subChecked_eq_some {a b : Int32} (hlo : -2 ^ 31 ≤ a.toInt - b.toInt)
    (hhi : a.toInt - b.toInt < 2 ^ 31) :
    ∃ c, a.subChecked b = some c ∧ c.toInt = a.toInt - b.toInt := by
  have hdef : a.subChecked b = some (a - b) := by
    rw [subChecked, (ssubOverflow_eq_false_iff).mpr ⟨hlo, hhi⟩]
    rfl
  exact ⟨a - b, hdef, ((subChecked_eq_some_iff).mp hdef).2⟩


/-- `a + b` on `int`; `none` where it overflows. -/
def addChecked (a b : Int32) : Option Int32 :=
  if a.toBitVec.saddOverflow b.toBitVec then none else some (a + b)

theorem saddOverflow_eq_false_iff {a b : Int32} :
    a.toBitVec.saddOverflow b.toBitVec = false ↔
      -2 ^ 31 ≤ a.toInt + b.toInt ∧ a.toInt + b.toInt < 2 ^ 31 := by
  simpa [Int32.toInt_toBitVec] using
    BitVec.saddOverflow_eq_false_iff (x := a.toBitVec) (y := b.toBitVec)

theorem addChecked_eq_some_iff {a b c : Int32} :
    a.addChecked b = some c ↔
      (-2 ^ 31 ≤ a.toInt + b.toInt ∧ a.toInt + b.toInt < 2 ^ 31) ∧
        c.toInt = a.toInt + b.toInt := by
  unfold addChecked
  cases h : a.toBitVec.saddOverflow b.toBitVec with
  | true =>
    rw [if_pos rfl]
    simp only [reduceCtorEq, false_iff]
    rintro ⟨hr, -⟩
    rw [(saddOverflow_eq_false_iff).mpr hr] at h
    cases h
  | false =>
    have hadd : (a + b).toInt = a.toInt + b.toInt := by
      have := BitVec.toInt_add_of_not_saddOverflow (x := a.toBitVec) (y := b.toBitVec) (by simp [h])
      simpa [Int32.toInt_toBitVec] using this
    rw [if_neg (by simp), Option.some.injEq, ← Int32.toInt_inj, hadd, eq_comm]
    exact (and_iff_right ((saddOverflow_eq_false_iff).mp h)).symm

/-- Where the exact sum is representable, `addChecked` is defined and gives it. -/
theorem exists_addChecked_eq_some {a b : Int32} (hlo : -2 ^ 31 ≤ a.toInt + b.toInt)
    (hhi : a.toInt + b.toInt < 2 ^ 31) :
    ∃ c, a.addChecked b = some c ∧ c.toInt = a.toInt + b.toInt := by
  have hdef : a.addChecked b = some (a + b) := by
    rw [addChecked, (saddOverflow_eq_false_iff).mpr ⟨hlo, hhi⟩]
    rfl
  exact ⟨a + b, hdef, ((addChecked_eq_some_iff).mp hdef).2⟩

/-- `a * b` on `int`; `none` where it overflows. -/
def mulChecked (a b : Int32) : Option Int32 :=
  if a.toBitVec.smulOverflow b.toBitVec then none else some (a * b)

theorem smulOverflow_eq_false_iff {a b : Int32} :
    a.toBitVec.smulOverflow b.toBitVec = false ↔
      -2 ^ 31 ≤ a.toInt * b.toInt ∧ a.toInt * b.toInt < 2 ^ 31 := by
  simpa [Int32.toInt_toBitVec] using
    BitVec.smulOverflow_eq_false_iff (x := a.toBitVec) (y := b.toBitVec)

theorem mulChecked_eq_some_iff {a b c : Int32} :
    a.mulChecked b = some c ↔
      (-2 ^ 31 ≤ a.toInt * b.toInt ∧ a.toInt * b.toInt < 2 ^ 31) ∧
        c.toInt = a.toInt * b.toInt := by
  unfold mulChecked
  cases h : a.toBitVec.smulOverflow b.toBitVec with
  | true =>
    rw [if_pos rfl]
    simp only [reduceCtorEq, false_iff]
    rintro ⟨hr, -⟩
    rw [(smulOverflow_eq_false_iff).mpr hr] at h
    cases h
  | false =>
    have hmul : (a * b).toInt = a.toInt * b.toInt := by
      have := BitVec.toInt_mul_of_not_smulOverflow (x := a.toBitVec) (y := b.toBitVec) (by simp [h])
      simpa [Int32.toInt_toBitVec] using this
    rw [if_neg (by simp), Option.some.injEq, ← Int32.toInt_inj, hmul, eq_comm]
    exact (and_iff_right ((smulOverflow_eq_false_iff).mp h)).symm

/-- Where the exact product is representable, `mulChecked` is defined and gives it. -/
theorem exists_mulChecked_eq_some {a b : Int32} (hlo : -2 ^ 31 ≤ a.toInt * b.toInt)
    (hhi : a.toInt * b.toInt < 2 ^ 31) :
    ∃ c, a.mulChecked b = some c ∧ c.toInt = a.toInt * b.toInt := by
  have hdef : a.mulChecked b = some (a * b) := by
    rw [mulChecked, (smulOverflow_eq_false_iff).mpr ⟨hlo, hhi⟩]
    rfl
  exact ⟨a * b, hdef, ((mulChecked_eq_some_iff).mp hdef).2⟩

/-- Where it is not, the product overflows. -/
theorem mulChecked_eq_none_iff {a b : Int32} :
    a.mulChecked b = none ↔ ¬(-2 ^ 31 ≤ a.toInt * b.toInt ∧ a.toInt * b.toInt < 2 ^ 31) := by
  unfold mulChecked
  rw [← smulOverflow_eq_false_iff]
  cases a.toBitVec.smulOverflow b.toBitVec <;> simp

end Int32
