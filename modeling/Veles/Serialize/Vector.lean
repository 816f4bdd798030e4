import Veles.Serialize.CompactSize

/-!
# Vectors on the wire

`Serialize_impl` (serialize.h) writes a vector or prevector as its CompactSize length and
then its elements.  A vector of bytes is one blob, read back in blocks of at most
`1 + 4999999 / sizeof(T)` bytes so that a bogus length cannot allocate much
(`readBlob_eq`: the blocks read what one read would).  Other vectors are read element by
element; `nMid`, which grows by `5000000 / sizeof(T)`, only bounds the allocation and the
elements are read in order (`readElements`).

A length above `MAX_SIZE` is written but not read back: `ReadCompactSize` rejects it.

    v.length ≤ MAX_SIZE → unserializeBytes (serializeBytes v ++ rest) = .ok (v, rest)
    MAX_SIZE < v.length → unserializeBytes (serializeBytes v ++ rest) throws
    (∀ x ∈ v, ∀ rest, read (ser x ++ rest) = .ok (f x, rest)) → v.length ≤ MAX_SIZE →
      unserializeVector read (serializeVector ser v ++ rest) = .ok (v.map f, rest)
-/

namespace Veles

/-! ## Byte vectors: `CScript`, `std::vector<unsigned char>` -/

/-- `Serialize_impl(os, v, unsigned char())`, for `prevector<N, unsigned char>` and
`std::vector<unsigned char>` alike. -/
def serializeBytes (v : List UInt8) : List UInt8 :=
  writeCompactSize v.length.toUInt64 ++ v

/-- `while (i < nSize) { blk = min(nSize - i, 1 + 4999999 / sizeof(T)); v.resize(i + blk);
is.read(&v[i], blk); i += blk; }` for bytes, `v` the bytes read so far. -/
def readBlob (nSize : Nat) (i : Nat) (v : List UInt8) (s : List UInt8) :
    Except String (List UInt8 × List UInt8) :=
  if i < nSize then do
    let blk := min (nSize - i) (1 + 4999999 / 1)
    let (b, s) ← streamRead blk s
    readBlob nSize (i + blk) (v ++ b) s
  else pure (v, s)
termination_by nSize - i

/-- `Unserialize_impl(is, v, unsigned char())`. -/
def unserializeBytes (s : List UInt8) : Except String (List UInt8 × List UInt8) := do
  let (nSize, s) ← readCompactSize s
  readBlob nSize.toNat 0 [] s

/-! ## Vectors of other elements -/

/-- `Serialize_impl(os, v, V())`: the length, then each element. -/
def serializeVector {α : Type} (ser : α → List UInt8) (v : List α) : List UInt8 :=
  writeCompactSize v.length.toUInt64 ++ v.flatMap ser

/-- `nSize` elements, each read with `read` after the one before. -/
def readElements {α : Type} (read : List UInt8 → Except String (α × List UInt8)) :
    Nat → List UInt8 → Except String (List α × List UInt8)
  | 0, s => pure ([], s)
  | n + 1, s => do
    let (x, s) ← read s
    let (xs, s) ← readElements read n s
    pure (x :: xs, s)

/-- `Unserialize_impl(is, v, V())`. -/
def unserializeVector {α : Type} (read : List UInt8 → Except String (α × List UInt8))
    (s : List UInt8) : Except String (List α × List UInt8) := do
  let (nSize, s) ← readCompactSize s
  readElements read nSize.toNat s

/-! ## Reading what was written -/

/-- Reading in blocks reads what one `read` of the remaining bytes would. -/
theorem readBlob_eq (nSize : Nat) : ∀ (d i : Nat) (v s : List UInt8), nSize - i = d →
    readBlob nSize i v s = (streamRead (nSize - i) s).map fun r => (v ++ r.1, r.2) := by
  intro d
  induction d using Nat.strong_induction_on with
  | _ d ih =>
    intro i v s hd
    rw [readBlob]
    by_cases hi : i < nSize
    · rw [if_pos hi]
      dsimp only
      -- one block, then the rest from `i + blk`
      have hsplit : nSize - i = min (nSize - i) (1 + 4999999 / 1) + (nSize - (i + min (nSize - i) (1 + 4999999 / 1))) := by
        omega
      conv_rhs => rw [hsplit, streamRead_add]
      cases hr : streamRead (min (nSize - i) (1 + 4999999 / 1)) s with
      | error e => rfl
      | ok r =>
        simp only [Except.ok_bind]
        rw [ih (nSize - (i + min (nSize - i) (1 + 4999999 / 1))) (by omega) _ _ _ rfl]
        cases streamRead (nSize - (i + min (nSize - i) (1 + 4999999 / 1))) r.2 <;>
          simp [Except.map, List.append_assoc]
    · rw [if_neg hi, show nSize - i = 0 by omega]
      simp [streamRead, Except.map]

theorem toNat_toUInt64_length {α : Type} {v : List α} (h : v.length ≤ MAX_SIZE.toNat) :
    v.length.toUInt64.toNat = v.length := by
  have hmax : MAX_SIZE.toNat = 33554432 := rfl
  rw [Nat.toUInt64, UInt64.toNat_ofNat']
  exact Nat.mod_eq_of_lt (by omega)

theorem not_lt_max_size {α : Type} {v : List α} (h : v.length ≤ MAX_SIZE.toNat) :
    ¬ v.length.toUInt64 > MAX_SIZE.toUInt64 := by
  rw [gt_iff_lt, UInt64.lt_iff_toNat_lt, toNat_toUInt64_length h]
  exact Nat.not_lt.mpr h

/-- A byte vector of at most `MAX_SIZE` bytes is read back. -/
theorem unserializeBytes_serializeBytes (v rest : List UInt8) (h : v.length ≤ MAX_SIZE.toNat) :
    unserializeBytes (serializeBytes v ++ rest) = .ok (v, rest) := by
  rw [unserializeBytes, serializeBytes, List.append_assoc, readCompactSize_writeCompactSize,
    if_neg (not_lt_max_size h), Except.ok_bind]
  dsimp only
  rw [readBlob_eq _ _ 0 [] _ rfl, toNat_toUInt64_length h, Nat.sub_zero, streamRead_append]
  rfl

/-- A longer one is written, and rejected when read. -/
theorem unserializeBytes_serializeBytes_of_lt (v rest : List UInt8) (h : MAX_SIZE.toNat < v.length)
    (h64 : v.length < 2 ^ 64) :
    unserializeBytes (serializeBytes v ++ rest) = .error "ReadCompactSize(): size too large" := by
  have hgt : v.length.toUInt64 > MAX_SIZE.toUInt64 := by
    rw [gt_iff_lt, UInt64.lt_iff_toNat_lt, Nat.toUInt64, UInt64.toNat_ofNat', Nat.mod_eq_of_lt h64]
    exact h
  rw [unserializeBytes, serializeBytes, List.append_assoc, readCompactSize_writeCompactSize,
    if_pos hgt]
  rfl

section Elements

variable {α β : Type} {read : List UInt8 → Except String (β × List UInt8)}
  {ser : α → List UInt8} {f : α → β}

/-- Reading back each element of what was written; `f` is what a read recovers of an
element. -/
theorem readElements_flatMap : ∀ (v : List α),
    (∀ x ∈ v, ∀ rest, read (ser x ++ rest) = .ok (f x, rest)) → ∀ rest : List UInt8,
      readElements read v.length (v.flatMap ser ++ rest) = .ok (v.map f, rest)
  | [], _, _ => rfl
  | x :: v, hread, rest => by
    rw [List.length_cons, readElements, List.flatMap_cons, List.append_assoc,
      hread x List.mem_cons_self, Except.ok_bind]
    dsimp only
    rw [readElements_flatMap v (fun y hy => hread y (List.mem_cons_of_mem x hy)) rest]
    rfl

theorem unserializeVector_serializeVector (v : List α)
    (hread : ∀ x ∈ v, ∀ rest, read (ser x ++ rest) = .ok (f x, rest)) (rest : List UInt8)
    (h : v.length ≤ MAX_SIZE.toNat) :
    unserializeVector read (serializeVector ser v ++ rest) = .ok (v.map f, rest) := by
  rw [unserializeVector, serializeVector, List.append_assoc, readCompactSize_writeCompactSize,
    if_neg (not_lt_max_size h), Except.ok_bind]
  dsimp only
  rw [toNat_toUInt64_length h]
  exact readElements_flatMap v hread rest

end Elements

end Veles
