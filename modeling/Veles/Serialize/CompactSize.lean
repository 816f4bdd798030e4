import Veles.Serialize.Stream
import Veles.Lib.ExceptBind

/-!
# CompactSize

Every vector, string and script length on the wire is a CompactSize (serialize.h): one
byte below 253, else a marker byte 253, 254 or 255 followed by a 2, 4 or 8-byte
little-endian value.  `ReadCompactSize` rejects a value that a shorter form could have
held, and any value above `MAX_SIZE`.

    n ≤ MAX_SIZE → readCompactSize (writeCompactSize n ++ rest) = .ok (n, rest)
    MAX_SIZE < n → readCompactSize (writeCompactSize n ++ rest) throws
    readCompactSize s = .ok (n, rest) → s = writeCompactSize n ++ rest    (compactSize_canonical)
-/

namespace Veles

open LittleEndian

/-- `MAX_SIZE`: the largest length deserialisation accepts. -/
def MAX_SIZE : UInt32 := 0x02000000

/-- `GetSizeOfCompactSize(nSize)`. -/
def getSizeOfCompactSize (nSize : UInt64) : Nat :=
  if nSize < 253 then 1
  else if nSize ≤ 0xffff then 1 + 2
  else if nSize ≤ 0xffffffff then 1 + 4
  else 1 + 8

/-- `WriteCompactSize(os, nSize)`. -/
def writeCompactSize (nSize : UInt64) : List UInt8 :=
  if nSize < 253 then serWritedata8 nSize.toUInt8
  else if nSize ≤ 0xffff then serWritedata8 253 ++ serWritedata16 nSize.toUInt16
  else if nSize ≤ 0xffffffff then serWritedata8 254 ++ serWritedata32 nSize.toUInt32
  else serWritedata8 255 ++ serWritedata64 nSize

/-- The value after the marker byte `chSize`, with the canonical-form checks. -/
def readCompactSizeValue (chSize : UInt8) (s : List UInt8) : Except String (UInt64 × List UInt8) :=
  if chSize < 253 then pure (chSize.toUInt64, s)
  else if chSize = 253 then do
    let (nSizeRet, s) ← serReaddata16 s
    if nSizeRet.toUInt64 < 253 then throw "non-canonical ReadCompactSize()"
    pure (nSizeRet.toUInt64, s)
  else if chSize = 254 then do
    let (nSizeRet, s) ← serReaddata32 s
    if nSizeRet.toUInt64 < 0x10000 then throw "non-canonical ReadCompactSize()"
    pure (nSizeRet.toUInt64, s)
  else do
    let (nSizeRet, s) ← serReaddata64 s
    if nSizeRet < 0x100000000 then throw "non-canonical ReadCompactSize()"
    pure (nSizeRet, s)

/-- `ReadCompactSize(is)`. -/
def readCompactSize (s : List UInt8) : Except String (UInt64 × List UInt8) := do
  let (chSize, s) ← serReaddata8 s
  let (nSizeRet, s) ← readCompactSizeValue chSize s
  if nSizeRet > MAX_SIZE.toUInt64 then throw "ReadCompactSize(): size too large"
  pure (nSizeRet, s)

/-! ## Width conversions -/

theorem toUInt64_toUInt8_of_lt {n : UInt64} (h : n < 253) : n.toUInt8.toUInt64 = n := by
  rw [UInt64.lt_iff_toNat_lt] at h
  apply UInt64.toNat_inj.mp
  simp at h ⊢
  omega

theorem toUInt64_toUInt16_of_le {n : UInt64} (h : n ≤ 0xffff) : n.toUInt16.toUInt64 = n := by
  rw [UInt64.le_iff_toNat_le] at h
  apply UInt64.toNat_inj.mp
  simp at h ⊢
  omega

theorem toUInt64_toUInt32_of_le {n : UInt64} (h : n ≤ 0xffffffff) : n.toUInt32.toUInt64 = n := by
  rw [UInt64.le_iff_toNat_le] at h
  apply UInt64.toNat_inj.mp
  simp at h ⊢
  omega

/-! ## Writing then reading -/

theorem length_writeCompactSize (nSize : UInt64) :
    (writeCompactSize nSize).length = getSizeOfCompactSize nSize := by
  unfold writeCompactSize getSizeOfCompactSize
  split_ifs <;> simp [serWritedata8, serWritedata16, serWritedata32, serWritedata64]

/-- Every encoding is a marker byte followed by a payload that `readCompactSizeValue`
reads back. -/
theorem writeCompactSize_eq (nSize : UInt64) : ∃ chSize payload,
    writeCompactSize nSize = serWritedata8 chSize ++ payload ∧
      ∀ rest, readCompactSizeValue chSize (payload ++ rest) = .ok (nSize, rest) := by
  unfold writeCompactSize
  split_ifs with h1 h2 h3
  · refine ⟨nSize.toUInt8, [], (List.append_nil _).symm, fun rest => ?_⟩
    have hlt : nSize.toUInt8 < 253 := by
      rw [UInt64.lt_iff_toNat_lt] at h1
      rw [UInt8.lt_iff_toNat_lt]
      simp at h1 ⊢
      omega
    simp [readCompactSizeValue, hlt, toUInt64_toUInt8_of_lt h1]
  · refine ⟨253, serWritedata16 nSize.toUInt16, rfl, fun rest => ?_⟩
    have hr := (serReaddata16_eq_ok).mpr (rfl : serWritedata16 nSize.toUInt16 ++ rest = _)
    simp [readCompactSizeValue, hr, toUInt64_toUInt16_of_le h2, h1]
  · refine ⟨254, serWritedata32 nSize.toUInt32, rfl, fun rest => ?_⟩
    have hr := (serReaddata32_eq_ok).mpr (rfl : serWritedata32 nSize.toUInt32 ++ rest = _)
    have hlo : ¬nSize < 0x10000 := by
      rw [UInt64.lt_iff_toNat_lt]
      rw [UInt64.le_iff_toNat_le] at h2
      simp at h2 ⊢
      omega
    simp [readCompactSizeValue, hr, toUInt64_toUInt32_of_le h3, hlo]
  · refine ⟨255, serWritedata64 nSize, rfl, fun rest => ?_⟩
    have hr := (serReaddata64_eq_ok).mpr (rfl : serWritedata64 nSize ++ rest = _)
    have hlo : ¬nSize < 0x100000000 := by
      rw [UInt64.lt_iff_toNat_lt]
      rw [UInt64.le_iff_toNat_le] at h3
      simp at h3 ⊢
      omega
    simp [readCompactSizeValue, hr, hlo]

theorem readCompactSize_writeCompactSize (nSize : UInt64) (rest : List UInt8) :
    readCompactSize (writeCompactSize nSize ++ rest) =
      if nSize > MAX_SIZE.toUInt64 then .error "ReadCompactSize(): size too large"
      else .ok (nSize, rest) := by
  obtain ⟨chSize, payload, hw, hv⟩ := writeCompactSize_eq nSize
  have h8 : serReaddata8 (writeCompactSize nSize ++ rest) = .ok (chSize, payload ++ rest) :=
    (serReaddata8_eq_ok).mpr (by rw [hw, List.append_assoc])
  simp only [readCompactSize, h8, hv, Except.ok_bind]
  split <;> rfl

/-! ## Every accepted encoding is the written one -/

/-- What `readCompactSizeValue` accepts after the marker is the payload `WriteCompactSize`
would have written: each marker's non-canonical check rejects exactly the values a
shorter form holds. -/
theorem eq_of_readCompactSizeValue {chSize : UInt8} {s rest : List UInt8} {nSize : UInt64}
    (h : readCompactSizeValue chSize s = .ok (nSize, rest)) :
    serWritedata8 chSize ++ s = writeCompactSize nSize ++ rest := by
  unfold readCompactSizeValue at h
  split_ifs at h with h1 h2 h3
  · obtain ⟨rfl, rfl⟩ : chSize.toUInt64 = nSize ∧ s = rest := by simpa using h
    have hlt : chSize.toUInt64 < 253 := by
      rw [UInt8.lt_iff_toNat_lt] at h1
      rw [UInt64.lt_iff_toNat_lt]
      simp at h1 ⊢
      omega
    simp [writeCompactSize, hlt]
  · obtain ⟨⟨v, r⟩, hr, h⟩ := (Except.bind_eq_ok).mp h
    obtain ⟨hlo, rfl, rfl⟩ : ¬v.toUInt64 < 253 ∧ v.toUInt64 = nSize ∧ r = rest := by simpa using h
    have hhi : v.toUInt64 ≤ 0xffff := by
      have := v.toNat_lt
      rw [UInt64.le_iff_toNat_le]
      simp
      omega
    simp [writeCompactSize, hlo, hhi, (serReaddata16_eq_ok).mp hr, h2]
  · obtain ⟨⟨v, r⟩, hr, h⟩ := (Except.bind_eq_ok).mp h
    obtain ⟨hlo, rfl, rfl⟩ : ¬v.toUInt64 < 0x10000 ∧ v.toUInt64 = nSize ∧ r = rest := by
      simpa using h
    have hlo' : ¬v.toUInt64 < 253 ∧ ¬v.toUInt64 ≤ 0xffff := by
      rw [UInt64.lt_iff_toNat_lt] at hlo ⊢
      rw [UInt64.le_iff_toNat_le]
      simp at hlo ⊢
      omega
    have hhi : v.toUInt64 ≤ 0xffffffff := by
      have := v.toNat_lt
      rw [UInt64.le_iff_toNat_le]
      simp
      omega
    simp [writeCompactSize, hlo', hhi, (serReaddata32_eq_ok).mp hr, h3]
  · obtain ⟨⟨v, r⟩, hr, h⟩ := (Except.bind_eq_ok).mp h
    obtain ⟨hlo, rfl, rfl⟩ : ¬v < 0x100000000 ∧ v = nSize ∧ r = rest := by simpa using h
    have hlo' : ¬v < 253 ∧ ¬v ≤ 0xffff ∧ ¬v ≤ 0xffffffff := by
      rw [UInt64.lt_iff_toNat_lt] at hlo ⊢
      rw [UInt64.le_iff_toNat_le, UInt64.le_iff_toNat_le]
      simp at hlo ⊢
      omega
    have hch : chSize = 255 := by
      rw [UInt8.lt_iff_toNat_lt] at h1
      apply UInt8.toNat_inj.mp
      have := chSize.toNat_lt
      have h2' : chSize.toNat ≠ 253 := fun h => h2 (UInt8.toNat_inj.mp h)
      have h3' : chSize.toNat ≠ 254 := fun h => h3 (UInt8.toNat_inj.mp h)
      simp at h1 h2' h3' ⊢
      omega
    simp [writeCompactSize, hlo', (serReaddata64_eq_ok).mp hr, hch]

theorem eq_of_readCompactSize {s rest : List UInt8} {nSize : UInt64}
    (h : readCompactSize s = .ok (nSize, rest)) : s = writeCompactSize nSize ++ rest := by
  obtain ⟨⟨chSize, s₁⟩, h8, h⟩ := (Except.bind_eq_ok).mp h
  obtain ⟨⟨n, s₂⟩, hv, h⟩ := (Except.bind_eq_ok).mp h
  obtain ⟨-, rfl, rfl⟩ : ¬n > MAX_SIZE.toUInt64 ∧ n = nSize ∧ s₂ = rest := by simpa using h
  rw [(serReaddata8_eq_ok).mp h8]
  exact eq_of_readCompactSizeValue hv

/-! ## CompactSize is a canonical encoding -/

/-- Up to `MAX_SIZE` a written CompactSize reads back, consuming its
`GetSizeOfCompactSize` bytes; above it the read throws; and every accepted prefix is the
one `WriteCompactSize` writes. -/
theorem compactSize_canonical :
    (∀ nSize rest, nSize ≤ MAX_SIZE.toUInt64 →
      readCompactSize (writeCompactSize nSize ++ rest) = .ok (nSize, rest) ∧
        (writeCompactSize nSize).length = getSizeOfCompactSize nSize) ∧
    (∀ nSize rest, MAX_SIZE.toUInt64 < nSize →
      readCompactSize (writeCompactSize nSize ++ rest) =
        .error "ReadCompactSize(): size too large") ∧
    (∀ s nSize rest, readCompactSize s = .ok (nSize, rest) →
      s = writeCompactSize nSize ++ rest) := by
  refine ⟨fun nSize rest hle => ⟨?_, length_writeCompactSize nSize⟩,
    fun nSize rest hgt => ?_, fun _ _ _ h => eq_of_readCompactSize h⟩
  · rw [readCompactSize_writeCompactSize, if_neg (UInt64.not_lt.mpr hle)]
  · rw [readCompactSize_writeCompactSize, if_pos hgt]

theorem compactSize_canonical_fd_marker :
    readCompactSize (writeCompactSize 253 ++ [7]) = .ok (253, [7]) ∧
    readCompactSize (writeCompactSize 0x02000001 ++ []) =
      .error "ReadCompactSize(): size too large" ∧
    [0xfd, 0xfd, 0x00, 7] = writeCompactSize 253 ++ [7] :=
  ⟨(compactSize_canonical.1 253 [7] (by decide)).1,
    compactSize_canonical.2.1 0x02000001 [] (by decide),
    compactSize_canonical.2.2 [0xfd, 0xfd, 0x00, 7] 253 [7] (by decide)⟩

end Veles
