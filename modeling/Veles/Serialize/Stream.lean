import Veles.Lib.LittleEndian
import Veles.Lib.ExceptBind

/-!
# Byte streams: `ser_writedata*` and `ser_readdata*`

serialize.h writes fixed-width integers little-endian (`htole16` and friends) and reads
them back from a stream.  A stream being read (`CDataStream`, streams.h) is the list of
bytes not yet consumed; a read past its end throws `CDataStream::read(): end of data`.
Every reader returns the value with the rest of the stream, or the text of the
exception it throws.

    readLE k (encodeLE k v ++ rest) = .ok (v % 256 ^ k, rest)       (readLE_encodeLE)
    readLE k s = .ok (v, rest) → s = encodeLE k v ++ rest            (eq_of_readLE)
    serReaddata16 s = .ok (v, rest) ↔ s = serWritedata16 v ++ rest    (and for 8, 32, 64)
-/

namespace Veles

open LittleEndian

/-- `CDataStream::read(pch, nSize)`: the next `nSize` bytes. -/
def streamRead (nSize : Nat) (s : List UInt8) : Except String (List UInt8 × List UInt8) :=
  if nSize ≤ s.length then .ok (s.take nSize, s.drop nSize)
  else .error "CDataStream::read(): end of data"

/-- `CDataStream::ignore(nSize)`: skip `nSize` bytes; `nSize` is an `int`. -/
def streamIgnore (nSize : Int) (s : List UInt8) : Except String (List UInt8) :=
  if nSize < 0 then .error "CDataStream::ignore(): nSize negative"
  else if nSize.toNat > s.length then .error "CDataStream::ignore(): end of data"
  else .ok (s.drop nSize.toNat)

/-- A `k`-byte little-endian read. -/
def readLE (k : Nat) (s : List UInt8) : Except String (Nat × List UInt8) := do
  let (b, s) ← streamRead k s
  return (decodeLE b, s)

def serWritedata8 (obj : UInt8) : List UInt8 := encodeLE 1 obj.toNat
def serWritedata16 (obj : UInt16) : List UInt8 := encodeLE 2 obj.toNat
def serWritedata32 (obj : UInt32) : List UInt8 := encodeLE 4 obj.toNat
def serWritedata64 (obj : UInt64) : List UInt8 := encodeLE 8 obj.toNat

/-- The common body of `ser_readdata8/16/32/64`: `k` bytes read little-endian into the
integer type that `ofN` converts to. -/
def readFixed {α : Type} (k : Nat) (ofN : Nat → α) (s : List UInt8) : Except String (α × List UInt8) := do
  let (v, s) ← readLE k s
  return (ofN v, s)

def serReaddata8 (s : List UInt8) : Except String (UInt8 × List UInt8) := readFixed 1 UInt8.ofNat s
def serReaddata16 (s : List UInt8) : Except String (UInt16 × List UInt8) := readFixed 2 UInt16.ofNat s
def serReaddata32 (s : List UInt8) : Except String (UInt32 × List UInt8) := readFixed 4 UInt32.ofNat s
def serReaddata64 (s : List UInt8) : Except String (UInt64 × List UInt8) := readFixed 8 UInt64.ofNat s

/-! ## Reading what was written -/

theorem streamRead_append (bs rest : List UInt8) :
    streamRead bs.length (bs ++ rest) = .ok (bs, rest) := by
  simp [streamRead]

/-- Reading `a + b` bytes is reading `a` bytes, then `b`. -/
theorem streamRead_add (a b : Nat) (s : List UInt8) :
    streamRead (a + b) s =
      (streamRead a s >>= fun r => (streamRead b r.2).map fun q => (r.1 ++ q.1, q.2)) := by
  unfold streamRead
  by_cases ha : a ≤ s.length
  · by_cases hb : b ≤ s.length - a
    · rw [if_pos (by omega), if_pos ha]
      simp [hb, Except.map, List.take_add, List.drop_drop]
    · rw [if_neg (by omega), if_pos ha]
      simp [hb, Except.map]
  · rw [if_neg (by omega), if_neg ha]
    rfl

theorem streamRead_eq_ok {k : Nat} {s b rest : List UInt8} :
    streamRead k s = .ok (b, rest) ↔ b.length = k ∧ s = b ++ rest := by
  unfold streamRead
  split
  · next hk =>
    constructor
    · intro h
      cases h
      exact ⟨by simp; omega, (List.take_append_drop k s).symm⟩
    · rintro ⟨hb, rfl⟩
      subst hb
      simp
  · next hk =>
    constructor
    · intro h; cases h
    · rintro ⟨hb, rfl⟩
      simp at hk
      omega

theorem readLE_encodeLE (k v : Nat) (rest : List UInt8) :
    readLE k (encodeLE k v ++ rest) = .ok (v % 256 ^ k, rest) := by
  have h := streamRead_append (encodeLE k v) rest
  rw [length_encodeLE] at h
  simp [readLE, h, decodeLE_encodeLE]

theorem readLE_eq_ok {k : Nat} {s rest : List UInt8} {v : Nat} :
    readLE k s = .ok (v, rest) ↔ ∃ b, b.length = k ∧ s = b ++ rest ∧ v = decodeLE b := by
  constructor
  · intro h
    unfold readLE at h
    cases hr : streamRead k s with
    | error e => rw [hr] at h; cases h
    | ok r =>
      obtain ⟨b, r'⟩ := r
      obtain ⟨hb, hs⟩ := (streamRead_eq_ok).mp hr
      simp only [hr, bind, Except.bind, pure, Except.pure, Except.ok.injEq, Prod.mk.injEq] at h
      obtain ⟨rfl, rfl⟩ := h
      exact ⟨b, hb, hs, rfl⟩
  · rintro ⟨b, rfl, rfl, rfl⟩
    simp [readLE, streamRead_append]

theorem eq_of_readLE {k : Nat} {s rest : List UInt8} {v : Nat} (h : readLE k s = .ok (v, rest)) :
    v < 256 ^ k ∧ s = encodeLE k v ++ rest := by
  obtain ⟨b, hb, rfl, rfl⟩ := (readLE_eq_ok).mp h
  refine ⟨hb ▸ decodeLE_lt b, ?_⟩
  rw [← hb, encodeLE_decodeLE]

section Fixed

variable {α : Type} {k : Nat} {ofN : Nat → α} {toN : α → Nat}

/-- A fixed-width read succeeds exactly on the width's encoding of its result, for any
integer type whose `ofN` and `toN` are inverse below `256 ^ k`. -/
theorem readFixed_eq_ok (hof : ∀ v, toN (ofN v) = v % 256 ^ k) (hto : ∀ a, ofN (toN a) = a)
    (hlt : ∀ a, toN a < 256 ^ k) {s rest : List UInt8} {a : α} :
    readFixed k ofN s = .ok (a, rest) ↔ s = encodeLE k (toN a) ++ rest := by
  constructor
  · intro h
    obtain ⟨⟨w, r⟩, hr, h⟩ := (Except.bind_eq_ok).mp h
    cases h
    obtain ⟨hw, rfl⟩ := eq_of_readLE hr
    rw [hof, Nat.mod_eq_of_lt hw]
  · rintro rfl
    simp [readFixed, readLE_encodeLE, Nat.mod_eq_of_lt (hlt a), hto]

end Fixed

theorem serWritedata8_eq (b : UInt8) : serWritedata8 b = [b] := by
  simp [serWritedata8, encodeLE]

/-- `ser_readdata8` takes the next byte, or throws on an empty stream. -/
theorem serReaddata8_cons (b : UInt8) (s : List UInt8) : serReaddata8 (b :: s) = .ok (b, s) := by
  simp [serReaddata8, readFixed, readLE, streamRead, decodeLE]

theorem serReaddata8_nil : serReaddata8 [] = .error "CDataStream::read(): end of data" := by
  simp [serReaddata8, readFixed, readLE, streamRead]

theorem serReaddata8_eq_ok {s rest : List UInt8} {v : UInt8} :
    serReaddata8 s = .ok (v, rest) ↔ s = serWritedata8 v ++ rest :=
  readFixed_eq_ok (fun _ => UInt8.toNat_ofNat') (fun _ => UInt8.ofNat_toNat) UInt8.toNat_lt

theorem serReaddata16_eq_ok {s rest : List UInt8} {v : UInt16} :
    serReaddata16 s = .ok (v, rest) ↔ s = serWritedata16 v ++ rest :=
  readFixed_eq_ok (fun _ => UInt16.toNat_ofNat') (fun _ => UInt16.ofNat_toNat) UInt16.toNat_lt

theorem serReaddata32_eq_ok {s rest : List UInt8} {v : UInt32} :
    serReaddata32 s = .ok (v, rest) ↔ s = serWritedata32 v ++ rest :=
  readFixed_eq_ok (fun _ => UInt32.toNat_ofNat') (fun _ => UInt32.ofNat_toNat) UInt32.toNat_lt

theorem serReaddata64_eq_ok {s rest : List UInt8} {v : UInt64} :
    serReaddata64 s = .ok (v, rest) ↔ s = serWritedata64 v ++ rest :=
  readFixed_eq_ok (fun _ => UInt64.toNat_ofNat') (fun _ => UInt64.ofNat_toNat) UInt64.toNat_lt

end Veles
