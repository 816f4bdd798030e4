import Mathlib

/-!
# Little-endian byte strings

`encodeLE w n` is the `w` low bytes of `n`, least significant first; `decodeLE` reads
a byte string back as a number.  The two are inverse on `w`-byte strings and on
numbers below `256^w`:

    decodeLE (encodeLE w n) = n % 256 ^ w          (decodeLE_encodeLE)
    encodeLE bs.length (decodeLE bs) = bs          (encodeLE_decodeLE)
-/

namespace LittleEndian

/-- The number a byte string stands for, least significant byte first. -/
def decodeLE : List UInt8 → Nat
  | [] => 0
  | b :: bs => b.toNat + 256 * decodeLE bs

/-- The `w` low bytes of `n`, least significant first. -/
def encodeLE : Nat → Nat → List UInt8
  | 0, _ => []
  | w + 1, n => UInt8.ofNat n :: encodeLE w (n / 256)

@[simp] theorem length_encodeLE (w n : Nat) : (encodeLE w n).length = w := by
  induction w generalizing n with
  | zero => rfl
  | succ w ih => simp [encodeLE, ih]

theorem decodeLE_encodeLE (w n : Nat) : decodeLE (encodeLE w n) = n % 256 ^ w := by
  induction w generalizing n with
  | zero => simp [encodeLE, decodeLE, Nat.mod_one]
  | succ w ih =>
    simp only [encodeLE, decodeLE, UInt8.toNat_ofNat', ih]
    rw [show 256 ^ (w + 1) = 256 * 256 ^ w by rw [Nat.pow_succ, Nat.mul_comm], Nat.mod_mul]

theorem decodeLE_lt (bs : List UInt8) : decodeLE bs < 256 ^ bs.length := by
  induction bs with
  | nil => simp [decodeLE]
  | cons b bs ih =>
    have := b.toNat_lt
    simp only [decodeLE, List.length_cons, Nat.pow_succ]
    change b.toNat < 256 at this
    omega

theorem encodeLE_decodeLE (bs : List UInt8) : encodeLE bs.length (decodeLE bs) = bs := by
  induction bs with
  | nil => rfl
  | cons b bs ih =>
    have hb : b.toNat < 256 := b.toNat_lt
    simp only [List.length_cons, encodeLE, decodeLE]
    congr 1
    · apply UInt8.toNat_inj.mp
      rw [UInt8.toNat_ofNat']
      omega
    · rw [show (b.toNat + 256 * decodeLE bs) / 256 = decodeLE bs by omega, ih]

end LittleEndian
