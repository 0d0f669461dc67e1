import Mathlib.Tactic

/-!
# Little-Endian Words

Fixed-width little-endian words as lists of bytes. A writer gives the width and
the value, a reader takes whatever bytes it is handed. Writing keeps only the
low `8 * w` bits, so reading a word back gives the value modulo `256 ^ w`, and
the value itself exactly when it fits.

## Main definitions

* `leBytes`: The `w` low bytes of a number, least significant first.
* `ofLeBytes`: The number a list of bytes stands for.

## Theorems

* `length_leBytes`: A word has the width it was written with.
* `ofLeBytes_leBytes_mod`: Reading back truncates to the width.
* `ofLeBytes_leBytes`: Reading back is exact for a value that fits.
* `leBytes_ofLeBytes`: Writing back what was read gives the same bytes.
-/

namespace ChibiDb

/-- The `w` low bytes of `n`, least significant byte first. -/
def leBytes : Nat → Nat → List UInt8
  | 0, _ => []
  | w + 1, n => UInt8.ofNat n :: leBytes w (n / 256)

/-- The number a list of bytes stands for, least significant byte first. -/
def ofLeBytes : List UInt8 → Nat
  | [] => 0
  | b :: bs => b.toNat + 256 * ofLeBytes bs

@[simp] theorem length_leBytes (w n : Nat) : (leBytes w n).length = w := by
  induction w generalizing n with
  | zero => rfl
  | succ w ih => rw [leBytes, List.length_cons, ih]

/-- Writing a word keeps only the bytes that fit its width. -/
theorem ofLeBytes_leBytes_mod (w n : Nat) : ofLeBytes (leBytes w n) = n % 256 ^ w := by
  induction w generalizing n with
  | zero => rw [leBytes, ofLeBytes, pow_zero, Nat.mod_one]
  | succ w ih =>
    rw [leBytes, ofLeBytes, ih, UInt8.toNat_ofNat']
    change n % 256 + 256 * (n / 256 % 256 ^ w) = n % 256 ^ (w + 1)
    rw [pow_succ, Nat.mul_comm (256 ^ w) 256, Nat.mod_mul]

theorem ofLeBytes_leBytes {w n : Nat} (h : n < 256 ^ w) : ofLeBytes (leBytes w n) = n := by
  rw [ofLeBytes_leBytes_mod, Nat.mod_eq_of_lt h]

/-- The other round trip: a word of the right width is written back unchanged. -/
theorem leBytes_ofLeBytes (bs : List UInt8) : leBytes bs.length (ofLeBytes bs) = bs := by
  induction bs with
  | nil => rfl
  | cons b bs ih =>
    have hb : b.toNat < 256 := b.toNat_lt
    have hdiv : (b.toNat + 256 * ofLeBytes bs) / 256 = ofLeBytes bs := by omega
    have hlow : UInt8.ofNat (b.toNat + 256 * ofLeBytes bs) = b := by
      apply UInt8.toNat_inj.mp
      rw [UInt8.toNat_ofNat']
      omega
    rw [ofLeBytes, List.length_cons, leBytes, hdiv, hlow, ih]

end ChibiDb
