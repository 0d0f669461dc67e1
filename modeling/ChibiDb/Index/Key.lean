import ChibiDb.Core.Codec
import ChibiDb.Data.LittleEndian

/-!
# Encoded Index Keys

The order-preserving encoding of a value: a tag and, for numbers, big-endian bytes with the
sign flipped. Booleans cannot be indexed.

## Main definitions

* `encodeKey`: The bytes of a value.

## Theorems

* `encodeKey_ne_nil`: An encoding starts with its tag.
-/

namespace ChibiDb

open List Option

/-- The `w` low bytes of a number, most significant byte first. -/
def beBytes (w n : Nat) : List UInt8 := (leBytes w n).reverse

/-- The bits of a float in an order that compares like the numbers. Both zeros are one. -/
def orderedFloat (bits : UInt64) : Nat :=
  let bits := if bits.toNat = 2 ^ 63 then 0 else bits.toNat
  if 2 ^ 63 ≤ bits then 2 ^ 64 - 1 - bits else bits + 2 ^ 63

/-- The order-preserving bytes of a value. -/
def encodeKey : Value → Except String (List UInt8)
  | .null => .ok [0]
  | .int n => .ok (1 :: beBytes 8 ((n + 2 ^ 63) % 2 ^ 64).toNat)
  | .float bits => .ok (2 :: beBytes 8 (orderedFloat bits))
  | .str s => .ok (3 :: s.toUTF8.data.toList ++ [0])
  | .date d => .ok (4 :: beBytes 4 ((d + 2 ^ 31) % 2 ^ 32).toNat)
  | .bool _ => .error "cannot index boolean values"

/-- Some value has this encoding. -/
def IsEncoding (key : List UInt8) : Prop := ∃ v, encodeKey v = .ok key

variable {key : List UInt8}

/-- An encoding has at least its tag. -/
theorem encodeKey_ne_nil (h : IsEncoding key) : key ≠ [] := by
  rcases h with ⟨v, hv⟩
  cases v with
  | bool => simp [encodeKey] at hv
  | null | int n | float bits | str s | date d =>
    simp only [encodeKey, Except.ok.injEq] at hv
    rw [← hv]
    exact cons_ne_nil _ _

/-- The encodings of NULL, integers and dates, and of every other value that takes at most
    nine bytes. -/
structure ShortEncoding (key : List UInt8) : Prop where
  encoding : IsEncoding key
  short : key.length ≤ 9

/-- So a short one has one to nine bytes. -/
theorem ShortEncoding.pos (h : ShortEncoding key) : 1 ≤ key.length :=
  length_pos_iff.mpr (encodeKey_ne_nil h.encoding)

end ChibiDb
