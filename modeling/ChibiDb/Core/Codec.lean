import Mathlib.Tactic

/-!
# Rows and Versioned Records

The data a heap stores. A row is a list of SQL values; a stored record is a
row behind a version header of three words: the transaction that created the
version, the one that deleted or superseded it (zero for none), and the packed
row id of the version that superseded it.

Records are kept decoded. What the storage layer needs of the bytes is their
length, which decides whether a record fits a page, so `encodedRowSize` is
kept as the source computes it and the header adds `recordHeader` bytes.

## Main definitions

* `Value`, `Row`: SQL values and rows.
* `Rid`: A row id, page and slot.
* `packRid`, `unpackRid`: A row id as one word and back.
* `Version`: A row with its version header.
* `encodedRowSize`: The bytes a row takes once long strings are moved out.
-/

namespace ChibiDb

/-- A SQL value. A float is kept as its bits. -/
inductive Value where
  | null
  | bool (b : Bool)
  | int (n : Int)
  | float (bits : UInt64)
  | str (s : String)
  | date (d : Int)
  deriving DecidableEq, Repr

/-- A row is the list of its values. -/
abbrev Row := List Value

/-- A row id: the page of the heap file and the slot on that page. -/
structure Rid where
  pageNo : Nat
  slot : Nat
  deriving DecidableEq, Repr

/-- A row id as the single word stored in a version's forward pointer. -/
def packRid (r : Rid) : Nat := r.pageNo * 2 ^ 16 + r.slot

/-- The row id a forward pointer stands for. -/
def unpackRid (v : Nat) : Rid := ⟨v / 2 ^ 16 % 2 ^ 32, v % 2 ^ 16⟩

/-- A stored record: the version header and the row behind it. -/
structure Version where
  creator : Nat
  deleter : Nat
  nextRid : Nat
  row : Row
  deriving DecidableEq, Repr

/-- Size of the version header in bytes. -/
def recordHeader : Nat := 24

/-- The bytes one value takes: a tag, and a string longer than the limit only
    leaves the id of its large object in the row. -/
def encodedValueSize (inlineLimit : Nat) : Value → Nat
  | .null => 1
  | .int _ => 9
  | .float _ => 9
  | .bool _ => 2
  | .date _ => 5
  | .str s => if s.utf8ByteSize > inlineLimit then 9 else 3 + s.utf8ByteSize

/-- The bytes a row takes, the version header excluded. -/
def encodedRowSize (inlineLimit : Nat) (row : Row) : Nat :=
  2 + (row.map (encodedValueSize inlineLimit)).sum

/-- The bytes a stored record takes. -/
def Version.size (inlineLimit : Nat) (v : Version) : Nat :=
  recordHeader + encodedRowSize inlineLimit v.row

end ChibiDb
