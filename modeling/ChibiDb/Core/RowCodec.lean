import ChibiDb.Core.Codec
import ChibiDb.Data.Reader

/-!
# Rows as Bytes

The encoding of a row with every string inline, which the catalog file uses for column
defaults and the wire protocol for results. The number of columns and the length of a
string are words of two bytes.

## Main definitions

* `encodeRow`, `decodeRow`: A row as bytes and back, with no large objects.
* `Value.Fits`: A value of the source's types, with a string that is not too long.

## Theorems

* `reads_row`: A row is read back for the rows that fit, and only for them.
-/

namespace ChibiDb

open Reader

/-- A byte as an error shows it. -/
def hexByte (n : Nat) : String := .ofList ((Nat.toDigits 16 n).leftpad 2 '0')

/-- The tag of a value in a row. -/
def Value.tag : Value → Nat
  | .null => 0
  | .int _ => 1
  | .float _ => 2
  | .str _ => 3
  | .bool _ => 4
  | .date _ => 5

/-- What follows the tag. -/
def Value.payload : Value → List UInt8
  | .null => []
  | .int n => putSigned 8 n
  | .float bits => leBytes 8 bits.toNat
  | .str s => putStr 2 s
  | .bool b => putFlag b
  | .date d => putSigned 4 d

/-- A value in a row. -/
def encodeValue (v : Value) : List UInt8 := leBytes 1 v.tag ++ v.payload

/-- A row: the number of its values, in two bytes, and the values. -/
def encodeRow : Row → List UInt8 := putCounted 2 encodeValue

/-- Read what follows a tag. -/
def takePayload (tag : Nat) : Reader Value :=
  let truncated := "truncated row data"
  match tag with
  | 0 => return .null
  | 1 => do return .int (← signed truncated 8)
  | 2 => do return .float (.ofNat (← word truncated 8))
  | 3 => do return .str (← str truncated "invalid utf8 in stored string" 2)
  | 4 => do return .bool (← flag truncated)
  | 5 => do return .date (← signed truncated 4)
  | 6 => do
    let _ ← take truncated 8
    throw "lob reference without a resolver"
  | tag => throw ("unknown value tag 0x" ++ hexByte tag)

/-- Read a value. -/
def decodeValue : Reader Value := do takePayload (← word "truncated row data" 1)

/-- Read a row. -/
def decodeRow : Reader Row := counted "truncated row data" 2 decodeValue

/-- The numbers are in the range of their types, and a string takes less than `2 ^ 16` bytes. -/
def Value.Fits : Value → Prop
  | .int n => -2 ^ 63 ≤ n ∧ n < 2 ^ 63
  | .date d => -2 ^ 31 ≤ d ∧ d < 2 ^ 31
  | .str s => s.utf8ByteSize < 2 ^ 16
  | _ => True

/-- The number of columns and every value fit. -/
def rowFits (row : Row) : Prop := row.length < 2 ^ 16 ∧ ∀ v ∈ row, v.Fits

/-- After a tag, the payload of a value with that tag reads back. -/
theorem reads_payload (tag : Nat) :
    ReadsBackIn (fun v => True ∧ v.tag = tag) (takePayload tag) Value.payload Value.Fits := by
  match tag with
  | 0 =>
    refine (ReadsBackIn.pure (fun v => ?_)).congr ?_
    · cases v <;> simp [Value.tag]
    · intro v hv
      cases v <;> cases hv.2
      exact ⟨rfl, Iff.rfl⟩
  | 1 =>
    refine (ReadsBackIn.signed 8).ctor Value.int (fun v => ?_) (fun _ => rfl) (fun n => ?_)
    · cases v <;> simp [Value.tag]
    · unfold Value.Fits Int.bmod
      norm_num
      omega
  | 2 =>
    refine (ReadsBackIn.word 8).map (fun n => Value.float (.ofNat n)) ?_ ?_
    · intro v hv _
      cases v <;> cases hv.2
      exact ⟨_, trivial, UInt64.toNat_lt _, congrArg _ (UInt64.ofNat_toNat), rfl⟩
    · intro n _ _
      exact ⟨⟨trivial, rfl⟩, trivial, by simp [Value.payload]⟩
  | 3 =>
    refine (ReadsBackIn.str 2).ctor Value.str (fun v => ?_) (fun _ => rfl) (fun _ => Iff.rfl)
    cases v <;> simp [Value.tag]
  | 4 =>
    refine ReadsBackIn.flag.ctor Value.bool (fun v => ?_) (fun _ => rfl) (fun _ => Iff.rfl)
    cases v <;> simp [Value.tag]
  | 5 =>
    refine (ReadsBackIn.signed 4).ctor Value.date (fun v => ?_) (fun _ => rfl) (fun n => ?_)
    · cases v <;> simp [Value.tag]
    · unfold Value.Fits Int.bmod
      norm_num
      omega
  | 6 =>
    refine ⟨?_, ?_⟩
    · intro v _ hv
      cases v <;> cases hv.2
    · intro b v rest hb
      rcases ReadsBackIn.of_bind hb with ⟨_, _, _, hb⟩
      cases hb
  | n + 7 =>
    refine .throw _ (fun v hv => ?_)
    cases v <;> cases hv.2

/-- The size that is computed for rows, with no string long enough to be moved out. -/
theorem length_encodeValue {v : Value} (h : v.Fits) :
    (encodeValue v).length = encodedValueSize (2 ^ 16) v := by
  rw [encodeValue, List.length_append, length_leBytes]
  cases v with
  | null => rfl
  | bool | int | float | date =>
    simp only [Value.payload, putFlag, putSigned, length_leBytes, encodedValueSize]
  | str s =>
    have hs : (utf8 s).length = s.utf8ByteSize := rfl
    simp only [Value.Fits] at h
    simp only [Value.payload, putStr, putBytes, List.length_append, length_leBytes,
      encodedValueSize, hs]
    rw [if_neg (by omega)]
    omega

/-- The size computed beforehand is the size of the encoding. -/
theorem length_encodeRow {row : Row} (h : rowFits row) :
    (encodeRow row).length = encodedRowSize (2 ^ 16) row := by
  rw [encodeRow, putCounted, List.length_append, length_leBytes, List.length_flatMap,
    encodedRowSize, List.map_congr_left (fun v hv => length_encodeValue (h.2 v hv))]

/-- A value reads back from its encoding. -/
theorem reads_value : ReadsBack decodeValue encodeValue Value.Fits := by
  refine ((ReadsBackIn.word 1).bind Value.tag reads_payload).congr (fun v _ => ⟨rfl, ?_⟩)
  refine and_iff_right_of_imp (fun _ => ?_)
  cases v <;> simp [Value.tag]

/-- A row reads back from its encoding. -/
theorem reads_row : ReadsBack decodeRow encodeRow rowFits := reads_value.counted 2

/-- A text of `2 ^ n` bytes. -/
def longText : Nat → String
  | 0 => "a"
  | n + 1 => longText n ++ longText n

theorem utf8ByteSize_longText (n : Nat) : (longText n).utf8ByteSize = 2 ^ n := by
  induction n with
  | zero => rfl
  | succ n ih =>
    rw [longText, String.utf8ByteSize_append, ih]
    omega

end ChibiDb
