import ChibiDb.Data.LittleEndian

/-!
# Blocks of a Sorted String Table

A block is a run of prefix-compressed entries followed by the offsets of the
entries whose key is written in full. Lengths and offsets are 32-bit words: the
builder casts them with `as u32`, which keeps the low 32 bits.

Bytes are read at a position of the whole block, as in the source; a slice
`data[a..b]` is `slice data a (b - a)`.

## Main definitions

* `putVarint`, `getVarint`: Variable-length integers.
* `BlockBuilder`: A block under construction.
* `Block`: A parsed block, with `Block.get` and `Block.toEntries`.
-/

namespace ChibiDb

instance linearOrderUInt8 : LinearOrder UInt8 where
  le_refl _ := Nat.le_refl _
  le_trans _ _ _ := Nat.le_trans
  le_antisymm _ _ h h' := UInt8.toNat_inj.mp (Nat.le_antisymm h h')
  le_total a b := Nat.le_total a.toNat b.toNat
  lt_iff_le_not_ge _ _ := Nat.lt_iff_le_and_not_ge
  toDecidableLE := inferInstance
  toDecidableEq := inferInstance
  toDecidableLT := inferInstance

namespace Lsm

/-- A buffer of bytes. -/
abbrev Buf := List UInt8

/-- The errors of the table reader. -/
inductive LsmError where
  | truncatedVarint
  | varintOverflows
  | blockTooShort
  | restartArrayTruncated
  | restartOutOfRange
  | restartsNotSorted
  | restartSharesKey
  | entryOutOfRange
  | entryPastRestarts
  | tableTooShort
  | tableMagicMismatch
  | handleOutOfRange
  | manifestCorrupt
  | manifestTruncated
  | fileNumberOverflows
  | cannotRead
  | cannotCreate
  | cannotWrite
  | cannotSync
  | cannotReplace
  | cannotRemove
  deriving DecidableEq, Repr

/-! ### Integers -/

/-- Seven bits a byte, with the high bit set while more bytes follow, for a value
    of at most `7 * (groups + 1)` bits. -/
def putVarint : Nat → Nat → Buf
  | 0, value => [UInt8.ofNat value]
  | groups + 1, value =>
    if value < 128 then [UInt8.ofNat value]
    else UInt8.ofNat (value % 128 + 128) :: putVarint groups (value / 128)

/-- A number of 32 bits, in up to five bytes. -/
def putVarint32 (value : Nat) : Buf := putVarint 4 (value % 2 ^ 32)

/-- A number of 64 bits, in up to ten bytes. -/
def putVarint64 (value : Nat) : Buf := putVarint 9 (value % 2 ^ 64)

/-- Read at most `rounds` bytes of an integer of `width` bits at `pos`; the value and the position
    behind it. The bits of two bytes never overlap, so the source's `|=` adds. -/
def getVarint (width : Nat) (data : Buf) : Nat → Nat → Nat → Nat → Except LsmError (Nat × Nat)
  | 0, _, _, _ => .error .varintOverflows
  | rounds + 1, shift, result, pos =>
    match data[pos]? with
    | none => .error .truncatedVarint
    | some byte =>
      let result := result + byte.toNat % 128 * 2 ^ shift % 2 ^ width
      if byte.toNat < 128 then .ok (result, pos + 1)
      else getVarint width data rounds (shift + 7) result (pos + 1)

/-- Read a number of 32 bits. -/
def getVarint32 (data : Buf) (pos : Nat) : Except LsmError (Nat × Nat) :=
  getVarint 32 data 5 0 0 pos

/-- Read a number of 64 bits. -/
def getVarint64 (data : Buf) (pos : Nat) : Except LsmError (Nat × Nat) :=
  getVarint 64 data 10 0 0 pos

/-- A number in four bytes. -/
def putFixed32 (value : Nat) : Buf := leBytes 4 value

/-- The bytes `data[pos..pos + len]`. -/
def slice (data : Buf) (pos len : Nat) : Buf := (data.drop pos).take len

/-! ### The builder -/

/-- The number of bytes two keys have in common at their front. -/
def commonPrefix : Buf → Buf → Nat
  | a :: as, b :: bs => if a = b then commonPrefix as bs + 1 else 0
  | _, _ => 0

/-- How many entries share prefixes if nothing else is said. -/
def defaultRestartInterval : Nat := 16

/-- A block under construction. -/
structure BlockBuilder where
  buffer : Buf
  restarts : List Nat
  counter : Nat
  lastKey : Buf
  restartInterval : Nat

namespace BlockBuilder

/-- An empty block; the interval is one at least. -/
def new (restartInterval : Nat) : BlockBuilder := ⟨[], [0], 0, [], max restartInterval 1⟩

/-- Whether nothing was added. -/
def isEmpty (b : BlockBuilder) : Bool := b.buffer.isEmpty

/-- The bytes of the block if it were finished now. -/
def currentSizeEstimate (b : BlockBuilder) : Nat := b.buffer.length + b.restarts.length * 4 + 4

/-- One entry, whose key shares its first `shared` bytes with the key before. -/
def entryBytes (shared : Nat) (key value : Buf) : Buf :=
  putVarint32 shared ++ putVarint32 (key.length - shared) ++ putVarint32 value.length ++
    key.drop shared ++ value

/-- Add an entry; behind `restartInterval` of them a key is written whole. -/
def add (b : BlockBuilder) (key value : Buf) : BlockBuilder :=
  if b.counter < b.restartInterval then
    { b with
      buffer := b.buffer ++ entryBytes (commonPrefix b.lastKey key) key value
      counter := b.counter + 1
      lastKey := key }
  else
    { b with
      buffer := b.buffer ++ entryBytes 0 key value
      restarts := b.restarts ++ [b.buffer.length % 2 ^ 32]
      counter := 1
      lastKey := key }

/-- The bytes of the block: entries, restarts and the number of restarts. -/
def finish (b : BlockBuilder) : Buf :=
  let restarts := if b.buffer.isEmpty then [] else b.restarts
  b.buffer ++ restarts.flatMap putFixed32 ++ putFixed32 restarts.length

/-- The builder after `finish`, ready for the next block. -/
def reset (b : BlockBuilder) : BlockBuilder :=
  { b with buffer := [], restarts := [0], counter := 0, lastKey := [] }

end BlockBuilder

/-! ### The reader -/

/-- A block that was read. -/
structure Block where
  data : Buf
  restarts : List Nat
  restartArrayStart : Nat

/-- The header of an entry and where its parts are. -/
structure DecodedEntry where
  shared : Nat
  nonShared : Nat
  valueLen : Nat
  keyOffset : Nat
  valueOffset : Nat
  next : Nat

namespace Block

/-- The restart offsets are ascending and point into the entries. -/
def checkRestarts (start : Nat) : Option Nat → List Nat → Except LsmError Unit
  | _, [] => .ok ()
  | previous, restart :: restarts =>
    if restart ≥ max start 1 then .error .restartOutOfRange
    else if previous.any (fun prev => decide (restart ≤ prev)) then .error .restartsNotSorted
    else checkRestarts start (some restart) restarts

/-- Read the restarts and check them. -/
def parse (data : Buf) : Except LsmError Block :=
  if data.length < 4 then .error .blockTooShort
  else
    let numRestarts := ofLeBytes (slice data (data.length - 4) 4)
    if data.length < 4 + numRestarts * 4 then .error .restartArrayTruncated
    else
      let start := data.length - 4 - numRestarts * 4
      let restarts := (List.range numRestarts).map fun i => ofLeBytes (slice data (start + 4 * i) 4)
      match checkRestarts start none restarts with
      | .error e => .error e
      | .ok () => .ok ⟨data, restarts, start⟩

/-- Read the header of an entry. -/
def decode (b : Block) (offset : Nat) : Except LsmError DecodedEntry :=
  if offset ≥ b.restartArrayStart then .error .entryOutOfRange
  else do
    let (shared, pos) ← getVarint32 b.data offset
    let (nonShared, pos) ← getVarint32 b.data pos
    let (valueLen, pos) ← getVarint32 b.data pos
    if pos + nonShared + valueLen > b.restartArrayStart then .error .entryPastRestarts
    else .ok ⟨shared, nonShared, valueLen, pos, pos + nonShared, pos + nonShared + valueLen⟩

/-- The key bytes an entry holds itself. -/
def ownKey (b : Block) (e : DecodedEntry) : Buf := slice b.data e.keyOffset e.nonShared

/-- The value of an entry. -/
def valueOf (b : Block) (e : DecodedEntry) : Buf := slice b.data e.valueOffset e.valueLen

/-- The key of an entry at a restart, which shares nothing. -/
def entryAt (b : Block) (offset : Nat) : Except LsmError Buf := do
  let e ← b.decode offset
  if e.shared ≠ 0 then .error .restartSharesKey else .ok (b.ownKey e)

/-- The first key, if there is one. -/
def firstKey (b : Block) : Except LsmError (Option Buf) :=
  match b.restarts.head? with
  | none => .ok none
  | some offset => (b.entryAt offset).map some

/-- The search for the first restart whose key is not below `key`; the interval
    shrinks in every round. -/
def searchLoop (b : Block) (key : Buf) : Nat → Nat → Nat → Except LsmError Nat
  | 0, left, _ => .ok left
  | rounds + 1, left, right =>
    if left < right then do
      let mid := (left + right) / 2
      let restartKey ← b.entryAt (b.restarts.getD mid 0)
      if restartKey < key then b.searchLoop key rounds (mid + 1) right
      else b.searchLoop key rounds left mid
    else .ok left

/-- The scan from a restart on. Every entry moves the offset, so as many rounds as
    bytes are enough. -/
def scanLoop (b : Block) (key : Buf) : Nat → Buf → Nat → Except LsmError (Option Buf)
  | 0, _, _ => .ok none
  | rounds + 1, current, offset =>
    if offset < b.restartArrayStart then do
      let e ← b.decode offset
      let current := current.take e.shared ++ b.ownKey e
      if current < key then b.scanLoop key rounds current e.next
      else if current = key then .ok (some (b.valueOf e))
      else .ok none
    else .ok none

/-- Look a key up: a binary search over the restarts, and a scan from there. -/
def get (b : Block) (key : Buf) : Except LsmError (Option Buf) :=
  if b.restarts.isEmpty then .ok none
  else do
    let left ← b.searchLoop key b.restarts.length 0 b.restarts.length
    let start := if left = 0 then 0 else b.restarts.getD (left - 1) 0
    b.scanLoop key b.restartArrayStart [] start

/-- Read the entries from an offset on. -/
def entriesLoop (b : Block) : Nat → Buf → Nat → Except LsmError (List (Buf × Buf))
  | 0, _, _ => .ok []
  | rounds + 1, current, offset =>
    if offset < b.restartArrayStart then do
      let e ← b.decode offset
      let current := current.take e.shared ++ b.ownKey e
      let rest ← b.entriesLoop rounds current e.next
      .ok ((current, b.valueOf e) :: rest)
    else .ok []

/-- Every entry, in the order it was added. -/
def toEntries (b : Block) : Except LsmError (List (Buf × Buf)) :=
  b.entriesLoop b.restartArrayStart [] 0

end Block

end Lsm

end ChibiDb
