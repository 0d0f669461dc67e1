import ChibiDb.Lsm.Block

/-!
# Sorted String Tables

A table is one image: its data blocks, a Bloom filter over its keys, an index
block that maps the last key of each data block to where the block lies, and a
footer. The builder cuts a block when its size reaches the block size.

The byte lengths of an image are `usize` and `u64` in the source, which an image
in memory never exceeds; the footer's words keep their 64 bits all the same.

## Main definitions

* `bloomBytes`, `maybeContains`: The filter.
* `SSTableBuilder`, `buildTable`: From pairs in key order to an image.
* `SSTable`, `SSTable.parse`, `SSTable.get`, `SSTable.iter`: A table in memory.
-/

namespace ChibiDb.Lsm

/-! ### The Bloom filter -/

/-- FNV-1a over the key bytes. -/
def fnv (key : Buf) : UInt64 :=
  key.foldl (fun h b => (h ^^^ b.toUInt64) * 0x100000001b3) 0xcbf29ce484222325

/-- The bits a hash probes in a filter of `bits` bits. -/
def probeLoop (bits delta : Nat) : Nat → Nat → List Nat
  | 0, _ => []
  | probes + 1, pos => pos :: probeLoop bits delta probes ((pos + delta) % 2 ^ 64 % bits)

/-- The positions a hash probes. -/
def probesOf (bits probes : Nat) (h : UInt64) : List Nat :=
  probeLoop bits ((h >>> 17) ||| (h <<< 15)).toNat probes (h.toNat % bits)

/-- The bit of a position in its byte. -/
def bitMask (pos : Nat) : UInt8 := 1 <<< UInt8.ofNat (pos % 8)

/-- Set the bit of a position. -/
def setBit (bitset : Buf) (pos : Nat) : Buf := bitset.modify (pos / 8) (· ||| bitMask pos)

/-- `(10 as f64 * 0.69).round()`, the probes for ten bits a key. -/
def bloomProbes : Nat := 7

/-- The encoded filter of the keys: its bits, then the number of probes. -/
def bloomBytes (keys : List Buf) : Buf :=
  if keys.isEmpty then [UInt8.ofNat bloomProbes]
  else
    let bytes := max ((keys.length * 10 + 7) / 8) 8
    keys.foldl (fun bs key => (probesOf (bytes * 8) bloomProbes (fnv key)).foldl setBit bs)
      (List.replicate bytes 0) ++ [UInt8.ofNat bloomProbes]

/-- Whether the filter has every bit of a key. -/
def maybeContains (filter : Buf) (key : Buf) : Bool :=
  if filter.length ≤ 1 then true
  else
    let probes := (filter.getLastD 0).toNat
    (probesOf ((filter.length - 1) * 8) probes (fnv key)).all
      fun pos => filter.getD (pos / 8) 0 &&& bitMask pos ≠ 0

/-! ### The builder -/

/-- Where a block is in the file. -/
structure BlockHandle where
  offset : Nat
  size : Nat
  deriving DecidableEq, Repr

/-- A handle in the index. -/
def BlockHandle.encode (h : BlockHandle) : Buf := putVarint64 h.offset ++ putVarint64 h.size

/-- Read a handle. -/
def BlockHandle.decode (data : Buf) : Except LsmError BlockHandle := do
  let (offset, pos) ← getVarint64 data 0
  let (size, _) ← getVarint64 data pos
  .ok ⟨offset, size⟩

/-- A table under construction. -/
structure SSTableBuilder where
  blockSize : Nat
  data : Buf
  indexBlock : BlockBuilder
  current : BlockBuilder
  /-- The keys handed to the Bloom filter. -/
  keys : List Buf
  lastKey : Buf

namespace SSTableBuilder

/-- An empty table; a block has 64 bytes at least. -/
def new (blockSize restartInterval : Nat) : SSTableBuilder :=
  ⟨max blockSize 64, [], .new restartInterval, .new restartInterval, [], []⟩

/-- End the current block, if it has entries, and add it to the index. -/
def flushBlock (b : SSTableBuilder) : SSTableBuilder :=
  if b.current.isEmpty then b
  else
    let block := b.current.finish
    { b with
      data := b.data ++ block
      indexBlock := b.indexBlock.add b.lastKey (BlockHandle.encode ⟨b.data.length, block.length⟩)
      current := b.current.reset }

/-- Add an entry; a block that is long enough is ended. -/
def add (b : SSTableBuilder) (key value : Buf) : SSTableBuilder :=
  let b := { b with lastKey := key, current := b.current.add key value, keys := b.keys ++ [key] }
  if b.current.currentSizeEstimate ≥ b.blockSize then b.flushBlock else b

/-- `SSTBL002`. -/
def magic : Buf := [83, 83, 84, 66, 76, 48, 48, 50]

/-- The bytes of the footer. -/
def footerLen : Nat := 40

/-- The file: blocks, filter, index and footer. -/
def finish (b : SSTableBuilder) : Buf :=
  let b := b.flushBlock
  let filter := bloomBytes b.keys
  let index := b.indexBlock.finish
  b.data ++ filter ++ index ++
    leBytes 8 b.data.length ++ leBytes 8 filter.length ++
    leBytes 8 (b.data.length + filter.length) ++ leBytes 8 index.length ++ magic

end SSTableBuilder

/-- The file of some pairs. -/
def buildTable (blockSize restartInterval : Nat) (pairs : List (Buf × Buf)) : Buf :=
  (pairs.foldl (fun b p => b.add p.1 p.2) (SSTableBuilder.new blockSize restartInterval)).finish

/-! ### The reader -/

/-- A table that was read. -/
structure SSTable where
  data : Buf
  index : List (Buf × BlockHandle)
  bloom : Buf
  firstKey : Buf
  lastKey : Buf
  fileNo : Option Nat

namespace SSTable

/-- The bytes a handle points to. -/
def sliceHandle (data : Buf) (h : BlockHandle) : Except LsmError Buf :=
  if h.offset + h.size ≤ data.length then .ok (slice data h.offset h.size)
  else .error .handleOutOfRange

/-- Read the handles of the index. -/
def decodeIndex : List (Buf × Buf) → Except LsmError (List (Buf × BlockHandle))
  | [] => .ok []
  | (key, encoded) :: rest => do
    let handle ← BlockHandle.decode encoded
    let rest ← decodeIndex rest
    .ok ((key, handle) :: rest)

/-- Read the block a handle points to. -/
def blockAt (data : Buf) (h : BlockHandle) : Except LsmError Block := do
  let bytes ← sliceHandle data h
  Block.parse bytes

/-- The first key of the first block. -/
def readFirstKey (data : Buf) : List (Buf × BlockHandle) → Except LsmError Buf
  | [] => .ok []
  | (_, handle) :: _ => do
    let block ← blockAt data handle
    let first ← block.firstKey
    .ok (first.getD [])

/-- Read a table. -/
def parse (data : Buf) : Except LsmError SSTable :=
  if data.length < SSTableBuilder.footerLen then .error .tableTooShort
  else if slice data (data.length - 8) 8 ≠ SSTableBuilder.magic then .error .tableMagicMismatch
  else do
    let footer := data.length - SSTableBuilder.footerLen
    let word := fun i => ofLeBytes (slice data (footer + 8 * i) 8)
    let bloom ← sliceHandle data ⟨word 0, word 1⟩
    let indexBlock ← blockAt data ⟨word 2, word 3⟩
    let entries ← indexBlock.toEntries
    let index ← decodeIndex entries
    let firstKey ← readFirstKey data index
    .ok ⟨data, index, bloom, firstKey, (index.getLast?.map Prod.fst).getD [], none⟩

/-- The table of a file. -/
def withFileNo (t : SSTable) (fileNo : Nat) : SSTable := { t with fileNo := some fileNo }

/-- Whether a key is between the first and the last. -/
def mayContain (t : SSTable) (key : Buf) : Bool :=
  !t.index.isEmpty && decide (t.firstKey ≤ key) && decide (key ≤ t.lastKey)

/-- Exact lookup. The index is ascending, so the partition point is where its
    first key that is not below `key` stands. -/
def get (t : SSTable) (key : Buf) : Except LsmError (Option Buf) :=
  if !maybeContains t.bloom key then .ok none
  else
    match t.index.dropWhile (fun e => decide (e.1 < key)) with
    | [] => .ok none
    | (_, handle) :: _ => do
      let block ← blockAt t.data handle
      block.get key

/-- The entries of all blocks. -/
def iterBlocks (data : Buf) : List (Buf × BlockHandle) → Except LsmError (List (Buf × Buf))
  | [] => .ok []
  | (_, handle) :: rest => do
    let block ← blockAt data handle
    let entries ← block.toEntries
    let others ← iterBlocks data rest
    .ok (entries ++ others)

/-- All pairs, in ascending order. -/
def iter (t : SSTable) : Except LsmError (List (Buf × Buf)) := iterBlocks t.data t.index

end SSTable

end ChibiDb.Lsm
