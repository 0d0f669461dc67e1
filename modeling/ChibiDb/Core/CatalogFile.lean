import ChibiDb.Core.Catalog
import ChibiDb.Core.Heap
import ChibiDb.Core.RowCodec

/-!
# The Catalog File

The catalog is saved as one file: a header, the counters, and the tables, indexes and
views behind their numbers. A name takes a length of four bytes, but a column default is
encoded as a row, in which the length of a string takes two.

## Main definitions

* `CatalogSnapshot`: What is saved.
* `encodeCatalog`, `decodeCatalog`: The file and its reader.
* `CatalogSnapshot.Fits`: No length or number is cut off.

## Theorems

* `decodeCatalog_encodeCatalog_iff`: A snapshot is read back if and only if it fits.
-/

namespace ChibiDb

open Reader

/-- What a file of the database holds. -/
inductive FileKind where
  | heap | index | catalog
  deriving DecidableEq

/-- The byte of a kind in a file header. -/
def FileKind.asByte : FileKind → UInt8
  | .heap => 0
  | .index => 1
  | .catalog => 2

/-- The kind of a byte, if it has one. -/
def FileKind.fromByte : UInt8 → Except String FileKind
  | 0 => .ok .heap
  | 1 => .ok .index
  | 2 => .ok .catalog
  | other => .error s!"unknown file kind {other}"

/-- The version every file is written with. -/
def formatVersion : Nat := 1

/-- Magic, version, kind and page size. -/
def catalogHeaderLen : Nat := 15

/-- The header of a file. -/
def writeHeader (magic : List UInt8) (kind : FileKind) : List UInt8 :=
  magic ++ leBytes 2 formatVersion ++ [kind.asByte] ++ leBytes 4 pageSize

/-- Check a header: magic, version, kind and page size, in this order. -/
def readHeader (page magic : List UInt8) (kind : FileKind) : Except String Unit := do
  if page.length < catalogHeaderLen ∨ page.take 8 ≠ magic then throw "not a chibidb data file"
  let version := ofLeBytes ((page.drop 8).take 2)
  if version ≠ formatVersion then
    throw s!"unsupported file format version {version} (expected {formatVersion})"
  let fileKind ← FileKind.fromByte ((page.drop 10).headD 0)
  if fileKind ≠ kind then throw "file kind does not match its contents"
  let size := ofLeBytes ((page.drop 11).take 4)
  if size ≠ pageSize then
    throw s!"file page size {size} does not match build page size {pageSize}"

/-- What the file keeps of a table. -/
structure TableMeta where
  name : String
  columns : List ColumnDesc
  fileNo : Nat
  engine : EngineKind
  layout : PageLayout

/-- What the file keeps of a view: its text. -/
structure ViewMeta where
  name : String
  sql : String

/-- What is saved. -/
structure CatalogSnapshot where
  nextTableFile : Nat
  nextIndexFile : Nat
  nextTrxId : Nat
  /-- Ids below it are frozen as committed. -/
  clogBase : Nat
  committedTrxs : List Nat
  tables : List TableMeta
  indexes : List CatalogIndex
  views : List ViewMeta

/-- `CHIDCATA`. -/
def catalogMagic : List UInt8 := [67, 72, 73, 68, 67, 65, 84, 65]

/-- The tag of a type. -/
def DataType.tag : DataType → Nat
  | .int => 0
  | .float => 1
  | .char _ => 2
  | .date => 3
  | .text => 4

/-- What follows the tag: the width of a CHAR. -/
def DataType.payload : DataType → List UInt8
  | .char n => leBytes 4 n
  | _ => []

/-- The tag of a storage engine. -/
def engineTag : EngineKind → Nat
  | .heap => 0
  | .lsm => 1

/-- The tag of a page layout. -/
def layoutTag : PageLayout → Nat
  | .row => 0
  | .pax => 1

/-- A default: a flag, and a row with this value and nothing else. -/
def putValue : Option Value → List UInt8
  | none => leBytes 1 0
  | some v => leBytes 1 1 ++ putBlock encodeRow [v]

/-- A type: its tag, and the width of a CHAR. -/
def putDtype (d : DataType) : List UInt8 := leBytes 1 d.tag ++ d.payload

/-- A column, field by field. -/
def putColumn (c : ColumnDesc) : List UInt8 :=
  [putStr 4 c.name, putDtype c.dtype, putFlag c.notNull, putFlag c.primaryKey,
    putFlag c.unique, putValue c.default].flatten

/-- A table, its columns behind their number. -/
def putTable (t : TableMeta) : List UInt8 :=
  [putStr 4 t.name, putCounted 4 putColumn t.columns, leBytes 4 t.fileNo,
    leBytes 1 (engineTag t.engine), leBytes 1 (layoutTag t.layout)].flatten

/-- An index, field by field. -/
def putIndex (ix : CatalogIndex) : List UInt8 :=
  [putStr 4 ix.name, putStr 4 ix.table, putStr 4 ix.column, putFlag ix.unique,
    leBytes 4 ix.fileNo].flatten

/-- A view. -/
def putView (v : ViewMeta) : List UInt8 := [putStr 4 v.name, putStr 4 v.sql].flatten

/-- Everything behind the header. -/
def putSnapshot (s : CatalogSnapshot) : List UInt8 :=
  [leBytes 4 s.nextTableFile, leBytes 4 s.nextIndexFile, leBytes 8 s.nextTrxId,
    leBytes 8 s.clogBase, putCounted 4 (leBytes 8) s.committedTrxs,
    putCounted 4 putTable s.tables, putCounted 4 putIndex s.indexes,
    putCounted 4 putView s.views].flatten

/-- The file of a snapshot. -/
def encodeCatalog (s : CatalogSnapshot) : List UInt8 :=
  writeHeader catalogMagic .catalog ++ putSnapshot s

/-- The error of a file that ends too early. -/
def truncatedFile : String := "truncated catalog file"

/-- Read a name or a text. -/
def takeStr : Reader String := str truncatedFile "invalid utf8 in catalog file" 4

/-- Read what follows the tag of a type. -/
def dtypeOfTag (tag : Nat) : Reader DataType :=
  match tag with
  | 0 => return .int
  | 1 => return .float
  | 2 => do return .char (← word truncatedFile 4)
  | 3 => return .date
  | 4 => return .text
  | tag => throw ("unknown dtype tag 0x" ++ hexByte tag)

/-- Read a type. -/
def takeDtype : Reader DataType := do dtypeOfTag (← word truncatedFile 1)

/-- One of two kinds. -/
def kindOfTag {α : Type} (what : String) (zero one : α) (tag : Nat) : Reader α :=
  match tag with
  | 0 => return zero
  | 1 => return one
  | other => throw ("unknown " ++ what ++ " tag 0x" ++ hexByte other)

/-- Read a storage engine. -/
def takeEngine : Reader EngineKind := do kindOfTag "engine" .heap .lsm (← word truncatedFile 1)

/-- Read a page layout. -/
def takeLayout : Reader PageLayout := do kindOfTag "layout" .row .pax (← word truncatedFile 1)

/-- Read a default. Of the row that is read only the first value is kept. -/
def takeValue : Reader (Option Value) := do
  if ← flag truncatedFile then return (← block truncatedFile decodeRow).head? else return none

/-- Read a column. -/
def takeColumn : Reader ColumnDesc := do
  let name ← takeStr
  let dtype ← takeDtype
  let notNull ← flag truncatedFile
  let primaryKey ← flag truncatedFile
  let unique ← flag truncatedFile
  let default ← takeValue
  return ⟨name, dtype, notNull, primaryKey, unique, default⟩

/-- Read a table. -/
def takeTable : Reader TableMeta := do
  let name ← takeStr
  let columns ← counted truncatedFile 4 takeColumn
  let fileNo ← word truncatedFile 4
  let engine ← takeEngine
  let layout ← takeLayout
  return ⟨name, columns, fileNo, engine, layout⟩

/-- Read an index. -/
def takeIndex : Reader CatalogIndex := do
  let name ← takeStr
  let table ← takeStr
  let column ← takeStr
  let unique ← flag truncatedFile
  let fileNo ← word truncatedFile 4
  return ⟨name, table, column, unique, fileNo⟩

/-- Read a view. -/
def takeView : Reader ViewMeta := do
  let name ← takeStr
  let sql ← takeStr
  return ⟨name, sql⟩

/-- Read everything behind the header. -/
def takeSnapshot : Reader CatalogSnapshot := do
  let nextTableFile ← word truncatedFile 4
  let nextIndexFile ← word truncatedFile 4
  let nextTrxId ← word truncatedFile 8
  let clogBase ← word truncatedFile 8
  let committedTrxs ← counted truncatedFile 4 (word truncatedFile 8)
  let tables ← counted truncatedFile 4 takeTable
  let indexes ← counted truncatedFile 4 takeIndex
  let views ← counted truncatedFile 4 takeView
  return ⟨nextTableFile, nextIndexFile, nextTrxId, clogBase, committedTrxs, tables, indexes, views⟩

/-- Read a file. Nothing may be left over. -/
def decodeCatalog (data : List UInt8) : Except String CatalogSnapshot := do
  readHeader data catalogMagic .catalog
  let (s, rest) ← takeSnapshot (data.drop catalogHeaderLen)
  if rest ≠ [] then throw "trailing bytes in catalog file"
  return s

/-- A name or a text has a length of four bytes. -/
def nameFits (s : String) : Prop := s.utf8ByteSize < 2 ^ 32

/-- The width of a CHAR has four bytes. -/
def DataType.Fits : DataType → Prop
  | .char n => n < 2 ^ 32
  | _ => True

/-- A string default has a length of two bytes. -/
def ColumnDesc.Fits (c : ColumnDesc) : Prop :=
  nameFits c.name ∧ c.dtype.Fits ∧ ∀ v, c.default = some v → v.Fits

/-- The names, numbers and columns of a table fit. -/
def TableMeta.Fits (t : TableMeta) : Prop :=
  nameFits t.name ∧ (t.columns.length < 2 ^ 32 ∧ ∀ c ∈ t.columns, c.Fits) ∧ t.fileNo < 2 ^ 32

/-- The names and the number of an index fit. -/
def indexFits (ix : CatalogIndex) : Prop :=
  nameFits ix.name ∧ nameFits ix.table ∧ nameFits ix.column ∧ ix.fileNo < 2 ^ 32

/-- No length or number of a snapshot is cut off. -/
structure CatalogSnapshot.Fits (s : CatalogSnapshot) : Prop where
  nextTableFile : s.nextTableFile < 2 ^ 32
  nextIndexFile : s.nextIndexFile < 2 ^ 32
  nextTrxId : s.nextTrxId < 2 ^ 64
  clogBase : s.clogBase < 2 ^ 64
  committedTrxs : s.committedTrxs.length < 2 ^ 32 ∧ ∀ id ∈ s.committedTrxs, id < 2 ^ 64
  tables : s.tables.length < 2 ^ 32 ∧ ∀ t ∈ s.tables, t.Fits
  indexes : s.indexes.length < 2 ^ 32 ∧ ∀ ix ∈ s.indexes, indexFits ix
  views : s.views.length < 2 ^ 32 ∧ ∀ v ∈ s.views, nameFits v.name ∧ nameFits v.sql

/-- A name or a text is read back. -/
theorem reads_name : ReadsBack takeStr (putStr 4) nameFits := .str 4

/-- Behind its tag a type is read back. -/
theorem reads_dtypeOfTag (tag : Nat) :
    ReadsBackIn (fun d => True ∧ d.tag = tag) (dtypeOfTag tag) DataType.payload DataType.Fits := by
  match tag with
  | 0 | 1 | 3 | 4 =>
    refine (ReadsBackIn.pure fun d => ?_).congr fun d hd => ?_
    · cases d <;> simp [DataType.tag]
    · cases d <;> cases hd.2
      exact ⟨rfl, Iff.rfl⟩
  | 2 =>
    refine (ReadsBackIn.word 4).ctor DataType.char (fun d => ?_) (fun _ => rfl) (fun _ => Iff.rfl)
    cases d <;> simp [DataType.tag]
  | n + 5 =>
    refine .throw _ fun d hd => ?_
    cases d <;> cases hd.2

/-- A type is read back. -/
theorem reads_dtype : ReadsBack takeDtype putDtype DataType.Fits := by
  refine ((ReadsBackIn.word 1).bind DataType.tag reads_dtypeOfTag).congr fun d _ => ⟨rfl, ?_⟩
  refine and_iff_right_of_imp fun _ => ?_
  cases d <;> simp [DataType.tag]

/-- One of two kinds is read back from its tag. -/
theorem reads_kind {α : Type} (what : String) {zero one : α} {tag : α → Nat}
    (hzero : ∀ x, tag x = 0 ↔ x = zero) (hone : ∀ x, tag x = 1 ↔ x = one)
    (hlt : ∀ x, tag x < 2) :
    ReadsBack (do kindOfTag what zero one (← word truncatedFile 1)) (fun x => leBytes 1 (tag x))
      (fun _ => True) := by
  have h : ∀ n, ReadsBackIn (fun x => True ∧ tag x = n) (kindOfTag what zero one n)
      (fun _ => []) (fun _ => True) := by
    intro n
    match n with
    | 0 => exact .pure fun x => (and_iff_right trivial).trans (hzero x)
    | 1 => exact .pure fun x => (and_iff_right trivial).trans (hone x)
    | n + 2 => exact .throw _ fun x hx => by have := hlt x; omega
  refine ((ReadsBackIn.word 1).bind tag h).congr fun x _ => ⟨List.append_nil _, ?_⟩
  have := hlt x
  simp only [and_true, iff_true]
  omega

/-- A storage engine is read back. -/
theorem reads_engine : ReadsBack takeEngine (fun e => leBytes 1 (engineTag e)) (fun _ => True) := by
  refine reads_kind "engine" (fun e => ?_) (fun e => ?_) (fun e => ?_) <;> cases e <;> decide

/-- A page layout is read back. -/
theorem reads_layout : ReadsBack takeLayout (fun l => leBytes 1 (layoutTag l)) (fun _ => True) := by
  refine reads_kind "layout" (fun l => ?_) (fun l => ?_) (fun l => ?_) <;> cases l <;> decide

/-- A value takes at most nine bytes beside a text that is stored in place. -/
theorem encodedValueSize_le (limit : Nat) (v : Value) :
    encodedValueSize limit v ≤ 9 + limit := by
  cases v with
  | str s =>
    simp only [encodedValueSize]
    split <;> omega
  | _ => simp only [encodedValueSize]; omega

/-- A default is read back exactly if its value fits into a row. -/
theorem reads_default :
    ReadsBack takeValue putValue (fun o => ∀ v, o = some v → v.Fits) := by
  refine ⟨?_, ?_⟩
  · intro o rest _ hF
    cases o with
    | none => rfl
    | some v =>
      have hrow : rowFits [v] := ⟨by simp, by simpa using hF v rfl⟩
      have hlen : (encodeRow [v]).length < 256 ^ 4 := by
        have hsize := encodedValueSize_le (2 ^ 16) v
        rw [length_encodeRow hrow]
        simp only [encodedRowSize, List.map_cons, List.map_nil, List.sum_cons, List.sum_nil]
        omega
      refine (ReadsBackIn.run_bind (ReadsBackIn.flag.back true _ trivial trivial)).trans ?_
      exact ReadsBackIn.run_bind (reads_row.block.back [v] rest trivial ⟨hrow, hlen⟩)
  · intro b o rest hb
    rcases ReadsBackIn.of_bind hb with ⟨found, _, hflag, hb⟩
    rcases ReadsBackIn.flag.only _ _ _ hflag with ⟨_, _, hlen⟩
    cases found with
    | false =>
      cases hb
      exact ⟨trivial, by simp, hlen⟩
    | true =>
      rcases ReadsBackIn.of_bind hb with ⟨row, _, hrow, hb⟩
      cases hb
      rcases reads_row.block.only _ _ _ hrow with ⟨_, hF, hlen'⟩
      simp only [putFlag, length_leBytes] at hlen
      cases row with
      | nil => exact ⟨trivial, by simp, by
        simp only [List.head?_nil, putValue, length_leBytes]
        omega⟩
      | cons v row =>
        refine ⟨trivial, by simpa using hF.1.2 v List.mem_cons_self, ?_⟩
        simp [putValue, putBlock, putBytes, encodeRow, putCounted] at hlen' ⊢
        omega

/-- A column is read back field by field. -/
theorem reads_column : ReadsBack takeColumn putColumn ColumnDesc.Fits := by
  apply ReadsBackIn.congr
  case h =>
    apply reads_name.bind ColumnDesc.name
    intro name
    apply reads_dtype.bind ColumnDesc.dtype
    intro dtype
    apply ReadsBackIn.flag.bind ColumnDesc.notNull
    intro notNull
    apply ReadsBackIn.flag.bind ColumnDesc.primaryKey
    intro primaryKey
    apply ReadsBackIn.flag.bind ColumnDesc.unique
    intro unique
    apply reads_default.bind ColumnDesc.default
    intro default
    refine .pure fun c => ?_
    cases c
    simp [and_assoc]
  case hpq =>
    intro c _
    refine ⟨rfl, ?_⟩
    simp [ColumnDesc.Fits]

/-- So is a table. -/
theorem reads_table : ReadsBack takeTable putTable TableMeta.Fits := by
  apply ReadsBackIn.congr
  case h =>
    apply reads_name.bind TableMeta.name
    intro name
    apply (reads_column.counted 4).bind TableMeta.columns
    intro columns
    apply (ReadsBackIn.word 4).bind TableMeta.fileNo
    intro fileNo
    apply reads_engine.bind TableMeta.engine
    intro engine
    apply reads_layout.bind TableMeta.layout
    intro layout
    refine .pure fun t => ?_
    cases t
    simp [and_assoc]
  case hpq =>
    intro t _
    refine ⟨rfl, ?_⟩
    simp [TableMeta.Fits]

/-- So is an index. -/
theorem reads_index : ReadsBack takeIndex putIndex indexFits := by
  apply ReadsBackIn.congr
  case h =>
    apply reads_name.bind CatalogIndex.name
    intro name
    apply reads_name.bind CatalogIndex.table
    intro table
    apply reads_name.bind CatalogIndex.column
    intro column
    apply ReadsBackIn.flag.bind CatalogIndex.unique
    intro unique
    apply (ReadsBackIn.word 4).bind CatalogIndex.fileNo
    intro fileNo
    refine .pure fun ix => ?_
    cases ix
    simp [and_assoc]
  case hpq =>
    intro ix _
    refine ⟨rfl, ?_⟩
    simp [indexFits]

/-- So is a view. -/
theorem reads_view : ReadsBack takeView putView (fun v => nameFits v.name ∧ nameFits v.sql) := by
  apply ReadsBackIn.congr
  case h =>
    apply reads_name.bind ViewMeta.name
    intro name
    apply reads_name.bind ViewMeta.sql
    intro sql
    refine .pure fun v => ?_
    cases v
    simp
  case hpq =>
    intro v _
    refine ⟨rfl, ?_⟩
    simp

/-- The whole snapshot is read back, part by part. -/
theorem reads_snapshot : ReadsBack takeSnapshot putSnapshot CatalogSnapshot.Fits := by
  apply ReadsBackIn.congr
  case h =>
    apply (ReadsBackIn.word 4).bind CatalogSnapshot.nextTableFile
    intro tableFile
    apply (ReadsBackIn.word 4).bind CatalogSnapshot.nextIndexFile
    intro indexFile
    apply (ReadsBackIn.word 8).bind CatalogSnapshot.nextTrxId
    intro trxId
    apply (ReadsBackIn.word 8).bind CatalogSnapshot.clogBase
    intro base
    apply ((ReadsBackIn.word 8).counted 4).bind CatalogSnapshot.committedTrxs
    intro committed
    apply (reads_table.counted 4).bind CatalogSnapshot.tables
    intro tables
    apply (reads_index.counted 4).bind CatalogSnapshot.indexes
    intro indexes
    apply (reads_view.counted 4).bind CatalogSnapshot.views
    intro views
    refine .pure fun s => ?_
    cases s
    simp [and_assoc]
  case hpq =>
    intro s _
    refine ⟨rfl, ?_⟩
    constructor
    · rintro ⟨htable, hindex, htrx, hbase, hcommitted, htables, hindexes, hviews, _⟩
      exact ⟨htable, hindex, htrx, hbase, hcommitted, htables, hindexes, hviews⟩
    · rintro ⟨htable, hindex, htrx, hbase, hcommitted, htables, hindexes, hviews⟩
      exact ⟨htable, hindex, htrx, hbase, hcommitted, htables, hindexes, hviews, trivial⟩

/-- Whatever is read fits: no file can say anything else. -/
theorem fits_of_decodeCatalog {data : List UInt8} {s : CatalogSnapshot}
    (h : decodeCatalog data = .ok s) : s.Fits := by
  unfold decodeCatalog at h
  cases hhead : readHeader data catalogMagic .catalog with
  | error =>
    rw [hhead] at h
    cases h
  | ok =>
    cases htake : takeSnapshot (data.drop catalogHeaderLen) with
    | error =>
      rw [hhead, htake] at h
      cases h
    | ok y =>
      rw [hhead, htake] at h
      rcases y with ⟨_, _ | _⟩
      · cases h
        exact (reads_snapshot.only _ _ _ htake).2.1
      · cases h

/-- A snapshot is read back from its file if and only if it fits. -/
theorem decodeCatalog_encodeCatalog_iff (s : CatalogSnapshot) :
    decodeCatalog (encodeCatalog s) = .ok s ↔ s.Fits := by
  refine ⟨fits_of_decodeCatalog, ?_⟩
  intro hs
  have hhead : readHeader (encodeCatalog s) catalogMagic .catalog = .ok () := rfl
  have htake := reads_snapshot.back s [] trivial hs
  rw [List.append_nil] at htake
  unfold decodeCatalog
  rw [hhead]
  change (takeSnapshot (putSnapshot s) >>= _) = _
  rw [htake]
  rfl

/-- One table with a TEXT column, whose default takes `2 ^ 16` bytes. -/
def longDefault : CatalogSnapshot :=
  ⟨1, 0, 1, 1, [], [⟨"t", [⟨"a", .text, false, false, false, some (.str (longText 16))⟩], 0, .heap,
    .row⟩], [], []⟩

/-- The length of the default is written as 0, so it is not read back from the file. -/
theorem longDefault_not_read_back :
    decodeCatalog (encodeCatalog longDefault) ≠ .ok longDefault := by
  intro h
  have hfits := (fits_of_decodeCatalog h).tables.2 _ (List.mem_singleton.mpr rfl)
  have hshort := (hfits.2.1.2 _ (List.mem_singleton.mpr rfl)).2.2 _ rfl
  simp only [Value.Fits, utf8ByteSize_longText] at hshort
  omega

end ChibiDb
