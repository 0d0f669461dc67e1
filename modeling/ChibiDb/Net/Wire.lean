import ChibiDb.Core.RowCodec

/-!
# The Text Wire Protocol

The results of a request are sent as frames, each behind its length, and closed with a
frame that says so. Rows travel in the encoding they are stored in, in which the length
of a string takes two bytes; the length of a frame takes four.

## Main definitions

* `ResultSet`, `Frame`: What a statement returns, and what a client receives.
* `encodeSuccess`: The bytes that are sent.
* `decodeFrame`: What a frame's body stands for.
* `ResultSet.Fits`: No length is cut off.

## Theorems

* `results_received_iff`: A client receives the results and the closing frame if and only
  if all of them fit.
-/

namespace ChibiDb.Net

open List Reader

/-- Rows with the names of their columns. -/
structure RowSet where
  columns : List String
  rows : List Row

/-- The result of a statement. -/
inductive ResultSet where
  | message (text : String)
  | affected (n : Nat)
  | rows (r : RowSet)

/-- What the server sends. -/
inductive Frame where
  | message (text : String)
  | affected (n : Nat)
  | rows (r : RowSet)
  | error (text : String)
  | done

/-- The byte that tells the kind of a frame. -/
def Frame.kind : Frame → Nat
  | .message _ => 0
  | .rows _ => 1
  | .error _ => 2
  | .done => 3
  | .affected _ => 4

/-- `put_rows_payload`. -/
def putRows (r : RowSet) : List UInt8 :=
  [putCounted 4 (putStr 4) r.columns, putCounted 4 (putBlock encodeRow) r.rows].flatten

/-- What follows it. -/
def Frame.payload : Frame → List UInt8
  | .message m | .error m => putStr 4 m
  | .rows r => putRows r
  | .done => []
  | .affected n => leBytes 8 n

/-- A frame without its length. -/
def Frame.body (f : Frame) : List UInt8 := leBytes 1 f.kind ++ f.payload

/-- A frame behind its length. -/
def encodeFrame : Frame → List UInt8 := putBlock Frame.body

/-- The frame of a result. -/
def ResultSet.frame : ResultSet → Frame
  | .message m => .message m
  | .affected n => .affected n
  | .rows r => .rows r

/-- The answer to statements that succeeded: their results and an end. -/
def encodeSuccess (results : List ResultSet) : List UInt8 :=
  results.flatMap (fun r => encodeFrame r.frame) ++ encodeFrame .done

/-- The error of data that end too early. -/
def wireTruncated : String := "truncated wire data"

/-- Read a text. -/
def takeStr : Reader String := str wireTruncated "invalid utf8 in wire data" 4

/-- `decode_rows_payload`. -/
def takeRows : Reader RowSet := do
  let columns ← counted wireTruncated 4 takeStr
  let rows ← counted wireTruncated 4 (block wireTruncated decodeRow)
  return ⟨columns, rows⟩

/-- Read what follows the byte of a kind. -/
def frameOfKind (kind : Nat) : Reader Frame :=
  match kind with
  | 0 => do return .message (← takeStr)
  | 1 => do return .rows (← takeRows)
  | 2 => do return .error (← takeStr)
  | 3 => return .done
  | 4 => do return .affected (← word wireTruncated 8)
  | kind => throw ("unknown frame kind 0x" ++ hexByte kind)

/-- Read a frame. -/
def decodeFrame : Reader Frame := do frameOfKind (← word wireTruncated 1)

/-- Split what was sent into frames by their lengths, and decode each. -/
def receive (data : List UInt8) : Except String (List Frame × List UInt8) :=
  toEnd (block wireTruncated decodeFrame) data.length data

/-- The bytes of a frame of rows, its length excluded. -/
def RowSet.size (r : RowSet) : Nat :=
  9 + (r.columns.map (fun c => 4 + c.utf8ByteSize)).sum +
    (r.rows.map (fun row => 4 + encodedRowSize (2 ^ 16) row)).sum

/-- Every row fits its encoding, and the frame its length. -/
def RowSet.Fits (r : RowSet) : Prop := (∀ row ∈ r.rows, rowFits row) ∧ r.size < 2 ^ 32

/-- No length or number of a frame is cut off. -/
def Frame.Fits : Frame → Prop
  | .message m | .error m => 5 + m.utf8ByteSize < 2 ^ 32
  | .affected n => n < 2 ^ 64
  | .rows r => r.Fits
  | .done => True

theorem reads_str : ReadsBack takeStr (putStr 4) (fun s => s.utf8ByteSize < 2 ^ 32) := .str 4

/-- What is read as rows. -/
structure RowSet.Read (r : RowSet) : Prop where
  columns : r.columns.length < 2 ^ 32 ∧ ∀ c ∈ r.columns, c.utf8ByteSize < 2 ^ 32
  rows : r.rows.length < 2 ^ 32 ∧ ∀ row ∈ r.rows, rowFits row ∧ (encodeRow row).length < 2 ^ 32

/-- A result's rows read back. -/
theorem reads_rows : ReadsBack takeRows putRows RowSet.Read := by
  refine ((reads_str.counted 4).bind RowSet.columns fun _ =>
    (reads_row.block.counted 4).bind RowSet.rows fun _ => .pure fun r => ?_).congr
      fun r _ => ⟨rfl, fun h => ⟨h.1, h.2.1⟩, fun h => ⟨h.columns, h.rows, trivial⟩⟩
  cases r
  simp

/-- The size of a row set is the length of its encoding. -/
theorem length_putRows {r : RowSet} (h : ∀ row ∈ r.rows, rowFits row) :
    1 + (putRows r).length = r.size := by
  have hrows : r.rows.map (fun row => (putBlock encodeRow row).length) =
      r.rows.map (fun row => 4 + encodedRowSize (2 ^ 16) row) := by
    refine map_congr_left (fun row hrow => ?_)
    rw [putBlock, putBytes, length_append, length_leBytes, length_encodeRow (h row hrow)]
  have hcols : r.columns.map (fun c => (putStr 4 c).length) =
      r.columns.map (fun c => 4 + c.utf8ByteSize) := by
    refine map_congr_left (fun c _ => ?_)
    rw [putStr, putBytes, length_append, length_leBytes]
    rfl
  simp only [putRows, putCounted, flatten_cons, flatten_nil, append_nil, length_append,
    length_leBytes, length_flatMap, hrows, hcols, RowSet.size]
  omega

/-- A list that takes few bytes is short, and so is each of its elements. -/
theorem lt_of_sum_lt {α : Type} {l : List α} {f : α → Nat} {n : Nat}
    (h : (l.map (fun x => 4 + f x)).sum < n) : l.length < n ∧ ∀ x ∈ l, f x < n := by
  refine ⟨?_, fun x hx => ?_⟩
  · have hlen := length_le_sum_of_one_le (l.map (fun x => 4 + f x)) (by simp; omega)
    rw [length_map] at hlen
    omega
  · have := le_sum_of_mem (mem_map_of_mem (f := fun x => 4 + f x) hx)
    omega

theorem RowSet.read_iff (r : RowSet) : r.Read ∧ 1 + (putRows r).length < 2 ^ 32 ↔ r.Fits := by
  refine ⟨?_, ?_⟩
  · intro ⟨hr, hlen⟩
    have hrows := fun row hrow => (hr.rows.2 row hrow).1
    exact ⟨hrows, length_putRows hrows ▸ hlen⟩
  intro ⟨hrows, hsize⟩
  refine ⟨?_, length_putRows hrows ▸ hsize⟩
  unfold RowSet.size at hsize
  have hr := lt_of_sum_lt (l := r.rows) (f := encodedRowSize (2 ^ 16)) (n := 2 ^ 32) (by omega)
  refine ⟨lt_of_sum_lt (by omega), hr.1, fun row hrow => ⟨hrows row hrow, ?_⟩⟩
  rw [length_encodeRow (hrows row hrow)]
  exact hr.2 row hrow

/-- What can be read: every part fits, whatever the whole takes. -/
def Frame.Read : Frame → Prop
  | .message m | .error m => m.utf8ByteSize < 2 ^ 32
  | .affected n => n < 2 ^ 64
  | .rows r => r.Read
  | .done => True

/-- A frame reads back for each kind. -/
theorem reads_frameOfKind (kind : Nat) :
    ReadsBackIn (fun f => True ∧ f.kind = kind) (frameOfKind kind) Frame.payload Frame.Read := by
  match kind with
  | 0 =>
    refine reads_str.ctor Frame.message (fun f => ?_) (fun _ => rfl) (fun _ => Iff.rfl)
    cases f <;> simp [Frame.kind]
  | 1 =>
    refine reads_rows.ctor Frame.rows (fun f => ?_) (fun _ => rfl) (fun _ => Iff.rfl)
    cases f <;> simp [Frame.kind]
  | 2 =>
    refine reads_str.ctor Frame.error (fun f => ?_) (fun _ => rfl) (fun _ => Iff.rfl)
    cases f <;> simp [Frame.kind]
  | 3 =>
    refine (ReadsBackIn.pure fun f => ?_).congr fun f hf => ?_
    · cases f <;> simp [Frame.kind]
    · cases f <;> cases hf.2
      exact ⟨rfl, Iff.rfl⟩
  | 4 =>
    refine (ReadsBackIn.word 8).ctor Frame.affected (fun f => ?_) (fun _ => rfl) (fun _ => Iff.rfl)
    cases f <;> simp [Frame.kind]
  | n + 5 =>
    refine .throw _ fun f hf => ?_
    cases f <;> cases hf.2

/-- A frame reads back from its encoding. -/
theorem reads_frame : ReadsBack (block wireTruncated decodeFrame) encodeFrame Frame.Fits := by
  have hbody : ReadsBack decodeFrame Frame.body Frame.Read := by
    refine ((ReadsBackIn.word 1).bind Frame.kind reads_frameOfKind).congr fun f _ => ⟨rfl, ?_⟩
    refine and_iff_right_of_imp fun _ => ?_
    cases f <;> simp [Frame.kind]
  refine hbody.block.congr fun f _ => ⟨rfl, ?_⟩
  simp only [Frame.body, length_append, length_leBytes]
  cases f with
  | rows r => exact r.read_iff
  | message m | error m =>
    have hm : (utf8 m).length = m.utf8ByteSize := rfl
    simp only [Frame.Read, Frame.Fits, Frame.payload, putStr, putBytes, length_append,
      length_leBytes, hm]
    omega
  | affected n => exact and_iff_left (by simp [Frame.payload])
  | done => exact and_iff_left (by simp [Frame.payload])

/-- The client receives the frames sent exactly when each one fits. -/
theorem receive_iff (results : List ResultSet) (frames : List Frame)
    (h : frames = results.map ResultSet.frame ++ [.done]) :
    receive (encodeSuccess results) = .ok (frames, []) ↔ ∀ f ∈ frames, f.Fits := by
  have hsent : encodeSuccess results = frames.flatMap encodeFrame := by
    rw [h, flatMap_append, flatMap_map, flatMap_singleton]
    rfl
  have hpos : ∀ f, encodeFrame f ≠ [] := by
    intro f
    simp [encodeFrame, putBlock, putBytes, leBytes]
  rw [receive, hsent, reads_frame.toEnd_iff hpos _ _ le_rfl]

/-- A client receives the results and the closing frame if and only if they all fit. -/
theorem results_received_iff (results : List ResultSet) :
    receive (encodeSuccess results) = .ok (results.map ResultSet.frame ++ [.done], []) ↔
      ∀ r ∈ results, r.frame.Fits := by
  rw [receive_iff results _ rfl, forall_mem_append, forall_mem_map]
  exact and_iff_left (fun f hf => mem_singleton.mp hf ▸ trivial)

/-- A row with a text of `2 ^ 16` bytes is not received. -/
theorem long_text_not_received :
    receive (encodeSuccess [.rows ⟨["a"], [[.str (longText 16)]]⟩]) ≠
      .ok ([.rows ⟨["a"], [[.str (longText 16)]]⟩, .done], []) := by
  intro h
  have hrow := ((receive_iff _ _ rfl).mp h _ mem_cons_self).1 _ mem_cons_self
  have hfits : (longText 16).utf8ByteSize < 2 ^ 16 := hrow.2 _ mem_cons_self
  rw [utf8ByteSize_longText] at hfits
  omega

end ChibiDb.Net
