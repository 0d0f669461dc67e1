import ChibiDb.Core.RowCodec

/-!
# MySQL Packets

A packet is its payload behind a header of four bytes, three for the length and
one for the sequence number. A payload is not divided, so of a length that takes
more than three bytes the header has the low ones only. In a row packet a value is
its text behind its length, which takes one to nine bytes, and NULL is a byte no
length starts with.

## Main definitions

* `writePacket`, `readPacket`: A packet and its header.
* `rowPacket`, `readValue`: The values of a row.
* `Text`: A string as the source can hold it.

## Theorems

* `reads_packet`: A packet is read back if its length fits.
* `packets_read_iff`: Packets and rows are read back exactly if no payload is too long.
-/

namespace ChibiDb.Net

open List Reader
open ReadsBackIn (run_bind)

/-- A string. Its length is a word of 64 bits. -/
def Text : Type := { s : String // (utf8 s).length < 2 ^ 64 }

/-- A packet: its number and its payload. -/
abbrev Packet := UInt8 × List UInt8

/-- What `read_exact` says at the end of a stream. -/
def streamEnd : String := "failed to fill whole buffer"

/-- The bytes of a packet. -/
def writePacket (p : Packet) : List UInt8 :=
  leBytes 3 p.2.length ++ (leBytes 1 p.1.toNat ++ p.2)

/-- Read a byte. -/
def readByte : Reader UInt8 := do return .ofNat (← word streamEnd 1)

/-- Read a packet. -/
def readPacket : Reader Packet := do
  let len ← word streamEnd 3
  let seq ← readByte
  return (seq, ← take streamEnd len)

/-- A number behind a byte that tells its length. -/
def lenencInt (n : Nat) : List UInt8 :=
  if n < 251 then leBytes 1 n
  else if n < 2 ^ 16 then leBytes 1 0xfc ++ leBytes 2 n
  else if n < 2 ^ 24 then leBytes 1 0xfd ++ leBytes 3 n
  else leBytes 1 0xfe ++ leBytes 8 n

/-- A text behind its length. -/
def lenencStr (s : Text) : List UInt8 := lenencInt (utf8 s.val).length ++ utf8 s.val

/-- A value of a row. How it is displayed does not matter. -/
def putValue (display : Value → Text) : Value → List UInt8
  | .null => [0xfb]
  | v => lenencStr (display v)

/-- The payload of a row. -/
def rowPacket (display : Value → Text) (row : Row) : List UInt8 := row.flatMap (putValue display)

/-- What is wrong with a value that is not read. -/
def malformed : String := "malformed packet"

/-- Read bytes behind their length. -/
def readLenencBytes : Reader (List UInt8) := do
  let first ← word malformed 1
  let len ←
    if first ≤ 250 then Pure.pure first
    else match first with
      | 0xfc => word malformed 2
      | 0xfd => word malformed 3
      | 0xfe => word malformed 8
      | _ => throw malformed
  take malformed len

/-- A value of a row as a client reads it. -/
def readValue : Reader (Option (List UInt8)) := fun b =>
  if b.head? = some 0xfb then .ok (none, b.tail)
  else (do return some (← readLenencBytes) : Reader _) b

/-- What a client is to read. -/
def shown (display : Value → Text) : Value → Option (List UInt8)
  | .null => none
  | v => some (utf8 (display v).val)

theorem reads_byte : ReadsBack readByte (fun b => leBytes 1 b.toNat) (fun _ => True) := by
  refine (ReadsBackIn.word 1).map UInt8.ofNat ?_ ?_
  · intro b _ _
    exact ⟨b.toNat, trivial, b.toNat_lt, UInt8.ofNat_toNat, rfl⟩
  · intro n _ _
    exact ⟨trivial, trivial, by rw [length_leBytes, length_leBytes]⟩

/-- A packet is read back if its length fits. -/
theorem reads_packet : ReadsBack readPacket writePacket (fun p => p.2.length < 2 ^ 24) := by
  have hpayload : ∀ len seq, ReadsBackIn (fun p : Packet => (True ∧ p.2.length = len) ∧ p.1 = seq)
      (do return (seq, ← take streamEnd len)) Prod.snd (fun _ => True) := by
    intro len seq
    refine (ReadsBackIn.take len).map (fun b => (seq, b)) ?_ ?_
    · rintro ⟨_, b⟩ ⟨⟨_, hlen⟩, rfl⟩ _
      exact ⟨b, hlen, trivial, rfl, rfl⟩
    · intro b hlen _
      exact ⟨⟨⟨trivial, hlen⟩, rfl⟩, trivial, Nat.le_refl _⟩
  refine ((ReadsBackIn.word 3).bind (fun p => p.2.length) fun len =>
    reads_byte.bind Prod.fst (hpayload len)).congr fun p _ => ⟨rfl, ?_⟩
  simp

theorem word_leBytes {w n : Nat} (rest : List UInt8) (h : n < 256 ^ w) :
    word malformed w (leBytes w n ++ rest) = .ok (n, rest) :=
  (ReadsBackIn.word w).back n rest trivial h

theorem readLenencBytes_lenencStr (s : Text) (rest : List UInt8) :
    readLenencBytes (lenencStr s ++ rest) = .ok (utf8 s.val, rest) := by
  have htake : take malformed (utf8 s.val).length (utf8 s.val ++ rest) = .ok (utf8 s.val, rest) :=
    (ReadsBackIn.take _).back _ rest rfl trivial
  have hlen := s.property
  unfold readLenencBytes lenencStr lenencInt
  split
  case isTrue h =>
    rw [append_assoc, run_bind (word_leBytes _ (by omega)), if_pos (by omega)]
    exact htake
  case isFalse =>
    split_ifs
    all_goals
      rw [append_assoc, append_assoc, run_bind (word_leBytes _ (by decide))]
      exact (run_bind (word_leBytes _ (by omega))).trans htake

/-- No length starts with the byte of NULL. -/
theorem head?_lenencStr (s : Text) (rest : List UInt8) :
    (lenencStr s ++ rest).head? ≠ some 0xfb := by
  have hshort : ∀ n, n < 251 → UInt8.ofNat n ≠ 0xfb := by
    intro n hn heq
    have hnat : n % 256 = 0xfb := congrArg UInt8.toNat heq
    omega
  unfold lenencStr lenencInt
  split_ifs
  case pos h => simpa [leBytes] using hshort _ h
  all_goals simp [leBytes]

/-- A value in a row packet reads back as the text shown. -/
theorem readValue_putValue (display : Value → Text) (v : Value) (rest : List UInt8) :
    readValue (putValue display v ++ rest) = .ok (shown display v, rest) := by
  cases v with
  | null => rfl
  | _ =>
    refine (if_neg (head?_lenencStr _ rest)).trans ?_
    exact run_bind (readLenencBytes_lenencStr _ rest)

theorem times_rowPacket (display : Value → Text) (row : Row) :
    times readValue row.length (rowPacket display row) = .ok (row.map (shown display), []) := by
  induction row with
  | nil => rfl
  | cons v row ih =>
    exact (run_bind (readValue_putValue display v _)).trans (run_bind ih)

/-- Packets are read back, and the values of a row from its packet, exactly if every
    payload is shorter than 16 MiB. -/
theorem packets_read_iff (display : Value → Text) (packets : List Packet) (row : Row) :
    (toEnd readPacket (packets.flatMap writePacket).length (packets.flatMap writePacket) =
        .ok (packets, []) ∧
      times readValue row.length (rowPacket display row) = .ok (row.map (shown display), [])) ↔
    ∀ p ∈ packets, p.2.length < 2 ^ 24 := by
  rw [and_iff_left (times_rowPacket display row)]
  refine reads_packet.toEnd_iff (fun p => ?_) packets _ (Nat.le_refl _)
  simp [writePacket, leBytes]

/-- A payload of 16 MiB is read as an empty one. -/
theorem long_packet_not_read :
    ¬ toEnd readPacket (writePacket (0, replicate (2 ^ 24) 0)).length
        (writePacket (0, replicate (2 ^ 24) 0)) = .ok ([(0, replicate (2 ^ 24) 0)], []) := by
  have hiff := reads_packet.toEnd_iff (fun p => by simp [writePacket, leBytes])
    [(0, replicate (2 ^ 24) 0)] _ (Nat.le_refl _)
  rw [flatMap_singleton] at hiff
  intro h
  have hlt := hiff.mp h _ mem_cons_self
  rw [length_replicate] at hlt
  exact Nat.lt_irrefl _ hlt

end ChibiDb.Net
