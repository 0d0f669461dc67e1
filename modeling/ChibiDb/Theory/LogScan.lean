import ChibiDb.Core.Wal

/-!
# Scanning a Log

What the log scan makes of the bytes the writer produced. A whole frame decodes
to what was encoded and takes exactly its own bytes, so a run of whole frames is
read back frame by frame. A strict prefix of a frame never decodes, so the scan
of an intact log with a torn tail stops at the tear.

The converse direction bounds what a scan can find in arbitrary bytes: a frame
that decodes is at least as long as the record it stands for would be if it were
encoded again. Counting bytes is how the torn-tail argument shows that frames
are missing.

## Theorems

* `decodeFrame_bytes`: A whole frame decodes, whatever follows it.
* `decodeFrame_cut`: A strict prefix of a frame does not decode.
* `scanFrames_append`: The scan reads whole frames and goes on behind them.
* `scanFrames_torn`: The scan of whole frames and a torn one.
* `decodeFrame_some`: What a decoded frame must have looked like.
* `scanFrames_size`: The frames found fit in the bytes scanned.
-/

namespace ChibiDb

open List Option

/-- The bytes of a frame behind its length word. -/
def bodyLen (rec : Record Bytes) : Nat := headerLen + (encodePayload rec).length

theorem length_body (trxId : Nat) (rec : Record Bytes) :
    (rec.typeByte :: leBytes 8 trxId ++ encodePayload rec).length = bodyLen rec := by
  simp only [bodyLen, headerLen, length_append, length_cons, length_leBytes]

theorem length_encodeFrame (trxId : Nat) (rec : Record Bytes) :
    (encodeFrame trxId rec).length = 4 + bodyLen rec := by
  rw [encodeFrame, length_append, length_leBytes, length_body]

theorem headerLen_le_bodyLen (rec : Record Bytes) : headerLen ≤ bodyLen rec :=
  Nat.le_add_right _ _

variable {rec : Record Bytes} {fileNo n page slot trxId : Nat} {bytes : Bytes}

/-- The length word of a typed record holds its body's length. -/
theorem bodyLen_lt (h : rec.Typed) : bodyLen rec < 256 ^ 4 := by
  cases rec <;>
    simp only [Record.Typed, bodyLen, headerLen, encodePayload, length_append, length_leBytes,
      length_nil] at h ⊢ <;>
    omega

/-- The row id in front of a payload, read back word by word. -/
theorem rid_words {payload : Bytes} (tail : Bytes) (hf : fileNo < 256 ^ 4) (hp : page < 256 ^ 4)
    (hs : slot < 256 ^ 2)
    (h : payload = leBytes 4 fileNo ++ (leBytes 4 page ++ (leBytes 2 slot ++ tail))) :
    payload.length = 10 + tail.length ∧ ofLeBytes (payload.take 4) = fileNo ∧
      ofLeBytes ((payload.drop 4).take 4) = page ∧ ofLeBytes ((payload.drop 8).take 2) = slot ∧
      payload.drop 10 = tail := by
  have h4 : payload.drop 4 = leBytes 4 page ++ (leBytes 2 slot ++ tail) := by
    rw [h, drop_left' (length_leBytes 4 fileNo)]
  have h8 : payload.drop 8 = leBytes 2 slot ++ tail := by
    rw [← drop_drop (i := 4) (j := 4), h4, drop_left' (length_leBytes 4 page)]
  have h10 : payload.drop 10 = tail := by
    rw [← drop_drop (i := 2) (j := 8), h8, drop_left' (length_leBytes 2 slot)]
  rw [h4, h8, h10, take_left' (length_leBytes 4 page), take_left' (length_leBytes 2 slot),
    ofLeBytes_leBytes hp, ofLeBytes_leBytes hs, h, take_left' (length_leBytes 4 fileNo),
    ofLeBytes_leBytes hf]
  simp only [length_append, length_leBytes, and_self, and_true]
  omega

/-- The payload of an insert, read back word by word. -/
theorem decodePayload_insert (record : Bytes) (hf : fileNo < 256 ^ 4) (hp : page < 256 ^ 4)
    (hs : slot < 256 ^ 2) :
    decodePayload 1 (leBytes 4 fileNo ++ (leBytes 4 page ++ (leBytes 2 slot ++ record)))
      = some (.insert fileNo ⟨page, slot⟩ record) := by
  rcases rid_words record hf hp hs rfl with ⟨hlen, h0, h4, h8, h10⟩
  rw [decodePayload, if_pos rfl, if_neg (by omega), h0, h4, h8, h10]

/-- The payload of a delete mark, read back word by word. -/
theorem decodePayload_deleteMark {deleter nextRid : Nat} (hf : fileNo < 256 ^ 4)
    (hp : page < 256 ^ 4) (hs : slot < 256 ^ 2) (hd : deleter < 256 ^ 8) (hn : nextRid < 256 ^ 8) :
    decodePayload 2 (leBytes 4 fileNo ++ (leBytes 4 page ++ (leBytes 2 slot ++
        (leBytes 8 deleter ++ leBytes 8 nextRid))))
      = some (.deleteMark fileNo ⟨page, slot⟩ deleter nextRid) := by
  rcases rid_words (leBytes 8 deleter ++ leBytes 8 nextRid) hf hp hs rfl with
    ⟨hlen, h0, h4, h8, h10⟩
  have htail : (leBytes 8 deleter ++ leBytes 8 nextRid).length = 16 := by simp [length_leBytes]
  rw [decodePayload, if_neg (by decide), if_pos rfl, if_neg (by omega), h0, h4, h8,
    ← drop_drop (i := 8) (j := 10), h10, take_left' (length_leBytes 8 deleter),
    drop_left' (length_leBytes 8 deleter), take_of_length_le (le_of_eq (length_leBytes 8 nextRid)),
    ofLeBytes_leBytes hd, ofLeBytes_leBytes hn]

/-- A payload of typed words decodes to the record it was made from. -/
theorem decodePayload_encodePayload (rec : Record Bytes) (h : rec.Typed) :
    decodePayload rec.typeByte (encodePayload rec) = some rec := by
  cases rec with
  | insert _ _ record =>
    rcases h with ⟨hf, hp, hs, _⟩
    have hdec := decodePayload_insert record hf hp hs
    simpa only [Record.typeByte, encodePayload, append_assoc] using hdec
  | deleteMark =>
    rcases h with ⟨hf, hp, hs, hd, hn⟩
    have hdec := decodePayload_deleteMark hf hp hs hd hn
    simpa only [Record.typeByte, encodePayload, append_assoc] using hdec
  | commit => rfl

/-- A frame laid out by hand, with the length word naming its body, decodes to
    whatever its payload holds, whatever bytes follow. -/
theorem decodeFrame_layout (n : Nat) (ty : UInt8) (trxId : Nat) (payload rest : Bytes)
    (hn : n = headerLen + payload.length) (hlt : n < 256 ^ 4) (ht : trxId < 256 ^ 8) :
    decodeFrame (leBytes 4 n ++ (ty :: leBytes 8 trxId ++ payload) ++ rest)
      = (decodePayload ty payload).map (fun rec => (trxId, rec, 4 + n)) := by
  have hword : (leBytes 4 n ++ (ty :: leBytes 8 trxId ++ payload) ++ rest).take 4
      = leBytes 4 n := by
    rw [append_assoc]
    exact take_left' (length_leBytes 4 n)
  have hlen : (leBytes 4 n ++ (ty :: leBytes 8 trxId ++ payload) ++ rest).length
      = 4 + n + rest.length := by
    simp only [length_append, length_cons, length_leBytes, hn, headerLen]
  have hty : (leBytes 4 n ++ (ty :: leBytes 8 trxId ++ payload) ++ rest).getD 4 0 = ty := by
    rw [append_assoc, getD_eq_getElem?_getD,
      getElem?_append_right (le_of_eq (length_leBytes 4 n)), length_leBytes]
    rfl
  have hid : ((leBytes 4 n ++ (ty :: leBytes 8 trxId ++ payload) ++ rest).drop 5).take 8
      = leBytes 8 trxId := by
    rw [show leBytes 4 n ++ (ty :: leBytes 8 trxId ++ payload) ++ rest
      = (leBytes 4 n ++ [ty]) ++ (leBytes 8 trxId ++ (payload ++ rest)) by
        simp only [append_assoc, cons_append, nil_append],
      drop_left' (by simp only [length_append, length_leBytes, length_singleton]),
      take_left' (length_leBytes 8 trxId)]
  have hpay : ((leBytes 4 n ++ (ty :: leBytes 8 trxId ++ payload) ++ rest).take (4 + n)).drop 13
      = payload := by
    rw [take_left' (by
      simp only [length_append, length_cons, length_leBytes, hn, headerLen]),
      show leBytes 4 n ++ (ty :: leBytes 8 trxId ++ payload)
        = (leBytes 4 n ++ ty :: leBytes 8 trxId) ++ payload by
          simp,
      drop_left' (by simp [length_leBytes])]
  unfold decodeFrame
  simp only [hword, hlen, hty, hid, hpay, ofLeBytes_leBytes hlt, ofLeBytes_leBytes ht]
  rw [if_neg (by omega), if_neg (by rw [hn]; omega)]

/-- A whole frame decodes to what was encoded, whatever follows it. -/
theorem decodeFrame_bytes (f : Frame) (rest : Bytes) :
    decodeFrame (f.bytes ++ rest) = some (f.trxId, f.record, f.bytes.length) := by
  have hlay := decodeFrame_layout (bodyLen f.record) f.record.typeByte f.trxId
    (encodePayload f.record) rest rfl (bodyLen_lt f.typed) f.trxId_lt
  rw [decodePayload_encodePayload f.record f.typed, map_some] at hlay
  rw [Frame.bytes, length_encodeFrame, ← hlay, encodeFrame, length_body]

/-- The length word of a frame is read back from any bytes that begin with it. -/
theorem ofLeBytes_take_bytes (f : Frame) : ofLeBytes (f.bytes.take 4) = bodyLen f.record := by
  rw [Frame.bytes, encodeFrame, take_left' (length_leBytes 4 _), length_body,
    ofLeBytes_leBytes (bodyLen_lt f.typed)]

theorem length_bytes (f : Frame) : f.bytes.length = 4 + bodyLen f.record :=
  length_encodeFrame f.trxId f.record

/-- A strict prefix of a frame does not decode: either the length word is cut
    short, or it promises more bytes than are there. -/
theorem decodeFrame_cut {f : Frame} {p : Bytes} (hp : p <+: f.bytes)
    (hlt : p.length < f.bytes.length) : decodeFrame p = none := by
  unfold decodeFrame
  by_cases h4 : p.length < 4
  · rw [if_pos h4]
  rw [if_neg h4]
  have hword : p.take 4 = f.bytes.take 4 := by
    rcases hp with ⟨_, hq⟩
    rw [← hq, take_append_of_le_length (by omega)]
  simp only [hword, ofLeBytes_take_bytes]
  rw [if_pos (.inr (by rw [length_bytes] at hlt; exact hlt))]

/-- What a payload that decodes must have looked like. -/
theorem decodePayload_some {ty : UInt8} {payload : Bytes}
    (h : decodePayload ty payload = some rec) :
    ty = rec.typeByte ∧ (encodePayload rec).length ≤ payload.length := by
  unfold decodePayload at h
  split_ifs at h with h1 _ h2 _ h3 <;> cases h
  · refine ⟨h1, ?_⟩
    simp only [encodePayload, length_append, length_leBytes, length_drop]
    omega
  · refine ⟨h2, ?_⟩
    simp only [encodePayload, length_append, length_leBytes]
    omega
  · exact ⟨h3, Nat.zero_le _⟩

/-- What a frame that decodes must have looked like: its bytes were there, its words stand where the
    layout puts them, and it is no shorter than the encoding of the record it gave. -/
theorem decodeFrame_some (h : decodeFrame bytes = some (trxId, rec, n)) :
    n = 4 + ofLeBytes (bytes.take 4) ∧ n ≤ bytes.length ∧
      bytes.getD 4 0 = rec.typeByte ∧ trxId = ofLeBytes ((bytes.drop 5).take 8) ∧
      4 + bodyLen rec ≤ n := by
  unfold decodeFrame at h
  by_cases h4 : bytes.length < 4
  · cases (if_pos h4).symm.trans h
  rw [if_neg h4] at h
  by_cases hlen : ofLeBytes (bytes.take 4) < headerLen ∨
      bytes.length < 4 + ofLeBytes (bytes.take 4)
  · cases (if_pos hlen).symm.trans h
  rw [if_neg hlen, map_eq_some_iff] at h
  rcases h with ⟨_, hr, heq⟩
  rcases heq with ⟨rfl, rfl, rfl⟩
  rcases decodePayload_some hr with ⟨hty, hsize⟩
  push Not at hlen
  refine ⟨rfl, hlen.2, hty, rfl, ?_⟩
  -- The payload is what the length word leaves behind the header.
  have h9 : 9 ≤ ofLeBytes (bytes.take 4) := hlen.1
  rw [length_drop, length_take, Nat.min_eq_left hlen.2] at hsize
  simp only [bodyLen, headerLen]
  omega

/-- A frame that decodes is not empty, so the scan makes progress. -/
theorem decodeFrame_pos (h : decodeFrame bytes = some (trxId, rec, n)) : 13 ≤ n := by
  have hs := (decodeFrame_some h).2.2.2.2
  have hh := headerLen_le_bodyLen rec
  simp only [headerLen] at hh
  omega

/-- Enough fuel is enough: past the length of the bytes more makes no difference. -/
theorem scanFrames_fuel (m pos : Nat) (bytes : Bytes) (hn : bytes.length ≤ n)
    (hm : bytes.length ≤ m) : scanFrames n pos bytes = scanFrames m pos bytes := by
  induction n generalizing m pos bytes with
  | zero =>
    have hnil : bytes = [] := length_eq_zero_iff.mp (Nat.le_zero.mp hn)
    subst hnil
    cases m <;> rfl
  | succ _ ih =>
    cases m with
    | zero =>
      have hnil : bytes = [] := length_eq_zero_iff.mp (Nat.le_zero.mp hm)
      subst hnil
      rfl
    | succ m =>
      simp only [scanFrames]
      cases hd : decodeFrame bytes with
      | none => rfl
      | some d =>
        rcases d with ⟨_, _, k⟩
        have hk := decodeFrame_pos hd
        have hlen : (bytes.drop k).length = bytes.length - k := length_drop
        simp only []
        rw [ih m (pos + k) (bytes.drop k) (by omega) (by omega)]

/-- The scan reads whole frames one by one and goes on behind them. -/
theorem scanFrames_append {fs : List Frame} {rest : Bytes} (n pos : Nat)
    (hn : (encodeFrames fs ++ rest).length ≤ n) :
    scanFrames n pos (encodeFrames fs ++ rest)
      = framesFrom pos fs ++ scanFrames rest.length (pos + (encodeFrames fs).length) rest := by
  induction fs generalizing n pos with
  | nil =>
    exact scanFrames_fuel rest.length pos rest hn (le_refl _)
  | cons f _ ih =>
    simp only [encodeFrames, append_assoc] at hn ⊢
    have hpos := length_bytes f
    cases n with
    | zero =>
      rw [length_append] at hn
      omega
    | succ n =>
      rw [scanFrames, decodeFrame_bytes]
      simp only [framesFrom, cons_append, drop_left' rfl, length_append]
      rw [ih n (pos + f.bytes.length) (by rw [length_append] at hn; omega), Nat.add_assoc]

/-- The scan of whole frames behind which nothing decodes. -/
theorem scanFrames_torn (fs : List Frame) (rest : Bytes) (n pos : Nat)
    (hn : (encodeFrames fs ++ rest).length ≤ n) (hrest : decodeFrame rest = none) :
    scanFrames n pos (encodeFrames fs ++ rest) = framesFrom pos fs := by
  rw [scanFrames_append n pos hn]
  cases rest.length with
  | zero => rw [scanFrames, append_nil]
  | succ => rw [scanFrames, hrest, append_nil]

/-- The frames a scan finds, encoded again, take no more bytes than were scanned. -/
theorem scanFrames_size (n pos : Nat) (bytes : Bytes) :
    ((scanFrames n pos bytes).map (fun f => 4 + bodyLen f.2.2)).sum ≤ bytes.length := by
  induction n generalizing pos bytes with
  | zero => simp only [scanFrames, map_nil, sum_nil, Nat.zero_le]
  | succ _ ih =>
    rw [scanFrames]
    cases hd : decodeFrame bytes with
    | none => simp only [map_nil, sum_nil, Nat.zero_le]
    | some d =>
      rcases d with ⟨_, _, k⟩
      rcases decodeFrame_some hd with ⟨_, _, _, _, _⟩
      have hrest := ih (pos + k) (bytes.drop k)
      rw [length_drop] at hrest
      simp only [map_cons, sum_cons]
      omega

end ChibiDb
