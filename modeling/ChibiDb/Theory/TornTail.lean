import ChibiDb.Core.Transaction
import ChibiDb.Theory.LogPlan
import ChibiDb.Theory.LogScan

/-!
# Commits after a Torn Log Tail

A crash in the middle of an append leaves the log as whole frames and a strict
prefix of one more. The next open replays the whole frames and keeps the file as
it is, so the frames of the session that follows go behind the torn bytes. A
later recovery scans from the start, and what it makes of the torn bytes decides
whether it ever sees those frames.

It does exactly when nothing was torn. A clean tail is the round trip of the
scan. For any other tail there is a transaction of the next session that the
plan does not list: it writes one row, of a size whose length byte is none of
the bytes that could continue the torn frame. The first frame decoded behind the
whole ones is then not one of the transaction's, so it uses up bytes beyond the
torn ones, and what is left is too short to hold the transaction's two frames.

## Main definitions

* `Append`, `Wal.log`: What a commit writes to the log.
* `nextIdAfterOpen`: The first id the transactions of a session get.
* `Session`: The appends of transactions begun after opening.
* `TailHarmless`: Every transaction committed in a session is listed.

## Theorems

* `listed_of_clean`: Behind whole frames every commit is listed.
* `exists_unlisted`: Behind a torn frame some commit is not.
* `torn_tail_harmless_iff`: Hence only a clean tail is harmless.
-/

namespace ChibiDb.TornTail

open List Option

/-- One write to the log by a committing transaction: its buffered records, or its commit record. -/
inductive Append where
  | frames (trxId : Nat) (recs : List (Record Bytes))
  | commit (trxId : Nat)

/-- The transaction that writes. -/
def Append.trxId : Append → Nat
  | .frames t _ => t
  | .commit t => t

/-- The frames written, as transaction and record. -/
def Append.pairs : Append → List (Nat × Record Bytes)
  | .frames t recs => recs.map (fun r => (t, r))
  | .commit t => [(t, .commit)]

/-- The redo buffer of a transaction: its records' frames in order. -/
def encodeBatch (trxId : Nat) (recs : List (Record Bytes)) : Bytes :=
  recs.flatMap (encodeFrame trxId)

/-- Write to the log. -/
def log (w : Wal) : Append → Wal
  | .frames t recs => w.appendFrames (encodeBatch t recs)
  | .commit t => w.append t .commit

/-- The next id once the log has been read, for a manager resumed from the saved catalog. -/
def nextIdAfterOpen (tm : TransactionManager) (file : Bytes) : Nat :=
  (tm.ensureNextIdAtLeast (planRecovery file).maxTrxId).nextId

/-- The appends of transactions that began after opening, interleaved in any way: ids are new and
    fit their width, records are data records whose words fit. -/
structure Session (nextId : Nat) (as : List Append) : Prop where
  fresh : ∀ a ∈ as, nextId ≤ a.trxId
  width : ∀ a ∈ as, a.trxId < 2 ^ 64
  typed : ∀ a ∈ as, ∀ p ∈ a.pairs, p.2.Typed
  data : ∀ t recs, Append.frames t recs ∈ as → ∀ r ∈ recs, r.isCommit = false

/-- A transaction wrote its records and then its commit record, nothing else. -/
def Committed (as : List Append) (t : Nat) (recs : List (Record Bytes)) : Prop :=
  as.filter (fun a => a.trxId = t) = [.frames t recs, .commit t]

/-- Recovery lists a transaction as committed with all of its records. -/
def Lists (file : Bytes) (t : Nat) (recs : List (Record Bytes)) : Prop :=
  t ∈ (planRecovery file).committedIds ∧
    (recs ≠ [] → ∃ pos, (pos, t, recs) ∈ (planRecovery file).committed)

/-- Every transaction that commits after opening the file is listed by the next recovery. -/
def TailHarmless (tm : TransactionManager) (file : Bytes) : Prop :=
  ∀ as, Session (nextIdAfterOpen tm file) as → ∀ t recs, Committed as t recs →
    Lists (as.foldl log (Wal.openFile (some file))).file t recs

/-- Both ways of appending add the encodings of the frames written. -/
theorem file_log (w : Wal) (a : Append) :
    (log w a).file = w.file ++ a.pairs.flatMap (fun p => encodeFrame p.1 p.2) := by
  cases a with
  | frames t recs =>
    have hpairs : (Append.frames t recs).pairs.flatMap (fun p => encodeFrame p.1 p.2)
        = encodeBatch t recs := by
      simp only [Append.pairs, flatMap_map, encodeBatch]
    rw [hpairs]
    simp only [log, Wal.appendFrames]
    by_cases hnil : encodeBatch t recs = []
    · rw [if_pos hnil, hnil, append_nil]
    · rw [if_neg hnil]
  | commit =>
    simp [log, Wal.append, Append.pairs]

theorem file_logAll (w : Wal) (as : List Append) :
    (as.foldl log w).file =
      w.file ++ (as.flatMap Append.pairs).flatMap (fun p => encodeFrame p.1 p.2) := by
  induction as generalizing w with
  | nil => simp only [foldl_nil, flatMap_nil, append_nil]
  | cons _ _ ih =>
    rw [foldl_cons, ih, file_log, flatMap_cons, flatMap_append, append_assoc]

/-- Typed pairs are frames. -/
theorem exists_frames {ps : List (Nat × Record Bytes)} (h : ∀ p ∈ ps, p.1 < 2 ^ 64 ∧ p.2.Typed) :
    ∃ gs : List Frame, gs.map (fun f => (f.trxId, f.record)) = ps ∧
      encodeFrames gs = ps.flatMap (fun p => encodeFrame p.1 p.2) := by
  induction ps with
  | nil => exact ⟨[], rfl, rfl⟩
  | cons p _ ih =>
    rcases ih (forall_mem_cons.mp h).2 with ⟨gs, hmap, henc⟩
    rcases h p mem_cons_self with ⟨hw, ht⟩
    refine ⟨⟨p.1, p.2, hw, ht⟩ :: gs, ?_, ?_⟩
    · rw [map_cons, hmap]
    · rw [encodeFrames, henc, flatMap_cons]
      rfl

theorem map_snd_framesFrom (pos : Nat) (fs : List Frame) :
    (framesFrom pos fs).map Prod.snd = fs.map (fun f => (f.trxId, f.record)) := by
  induction fs generalizing pos with
  | nil => rfl
  | cons _ _ ih => rw [framesFrom, map_cons, map_cons, ih]

theorem encodeFrames_append (fs gs : List Frame) :
    encodeFrames (fs ++ gs) = encodeFrames fs ++ encodeFrames gs := by
  induction fs with
  | nil => rfl
  | cons _ _ ih => rw [cons_append, encodeFrames, ih, encodeFrames, append_assoc]

/-- The plan of a clean log is the plan of its frames. -/
theorem planRecovery_encodeFrames (fs : List Frame) :
    planRecovery (encodeFrames fs) = planFrames (framesFrom 0 fs) := by
  have hscan := scanFrames_torn fs [] (encodeFrames fs).length 0 (by rw [append_nil]) rfl
  rw [append_nil] at hscan
  rw [planRecovery, hscan]

/-- The records gathered do not depend on where the frames end. -/
theorem dataOf_eq (t : Nat) (frames : List (Nat × Nat × Record Bytes)) :
    dataOf t frames = ((frames.map Prod.snd).filter
      (fun p => decide (p.1 = t) && !p.2.isCommit)).map Prod.snd := by
  simp only [dataOf, List.filter_map, List.map_map]
  rfl

theorem fst_of_mem_pairs {a : Append} {p : Nat × Record Bytes} (hp : p ∈ a.pairs) :
    p.1 = a.trxId := by
  cases a with
  | frames =>
    rcases mem_map.mp hp with ⟨_, _, rfl⟩
    rfl
  | commit =>
    rw [mem_singleton.mp hp]
    rfl

/-- A transaction's frames are the frames of its own appends. -/
theorem filter_pairs (as : List Append) (t : Nat) :
    (as.flatMap Append.pairs).filter (fun p => decide (p.1 = t)) =
      (as.filter (fun a => a.trxId = t)).flatMap Append.pairs := by
  induction as with
  | nil => rfl
  | cons a _ ih =>
    rw [flatMap_cons, filter_append, ih, filter_cons]
    by_cases ht : a.trxId = t
    · have hall : a.pairs.filter (fun p => decide (p.1 = t)) = a.pairs := by
        apply filter_eq_self.mpr
        intro p hp
        rw [fst_of_mem_pairs hp]
        exact decide_eq_true ht
      rw [hall, if_pos (decide_eq_true ht), flatMap_cons]
    · have hnone : a.pairs.filter (fun p => decide (p.1 = t)) = [] := by
        apply filter_eq_nil_iff.mpr
        intro _ hp
        simpa [fst_of_mem_pairs hp] using ht
      rw [hnone, nil_append, if_neg (by simpa using ht)]

variable {f : Frame} {fs : List Frame} {k n t : Nat} {p : Bytes} {r : Record Bytes}

/-- The frames a file holds in whole are old: a session's ids are above theirs. -/
theorem trxId_lt_nextIdAfterOpen (tm : TransactionManager) (p : Bytes) (hp : decodeFrame p = none)
    (hf : f ∈ fs) : f.trxId < nextIdAfterOpen tm (encodeFrames fs ++ p) := by
  have hscan := scanFrames_torn fs p (encodeFrames fs ++ p).length 0 (le_refl _) hp
  have hmem : (f.trxId, f.record) ∈ (framesFrom 0 fs).map Prod.snd := by
    rw [map_snd_framesFrom]
    exact mem_map_of_mem hf
  rcases mem_map.mp hmem with ⟨_, hg, hgf⟩
  have hle := trxId_le_maxTrxId hg
  rw [hgf] at hle
  rw [nextIdAfterOpen, TransactionManager.nextId_ensureNextIdAtLeast, planRecovery, hscan]
  exact lt_of_lt_of_le (Nat.lt_succ_of_le hle) (le_max_right _ _)

/-- Behind whole frames every commit of the session is listed with all of its records. -/
theorem listed_of_clean (tm : TransactionManager) (fs : List Frame) :
    TailHarmless tm (encodeFrames fs) := by
  intro as hsess t recs hcom
  have hmemc : Append.commit t ∈ as.filter (fun a => a.trxId = t) := by
    rw [hcom]
    exact mem_cons_of_mem _ mem_cons_self
  have hmemf : Append.frames t recs ∈ as.filter (fun a => a.trxId = t) := by
    rw [hcom]
    exact mem_cons_self
  have hfresh := hsess.fresh _ (mem_of_mem_filter hmemc)
  -- The file of the session is again a clean log, of the old and new frames.
  rcases exists_frames (by
    intro p hp
    rcases mem_flatMap.mp hp with ⟨a, ha, hpa⟩
    exact ⟨fst_of_mem_pairs hpa ▸ hsess.width a ha, hsess.typed a ha p hpa⟩)
    with ⟨gs, hmap, henc⟩
  have hfile : (as.foldl log (Wal.openFile (some (encodeFrames fs)))).file
      = encodeFrames (fs ++ gs) := by
    rw [file_logAll, ← henc, encodeFrames_append]
    rfl
  have hsnd : (framesFrom 0 (fs ++ gs)).map Prod.snd =
      fs.map (fun f => (f.trxId, f.record)) ++ as.flatMap Append.pairs := by
    rw [map_snd_framesFrom, map_append, hmap]
  -- Among them the transaction's own are its records and its commit.
  have hmine : ((framesFrom 0 (fs ++ gs)).map Prod.snd).filter (fun p => decide (p.1 = t)) =
      recs.map (fun r => (t, r)) ++ [(t, .commit)] := by
    have hold : (fs.map (fun f => (f.trxId, f.record))).filter (fun p => decide (p.1 = t))
        = [] := by
      apply filter_eq_nil_iff.mpr
      intro p hp
      rcases mem_map.mp hp with ⟨f, hf, rfl⟩
      have hlt := trxId_lt_nextIdAfterOpen tm [] rfl hf
      rw [append_nil] at hlt
      simp only [decide_eq_true_eq]
      have hle : nextIdAfterOpen tm (encodeFrames fs) ≤ t := hfresh
      omega
    rw [hsnd, filter_append, hold, nil_append, filter_pairs, hcom]
    simp [Append.pairs]
  rw [hfile, Lists, planRecovery_encodeFrames]
  have hcommit : (t, Record.commit) ∈ (framesFrom 0 (fs ++ gs)).map Prod.snd := by
    refine mem_of_mem_filter (p := fun p => decide (p.1 = t)) ?_
    rw [hmine]
    exact mem_append_right _ mem_cons_self
  rcases mem_map.mp hcommit with ⟨g, hg, hgc⟩
  have hcommitted : ∃ f ∈ framesFrom 0 (fs ++ gs), f.2.1 = t ∧ f.2.2.isCommit = true :=
    ⟨g, hg, by rw [hgc], by rw [hgc]; rfl⟩
  refine ⟨(mem_committedIds_iff t _).mpr hcommitted, ?_⟩
  intro hne
  rcases (commitOf_isSome_iff t _).mpr hcommitted with ⟨pos, hpos⟩
  refine ⟨pos, (mem_committed_iff pos t recs _).mpr ⟨hpos, ?_, hne⟩⟩
  rw [dataOf_eq, ← List.filter_filter, filter_comm, hmine]
  have hdata := hsess.data t recs (mem_of_mem_filter hmemf)
  rw [filter_append]
  have hrecs : (recs.map (fun r => (t, r))).filter (fun p => !p.2.isCommit)
      = recs.map (fun r => (t, r)) := by
    apply filter_eq_self.mpr
    intro _ hp
    rcases mem_map.mp hp with ⟨r, hr, rfl⟩
    simp [hdata r hr]
  rw [hrecs]
  simp only [Record.isCommit, filter_cons, Bool.not_true, Bool.false_eq_true, if_false,
    filter_nil, append_nil, List.map_map]
  exact map_id recs

/-- The transaction that gets lost writes one row of `k` zero bytes. -/
def lostInsert (k : Nat) : Record Bytes := .insert 0 ⟨0, 0⟩ (replicate k 0)

/-- What it appends. -/
def lostBytes (t k : Nat) : Bytes := encodeFrame t (lostInsert k) ++ encodeFrame t .commit

theorem bodyLen_lostInsert (k : Nat) : bodyLen (lostInsert k) = 19 + k := by
  simp only [bodyLen, headerLen, lostInsert, encodePayload, length_append, length_leBytes,
    length_replicate]
  omega

theorem length_lostBytes (t k : Nat) : (lostBytes t k).length = (4 + (19 + k)) + 13 := by
  rw [lostBytes, length_append, length_encodeFrame, length_encodeFrame, bodyLen_lostInsert]
  rfl

/-- Its first bytes are the length word of the insert, one byte that counts. -/
theorem getElem?_lostBytes (t : Nat) {i : Nat} (hk : 19 + k < 256) (hi : i < 4) :
    (lostBytes t k)[i]? = some (if i = 0 then UInt8.ofNat (19 + k) else 0) := by
  have hword : lostBytes t k = leBytes 4 (19 + k) ++
      (((lostInsert k).typeByte :: leBytes 8 t ++ encodePayload (lostInsert k)) ++
        encodeFrame t .commit) := by
    rw [lostBytes, encodeFrame, length_body, bodyLen_lostInsert, append_assoc]
  have h1 : (19 + k) / 256 = 0 := Nat.div_eq_of_lt hk
  rw [hword, getElem?_append_left (by rw [length_leBytes]; exact hi)]
  simp only [leBytes, h1, Nat.zero_div]
  interval_cases i <;> rfl

/-- Some length in a range of nine differs from all eight bytes of an id. -/
theorem exists_length_byte (t : Nat) :
    ∃ k, 24 ≤ k ∧ k < 33 ∧ UInt8.ofNat (19 + k) ∉ leBytes 8 t := by
  by_contra hno
  push Not at hno
  have hsub : (Finset.range 9).image (fun j => UInt8.ofNat (43 + j)) ⊆ (leBytes 8 t).toFinset := by
    intro _ hb
    rcases Finset.mem_image.mp hb with ⟨j, hj, rfl⟩
    have hj9 := Finset.mem_range.mp hj
    have hin := hno (24 + j) (by omega) (by omega)
    rw [show 19 + (24 + j) = 43 + j by omega] at hin
    exact mem_toFinset.mpr hin
  have hcard := Finset.card_le_card hsub
  have hle : (leBytes 8 t).toFinset.card ≤ 8 :=
    le_trans (toFinset_card_le _) (le_of_eq (length_leBytes 8 t))
  have hnine : ((Finset.range 9).image (fun j => UInt8.ofNat (43 + j))).card = 9 := by decide
  omega

/-- The frame decoded at the tear uses up bytes beyond the torn ones. -/
theorem length_lt_of_decode {rest : Bytes} (hp : p <+: f.bytes) (hlt : p.length < f.bytes.length)
    (hdec : decodeFrame (p ++ rest) = some (t, r, n)) : p.length < n := by
  by_cases h4 : p.length < 4
  · have hn := decodeFrame_pos hdec
    omega
  rcases hp with ⟨_, hq⟩
  have hword : (p ++ rest).take 4 = f.bytes.take 4 := by
    rw [← hq, take_append_of_le_length (by omega), take_append_of_le_length (by omega)]
  have hn := (decodeFrame_some hdec).1
  rw [hword, ofLeBytes_take_bytes, ← length_bytes] at hn
  omega

/-- The frame decoded at the tear is not one of the transaction's. How much of the header was torn
    off decides why: with the whole id written the frame has the torn one's id, within the id the
    length byte of the new frame becomes a byte of the id, and before it the type byte is no known
    type. -/
theorem decode_at_tear_ne (hp : p <+: f.bytes) (hne : p ≠ []) (hk : 24 ≤ k) (hk' : k < 33)
    (htf : t ≠ f.trxId) (hbyte : UInt8.ofNat (19 + k) ∉ leBytes 8 t) {t' : Nat}
    (hdec : decodeFrame (p ++ lostBytes t k) = some (t', r, n)) : t' ≠ t := by
  rcases decodeFrame_some hdec with ⟨_, _, hty, hid, _⟩
  have hpos : 0 < p.length := length_pos_of_ne_nil hne
  have hlost := length_lostBytes t k
  intro htt
  by_cases h13 : 13 ≤ p.length
  · -- The id is the torn frame's.
    rcases hp with ⟨_, hq⟩
    have hsame : ((p ++ lostBytes t k).drop 5).take 8 = (f.bytes.drop 5).take 8 := by
      rw [← hq, drop_append_of_le_length (by omega), drop_append_of_le_length (by omega),
        take_append_of_le_length (by rw [length_drop]; omega),
        take_append_of_le_length (by rw [length_drop]; omega)]
    have hfid := (decodeFrame_some (decodeFrame_bytes f [])).2.2.2.1
    rw [append_nil] at hfid
    rw [hsame, ← hfid] at hid
    exact htf (htt.symm.trans hid)
  · by_cases h5 : 5 ≤ p.length
    · -- The length byte of the new frame sits inside the id.
      have hmem : UInt8.ofNat (19 + k) ∈ ((p ++ lostBytes t k).drop 5).take 8 := by
        apply mem_of_getElem? (i := p.length - 5)
        rw [getElem?_take_of_lt (by omega), getElem?_drop,
          show 5 + (p.length - 5) = p.length by omega,
          getElem?_append_right (le_refl _), Nat.sub_self,
          getElem?_lostBytes t (by omega) (by omega), if_pos rfl]
      have hlen : (((p ++ lostBytes t k).drop 5).take 8).length = 8 := by
        rw [length_take, length_drop, length_append]
        omega
      have hback := leBytes_ofLeBytes (((p ++ lostBytes t k).drop 5).take 8)
      rw [hlen, ← hid, htt] at hback
      rw [← hback] at hmem
      exact hbyte hmem
    · -- The type byte is a byte of the new frame's length word.
      have hget : (p ++ lostBytes t k).getD 4 0
          = if 4 - p.length = 0 then UInt8.ofNat (19 + k) else 0 := by
        rw [getD_eq_getElem?_getD, getElem?_append_right (by omega),
          getElem?_lostBytes t (by omega) (by omega), getD_some]
      have hnot : ∀ r : Record Bytes, (if 4 - p.length = 0 then UInt8.ofNat (19 + k) else 0)
          ≠ r.typeByte := by
        intro r
        have hr : r.typeByte = 1 ∨ r.typeByte = 2 ∨ r.typeByte = 3 := by
          cases r with
          | insert => exact .inl rfl
          | deleteMark => exact .inr (.inl rfl)
          | commit => exact .inr (.inr rfl)
        split
        · have hval : (UInt8.ofNat (19 + k)).toNat = 19 + k := by
            rw [UInt8.toNat_ofNat']
            omega
          rcases hr with hr | hr | hr <;> rw [hr] <;> intro heq <;> rw [heq] at hval <;>
            simp only [UInt8.toNat_ofNat] at hval <;> omega
        · rcases hr with hr | hr | hr <;> rw [hr] <;> decide
      exact hnot r (hget.symm.trans hty)

/-- Two different members weigh no more than the whole list. -/
theorem add_le_sum_of_mem {α : Type} (g : α → Nat) {xs : List α} {x y : α} (hx : x ∈ xs)
    (hy : y ∈ xs) (hxy : x ≠ y) : g x + g y ≤ (xs.map g).sum := by
  classical
  have hy' : y ∈ xs.erase x := (mem_erase_of_ne hxy.symm).mpr hy
  rw [((perm_cons_erase hx).map g).sum_nat, map_cons, sum_cons]
  exact Nat.add_le_add_left (le_sum_of_mem (mem_map_of_mem hy')) _

/-- A transaction listed has its commit and each of its records among the frames. -/
theorem mem_frames_of_listed {frames : List (Nat × Nat × Record Bytes)} {pos : Nat}
    {recs : List (Record Bytes)} (h : (pos, t, recs) ∈ (planFrames frames).committed) :
    (∃ f ∈ frames, f.2 = (t, .commit)) ∧ ∀ r ∈ recs, ∃ f ∈ frames, f.2 = (t, r) := by
  rcases (mem_committed_iff pos t recs frames).mp h with ⟨hpos, hdata, _⟩
  constructor
  · rcases (commitOf_isSome_iff t frames).mp ⟨pos, hpos⟩ with ⟨f, hf, hft, hfc⟩
    refine ⟨f, hf, Prod.ext hft ?_⟩
    cases hrec : f.2.2 with
    | commit => rfl
    | _ =>
      rw [hrec] at hfc
      cases hfc
  · intro _ hr
    rw [← hdata] at hr
    rcases mem_map.mp hr with ⟨f, hf, hfr⟩
    rcases mem_filter.mp hf with ⟨hmem, hcond⟩
    rw [Bool.and_eq_true, decide_eq_true_eq] at hcond
    exact ⟨f, hmem, Prod.ext hcond.1 hfr⟩

/-- The appends of the lost transaction. -/
def lostAppends (t k : Nat) : List Append := [.frames t [lostInsert k], .commit t]

theorem session_lost {nextId : Nat} (hfresh : nextId ≤ t) (hwidth : t < 2 ^ 64) (hk : k < 33) :
    Session nextId (lostAppends t k) := by
  have hcases : ∀ a ∈ lostAppends t k, a = .frames t [lostInsert k] ∨ a = .commit t := by
    intro a ha
    simpa only [lostAppends, mem_cons, not_mem_nil, or_false] using ha
  refine ⟨?_, ?_, ?_, ?_⟩
  · intro a ha
    rcases hcases a ha with rfl | rfl <;>
      exact hfresh
  · intro a ha
    rcases hcases a ha with rfl | rfl <;>
      exact hwidth
  · intro a ha _ hq
    rcases hcases a ha with rfl | rfl
    · rw [mem_singleton.mp hq]
      refine ⟨by decide, by decide, by decide, ?_⟩
      rw [length_replicate]
      omega
    · rw [mem_singleton.mp hq]
      exact trivial
  · intro _ _ hmem _ hr
    rcases hcases _ hmem with heq | heq
    · rw [Append.frames.injEq] at heq
      rw [heq.2, mem_singleton] at hr
      rw [hr]
      rfl
    · cases heq

theorem committed_lost (t k : Nat) : Committed (lostAppends t k) t [lostInsert k] := by
  simp [Committed, lostAppends, Append.trxId]

theorem file_lost (file : Bytes) (t k : Nat) :
    ((lostAppends t k).foldl log (Wal.openFile (some file))).file = file ++ lostBytes t k := by
  rw [file_logAll]
  simp [Wal.openFile, lostAppends, Append.pairs, lostBytes]

/-- Behind a torn frame there is a transaction that commits and is not listed. -/
theorem exists_unlisted {tm : TransactionManager} (hp : p <+: f.bytes)
    (hlt : p.length < f.bytes.length) (hne : p ≠ [])
    (hroom : nextIdAfterOpen tm (encodeFrames fs ++ p) + 1 < 2 ^ 64) :
    ¬ TailHarmless tm (encodeFrames fs ++ p) := by
  intro hall
  -- A new id other than the torn frame's, and a row whose length byte is not in it.
  have ht : ∃ t, nextIdAfterOpen tm (encodeFrames fs ++ p) ≤ t ∧ t < 2 ^ 64 ∧ t ≠ f.trxId := by
    by_cases hf : nextIdAfterOpen tm (encodeFrames fs ++ p) = f.trxId
    · exact ⟨nextIdAfterOpen tm (encodeFrames fs ++ p) + 1, by omega, hroom, by omega⟩
    · exact ⟨nextIdAfterOpen tm (encodeFrames fs ++ p), le_refl _, by omega, hf⟩
  rcases ht with ⟨t, hfresh, hwidth, htf⟩
  rcases exists_length_byte t with ⟨k, hk, hk', hbyte⟩
  have hlists := hall _ (session_lost hfresh hwidth hk') t [lostInsert k] (committed_lost t k)
  rw [file_lost, append_assoc, Lists, planRecovery, scanFrames_append _ 0 (le_refl _)] at hlists
  -- Both of its frames must be among those decoded from the tear on.
  rcases hlists.2 (cons_ne_nil _ _) with ⟨_, hpos⟩
  rcases mem_frames_of_listed hpos with ⟨⟨fc, hfc, hfceq⟩, hrecs⟩
  rcases hrecs (lostInsert k) mem_cons_self with ⟨fi, hfi, hfieq⟩
  have hnew : ∀ g : Nat × Nat × Record Bytes, g.2.1 = t → g ∉ framesFrom 0 fs := by
    intro g hg hmem
    have hin : g.2 ∈ (framesFrom 0 fs).map Prod.snd := mem_map_of_mem hmem
    rw [map_snd_framesFrom] at hin
    rcases mem_map.mp hin with ⟨_, hh, heq⟩
    have hltid := trxId_lt_nextIdAfterOpen tm p (decodeFrame_cut hp hlt) hh
    rw [← heq] at hg
    simp only at hg
    omega
  have hfc' := (mem_append.mp hfc).resolve_left (hnew fc (by rw [hfceq]))
  have hfi' := (mem_append.mp hfi).resolve_left (hnew fi (by rw [hfieq]))
  -- The first frame decoded there is another one and reaches past the tear.
  have hlost := length_lostBytes t k
  rw [show (p ++ lostBytes t k).length = ((p ++ lostBytes t k).length - 1) + 1 by
    rw [length_append]; omega, scanFrames] at hfc' hfi'
  cases hdec : decodeFrame (p ++ lostBytes t k) with
  | none =>
    rw [hdec] at hfc'
    cases hfc'
  | some d =>
    rcases d with ⟨t', _, _⟩
    rw [hdec] at hfc' hfi'
    have hother := decode_at_tear_ne hp hne hk hk' htf hbyte hdec
    have hlong := length_lt_of_decode hp hlt hdec
    have hrest : ∀ g : Nat × Nat × Record Bytes, g.2.1 = t → ∀ x y zs,
        g ∈ (x, t', y) :: zs → g ∈ zs := by
      intro g hg _ _ _ hmem
      rcases mem_cons.mp hmem with rfl | hmem
      · exact absurd hg hother
      · exact hmem
    have hfc2 := hrest fc (by rw [hfceq]) _ _ _ hfc'
    have hfi2 := hrest fi (by rw [hfieq]) _ _ _ hfi'
    have hdiff : fi ≠ fc := by
      intro heq
      rw [heq, hfceq] at hfieq
      simp [lostInsert] at hfieq
    have hsum := add_le_sum_of_mem (fun g => 4 + bodyLen g.2.2) hfi2 hfc2 hdiff
    have hsize := le_trans hsum (scanFrames_size _ _ _)
    have hcl : bodyLen (Record.commit : Record Bytes) = 9 := rfl
    simp only [hfieq, hfceq, bodyLen_lostInsert, hcl, length_drop, length_append] at hsize
    omega

/-- Opening a log whose tail was torn, at any point of any frame, is harmless exactly when nothing
    of the torn frame was written: behind a non-empty tail some transaction of the session commits
    and is not listed by the next recovery. -/
theorem torn_tail_harmless_iff (tm : TransactionManager) (fs : List Frame) (f : Frame) (p : Bytes)
    (hp : p <+: f.bytes) (hlt : p.length < f.bytes.length)
    (hroom : nextIdAfterOpen tm (encodeFrames fs ++ p) + 1 < 2 ^ 64) :
    TailHarmless tm (encodeFrames fs ++ p) ↔ p = [] := by
  constructor
  · intro hall
    by_contra hne
    exact exists_unlisted hp hlt hne hroom hall
  · intro hnil
    rw [hnil, append_nil]
    exact listed_of_clean tm fs

/-- A manager that has handed out no id. -/
def freshTm : TransactionManager := .new 1 [] 0

/-- The commit frame of transaction 1. -/
def commitFrame : Frame := ⟨1, .commit, by decide, trivial⟩

/-- A log with one whole commit frame and a clean tail. -/
theorem torn_tail_harmless_clean : TailHarmless freshTm (encodeFrames [commitFrame] ++ []) :=
  (torn_tail_harmless_iff freshTm [commitFrame] commitFrame [] (by simp) (by decide)
    (by decide)).mpr rfl

/-- The log holds one byte of a commit frame when the database is opened. Transaction 1 then inserts
    a row and commits, and the next recovery finds no frame at all. -/
theorem torn_byte_loses_commit :
    [(9 : UInt8)] <+: commitFrame.bytes ∧
      Session (nextIdAfterOpen freshTm [9]) (lostAppends 1 24) ∧
      Committed (lostAppends 1 24) 1 [lostInsert 24] ∧
      (planRecovery ((lostAppends 1 24).foldl log (Wal.openFile (some [9]))).file).committed = [] ∧
      ¬ Lists ((lostAppends 1 24).foldl log (Wal.openFile (some [9]))).file 1 [lostInsert 24] := by
  refine ⟨by decide, session_lost (by decide) (by decide) (by decide),
    committed_lost 1 24, by decide, ?_⟩
  intro h
  cases h.1

end ChibiDb.TornTail
