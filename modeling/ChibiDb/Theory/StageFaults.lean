import ChibiDb.Theory.TornPages

/-!
# Staging With Failing Writes

`stage` appends a record with four writes. When one of them stops part-way the
call returns the error, and what it wrote stays at the end of the double-write
file. The next `flush_all` appends its records behind it. Records have no
checksum, so recovery fills the cut record up with bytes of the one behind it
and hands `apply` a page nobody staged.

`stage` writes the text of a path, with a replacement character for what is not
UTF-8, and recovery makes a path of the text. `text` and `file` are these two.

## Main definitions

* `DwbFile`, `DwbCall`, `DwbFile.call`: The double-write file and its calls.
* `DwbFile.CrashFile`: What a crash can leave of it.
* `DwbFile.Replays`: Recovery succeeds and replays staged pages only.
* `DwbFile.Appends`: A record is staged behind complete ones, for a path that is
  read back.

## Theorems

* `DwbFile.part_call`: The file is a part of staged records.
* `DwbFile.recover_replays_staged`: What recovery replays in every run.
* `DwbFile.replays_unstaged`: A page that was not staged.
-/

namespace ChibiDb

open List

variable {File Path : Type}

/-- The double-write file, how much of it is synced, what was passed to `stage`,
    and whether the file ends inside a record. -/
structure DwbFile (File : Type) where
  buffer : List UInt8
  synced : Nat
  staged : List (PageAddr File × PageImage)
  cut : Bool

/-- A call on the double-write file. `written` is where the writes of `stage`
    stop; a sync or a reset may fail. -/
inductive DwbCall (File : Type) where
  | stage (a : PageAddr File) (page : PageImage) (written : Nat)
  | sync (ok : Bool)
  | reset (ok : Bool)

namespace DwbFile

/-- The file that the last recovery left. -/
def start : DwbFile File := ⟨[], 0, [], false⟩

/-- A call, which may fail after a part of its bytes. -/
def call (c : PathCodec Path) (text : File → Path) (s : DwbFile File) :
    DwbCall File → Option (DwbFile File)
  | .stage a page written =>
    let record := stageRecord c ⟨text a.path, a.no⟩ page
    some { s with
      buffer := s.buffer ++ record.take written
      staged := (a, page) :: s.staged
      cut := s.cut || decide (0 < written ∧ written < record.length) }
  | .sync ok => some (if ok then { s with synced := s.buffer.length } else s)
  | .reset ok => some (if ok then { s with buffer := [], synced := 0, cut := false } else s)

/-- The file after a crash: what is not synced may be lost from some byte on. -/
def CrashFile (s : DwbFile File) (data : List UInt8) : Prop :=
  ∃ n, s.synced ≤ n ∧ data = s.buffer.take n

/-- Recovery succeeds, and what it hands to `apply` was staged. -/
def Replays (c : PathCodec Path) (file : Path → File) (s : DwbFile File) (data : List UInt8) :
    Prop :=
  ∃ rs, replayed c data = .ok rs ∧ ∀ r ∈ rs, (⟨file r.1.path, r.1.no⟩, r.2) ∈ s.staged

/-- A record is staged behind complete ones, and its path is read back. -/
def Appends (text : File → Path) (file : Path → File) (s : DwbFile File) : DwbCall File → Prop
  | .stage a _ _ => s.cut = false ∧ file (text a.path) = a.path
  | _ => True

/-- The file is the records of staged pages up to some byte: all of them, if it
    does not end inside a record. -/
def Part (c : PathCodec Path) (file : Path → File) (s : DwbFile File) : Prop :=
  ∃ rs n, s.buffer = (stageRecords c rs).take n ∧
    (s.cut = false → (stageRecords c rs).length ≤ n) ∧
    ∀ r ∈ rs, (⟨file r.1.path, r.1.no⟩, r.2) ∈ s.staged

variable {c : PathCodec Path} {text : File → Path} {file : Path → File}

theorem part_call (s : DwbFile File) (l : DwbCall File) (s' : DwbFile File)
    (h : s.Part c file) (hok : s.Appends text file l) (hs : s.call c text l = some s') :
    s'.Part c file := by
  cases l with
  | stage a page written =>
    cases hs
    rcases h with ⟨rs, n, hbuf, hall, hin⟩
    rcases hok with ⟨hcut, hfile⟩
    rw [take_of_length_le (hall hcut)] at hbuf
    by_cases hw : written = 0
    · refine ⟨rs, (stageRecords c rs).length, ?_, fun _ => Nat.le_refl _,
        fun r hr => mem_cons_of_mem _ (hin r hr)⟩
      rw [hbuf, hw, take_zero, append_nil, take_length]
    · refine ⟨rs ++ [(⟨text a.path, a.no⟩, page)], (stageRecords c rs).length + written, ?_, ?_, ?_⟩
      · simp [hbuf, stageRecords, take_append, take_of_length_le]
      · intro hcut'
        simp only [hcut, Bool.false_or, decide_eq_false_iff_not] at hcut'
        simp only [stageRecords, flatMap_append, flatMap_singleton, length_append]
        omega
      · intro r hr
        rcases mem_append.mp hr with hr | hr
        · exact mem_cons_of_mem _ (hin r hr)
        · rw [mem_singleton.mp hr, hfile]
          exact mem_cons_self
  | sync ok =>
    cases hs
    cases ok with
    | _ => exact h
  | reset ok =>
    cases hs
    cases ok with
    | false => exact h
    | true => exact ⟨[], 0, rfl, fun _ => Nat.le_refl _, forall_mem_nil _⟩

/-- In a run that stages no record behind a cut one, and only for paths that are read back from
    their text, recovery from any crash succeeds and replays staged pages only. -/
theorem recover_replays_staged (c : PathCodec Path) (text : File → Path) (file : Path → File)
    (calls : List (DwbCall File)) (s : DwbFile File)
    (hrun : runSteps (call c text) start calls = some s)
    (hok : Meets (call c text) (Appends text file) start calls)
    (data : List UInt8) (hcrash : s.CrashFile data) : s.Replays c file data := by
  have hpart : s.Part c file :=
    invariant_of_meets _ _ (Part c file) part_call start s calls
      ⟨[], 0, rfl, fun _ => Nat.le_refl _, nofun⟩ hok hrun
  rcases hpart with ⟨rs, n, hbuf, _, hin⟩
  rcases hcrash with ⟨m, _, rfl⟩
  rw [hbuf, take_take]
  rcases take_stageRecords c rs (min m n) with ⟨rs', tail, hsub, htail, heq⟩
  rw [heq]
  exact ⟨rs', replayed_records rs' htail, fun r hr => hin r (hsub r hr)⟩

/-- Paths of one character, and the empty one. -/
def shortPath : PathCodec (Option UInt8) where
  bytes p := p.toList
  parse
    | [] => some none
    | [b] => some (some b)
    | _ => none
  parse_bytes p := by
    cases p with
    | _ => rfl
  short p := by
    cases p with
    | none => decide
    | some => exact (by decide : 1 < 256 ^ 4)

/-- A stage of an empty page for path 0. -/
def stageEmpty (written : Nat) : DwbCall (Option UInt8) := .stage ⟨some 0, 0⟩ (plainPage 0) written

/-- A stage that is cut short, a reset and a stage that is not. -/
theorem recover_replays_staged_reset :
    ∃ s, runSteps (call shortPath id) start [stageEmpty 4, .reset true, stageEmpty 9000] =
      some s ∧ s.Replays shortPath id s.buffer :=
  ⟨_, rfl, recover_replays_staged shortPath id id [stageEmpty 4, .reset true, stageEmpty 9000] _ rfl
    ⟨⟨rfl, rfl⟩, trivial, ⟨rfl, rfl⟩, trivial⟩ _ ⟨_, Nat.zero_le _, take_length.symm⟩⟩

/-- A stage for path 0 stops behind the length of the path, and the next one is complete. Recovery
    takes the first byte of the second record, 1, for the path of the first. -/
theorem replays_unstaged :
    ∃ s, runSteps (call shortPath id) start [stageEmpty 4, stageEmpty 9000] = some s ∧
      s.CrashFile s.buffer ∧ ¬ s.Replays shortPath id s.buffer := by
  refine ⟨_, rfl, ⟨_, Nat.zero_le _, take_length.symm⟩, ?_⟩
  have hdata : (stageRecord shortPath ⟨some 0, 0⟩ (plainPage 0)).take 4 ++
      (stageRecord shortPath ⟨some 0, 0⟩ (plainPage 0)).take 9000 =
      stageRecords shortPath [(⟨some 1, 0⟩, plainPage 0)] ++ replicate 4 0 := by
    rw [take_of_length_le (i := 9000) (by rw [length_stageRecord]; decide)]
    have hzeros : leBytes 4 0 ++ (plainPage 0).val = (plainPage 0).val ++ replicate 4 0 := by
      change replicate 4 0 ++ replicate pageSize 0 = replicate pageSize 0 ++ replicate 4 0
      rw [replicate_append_replicate, replicate_append_replicate, Nat.add_comm]
    change [1, 0, 0, 0, 1, 0, 0, 0, 0] ++ (leBytes 4 0 ++ (plainPage 0).val) = _
    rw [hzeros, ← append_assoc, stageRecords, flatMap_singleton]
    rfl
  have htail : Tail shortPath (replicate 4 0) :=
    .inr ⟨⟨none, 0⟩, plainPage 0, 4, by rw [length_stageRecord]; decide, rfl⟩
  rintro ⟨rs, hrs, hin⟩
  cases hrs.symm.trans ((congrArg _ hdata).trans (replayed_records _ htail))
  have hpath := hin _ mem_cons_self
  simp [start] at hpath

end DwbFile

end ChibiDb
