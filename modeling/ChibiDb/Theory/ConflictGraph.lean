import ChibiDb.Core.Ssi

/-!
# The Conflict Graph Is Exact

As long as no transaction commits, the edges are the conflicts between open
transactions: a reader and a writer of one table, in whatever order they came. A
transaction that aborts takes its reads and writes with it, and one that begins
again under the same id starts with none.

## Main definitions

* `SsiCall`, `Ssi.afterCalls`: Histories of calls, the latest call first.
* `Opened`, `HasRead`, `HasWritten`: What a history says about a transaction.
* `Exact`: The sets and edges are what the history says.

## Theorems

* `exact_begin`, `exact_noteRead`, …: Every call keeps `Exact`.
* `conflict_graph_exact`: The edges, and what the search for a cycle finds.
-/

namespace ChibiDb

open List

/-- The calls that change the graph. -/
inductive SsiCall where
  | begin (id : Nat)
  | noteRead (id table : Nat)
  | noteWrite (id table : Nat)
  | abort (id : Nat)
  deriving DecidableEq, Repr

namespace Ssi

/-- One call. -/
def call (g : Ssi) : SsiCall → Ssi
  | .begin id => g.begin id
  | .noteRead id table => g.noteRead id table
  | .noteWrite id table => g.noteWrite id table
  | .abort id => g.abort id

/-- The graph after a history, the latest call first. -/
def afterCalls : List SsiCall → Ssi
  | [] => new
  | c :: earlier => (afterCalls earlier).call c

/-- The transaction began, and was not aborted since. -/
def Opened : List SsiCall → Nat → Prop
  | [], _ => False
  | c :: earlier, id => c = .begin id ∨ (Opened earlier id ∧ c ≠ .abort id)

/-- The transaction noted the table while it was open, and was not aborted since. -/
def Noted (note : Nat → Nat → SsiCall) : List SsiCall → Nat → Nat → Prop
  | [], _, _ => False
  | c :: earlier, id, table =>
    (c = note id table ∧ Opened earlier id) ∨ (Noted note earlier id table ∧ c ≠ .abort id)

/-- It has read the table. -/
abbrev HasRead := Noted .noteRead

/-- It has written the table. -/
abbrev HasWritten := Noted .noteWrite

variable {c : SsiCall} {calls : List SsiCall} {g : Ssi} {id t table x : Nat}
  {note : Nat → Nat → SsiCall}

theorem opened_of_noted (h : Noted note calls id table)
    (hnote : ∀ id table, note id table ≠ .abort id) : Opened calls id := by
  induction calls with
  | nil => exact h
  | cons c earlier ih =>
    rcases h with ⟨rfl, ho⟩ | ⟨h, hc⟩
    · exact .inr ⟨ho, hnote id table⟩
    · exact .inr ⟨ih h, hc⟩

-- Calls of other kinds change nothing.

@[simp] theorem opened_noteRead : Opened (.noteRead id table :: calls) x ↔ Opened calls x := by
  simp [Opened]

@[simp] theorem opened_noteWrite : Opened (.noteWrite id table :: calls) x ↔ Opened calls x := by
  simp [Opened]

@[simp] theorem hasRead_begin : HasRead (.begin id :: calls) x t ↔ HasRead calls x t := by
  simp [Noted]

@[simp] theorem hasWritten_begin : HasWritten (.begin id :: calls) x t ↔ HasWritten calls x t := by
  simp [Noted]

@[simp] theorem hasRead_noteWrite :
    HasRead (.noteWrite id table :: calls) x t ↔ HasRead calls x t := by
  simp [Noted]

@[simp] theorem hasWritten_noteRead :
    HasWritten (.noteRead id table :: calls) x t ↔ HasWritten calls x t := by
  simp [Noted]

/-- The sets and edges are what the history says. -/
structure Exact (g : Ssi) (calls : List SsiCall) : Prop where
  active : ∀ id, id ∈ g.active ↔ Opened calls id
  readers : ∀ id table, (table, id) ∈ g.readers ↔ HasRead calls id table
  writers : ∀ id table, (table, id) ∈ g.writers ↔ HasWritten calls id table
  out : ∀ r w, (r, w) ∈ g.out ↔ r ≠ w ∧ ∃ table, HasRead calls r table ∧ HasWritten calls w table

/-- Beginning keeps the graph exact. -/
theorem exact_begin (h : Exact g calls) : Exact (g.begin id) (.begin id :: calls) := by
  refine ⟨fun x => ?_, by simpa [begin] using h.readers, by simpa [begin] using h.writers,
    by simpa [begin] using h.out⟩
  simp only [begin, Opened, mem_insert_iff, h.active]
  grind

/-- What a closed transaction notes counts for nothing. -/
theorem exact_idle (h : Exact g calls) (hid : id ∉ g.active)
    (hc : c = .noteRead id table ∨ c = .noteWrite id table) : Exact g (c :: calls) := by
  have hopen : ¬ Opened calls id := fun ho => hid ((h.active id).mpr ho)
  have hread : ∀ x t, HasRead (c :: calls) x t ↔ HasRead calls x t := by
    simp only [Noted]
    grind
  have hwritten : ∀ x t, HasWritten (c :: calls) x t ↔ HasWritten calls x t := by
    simp only [Noted]
    grind
  refine ⟨fun x => ?_, by simpa only [hread] using h.readers,
    by simpa only [hwritten] using h.writers, by simpa only [hread, hwritten] using h.out⟩
  rw [h.active]
  rcases hc with rfl | rfl <;> simp

/-- Noting a read keeps the graph exact. -/
theorem exact_noteRead (h : Exact g calls) :
    Exact (g.noteRead id table) (.noteRead id table :: calls) := by
  by_cases hid : id ∈ g.active
  · have hopen := (h.active id).mp hid
    have hread : ∀ x t, HasRead (.noteRead id table :: calls) x t ↔
        (x = id ∧ t = table) ∨ HasRead calls x t := by
      simp only [Noted]
      grind
    refine ⟨by simpa [noteRead, hid] using h.active, fun x t => ?_,
      by simpa [noteRead, hid] using h.writers, fun r w => ?_⟩
    · rw [hread, ← h.readers, noteRead, if_pos hid]
      grind
    have hw := h.writers w table
    rw [mem_out_noteRead table (r, w) hid, h.out]
    simp only [hread, hasWritten_noteRead]
    grind
  · rw [noteRead, if_neg hid]
    exact exact_idle h hid (.inl rfl)

/-- Noting a write keeps the graph exact. -/
theorem exact_noteWrite (h : Exact g calls) :
    Exact (g.noteWrite id table) (.noteWrite id table :: calls) := by
  by_cases hid : id ∈ g.active
  · have hopen := (h.active id).mp hid
    have hwritten : ∀ x t, HasWritten (.noteWrite id table :: calls) x t ↔
        (x = id ∧ t = table) ∨ HasWritten calls x t := by
      simp only [Noted]
      grind
    refine ⟨by simpa [noteWrite, hid] using h.active, by simpa [noteWrite, hid] using h.readers,
      fun x t => ?_, fun r w => ?_⟩
    · rw [hwritten, ← h.writers, noteWrite, if_pos hid]
      grind
    have hr := h.readers r table
    rw [mem_out_noteWrite table (r, w) hid, h.out]
    simp only [hwritten, hasRead_noteWrite]
    grind
  · rw [noteWrite, if_neg hid]
    exact exact_idle h hid (.inr rfl)

/-- An abort keeps the graph exact. -/
theorem exact_abort (h : Exact g calls) : Exact (g.abort id) (.abort id :: calls) := by
  have hopen : ∀ x, Opened (.abort id :: calls) x ↔ x ≠ id ∧ Opened calls x := by
    intro x
    simp only [Opened]
    grind
  have hread : ∀ x t, HasRead (.abort id :: calls) x t ↔ x ≠ id ∧ HasRead calls x t := by
    simp only [Noted]
    grind
  have hwritten : ∀ x t,
      HasWritten (.abort id :: calls) x t ↔ x ≠ id ∧ HasWritten calls x t := by
    simp only [Noted]
    grind
  -- the sets are the same whether the edges are thrown away or not
  have hsets : (g.abort id).active = (g.forget id).active ∧
      (g.abort id).readers = (g.forget id).readers ∧
      (g.abort id).writers = (g.forget id).writers := by
    unfold abort clearIdle
    split <;> exact ⟨rfl, rfl, rfl⟩
  refine ⟨fun x => ?_, fun x t => ?_, fun x t => ?_, fun r w => ?_⟩
  · rw [hopen, hsets.1, ← h.active]
    simp [forget, and_comm]
  · rw [hread, hsets.2.1, ← h.readers]
    simp [forget, and_comm]
  · rw [hwritten, hsets.2.2, ← h.writers]
    simp [forget, and_comm]
  have hout := h.out r w
  unfold abort clearIdle
  split
  · rename_i hnone
    have hr : ∀ t, HasRead calls r t → r ≠ id → False := by
      intro t hrt hne
      have hmem := (h.active r).mpr (opened_of_noted hrt nofun)
      have : r ∈ (g.forget id).active := mem_filter.mpr ⟨hmem, decide_eq_true hne⟩
      rw [hnone] at this
      cases this
    grind
  · simp only [mem_filter, decide_eq_true_eq]
    grind

/-- After any calls the graph holds exactly the edges they imply. -/
theorem exact_afterCalls (calls : List SsiCall) : Exact (afterCalls calls) calls := by
  induction calls with
  | nil => constructor <;> simp [afterCalls, new, Opened, Noted]
  | cons c earlier ih =>
    cases c with
    | begin => exact exact_begin ih
    | noteRead => exact exact_noteRead ih
    | noteWrite => exact exact_noteWrite ih
    | abort => exact exact_abort ih

end Ssi

/-- While nobody commits, the edges are exactly the conflicts between different open
    transactions, and the search for a cycle ends and finds exactly the cycles. -/
theorem conflict_graph_exact (calls : List SsiCall) :
    (∀ r w, (r, w) ∈ (Ssi.afterCalls calls).out ↔
      r ≠ w ∧ Ssi.Opened calls r ∧ Ssi.Opened calls w ∧
        ∃ table, Ssi.HasRead calls r table ∧ Ssi.HasWritten calls w table) ∧
    ∀ id, (Ssi.afterCalls calls).SearchEnds id ∧
      ((Ssi.afterCalls calls).hasCycleThrough id = true ↔
        Relation.TransGen (fun r w => (r, w) ∈ (Ssi.afterCalls calls).out) id id) := by
  refine ⟨fun r w => ?_, fun id => ⟨Ssi.searchEnds _ id, Ssi.hasCycleThrough_iff _ id⟩⟩
  rw [(Ssi.exact_afterCalls calls).out]
  constructor
  · rintro ⟨hne, table, hr, hw⟩
    exact ⟨hne, Ssi.opened_of_noted hr nofun, Ssi.opened_of_noted hw nofun, table, hr, hw⟩
  · exact fun h => ⟨h.1, h.2.2.2⟩

end ChibiDb
