import ChibiDb.Data.Search

/-!
# Conflict Tracking for Serializable Transactions

Reads and writes are tracked by table. An edge `(r, w)` says that `r` read a
table that `w` wrote while both were open. A transaction that reaches its commit
on a cycle of such edges is refused.

A transaction leaves the reader and writer sets when it ends. The edges of a
committed one stay until no serializable transaction is open; those of an
aborted one go with it.

## Main definitions

* `Ssi`: The open transactions, readers, writers and edges.
* `Ssi.begin`, `Ssi.noteRead`, `Ssi.noteWrite`, `Ssi.commit`, `Ssi.abort`: The
  operations, each done under one lock.
* `Ssi.hasCycleThrough`: The commit-time test.

## Theorems

* `Ssi.hasCycleThrough_iff`, `Ssi.searchEnds`: The test finds exactly the cycles of
  edges, and ends.
* `Ssi.mem_out_noteRead`, `Ssi.mem_out_noteWrite`: The edges an access adds.
-/

namespace ChibiDb

open List Option

/-- The conflict graph and who is in it. Readers and writers are pairs of a
    table and a transaction. -/
structure Ssi where
  active : List Nat
  readers : List (Nat × Nat)
  writers : List (Nat × Nat)
  /-- Edges, reader first. -/
  out : List (Nat × Nat)
  deriving DecidableEq, Repr

namespace Ssi

/-- A graph with no transactions. -/
def new : Ssi := ⟨[], [], [], []⟩

/-- A transaction begins. -/
def begin (g : Ssi) (id : Nat) : Ssi := { g with active := g.active.insert id }

/-- Record that `id` read a table: an edge to every other writer of it. -/
def noteRead (g : Ssi) (id table : Nat) : Ssi :=
  if id ∈ g.active then
    { g with
      readers := g.readers.insert (table, id)
      out :=
        ((g.writers.filter (fun e => e.1 = table ∧ e.2 ≠ id)).map (fun e => (id, e.2))) ∪ g.out }
  else g

/-- Record that `id` wrote a table: an edge from every other reader of it. -/
def noteWrite (g : Ssi) (id table : Nat) : Ssi :=
  if id ∈ g.active then
    { g with
      writers := g.writers.insert (table, id)
      out :=
        ((g.readers.filter (fun e => e.1 = table ∧ e.2 ≠ id)).map (fun e => (e.2, id))) ∪ g.out }
  else g

/-- Take a transaction out of the sets. -/
def forget (g : Ssi) (id : Nat) : Ssi :=
  { g with
    active := g.active.filter (fun x => x ≠ id)
    readers := g.readers.filter (fun e => e.2 ≠ id)
    writers := g.writers.filter (fun e => e.2 ≠ id) }

/-- Throw the edges away once nobody is open. -/
def clearIdle (g : Ssi) : Ssi := if g.active = [] then { g with out := [] } else g

/-- Drop a committed transaction, keeping its edges while others are open. -/
def commit (g : Ssi) (id : Nat) : Ssi := (g.forget id).clearIdle

/-- Drop an aborted transaction and every edge that touches it. -/
def abort (g : Ssi) (id : Nat) : Ssi :=
  ({ g.forget id with out := g.out.filter (fun e => e.1 ≠ id ∧ e.2 ≠ id) } : Ssi).clearIdle

/-- The transactions an edge leads to from `id`. -/
def nexts (g : Ssi) (id : Nat) : List Nat :=
  (g.out.filter (fun e => e.1 = id)).map (fun e => e.2)

/-- Whether `id` lies on a cycle of edges. -/
def hasCycleThrough (g : Ssi) (id : Nat) : Bool :=
  Search.searchCycle g.nexts id (g.out.length + 2) [id] []

theorem mem_nexts_iff (g : Ssi) (a b : Nat) : b ∈ g.nexts a ↔ (a, b) ∈ g.out := by
  simp only [nexts, List.mem_map, mem_filter, decide_eq_true_eq]
  grind

theorem nexts_subset (g : Ssi) : ∀ a, ∀ b ∈ g.nexts a, b ∈ g.out.map (fun e => e.2) :=
  fun a b hb => mem_map.mpr ⟨(a, b), (mem_nexts_iff g a b).mp hb, rfl⟩

/-- The search answers yes exactly when a chain of edges leads back to the transaction. -/
theorem hasCycleThrough_iff (g : Ssi) (id : Nat) :
    g.hasCycleThrough id = true ↔
      Relation.TransGen (fun a b => (a, b) ∈ g.out) id id := by
  have hedge : Search.Edge g.nexts = fun a b => (a, b) ∈ g.out := by
    funext a b
    exact propext (mem_nexts_iff g a b)
  rw [← hedge]
  apply Search.searchCycle_iff g.nexts id _ g.nexts_subset
  rw [length_map]
  omega

/-- The loop of the test ends, in fewer turns than the model gives it. -/
def SearchEnds (g : Ssi) (id : Nat) : Prop :=
  Search.Ends g.nexts id (g.out.length + 1) [id] []

/-- The search stops by itself: its fuel is never what ends it. -/
theorem searchEnds (g : Ssi) (id : Nat) : g.SearchEnds id := by
  refine Search.ends_of_unseen g.nexts_subset [id] [] ?_
  have hlen : Search.unseen (g.out.map (fun e => e.2)) [] ≤ _ := length_filter_le _ _
  rw [length_map] at hlen
  exact Nat.add_le_add_right hlen 1

variable {g : Ssi}

/-- A read adds the edges to the table's other writers. -/
theorem mem_out_noteRead {id : Nat} (table : Nat) (e : Nat × Nat) (hid : id ∈ g.active) :
    e ∈ (g.noteRead id table).out ↔
      (e.1 = id ∧ e.2 ≠ id ∧ (table, e.2) ∈ g.writers) ∨ e ∈ g.out := by
  simp only [noteRead, hid, if_true, mem_union_iff, List.mem_map, mem_filter,
    decide_eq_true_eq]
  grind

/-- A write adds the edges from the table's other readers. -/
theorem mem_out_noteWrite {id : Nat} (table : Nat) (e : Nat × Nat) (hid : id ∈ g.active) :
    e ∈ (g.noteWrite id table).out ↔
      (e.2 = id ∧ e.1 ≠ id ∧ (table, e.1) ∈ g.readers) ∨ e ∈ g.out := by
  simp only [noteWrite, hid, if_true, mem_union_iff, List.mem_map, mem_filter,
    decide_eq_true_eq]
  grind

end Ssi

end ChibiDb
