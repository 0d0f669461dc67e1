import ChibiDb.Index.Node

/-!
# Programs over Index Pages

The operations of the tree as programs of page accesses. A program latches and
releases pages, reads and writes the pages it has latched, reads and writes the
fields of the header page, and allocates pages. Loops take fuel: a program that
runs out of it is `spent`.

`run` is the meaning of a program as a thread of its own whose accesses all succeed. A
program that fails leaves the pages as they are at that point; its latches are
released with it.

## Main definitions

* `IndexFile`: The header fields, the page count and the pages.
* `IndexProg`: A program over the pages.
* `IndexProg.run`: Its run.
* `readPage`, `withPage`: Access to one page.
-/

namespace ChibiDb

open Function

/-- An index file: root, first leaf and longest key length are fields of page 0. -/
structure IndexFile (κ : Type) where
  root : Nat
  firstLeaf : Nat
  maxKey : Nat
  /-- The pages of the file, page 0 included. -/
  count : Nat
  pages : Nat → IndexNode κ

namespace IndexFile

variable {κ : Type}

/-- A fresh file: an empty tree. -/
def init : IndexFile κ where
  root := 0
  firstLeaf := 0
  maxKey := 0
  count := 1
  pages := fun _ => .blank

/-- Replace one page. -/
def setPage (f : IndexFile κ) (p : Nat) (nd : IndexNode κ) : IndexFile κ :=
  { f with pages := update f.pages p nd }

/-- Add a page at the end. Page numbers are natural numbers; `alloc_page` casts them to 32 bits, so
    this is a file of at most `2 ^ 32` pages. -/
def grow (f : IndexFile κ) : IndexFile κ :=
  { f with count := f.count + 1, pages := update f.pages f.count .blank }

variable (f : IndexFile κ) (p : Nat) (nd : IndexNode κ)

theorem setPage_pages (q : Nat) :
    (f.setPage p nd).pages q = if q = p then nd else f.pages q :=
  update_apply ..

theorem grow_pages (q : Nat) :
    f.grow.pages q = if q = f.count then .blank else f.pages q :=
  update_apply ..

end IndexFile

/-- A program over the pages of an index file. -/
inductive IndexProg (κ α : Type) : Type where
  | ret (a : α)
  | fail (e : String)
  | spent
  | latch (p : Nat) (next : IndexProg κ α)
  | unlatch (p : Nat) (next : IndexProg κ α)
  | get (p : Nat) (next : IndexNode κ → IndexProg κ α)
  | put (p : Nat) (nd : IndexNode κ) (next : IndexProg κ α)
  | getRoot (next : Nat → IndexProg κ α)
  | setRoot (no : Nat) (next : IndexProg κ α)
  | getFirstLeaf (next : Nat → IndexProg κ α)
  | setFirstLeaf (no : Nat) (next : IndexProg κ α)
  | getMaxKey (next : Nat → IndexProg κ α)
  | setMaxKey (n : Nat) (next : IndexProg κ α)
  | alloc (next : Nat → IndexProg κ α)

namespace IndexProg

variable {κ α β : Type}

/-- One program after the other. -/
def bind : IndexProg κ α → (α → IndexProg κ β) → IndexProg κ β
  | ret a, g => g a
  | fail e, _ => fail e
  | spent, _ => spent
  | latch p x, g => latch p (x.bind g)
  | unlatch p x, g => unlatch p (x.bind g)
  | get p x, g => get p (fun nd => (x nd).bind g)
  | put p nd x, g => put p nd (x.bind g)
  | getRoot x, g => getRoot (fun no => (x no).bind g)
  | setRoot no x, g => setRoot no (x.bind g)
  | getFirstLeaf x, g => getFirstLeaf (fun no => (x no).bind g)
  | setFirstLeaf no x, g => setFirstLeaf no (x.bind g)
  | getMaxKey x, g => getMaxKey (fun n => (x n).bind g)
  | setMaxKey n x, g => setMaxKey n (x.bind g)
  | alloc x, g => alloc (fun no => (x no).bind g)

instance : Monad (IndexProg κ) where
  pure := ret
  bind := bind

/-- How a run ends: its value or its error, with the file it leaves; `none` when the
    fuel ran out. -/
abbrev Outcome (κ α : Type) : Type := Option (Except String α × IndexFile κ)

/-- The run of a thread of its own. -/
def run : IndexProg κ α → IndexFile κ → Outcome κ α
  | ret a, f => some (.ok a, f)
  | fail e, f => some (.error e, f)
  | spent, _ => none
  | latch _ x, f => x.run f
  | unlatch _ x, f => x.run f
  | get p x, f => (x (f.pages p)).run f
  | put p nd x, f => x.run (f.setPage p nd)
  | getRoot x, f => (x f.root).run f
  | setRoot no x, f => x.run { f with root := no }
  | getFirstLeaf x, f => (x f.firstLeaf).run f
  | setFirstLeaf no x, f => x.run { f with firstLeaf := no }
  | getMaxKey x, f => (x f.maxKey).run f
  | setMaxKey n x, f => x.run { f with maxKey := n }
  | alloc x, f => (x f.count).run f.grow

/-- The page handed to a closure: latched before, released after. -/
def withPage (p : Nat) (body : IndexProg κ α) : IndexProg κ α :=
  latch p (body.bind (fun a => unlatch p (ret a)))

/-- Read a page under its latch. -/
def readPage (p : Nat) : IndexProg κ (IndexNode κ) := withPage p (get p ret)

/-- Replace a page by a finished image. -/
def writeImage (p : Nat) (image : IndexNode κ) : IndexProg κ Unit :=
  withPage p (put p image (ret ()))

/-- The outcome of a run continued by another program. -/
def Outcome.andThen (o : Outcome κ α) (g : α → IndexProg κ β) : Outcome κ β :=
  match o with
  | none => none
  | some (.error e, f) => some (.error e, f)
  | some (.ok a, f) => (g a).run f

theorem run_bind (x : IndexProg κ α) (g : α → IndexProg κ β) (f : IndexFile κ) :
    (x >>= g).run f = (x.run f).andThen g := by
  induction x generalizing f with
  | ret | fail | spent => rfl
  | latch p x ih | unlatch p x ih | put p nd x ih | setRoot no x ih | setFirstLeaf no x ih
  | setMaxKey n x ih => exact ih _
  | get p x ih | getRoot x ih | getFirstLeaf x ih | getMaxKey x ih | alloc x ih => exact ih _ _

@[simp] theorem run_pure (a : α) (f : IndexFile κ) :
    (pure a : IndexProg κ α).run f = some (.ok a, f) := rfl

@[simp] theorem andThen_ok (a : α) (f : IndexFile κ) (g : α → IndexProg κ β) :
    Outcome.andThen (some (.ok a, f)) g = (g a).run f := rfl

theorem run_get (p : Nat) (f : IndexFile κ) :
    (get p ret : IndexProg κ _).run f = some (.ok (f.pages p), f) := rfl

theorem run_getRoot (f : IndexFile κ) :
    (getRoot ret : IndexProg κ Nat).run f = some (.ok f.root, f) := rfl

theorem run_alloc (f : IndexFile κ) :
    (alloc ret : IndexProg κ Nat).run f = some (.ok f.count, f.grow) := rfl

@[simp] theorem run_readPage (p : Nat) (f : IndexFile κ) :
    (readPage p : IndexProg κ _).run f = some (.ok (f.pages p), f) := rfl

@[simp] theorem run_withPage (p : Nat) (body : IndexProg κ α) (f : IndexFile κ) :
    (withPage p body).run f = body.run f := by
  show (body >>= fun a => unlatch p (ret a)).run f = _
  rw [run_bind]
  match body.run f with
  | none => rfl
  | some (.error e, f') => rfl
  | some (.ok a, f') => rfl

end IndexProg

end ChibiDb
