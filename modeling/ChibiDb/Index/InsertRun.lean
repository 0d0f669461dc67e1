import ChibiDb.Index.Insert

/-!
# Runs of an Insert

What the programs of an insert do to the file, case by case.

## Main definitions

* `IndexFile.split`: A node replaced by its halves, the right one at a new page.

## Theorems

* `run_insertDescend_leaf`, `run_insertDescend_internal`: One level of the descent.
* `run_splitChild_leaf`, `run_splitChild_internal`: The split of a child.
* `run_splitRoot_leaf`, `run_splitRoot_internal`: The split of the root.
* `run_insert`, `run_insertLoop_empty`, `run_insertLoop_full`, `run_insertLoop_descend`: The
  retry loop.
-/

namespace ChibiDb

namespace IndexFile

variable {κ : Type}
variable {child : Nat} {left right : IndexNode κ}

/-- The file after a split: the left half in place, the right half at the first new page. -/
def split (f : IndexFile κ) (child : Nat) (left right : IndexNode κ) : IndexFile κ :=
  (f.grow.setPage child left).setPage f.count right

variable (f : IndexFile κ) (child : Nat) (left right : IndexNode κ)

@[simp] theorem split_count : (f.split child left right).count = f.count + 1 := rfl

theorem split_pages (q : Nat) :
    (f.split child left right).pages q =
      if q = f.count then right else if q = child then left else f.pages q := by
  rw [split, setPage_pages, setPage_pages, grow_pages]
  by_cases h : q = f.count
  · rw [if_pos h, if_pos h]
  · rw [if_neg h, if_neg h, if_neg h]

theorem grow_pages_of_lt {q : Nat} (h : q < f.count) : f.grow.pages q = f.pages q := by
  rw [grow_pages, if_neg (by omega)]

end IndexFile

namespace IndexTree

open IndexProg

variable {κ : Type} [LinearOrder κ] {len : κ → Nat} {f : IndexFile κ} {k : κ}

variable {es : List (κ × Nat)} {first fuel maxKey newNo next p prev root : Nat} {high : Option κ}
  {sep : κ} {f₁ : IndexFile κ} {nd : IndexNode κ}

omit [LinearOrder κ] in
theorem run_insertSeparator {parent i : Nat}
    (hnd : f.pages parent = .internal first es next high)
    (hslot : separatorSlot first es child = some i)
    (hfit : (IndexNode.internal first (es.insertIdx i (sep, newNo)) next high).bytesUsed len
      ≤ pageSize) :
    (insertSeparator len parent child sep newNo).run f =
      some (.ok (), f.setPage parent
        (.internal first (es.insertIdx i (sep, newNo)) next high)) := by
  rw [insertSeparator, run_bind, run_get, andThen_ok, hnd]
  simp only [hslot, if_pos hfit]
  rfl

omit [LinearOrder κ] in
/-- A new page is allocated and an old one is read and changed under its latch. -/
theorem run_allocated {α β : Type} (g : Nat → IndexNode κ → IndexProg κ α)
    (cont : Nat → α → IndexProg κ β) (hlt : p < f.count) (hnd : f.pages p = nd) :
    (do
      let newNo ← (IndexProg.alloc ret : IndexProg κ Nat)
      let a ← withPage p do
        g newNo (← get p ret)
      cont newNo a : IndexProg κ β).run f = ((g f.count nd).run f.grow).andThen (cont f.count) := by
  rw [run_bind, run_alloc, andThen_ok, run_bind, run_withPage, run_bind, run_get, andThen_ok,
    f.grow_pages_of_lt hlt, hnd]

theorem run_splitChild_leaf (parent : Nat) {es : List κ}
    (hlt : child < f.count) (hc : f.pages child = .leaf es prev next high)
    (hsplit : splitLeaf len child f.count (insertEntry es k) prev next high =
      some (sep, left, right)) :
    (splitChild len parent child k).run f =
      ((insertSeparator len parent child sep f.count).run (f.split child left right)).andThen
        (fun _ => pure (if k < sep then child else f.count, true)) := by
  refine (run_allocated _ _ hlt hc).trans ?_
  simp only [hsplit]
  exact run_bind _ _ _

theorem run_splitChild_internal (k : κ) (parent : Nat)
    (hlt : child < f.count) (hc : f.pages child = .internal first es next high)
    (hsplit : splitInternal len f.count first es next high = some (sep, left, right)) :
    (splitChild len parent child k).run f =
      ((insertSeparator len parent child sep f.count).run (f.split child left right)).andThen
        (fun _ => pure (if k < sep then child else f.count, false)) := by
  refine (run_allocated _ _ hlt hc).trans ?_
  simp only [hsplit]
  exact run_bind _ _ _

theorem run_insertDescend_leaf {es : List κ} (hnd : f.pages p = .leaf es prev next high)
    (hpast : pastHigh high k = false) (hfull : ¬ (f.pages p).full len maxKey k) :
    (insertDescend len maxKey k (fuel + 1) p).run f =
      some (.ok false, f.setPage p (.leaf (insertEntry es k) prev next high)) := by
  rw [insertDescend, run_withPage, run_bind, run_get, andThen_ok]
  rw [hnd] at hfull ⊢
  simp only [IndexNode.high, hpast, Bool.false_eq_true, if_false, hfull]
  rfl

theorem run_insertDescend_internal (hnd : f.pages p = .internal first es next high)
    (hpast : pastHigh high k = false) (hfull : ¬ (f.pages p).full len maxKey k) :
    (insertDescend len maxKey k (fuel + 1) p).run f =
      if (f.pages (childFor first es k)).full len maxKey k then
        ((splitChild len p (childFor first es k) k).run f).andThen (fun r =>
          if r.2 = true then pure false else insertDescend len maxKey k fuel r.1)
      else (insertDescend len maxKey k fuel (childFor first es k)).run f := by
  rw [insertDescend, run_withPage, run_bind, run_get, andThen_ok]
  rw [hnd] at hfull ⊢
  simp only [IndexNode.high, hpast, Bool.false_eq_true, if_false, hfull]
  rw [run_bind, run_readPage, andThen_ok]
  split
  · rw [run_bind]
  · rfl

/-- The new root above the two halves of the old one. -/
def rootAbove (root : Nat) (sep : κ) (newNo : Nat) : IndexNode κ :=
  .internal root [(sep, newNo)] 0 none

/-- The file with a new root page, before the header names it. -/
def withRoot (f : IndexFile κ) (image : IndexNode κ) : IndexFile κ :=
  f.grow.setPage f.count image

omit [LinearOrder κ] in
theorem run_newRoot (hfit : (rootAbove root sep newNo).bytesUsed len ≤ pageSize) :
    (do
      let newRoot ← (IndexProg.alloc ret : IndexProg κ Nat)
      withPage newRoot do
        put newRoot (.internal root [] 0 none) (ret ())
        match buildInternal len root [(sep, newNo)] 0 none with
        | none => fail "page full"
        | some image => put newRoot image (ret ())
      return newRoot : IndexProg κ Nat).run f =
      some (.ok f.count, withRoot f (rootAbove root sep newNo)) := by
  have hbuild : buildInternal len root [(sep, newNo)] 0 none =
      some (rootAbove root sep newNo) := if_pos hfit
  rw [run_bind, run_alloc, andThen_ok, run_bind, run_withPage, hbuild]
  show some (Except.ok f.count, (f.grow.setPage f.count _).setPage f.count _) = _
  rw [IndexFile.setPage, IndexFile.setPage, withRoot, IndexFile.setPage]
  simp

omit [LinearOrder κ] in
theorem run_splitRoot_leaf {es : List κ} (hlt : root < f.count)
    (hr : f.pages root = .leaf es prev next high)
    (hsplit : splitLeaf len root f.count es 0 next high = some (sep, left, right))
    (hfit : (rootAbove root sep f.count).bytesUsed len ≤ pageSize) :
    (splitRoot len root).run f =
      some (.ok (f.count + 1),
        withRoot (f.split root left right) (rootAbove root sep f.count)) := by
  refine (run_allocated _ _ hlt hr).trans ?_
  simp only [hsplit]
  exact run_newRoot hfit

omit [LinearOrder κ] in
theorem run_splitRoot_internal (hlt : root < f.count)
    (hr : f.pages root = .internal first es next high)
    (hsplit : splitInternal len f.count first es next high = some (sep, left, right))
    (hfit : (rootAbove root sep f.count).bytesUsed len ≤ pageSize) :
    (splitRoot len root).run f =
      some (.ok (f.count + 1),
        withRoot (f.split root left right) (rootAbove root sep f.count)) := by
  refine (run_allocated _ _ hlt hr).trans ?_
  simp only [hsplit]
  exact run_newRoot hfit

/-- The file with a first, empty leaf as its root. -/
def withFirstLeaf (f : IndexFile κ) : IndexFile κ :=
  { f.grow.setPage f.count (.leaf [] 0 0 none) with root := f.count, firstLeaf := f.count }

/-- The file with another root. -/
def withRootNo (f : IndexFile κ) (no : Nat) : IndexFile κ := { f with root := no }

/-- The file that has noted the length of a key. -/
def withMaxKey (f : IndexFile κ) (n : Nat) : IndexFile κ :=
  if f.maxKey < n then { f with maxKey := n % 2 ^ 16 } else f

omit [LinearOrder κ] in
theorem withMaxKey_eq (f : IndexFile κ) (n : Nat) :
    ∃ m, withMaxKey f n = { f with maxKey := m } := by
  rw [withMaxKey]
  split
  · exact ⟨_, rfl⟩
  · exact ⟨f.maxKey, rfl⟩

theorem run_insert (fuel : Nat) :
    (insert len fuel k).run f = (insertLoop len k fuel).run (withMaxKey f (len k)) := by
  have hnote : (noteKeyLen (len k) : IndexProg κ Unit).run f =
      some (.ok (), withMaxKey f (len k)) := by
    rw [noteKeyLen, run_withPage]
    show (if f.maxKey < len k then setMaxKey (len k % 2 ^ 16) (ret ()) else ret ()).run f = _
    rw [withMaxKey]
    split
    · rfl
    · rfl
  rw [insert, run_bind, hnote, andThen_ok]

omit [LinearOrder κ] in
theorem run_maxKeyLen : (maxKeyLen : IndexProg κ Nat).run f = some (.ok f.maxKey, f) := rfl

omit [LinearOrder κ] in
theorem run_rootNo : (rootNo : IndexProg κ Nat).run f = some (.ok f.root, f) := rfl

/-- One round of the loop on a tree that is not empty. -/
theorem run_insertLoop_succ (fuel : Nat) (hroot : f.root ≠ 0) :
    (insertLoop len k (fuel + 1)).run f =
      if (f.pages f.root).full len f.maxKey k then
        ((growRoot len f.maxKey k).run f).andThen (fun _ => insertLoop len k fuel)
      else
        ((insertDescend len f.maxKey k fuel f.root).run f).andThen (fun again =>
          if again = true then insertLoop len k fuel else pure ()) := by
  rw [insertLoop, run_bind, run_maxKeyLen, andThen_ok, run_bind, run_rootNo, andThen_ok,
    if_neg hroot, run_bind, run_readPage, andThen_ok]
  split
  · rw [run_bind]
  · rw [run_bind]

theorem run_insertLoop_empty (fuel : Nat) (hroot : f.root = 0) :
    (insertLoop len k (fuel + 1)).run f = (insertLoop len k fuel).run (withFirstLeaf f) := by
  have hcreate : (createFirstLeaf : IndexProg κ Unit).run f = some (.ok (), withFirstLeaf f) := by
    rw [createFirstLeaf, run_withPage, run_bind, run_getRoot, andThen_ok]
    simp only [hroot, ne_eq, not_true_eq_false, if_false]
    rfl
  rw [insertLoop, run_bind, run_maxKeyLen, andThen_ok, run_bind, run_rootNo, andThen_ok,
    if_pos hroot, run_bind, hcreate, andThen_ok]

theorem run_insertLoop_full {no : Nat} (fuel : Nat) (hroot : f.root ≠ 0)
    (hfull : (f.pages f.root).full len f.maxKey k)
    (hsplit : (splitRoot len f.root).run f = some (.ok no, f₁)) :
    (insertLoop len k (fuel + 1)).run f = (insertLoop len k fuel).run (withRootNo f₁ no) := by
  have hgrow : (growRoot len f.maxKey k).run f = some (.ok (), withRootNo f₁ no) := by
    rw [growRoot, run_withPage, run_bind, run_getRoot, andThen_ok, run_bind, run_readPage,
      andThen_ok, if_pos hfull, run_bind, hsplit, andThen_ok]
    rfl
  rw [run_insertLoop_succ fuel hroot, if_pos hfull, hgrow, andThen_ok]

theorem run_insertLoop_descend {again : Bool} (hroot : f.root ≠ 0)
    (hfull : ¬ (f.pages f.root).full len f.maxKey k)
    (hdesc : (insertDescend len f.maxKey k fuel f.root).run f = some (.ok again, f₁)) :
    (insertLoop len k (fuel + 1)).run f =
      if again = true then (insertLoop len k fuel).run f₁ else some (.ok (), f₁) := by
  rw [run_insertLoop_succ fuel hroot, if_neg hfull, hdesc, andThen_ok]
  split
  · rfl
  · rfl

end IndexTree

end ChibiDb
