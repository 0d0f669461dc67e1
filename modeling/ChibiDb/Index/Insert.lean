import ChibiDb.Index.Prog

/-!
# Insertion into an Index

`BTree::insert` with its helpers. The descent is top-down with pre-splitting: a child
that could not take one more entry is split before it is entered, so no split
propagates upward. Whenever a node turns out to be bounded at or below the key, or to
have no room, the insert starts over from the root.

## Main definitions

* `splitRoot`: Two halves of the root under a new root.
* `splitChild`: Two halves of a child, with the separator put into its parent.
* `insertDescend`: The descent; `true` asks for a restart.
* `insertLoop`, `insert`: The retry loop.
-/

namespace ChibiDb.IndexTree

open IndexProg

variable {κ : Type} [LinearOrder κ] (len : κ → Nat)

/-- Whether a key is at or past a node's high key. -/
def pastHigh (high : Option κ) (k : κ) : Bool := high.any (fun h => decide (h ≤ k))

/-- The entries of a leaf with one more, at its lower bound. -/
def insertEntry (es : List κ) (k : κ) : List κ := es.insertIdx (leafLowerBound es k) k

/-- Record the longest key. The field has 16 bits. -/
def noteKeyLen (n : Nat) : IndexProg κ Unit :=
  withPage 0 (getMaxKey fun m => if m < n then setMaxKey (n % 2 ^ 16) (ret ()) else ret ())

/-- The longest key the file has seen. -/
def maxKeyLen : IndexProg κ Nat := withPage 0 (getMaxKey ret)

/-- The page of the root. -/
def rootNo : IndexProg κ Nat := withPage 0 (getRoot ret)

/-- The page of the first leaf. -/
def firstLeafNo : IndexProg κ Nat := withPage 0 (getFirstLeaf ret)

/-- Create the first leaf under the latch of the header page. -/
def createFirstLeaf : IndexProg κ Unit :=
  withPage 0 do
    let root ← getRoot ret
    if root ≠ 0 then return ()
    let no ← alloc ret
    withPage no (put no (.leaf [] 0 0 none) (ret ()))
    setRoot no (setFirstLeaf no (ret ()))

/-- The message of a node without a split point. -/
def tooLargeToSplit : String := "index entry too large to split"

/-- Overwrite a node with its left half and write the right half to the new page. -/
def writeHalves (self newNo : Nat) (halves : Option (κ × IndexNode κ × IndexNode κ)) :
    IndexProg κ κ :=
  match halves with
  | none => fail tooLargeToSplit
  | some (sep, left, right) => do
      put self left (ret ())
      writeImage newNo right
      return sep

/-- Split the root; returns the new root. -/
def splitRoot (root : Nat) : IndexProg κ Nat := do
  let newNo ← alloc ret
  let sep ← withPage root do
    match ← get root ret with
    | .leaf es _ next high => writeHalves root newNo (splitLeaf len root newNo es 0 next high)
    | .internal first entries next high =>
      writeHalves root newNo (splitInternal len newNo first entries next high)
  let newRoot ← alloc ret
  withPage newRoot do
    put newRoot (.internal root [] 0 none) (ret ())
    match buildInternal len root [(sep, newNo)] 0 none with
    | none => fail "page full"
    | some image => put newRoot image (ret ())
  return newRoot

/-- The position behind a child among the separators of its parent. -/
def separatorSlot (first : Nat) (entries : List (κ × Nat)) (child : Nat) : Option Nat :=
  if child = first then some 0
  else (entries.findIdx? (fun e => e.2 = child)).map (· + 1)

/-- Put the separator of a new page behind the child it was split from. -/
def insertSeparator (parent child : Nat) (sep : κ) (newNo : Nat) : IndexProg κ Unit := do
  match ← get parent ret with
  | .leaf .. => fail "corrupt index page"
  | .internal first entries next high =>
    match separatorSlot first entries child with
    | none => fail "corrupt index: child not found"
    | some i =>
      let image := IndexNode.internal first (entries.insertIdx i (sep, newNo)) next high
      if image.bytesUsed len ≤ pageSize then put parent image (ret ()) else fail "page full"

/-- Split a child of the latched node `parent`. Returns the half to descend into and
    whether the new entry is already placed. -/
def splitChild (parent child : Nat) (k : κ) : IndexProg κ (Nat × Bool) := do
  let newNo ← alloc ret
  let (sep, placed) ← withPage child do
    match ← get child ret with
    | .leaf es prev next high => do
        let sep ← writeHalves child newNo
          (splitLeaf len child newNo (insertEntry es k) prev next high)
        return (sep, true)
    | .internal first entries next high => do
        let sep ← writeHalves child newNo (splitInternal len newNo first entries next high)
        return (sep, false)
  insertSeparator len parent child sep newNo
  return (if k < sep then child else newNo, placed)

/-- The message of a bounded node that has no right sibling. -/
def unlinked : String := "corrupt index: bounded node without a right link"

/-- Descend from a page and insert. `true` asks for a restart from the root. -/
def insertDescend (maxKey : Nat) (k : κ) : Nat → Nat → IndexProg κ Bool
  | 0, _ => spent
  | fuel + 1, p => withPage p do
      let nd ← get p ret
      if pastHigh nd.high k then
        if nd.next = 0 then fail unlinked else return true
      else if nd.full len maxKey k then return true
      else
        match nd with
        | .leaf es prev next high =>
          put p (.leaf (insertEntry es k) prev next high) (ret false)
        | .internal first entries _ _ =>
          let child := childFor first entries k
          let c ← readPage child
          if c.full len maxKey k then
            let (half, placed) ← splitChild len p child k
            if placed then return false else insertDescend maxKey k fuel half
          else insertDescend maxKey k fuel child

/-- Split the root under the latch of the header page, if it is still full. -/
def growRoot (maxKey : Nat) (k : κ) : IndexProg κ Unit :=
  withPage 0 do
    let cur ← getRoot ret
    let nd ← readPage cur
    if nd.full len maxKey k then
      let newRoot ← splitRoot len cur
      setRoot newRoot (ret ())
    else return ()

/-- Make or split the root until a descent from it places the key. -/
def insertLoop (k : κ) : Nat → IndexProg κ Unit
  | 0 => spent
  | fuel + 1 => do
      let maxKey ← maxKeyLen
      let root ← rootNo
      if root = 0 then
        createFirstLeaf
        insertLoop k fuel
      else
        let nd ← readPage root
        if nd.full len maxKey k then
          growRoot len maxKey k
          insertLoop k fuel
        else
          let again ← insertDescend len maxKey k fuel root
          if again then insertLoop k fuel else return ()

/-- Insert a key: note its length, then find its leaf. -/
def insert (fuel : Nat) (k : κ) : IndexProg κ Unit := do
  noteKeyLen (len k)
  insertLoop len k fuel

end ChibiDb.IndexTree
