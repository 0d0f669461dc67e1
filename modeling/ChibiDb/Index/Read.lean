import ChibiDb.Index.Insert

/-!
# Reading an Index

`BTree::descend`, `search`, `scan_range` and the leaf cursor. Every read of a page is
an access of its own: a descent reads the bounds of a node and then, again, its child;
a range scan reads the position of its start and then, again, the entries.

## Main definitions

* `descend`: The leaf for a key, going right past high keys.
* `search`: The row ids of one key.
* `Bound`, `scanRange`: The entries between two bounds.
* `LeafCursor`, `nextEntry`, `enumerate`: The forward cursor over the leaves.
-/

namespace ChibiDb.IndexTree

open IndexProg

section Generic

variable {κ : Type} [LinearOrder κ]

/-- Descend to the leaf that should hold a key. -/
def descend (k : κ) : Nat → Nat → IndexProg κ Nat
  | 0, _ => spent
  | fuel + 1, p => do
      let nd ← readPage p
      if pastHigh nd.high k then
        if nd.next = 0 then fail unlinked else descend k fuel nd.next
      else
        match nd with
        | .leaf .. => return p
        | .internal .. =>
          match ← readPage p with
          | .leaf .. => fail "corrupt index page"
          | .internal first entries _ _ => descend k fuel (childFor first entries k)

/-- The entries that a range scan takes from a leaf, and whether it went past the end. -/
def scanLeaf (after past : κ → Bool) : List κ → List κ × Bool
  | [] => ([], false)
  | e :: es =>
    if !after e then scanLeaf after past es
    else if past e then ([], true)
    else
      let rest := scanLeaf after past es
      (e :: rest.1, rest.2)

/-- Walk the leaf chain from a position. -/
def scanLoop (after past : κ → Bool) : Nat → Nat → Nat → IndexProg κ (List κ)
  | 0, _, _ => spent
  | fuel + 1, p, pos => do
      match ← readPage p with
      | .internal .. => fail "corrupt index page"
      | .leaf es _ next _ =>
        let taken := scanLeaf after past (es.drop pos)
        if taken.2 ∨ next = 0 then return taken.1
        else
          let rest ← scanLoop after past fuel next 0
          return taken.1 ++ rest

/-- Walk the leaf chain from the first entry not below `k`, as long as the entries are
    of the same key. -/
def searchLoop (k : κ) (same : κ → Bool) : Nat → Nat → IndexProg κ (List κ)
  | 0, _ => spent
  | fuel + 1, p => do
      match ← readPage p with
      | .internal .. => fail "corrupt index page"
      | .leaf es _ next _ =>
        let taken := scanLeaf (fun _ => true) (fun e => !same e) (es.drop (leafLowerBound es k))
        if taken.2 ∨ next = 0 then return taken.1
        else
          let rest ← searchLoop k same fuel next
          return taken.1 ++ rest

/-- A place in the chain of leaves. -/
structure LeafCursor where
  leaf : Nat
  pos : Nat
  deriving DecidableEq, Repr

/-- A cursor in front of the first entry. -/
def leafCursor : IndexProg κ LeafCursor := do
  let first ← firstLeafNo
  return { leaf := first, pos := 0 }

/-- The next entry, or `none` at the end of the tree. -/
def nextEntry : Nat → LeafCursor → IndexProg κ (Option κ × LeafCursor)
  | 0, _ => spent
  | fuel + 1, cur => do
      if cur.leaf = 0 then return (none, cur)
      else
        match ← readPage cur.leaf with
        | .internal .. => fail "corrupt index page"
        | .leaf es _ _ _ =>
          match es[cur.pos]? with
          | some e => return (some e, { cur with pos := cur.pos + 1 })
          | none =>
            let nd ← readPage cur.leaf
            nextEntry fuel { leaf := nd.next, pos := 0 }

/-- Every entry that a cursor yields. -/
def enumerate : Nat → LeafCursor → IndexProg κ (List κ)
  | 0, _ => spent
  | fuel + 1, cur => do
      match ← nextEntry fuel cur with
      | (none, _) => return []
      | (some e, cur') =>
        let rest ← enumerate fuel cur'
        return e :: rest

end Generic

/-- One end of a range of encoded keys. -/
inductive Bound where
  | included (key : List UInt8)
  | excluded (key : List UInt8)
  | unbounded
  deriving DecidableEq, Repr

/-- Encoded keys compare byte by byte. -/
def keyLt (a b : List UInt8) : Bool := decide (a.map UInt8.toNat < b.map UInt8.toNat)

/-- The first composite key of an encoded key. -/
def lowest (key : List UInt8) : IndexKey := ⟨key, ⟨0, 0⟩⟩

/-- The last composite key of an encoded key. -/
def highest (key : List UInt8) : IndexKey := ⟨key, ⟨2 ^ 32 - 1, 2 ^ 16 - 1⟩⟩

/-- Whether an entry is behind the start of a range. -/
def afterStart (start : Bound) (e : IndexKey) : Bool :=
  match start with
  | .unbounded => true
  | .included s => !keyLt e.key s
  | .excluded s => keyLt s e.key

/-- Whether an entry is past the end of a range. -/
def pastEnd (stop : Bound) (e : IndexKey) : Bool :=
  match stop with
  | .unbounded => false
  | .included s => keyLt s e.key
  | .excluded s => !keyLt e.key s

/-- The row ids of a key. -/
def search (fuel : Nat) (key : List UInt8) : IndexProg IndexKey (List Rid) := do
  let root ← rootNo
  if root = 0 then return []
  else
    let leaf ← descend (lowest key) fuel root
    let found ← searchLoop (lowest key) (fun e => e.key = key) fuel leaf
    return found.map IndexKey.rid

/-- The position of the first entry of a leaf that `bound` finds. -/
def leafPosition (p : Nat) (bound : List IndexKey → Nat) : IndexProg IndexKey Nat := do
  match ← readPage p with
  | .internal .. => fail "corrupt index page"
  | .leaf es _ _ _ => return bound es

/-- The entries between two bounds. -/
def scanRange (fuel : Nat) (start stop : Bound) : IndexProg IndexKey (List IndexKey) := do
  let root ← rootNo
  if root = 0 then return []
  else
    match start with
    | .unbounded =>
      let first ← firstLeafNo
      if first = 0 then return []
      else scanLoop (afterStart start) (pastEnd stop) fuel first 0
    | .included key =>
      let leaf ← descend (lowest key) fuel root
      let pos ← leafPosition leaf (fun es => leafLowerBound es (lowest key))
      scanLoop (afterStart start) (pastEnd stop) fuel leaf pos
    | .excluded key =>
      let leaf ← descend (highest key) fuel root
      let pos ← leafPosition leaf (fun es => leafUpperBound es (highest key))
      scanLoop (afterStart start) (pastEnd stop) fuel leaf pos

end ChibiDb.IndexTree
