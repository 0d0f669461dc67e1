import ChibiDb.Core.Heap

/-!
# Index Pages

The pages of an index file, as `index::node` lays them out and reads them back. A
page is a leaf or an internal node; both have a link to the right sibling and an
optional high key, the exclusive upper bound of the node's keys.

The order of the entries and the length of an encoded key are all that the tree
uses of its keys, so the nodes are stated over any linearly ordered type with a
length. `IndexKey` is the instance of the engine: an encoded value and a row id.

A page is kept as the lists it stores, with the bytes it takes counted. A high key
of length zero is stored as no high key at all.

## Main definitions

* `IndexKey`: An encoded value with the row id that makes it unique.
* `IndexNode`: A leaf or an internal node.
* `IndexNode.bytesUsed`, `IndexNode.full`: The bytes of a node, and the pre-split test.
* `buildLeaf`, `buildInternal`: The image of a node, if it fits.
* `chooseLeafSplit`, `chooseInternalSplit`: Where a node is split.
* `splitLeaf`, `splitInternal`: The two halves and the separator between them.
-/

namespace ChibiDb

/-- A composite index key: the encoded value and the row id. -/
structure IndexKey where
  key : List UInt8
  rid : Rid
  deriving DecidableEq, Repr

/-- Composite keys compare by their bytes, then by page and slot. -/
def IndexKey.toTuple (k : IndexKey) : List Nat ×ₗ (Nat ×ₗ Nat) :=
  toLex (k.key.map UInt8.toNat, toLex (k.rid.pageNo, k.rid.slot))

theorem IndexKey.toTuple_injective : Function.Injective IndexKey.toTuple := by
  intro a b h
  cases a with
  | mk ka ra =>
    cases b with
    | mk kb rb =>
      cases ra
      cases rb
      simp only [toTuple, toLex_inj, Prod.mk.injEq] at h
      have hk : ka = kb := List.map_injective_iff.mpr (fun _ _ h => UInt8.toNat_inj.mp h) h.1
      rw [hk, h.2.1, h.2.2]

instance : LinearOrder IndexKey := LinearOrder.lift' IndexKey.toTuple IndexKey.toTuple_injective

/-- The length of the encoded value. -/
def IndexKey.len (k : IndexKey) : Nat := k.key.length

/-- A page of an index file. A page of zeros reads as an empty leaf. -/
inductive IndexNode (κ : Type) where
  | leaf (entries : List κ) (prev next : Nat) (high : Option κ)
  | internal (first : Nat) (entries : List (κ × Nat)) (next : Nat) (high : Option κ)
  deriving DecidableEq

/-- The bytes of an entry in a leaf. -/
def leafEntrySize (keyLen : Nat) : Nat := 2 + keyLen + 6

/-- The bytes of an entry in an internal node. -/
def internalEntrySize (keyLen : Nat) : Nat := 2 + keyLen + 6 + 4

variable {κ : Type} [LinearOrder κ] (len : κ → Nat)

/-- The bytes of a header with this high key. -/
def nodeHeaderLen (high : Option κ) : Nat :=
  match high with
  | none => 13
  | some h => if len h = 0 then 13 else 13 + len h + 6

/-- A high key as a page gives it back. -/
def storedHigh (high : Option κ) : Option κ := high.filter (fun h => len h ≠ 0)

namespace IndexNode

/-- A page of zeros. -/
def blank : IndexNode κ := .leaf [] 0 0 none

/-- The right sibling, or zero. -/
def next : IndexNode κ → Nat
  | .leaf _ _ n _ => n
  | .internal _ _ n _ => n

/-- The exclusive upper bound of the keys, if there is one. -/
def high : IndexNode κ → Option κ
  | .leaf _ _ _ h => h
  | .internal _ _ _ h => h

/-- The bytes of the entries of a node. -/
def bodyLen : IndexNode κ → Nat
  | .leaf es _ _ _ => (es.map (fun e => leafEntrySize (len e))).sum
  | .internal _ es _ _ => (es.map (fun e => internalEntrySize (len e.1))).sum

/-- The bytes of a node. -/
def bytesUsed (nd : IndexNode κ) : Nat := nodeHeaderLen len nd.high + nd.bodyLen len

/-- A leaf is full if the new entry does not fit, an internal node if a separator as
    long as the longest key so far does not. -/
def full (maxKey : Nat) (k : κ) (nd : IndexNode κ) : Prop :=
  match nd with
  | .leaf .. => pageSize < nd.bytesUsed len + leafEntrySize (len k)
  | .internal .. => pageSize < nd.bytesUsed len + internalEntrySize maxKey

instance (maxKey : Nat) (k : κ) (nd : IndexNode κ) : Decidable (nd.full len maxKey k) := by
  unfold full
  split <;> infer_instance

end IndexNode

/-- The child whose range covers a key: separators route keys not below them to the right. -/
def childFor (first : Nat) : List (κ × Nat) → κ → Nat
  | [], _ => first
  | (sep, c) :: rest, k => if k < sep then first else childFor c rest k

/-- The first position whose entry is not below `k`. -/
def leafLowerBound (es : List κ) (k : κ) : Nat := (es.takeWhile (fun e => e < k)).length

/-- The first position whose entry is above `k`. -/
def leafUpperBound (es : List κ) (k : κ) : Nat := (es.takeWhile (fun e => e ≤ k)).length

/-- The image of a leaf, or `none` if it does not fit. -/
def buildLeaf (entries : List κ) (prev next : Nat) (high : Option κ) : Option (IndexNode κ) :=
  let image := IndexNode.leaf entries prev next (storedHigh len high)
  if image.bytesUsed len ≤ pageSize then some image else none

/-- The image of an internal node, or `none` if it does not fit. -/
def buildInternal (first : Nat) (entries : List (κ × Nat)) (next : Nat) (high : Option κ) :
    Option (IndexNode κ) :=
  let image := IndexNode.internal first entries next (storedHigh len high)
  if image.bytesUsed len ≤ pageSize then some image else none

/-- One round of the search for a split point: a point whose halves both fit replaces
    the best one so far if it is more even. -/
def betterSplit (left right : Nat → Nat) (best : Option (Nat × Nat)) (m : Nat) :
    Option (Nat × Nat) :=
  if left m ≤ pageSize ∧ right m ≤ pageSize then
    let diff := (left m - right m) + (right m - left m)
    match best with
    | none => some (diff, m)
    | some (d, m') => if diff < d then some (diff, m) else some (d, m')
  else best

/-- The first of the most even split points among `1, …, n - 1`. -/
def chooseSplit (n : Nat) (left right : Nat → Nat) : Option Nat :=
  (((List.range n).tail.foldl (betterSplit left right) none).map Prod.snd)

/-- The bytes of the first `m` entries. -/
def prefixLen (sizes : List Nat) (m : Nat) : Nat := (sizes.take m).sum

/-- The split point of a leaf: the left half gets entry `m` as its high key, the right
    half keeps the old one. -/
def chooseLeafSplit (all : List κ) (high : Option κ) : Option Nat :=
  let sizes := all.map (fun e => leafEntrySize (len e))
  chooseSplit sizes.length
    (fun m => nodeHeaderLen len all[m]? + prefixLen sizes m)
    (fun m => nodeHeaderLen len high + (sizes.sum - prefixLen sizes m))

/-- The split point of an internal node: separator `m` moves up. -/
def chooseInternalSplit (keys : List κ) (high : Option κ) : Option Nat :=
  let sizes := keys.map (fun e => internalEntrySize (len e))
  chooseSplit sizes.length
    (fun m => nodeHeaderLen len keys[m]? + prefixLen sizes m)
    (fun m => nodeHeaderLen len high + (sizes.sum - prefixLen sizes (m + 1)))

/-- The separator and the two halves of a leaf that is split, the right half at page `newNo`. -/
def splitLeaf (self newNo : Nat) (all : List κ) (prev next : Nat) (high : Option κ) :
    Option (κ × IndexNode κ × IndexNode κ) := do
  let m ← chooseLeafSplit len all high
  let sep ← all[m]?
  let left ← buildLeaf len (all.take m) prev newNo (some sep)
  let right ← buildLeaf len (all.drop m) self next high
  return (sep, left, right)

/-- The separator and the two halves of an internal node that is split. -/
def splitInternal (newNo first : Nat) (entries : List (κ × Nat)) (next : Nat)
    (high : Option κ) : Option (κ × IndexNode κ × IndexNode κ) := do
  let m ← chooseInternalSplit len (entries.map Prod.fst) high
  let promoted ← entries[m]?
  let left ← buildInternal len first (entries.take m) newNo (some promoted.1)
  let right ← buildInternal len promoted.2 (entries.drop (m + 1)) next high
  return (promoted.1, left, right)

end ChibiDb
