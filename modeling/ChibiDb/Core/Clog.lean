import Mathlib.Tactic

/-!
# Commit Status

Did a transaction commit? The engine answers from a bitmap over transaction ids
counted from the vacuum horizon `base`; below the horizon every id counts as
committed, and id 0, the read-only sentinel, never does.

`CommitStatus` is that bitmap as it is stored: 64-bit words, grown a chunk at a
time. `Clog` is what it stands for, a horizon and a set of ids, and is what the
models of the database hold. `Refines` ties the two together, operation by
operation.

## Main definitions

* `CommitStatus`: The bitmap, with `markCommitted`, `isCommitted`, `ids` and
  `advanceBase`.
* `Clog`: The horizon and the ids marked at or above it.
* `Refines`: A bitmap holds what a `Clog` says.

## Theorems

* `refines_markCommitted`, `refines_advanceBase`: The operations keep `Refines`.
* `isCommitted_of_refines`: Both levels answer alike.
* `Clog.isCommitted_mark`, `Clog.isCommitted_advanceBase`: What each operation
  changes in the answers.
-/

namespace ChibiDb

open List
open Option hiding or_assoc or_self

/-- The bits of a word. -/
def clogBits : Nat := 64

/-- Words added per growth step. -/
def wordsPerChunk : Nat := 1024

/-- The commit-status bitmap: bit `(xid - base) % 64` of word
    `(xid - base) / 64` says that `xid` committed. -/
structure CommitStatus where
  base : Nat
  words : List (BitVec 64)
  deriving DecidableEq, Repr

variable {c : CommitStatus}

namespace CommitStatus

/-- A bitmap with no word and horizon 0. -/
def new : CommitStatus := ⟨0, []⟩

/-- The words after growing to hold word `word`, a chunk at a time. -/
def grow (words : List (BitVec 64)) (word : Nat) : List (BitVec 64) :=
  if words.length ≤ word then
    let chunk := (word / wordsPerChunk + 1) * wordsPerChunk
    words ++ replicate (chunk - words.length) 0
  else words

/-- Set the bit of index `idx` in the word that holds it. -/
def orBit (words : List (BitVec 64)) (idx : Nat) : List (BitVec 64) :=
  words.modify (idx / clogBits) (fun w => w ||| BitVec.twoPow 64 (idx % clogBits))

/-- Set the bit of `xid`, growing the words as needed. -/
def setBit (c : CommitStatus) (xid : Nat) : CommitStatus :=
  let idx := xid - c.base
  { c with words := orBit (grow c.words (idx / clogBits)) idx }

/-- Record that `xid` committed. A frozen id is left alone. -/
def markCommitted (c : CommitStatus) (xid : Nat) : CommitStatus :=
  if xid < c.base then c
  else
    let idx := xid - c.base
    if idx / clogBits < c.words.length then
      { c with words := orBit c.words idx }
    else c.setBit xid

/-- Whether an id counts as committed: below the base, or with its bit set. -/
def isCommitted (c : CommitStatus) (xid : Nat) : Bool :=
  if xid = 0 then false
  else if xid < c.base then true
  else
    let idx := xid - c.base
    match c.words[idx / clogBits]? with
    | some w => w &&& BitVec.twoPow 64 (idx % clogBits) != 0
    | none => false

/-- The bits set in a word, ascending. -/
def wordIds (w : BitVec 64) : List Nat := (range clogBits).filter (fun b => w.getLsbD b)

/-- Every committed id at or above the horizon, ascending. -/
def ids (c : CommitStatus) : List Nat :=
  (range c.words.length).flatMap (fun i =>
    (wordIds (c.words.getD i 0)).map (fun b => c.base + (i * clogBits + b)))

/-- Advance the horizon, dropping the bits below it. -/
def advanceBase (c : CommitStatus) (newBase : Nat) : CommitStatus :=
  if newBase ≤ c.base then c
  else (c.ids.filter (fun xid => newBase ≤ xid)).foldl setBit ⟨newBase, []⟩

/-- The bit of an id is set. -/
def Bit (c : CommitStatus) (xid : Nat) : Prop :=
  c.base ≤ xid ∧
    (c.words.getD ((xid - c.base) / clogBits) 0).getLsbD ((xid - c.base) % clogBits) = true

/-- Growing the words changes no bit. -/
theorem getD_grow (words : List (BitVec 64)) (word i : Nat) :
    (grow words word).getD i 0 = words.getD i 0 := by
  unfold grow
  split
  · simp only [getD_eq_getElem?_getD, getElem?_append, getElem?_replicate]
    by_cases hi : i < words.length
    · rw [if_pos hi]
    · rw [if_neg hi, getElem?_eq_none (by omega)]
      split <;> rfl
  · rfl

/-- The word asked for exists once the words have grown. -/
theorem lt_length_grow (words : List (BitVec 64)) (word : Nat) :
    word < (grow words word).length := by
  unfold grow
  split
  case isTrue h =>
    have hdiv : word < (word / wordsPerChunk + 1) * wordsPerChunk :=
      Nat.lt_mul_of_div_lt (Nat.lt_succ_self _) (by decide)
    simp only [length_append, length_replicate]
    omega
  case isFalse h => omega

variable {n x : Nat}

theorem getD_modify {words : List (BitVec 64)} (i : Nat) (f : BitVec 64 → BitVec 64)
    (hn : n < words.length) :
    (words.modify n f).getD i 0 = if i = n then f (words.getD i 0) else words.getD i 0 := by
  by_cases hi : n = i
  · subst hi
    simp [getElem?_eq_getElem hn]
  · simp [hi, if_neg (fun h => hi (Eq.symm h))]

theorem getLsbD_or_twoPow (w : BitVec 64) (b : Nat) (hn : n < 64) :
    (w ||| BitVec.twoPow 64 n).getLsbD b = (w.getLsbD b || decide (b = n)) := by
  rw [BitVec.getLsbD_or, BitVec.getLsbD_twoPow]
  by_cases h : n = b
  · subst h
    simp [hn]
  · simp [h, Ne.symm h]

/-- Setting one bit changes one bit. -/
theorem bit_setBit (y : Nat) (hx : c.base ≤ x) : (c.setBit x).Bit y ↔ c.Bit y ∨ y = x := by
  have hmod : (x - c.base) % clogBits < 64 := Nat.mod_lt _ (by decide)
  simp only [Bit, setBit, orBit, getD_modify _ _ (lt_length_grow c.words _), getD_grow]
  by_cases hw : (y - c.base) / clogBits = (x - c.base) / clogBits
  · rw [if_pos hw, getLsbD_or_twoPow _ _ hmod, Bool.or_eq_true, decide_eq_true_eq]
    constructor
    · rintro ⟨hy, hbit | hbit⟩
      · exact .inl ⟨hy, hbit⟩
      right
      have h1 := Nat.div_add_mod (y - c.base) clogBits
      have h2 := Nat.div_add_mod (x - c.base) clogBits
      rw [hw, hbit] at h1
      omega
    · rintro (⟨hy, hbit⟩ | rfl)
      · exact ⟨hy, .inl hbit⟩
      · exact ⟨hx, .inr rfl⟩
  · rw [if_neg hw]
    exact (or_iff_left (fun h => hw (by rw [h]))).symm

/-- When the words need not grow, setting the bit in place is the same. -/
theorem markCommitted_of_le (hx : c.base ≤ x) : c.markCommitted x = c.setBit x := by
  unfold markCommitted
  rw [if_neg (by omega)]
  simp only []
  split
  case isTrue h =>
    simp only [setBit, grow, if_neg (Nat.not_le.mpr h)]
  case isFalse h => rfl

/-- The ids read off the words are those whose bit is set. -/
theorem mem_ids_iff (c : CommitStatus) (x : Nat) : x ∈ c.ids ↔ c.Bit x := by
  simp only [ids, wordIds, mem_flatMap, mem_range, List.mem_map, mem_filter]
  constructor
  · rintro ⟨i, _, b, ⟨hb, hbit⟩, rfl⟩
    have hidx : c.base + (i * clogBits + b) - c.base = i * clogBits + b := by omega
    have hdiv : (i * clogBits + b) / clogBits = i := by
      rw [Nat.mul_comm, Nat.mul_add_div (by decide), Nat.div_eq_of_lt hb, Nat.add_zero]
    have hmod : (i * clogBits + b) % clogBits = b := by
      rw [Nat.mul_comm, Nat.mul_add_mod, Nat.mod_eq_of_lt hb]
    refine ⟨Nat.le_add_right _ _, ?_⟩
    rw [hidx, hdiv, hmod]
    exact hbit
  · rintro ⟨_, hbit⟩
    refine ⟨(x - c.base) / clogBits, ?_, (x - c.base) % clogBits,
      ⟨Nat.mod_lt _ (by decide), hbit⟩, ?_⟩
    · -- A word past the end is zero and has no bit set.
      by_contra hlen
      rw [getD_eq_getElem?_getD, getElem?_eq_none (by omega), getD_none,
        BitVec.ofNat_eq_ofNat, BitVec.getLsbD_zero] at hbit
      cases hbit
    · have h := Nat.div_add_mod (x - c.base) clogBits
      rw [Nat.mul_comm] at h
      omega

/-- Testing a bit by masking. -/
theorem and_twoPow_ne_zero (w : BitVec 64) (hn : n < 64) :
    (w &&& BitVec.twoPow 64 n != 0) = w.getLsbD n := by
  have hpow : BitVec.twoPow 64 n ≠ 0#64 := by
    intro hz
    have hbit := BitVec.getLsbD_twoPow (w := 64) n n
    rw [hz] at hbit
    simp [hn] at hbit
  rw [BitVec.and_twoPow]
  cases w.getLsbD n <;> simp [hpow]

/-- Committed: not the zero id, and below the base or with its bit set. -/
theorem isCommitted_iff (c : CommitStatus) (x : Nat) :
    c.isCommitted x = true ↔ x ≠ 0 ∧ (x < c.base ∨ c.Bit x) := by
  unfold isCommitted
  by_cases h0 : x = 0
  · simp [h0]
  rw [if_neg h0]
  by_cases hb : x < c.base
  · simp [hb, h0]
  have hmod : (x - c.base) % clogBits < 64 := Nat.mod_lt _ (by decide)
  simp only [hb, if_false, Bit, getD_eq_getElem?_getD]
  cases hw : c.words[(x - c.base) / clogBits]? with
  | none =>
    simp
  | some w =>
    simp only [and_twoPow_ne_zero w hmod, getD_some, false_or]
    exact ⟨fun h => ⟨h0, by omega, h⟩, fun h => h.2.2⟩

end CommitStatus

/-- What the bitmap stands for: the horizon and the ids marked above it. -/
structure Clog where
  base : Nat
  marked : List Nat
  deriving DecidableEq, Repr

namespace Clog

/-- No id committed, horizon 0. -/
def new : Clog := ⟨0, []⟩

/-- Add an id; what is below the base counts anyway. -/
def markCommitted (c : Clog) (xid : Nat) : Clog :=
  if xid < c.base then c else { c with marked := c.marked.insert xid }

/-- Whether an id counts as committed. -/
def isCommitted (c : Clog) (xid : Nat) : Bool :=
  decide (xid ≠ 0) && (decide (xid < c.base) || decide (xid ∈ c.marked))

/-- Advance the horizon, dropping the ids below it. -/
def advanceBase (c : Clog) (newBase : Nat) : Clog :=
  if newBase ≤ c.base then c
  else ⟨newBase, c.marked.filter (fun xid => newBase ≤ xid)⟩

/-- Committed: not the zero id, and below the base or marked. -/
theorem isCommitted_iff (c : Clog) (x : Nat) :
    c.isCommitted x = true ↔ x ≠ 0 ∧ (x < c.base ∨ x ∈ c.marked) := by
  simp [isCommitted]

/-- Marking commits one more id, unless it is the sentinel. -/
theorem isCommitted_mark (c : Clog) (x y : Nat) :
    (c.markCommitted x).isCommitted y = true ↔
      c.isCommitted y = true ∨ (y = x ∧ x ≠ 0) := by
  unfold markCommitted
  split
  case isTrue h =>
    refine (or_iff_left_of_imp ?_).symm
    rintro ⟨rfl, h0⟩
    exact (isCommitted_iff c y).mpr ⟨h0, .inl h⟩
  case isFalse h =>
    simp only [isCommitted_iff, mem_insert_iff]
    grind

/-- Advancing the horizon commits every id below it, and no other. -/
theorem isCommitted_advanceBase (c : Clog) (b y : Nat) :
    (c.advanceBase b).isCommitted y = true ↔
      c.isCommitted y = true ∨ (y ≠ 0 ∧ y < b) := by
  unfold advanceBase
  split
  case isTrue h =>
    refine (or_iff_left_of_imp ?_).symm
    rintro ⟨h0, hb⟩
    exact (isCommitted_iff c y).mpr ⟨h0, .inl (by omega)⟩
  case isFalse h =>
    simp only [isCommitted_iff, mem_filter, decide_eq_true_eq]
    grind

end Clog

/-- The bitmap holds what the clog says: the same horizon and the same ids. -/
def Refines (c : CommitStatus) (a : Clog) : Prop :=
  c.base = a.base ∧ ∀ x, c.Bit x ↔ x ∈ a.marked

/-- The empty bitmap refines the empty set of marks. -/
theorem refines_new : Refines .new .new := by
  refine ⟨rfl, fun x => ?_⟩
  constructor
  · rintro ⟨_, hbit⟩
    simp [CommitStatus.new] at hbit
  · exact nofun

variable {a : Clog}

/-- Setting a bit refines marking an id. -/
theorem refines_markCommitted (x : Nat) (h : Refines c a) :
    Refines (c.markCommitted x) (a.markCommitted x) := by
  rcases h with ⟨hbase, hbits⟩
  by_cases hx : x < c.base
  · rw [CommitStatus.markCommitted, if_pos hx, Clog.markCommitted, if_pos (hbase ▸ hx)]
    exact ⟨hbase, hbits⟩
  · rw [CommitStatus.markCommitted_of_le (by omega), Clog.markCommitted, if_neg (hbase ▸ hx)]
    refine ⟨hbase, fun y => ?_⟩
    rw [CommitStatus.bit_setBit y (by omega), hbits, mem_insert_iff, or_comm]

/-- The bits left after setting a list of ids from scratch. -/
theorem bit_foldl_setBit {xs : List Nat} (c : CommitStatus) (hxs : ∀ x ∈ xs, c.base ≤ x) :
    (xs.foldl CommitStatus.setBit c).base = c.base ∧
      ∀ y, (xs.foldl CommitStatus.setBit c).Bit y ↔ c.Bit y ∨ y ∈ xs := by
  induction xs generalizing c with
  | nil =>
    refine ⟨rfl, fun y => ?_⟩
    simp
  | cons x _ ih =>
    have hx := hxs x mem_cons_self
    have hbase : (c.setBit x).base = c.base := rfl
    rcases ih (c.setBit x) (fun y hy => hbase ▸ hxs y (mem_cons_of_mem _ hy)) with
      ⟨hb, hbits⟩
    refine ⟨hb, fun y => ?_⟩
    rw [foldl_cons, hbits, CommitStatus.bit_setBit y hx, mem_cons, or_assoc]

/-- Dropping words below a new base refines dropping marks below it. -/
theorem refines_advanceBase (b : Nat) (h : Refines c a) :
    Refines (c.advanceBase b) (a.advanceBase b) := by
  rcases h with ⟨hbase, hbits⟩
  by_cases hb : b ≤ c.base
  · rw [CommitStatus.advanceBase, if_pos hb, Clog.advanceBase, if_pos (hbase ▸ hb)]
    exact ⟨hbase, hbits⟩
  rw [CommitStatus.advanceBase, if_neg hb, Clog.advanceBase, if_neg (hbase ▸ hb)]
  have hkeep : ∀ x ∈ c.ids.filter (fun xid => b ≤ xid), b ≤ x := by
    intro _ hx
    exact of_decide_eq_true (mem_filter.mp hx).2
  rcases bit_foldl_setBit ⟨b, []⟩ hkeep with ⟨hb', hbits'⟩
  refine ⟨hb', fun y => ?_⟩
  rw [hbits', mem_filter, mem_filter, CommitStatus.mem_ids_iff, hbits]
  exact or_iff_right (fun ⟨_, hbit⟩ => by simp at hbit)

/-- Both levels give the same answer for every id. -/
theorem isCommitted_of_refines (x : Nat) (h : Refines c a) : c.isCommitted x = a.isCommitted x := by
  rw [Bool.eq_iff_iff, CommitStatus.isCommitted_iff, Clog.isCommitted_iff, h.1, h.2]

end ChibiDb
