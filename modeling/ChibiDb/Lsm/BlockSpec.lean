import ChibiDb.Lsm.Block
import ChibiDb.Data.BTreeMap

/-!
# What a Block Gives Back

A block that was built from pairs in ascending key order gives those pairs back,
one by one or all of them, as long as the 32-bit words it keeps its lengths and
offsets in can hold them.

The entries of a block are a function of the pairs, `encodeRun`, which depends on
the builder only through its counter and the key before. At a restart it depends
on neither, so what is true of a whole block is true from each restart on.

## Main definitions

* `encodeRun`, `restartOffsets`: The entries and the restarts the builder adds.
* `WordsFit`, `RestartsFit`: The words of a block can hold its lengths and offsets.
* `BlockHolds`: What a block gives back.

## Theorems

* `getVarint_put`: An integer reads back.
* `parse_finish`: A block that was built holds its pairs.
-/

namespace ChibiDb.Lsm

open List Option

/-! ### Integers -/

variable {a data key rest value : Buf} {pos r rounds shared start : Nat} {p : Buf × Buf}

/-- What follows something that stands at a position stands behind it. -/
theorem drop_behind (h : data.drop pos = a ++ rest) : data.drop (pos + a.length) = rest := by
  rw [← drop_drop, h, drop_left]

theorem slice_eq (h : data.drop pos = a ++ rest) : slice data pos a.length = a := by
  rw [slice, h, take_left]

/-- The last byte of an integer. -/
theorem getVarint_last {width : Nat} {shift result value : Nat}
    (h : data.drop pos = UInt8.ofNat value :: rest) (hr : 0 < rounds) (hv : value < 128)
    (hw : value * 2 ^ shift < 2 ^ width) :
    getVarint width data rounds shift result pos = .ok (result + value * 2 ^ shift, pos + 1) := by
  obtain ⟨n, rfl⟩ : ∃ n, rounds = n + 1 := ⟨rounds - 1, by omega⟩
  have hb : (UInt8.ofNat value).toNat = value := by
    rw [UInt8.toNat_ofNat']
    omega
  have hat : data[pos]? = some (UInt8.ofNat value) := by
    rw [← head?_drop, h]
    rfl
  rw [getVarint, hat]
  simp only [hb]
  rw [if_pos hv, Nat.mod_eq_of_lt hv, Nat.mod_eq_of_lt hw]

/-- By induction on the groups that may still follow. -/
theorem getVarint_put {width : Nat} {data : Buf} {groups rounds shift result pos value : Nat}
    {rest : Buf} (h : data.drop pos = putVarint groups value ++ rest) (hr : groups < rounds)
    (hv : value < 128 ^ (groups + 1)) (hw : value * 2 ^ shift < 2 ^ width) :
    getVarint width data rounds shift result pos =
      .ok (result + value * 2 ^ shift, pos + (putVarint groups value).length) := by
  induction groups generalizing rounds shift result pos value with
  | zero => exact getVarint_last h hr (by omega) hw
  | succ groups ih =>
    rw [putVarint] at h ⊢
    by_cases hlt : value < 128
    · rw [if_pos hlt] at h ⊢
      exact getVarint_last h (by omega) hlt hw
    rw [if_neg hlt] at h ⊢
    obtain ⟨n, rfl⟩ : ∃ n, rounds = n + 1 := ⟨rounds - 1, by omega⟩
    have hb : (UInt8.ofNat (value % 128 + 128)).toNat = value % 128 + 128 := by
      rw [UInt8.toNat_ofNat']
      omega
    have hat : data[pos]? = some (UInt8.ofNat (value % 128 + 128)) := by
      rw [← head?_drop, h]
      rfl
    have hsplit : value * 2 ^ shift =
        value % 128 * 2 ^ shift + value / 128 * 2 ^ (shift + 7) := by
      have hpow : 2 ^ (shift + 7) = 128 * 2 ^ shift := by rw [Nat.pow_add]; ring
      rw [hpow, ← Nat.mul_assoc, ← Nat.add_mul, Nat.mul_comm (value / 128), Nat.mod_add_div]
    have hdrop : data.drop (pos + 1) = putVarint groups (value / 128) ++ rest := by
      rw [← drop_drop, h]
      rfl
    rw [getVarint, hat]
    simp only [hb]
    rw [if_neg (by omega), Nat.add_mod_right, Nat.mod_mod, Nat.mod_eq_of_lt (by omega : value %
      128 * 2 ^ shift < 2 ^ width), ih hdrop (by omega) (by rw [pow_succ] at hv; omega) (by
      omega), hsplit, length_cons, Nat.add_assoc result, Nat.add_assoc pos, Nat.add_comm 1]

theorem getVarint32_put {value : Nat} (h : data.drop pos = putVarint32 value ++ rest) :
    getVarint32 data pos = .ok (value % 2 ^ 32, pos + (putVarint32 value).length) := by
  have hget := @getVarint_put 32 data 4 5 0 0 pos (value % 2 ^ 32) rest h (by omega) (by omega)
    (by omega)
  rw [Nat.zero_add, Nat.pow_zero, Nat.mul_one] at hget
  exact hget

theorem getVarint64_put {value : Nat} (hv : value < 2 ^ 64)
    (h : data.drop pos = putVarint64 value ++ rest) :
    getVarint64 data pos = .ok (value, pos + (putVarint64 value).length) := by
  have hmod : value % 2 ^ 64 = value := Nat.mod_eq_of_lt hv
  rw [putVarint64, hmod] at h ⊢
  have hget := @getVarint_put 64 data 9 10 0 0 pos value rest h (by omega) (by omega) (by omega)
  rw [Nat.zero_add, Nat.pow_zero, Nat.mul_one] at hget
  exact hget

theorem length_putVarint_pos (groups value : Nat) : 0 < (putVarint groups value).length := by
  cases groups with
  | zero => exact Nat.one_pos
  | succ =>
    rw [putVarint]
    split
    · exact Nat.one_pos
    · exact Nat.succ_pos _

/-! ### One entry -/

open BlockBuilder (entryBytes)

theorem length_entryBytes (shared : Nat) (key value : Buf) :
    3 + (key.length - shared) + value.length ≤ (entryBytes shared key value).length := by
  have h1 := length_putVarint_pos 4 (shared % 2 ^ 32)
  have h2 := length_putVarint_pos 4 ((key.length - shared) % 2 ^ 32)
  have h3 := length_putVarint_pos 4 (value.length % 2 ^ 32)
  simp only [entryBytes, putVarint32, length_append, length_drop]
  omega

/-- The words in front of an entry. -/
def entryHeader (shared : Nat) (key value : Buf) : Buf :=
  putVarint32 shared ++ putVarint32 (key.length - shared) ++ putVarint32 value.length

/-- An entry decodes to its lengths as its words keep them. -/
theorem decode_entryBytes {b : Block} {offset : Nat}
    (h : b.data.drop offset = entryBytes shared key value ++ rest)
    (hend : offset + (entryBytes shared key value).length ≤ b.restartArrayStart) :
    b.decode offset = .ok
      { shared := shared % 2 ^ 32
        nonShared := (key.length - shared) % 2 ^ 32
        valueLen := value.length % 2 ^ 32
        keyOffset := offset + (entryHeader shared key value).length
        valueOffset := offset + (entryHeader shared key value).length +
          (key.length - shared) % 2 ^ 32
        next := offset + (entryHeader shared key value).length +
          (key.length - shared) % 2 ^ 32 + value.length % 2 ^ 32 } := by
  have hlen := length_entryBytes shared key value
  have hsize : (entryBytes shared key value).length =
      (entryHeader shared key value).length + (key.length - shared) + value.length := by
    simp only [entryBytes, entryHeader, length_append, length_drop]
  rw [entryBytes, append_assoc, append_assoc, append_assoc, append_assoc] at h
  have h1 := getVarint32_put h
  have h' := drop_behind h
  have h2 := getVarint32_put h'
  have h3 := getVarint32_put (drop_behind h')
  have hpos : offset + (putVarint32 shared).length + (putVarint32 (key.length - shared)).length +
      (putVarint32 value.length).length = offset + (entryHeader shared key value).length := by
    simp only [entryHeader, length_append]
    omega
  unfold Block.decode
  rw [if_neg (by omega)]
  simp only [h1, h2, h3, bind, Except.bind, hpos]
  rw [if_neg (by omega)]

theorem decode_entry {b : Block} {offset : Nat}
    (h : b.data.drop offset = entryBytes shared key value ++ rest)
    (hend : offset + (entryBytes shared key value).length ≤ b.restartArrayStart)
    (hkey : key.length < 2 ^ 32) (hvalue : value.length < 2 ^ 32) (hs : shared ≤ key.length) :
    ∃ e, b.decode offset = .ok e ∧ e.shared = shared ∧ b.ownKey e = key.drop shared ∧
      b.valueOf e = value ∧ e.next = offset + (entryBytes shared key value).length := by
  have hn : (key.length - shared) % 2 ^ 32 = (key.drop shared).length := by
    rw [length_drop]
    omega
  refine ⟨_, decode_entryBytes h hend, by simp only; omega, ?_, ?_, ?_⟩
  · have hkeyAt := drop_behind (show b.data.drop offset = entryHeader shared key value ++
      (key.drop shared ++ (value ++ rest)) by simp [h, entryBytes, entryHeader])
    simp only [Block.ownKey, hn]
    exact slice_eq hkeyAt
  · have hvalueAt := drop_behind (show b.data.drop offset =
      (entryHeader shared key value ++ key.drop shared) ++ (value ++ rest) by
        simp [h, entryBytes, entryHeader])
    rw [length_append, ← Nat.add_assoc, ← hn] at hvalueAt
    simp only [Block.valueOf, Nat.mod_eq_of_lt hvalue]
    exact slice_eq hvalueAt
  · simp only [entryBytes, entryHeader, length_append, ← hn]
    omega

/-! ### A run of entries -/

theorem take_commonPrefix (a b : Buf) : a.take (commonPrefix a b) = b.take (commonPrefix a b) := by
  induction a generalizing b with
  | nil => cases b <;> rfl
  | cons _ _ ih =>
    cases b with
    | nil => rfl
    | cons =>
      rw [commonPrefix]
      split
      · rename_i hxy
        rw [take_succ_cons, take_succ_cons, ih, hxy]
      · rfl

theorem commonPrefix_le (a b : Buf) : commonPrefix a b ≤ b.length := by
  induction a generalizing b with
  | nil => cases b <;> exact Nat.zero_le _
  | cons _ _ ih =>
    cases b with
    | nil => exact Nat.zero_le _
    | cons _ b =>
      rw [commonPrefix]
      split
      · exact Nat.succ_le_succ (ih b)
      · exact Nat.zero_le _

/-- What the next entry shares with the key before it. -/
def sharedWith (interval counter : Nat) (prev key : Buf) : Nat :=
  if counter < interval then commonPrefix prev key else 0

/-- The builder's counter after the next entry. -/
def nextCounter (interval counter : Nat) : Nat := if counter < interval then counter + 1 else 1

/-- The entries the builder writes for some pairs. -/
def encodeRun (interval : Nat) : Nat → Buf → List (Buf × Buf) → Buf
  | _, _, [] => []
  | counter, prev, (key, value) :: pairs =>
    entryBytes (sharedWith interval counter prev key) key value ++
      encodeRun interval (nextCounter interval counter) key pairs

/-- The offsets of the restarts among them, for entries that start at `offset`. -/
def restartOffsets (interval : Nat) : Nat → Buf → Nat → List (Buf × Buf) → List Nat
  | _, _, _, [] => []
  | counter, prev, offset, (key, value) :: pairs =>
    (if counter < interval then [] else [offset]) ++
      restartOffsets interval (nextCounter interval counter) key
        (offset + (entryBytes (sharedWith interval counter prev key) key value).length) pairs

/-- The builder after some pairs. -/
def addAll (b : BlockBuilder) (pairs : List (Buf × Buf)) : BlockBuilder :=
  pairs.foldl (fun b p => b.add p.1 p.2) b

theorem addAll_eq (b : BlockBuilder) (pairs : List (Buf × Buf)) :
    (addAll b pairs).buffer =
        b.buffer ++ encodeRun b.restartInterval b.counter b.lastKey pairs ∧
      (addAll b pairs).restarts = b.restarts ++
        (restartOffsets b.restartInterval b.counter b.lastKey b.buffer.length pairs).map
          (· % 2 ^ 32) := by
  induction pairs generalizing b with
  | nil => simp [addAll, encodeRun, restartOffsets]
  | cons p _ ih =>
    obtain ⟨hbuf, hres⟩ := ih (b.add p.1 p.2)
    rw [addAll] at hbuf hres
    rw [addAll, foldl_cons, hbuf, hres]
    by_cases hc : b.counter < b.restartInterval
    · simp [BlockBuilder.add, encodeRun, restartOffsets, sharedWith, nextCounter, hc]
    · simp [BlockBuilder.add, encodeRun, restartOffsets, sharedWith, nextCounter, hc]

/-! ### Reading a run -/

/-- The words of the block can hold the lengths of the pairs. -/
def WordsFit (pairs : List (Buf × Buf)) : Prop :=
  ∀ p ∈ pairs, p.1.length < 2 ^ 32 ∧ p.2.length < 2 ^ 32

instance decidableWordsFit (pairs : List (Buf × Buf)) : Decidable (WordsFit pairs) :=
  decidableBAll (fun p : Buf × Buf => p.1.length < 2 ^ 32 ∧ p.2.length < 2 ^ 32) pairs

/-- The keys are in strictly ascending order. -/
def Ascending (pairs : List (Buf × Buf)) : Prop := pairs.Pairwise fun p q => p.1 < q.1

/-- The entries of the pairs stand at an offset, and end where the restarts begin. -/
def RunAt (b : Block) (interval counter : Nat) (prev : Buf) (offset : Nat)
    (pairs : List (Buf × Buf)) : Prop :=
  (∃ tail, b.data.drop offset = encodeRun interval counter prev pairs ++ tail) ∧
    offset + (encodeRun interval counter prev pairs).length = b.restartArrayStart

variable {b : Block} {interval counter offset : Nat} {prev : Buf} {pairs : List (Buf × Buf)}

/-- The first entry of a run, and the run behind it. -/
theorem RunAt.cons (h : RunAt b interval counter prev offset ((key, value) :: pairs))
    (hfit : WordsFit ((key, value) :: pairs)) :
    ∃ e, b.decode offset = .ok e ∧ e.shared = sharedWith interval counter prev key ∧
      prev.take e.shared ++ b.ownKey e = key ∧ b.valueOf e = value ∧ offset < e.next ∧
      offset < b.restartArrayStart ∧
      RunAt b interval (nextCounter interval counter) key e.next pairs := by
  obtain ⟨⟨tail, hdata⟩, hend⟩ := h
  have hlen := length_entryBytes (sharedWith interval counter prev key) key value
  rw [encodeRun, append_assoc] at hdata
  rw [encodeRun, length_append] at hend
  have hshared : sharedWith interval counter prev key ≤ key.length := by
    unfold sharedWith
    split
    · exact commonPrefix_le prev key
    · exact Nat.zero_le _
  have hprev : prev.take (sharedWith interval counter prev key) =
      key.take (sharedWith interval counter prev key) := by
    unfold sharedWith
    split
    · exact take_commonPrefix prev key
    · rfl
  obtain ⟨hk, hv⟩ := hfit _ mem_cons_self
  obtain ⟨e, he, hs, hown, hval, hnext⟩ := decode_entry hdata (by omega) hk hv hshared
  refine ⟨e, he, hs, ?_, hval, by omega, by omega, ⟨tail, ?_⟩, by omega⟩
  · rw [hs, hprev, hown, take_append_drop]
  · rw [hnext]
    exact drop_behind hdata

theorem WordsFit.tail (h : WordsFit (p :: pairs)) : WordsFit pairs :=
  (forall_mem_cons.mp h).2

theorem entriesLoop_run (h : RunAt b interval counter prev offset pairs) (hfit : WordsFit pairs)
    (hr : b.restartArrayStart - offset ≤ rounds) :
    b.entriesLoop rounds prev offset = .ok pairs := by
  induction pairs generalizing rounds counter prev offset with
  | nil =>
    have hend : offset = b.restartArrayStart := h.2
    cases rounds with
    | zero => rfl
    | succ => rw [Block.entriesLoop, if_neg (by omega)]
  | cons p pairs ih =>
    obtain ⟨e, he, -, hkey, hval, _, hlt, hrest⟩ := h.cons hfit
    obtain ⟨n, rfl⟩ : ∃ n, rounds = n + 1 := ⟨rounds - 1, by omega⟩
    have hloop : b.entriesLoop n p.1 e.next = .ok pairs := ih hrest hfit.tail (by omega)
    rw [Block.entriesLoop, if_pos hlt]
    simp only [he, hkey, hval, bind, Except.bind, hloop]

theorem scanLoop_run (h : RunAt b interval counter prev offset pairs) (hfit : WordsFit pairs)
    (hsort : Ascending pairs) (hr : b.restartArrayStart - offset ≤ rounds) :
    b.scanLoop key rounds prev offset = .ok (BTreeMap.find key pairs) := by
  induction pairs generalizing rounds counter prev offset with
  | nil =>
    have hend : offset = b.restartArrayStart := h.2
    cases rounds with
    | zero => rfl
    | succ =>
      rw [Block.scanLoop, if_neg (by omega)]
      rfl
  | cons p pairs ih =>
    obtain ⟨_, he, -, hkey, hval, _, hlt, hrest⟩ := h.cons hfit
    obtain ⟨n, rfl⟩ : ∃ n, rounds = n + 1 := ⟨rounds - 1, by omega⟩
    obtain ⟨hhead, htail⟩ := pairwise_cons.mp hsort
    rw [Block.scanLoop, if_pos hlt]
    simp only [he, hkey, hval, bind, Except.bind]
    rcases lt_trichotomy p.1 key with hk | hk | hk
    · rw [if_pos hk, ih hrest hfit.tail htail (by omega), BTreeMap.find, if_neg hk.ne']
    · rw [if_neg hk.not_lt, if_pos hk, BTreeMap.find, if_pos hk.symm]
    · rw [if_neg (lt_asymm hk), if_neg hk.ne', BTreeMap.find, if_neg hk.ne,
        BTreeMap.find_eq_none_of_lt key pairs (fun q hq => hk.trans (hhead q hq))]

theorem entryAt_run (h : RunAt b interval 0 [] offset ((key, value) :: pairs))
    (hfit : WordsFit ((key, value) :: pairs)) : b.entryAt offset = .ok key := by
  obtain ⟨e, he, hs, hkey, -⟩ := h.cons hfit
  have hzero : e.shared = 0 := by
    rw [hs]
    unfold sharedWith
    split
    · cases key <;> rfl
    · rfl
  rw [take_nil, nil_append] at hkey
  unfold Block.entryAt
  simp only [he, bind, Except.bind]
  rw [if_neg (by simp [hzero]), hkey]

/-! ### The restarts -/

/-- A restart is where a whole run of the last pairs begins. -/
def RestartAt (b : Block) (interval : Nat) (pairs : List (Buf × Buf)) (offset : Nat) : Prop :=
  ∃ pre key value post, pairs = pre ++ (key, value) :: post ∧
    RunAt b interval 0 [] offset ((key, value) :: post)

/-- From a restart on, the entries do not depend on what was before. -/
theorem encodeRun_restart (hi : 0 < interval) (hc : ¬ counter < interval)
    (prev : Buf) (p : Buf × Buf) (pairs : List (Buf × Buf)) :
    encodeRun interval counter prev (p :: pairs) = encodeRun interval 0 [] (p :: pairs) := by
  have hnil : commonPrefix [] p.1 = 0 := by cases p.1 <;> rfl
  simp [encodeRun, sharedWith, nextCounter, hc, hi, hnil]

theorem mem_restartOffsets (hi : 0 < interval)
    (h : r ∈ restartOffsets interval counter prev offset pairs) :
    ∃ pre p post, pairs = pre ++ p :: post ∧
      r = offset + (encodeRun interval counter prev pre).length ∧
      encodeRun interval counter prev pairs =
        encodeRun interval counter prev pre ++ encodeRun interval 0 [] (p :: post) := by
  induction pairs generalizing counter prev offset with
  | nil => simp [restartOffsets] at h
  | cons p pairs ih =>
    rw [restartOffsets] at h
    rcases mem_append.mp h with h | h
    · split at h
      · cases h
      rename_i hc
      refine ⟨[], p, pairs, rfl, ?_, encodeRun_restart hi hc prev p pairs⟩
      rw [mem_singleton.mp h]
      rfl
    · obtain ⟨pre, q, post, rfl, hr, hrun⟩ := ih h
      refine ⟨p :: pre, q, post, rfl, ?_, ?_⟩
      · rw [hr, encodeRun, length_append, Nat.add_assoc]
      · rw [encodeRun, encodeRun, hrun, append_assoc]

/-- Only the side that the result rests on is carried along: what stands before the result is below
    the key. -/
theorem searchLoop_spec (hres : ∀ r ∈ b.restarts, RestartAt b interval pairs r)
    (hfit : WordsFit pairs) {left right : Nat} (hright : right ≤ b.restarts.length)
    (hleft : left = 0 ∨ ∃ pre k v post, pairs = pre ++ (k, v) :: post ∧ k < key ∧
      RunAt b interval 0 [] (b.restarts.getD (left - 1) 0) ((k, v) :: post)) :
    ∃ l, b.searchLoop key rounds left right = .ok l ∧
      (l = 0 ∨ ∃ pre k v post, pairs = pre ++ (k, v) :: post ∧ k < key ∧
        RunAt b interval 0 [] (b.restarts.getD (l - 1) 0) ((k, v) :: post)) := by
  induction rounds generalizing left right with
  | zero => exact ⟨left, rfl, hleft⟩
  | succ _ ih =>
    rw [Block.searchLoop]
    by_cases hlt : left < right
    · have hmid : (left + right) / 2 < b.restarts.length := by omega
      have hget : b.restarts.getD ((left + right) / 2) 0 = b.restarts[(left + right) / 2] := by
        rw [getD_eq_getElem?_getD, getElem?_eq_getElem hmid, getD_some]
      obtain ⟨pre, k, v, post, hpairs, hrun⟩ := hres _ (getElem_mem hmid)
      have hpost : WordsFit ((k, v) :: post) := fun p hp => hfit p
        (by rw [hpairs]; exact mem_append_right pre hp)
      simp only [if_pos hlt, bind, Except.bind, hget, entryAt_run hrun hpost]
      by_cases hk : k < key
      · rw [if_pos hk]
        refine ih hright (.inr ⟨pre, k, v, post, hpairs, hk, ?_⟩)
        rw [Nat.add_sub_cancel, hget]
        exact hrun
      · rw [if_neg hk]
        exact ih (by omega) hleft
    · rw [if_neg hlt]
      exact ⟨left, rfl, hleft⟩

theorem get_run (key : Buf)
    (hres : ∀ r ∈ b.restarts, RestartAt b interval pairs r) (hne : b.restarts ≠ [])
    (h0 : RunAt b interval 0 [] 0 pairs) (hfit : WordsFit pairs) (hsort : Ascending pairs) :
    b.get key = .ok (BTreeMap.find key pairs) := by
  obtain ⟨l, hl, hgood⟩ := @searchLoop_spec key b.restarts.length b interval pairs hres hfit 0
    b.restarts.length (Nat.le_refl _) (.inl rfl)
  unfold Block.get
  rw [if_neg (by simp [hne])]
  simp only [hl, bind, Except.bind]
  by_cases hzero : l = 0
  · rw [if_pos hzero]
    exact scanLoop_run h0 hfit hsort (Nat.sub_le _ _)
  obtain ⟨pre, _, _, _, rfl, hk, hrun⟩ := hgood.resolve_left hzero
  obtain ⟨-, hpost, hcross⟩ := pairwise_append.mp hsort
  rw [if_neg hzero, scanLoop_run hrun (fun p hp => hfit p (mem_append_right pre hp)) hpost
    (Nat.sub_le _ _), BTreeMap.find_append, BTreeMap.find_eq_none_of_ne key pre, none_or]
  intro p hp
  exact ((hcross p hp _ mem_cons_self).trans hk).ne

/-! ### A block that was built -/

theorem checkRestarts_run {last : Nat} (hlast : last < offset ∨ counter < interval ∧ last ≤ offset)
    (hend : offset + (encodeRun interval counter prev pairs).length ≤ start) :
    Block.checkRestarts start (some last) (restartOffsets interval counter prev offset pairs) =
      .ok () := by
  induction pairs generalizing counter offset prev last with
  | nil => rfl
  | cons p _ ih =>
    rw [encodeRun, length_append] at hend
    have hlen := length_entryBytes (sharedWith interval counter prev p.1) p.1 p.2
    rw [restartOffsets]
    by_cases hc : counter < interval
    · rw [if_pos hc, nil_append]
      exact ih (.inl (by omega)) (by omega)
    rw [if_neg hc, singleton_append, Block.checkRestarts, if_neg (by omega),
      if_neg (by simp; omega)]
    exact ih (.inl (by omega)) (by omega)

/-- Every entry has at least three bytes, so there are not many restarts below a bound. -/
theorem length_restartOffsets {bound : Nat} (counter offset : Nat) (prev : Buf)
    (pairs : List (Buf × Buf))
    (h : ∀ r ∈ restartOffsets interval counter prev offset pairs, r < bound) :
    restartOffsets interval counter prev offset pairs = [] ∨
      3 * (restartOffsets interval counter prev offset pairs).length + offset ≤ bound + 3 := by
  induction pairs generalizing counter offset prev with
  | nil => exact .inl rfl
  | cons p _ ih =>
    have hlen := length_entryBytes (sharedWith interval counter prev p.1) p.1 p.2
    rw [restartOffsets] at h ⊢
    have htail := ih (nextCounter interval counter)
      (offset + (entryBytes (sharedWith interval counter prev p.1) p.1 p.2).length) p.1
      fun r hr => h r (mem_append_right _ hr)
    by_cases hc : counter < interval
    · rw [if_pos hc, nil_append]
      exact htail.imp_right fun hle => by omega
    rw [if_neg hc] at h ⊢
    have hfirst : offset < bound := h offset (mem_append_left _ (mem_singleton_self _))
    refine .inr ?_
    rw [length_append, length_singleton]
    rcases htail with hnil | hle
    · rw [hnil, length_nil]
      omega
    · omega

/-- Words that stand one behind the other read back. -/
theorem readWords {words : List Nat} (h : data.drop start = words.flatMap putFixed32 ++ rest)
    (hw : ∀ w ∈ words, w < 2 ^ 32) :
    (range words.length).map (fun i => ofLeBytes (slice data (start + 4 * i) 4)) = words := by
  induction words generalizing start with
  | nil => rfl
  | cons w _ ih =>
    rw [flatMap_cons, append_assoc] at h
    have hword : ofLeBytes (slice data start 4) = w := by
      have hs := slice_eq h
      rw [putFixed32, length_leBytes] at hs
      rw [hs, ofLeBytes_leBytes (hw w mem_cons_self)]
    have hd := drop_behind h
    rw [putFixed32, length_leBytes] at hd
    have hrest := ih hd (forall_mem_cons.mp hw).2
    rw [length_cons, range_succ_eq_map, map_cons, List.map_map, Nat.mul_zero,
      Nat.add_zero, hword]
    congr 1
    refine Eq.trans (map_congr_left fun i _ => ?_) hrest
    simp only [Function.comp]
    congr 2
    omega

/-- What a block gives back. -/
structure BlockHolds (b : Block) (pairs : List (Buf × Buf)) : Prop where
  entries : b.toEntries = .ok pairs
  firstKey : b.firstKey = .ok (pairs.head?.map Prod.fst)
  get : Ascending pairs → ∀ key, b.get key = .ok (BTreeMap.find key pairs)

/-- The entries of a block. -/
def blockRun (interval : Nat) (pairs : List (Buf × Buf)) : Buf :=
  encodeRun (max interval 1) 0 [] pairs

/-- The block of some pairs. -/
def builtBlock (interval : Nat) (pairs : List (Buf × Buf)) : BlockBuilder :=
  addAll (.new interval) pairs

theorem builtBlock_buffer (interval : Nat) (pairs : List (Buf × Buf)) :
    (builtBlock interval pairs).buffer = blockRun interval pairs :=
  (addAll_eq (.new interval) pairs).1

theorem builtBlock_isEmpty (pairs : List (Buf × Buf)) :
    (builtBlock interval pairs).isEmpty = pairs.isEmpty := by
  rw [BlockBuilder.isEmpty, builtBlock_buffer]
  cases pairs with
  | nil => rfl
  | cons p =>
    have hpos := length_entryBytes (sharedWith (max interval 1) 0 [] p.1) p.1 p.2
    rw [isEmpty_cons, isEmpty_eq_false_iff, ← length_pos_iff, blockRun, encodeRun, length_append]
    omega

/-- The bytes of a block are its entries, the words of its restarts, and how many there are; the
    reader takes them apart and checks the restarts. -/
theorem parse_layout {run : Buf} {restarts : List Nat} (hn : restarts.length < 2 ^ 32)
    (hw : ∀ r ∈ restarts, r < 2 ^ 32) :
    Block.parse (run ++ restarts.flatMap putFixed32 ++ putFixed32 restarts.length) =
      (Block.checkRestarts run.length none restarts).map fun _ =>
        ⟨run ++ restarts.flatMap putFixed32 ++ putFixed32 restarts.length, restarts,
          run.length⟩ := by
  generalize hdata : run ++ restarts.flatMap putFixed32 ++ putFixed32 restarts.length = data
  have hwords : (restarts.flatMap putFixed32).length = restarts.length * 4 := by
    simp [length_flatMap, putFixed32]
  have hlen : data.length = run.length + restarts.length * 4 + 4 := by
    rw [← hdata, length_append, length_append, hwords, putFixed32, length_leBytes]
  have hstart : data.drop run.length =
      restarts.flatMap putFixed32 ++ putFixed32 restarts.length := by
    rw [← hdata, append_assoc, drop_left]
  have hcount : ofLeBytes (slice data (data.length - 4) 4) = restarts.length := by
    have hlast := drop_behind hstart
    rw [hwords, ← append_nil (putFixed32 _)] at hlast
    have hs := slice_eq hlast
    rw [putFixed32, length_leBytes] at hs
    rw [show data.length - 4 = run.length + restarts.length * 4 by omega, hs, ofLeBytes_leBytes hn]
  unfold Block.parse
  rw [if_neg (by omega)]
  simp only [hcount]
  rw [if_neg (by omega), show data.length - 4 - restarts.length * 4 = run.length by omega,
    readWords hstart hw]
  cases Block.checkRestarts run.length none restarts <;> rfl

/-- The words of the restart array can hold the offsets of the restarts. -/
def RestartsFit (interval : Nat) (pairs : List (Buf × Buf)) : Prop :=
  ∀ r ∈ restartOffsets (max interval 1) 0 [] 0 pairs, r < 2 ^ 32

instance decidableRestartsFit (interval : Nat) (pairs : List (Buf × Buf)) :
    Decidable (RestartsFit interval pairs) :=
  decidableBAll (fun r : Nat => r < 2 ^ 32) (restartOffsets (max interval 1) 0 [] 0 pairs)

/-- Offsets that fit are written as they are. -/
theorem RestartsFit.map_mod (h : RestartsFit interval pairs) :
    (restartOffsets (max interval 1) 0 [] 0 pairs).map (· % 2 ^ 32) =
      restartOffsets (max interval 1) 0 [] 0 pairs := by
  nth_rewrite 2 [← map_id (restartOffsets (max interval 1) 0 [] 0 pairs)]
  exact map_congr_left fun r hr => Nat.mod_eq_of_lt (h r hr)

/-- What a block whose bytes lie as the builder writes them gives back. -/
theorem holds_of_layout (tail : Buf)
    (hfit : WordsFit (p :: pairs)) :
    BlockHolds ⟨blockRun interval (p :: pairs) ++ tail,
      0 :: restartOffsets (max interval 1) 0 [] 0 (p :: pairs),
      (blockRun interval (p :: pairs)).length⟩ (p :: pairs) := by
  generalize hb : Block.mk _ _ _ = b
  have hdata : b.data = blockRun interval (p :: pairs) ++ tail := by rw [← hb]
  have hstart : b.restartArrayStart = (blockRun interval (p :: pairs)).length := by rw [← hb]
  have hrestarts : b.restarts = 0 :: restartOffsets (max interval 1) 0 [] 0 (p :: pairs) := by
    rw [← hb]
  have hzero : RunAt b (max interval 1) 0 [] 0 (p :: pairs) :=
    ⟨⟨tail, by rw [drop_zero, hdata, blockRun]⟩, by rw [hstart, Nat.zero_add, blockRun]⟩
  refine ⟨entriesLoop_run hzero hfit (Nat.sub_le _ _), ?_, ?_⟩
  · unfold Block.firstKey
    rw [hrestarts]
    simp [entryAt_run hzero hfit, Except.map]
  intro hsort key
  refine get_run key ?_ (by rw [hrestarts]; exact cons_ne_nil _ _) hzero hfit hsort
  intro _ hr
  rw [hrestarts] at hr
  rcases mem_cons.mp hr with rfl | hr
  · exact ⟨[], p.1, p.2, pairs, rfl, hzero⟩
  obtain ⟨pre, q, post, hpairs, hoff, hrun⟩ := mem_restartOffsets (by omega) hr
  refine ⟨pre, q.1, q.2, post, hpairs, ⟨tail, ?_⟩, ?_⟩
  · have hd : b.data.drop 0 = encodeRun (max interval 1) 0 [] pre ++
        (encodeRun (max interval 1) 0 [] (q :: post) ++ tail) := by
      rw [drop_zero, hdata, blockRun, hrun, append_assoc]
    rw [hoff]
    exact drop_behind hd
  · rw [hstart, blockRun, hrun, length_append, hoff, Nat.zero_add]

/-- The image of a block that is not empty. -/
theorem finish_cons (interval : Nat) (p : Buf × Buf) (pairs : List (Buf × Buf)) :
    let restarts := 0 :: (restartOffsets (max interval 1) 0 [] 0 (p :: pairs)).map (· % 2 ^ 32)
    (builtBlock interval (p :: pairs)).finish = blockRun interval (p :: pairs) ++
      restarts.flatMap putFixed32 ++ putFixed32 restarts.length := by
  have hne : (builtBlock interval (p :: pairs)).buffer.isEmpty = false :=
    builtBlock_isEmpty (p :: pairs)
  unfold BlockBuilder.finish
  rw [hne, if_neg Bool.false_ne_true, builtBlock_buffer, builtBlock, (addAll_eq _ _).2]
  rfl

/-- A block that was built from some pairs holds them. -/
theorem parse_finish (hfit : WordsFit pairs) (hres : RestartsFit interval pairs) :
    ∃ b, Block.parse (builtBlock interval pairs).finish = .ok b ∧ BlockHolds b pairs := by
  cases pairs with
  | nil =>
    have hfinish : (builtBlock interval []).finish = leBytes 4 0 := rfl
    rw [hfinish]
    exact ⟨⟨leBytes 4 0, [], 0⟩, rfl, rfl, rfl, fun _ _ => rfl⟩
  | cons p pairs =>
    have hne : 0 < (blockRun interval (p :: pairs)).length := by
      have hlen := length_entryBytes (sharedWith (max interval 1) 0 [] p.1) p.1 p.2
      rw [blockRun, encodeRun, length_append]
      omega
    have hcount : (restartOffsets (max interval 1) 0 [] 0 (p :: pairs)).length + 1 < 2 ^ 32 := by
      rcases length_restartOffsets _ _ _ _ hres with hnil | hle
      · rw [hnil]
        decide
      · omega
    have hwords : ∀ r ∈ 0 :: restartOffsets (max interval 1) 0 [] 0 (p :: pairs), r < 2 ^ 32 :=
      forall_mem_cons.mpr ⟨by decide, hres⟩
    have hcheck : Block.checkRestarts (blockRun interval (p :: pairs)).length none
        (0 :: restartOffsets (max interval 1) 0 [] 0 (p :: pairs)) = .ok () := by
      rw [Block.checkRestarts, if_neg (by omega), if_neg (by simp)]
      exact checkRestarts_run (.inr ⟨by omega, Nat.le_refl _⟩)
        (by rw [Nat.zero_add]; exact Nat.le_refl _)
    have hfinish := finish_cons interval p pairs
    simp only [hres.map_mod] at hfinish
    rw [hfinish, @parse_layout _ (0 :: _) hcount hwords, hcheck, append_assoc]
    exact ⟨_, rfl, holds_of_layout _ hfit⟩

end ChibiDb.Lsm
