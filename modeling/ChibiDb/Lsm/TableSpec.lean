import ChibiDb.Lsm.BlockSpec
import ChibiDb.Lsm.Table

/-!
# What a Table Gives Back

A table that was built from pairs in ascending key order gives those pairs back.
The builder's cut of the pairs into blocks is a function of the pairs, `cutLoop`;
the image is the blocks, the filter, the index and the footer one behind the
other, and the reader finds each where the words of the footer and of the index
say.

The words must be able to hold what they stand for: `TableFits` says that every
key and every value is shorter than 4 GiB, that every restart of a data block or
of the index block is at an offset below 4 GiB, and that the image is shorter than
2^64 bytes. Pairs of less than 4 GiB together can break this: what the builder adds
to them moves a restart past the last offset a word can hold.

## Main definitions

* `cutLoop`, `tableBlocks`: The data blocks of some pairs.
* `TableFits`: The words of a table can hold its lengths and offsets.
* `TableHolds`: What a table gives back.

## Theorems

* `maybeContains_bloom`: The filter never rejects a key it was built from.
* `parse_build`: A table that was built holds its pairs.
* `build_roundTrips`: A table that fits its words gives back what it was built from.
* `parse_one_block`: What a reader makes of a table of one block.
* `restart_wraps`: Pairs below 4 GiB whose table is rejected.
-/

namespace ChibiDb.Lsm

open List Option Prod
open SSTable (blockAt decodeIndex iterBlocks parse readFirstKey sliceHandle)
open SSTableBuilder (add finish flushBlock footerLen magic new)
open BTreeMap (find find_eq_none_of_ne)

/-! ### The filter -/

theorem bitMask_ne_zero (pos : Nat) : bitMask pos ≠ 0 := by
  have hmask : ∀ i : Fin 8, (1 : UInt8) <<< UInt8.ofNat i.val ≠ 0 := by decide
  exact hmask ⟨pos % 8, by omega⟩

theorem or_and_eq (a b c : UInt8) : (a ||| b) &&& c = (a &&& c) ||| (b &&& c) := by
  apply UInt8.toNat_inj.mp
  simp [Nat.and_or_distrib_right]

theorem length_setBits (bitset : Buf) (ps : List Nat) :
    (ps.foldl setBit bitset).length = bitset.length := by
  induction ps generalizing bitset with
  | nil => rfl
  | cons _ _ ih => rw [foldl_cons, ih, setBit, length_modify]

variable {bitset data rest : Buf} {blockSize n offset pos : Nat}
  {block current pairs : List (Buf × Buf)} {blocks : List (List (Buf × Buf))}

/-- A bit is set if it was, or if it is the one that is being set. -/
theorem bit_setBit {pos' : Nat} (hpos : pos' / 8 < bitset.length)
    (h : pos' = pos ∨ bitset.getD (pos' / 8) 0 &&& bitMask pos' ≠ 0) :
    (setBit bitset pos).getD (pos' / 8) 0 &&& bitMask pos' ≠ 0 := by
  rw [getD_eq_getElem?_getD, getElem?_eq_getElem hpos, getD_some] at h
  rw [setBit, getD_eq_getElem?_getD, getElem?_modify, getElem?_eq_getElem hpos,
    Option.map_eq_map, map_some, getD_some]
  by_cases hp : pos / 8 = pos' / 8
  · rw [if_pos hp, or_and_eq]
    intro h0
    obtain ⟨hold, hnew⟩ := UInt8.or_eq_zero_iff.mp h0
    rcases h with rfl | h
    · rw [UInt8.and_self] at hnew
      exact bitMask_ne_zero _ hnew
    · exact h hold
  · rw [if_neg hp]
    exact h.resolve_left fun he => hp (by rw [he])

theorem bit_setBits {ps : List Nat} (hpos : pos / 8 < bitset.length)
    (h : pos ∈ ps ∨ bitset.getD (pos / 8) 0 &&& bitMask pos ≠ 0) :
    (ps.foldl setBit bitset).getD (pos / 8) 0 &&& bitMask pos ≠ 0 := by
  induction ps generalizing bitset with
  | nil => exact h.resolve_left (by simp)
  | cons _ _ ih =>
    rw [foldl_cons]
    refine ih (by rw [setBit, length_modify]; exact hpos) ?_
    rcases h with h | h
    · rcases mem_cons.mp h with rfl | h
      · exact .inr (bit_setBit hpos (.inl rfl))
      · exact .inl h
    · exact .inr (bit_setBit hpos (.inr h))

theorem probeLoop_lt {bits delta probes p : Nat} (hb : 0 < bits) (hpos : pos < bits)
    (h : p ∈ probeLoop bits delta probes pos) : p < bits := by
  induction probes generalizing pos with
  | zero => simp [probeLoop] at h
  | succ _ ih =>
    rcases mem_cons.mp h with rfl | h
    · exact hpos
    · exact ih (Nat.mod_lt _ hb) h

/-- The filter never rejects a key it was built from. -/
theorem maybeContains_bloom {keys : List Buf} {key : Buf} (h : key ∈ keys) :
    maybeContains (bloomBytes keys) key = true := by
  have hne : keys.isEmpty = false := isEmpty_eq_false_iff.mpr (ne_nil_of_mem h)
  unfold bloomBytes
  rw [hne, if_neg Bool.false_ne_true]
  generalize hbytes : max ((keys.length * 10 + 7) / 8) 8 = bytes
  dsimp only
  rw [← foldl_flatMap (f := fun k => probesOf (bytes * 8) bloomProbes (fnv k))]
  generalize hF : (keys.flatMap fun k => probesOf (bytes * 8) bloomProbes (fnv k)).foldl setBit
    (replicate bytes 0) = F
  have hlen : F.length = bytes := by rw [← hF, length_setBits, length_replicate]
  unfold maybeContains
  rw [length_append, length_singleton, hlen, if_neg (by omega)]
  simp only [getLastD_concat, Nat.add_sub_cancel]
  refine all_eq_true.mpr fun pos hp => decide_eq_true ?_
  have hlt : pos / 8 < bytes := by
    have := probeLoop_lt (by omega) (Nat.mod_lt _ (by omega)) hp
    omega
  rw [getD_eq_getElem?_getD, getElem?_append_left (by omega), ← getD_eq_getElem?_getD, ← hF]
  exact bit_setBits (by rw [length_replicate]; exact hlt) (.inl (mem_flatMap.mpr ⟨key, h, hp⟩))

/-! ### The blocks -/

variable {i : Nat}

theorem addAll_interval (b : BlockBuilder) (pairs : List (Buf × Buf)) :
    (addAll b pairs).restartInterval = b.restartInterval := by
  induction pairs generalizing b with
  | nil => rfl
  | cons p _ ih =>
    rw [addAll, foldl_cons]
    refine (ih (b.add p.1 p.2)).trans ?_
    unfold BlockBuilder.add
    split <;> rfl

/-- The data blocks of some pairs, for a block that holds `current` so far. -/
def cutLoop (i blockSize : Nat) : List (Buf × Buf) → List (Buf × Buf) → List (List (Buf × Buf))
  | current, [] => if current.isEmpty then [] else [current]
  | current, p :: pairs =>
    if (builtBlock i (current ++ [p])).currentSizeEstimate ≥ blockSize then
      (current ++ [p]) :: cutLoop i blockSize [] pairs
    else cutLoop i blockSize (current ++ [p]) pairs

/-- The blocks that pairs are cut into. -/
def tableBlocks (i blockSize : Nat) (pairs : List (Buf × Buf)) : List (List (Buf × Buf)) :=
  cutLoop i (max blockSize 64) [] pairs

theorem cutLoop_flatten (blockSize : Nat) (current pairs : List (Buf × Buf)) :
    (cutLoop i blockSize current pairs).flatten = current ++ pairs := by
  induction pairs generalizing current with
  | nil =>
    rw [cutLoop]
    split
    · rename_i h
      rw [isEmpty_iff.mp h]
      rfl
    · simp
  | cons _ _ ih =>
    rw [cutLoop]
    split
    · rw [flatten_cons, ih]
      simp
    · rw [ih, append_assoc]
      rfl

theorem cutLoop_ne_nil (h : block ∈ cutLoop i blockSize current pairs) : block ≠ [] := by
  induction pairs generalizing current with
  | nil =>
    rw [cutLoop] at h
    split at h
    · cases h
    · rename_i hne
      rw [mem_singleton.mp h]
      simpa using hne
  | cons _ _ ih =>
    rw [cutLoop] at h
    split at h
    · rcases mem_cons.mp h with rfl | h
      · simp
      · exact ih h
    · exact ih h

/-- The bytes of a block. -/
def blockBytes (i : Nat) (block : List (Buf × Buf)) : Buf := (builtBlock i block).finish

/-- The last key of a block. -/
def lastKeyOf (pairs : List (Buf × Buf)) : Buf := (pairs.getLast?.map Prod.fst).getD []

/-- The index of blocks that lie one behind the other from `offset` on. -/
def indexOf (i : Nat) : Nat → List (List (Buf × Buf)) → List (Buf × BlockHandle)
  | _, [] => []
  | offset, block :: blocks =>
    (lastKeyOf block, ⟨offset, (blockBytes i block).length⟩) ::
      indexOf i (offset + (blockBytes i block).length) blocks

/-- The pairs of the index. -/
def indexPairs (i offset : Nat) (blocks : List (List (Buf × Buf))) : List (Buf × Buf) :=
  (indexOf i offset blocks).map fun e => (e.1, e.2.encode)

theorem builtBlock_append (pairs : List (Buf × Buf)) (p : Buf × Buf) :
    builtBlock i (pairs ++ [p]) = (builtBlock i pairs).add p.1 p.2 := by
  rw [builtBlock, addAll, foldl_append]
  rfl

/-- Handing a block over leaves a fresh one behind. -/
theorem flushBlock_eq {b : SSTableBuilder} (hcur : b.current = builtBlock i current)
    (hne : current ≠ []) :
    b.flushBlock = { b with
      data := b.data ++ blockBytes i current
      indexBlock := b.indexBlock.add b.lastKey
        (BlockHandle.encode ⟨b.data.length, (blockBytes i current).length⟩)
      current := builtBlock i [] } := by
  have hreset : (builtBlock i current).reset = builtBlock i [] := by
    have hi : (builtBlock i current).restartInterval = max i 1 := addAll_interval (.new i) current
    unfold BlockBuilder.reset
    rw [hi]
    rfl
  unfold flushBlock
  rw [hcur, builtBlock_isEmpty, isEmpty_eq_false_iff.mpr hne, if_neg Bool.false_ne_true, hreset]
  rfl

/-- By induction on the pairs that are still to come. -/
theorem foldl_add {b : SSTableBuilder}
    (hcur : b.current = builtBlock i current)
    (hlast : current ≠ [] → b.lastKey = lastKeyOf current) :
    let done := (pairs.foldl (fun b p => b.add p.1 p.2) b).flushBlock
    done.data = b.data ++ (cutLoop i b.blockSize current pairs).flatMap (blockBytes i) ∧
      done.indexBlock = addAll b.indexBlock
        (indexPairs i b.data.length (cutLoop i b.blockSize current pairs)) ∧
      done.keys = b.keys ++ pairs.map fst := by
  induction pairs generalizing b current with
  | nil =>
    rw [foldl_nil, cutLoop]
    by_cases hne : current = []
    · subst hne
      unfold flushBlock
      rw [hcur, builtBlock_isEmpty]
      simp [indexPairs, indexOf, addAll]
    · rw [flushBlock_eq hcur hne, hlast hne]
      simp [hne, indexPairs, indexOf, addAll]
  | cons p _ ih =>
    rw [foldl_cons, cutLoop]
    have hne : current ++ [p] ≠ [] := by simp
    have hlk : lastKeyOf (current ++ [p]) = p.1 := by simp [lastKeyOf]
    generalize hb' : { b with
      lastKey := p.1
      current := builtBlock i (current ++ [p])
      keys := b.keys ++ [p.1] : SSTableBuilder } = b'
    have hcur' : b'.current = builtBlock i (current ++ [p]) := by rw [← hb']
    have hadd : b.add p.1 p.2 =
        if (builtBlock i (current ++ [p])).currentSizeEstimate ≥ b.blockSize then b'.flushBlock
        else b' := by
      unfold add
      rw [hcur, ← builtBlock_append, ← hb']
    rw [hadd]
    by_cases hsize : (builtBlock i (current ++ [p])).currentSizeEstimate ≥ b.blockSize
    · rw [if_pos hsize, if_pos hsize, flushBlock_eq hcur' hne]
      obtain ⟨h1, h2, h3⟩ := @ih [] { b' with
        data := b'.data ++ blockBytes i (current ++ [p])
        indexBlock := b'.indexBlock.add b'.lastKey
          (BlockHandle.encode ⟨b'.data.length, (blockBytes i (current ++ [p])).length⟩)
        current := builtBlock i [] } rfl (by simp)
      subst hb'
      refine ⟨?_, ?_, ?_⟩
      · rw [h1, flatMap_cons, append_assoc]
      · rw [h2, indexPairs, indexPairs, indexOf, length_append, hlk]
        rfl
      · rw [h3, map_cons, append_assoc]
        rfl
    · rw [if_neg hsize, if_neg hsize]
      obtain ⟨h1, h2, h3⟩ := ih hcur' (fun _ => by rw [hlk, ← hb'])
      subst hb'
      refine ⟨h1, h2, ?_⟩
      rw [h3, map_cons, append_assoc]
      rfl

/-! ### The image -/

/-- The words of a table can hold its lengths and offsets: every key and every
    value is shorter than 4 GiB, every restart of a data block or of the index block
    is at an offset below 4 GiB, and the image is shorter than 2^64 bytes. -/
structure TableFits (i blockSize : Nat) (pairs : List (Buf × Buf)) : Prop where
  words : WordsFit pairs
  blocks : ∀ block ∈ tableBlocks i blockSize pairs, RestartsFit i block
  index : RestartsFit i (indexPairs i 0 (tableBlocks i blockSize pairs))
  image : (buildTable blockSize i pairs).length < 2 ^ 64

instance decidableTableFits (i blockSize : Nat) (pairs : List (Buf × Buf)) :
    Decidable (TableFits i blockSize pairs) :=
  decidable_of_iff (WordsFit pairs ∧
      (∀ block ∈ tableBlocks i blockSize pairs, RestartsFit i block) ∧
      RestartsFit i (indexPairs i 0 (tableBlocks i blockSize pairs)) ∧
      (buildTable blockSize i pairs).length < 2 ^ 64)
    ⟨fun ⟨h1, h2, h3, h4⟩ => ⟨h1, h2, h3, h4⟩, fun ⟨h1, h2, h3, h4⟩ => ⟨h1, h2, h3, h4⟩⟩

/-- The data blocks one behind the other. -/
def tableData (i blockSize : Nat) (pairs : List (Buf × Buf)) : Buf :=
  (tableBlocks i blockSize pairs).flatMap (blockBytes i)

/-- The bytes of the index. -/
def tableIndex (i blockSize : Nat) (pairs : List (Buf × Buf)) : Buf :=
  (builtBlock i (indexPairs i 0 (tableBlocks i blockSize pairs))).finish

theorem buildTable_eq (i blockSize : Nat) (pairs : List (Buf × Buf)) :
    buildTable blockSize i pairs = tableData i blockSize pairs ++
      (bloomBytes (pairs.map Prod.fst) ++ (tableIndex i blockSize pairs ++
      (leBytes 8 (tableData i blockSize pairs).length ++
      (leBytes 8 (bloomBytes (pairs.map Prod.fst)).length ++
      (leBytes 8 ((tableData i blockSize pairs).length +
        (bloomBytes (pairs.map Prod.fst)).length) ++
      (leBytes 8 (tableIndex i blockSize pairs).length ++ magic)))))) := by
  obtain ⟨h1, h2, h3⟩ := @foldl_add [] pairs i (.new blockSize i) rfl (by simp)
  unfold buildTable finish
  simp only [h1, h2, h3]
  simp [tableData, tableIndex, tableBlocks, new, builtBlock]

theorem word_at (h : data.drop pos = leBytes 8 n ++ rest) (hn : n < 2 ^ 64) :
    ofLeBytes (slice data pos 8) = n := by
  have hs := slice_eq h
  rw [length_leBytes] at hs
  rw [hs, ofLeBytes_leBytes hn]

theorem drop_word (h : data.drop pos = leBytes 8 n ++ rest) : data.drop (pos + 8) = rest := by
  have hd := drop_behind h
  rwa [length_leBytes] at hd

theorem sliceHandle_eq {a : Buf} (h : data.drop pos = a ++ rest) (hpos : pos ≤ data.length) :
    sliceHandle data ⟨pos, a.length⟩ = .ok a := by
  have hlen := congrArg length h
  rw [length_drop, length_append] at hlen
  unfold sliceHandle
  rw [if_pos (by simp only; omega), slice_eq h]

/-- The footer's words lead to the filter and to the index, and the index to the first key. -/
theorem parse_image {D F I image : Buf} {ib : Block} {entries : List (Buf × Buf)}
    {index : List (Buf × BlockHandle)}
    (himage : image = D ++ (F ++ (I ++ (leBytes 8 D.length ++ (leBytes 8 F.length ++
      (leBytes 8 (D.length + F.length) ++ (leBytes 8 I.length ++ magic)))))))
    (hlen : image.length < 2 ^ 64) (hI : Block.parse I = .ok ib)
    (he : ib.toEntries = .ok entries) (hindex : decodeIndex entries = .ok index) :
    parse image = (readFirstKey image index).map fun first =>
      ⟨image, index, F, first, (index.getLast?.map Prod.fst).getD [], none⟩ := by
  have hsize : image.length = D.length + F.length + I.length + 40 := by
    rw [himage]
    simp only [length_append, length_leBytes]
    rw [show magic.length = 8 from rfl]
    omega
  have h0 : image.drop 0 = _ := himage
  have hF := drop_behind h0
  have hI' := drop_behind hF
  have hw0 := drop_behind hI'
  have hw1 := drop_word hw0
  have hw2 := drop_word hw1
  have hw3 := drop_word hw2
  have hmagic := drop_word hw3
  rw [Nat.zero_add] at hF hI' hw0 hw1 hw2 hw3 hmagic
  have hfoot : image.length - footerLen = D.length + F.length + I.length := by
    rw [hsize]
    rfl
  have hm : slice image (image.length - 8) 8 = magic := by
    rw [show image.length - 8 = D.length + F.length + I.length + 8 + 8 + 8 + 8 by omega, slice,
      hmagic]
    rfl
  unfold parse
  rw [if_neg (by rw [hsize, footerLen]; omega), if_neg (by rw [hm]; simp)]
  simp [hfoot, word_at hw0 (by omega), word_at hw1 (by omega), show 8 * 2 = 8 + 8 from rfl,
    show 8 * 3 = 8 + 8 + 8 from rfl, word_at hw2 (by omega),
    word_at hw3 (by omega), blockAt, sliceHandle_eq hF (by omega),
    sliceHandle_eq hI' (by omega), hI, he, hindex, bind, Except.bind]
  cases readFirstKey image index <;> rfl

/-! ### Reading the blocks -/

theorem decode_encode {h : BlockHandle} (ho : h.offset < 2 ^ 64) (hs : h.size < 2 ^ 64) :
    BlockHandle.decode h.encode = .ok h := by
  have h0 : h.encode.drop 0 = putVarint64 h.offset ++ putVarint64 h.size := rfl
  have h1 := drop_behind h0
  rw [← append_nil (putVarint64 h.size)] at h1
  unfold BlockHandle.decode
  simp only [getVarint64_put ho h0, getVarint64_put hs h1, bind, Except.bind]

theorem decodeIndex_indexPairs
    (h : offset + (blocks.flatMap (blockBytes i)).length < 2 ^ 64) :
    decodeIndex (indexPairs i offset blocks) = .ok (indexOf i offset blocks) := by
  induction blocks generalizing offset with
  | nil => rfl
  | cons block _ ih =>
    rw [flatMap_cons, length_append] at h
    have hrest := @ih (offset + (blockBytes i block).length) (by omega)
    unfold indexPairs at hrest ⊢
    rw [indexOf, map_cons, decodeIndex,
      decode_encode (by simp only; omega) (by simp only; omega)]
    simp only [bind, Except.bind, hrest]

/-- The blocks stand one behind the other from `offset` on, and each holds its pairs. -/
def BlocksAt (i : Nat) (data : Buf) (offset : Nat) (blocks : List (List (Buf × Buf))) : Prop :=
  ∃ rest, data.drop offset = blocks.flatMap (blockBytes i) ++ rest ∧ offset ≤ data.length ∧
    ∀ block ∈ blocks, WordsFit block ∧ RestartsFit i block

theorem BlocksAt.cons (h : BlocksAt i data offset (block :: blocks)) :
    (∃ b, blockAt data ⟨offset, (blockBytes i block).length⟩ = .ok b ∧ BlockHolds b block) ∧
      BlocksAt i data (offset + (blockBytes i block).length) blocks := by
  obtain ⟨rest, hd, hoff, hfit⟩ := h
  rw [flatMap_cons, append_assoc] at hd
  have hlen := congrArg length hd
  rw [length_drop, length_append] at hlen
  obtain ⟨hw, hrun⟩ := hfit block mem_cons_self
  obtain ⟨b, hb, hholds⟩ := parse_finish hw hrun
  refine ⟨⟨b, ?_, hholds⟩, rest, drop_behind hd, by omega, (forall_mem_cons.mp hfit).2⟩
  unfold blockAt
  simp only [sliceHandle_eq hd hoff, bind, Except.bind]
  exact hb

theorem iterBlocks_eq (h : BlocksAt i data offset blocks) :
    iterBlocks data (indexOf i offset blocks) = .ok blocks.flatten := by
  induction blocks generalizing offset with
  | nil => rfl
  | cons _ _ ih =>
    obtain ⟨⟨_, hb, hholds⟩, hrest⟩ := h.cons
    rw [indexOf, iterBlocks]
    simp [hb, hholds.entries, ih hrest, bind, Except.bind]

theorem le_lastKeyOf (hs : Ascending pairs) : ∀ p ∈ pairs, p.1 ≤ lastKeyOf pairs := by
  intro p hp
  rcases eq_nil_or_concat' pairs with rfl | ⟨init, x, rfl⟩
  · cases hp
  have hlast : lastKeyOf (init ++ [x]) = x.1 := by simp [lastKeyOf]
  obtain ⟨-, -, hcross⟩ := pairwise_append.mp hs
  rw [hlast]
  rcases mem_append.mp hp with hp | hp
  · exact (hcross p hp x mem_cons_self).le
  · rw [mem_singleton.mp hp]

theorem lastKeyOf_mem (hne : pairs ≠ []) : ∃ p ∈ pairs, p.1 = lastKeyOf pairs := by
  rcases eq_nil_or_concat' pairs with rfl | ⟨_, x, rfl⟩
  · exact absurd rfl hne
  · exact ⟨x, by simp, by simp [lastKeyOf]⟩

/-- The block that the index leads to is the only one that can hold the key. -/
theorem index_leads {key : Buf}
    (h : BlocksAt i data offset blocks) (hne : ∀ block ∈ blocks, block ≠ [])
    (hs : Ascending blocks.flatten) :
    (match (indexOf i offset blocks).dropWhile (fun e => decide (e.1 < key)) with
      | [] => .ok none
      | (_, handle) :: _ => do
        let block ← blockAt data handle
        block.get key) = Except.ok (ε := LsmError) (find key blocks.flatten) := by
  induction blocks generalizing offset with
  | nil => rfl
  | cons block blocks ih =>
    obtain ⟨⟨_, hb, hholds⟩, hrest⟩ := h.cons
    rw [flatten_cons] at hs
    obtain ⟨hblock, htail, hcross⟩ := pairwise_append.mp hs
    rw [indexOf, flatten_cons, BTreeMap.find_append]
    by_cases hlast : lastKeyOf block < key
    · rw [dropWhile_cons_of_pos (by simpa using hlast), ih hrest
        (forall_mem_cons.mp hne).2 htail, find_eq_none_of_ne key block, none_or]
      intro p hp
      exact ((le_lastKeyOf hblock p hp).trans_lt hlast).ne
    · rw [dropWhile_cons_of_neg (by simpa using hlast)]
      obtain ⟨x, hx, hxl⟩ := lastKeyOf_mem (hne block mem_cons_self)
      have hnone : find key blocks.flatten = none := by
        apply BTreeMap.find_eq_none_of_lt
        intro p hp
        exact (not_lt.mp hlast).trans_lt (hxl ▸ hcross x hx p hp)
      simp [hb, bind, Except.bind, hholds.get hblock, hnone]

theorem index_last (offset : Nat) (hne : ∀ block ∈ blocks, block ≠ []) :
    ((indexOf i offset blocks).getLast?.map Prod.fst).getD [] = lastKeyOf blocks.flatten := by
  induction blocks generalizing offset with
  | nil => rfl
  | cons block blocks ih =>
    have htail := ih (offset + (blockBytes i block).length) (forall_mem_cons.mp hne).2
    cases blocks with
    | nil => simp [indexOf]
    | cons next blocks =>
      have hflat : (next :: blocks).flatten ≠ [] := by
        simp [hne next (mem_cons_of_mem _ mem_cons_self)]
      have hlast : lastKeyOf (block ++ (next :: blocks).flatten) =
          lastKeyOf (next :: blocks).flatten := by
        rw [lastKeyOf, lastKeyOf, getLast?_append_of_ne_nil _ hflat]
      rw [indexOf] at htail ⊢
      rw [indexOf, getLast?_cons_cons, htail]
      exact hlast.symm

theorem length_putVarint_le (groups value : Nat) :
    (putVarint groups value).length ≤ groups + 1 := by
  induction groups generalizing value with
  | zero => exact Nat.le_refl _
  | succ _ ih =>
    rw [putVarint]
    split
    · exact Nat.le_add_left _ _
    · exact Nat.succ_le_succ (ih _)

theorem mem_indexPairs {p : Buf × Buf} (h : p ∈ indexPairs i offset blocks) :
    (∃ block ∈ blocks, p.1 = lastKeyOf block) ∧ p.2.length ≤ 20 := by
  unfold indexPairs at h
  induction blocks generalizing offset with
  | nil => simp [indexOf] at h
  | cons block _ ih =>
    rw [indexOf, map_cons] at h
    rcases mem_cons.mp h with rfl | h
    · have h1 := length_putVarint_le 9 (offset % 2 ^ 64)
      have h2 := length_putVarint_le 9 ((blockBytes i block).length % 2 ^ 64)
      refine ⟨⟨block, mem_cons_self, rfl⟩, ?_⟩
      simp only [BlockHandle.encode, length_append, putVarint64]
      omega
    · obtain ⟨⟨blk, hblk, hk⟩, hlen⟩ := ih h
      exact ⟨⟨blk, mem_cons_of_mem _ hblk, hk⟩, hlen⟩

/-- What a table gives back. -/
structure TableHolds (t : SSTable) (pairs : List (Buf × Buf)) : Prop where
  iter : t.iter = .ok pairs
  skip : ∀ key, t.mayContain key = false → find key pairs = none
  get : ∀ key, t.get key = .ok (find key pairs)

/-- The keys of the index are keys of the blocks, and its handles are short. -/
theorem wordsFit_indexPairs (h : BlocksAt i data 0 blocks) (hne : ∀ block ∈ blocks, block ≠ []) :
    WordsFit (indexPairs i 0 blocks) := by
  intro p hp
  obtain ⟨⟨block, hb, hk⟩, _⟩ := mem_indexPairs hp
  obtain ⟨x, hx, hxl⟩ := lastKeyOf_mem (hne block hb)
  obtain ⟨-, -, -, hfits⟩ := h
  rw [hk, ← hxl]
  exact ⟨((hfits block hb).1 x hx).1, by omega⟩

/-- The first key of the first block is the first of all. -/
theorem readFirstKey_blocks (h : BlocksAt i data 0 blocks) (hne : ∀ block ∈ blocks, block ≠ []) :
    readFirstKey data (indexOf i 0 blocks) = .ok ((blocks.flatten.head?.map fst).getD []) := by
  cases blocks with
  | nil => rfl
  | cons block =>
    obtain ⟨⟨_, hat, hholds⟩, -⟩ := h.cons
    rw [indexOf, readFirstKey]
    simp only [hat, hholds.firstKey, bind, Except.bind, flatten_cons]
    rw [head?_append_of_ne_nil _ (hne block mem_cons_self)]

theorem head_le (hs : Ascending pairs) {p : Buf × Buf} (hp : p ∈ pairs) :
    (pairs.head?.map fst).getD [] ≤ p.1 := by
  cases pairs with
  | nil => cases hp
  | cons =>
    rcases mem_cons.mp hp with rfl | hp
    · exact le_refl _
    · exact ((pairwise_cons.mp hs).1 p hp).le

/-- A table that was built from some pairs in ascending key order holds them. -/
theorem parse_build (hs : Ascending pairs) (hfit : TableFits i blockSize pairs) :
    ∃ t, parse (buildTable blockSize i pairs) = .ok t ∧ TableHolds t pairs := by
  generalize himage : buildTable blockSize i pairs = image
  have hlayout := buildTable_eq i blockSize pairs
  have hlen := hfit.image
  have hflat : (tableBlocks i blockSize pairs).flatten = pairs := cutLoop_flatten _ [] pairs
  have hne : ∀ block ∈ tableBlocks i blockSize pairs, block ≠ [] := fun block h => cutLoop_ne_nil h
  rw [himage] at hlayout hlen
  have hblocks : BlocksAt i image 0 (tableBlocks i blockSize pairs) := by
    refine ⟨_, hlayout, Nat.zero_le _, fun block hb => ⟨fun p hp => hfit.words p ?_,
      hfit.blocks block hb⟩⟩
    rw [← hflat]
    exact mem_flatten_of_mem hb hp
  have hdata : (tableData i blockSize pairs).length ≤ image.length := by
    rw [hlayout, length_append]
    omega
  -- the index block reads back, and its handles with it
  obtain ⟨_, hib, hindex⟩ := parse_finish (wordsFit_indexPairs hblocks hne) hfit.index
  have hdecode := @decodeIndex_indexPairs 0 (tableBlocks i blockSize pairs) i
    (by rw [Nat.zero_add]; exact hdata.trans_lt hlen)
  have hparse := parse_image hlayout hlen hib hindex.entries hdecode
  rw [readFirstKey_blocks hblocks hne, hflat] at hparse
  refine ⟨_, hparse, (iterBlocks_eq hblocks).trans (by rw [hflat]), ?_, ?_⟩
  · intro key hkey
    apply find_eq_none_of_ne
    rintro p hp rfl
    -- the table is not empty, and the key is between its first and its last
    have hle := le_lastKeyOf hs p hp
    have hindexne : indexOf i 0 (tableBlocks i blockSize pairs) ≠ [] := by
      intro hnil
      have hiter := iterBlocks_eq hblocks
      rw [hnil, hflat, iterBlocks] at hiter
      rw [← Except.ok.inj hiter] at hp
      cases hp
    rw [← hflat, ← @index_last _ i 0 hne] at hle
    unfold SSTable.mayContain at hkey
    simp [hindexne, head_le hs hp, hle] at hkey
  · intro key
    have hleads := @index_leads _ _ _ _ key hblocks hne (hflat.symm ▸ hs)
    unfold SSTable.get
    rw [hflat] at hleads
    by_cases hbloom : maybeContains (bloomBytes (pairs.map fst)) key = true
    · simp only [hbloom]
      exact hleads
    have hnone : find key pairs = none := by
      apply find_eq_none_of_ne
      rintro _ hp rfl
      exact hbloom (maybeContains_bloom (mem_map_of_mem hp))
    simp only [hbloom]
    exact congrArg Except.ok hnone.symm

/-- **Tables round-trip.** A table whose words can hold its lengths and offsets gives back the
    pairs it was built from: all of them in order, the value of each listed key and nothing for any
    other, and no listed key is ruled out. -/
theorem build_roundTrips (hs : Ascending pairs) (hfit : TableFits i blockSize pairs) :
    ∃ t, parse (buildTable blockSize i pairs) = .ok t ∧ t.iter = .ok pairs ∧
      (∀ p ∈ pairs, t.get p.1 = .ok (some p.2) ∧ t.mayContain p.1 = true) ∧
      ∀ key, (∀ p ∈ pairs, p.1 ≠ key) → t.get key = .ok none := by
  obtain ⟨t, hparse, hholds⟩ := parse_build hs hfit
  refine ⟨t, hparse, hholds.iter, fun p hp => ?_, fun key hkey => ?_⟩
  · have hfind := (BTreeMap.mem_find_iff p.1 p.2 hs).mp hp
    refine ⟨(hholds.get p.1).trans (congrArg Except.ok hfind), ?_⟩
    by_contra hno
    rw [hholds.skip p.1 (Bool.eq_false_iff.mpr hno)] at hfind
    cases hfind
  · rw [hholds.get, find_eq_none_of_ne key pairs hkey]

/-- Five pairs with common prefixes, cut into two data blocks with a restart at every second
    entry. -/
theorem build_roundTrips_blocks :
    let pairs : List (Buf × Buf) := [([1], replicate 20 7), ([1, 2], replicate 20 8), ([1, 3], []),
      ([1, 3, 0], replicate 20 9), ([2], [5])]
    (tableBlocks 2 64 pairs).length = 2 ∧
      ∃ t, parse (buildTable 64 2 pairs) = .ok t ∧ t.iter = .ok pairs ∧
        t.get [1, 3, 0] = .ok (some (replicate 20 9)) ∧ t.get [1, 4] = .ok none := by
  intro pairs
  have hfit : TableFits 2 64 pairs := by decide +kernel
  obtain ⟨t, hparse, hiter, hget, hnone⟩ := @build_roundTrips 64 pairs 2
    (by unfold Ascending; decide +kernel) hfit
  exact ⟨by decide +kernel, t, hparse, hiter, (hget ([1, 3, 0], _) (by simp [pairs])).1,
    hnone [1, 4] (by decide +kernel)⟩

/-! ### A table of one block -/

theorem length_entryBytes_le (shared : Nat) (key value : Buf) :
    (BlockBuilder.entryBytes shared key value).length ≤ key.length + value.length + 15 := by
  have h1 := length_putVarint_le 4 (shared % 2 ^ 32)
  have h2 := length_putVarint_le 4 ((key.length - shared) % 2 ^ 32)
  have h3 := length_putVarint_le 4 (value.length % 2 ^ 32)
  rw [BlockBuilder.entryBytes]
  simp only [length_append, putVarint32, length_drop]
  omega

/-- The first entry of a block is no restart of its own. -/
theorem restartOffsets_single (i : Nat) (p : Buf × Buf) :
    restartOffsets (max i 1) 0 [] 0 [p] = [] := by
  rw [restartOffsets, restartOffsets, if_pos (by omega), nil_append]

theorem blockRun_single (i : Nat) (key value : Buf) :
    blockRun i [(key, value)] = BlockBuilder.entryBytes 0 key value := by
  have hshared : sharedWith (max i 1) 0 [] key = 0 := by
    rw [sharedWith, if_pos (by omega)]
    cases key <;> rfl
  rw [blockRun, encodeRun, encodeRun, append_nil, hshared]

theorem blockBytes_single (i : Nat) (key value : Buf) :
    blockBytes i [(key, value)] = BlockBuilder.entryBytes 0 key value ++
      [0].flatMap putFixed32 ++ putFixed32 [0].length := by
  have hfinish := finish_cons i (key, value) []
  rw [restartOffsets_single, blockRun_single] at hfinish
  exact hfinish

/-- What a reader makes of a table of one block: it reads that block for the first key. -/
theorem parse_one_block (hblocks : tableBlocks i blockSize pairs = [pairs])
    (hkey : (lastKeyOf pairs).length < 2 ^ 32)
    (hbloom : (bloomBytes (pairs.map fst)).length < 2 ^ 32)
    (hdata : (blockBytes i pairs).length < 2 ^ 63) :
    let image := buildTable blockSize i pairs
    let handle : BlockHandle := ⟨0, (blockBytes i pairs).length⟩
    blockAt image handle = Block.parse (blockBytes i pairs) ∧
      parse image = (readFirstKey image [(lastKeyOf pairs, handle)]).map fun first =>
        ⟨image, [(lastKeyOf pairs, handle)], bloomBytes (pairs.map fst), first, lastKeyOf pairs,
          none⟩ := by
  intro image handle
  have hlayout := buildTable_eq i blockSize pairs
  unfold tableData tableIndex at hlayout
  rw [hblocks, flatMap_singleton] at hlayout
  have hpairs : indexPairs i 0 [pairs] = [(lastKeyOf pairs, handle.encode)] := rfl
  have hhandle : handle.encode.length ≤ 20 := (mem_indexPairs
    (hpairs ▸ mem_singleton_self (lastKeyOf pairs, handle.encode))).2
  -- The index block holds one pair, so it reads back.
  obtain ⟨_, hib, hholds⟩ := @parse_finish i [(lastKeyOf pairs, handle.encode)]
    (by
      intro _ hp
      rw [mem_singleton.mp hp]
      exact ⟨hkey, hhandle.trans_lt (by decide)⟩)
    (by
      intro _ hr
      rw [restartOffsets_single] at hr
      cases hr)
  have hindex : (builtBlock i [(lastKeyOf pairs, handle.encode)]).finish.length < 2 ^ 33 := by
    have hentry := length_entryBytes_le 0 (lastKeyOf pairs) handle.encode
    have hbytes := congrArg length (blockBytes_single i (lastKeyOf pairs) handle.encode)
    rw [blockBytes, length_append, length_append] at hbytes
    rw [hbytes, show (([0] : List Nat).flatMap putFixed32).length = 4 from rfl,
      show (putFixed32 ([0] : List Nat).length).length = 4 from rfl]
    omega
  have hdecode := @decodeIndex_indexPairs 0 [pairs] i (by rw [flatMap_singleton]; omega)
  have hlen : image.length < 2 ^ 64 := by
    change (buildTable blockSize i pairs).length < _
    rw [hlayout, hpairs]
    simp only [length_append, length_leBytes, SSTableBuilder.magic, length_cons, length_nil]
    omega
  rw [hpairs] at hdecode hlayout
  refine ⟨?_, parse_image hlayout hlen hib hholds.entries hdecode⟩
  unfold blockAt
  rw [sliceHandle_eq (by rw [drop_zero]; exact hlayout) (Nat.zero_le _)]
  rfl

/-! ### A restart that no word can hold -/

/-- The first entry has four bytes, and the second, whose value is `v`, ends where the offsets of
    32 bits do. -/
theorem length_wrap {v : Buf} (hv : v.length + 12 = 2 ^ 32) :
    (BlockBuilder.entryBytes 0 [0] []).length = 4 ∧
      4 + (BlockBuilder.entryBytes 0 [1] v).length = 2 ^ 32 := by
  have hword : (putVarint32 v.length).length = 5 := by
    rw [show v.length = 2 ^ 32 - 12 by omega]
    decide
  refine ⟨by decide, ?_⟩
  rw [BlockBuilder.entryBytes]
  simp only [length_append, drop_zero, hword]
  rw [show (putVarint32 0).length = 1 by decide, show ([1] : Buf).length = 1 from rfl,
    show (putVarint32 (1 - 0)).length = 1 by decide]
  omega

theorem restartOffsets_wrap {v : Buf} (hv : v.length + 12 = 2 ^ 32) :
    restartOffsets 1 0 [] 0 [([0], []), ([1], v), ([2], [])] = [4, 2 ^ 32] := by
  obtain ⟨hfirst, hsecond⟩ := length_wrap hv
  change [0 + (BlockBuilder.entryBytes 0 [0] []).length,
    0 + (BlockBuilder.entryBytes 0 [0] []).length + (BlockBuilder.entryBytes 0 [1] v).length] = _
  rw [Nat.zero_add, hfirst, hsecond]

theorem length_run_wrap {v : Buf} (hv : v.length + 12 = 2 ^ 32) :
    (blockRun 1 [([0], []), ([1], v), ([2], [])]).length = 2 ^ 32 + 4 := by
  obtain ⟨hfirst, hsecond⟩ := length_wrap hv
  change (BlockBuilder.entryBytes 0 [0] [] ++ (BlockBuilder.entryBytes 0 [1] v ++
    (BlockBuilder.entryBytes 0 [2] [] ++ []))).length = _
  rw [length_append, length_append, hfirst, ← Nat.add_assoc, hsecond]
  rfl

/-- The third offset is cut to 0, which is not above the second. -/
theorem parse_wrap {v : Buf} (hv : v.length + 12 = 2 ^ 32) :
    Block.parse (blockBytes 1 [([0], []), ([1], v), ([2], [])]) = .error .restartsNotSorted ∧
      (blockBytes 1 [([0], []), ([1], v), ([2], [])]).length = 2 ^ 32 + 20 := by
  have hrun := length_run_wrap hv
  have hfinish := finish_cons 1 ([0], []) [([1], v), ([2], [])]
  rw [show max 1 1 = 1 from rfl, restartOffsets_wrap hv] at hfinish
  rw [blockBytes, hfinish]
  generalize blockRun 1 [([0], []), ([1], v), ([2], [])] = run at hrun
  constructor
  · have hlayout := @parse_layout run [0, 4, 0] (by decide) (by decide)
    have hcheck : Block.checkRestarts run.length none [0, 4, 0] = .error .restartsNotSorted := by
      rw [Block.checkRestarts, if_neg (by omega), if_neg (by simp), Block.checkRestarts,
        if_neg (by omega), if_neg (by simp), Block.checkRestarts, if_neg (by omega),
        if_pos (by simp)]
    rw [hcheck] at hlayout
    exact hlayout
  · rw [length_append, length_append, hrun]
    rfl

/-- Nothing is cut: with the block size 2^33 all three pairs stand in one block. -/
theorem tableBlocks_wrap {v : Buf} (hv : v.length + 12 = 2 ^ 32) :
    tableBlocks 1 (2 ^ 33) [([0], []), ([1], v), ([2], [])] =
      [[([0], []), ([1], v), ([2], [])]] := by
  obtain ⟨hfirst, hsecond⟩ := length_wrap hv
  have hone : (builtBlock 1 [([0], [])]).currentSizeEstimate < 2 ^ 33 := by decide
  have htwo : (builtBlock 1 [([0], []), ([1], v)]).currentSizeEstimate < 2 ^ 33 := by
    change (BlockBuilder.entryBytes 0 [0] [] ++ BlockBuilder.entryBytes 0 [1] v).length + 12 < _
    rw [length_append, hfirst, hsecond]
    decide
  have hthree : (builtBlock 1 [([0], []), ([1], v), ([2], [])]).currentSizeEstimate < 2 ^ 33 := by
    have hrun := length_run_wrap hv
    rw [← builtBlock_buffer] at hrun
    have hrestarts : (builtBlock 1 [([0], []), ([1], v), ([2], [])]).restarts.length = 3 := rfl
    unfold BlockBuilder.currentSizeEstimate
    rw [hrun, hrestarts]
    decide
  rw [tableBlocks, cutLoop, nil_append, if_neg (by omega), cutLoop, singleton_append,
    if_neg (by omega), cutLoop, cons_append, singleton_append, if_neg (by omega), cutLoop]
  rfl

theorem parse_table_wrap {v : Buf} (hv : v.length + 12 = 2 ^ 32) :
    let pairs : List (Buf × Buf) := [([0], []), ([1], v), ([2], [])]
    Ascending pairs ∧ (pairs.map fun p => p.1.length + p.2.length).sum < 2 ^ 32 ∧
      parse (buildTable (2 ^ 33) 1 pairs) = .error .restartsNotSorted := by
  intro pairs
  have hkeys : (pairs.map fst).Pairwise (· < ·) :=
    (by decide : ([[0], [1], [2]] : List Buf).Pairwise (· < ·))
  refine ⟨pairwise_map.mp hkeys, ?_, ?_⟩
  · simp only [pairs, map_cons, map_nil, sum_cons, sum_nil, length_cons, length_nil]
    omega
  obtain ⟨hparse, hlen⟩ := parse_wrap hv
  obtain ⟨hat, htable⟩ := parse_one_block (tableBlocks_wrap hv)
    (show ([2] : Buf).length < 2 ^ 32 by decide)
    (show (bloomBytes [[0], [1], [2]]).length < 2 ^ 32 by decide) (by rw [hlen]; decide)
  rw [htable, readFirstKey, hat, hparse]
  rfl

/-- **A table below 4 GiB that is not read.** Three pairs with 2^32 - 9 bytes together, in one block
    with a restart at every entry: the third restart is at the offset 2^32, its word holds 0, and
    the reader finds the restarts out of order. -/
theorem restart_wraps :
    let pairs : List (Buf × Buf) := [([0], []), ([1], replicate (2 ^ 32 - 12) 0), ([2], [])]
    Ascending pairs ∧ (pairs.map fun p => p.1.length + p.2.length).sum < 2 ^ 32 ∧
      parse (buildTable (2 ^ 33) 1 pairs) = .error .restartsNotSorted := by
  have hv : (replicate (2 ^ 32 - 12) (0 : UInt8)).length + 12 = 2 ^ 32 := by
    rw [length_replicate]
    omega
  exact parse_table_wrap hv

end ChibiDb.Lsm
