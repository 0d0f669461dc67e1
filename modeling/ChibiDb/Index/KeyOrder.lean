import ChibiDb.Index.Key

/-!
# The Order of Encoded Keys

An index compares its keys byte by byte, the evaluator compares values. For NULL and
the values of one type among integers, dates and strings the two agree: a number is
written most significant byte first with its sign flipped, and the zero behind a string
is no larger than any byte that could stand there, a zero of the string itself
included.

## Main definitions

* `cmpBytes`: Byte-wise lexicographic comparison.
* `cmpValues`, `cmpSortKeys`: The evaluator's comparisons.
* `OfType`: NULL, or a value of the type.

## Theorems

* `cmpBytes_beBytes`: Big-endian numbers of one width compare as the numbers.
* `cmpBytes_terminated`: Zero-terminated strings compare as the strings.
* `encodeKey_keeps_order`: Encoded keys compare as the values.
-/

namespace ChibiDb

open List

/-- Byte-wise lexicographic comparison, a proper prefix first. -/
def cmpBytes : List UInt8 → List UInt8 → Ordering
  | [], [] => .eq
  | [], _ :: _ => .lt
  | _ :: _, [] => .gt
  | x :: xs, y :: ys => (compareOfLessAndEq x.toNat y.toNat).then (cmpBytes xs ys)

section Evaluator

/-! ### The evaluator -/

-- How floats compare, an integer as a float, and the date a text stands for.
variable (partialCmp : UInt64 → UInt64 → Option Ordering) (intAsFloat : Int → UInt64)
  (parseDate : String → Except String Int)

/-- The evaluator's comparison of two values. Strings compare by their bytes. -/
def cmpValues : Value → Value → Except String (Option Ordering)
  | .null, _ => .ok none
  | _, .null => .ok none
  | .int a, .int b => .ok (some (compareOfLessAndEq a b))
  | .int a, .float b => .ok (partialCmp (intAsFloat a) b)
  | .float a, .int b => .ok (partialCmp a (intAsFloat b))
  | .float a, .float b => .ok (partialCmp a b)
  | .str a, .str b => .ok (some (cmpBytes a.toUTF8.data.toList b.toUTF8.data.toList))
  | .bool a, .bool b => .ok (some (compareOfLessAndEq a.toNat b.toNat))
  | .date a, .date b => .ok (some (compareOfLessAndEq a b))
  | .date a, .str b => (parseDate b).map fun d => some (compareOfLessAndEq a d)
  | .str a, .date b => (parseDate a).map fun d => some (compareOfLessAndEq d b)
  | _, _ => .error "type mismatch in expression"

/-- The comparison of rows by their sort keys, each ascending or descending. NULL is the
    smallest, and values that do not compare count as equal. -/
def cmpSortKeys : List Bool → List Value → List Value → Ordering
  | desc :: orderBy, va :: a, vb :: b =>
    let ord := match va, vb with
      | .null, .null => .eq
      | .null, _ => .lt
      | _, .null => .gt
      | _, _ => match cmpValues partialCmp intAsFloat parseDate va vb with
        | .ok (some ord) => ord
        | _ => .eq
    let ord := if desc then ord.swap else ord
    if ord ≠ .eq then ord else cmpSortKeys orderBy a b
  | _, _, _ => .eq

end Evaluator

/-! ### Bytes -/

variable {x y : Nat} {xs ys us vs : List UInt8}

theorem compare_eq_eq {α : Type} [LT α] [DecidableLT α] [DecidableEq α] {a b : α}
    (h : ¬ a < a) : compareOfLessAndEq a b = .eq ↔ a = b := by
  unfold compareOfLessAndEq
  split_ifs with hlt heq
  · exact ⟨nofun, fun heq => absurd (heq ▸ hlt) h⟩
  · exact iff_of_true rfl heq
  · exact iff_of_false nofun heq

theorem cmpBytes_eq_eq : cmpBytes xs ys = .eq ↔ xs = ys := by
  induction xs generalizing ys with
  | nil => cases ys <;> simp [cmpBytes]
  | cons x xs ih =>
    cases ys with
    | nil => simp [cmpBytes]
    | cons =>
      rw [cmpBytes, Ordering.then_eq_eq, compare_eq_eq (Nat.lt_irrefl _), ih, UInt8.toNat_inj,
        cons.injEq]

theorem cmpBytes_append (h : xs.length = ys.length) :
    cmpBytes (xs ++ us) (ys ++ vs) = (cmpBytes xs ys).then (cmpBytes us vs) := by
  induction xs generalizing ys with
  | nil => rw [length_eq_zero_iff.mp h.symm]; rfl
  | cons _ _ ih =>
    cases ys with
    | nil => cases h
    | cons =>
      rw [cons_append, cons_append, cmpBytes, cmpBytes, ih (Nat.succ.inj h), Ordering.then_assoc]

/-- Big-endian numbers of one width compare as the numbers. -/
theorem cmpBytes_beBytes {w : Nat} (hx : x < 256 ^ w) (hy : y < 256 ^ w) :
    cmpBytes (beBytes w x) (beBytes w y) = compareOfLessAndEq x y := by
  induction w generalizing x y with
  | zero =>
    obtain rfl : x = 0 := by omega
    obtain rfl : y = 0 := by omega
    rfl
  | succ w ih =>
    rw [pow_succ] at hx hy
    have hhigh := ih (x := x / 256) (y := y / 256) (by omega) (by omega)
    unfold beBytes at hhigh ⊢
    rw [leBytes, leBytes, reverse_cons, reverse_cons, cmpBytes_append (by simp), hhigh]
    simp only [cmpBytes, UInt8.toNat_ofNat', compareOfLessAndEq]
    -- the higher bytes decide, and the lowest one if they are equal
    rcases Nat.lt_trichotomy (x / 256) (y / 256) with h | h | h
    · have hxy : x < y := by omega
      rw [if_pos h, if_pos hxy]
      rfl
    · have hlt : x % 2 ^ 8 < y % 2 ^ 8 ↔ x < y := by omega
      have heq : x % 2 ^ 8 = y % 2 ^ 8 ↔ x = y := by omega
      rw [if_neg (by omega), if_pos h, if_congr hlt rfl (if_congr heq rfl rfl)]
      exact Ordering.then_eq
    · have hxy : ¬ x < y ∧ x ≠ y := by omega
      rw [if_neg (by omega), if_neg (by omega), if_neg hxy.1, if_neg hxy.2]
      rfl

/-- Zero-terminated strings compare as the strings. -/
theorem cmpBytes_terminated (xs ys : List UInt8) :
    cmpBytes (xs ++ [0]) (ys ++ [0]) = cmpBytes xs ys := by
  -- where one ends, its zero stands against a byte that has at least one more behind it
  have hends : ∀ (z : UInt8) (zs : List UInt8), cmpBytes [0] (z :: zs ++ [0]) = .lt ∧
      cmpBytes (z :: zs ++ [0]) [0] = .gt := by
    intro z zs
    cases zs <;> by_cases hz : z.toNat = 0 <;>
      simp [cmpBytes, compareOfLessAndEq, hz, Nat.pos_of_ne_zero]
  induction xs generalizing ys with
  | nil =>
    cases ys with
    | nil => rfl
    | cons y ys => exact (hends y ys).1
  | cons x xs ih =>
    cases ys with
    | nil => exact (hends x xs).2
    | cons => rw [cons_append, cons_append, cmpBytes, cmpBytes, ih]

/-! ### Keys -/

/-- The types of keys whose order is compared. -/
inductive KeyType where
  | int
  | date
  | str
  deriving DecidableEq, Repr

/-- NULL, or a value of the type: a 64-bit integer, a 32-bit date or any string. -/
def OfType : KeyType → Value → Prop
  | _, .null => True
  | .int, .int n => -2 ^ 63 ≤ n ∧ n < 2 ^ 63
  | .date, .date d => -2 ^ 31 ≤ d ∧ d < 2 ^ 31
  | .str, .str _ => True
  | _, _ => False

/-- Flipping the sign keeps the order of `8 * w`-bit integers. -/
theorem cmpBytes_flipped {w : Nat} {m k a b : Int} (hm : 2 * m = k) (hk : k = 256 ^ w)
    (ha : -m ≤ a ∧ a < m) (hb : -m ≤ b ∧ b < m) :
    cmpBytes (beBytes w ((a + m) % k).toNat) (beBytes w ((b + m) % k).toNat) =
      compareOfLessAndEq a b := by
  have hpow : ((256 ^ w : Nat) : Int) = 256 ^ w := by push_cast; rfl
  rw [Int.emod_eq_of_lt (by omega) (by omega), Int.emod_eq_of_lt (by omega) (by omega),
    cmpBytes_beBytes (by omega) (by omega)]
  have hlt : (a + m).toNat < (b + m).toNat ↔ a < b := by omega
  have heq : (a + m).toNat = (b + m).toNat ↔ a = b := by omega
  exact if_congr hlt rfl (if_congr heq rfl rfl)

section Agree

variable (partialCmp : UInt64 → UInt64 → Option Ordering) (intAsFloat : Int → UInt64)
  (parseDate : String → Except String Int)

/-- Two keys compare as the evaluator compares their values, with NULL the smallest, and
    are equal only if the values are. -/
structure KeysAgree (a b : Value) (ka kb : List UInt8) : Prop where
  sorted : cmpSortKeys partialCmp intAsFloat parseDate [false] [a] [b] = cmpBytes ka kb
  compared : a ≠ .null → b ≠ .null →
    cmpValues partialCmp intAsFloat parseDate a b = .ok (some (cmpBytes ka kb))
  injective : ka = kb → a = b

/-- The keys of two values of one type have the same tag. -/
theorem keysAgree_of_tag {tag : UInt8} {a b : Value} (ha : a ≠ .null) (hb : b ≠ .null)
    (hcmp : cmpValues partialCmp intAsFloat parseDate a b = .ok (some (cmpBytes xs ys)))
    (heq : cmpBytes xs ys = .eq → a = b) :
    KeysAgree partialCmp intAsFloat parseDate a b (tag :: xs) (tag :: ys) := by
  have htag : cmpBytes (tag :: xs) (tag :: ys) = cmpBytes xs ys := by
    simp [cmpBytes, compareOfLessAndEq]
  refine ⟨?_, fun _ _ => htag ▸ hcmp, fun h => heq (htag ▸ cmpBytes_eq_eq.mpr h)⟩
  rw [htag, cmpSortKeys, hcmp]
  · generalize cmpBytes xs ys = o
    cases o <;> rfl
  · exact ha
  · exact hb
  · exact fun h _ => ha h

/-- The encodings of two values that are NULL or of one type compare as the values. -/
theorem encodeKey_keeps_order {t : KeyType} {a b : Value} (ha : OfType t a) (hb : OfType t b) :
    ∃ ka kb, encodeKey a = .ok ka ∧ encodeKey b = .ok kb ∧
      KeysAgree partialCmp intAsFloat parseDate a b ka kb := by
  cases a with
  | bool | float => cases t <;> exact ha.elim
  | null =>
    cases b with
    | bool | float => cases t <;> exact hb.elim
    | null => exact ⟨_, _, rfl, rfl, rfl, fun h => absurd rfl h, fun _ => rfl⟩
    | int | date | str => exact ⟨_, _, rfl, rfl, rfl, fun h => absurd rfl h, nofun⟩
  | int n =>
    cases t with
    | date | str => exact ha.elim
    | int =>
      cases b with
      | bool | float | date | str => exact hb.elim
      | null => exact ⟨_, _, rfl, rfl, rfl, fun _ h => absurd rfl h, nofun⟩
      | int =>
        have hcmp := @cmpBytes_flipped 8 (2 ^ 63) (2 ^ 64) _ _ rfl rfl ha hb
        refine ⟨_, _, rfl, rfl, keysAgree_of_tag _ _ _ nofun nofun (by rw [hcmp]; rfl) fun h => ?_⟩
        rw [hcmp, compare_eq_eq (lt_irrefl n)] at h
        rw [h]
  | date d =>
    cases t with
    | int | str => exact ha.elim
    | date =>
      cases b with
      | bool | float | int | str => exact hb.elim
      | null => exact ⟨_, _, rfl, rfl, rfl, fun _ h => absurd rfl h, nofun⟩
      | date =>
        have hcmp := @cmpBytes_flipped 4 (2 ^ 31) (2 ^ 32) _ _ rfl rfl ha hb
        refine ⟨_, _, rfl, rfl, keysAgree_of_tag _ _ _ nofun nofun (by rw [hcmp]; rfl) fun h => ?_⟩
        rw [hcmp, compare_eq_eq (lt_irrefl d)] at h
        rw [h]
  | str s =>
    cases t with
    | int | date => exact ha.elim
    | str =>
      cases b with
      | bool | float | int | date => exact hb.elim
      | null => exact ⟨_, _, rfl, rfl, rfl, fun _ h => absurd rfl h, nofun⟩
      | str r =>
        have hcmp := cmpBytes_terminated s.toUTF8.data.toList r.toUTF8.data.toList
        refine ⟨_, _, rfl, rfl, keysAgree_of_tag _ _ _ nofun nofun
          (congrArg (Except.ok ∘ some) hcmp.symm) fun h => ?_⟩
        have h := cmpBytes_eq_eq.mp (hcmp.symm.trans h)
        rw [String.toByteArray_inj.mp (ByteArray.ext (Array.toList_inj.mp h))]

theorem encodeKey_keeps_order_nul :
    ∃ ka kb, encodeKey (.str "a") = .ok ka ∧ encodeKey (.str "a\x00") = .ok kb ∧
      KeysAgree (fun _ _ => none) (fun _ => 0) .error (.str "a") (.str "a\x00") ka kb :=
  encodeKey_keeps_order _ _ _ (t := .str) trivial trivial

end Agree

end ChibiDb
