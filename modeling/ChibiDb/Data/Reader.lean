import ChibiDb.Data.LittleEndian

/-!
# Readers of Bytes

A reader takes bytes from the front, or fails with a message. A writer keeps only the low
bytes of a length or a count, so a reader gives back what was written exactly for the
values that fit, and it returns no others.

## Main definitions

* `Reader`: What is left of the bytes is the state.
* `Reader.word`, `Reader.signed`, `Reader.flag`, `Reader.str`: Words, flags and strings.
* `Reader.counted`, `Reader.block`: A list behind its length, an encoding behind its size.
* `ReadsBackIn`: A reader gives back what a writer wrote, for the values that fit.

## Theorems

* `ReadsBackIn.bind`: A record is read field by field.
* `ReadsBackIn.toEnd_iff`: Values up to the end of the bytes are read back if and only if
  all of them fit.
-/

namespace ChibiDb

open List

/-- A reader takes bytes from the front, or fails with a message. -/
abbrev Reader := StateT (List UInt8) (Except String)

variable {α β : Type}

namespace Reader

/-- The next `n` bytes. -/
def take (truncated : String) (n : Nat) : Reader (List UInt8) := fun b =>
  if n ≤ b.length then .ok (b.take n, b.drop n) else .error truncated

/-- A little-endian word of `w` bytes. -/
def word (truncated : String) (w : Nat) : Reader Nat := do
  return ofLeBytes (← take truncated w)

/-- The same as a signed number. -/
def signed (truncated : String) (w : Nat) : Reader Int := do
  return Int.bmod (← word truncated w) (256 ^ w)

/-- Read a flag: any byte but zero is true. -/
def flag (truncated : String) : Reader Bool := do return (← word truncated 1) != 0

/-- Bytes behind their number. -/
def bytes (truncated : String) (w : Nat) : Reader (List UInt8) := do
  take truncated (← word truncated w)

/-- Bytes as a text, if they are UTF-8. -/
def fromUTF8 (invalid : String) (b : List UInt8) : Except String String :=
  if h : (ByteArray.mk b.toArray).IsValidUTF8 then .ok (.fromUTF8 _ h) else .error invalid

/-- Read a text behind its length. -/
def str (truncated invalid : String) (w : Nat) : Reader String := do
  fromUTF8 invalid (← bytes truncated w)

/-- Read a number of values. -/
def times (r : Reader α) : Nat → Reader (List α)
  | 0 => return []
  | n + 1 => do
    let x ← r
    return x :: (← times r n)

/-- As many values as the number in front of them says. -/
def counted (truncated : String) (w : Nat) (r : Reader α) : Reader (List α) := do
  times r (← word truncated w)

/-- A value from bytes of its own. What it leaves of them is skipped. -/
def block (truncated : String) (r : Reader α) : Reader α := do
  r.run' (← bytes truncated 4)

/-- Values up to the end of the bytes, `n` of them at most. -/
def toEnd (r : Reader α) : Nat → Reader (List α)
  | 0 => return []
  | n + 1 => fun b =>
    if b = [] then .ok ([], []) else StateT.run (do
      let x ← r
      return x :: (← toEnd r n)) b

end Reader

/-- The bytes of a text. -/
def utf8 (s : String) : List UInt8 := s.toUTF8.data.toList

/-- A number in two's complement. -/
def putSigned (w : Nat) (n : Int) : List UInt8 := leBytes w (n % 256 ^ w).toNat

/-- A flag in one byte. -/
def putFlag (b : Bool) : List UInt8 := leBytes 1 b.toNat

/-- Bytes behind their length. -/
def putBytes (w : Nat) (b : List UInt8) : List UInt8 := leBytes w b.length ++ b

/-- A text behind its length. -/
def putStr (w : Nat) (s : String) : List UInt8 := putBytes w (utf8 s)

/-- Values behind their number. -/
def putCounted (w : Nat) (put : α → List UInt8) (xs : List α) : List UInt8 :=
  leBytes w xs.length ++ xs.flatMap put

/-- A value behind the length of its bytes. -/
def putBlock (put : α → List UInt8) (x : α) : List UInt8 := putBytes 4 (put x)

/-- Of the values of `S` the reader gives back those that fit, whatever follows them, and
    it returns no others. It takes at least the bytes that are written for a value. -/
structure ReadsBackIn (S : α → Prop) (r : Reader α) (put : α → List UInt8) (Fits : α → Prop) :
    Prop where
  back : ∀ x rest, S x → Fits x → r (put x ++ rest) = .ok (x, rest)
  only : ∀ b x rest, r b = .ok (x, rest) →
    S x ∧ Fits x ∧ (put x).length + rest.length ≤ b.length

/-- The same for all values. -/
abbrev ReadsBack (r : Reader α) (put : α → List UInt8) (Fits : α → Prop) : Prop :=
  ReadsBackIn (fun _ => True) r put Fits

namespace ReadsBackIn

variable {S : α → Prop} {r : Reader α} {p : α → List UInt8} {F : α → Prop} {a : α}
  {T : β → Prop} {q : β → List UInt8} {G : β → Prop} {truncated invalid : String}
  {b rest : List UInt8}

/-- Running a bind whose first reader succeeds. -/
theorem run_bind {k : α → Reader β} (h : r b = .ok (a, rest)) : (r >>= k) b = k a rest := by
  change (r b >>= fun y => k y.1 y.2) = _
  rw [h]
  rfl

/-- A bind that succeeds splits into two readers that do. -/
theorem of_bind {k : α → Reader β} {y : β × List UInt8} (h : (r >>= k) b = .ok y) :
    ∃ a rest, r b = .ok (a, rest) ∧ k a rest = .ok y := by
  change (r b >>= fun y => k y.1 y.2) = _ at h
  cases hr : r b with
  | error =>
    rw [hr] at h
    cases h
  | ok z =>
    rw [hr] at h
    exact ⟨z.1, z.2, rfl, h⟩

/-- The writer and the side condition may be replaced by equal ones. -/
theorem congr {q : α → List UInt8} {G : α → Prop} (h : ReadsBackIn S r p F)
    (hpq : ∀ x, S x → p x = q x ∧ (F x ↔ G x)) : ReadsBackIn S r q G := by
  refine ⟨?_, ?_⟩
  · intro x rest hS hG
    rw [← (hpq x hS).1]
    exact h.back x rest hS ((hpq x hS).2.mpr hG)
  intro b x rest hb
  rcases h.only b x rest hb with ⟨hS, hF, hlen⟩
  rw [(hpq x hS).1] at hlen
  exact ⟨hS, (hpq x hS).2.mp hF, hlen⟩

/-- Returning a constant reads back the one value it is for. -/
theorem pure (h : ∀ x, S x ↔ x = a) : ReadsBackIn S (pure a) (fun _ => []) (fun _ => True) := by
  refine ⟨?_, ?_⟩
  · intro x _ hS _
    rw [(h x).mp hS]
    rfl
  · intro b x rest hb
    cases hb
    exact ⟨(h a).mpr rfl, trivial, Nat.le_of_eq (Nat.zero_add _)⟩

/-- Failing reads back the values of an empty range. -/
theorem throw (e : String) (h : ∀ x, ¬S x) : ReadsBackIn S (throw e) p F :=
  ⟨fun x _ hS => absurd hS (h x), fun _ _ _ hb => nomatch hb⟩

/-- The field `g` is read first, and what follows is read for its value. -/
theorem bind {k : α → Reader β} (h : ReadsBack r p F) (g : β → α)
    (hk : ∀ a, ReadsBackIn (fun x => T x ∧ g x = a) (k a) q G) :
    ReadsBackIn T (r >>= k) (fun x => p (g x) ++ q x) (fun x => F (g x) ∧ G x) := by
  refine ⟨?_, ?_⟩
  · intro x rest hT hF
    rw [append_assoc, run_bind (h.back (g x) _ trivial hF.1)]
    exact (hk (g x)).back x rest ⟨hT, rfl⟩ hF.2
  intro b x rest hb
  rcases of_bind hb with ⟨a, _, hr, hb⟩
  rcases h.only _ _ _ hr with ⟨_, hF, hlen⟩
  rcases (hk a).only _ x rest hb with ⟨⟨hT, rfl⟩, hG, hlen'⟩
  rw [length_append]
  exact ⟨hT, ⟨hF, hG⟩, by omega⟩

/-- What is read stands for another value, or for none. -/
theorem convert (h : ReadsBackIn S r p F) (f : α → Except String β)
    (hback : ∀ x, T x → G x → ∃ a, S a ∧ F a ∧ f a = .ok x ∧ p a = q x)
    (honly : ∀ a x, S a → F a → f a = .ok x → T x ∧ G x ∧ (q x).length ≤ (p a).length) :
    ReadsBackIn T (r >>= fun a => liftM (f a)) q G := by
  refine ⟨?_, ?_⟩
  · intro x rest hT hG
    rcases hback x hT hG with ⟨a, hS, hF, hx, hq⟩
    rw [← hq, run_bind (h.back a rest hS hF), hx]
    rfl
  · intro b x rest hb
    rcases of_bind hb with ⟨a, _, hr, hb⟩
    cases hx : f a with
    | error =>
      rw [hx] at hb
      cases hb
    | ok y =>
      rw [hx] at hb
      cases hb
      rcases h.only _ _ _ hr with ⟨hS, hF, hlen⟩
      rcases honly a x hS hF hx with ⟨hT, hG, hle⟩
      exact ⟨hT, hG, by omega⟩

/-- A reader mapped through a function reads back the images. -/
theorem map (h : ReadsBackIn S r p F) (f : α → β)
    (hback : ∀ x, T x → G x → ∃ a, S a ∧ F a ∧ f a = x ∧ p a = q x)
    (honly : ∀ a, S a → F a → T (f a) ∧ G (f a) ∧ (q (f a)).length ≤ (p a).length) :
    ReadsBackIn T (do return f (← r)) q G := by
  refine h.convert (fun a => .ok (f a)) ?_ ?_
  · intro x hT hG
    rcases hback x hT hG with ⟨a, hS, hF, hx, hq⟩
    exact ⟨a, hS, hF, congrArg _ hx, hq⟩
  · intro a x hS hF hx
    cases hx
    exact honly a hS hF

/-- One constructor of a sum. -/
theorem ctor (h : ReadsBack r p F) (f : α → β) (hT : ∀ x, T x ↔ ∃ a, x = f a)
    (hq : ∀ a, q (f a) = p a) (hG : ∀ a, G (f a) ↔ F a) :
    ReadsBackIn T (do return f (← r)) q G := by
  refine h.map f ?_ ?_
  · intro x hx hG'
    rcases (hT x).mp hx with ⟨a, rfl⟩
    exact ⟨a, trivial, (hG a).mp hG', rfl, (hq a).symm⟩
  · intro a _ hF
    exact ⟨(hT _).mpr ⟨a, rfl⟩, (hG a).mpr hF, by rw [hq]⟩

theorem take (n : Nat) : ReadsBackIn (fun b => b.length = n) (Reader.take truncated n) (fun b => b)
    (fun _ => True) := by
  refine ⟨?_, ?_⟩
  · intro b rest hn _
    subst hn
    rw [Reader.take, if_pos (by simp), take_left, drop_left]
  intro b x rest hb
  unfold Reader.take at hb
  split at hb
  · cases hb
    rw [length_take, length_drop]
    exact ⟨by omega, trivial, by omega⟩
  · cases hb

/-- An unsigned little-endian word reads back when it fits its width. -/
theorem word (w : Nat) : ReadsBack (Reader.word truncated w) (leBytes w)
    (fun n => n < 256 ^ w) := by
  refine (take w).map ofLeBytes ?_ ?_
  · intro n _ hn
    exact ⟨leBytes w n, length_leBytes w n, trivial, ofLeBytes_leBytes hn, rfl⟩
  intro b hb _
  subst hb
  have h := ofLeBytes_leBytes_mod b.length (ofLeBytes b)
  rw [leBytes_ofLeBytes] at h
  rw [h, length_leBytes]
  exact ⟨trivial, Nat.mod_lt _ (Nat.pow_pos (by decide)), Nat.le_refl _⟩

/-- A signed word reads back when it fits its width. -/
theorem signed (w : Nat) : ReadsBack (Reader.signed truncated w) (putSigned w)
    (fun n => n.bmod (256 ^ w) = n) := by
  refine (word w).map (fun n : Nat => Int.bmod n (256 ^ w)) ?_ ?_
  · intro n _ hn
    have hpos : (0 : Int) < 256 ^ w := Int.pow_pos (by decide)
    have hnat := Int.toNat_of_nonneg (Int.emod_nonneg n hpos.ne')
    refine ⟨(n % 256 ^ w).toNat, trivial, ?_, ?_, rfl⟩
    · have hlt := Int.emod_lt_of_pos n hpos
      rw [← hnat] at hlt
      exact_mod_cast hlt
    · have hmod := Int.emod_bmod n (256 ^ w)
      push_cast at hmod
      rw [hnat, hmod, hn]
  · intro n _ _
    exact ⟨trivial, Int.bmod_bmod, by rw [putSigned, length_leBytes, length_leBytes]⟩

theorem flag : ReadsBack (Reader.flag truncated) putFlag (fun _ => True) := by
  refine (word 1).map (· != 0) ?_ ?_
  · intro x _ _
    exact ⟨x.toNat, trivial, by cases x <;> decide, by cases x <;> rfl, rfl⟩
  · intro n _ _
    exact ⟨trivial, trivial, by rw [putFlag, length_leBytes, length_leBytes]⟩

/-- A length-prefixed byte string reads back when its length fits. -/
theorem bytes (w : Nat) : ReadsBack (Reader.bytes truncated w) (putBytes w)
    (fun b => b.length < 256 ^ w) := by
  refine ((word w).bind length (fun n => ?_)).congr
    (fun _ _ => ⟨rfl, and_iff_left trivial⟩)
  simp only [true_and]
  exact take n

theorem fromUTF8_eq_ok {s : String} : Reader.fromUTF8 invalid b = .ok s ↔ utf8 s = b := by
  refine ⟨?_, ?_⟩
  · intro h
    unfold Reader.fromUTF8 at h
    split at h
    · cases h
      rfl
    · cases h
  · intro h
    subst h
    exact dif_pos s.isValidUTF8

/-- A length-prefixed text reads back when its length fits. -/
theorem str (w : Nat) : ReadsBack (Reader.str truncated invalid w) (putStr w)
    (fun s => (utf8 s).length < 256 ^ w) := by
  refine (bytes w).convert (Reader.fromUTF8 invalid) ?_ ?_
  · intro s _ hs
    exact ⟨utf8 s, trivial, hs, fromUTF8_eq_ok.mpr rfl, rfl⟩
  · intro b s _ hb hs
    rw [putStr, fromUTF8_eq_ok.mp hs]
    exact ⟨trivial, hb, Nat.le_refl _⟩

/-- A reader run inside a length-prefixed block. -/
theorem block (h : ReadsBack r p F) :
    ReadsBack (Reader.block truncated r) (putBlock p)
      (fun x => F x ∧ (p x).length < 256 ^ 4) := by
  refine (bytes 4).convert r.run' ?_ ?_
  · intro x _ hF
    have hx := h.back x [] trivial hF.1
    rw [append_nil] at hx
    refine ⟨p x, trivial, hF.2, ?_, rfl⟩
    change Prod.fst <$> r (p x) = _
    rw [hx]
    rfl
  · intro b x _ hb hx
    change Prod.fst <$> r b = _ at hx
    cases hr : r b with
    | error =>
      rw [hr] at hx
      cases hx
    | ok y =>
      rw [hr] at hx
      cases hx
      rcases h.only _ _ _ hr with ⟨_, hF, hle⟩
      simp only [putBlock, putBytes, length_append, length_leBytes]
      exact ⟨trivial, ⟨hF, by omega⟩, by omega⟩

/-- A reader repeated a known number of times. -/
theorem times (n : Nat) (h : ReadsBack r p F) :
    ReadsBackIn (fun xs => xs.length = n) (Reader.times r n) (fun xs => xs.flatMap p)
      (fun xs => ∀ x ∈ xs, F x) := by
  induction n with
  | zero =>
    refine ⟨?_, ?_⟩
    · intro xs rest hx _
      rw [length_eq_zero_iff.mp hx]
      rfl
    · intro b xs rest hb
      cases hb
      simp
  | succ n ih =>
    refine ⟨?_, ?_⟩
    · intro xs rest hx hF
      cases xs with
      | nil => cases hx
      | cons x xs =>
        rw [forall_mem_cons] at hF
        rw [Reader.times, flatMap_cons, append_assoc, run_bind (h.back x _ trivial hF.1),
          run_bind (ih.back xs rest (Nat.succ.inj hx) hF.2)]
        rfl
    · intro b xs rest hb
      rcases of_bind hb with ⟨x, _, hx, hb⟩
      rcases of_bind hb with ⟨xs, _, hxs, hb⟩
      cases hb
      rcases h.only _ _ _ hx with ⟨_, hF, hlen⟩
      rcases ih.only _ _ _ hxs with ⟨hn, hFs, hlen'⟩
      rw [flatMap_cons, length_append]
      exact ⟨congrArg Nat.succ hn, forall_mem_cons.mpr ⟨hF, hFs⟩, by omega⟩

/-- A counted list: its length, then its elements. -/
theorem counted (w : Nat) (h : ReadsBack r p F) :
    ReadsBack (Reader.counted truncated w r) (putCounted w p)
      (fun xs => xs.length < 256 ^ w ∧ ∀ x ∈ xs, F x) := by
  refine (word w).bind length (fun n => ?_)
  simp only [true_and]
  exact h.times n

/-- Every value takes some bytes, so their number bounds the rounds. -/
theorem toEnd_iff (h : ReadsBack r p F) (hpos : ∀ x, p x ≠ []) (xs : List α)
    (n : Nat) (hn : (xs.flatMap p).length ≤ n) :
    Reader.toEnd r n (xs.flatMap p) = .ok (xs, []) ↔ ∀ x ∈ xs, F x := by
  induction xs generalizing n with
  | nil =>
    rw [flatMap_nil]
    cases n <;> exact ⟨fun _ _ hx => absurd hx not_mem_nil, fun _ => rfl⟩
  | cons x xs ih =>
    have hx := length_pos_iff.mpr (hpos x)
    rw [flatMap_cons, length_append] at hn
    rw [flatMap_cons, forall_mem_cons]
    cases n with
    | zero => omega
    | succ n =>
      simp only [Reader.toEnd]
      rw [if_neg (fun h => hpos x (append_eq_nil_iff.mp h).1)]
      refine ⟨?_, ?_⟩
      · intro hb
        rcases of_bind hb with ⟨_, _, hr, hb⟩
        rcases of_bind hb with ⟨_, _, hs, hb⟩
        cases hb
        have hF := (h.only _ _ _ hr).2.1
        cases (h.back x _ trivial hF).symm.trans hr
        exact ⟨hF, (ih n (by omega)).mp hs⟩
      · intro hF
        refine (run_bind (h.back x _ trivial hF.1)).trans ?_
        rw [run_bind ((ih n (by omega)).mpr hF.2)]
        rfl

end ReadsBackIn

end ChibiDb
