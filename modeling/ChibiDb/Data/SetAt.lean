import Mathlib.Tactic

/-!
# Growing Lists

A list read with a default beyond its end and written at any index: a write
past the end first fills the gap with the default. Files, pages and slot
directories are all of this kind.

## Main definitions

* `setAt`: Write an index, growing the list with a default.

## Theorems

* `getD_setAt`: What is read after a write.
-/

namespace ChibiDb

open List Option

variable {α : Type}

/-- Write `a` at index `i`, filling with `d` up to it. -/
def setAt (d : α) : List α → Nat → α → List α
  | [], 0, a => [a]
  | [], i + 1, a => d :: setAt d [] i a
  | _ :: xs, 0, a => a :: xs
  | x :: xs, i + 1, a => x :: setAt d xs i a

/-- Reading a list after one index was set. -/
theorem getD_setAt (d : α) (xs : List α) (i j : Nat) (a : α) :
    (setAt d xs i a).getD j d = if j = i then a else xs.getD j d := by
  simp only [getD_eq_getElem?_getD]
  induction i generalizing xs j with
  | zero => cases xs <;> cases j <;> simp [setAt]
  | succ _ ih =>
    cases xs with
    | _ => cases j <;> simp [setAt, ih]

end ChibiDb
