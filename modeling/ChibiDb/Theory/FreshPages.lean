import ChibiDb.Core.Heap
import ChibiDb.Data.Transition

/-!
# Concurrent Inserts into a Heap File

Any number of threads call `insert_with_hint` on one heap file. A call counts
the pages as it starts, tries them one by one, and if none takes the record it
allocates a page and tries that. Each of these is one step, and the steps of
the calls interleave freely.

An allocated page is in the file before its allocator tries it. A call that
starts in between counts it and may fill it, and then the allocator reports
its record as too large, though an empty page has room for it.

Page numbers are natural numbers. `alloc_page` casts the number of pages to 32
bits, so this is the behaviour of files of at most `2 ^ 32` pages.

## Main definitions

* `Stage`, `advance`: Where a call stands, and its next step.
* `Spares`: A step leaves room on a page that another call has allocated.

## Theorems

* `insert_returns_rid`: Runs whose steps spare fresh pages lose no insert.
-/

namespace ChibiDb

open List

/-- A heap file: its number, its layout and the longest string kept in a row. -/
structure HeapFile where
  file : Nat
  layout : Layout
  inlineLimit : Nat

namespace HeapFile

/-- Where a call of `insert_with_hint` stands. -/
inductive Stage where
  | trying (todo : List Nat) (v : Version)
  | allocated (no : Nat) (v : Version)
  | returned (rid : Rid)
  | failed (msg : String)
  deriving DecidableEq

/-- The page a call has allocated and not tried yet, and its record. -/
def Stage.fresh : Stage → Option (Nat × Version)
  | allocated no v => some (no, v)
  | _ => none

/-- The page a call tries next, and its record. -/
def Stage.target : Stage → Option (Nat × Version)
  | trying (no :: _) v => some (no, v)
  | st => st.fresh

/-- The steps a call has left at most. -/
def Stage.left : Stage → Nat
  | trying todo _ => todo.length + 2
  | allocated _ _ => 1
  | _ => 0

/-- The table files and the calls made so far, by number. -/
structure Calls where
  heap : Heap
  calls : List Stage

/-- What happens next: a call starts, or one of the calls takes a step. -/
inductive Act where
  | call (hint : Nat) (v : Version)
  | step (i : Nat)

/-- The pages a call tries: from the hinted one on, then those before it. -/
def candidates (hint pages : Nat) : List Nat :=
  let start := if 1 ≤ hint ∧ hint < pages then hint else 1
  range' start (pages - start) ++ range' 1 (start - 1)

variable (hf : HeapFile) (h : Heap)

/-- Put a record on a page, if it has room. -/
def tryInsert (no : Nat) (v : Version) : Option (Rid × Heap) :=
  h.insert hf.layout hf.inlineLimit hf.file no v

/-- Add an empty page to the file. -/
def allocPage : Heap := h.setFile hf.file (h.file hf.file ++ [[]])

/-- The next step of a call: a page tried, or a page allocated. -/
def advance : Stage → Stage × Heap
  | .trying (no :: rest) v => (hf.tryInsert h no v).elim (.trying rest v, h) (.map .returned id)
  | .trying [] v => (.allocated (h.file hf.file).length v, hf.allocPage h)
  | .allocated no v =>
    (hf.tryInsert h no v).elim (.failed ("record too large (" ++ toString (v.size hf.inlineLimit) ++
      " bytes does not fit in a page)"), h) (.map .returned id)
  | st => (st, h)

/-- A call starts, with a record that fits an empty page, or takes a step. -/
def step (s : Calls) : Act → Option Calls
  | .call hint v =>
    if (hf.tryInsert [] 1 v).isSome then
      some { s with calls := s.calls ++ [.trying (candidates hint (s.heap.file hf.file).length) v] }
    else none
  | .step i => s.calls[i]?.map fun st =>
    ⟨(hf.advance s.heap st).2, s.calls.set i (hf.advance s.heap st).1⟩

/-- A step that places a record on a page leaves room there for the record of
    every other call that has allocated the page and not tried it yet. -/
def Spares (s : Calls) : Act → Prop
  | .call _ _ => True
  | .step i => ∀ p ∈ s.calls[i]?.bind Stage.target, ∀ r ∈ hf.tryInsert s.heap p.1 p.2,
    ∀ j < s.calls.length, j ≠ i → ∀ q ∈ s.calls[j]?.bind Stage.fresh, q.1 = p.1 →
      (hf.tryInsert r.2 q.1 q.2).isSome

instance decidableSpares (s : Calls) (a : Act) : Decidable (hf.Spares s a) := by
  cases a <;> unfold Spares <;> infer_instance

/-- Each call has returned a row id, or can take a step that leaves it fewer. -/
def Returning (s : Calls) : Prop := ∀ (i : Nat) (st : Stage), s.calls[i]? = some st →
  (∃ rid, st = .returned rid) ∨ ∃ s' st', hf.step s (.step i) = some s' ∧
    s'.calls[i]? = some st' ∧ st'.left < st.left

/-- A call in progress will find room, and none has failed. -/
def Sound : Stage → Prop
  | .trying _ v => (hf.tryInsert [] 1 v).isSome
  | .allocated no v => (hf.tryInsert h no v).isSome
  | .returned _ => True
  | .failed _ => False

variable {hf h}

/-- Whether there is room is a matter of the page alone. -/
theorem tryInsert_isSome {h' : Heap} {no no' : Nat} {v : Version}
    (hs : (hf.tryInsert h no v).isSome) (hp : h'.page hf.file no' = h.page hf.file no) :
    (hf.tryInsert h' no' v).isSome := by
  simpa [tryInsert, Heap.insert, Heap.setSlot, Heap.page_setPage, hp] using hs

/-- A missing page reads as an empty one, so its allocation changes no page. -/
theorem page_allocPage (no : Nat) : (hf.allocPage h).page hf.file no = h.page hf.file no := by
  rw [allocPage, Heap.page_setFile, if_pos rfl]
  unfold Heap.page
  rcases Nat.lt_trichotomy no (h.file hf.file).length with hlt | heq | hgt
  · rw [getD_append _ _ _ _ hlt]
  · rw [heq, getD_append_right _ _ _ _ (Nat.le_refl _), Nat.sub_self,
      getD_eq_default _ _ (Nat.le_refl _)]
    rfl
  · have hlen : (h.file hf.file ++ [[]]).length ≤ no := by
      rw [length_append, length_singleton]
      exact hgt
    rw [getD_eq_default _ _ hlen, getD_eq_default _ _ (Nat.le_of_lt hgt)]

variable {st st' : Stage}

/-- The call that takes the step stays sound, and comes nearer to its end. -/
theorem advance_sound (hs : hf.Sound h st) : hf.Sound (hf.advance h st).2 (hf.advance h st).1 ∧
    ((∃ rid, st = .returned rid) ∨ (hf.advance h st).1.left < st.left) := by
  match st with
  | .trying (no :: rest) v =>
    simp only [advance]
    cases hf.tryInsert h no v with
    | none => exact ⟨hs, .inr (Nat.lt_succ_self _)⟩
    | some r => exact ⟨trivial, .inr (Nat.succ_pos _)⟩
  | .trying [] v =>
    refine ⟨tryInsert_isSome hs ((page_allocPage _).trans ?_), .inr (Nat.lt_succ_self 1)⟩
    exact getD_eq_default _ _ le_rfl
  | .allocated no v =>
    rcases Option.isSome_iff_exists.mp hs with ⟨r, hr⟩
    simp only [advance, hr]
    exact ⟨trivial, .inr Nat.one_pos⟩
  | .returned rid => exact ⟨trivial, .inl ⟨rid, rfl⟩⟩

/-- A call stays sound when another takes a step that spares it. -/
theorem sound_of_spares (hs : hf.Sound h st')
    (hok : ∀ p ∈ st.target, ∀ r ∈ hf.tryInsert h p.1 p.2, ∀ q ∈ st'.fresh, q.1 = p.1 →
      (hf.tryInsert r.2 q.1 q.2).isSome) : hf.Sound (hf.advance h st).2 st' := by
  cases st' with
  | allocated no w =>
    match st with
    | .trying (m :: _) v | .allocated m v =>
      simp only [advance]
      cases hi : hf.tryInsert h m v with
      | none => exact hs
      | some r =>
        by_cases hm : no = m
        · exact hok (m, v) rfl r hi (no, w) rfl hm
        · rcases Heap.insert_eq_some hi with ⟨hr, he, _⟩
          refine tryInsert_isSome hs ?_
          simp [he, hr, Heap.setSlot, Heap.page_setPage, hm]
    | .trying [] _ => exact tryInsert_isSome hs (page_allocPage no)
    | .returned _ | .failed _ => exact hs
  | _ => exact hs

/-- A step of any call, or a new call, keeps every call sound. -/
theorem sound_step {s s' : Calls} {a : Act}
    (hs : ∀ (j : Nat) (st : Stage), s.calls[j]? = some st → hf.Sound s.heap st)
    (hok : hf.Spares s a) (hstep : hf.step s a = some s') (j : Nat) (st : Stage)
    (hst : s'.calls[j]? = some st) : hf.Sound s'.heap st := by
  cases a with
  | call hint v =>
    simp only [step, Option.ite_some_none_eq_some] at hstep
    rcases hstep with ⟨hfit, rfl⟩
    rcases mem_append.mp (mem_of_getElem? hst) with hmem | hmem
    · rcases mem_iff_getElem?.mp hmem with ⟨k, hk⟩
      exact hs k st hk
    · cases mem_singleton.mp hmem
      exact hfit
  | step i =>
    rcases Option.map_eq_some_iff.mp hstep with ⟨sti, hi, rfl⟩
    by_cases hne : i = j
    · -- the call that takes the step
      have hlt : j < s.calls.length := by
        rw [← hne]
        exact (List.getElem?_eq_some_iff.mp hi).1
      rw [hne, getElem?_set_self hlt] at hst
      cases hst
      exact (advance_sound (hs i sti hi)).1
    · -- another one, which the step spares
      rw [getElem?_set_ne hne] at hst
      have hlt := (List.getElem?_eq_some_iff.mp hst).1
      refine sound_of_spares (hs j st hst) ?_
      intro p hp r hr q hq
      refine hok p ?_ r hr j hlt (Ne.symm hne) q ?_
      · rw [hi]
        exact hp
      · rw [hst]
        exact hq

/-- From any files on, in every run whose steps spare the pages that other calls
    have allocated, each call has returned a row id or is on its way to one. -/
theorem insert_returns_rid (hf : HeapFile) (h : Heap) (acts : List Act) (s : Calls)
    (hspare : Meets hf.step hf.Spares ⟨h, []⟩ acts)
    (hrun : runSteps hf.step ⟨h, []⟩ acts = some s) : hf.Returning s := by
  have hstart : ∀ (j : Nat) (st : Stage), (⟨h, []⟩ : Calls).calls[j]? = some st →
      hf.Sound h st := by
    intro j st hst
    cases hst
  have hsound := invariant_of_meets hf.step hf.Spares
    (fun s => ∀ (j : Nat) (st : Stage), s.calls[j]? = some st → hf.Sound s.heap st)
    (fun _ _ _ => sound_step) _ s acts hstart hspare hrun
  intro i st hst
  rcases (advance_sound (hsound i st hst)).2 with hdone | hleft
  · exact .inl hdone
  refine .inr ⟨⟨(hf.advance s.heap st).2, s.calls.set i (hf.advance s.heap st).1⟩, _, ?_, ?_, hleft⟩
  · rw [step, hst]
    rfl
  · exact getElem?_set_self (List.getElem?_eq_some_iff.mp hst).1

/-- A record two of which fill no page. -/
def halfPage : Version := ⟨1, 0, 0, replicate 500 (.int 0)⟩

/-- A record that leaves room for one of those. -/
def smallRecord : Version := ⟨2, 0, 0, [.int 7]⟩

/-- The second call places a small record on the page that the first has just allocated, and the
    first still finds room there. -/
theorem insert_returns_rid_shared : ∃ s, runSteps (step ⟨0, .row, 1024⟩) ⟨[[[]]], []⟩
    [.call 0 halfPage, .step 0, .call 1 smallRecord, .step 1, .step 0] = some s ∧
    s.calls = [.returned ⟨1, 1⟩, .returned ⟨1, 0⟩] ∧ Returning ⟨0, .row, 1024⟩ s := by
  have hrun : ∃ s, runSteps (step ⟨0, .row, 1024⟩) ⟨[[[]]], []⟩
      [.call 0 halfPage, .step 0, .call 1 smallRecord, .step 1, .step 0] = some s :=
    Option.isSome_iff_exists.mp (by decide +kernel)
  have hcalls : (runSteps (step ⟨0, .row, 1024⟩) ⟨[[[]]], []⟩
      [.call 0 halfPage, .step 0, .call 1 smallRecord, .step 1, .step 0]).map Calls.calls =
      some [.returned ⟨1, 1⟩, .returned ⟨1, 0⟩] := by
    decide +kernel
  rcases hrun with ⟨s, hs⟩
  rw [hs, Option.map_some, Option.some.injEq] at hcalls
  exact ⟨s, hs, hcalls, insert_returns_rid _ _ _ s (by decide +kernel) hs⟩

/-- The second call fills the page that the first has just allocated. -/
theorem fresh_page_taken : (runSteps (step ⟨0, .row, 1024⟩) ⟨[[[]]], []⟩
    [.call 0 halfPage, .step 0, .call 1 halfPage, .step 1, .step 0]).map Calls.calls =
    some [.failed "record too large (4526 bytes does not fit in a page)", .returned ⟨1, 0⟩] := by
  decide +kernel

end HeapFile

end ChibiDb
