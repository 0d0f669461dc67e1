import ChibiDb.Core.Clog

/-!
# Histories of the Commit Status

Whatever calls were made, the bitmap answers as a set with a horizon would: an id
counts as committed if it is below the largest horizon there was, or was marked
while it was not below the horizon of that time. The ids that are kept with the
horizon in the catalog are enough to get the same answers after a restart.

## Main definitions

* `ClogCall`, `horizon`, `MarkedAbove`: A history and what it says about an id.
* `CommitStatus.resume`: A bitmap made from a horizon and a list of ids.

## Theorems

* `refines_calls`: The bitmap refines the set along every history.
* `ids_ascending`: The ids are listed in order.
* `commit_status_of_calls`: The answers after every history.
-/

namespace ChibiDb

open List

/-- The calls that change the commit status. -/
inductive ClogCall where
  | mark (xid : Nat)
  | advance (newBase : Nat)
  deriving DecidableEq, Repr

/-- A call on the words. -/
def CommitStatus.call (c : CommitStatus) : ClogCall → CommitStatus
  | .mark xid => c.markCommitted xid
  | .advance newBase => c.advanceBase newBase

/-- A call on the set. -/
def Clog.call (a : Clog) : ClogCall → Clog
  | .mark xid => a.markCommitted xid
  | .advance newBase => a.advanceBase newBase

/-- The bitmap after a history. -/
def CommitStatus.afterCalls (calls : List ClogCall) : CommitStatus :=
  calls.foldl CommitStatus.call .new

/-- The largest horizon that was given. -/
def horizon (calls : List ClogCall) : Nat :=
  calls.foldl (fun h call => match call with
    | .mark _ => h
    | .advance newBase => max h newBase) 0

/-- The id was marked while it was not below the horizon. -/
def MarkedAbove (calls : List ClogCall) (x : Nat) : Prop :=
  ∃ before later, calls = before ++ .mark x :: later ∧ horizon before ≤ x

/-- The bitmap that the transaction manager starts with. -/
def CommitStatus.resume (base : Nat) (ids : List Nat) : CommitStatus :=
  ids.foldl CommitStatus.markCommitted (CommitStatus.new.advanceBase base)

theorem refines_calls (calls : List ClogCall) (c : CommitStatus) (a : Clog) (h : Refines c a) :
    Refines (calls.foldl CommitStatus.call c) (calls.foldl Clog.call a) := by
  induction calls generalizing c a with
  | nil => exact h
  | cons call _ ih =>
    apply ih
    cases call with
    | mark xid => exact refines_markCommitted xid h
    | advance newBase => exact refines_advanceBase newBase h

theorem horizon_mark (calls : List ClogCall) (x : Nat) :
    horizon (calls ++ [.mark x]) = horizon calls := by
  simp [horizon]

theorem horizon_advance (calls : List ClogCall) (b : Nat) :
    horizon (calls ++ [.advance b]) = max (horizon calls) b := by
  simp [horizon]

theorem horizon_le_append (before later : List ClogCall) :
    horizon before ≤ horizon (before ++ later) := by
  induction later using reverseRecOn with
  | nil => simp
  | append_singleton later call ih =>
    rw [← append_assoc]
    cases call with
    | mark x => rwa [horizon_mark]
    | advance b =>
      rw [horizon_advance]
      omega

/-- The set holds the marked ids that the horizon has not passed. -/
theorem clog_calls (calls : List ClogCall) :
    (calls.foldl Clog.call .new).base = horizon calls ∧ ∀ x,
      x ∈ (calls.foldl Clog.call .new).marked ↔ .mark x ∈ calls ∧ horizon calls ≤ x := by
  induction calls using reverseRecOn with
  | nil => simp [Clog.new, horizon]
  | append_singleton calls call ih =>
    rw [foldl_append, foldl_cons, foldl_nil]
    rcases ih with ⟨hbase, hmarked⟩
    cases call with
    | mark y =>
      rw [horizon_mark, Clog.call, Clog.markCommitted, hbase]
      by_cases hy : y < horizon calls
      · rw [if_pos hy]
        refine ⟨hbase, fun x => ?_⟩
        rw [hmarked, mem_append, mem_singleton, ClogCall.mark.injEq]
        constructor
        · exact fun h => ⟨.inl h.1, h.2⟩
        · rintro ⟨h | rfl, hx⟩
          · exact ⟨h, hx⟩
          · omega
      · rw [if_neg hy]
        refine ⟨rfl, fun x => ?_⟩
        rw [mem_insert_iff, hmarked, mem_append, mem_singleton, ClogCall.mark.injEq]
        constructor
        · rintro (rfl | h)
          · exact ⟨.inr rfl, by omega⟩
          · exact ⟨.inl h.1, h.2⟩
        · rintro ⟨h | rfl, hx⟩
          · exact .inr ⟨h, hx⟩
          · exact .inl rfl
    | advance b =>
      have hmem : ∀ x, ClogCall.mark x ∈ calls ++ [.advance b] ↔ .mark x ∈ calls := by simp
      rw [horizon_advance, Clog.call, Clog.advanceBase, hbase]
      by_cases hb : b ≤ horizon calls
      · rw [if_pos hb, max_eq_left hb]
        refine ⟨hbase, fun x => ?_⟩
        rw [hmarked, hmem]
      rw [if_neg hb, max_eq_right (by omega)]
      refine ⟨rfl, fun x => ?_⟩
      rw [mem_filter, hmarked, hmem, decide_eq_true_eq]
      constructor
      · exact fun h => ⟨h.1.1, h.2⟩
      · exact fun h => ⟨⟨h.1, by omega⟩, h.2⟩

theorem ids_ascending (c : CommitStatus) : c.ids.Pairwise (· < ·) := by
  refine pairwise_flatMap.mpr ⟨fun i _ => ?_, ?_⟩
  · refine pairwise_map.mpr (Pairwise.imp ?_ (pairwise_lt_range.filter _))
    intro a b hab
    omega
  -- a later word starts behind the last bit of the one before
  refine Pairwise.imp ?_ pairwise_lt_range
  intro i j hij x hx y hy
  rcases mem_map.mp hx with ⟨a, ha, rfl⟩
  rcases mem_map.mp hy with ⟨b, hb, rfl⟩
  have ha : a < clogBits := mem_range.mp (mem_of_mem_filter ha)
  have hmul : (i + 1) * clogBits ≤ j * clogBits := Nat.mul_le_mul_right _ hij
  rw [Nat.add_mul, Nat.one_mul] at hmul
  omega

theorem isCommitted_calls (calls : List ClogCall) (x : Nat) :
    (CommitStatus.afterCalls calls).isCommitted x = true ↔
      x ≠ 0 ∧ (x < horizon calls ∨ .mark x ∈ calls ∧ horizon calls ≤ x) := by
  unfold CommitStatus.afterCalls
  rw [isCommitted_of_refines x (refines_calls calls _ _ refines_new), Clog.isCommitted_iff,
    (clog_calls calls).1, (clog_calls calls).2]

/-- A horizon and the ids marked behind it make a bitmap with the same answers. -/
theorem isCommitted_resume (base : Nat) (ids : List Nat) (x : Nat) :
    (CommitStatus.resume base ids).isCommitted x = true ↔
      x ≠ 0 ∧ (x < base ∨ x ∈ ids ∧ base ≤ x) := by
  have hcalls : CommitStatus.resume base ids =
      CommitStatus.afterCalls (.advance base :: ids.map .mark) := by
    unfold CommitStatus.afterCalls
    rw [foldl_cons, foldl_map]
    rfl
  have hhorizon : horizon (.advance base :: ids.map .mark) = base := by
    simp [horizon, foldl_map]
  rw [hcalls, isCommitted_calls, hhorizon]
  simp

/-- After every history of calls the bitmap answers as the history says, lists the marked
    ids behind the horizon in order, and can be made again from its horizon and its ids. -/
theorem commit_status_of_calls (calls : List ClogCall) :
    (∀ x, (CommitStatus.afterCalls calls).isCommitted x = true ↔
      x ≠ 0 ∧ (x < horizon calls ∨ MarkedAbove calls x)) ∧
    (CommitStatus.afterCalls calls).ids.Pairwise (· < ·) ∧
    (∀ x, x ∈ (CommitStatus.afterCalls calls).ids ↔ .mark x ∈ calls ∧ horizon calls ≤ x) ∧
    ∀ x, (CommitStatus.resume (CommitStatus.afterCalls calls).base
        (CommitStatus.afterCalls calls).ids).isCommitted x =
      (CommitStatus.afterCalls calls).isCommitted x := by
  have href : Refines (CommitStatus.afterCalls calls) _ := refines_calls calls _ _ refines_new
  have hids : ∀ x, x ∈ (CommitStatus.afterCalls calls).ids ↔
      .mark x ∈ calls ∧ horizon calls ≤ x := by
    intro x
    rw [CommitStatus.mem_ids_iff, href.2, (clog_calls calls).2]
  have hbase := href.1.trans (clog_calls calls).1
  refine ⟨fun x => ?_, ids_ascending _, hids, fun x => ?_⟩
  · rw [isCommitted_calls]
    refine and_congr_right fun _ => ⟨?_, ?_⟩
    · rintro (h | ⟨hm, hx⟩)
      · exact .inl h
      · rcases mem_iff_append.mp hm with ⟨before, later, rfl⟩
        exact .inr ⟨before, later, rfl, Nat.le_trans (horizon_le_append _ _) hx⟩
    · rintro (h | ⟨before, later, rfl, _⟩)
      · exact .inl h
      · by_cases hx : x < horizon (before ++ .mark x :: later)
        · exact .inl hx
        · exact .inr ⟨mem_append_right _ mem_cons_self, by omega⟩
  · rw [Bool.eq_iff_iff, isCommitted_resume, isCommitted_calls, hids, hbase]
    exact and_congr_right fun _ => or_congr_right ⟨fun h => h.1, fun h => ⟨h, h.2⟩⟩

end ChibiDb
