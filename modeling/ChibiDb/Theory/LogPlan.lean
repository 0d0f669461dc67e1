import ChibiDb.Core.Wal

/-!
# The Recovery Plan

What the scan loop has gathered after any list of frames, in terms of the frames
alone: the records of a transaction are its data frames in log order, its commit
position is that of its first commit frame, and the highest id bounds every id.
The plan lists exactly the transactions with both a commit frame and a record.

## Main definitions

* `dataOf`: The data records of a transaction, in log order.
* `commitOf`: Where a transaction's first commit frame ends.
* `commitsOf`: The committed transactions of a log, by first commit frame.

## Theorems

* `mem_committed_iff`: Which transactions a plan lists, and with what.
* `mem_committedIds_iff`: Which ids a plan calls committed.
* `maxTrxId_le_iff`: The highest id of a plan.
* `committed_eq_commitsOf`: A plan lists the committed transactions in order.
-/

namespace ChibiDb

open List Option

variable {ρ : Type}

/-- The data records of a transaction, in log order. -/
def dataOf (trxId : Nat) (frames : List (Nat × Nat × Record ρ)) : List (Record ρ) :=
  (frames.filter (fun f => decide (f.2.1 = trxId) && !f.2.2.isCommit)).map (fun f => f.2.2)

/-- Where a transaction's first commit frame ends. -/
def commitOf (trxId : Nat) (frames : List (Nat × Nat × Record ρ)) : Option Nat :=
  (frames.find? (fun f => decide (f.2.1 = trxId) && f.2.2.isCommit)).map (fun f => f.1)

theorem dataOf_append (t : Nat) (xs ys : List (Nat × Nat × Record ρ)) :
    dataOf t (xs ++ ys) = dataOf t xs ++ dataOf t ys := by
  simp [dataOf]

theorem commitOf_append (t : Nat) (xs ys : List (Nat × Nat × Record ρ)) :
    commitOf t (xs ++ ys) = (commitOf t xs).or (commitOf t ys) := by
  simp [commitOf, map_or]

theorem planLoop_append (xs : List (Nat × Nat × Record ρ)) (f : Nat × Nat × Record ρ) :
    planLoop (xs ++ [f]) = (planLoop xs).note f.1 f.2.1 f.2.2 := by
  simp [planLoop]

/-- A record noted goes to its transaction's records, unless it is a commit. -/
theorem note_records (s : PlanState ρ) (pos trxId t : Nat) (rec : Record ρ) :
    (s.note pos trxId rec).records.get? t =
      if t = trxId ∧ rec.isCommit = false then some ((s.records.get? t).getD [] ++ [rec])
      else s.records.get? t := by
  cases rec with
  | commit => simp only [PlanState.note, Record.isCommit, Bool.true_eq_false, and_false, if_false]
  | _ =>
    by_cases ht : t = trxId <;>
      simp [PlanState.note, Record.isCommit, BTreeMap.get?_alter, ht]

/-- A commit noted fixes its transaction's position, if it has none yet. -/
theorem note_commitPos (s : PlanState ρ) (pos trxId t : Nat) (rec : Record ρ) :
    (s.note pos trxId rec).commitPos.get? t =
      if t = trxId ∧ rec.isCommit = true then some ((s.commitPos.get? t).getD pos)
      else s.commitPos.get? t := by
  cases rec with
  | commit =>
    by_cases ht : t = trxId <;>
      simp [PlanState.note, Record.isCommit, BTreeMap.get?_alter, ht]
  | _ =>
    simp [PlanState.note, Record.isCommit]

theorem note_maxTrxId (s : PlanState ρ) (pos trxId : Nat) (rec : Record ρ) :
    (s.note pos trxId rec).maxTrxId = max s.maxTrxId trxId := by
  cases rec <;> rfl

/-- The records gathered for a transaction are its data frames in log order. -/
theorem records_planLoop (t : Nat) (frames : List (Nat × Nat × Record ρ)) :
    (planLoop frames).records.get? t =
      if dataOf t frames = [] then none else some (dataOf t frames) := by
  induction frames using reverseRecOn with
  | nil => rfl
  | append_singleton xs f ih =>
    rw [planLoop_append, note_records, ih, dataOf_append]
    by_cases hf : t = f.2.1 ∧ f.2.2.isCommit = false
    · have hone : dataOf t [f] = [f.2.2] := by
        simp [dataOf, hf.1, hf.2]
      rw [if_pos hf, hone, if_neg (append_ne_nil_of_right_ne_nil _ (cons_ne_nil _ _))]
      by_cases hx : dataOf t xs = []
      · rw [if_pos hx, hx, getD_none]
      · rw [if_neg hx, getD_some]
    · have hone : dataOf t [f] = [] := by
        simpa [dataOf, @eq_comm _ t] using hf
      rw [if_neg hf, hone, append_nil]

/-- The commit position gathered is that of the first commit frame. -/
theorem commitPos_planLoop (t : Nat) (frames : List (Nat × Nat × Record ρ)) :
    (planLoop frames).commitPos.get? t = commitOf t frames := by
  induction frames using reverseRecOn with
  | nil => rfl
  | append_singleton xs f ih =>
    rw [planLoop_append, note_commitPos, ih, commitOf_append]
    by_cases hf : t = f.2.1 ∧ f.2.2.isCommit = true
    · have hone : commitOf t [f] = some f.1 := by
        simp [commitOf, hf.1, hf.2]
      rw [if_pos hf, hone]
      cases commitOf t xs <;> rfl
    · have hone : commitOf t [f] = none := by
        simpa [commitOf, @eq_comm _ t] using hf
      rw [if_neg hf, hone, or_none]

theorem maxTrxId_planLoop (n : Nat) (frames : List (Nat × Nat × Record ρ)) :
    (planLoop frames).maxTrxId ≤ n ↔ ∀ f ∈ frames, f.2.1 ≤ n := by
  induction frames using reverseRecOn with
  | nil => simp only [planLoop, foldl_nil, Nat.zero_le, not_mem_nil, false_implies, implies_true]
  | append_singleton _ f ih =>
    rw [planLoop_append, note_maxTrxId, max_le_iff, ih]
    rw [forall_mem_append, forall_mem_singleton]

/-- The highest id of a plan is the least bound of the ids of its frames. -/
theorem maxTrxId_le_iff (n : Nat) (frames : List (Nat × Nat × Record ρ)) :
    (planFrames frames).maxTrxId ≤ n ↔ ∀ f ∈ frames, f.2.1 ≤ n :=
  maxTrxId_planLoop n frames

theorem trxId_le_maxTrxId {frames : List (Nat × Nat × Record ρ)} {f : Nat × Nat × Record ρ}
    (hf : f ∈ frames) : f.2.1 ≤ (planFrames frames).maxTrxId :=
  (maxTrxId_le_iff _ frames).mp (le_refl _) f hf

/-- A plan lists the transactions with a commit frame and at least one record,
    each with its commit position and all its records in log order. -/
theorem mem_committed_iff (pos t : Nat) (recs : List (Record ρ))
    (frames : List (Nat × Nat × Record ρ)) :
    (pos, t, recs) ∈ (planFrames frames).committed ↔
      commitOf t frames = some pos ∧ dataOf t frames = recs ∧ recs ≠ [] := by
  simp only [planFrames, mem_insertionSort, mem_filterMap, map_eq_some_iff]
  constructor
  · rintro ⟨⟨t', _⟩, hmem, _, hrecs, heq⟩
    rcases heq with ⟨rfl, rfl, rfl⟩
    rw [BTreeMap.mem_entries_iff, commitPos_planLoop] at hmem
    rw [records_planLoop] at hrecs
    by_cases hd : dataOf t' frames = []
    · cases (if_pos hd).symm.trans hrecs
    · rw [if_neg hd, some.injEq] at hrecs
      exact ⟨hmem, hrecs, hrecs ▸ hd⟩
  · rintro ⟨hpos, hdata, hne⟩
    refine ⟨(t, pos), ?_, recs, ?_, rfl⟩
    · rw [BTreeMap.mem_entries_iff, commitPos_planLoop]
      exact hpos
    · rw [records_planLoop, hdata, if_neg hne]

theorem commitOf_isSome_iff (t : Nat) (frames : List (Nat × Nat × Record ρ)) :
    (∃ pos, commitOf t frames = some pos) ↔ ∃ f ∈ frames, f.2.1 = t ∧ f.2.2.isCommit = true := by
  simp only [commitOf, map_eq_some_iff]
  constructor
  · rintro ⟨_, f, hfind, _⟩
    have hp := find?_some hfind
    simp only [Bool.and_eq_true, decide_eq_true_eq] at hp
    exact ⟨f, mem_of_find?_eq_some hfind, hp⟩
  · rintro ⟨f, hf, ht, hc⟩
    cases hfind : frames.find? (fun f => decide (f.2.1 = t) && f.2.2.isCommit) with
    | none =>
      have hno := find?_eq_none.mp hfind f hf
      simp [ht, hc] at hno
    | some g => exact ⟨g.1, g, rfl, rfl⟩

/-- A plan calls an id committed exactly when it has a commit frame. -/
theorem mem_committedIds_iff (t : Nat) (frames : List (Nat × Nat × Record ρ)) :
    t ∈ (planFrames frames).committedIds ↔
      ∃ f ∈ frames, f.2.1 = t ∧ f.2.2.isCommit = true := by
  simp only [planFrames, BTreeMap.mem_keys_iff, commitPos_planLoop]
  exact commitOf_isSome_iff t frames

/-- What a log has committed: at each frame that is the first commit of its
    transaction, the transaction's records, unless it has none. -/
def commitsOf (frames : List (Nat × Nat × Record ρ)) : List (Nat × Nat × List (Record ρ)) :=
  frames.filterMap (fun f =>
    if commitOf f.2.1 frames = some f.1 ∧ f.2.2.isCommit = true ∧ dataOf f.2.1 frames ≠ [] then
      some (f.1, f.2.1, dataOf f.2.1 frames)
    else none)

theorem mem_commitsOf_iff (pos t : Nat) (recs : List (Record ρ))
    (frames : List (Nat × Nat × Record ρ)) :
    (pos, t, recs) ∈ commitsOf frames ↔
      commitOf t frames = some pos ∧ dataOf t frames = recs ∧ recs ≠ [] := by
  simp only [commitsOf, mem_filterMap, ite_some_none_eq_some, Prod.mk.injEq]
  constructor
  · rintro ⟨f, _, ⟨hpos, _, hne⟩, rfl, rfl, rfl⟩
    exact ⟨hpos, rfl, hne⟩
  rintro ⟨hpos, rfl, hne⟩
  have hfind := hpos
  simp only [commitOf, map_eq_some_iff] at hfind
  rcases hfind with ⟨f, hfind, rfl⟩
  have hp := find?_some hfind
  simp only [Bool.and_eq_true, decide_eq_true_eq] at hp
  rcases hp with ⟨rfl, hc⟩
  exact ⟨f, mem_of_find?_eq_some hfind, ⟨hpos, hc, hne⟩, rfl, rfl, rfl⟩

/-- A plan lists the committed transactions in the order of the log. -/
theorem committed_eq_commitsOf {frames : List (Nat × Nat × Record ρ)}
    (hpos : frames.Pairwise (fun a b => a.1 < b.1)) :
    (planFrames frames).committed = commitsOf frames := by
  have hsorted : (commitsOf frames).Pairwise (fun a b => a.1 < b.1) := by
    refine List.Pairwise.filterMap _ ?_ hpos
    intro f g hfg a ha b hb
    simp only [ite_some_none_eq_some] at ha hb
    rw [← ha.2, ← hb.2]
    exact hfg
  have hmem : ∀ e, e ∈ (planFrames frames).committed ↔ e ∈ commitsOf frames := by
    rintro ⟨pos, t, recs⟩
    rw [mem_committed_iff, mem_commitsOf_iff]
  have hnodup : (planFrames frames).committed.Nodup := by
    refine (perm_insertionSort _ _).nodup_iff.mpr (List.Nodup.filterMap ?_ ?_)
    · intro a _ b hb hb'
      simp only [mem_def, map_eq_some_iff] at hb hb'
      rcases hb with ⟨_, _, rfl⟩
      rcases hb' with ⟨_, _, heq⟩
      simp only [Prod.mk.injEq] at heq
      exact Prod.ext heq.2.1.symm heq.1.symm
    · exact (planLoop frames).commitPos.sorted.imp (fun h heq => by rw [heq] at h; omega)
  have hperm := (perm_ext_iff_of_nodup hnodup
    (hsorted.imp (fun h heq => by rw [heq] at h; omega))).mpr hmem
  refine List.Perm.eq_of_pairwise ?_ (pairwise_insertionSort _ _) (hsorted.imp Nat.le_of_lt) hperm
  intro a _ ha hb hab hba
  have hinj : ((commitsOf frames).map (fun e => e.1)).Nodup :=
    List.Pairwise.map _ (fun _ _ h => Nat.ne_of_lt h) hsorted
  exact inj_on_of_nodup_map hinj ((hmem a).mp ha) hb (Nat.le_antisymm hab hba)

end ChibiDb
