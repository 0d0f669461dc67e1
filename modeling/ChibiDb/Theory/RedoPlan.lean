import ChibiDb.Theory.RedoSlot
import ChibiDb.Theory.DbInv

/-!
# What Recovery Replays

The records recovery replays are those of the committed transactions, one
transaction after the other in the order of the commit frames, as a reader of the
log would list them; the maps and the sort of the plan make no difference.

## Main definitions

* `recordsOf`, `commitOrder`: A transaction's records, and all that are
  committed, in commit order.

## Theorems

* `redoRecords_eq_commitOrder`: The plan is the commit order.
-/

namespace ChibiDb

open List Option
open Record (commit insert)

/-- The records a transaction logged, its commit apart, in log order. -/
def recordsOf (t : Nat) (log : List (Nat × Record Version)) : List (Record Version) :=
  (log.filter (fun e => decide (e.1 = t) && !e.2.isCommit)).map (fun e => e.2)

/-- The records of the committed transactions: for each commit frame, in log
    order, what its transaction logged. -/
def commitOrder (log : List (Nat × Record Version)) : List (Record Version) :=
  (log.filter (fun e => e.2.isCommit)).flatMap (fun e => recordsOf e.1 log)

/-- Each transaction commits once. -/
def CommitsOnce (log : List (Nat × Record Version)) : Prop :=
  ((log.filter (fun e => e.2.isCommit)).map (fun e => e.1)).Nodup

theorem filter_commit_map {rs : List (Record Version)} (t : Nat) (hrs : commit ∉ rs) :
    (rs.map (fun r => (t, r))).filter (fun e => e.2.isCommit) = [] := by
  rw [filter_eq_nil_iff]
  intro e he
  rcases mem_map.mp he with ⟨_, hr, heq⟩
  rw [← heq, isCommit_iff]
  exact fun hc => hrs (hc ▸ hr)

theorem commitsOnce_append {rs : List (Record Version)} {log : List (Nat × Record Version)}
    (t : Nat) (hrs : commit ∉ rs) (h : CommitsOnce log) :
    CommitsOnce (log ++ rs.map (fun r => (t, r))) := by
  unfold CommitsOnce
  rw [filter_append, filter_commit_map t hrs, append_nil]
  exact h

theorem commitsOnce_commit {t : Nat} {log : List (Nat × Record Version)}
    (ht : (t, commit) ∉ log) (h : CommitsOnce log) :
    CommitsOnce (log ++ [(t, commit)]) := by
  unfold CommitsOnce at h ⊢
  have hone : ([(t, commit)] : List (Nat × Record Version)).filter (fun e => e.2.isCommit) =
      [(t, commit)] := rfl
  rw [filter_append, hone, map_append, map_singleton, nodup_append]
  refine ⟨h, nodup_singleton _, ?_⟩
  intro _ ha b hb heq
  rcases mem_map.mp ha with ⟨_, he, hea⟩
  rcases mem_filter.mp he with ⟨he, hc⟩
  rw [isCommit_iff] at hc
  have hbt : b = t := mem_singleton.mp hb
  refine ht ?_
  rw [← hbt, ← heq, ← hea, ← hc]
  exact he

theorem map_snd_logFrames (log : List (Nat × Record Version)) :
    (logFrames log).map (fun f => f.2) = log := by
  unfold logFrames
  apply ext_getElem
  · simp
  · intro _ _ _
    simp

theorem dataOf_logFrames (t : Nat) (log : List (Nat × Record Version)) :
    dataOf t (logFrames log) = recordsOf t log := by
  have h : recordsOf t ((logFrames log).map (fun f => f.2)) = dataOf t (logFrames log) := by
    unfold recordsOf dataOf
    rw [List.filter_map, List.map_map]
    rfl
  rw [← h, map_snd_logFrames]

theorem pairwise_logFrames (log : List (Nat × Record Version)) :
    (logFrames log).Pairwise (fun a b => a.1 < b.1) := by
  unfold logFrames
  rw [pairwise_iff_getElem]
  intro _ _ _ _ _
  simp only [getElem_mapIdx]
  omega

/-- A commit frame and what its transaction logged, as the plan lists it. -/
def planEntry (frames : List (Nat × Nat × Record Version)) (f : Nat × Nat × Record Version) :
    Option (Nat × Nat × List (Record Version)) :=
  if f.2.2.isCommit = true ∧ dataOf f.2.1 frames ≠ [] then some (f.1, f.2.1, dataOf f.2.1 frames)
  else none

variable {log : List (Nat × Record Version)} {h : Heap} {rs : List (Record Version)}
  {tables : List Table} {f0 : Nat} {rid : Rid}

/-- With one commit frame per transaction, the first one is the only one. -/
theorem commitOf_logFrames_iff (honce : CommitsOnce log) (t pos : Nat) :
    commitOf t (logFrames log) = some pos ↔
      ∃ f ∈ logFrames log, f.1 = pos ∧ f.2.1 = t ∧ f.2.2.isCommit = true := by
  have hinj : ∀ f ∈ logFrames log, ∀ g ∈ logFrames log, f.2.2.isCommit = true →
      g.2.2.isCommit = true → f.2.1 = g.2.1 → f = g := by
    have hnodup :
        (((logFrames log).filter (fun f => f.2.2.isCommit)).map (fun f => f.2.1)).Nodup := by
      unfold CommitsOnce at honce
      rw [← map_snd_logFrames log, List.filter_map, List.map_map] at honce
      exact honce
    intro f hf g hg hfc hgc hid
    exact inj_on_of_nodup_map hnodup (mem_filter.mpr ⟨hf, hfc⟩) (mem_filter.mpr ⟨hg, hgc⟩) hid
  unfold commitOf
  rw [map_eq_some_iff]
  constructor
  · rintro ⟨f, hfind, hpos⟩
    have hp := find?_some hfind
    simp only [Bool.and_eq_true, decide_eq_true_eq] at hp
    exact ⟨f, mem_of_find?_eq_some hfind, hpos, hp.1, hp.2⟩
  · rintro ⟨f, hf, hpos, ht, hc⟩
    cases hfind : (logFrames log).find? (fun f => decide (f.2.1 = t) && f.2.2.isCommit) with
    | none =>
      rw [find?_eq_none] at hfind
      exact absurd (Bool.and_eq_true_iff.mpr ⟨decide_eq_true ht, hc⟩) (hfind f hf)
    | some g =>
      have hg := find?_some hfind
      simp only [Bool.and_eq_true, decide_eq_true_eq] at hg
      have heq := hinj g (mem_of_find?_eq_some hfind) f hf hg.2 hc (hg.1.trans ht.symm)
      exact ⟨g, rfl, heq ▸ hpos⟩

/-- The plan is sorted by commit position, which is the order of the log. -/
theorem committed_eq_filterMap (honce : CommitsOnce log) :
    (planFrames (logFrames log)).committed =
      (logFrames log).filterMap (planEntry (logFrames log)) := by
  rw [committed_eq_commitsOf (pairwise_logFrames log)]
  refine filterMap_congr (fun f hf => ?_)
  unfold planEntry
  by_cases hc : f.2.2.isCommit = true
  · have hpos := (commitOf_logFrames_iff honce f.2.1 f.1).mpr ⟨f, hf, rfl, rfl, hc⟩
    simp only [hpos, true_and]
  · rw [if_neg (fun h => hc h.2.1), if_neg (fun h => hc h.1)]

theorem flatMap_planEntry (frames xs : List (Nat × Nat × Record Version)) :
    (xs.filterMap (planEntry frames)).flatMap (fun e => e.2.2) =
      (xs.filter (fun f => f.2.2.isCommit)).flatMap (fun f => dataOf f.2.1 frames) := by
  induction xs with
  | nil => rfl
  | cons f _ ih =>
    cases hc : f.2.2.isCommit with
    | false =>
      have hnone : planEntry frames f = none :=
        if_neg (fun h => Bool.false_ne_true (hc.symm.trans h.1))
      rw [filterMap_cons, hnone, filter_cons_of_neg (by rw [hc]; exact Bool.false_ne_true), ih]
    | true =>
      rw [filter_cons, if_pos hc, flatMap_cons, ← ih]
      by_cases hd : dataOf f.2.1 frames = []
      · have hnone : planEntry frames f = none := if_neg (fun h => h.2 hd)
        rw [filterMap_cons, hnone, hd, nil_append]
      · have hsome : planEntry frames f = some (f.1, f.2.1, dataOf f.2.1 frames) :=
          if_pos ⟨hc, hd⟩
        rw [filterMap_cons, hsome, flatMap_cons]

/-- Recovery replays the committed records in the order of the commit frames. -/
theorem redoRecords_eq_commitOrder (honce : CommitsOnce log) :
    redoRecords log = commitOrder log := by
  have hcommits : log.filter (fun e => e.2.isCommit) =
      ((logFrames log).filter (fun f => f.2.2.isCommit)).map (fun f => f.2) := by
    have h := filter_map (f := fun f : Nat × Nat × Record Version => f.2)
      (p := fun e => e.2.isCommit) (l := logFrames log)
    rw [map_snd_logFrames] at h
    exact h
  unfold redoRecords commitOrder
  rw [committed_eq_filterMap honce, flatMap_planEntry, hcommits, flatMap_map]
  simp only [dataOf_logFrames]

end ChibiDb
