import ChibiDb.Theory.TornTail

/-!
# Recovery Planning Meets Its Specification

The plan for the bytes of whole frames and a torn one, in terms of the frames.
The scan reads back every whole frame with the position it ends at and stops at
the tear, and positions grow along the log, so sorting by commit position leaves
the transactions in the order of their first commit frames.

Cutting the log at any byte leaves whole frames and a torn one again. If a
transaction writes nothing behind its commit, the frames that are cut off change
nothing about the commits that are left.

## Main definitions

* `SilentAfterCommit`: No transaction has a frame behind its commit.

## Theorems

* `planRecovery_torn`: The plan of whole frames and a torn one.
* `exists_cut`: A cut log is whole frames and a torn one.
* `commitsOf_append`: Later frames leave earlier commits as they are.
* `planRecovery_spec`: The plan, and the plan of every cut.
-/

namespace ChibiDb

open List Option

variable {ρ : Type}

/-- No transaction has a frame behind its commit. -/
def SilentAfterCommit (fs : List Frame) : Prop :=
  fs.Pairwise (fun f g => f.record.isCommit = true → g.trxId ≠ f.trxId)

/-- The plan of whole frames behind which nothing decodes. -/
theorem planRecovery_torn (fs : List Frame) {rest : Bytes} (hrest : decodeFrame rest = none) :
    planRecovery (encodeFrames fs ++ rest) = planFrames (framesFrom 0 fs) := by
  rw [planRecovery, scanFrames_torn fs rest _ 0 (le_refl _) hrest]

theorem lt_of_mem_framesFrom {pos : Nat} {fs : List Frame} {e : Nat × Nat × Record Bytes}
    (he : e ∈ framesFrom pos fs) : pos < e.1 := by
  induction fs generalizing pos with
  | nil => cases he
  | cons f _ ih =>
    have hlen := length_bytes f
    rcases mem_cons.mp he with rfl | he
    · simp only
      omega
    · have hlt := ih he
      omega

theorem pairwise_framesFrom (pos : Nat) (fs : List Frame) :
    (framesFrom pos fs).Pairwise (fun a b => a.1 < b.1) := by
  induction fs generalizing pos with
  | nil => exact Pairwise.nil
  | cons _ _ ih => exact pairwise_cons.mpr ⟨fun _ he => lt_of_mem_framesFrom he, ih _⟩

theorem take_framesFrom (k pos : Nat) (fs : List Frame) :
    (framesFrom pos fs).take k = framesFrom pos (fs.take k) := by
  induction fs generalizing k pos with
  | nil => simp only [framesFrom, take_nil]
  | cons _ _ ih =>
    cases k with
    | zero => rfl
    | succ k => simp only [framesFrom, take_succ_cons, ih]

theorem exists_framesFrom_iff (pos : Nat) (fs : List Frame) (q : Nat × Record Bytes → Prop) :
    (∃ e ∈ framesFrom pos fs, q e.2) ↔ ∃ f ∈ fs, q (f.trxId, f.record) := by
  have h : (∃ p ∈ (framesFrom pos fs).map Prod.snd, q p) ↔
      ∃ p ∈ fs.map (fun f => (f.trxId, f.record)), q p := by
    rw [TornTail.map_snd_framesFrom]
  simpa only [List.mem_map, exists_exists_and_eq_and] using h

/-- A cut log is some whole frames and then bytes that do not decode. -/
theorem exists_cut (fs : List Frame) {f : Frame} {p : Bytes} (hp : p <+: f.bytes)
    (hlt : p.length < f.bytes.length) (n : Nat) :
    ∃ k q, (encodeFrames fs ++ p).take n = encodeFrames (fs.take k) ++ q ∧
      decodeFrame q = none := by
  induction fs generalizing n with
  | nil =>
    refine ⟨0, p.take n, rfl, decodeFrame_cut (( take_prefix n p).trans hp) ?_⟩
    rw [length_take]
    omega
  | cons g gs ih =>
    by_cases hn : n < g.bytes.length
    · refine ⟨0, g.bytes.take n, ?_, decodeFrame_cut ( take_prefix n g.bytes) ?_⟩
      · rw [encodeFrames, append_assoc, take_append_of_le_length (Nat.le_of_lt hn)]
        rfl
      · rw [length_take]
        omega
    · rcases ih (n - g.bytes.length) with ⟨k, q, htake, hq⟩
      refine ⟨k + 1, q, ?_, hq⟩
      rw [encodeFrames, append_assoc, take_append, take_of_length_le (by omega), htake,
        take_succ_cons, encodeFrames, append_assoc]

/-- Frames of other transactions leave the commits before them as they are. -/
theorem commitsOf_append {xs ys : List (Nat × Nat × Record ρ)}
    (h : ∀ x ∈ xs, x.2.2.isCommit = true → ∀ y ∈ ys, y.2.1 ≠ x.2.1) :
    commitsOf xs <+: commitsOf (xs ++ ys) := by
  unfold commitsOf
  rw [filterMap_append]
  refine ⟨_, congrArg (· ++ _) (filterMap_congr (fun x hx => ?_))⟩
  by_cases hc : x.2.2.isCommit = true
  · have hdata : dataOf x.2.1 ys = [] := by
      simp only [dataOf, map_eq_nil_iff, filter_eq_nil_iff, Bool.and_eq_true, decide_eq_true_eq]
      exact fun y hy hid => h x hx hc y hy hid.1
    rcases (commitOf_isSome_iff x.2.1 xs).mpr ⟨x, hx, rfl, hc⟩ with ⟨pos, hpos⟩
    rw [dataOf_append, commitOf_append, hdata, append_nil, hpos, some_or]
  · rw [if_neg (fun h => hc h.2.1), if_neg (fun h => hc h.2.1)]

/-- The frames that are cut off belong to other transactions than the commits left. -/
theorem commitsOf_take {fs : List Frame} (h : SilentAfterCommit fs) (k : Nat) :
    commitsOf (framesFrom 0 (fs.take k)) <+: commitsOf (framesFrom 0 fs) := by
  have hpair : (framesFrom 0 fs).Pairwise
      (fun a b => a.2.2.isCommit = true → b.2.1 ≠ a.2.1) := by
    have hmap : ((framesFrom 0 fs).map Prod.snd).Pairwise
        (fun a b => a.2.isCommit = true → b.1 ≠ a.1) := by
      rw [TornTail.map_snd_framesFrom]
      exact pairwise_map.mpr h
    exact pairwise_map.mp hmap
  have hsplit := take_append_drop k (framesFrom 0 fs)
  rw [← hsplit] at hpair
  have happ := commitsOf_append (fun x hx hc y hy => (pairwise_append.mp hpair).2.2 x hx y hy hc)
  rw [hsplit, take_framesFrom] at happ
  exact happ

/-- The plan for whole frames and a strict prefix of one more. It lists the transactions with a
    commit frame and a record, by first commit frame, each with its records in log order; its ids
    are those with a commit frame, each once; its highest id is the highest seen. If no transaction
    has a frame behind its commit, the plan of every cut lists a prefix. -/
theorem planRecovery_spec (fs : List Frame) (f : Frame) (p : Bytes) (hp : p <+: f.bytes)
    (hlt : p.length < f.bytes.length) :
    (planRecovery (encodeFrames fs ++ p)).committed = commitsOf (framesFrom 0 fs) ∧
      ((planRecovery (encodeFrames fs ++ p)).committedIds.Nodup ∧
        ∀ t, t ∈ (planRecovery (encodeFrames fs ++ p)).committedIds ↔
          ∃ g ∈ fs, g.trxId = t ∧ g.record.isCommit = true) ∧
      (∀ n, (planRecovery (encodeFrames fs ++ p)).maxTrxId ≤ n ↔ ∀ g ∈ fs, g.trxId ≤ n) ∧
      (SilentAfterCommit fs → ∀ n, (planRecovery ((encodeFrames fs ++ p).take n)).committed <+:
        (planRecovery (encodeFrames fs ++ p)).committed) := by
  have hplan := planRecovery_torn fs (decodeFrame_cut hp hlt)
  have hcommitted := committed_eq_commitsOf (pairwise_framesFrom 0 fs)
  rw [hplan]
  refine ⟨hcommitted, ⟨?_, fun t => ?_⟩, fun n => ?_, fun hsilent n => ?_⟩
  · exact (pairwise_map.mpr (planLoop (framesFrom 0 fs)).commitPos.sorted).imp Nat.ne_of_lt
  · rw [mem_committedIds_iff]
    exact exists_framesFrom_iff 0 fs (fun p => p.1 = t ∧ p.2.isCommit = true)
  · rw [maxTrxId_le_iff]
    have hany := not_congr (exists_framesFrom_iff 0 fs (fun p => n < p.1))
    push Not at hany
    exact hany
  · rcases exists_cut fs hp hlt n with ⟨k, q, htake, hq⟩
    rw [htake, planRecovery_torn _ hq, hcommitted,
      committed_eq_commitsOf (pairwise_framesFrom 0 (fs.take k))]
    exact commitsOf_take hsilent k

theorem fin_lt (t : Fin 8) : t.val < 2 ^ 64 := by
  omega

theorem typed_mark (t : Fin 8) : (Record.deleteMark 0 ⟨0, 0⟩ t 0).Typed := by
  simp only [Record.Typed]
  omega

/-- A commit frame. -/
def commitFrameOf (t : Fin 8) : Frame := ⟨t, .commit, fin_lt t, trivial⟩

/-- A frame of transaction `t` that marks row 0 of page 0. -/
def markFrameOf (t : Fin 8) : Frame := ⟨t, .deleteMark 0 ⟨0, 0⟩ t 0, fin_lt t, typed_mark t⟩

/-- Transaction 2 starts last and commits first. -/
def crossed : List Frame := [markFrameOf 1, markFrameOf 2, commitFrameOf 2, commitFrameOf 1]

theorem planRecovery_spec_crossed :
    commitsOf (framesFrom 0 crossed) =
        [(91, 2, [.deleteMark 0 ⟨0, 0⟩ 2 0]), (104, 1, [.deleteMark 0 ⟨0, 0⟩ 1 0])] ∧
      (planRecovery (encodeFrames crossed ++ [9, 0])).committed =
        commitsOf (framesFrom 0 crossed) :=
  ⟨by decide, (planRecovery_spec crossed (commitFrameOf 3) [9, 0] (by decide) (by decide)).1⟩

end ChibiDb
