import Mathlib.Tactic

/-!
# Runs of a Partial Step Function

A system is a type of states, a type of labels and a partial step function: a
label that is not enabled in a state gives `none`. A run is a list of labels,
taken in order.

A guarded run is one whose every step meets a condition on the label and the
state it is taken in. That is the shape of a safety result for code with a
defect: the property holds along every run that never takes the defective step.

## Main definitions

* `runSteps`: The state a list of labels leads to.
* `Meets`: Every step of a run meets a condition.

## Theorems

* `meets_cons`: The condition at the first step and along the rest.
* `meets_of_labels`: A condition on the labels alone.
* `runSteps_append`: A run in two parts.
* `invariant_of_meets`: What every guarded step preserves, a guarded run
  preserves.
* `invariant_of_steps`: The same without a condition.
* `mem_map_put`, `map_map_put`: The parties of a system after one is put back.
* `find_key_of_mem`: A party is found by its key.
* `perm_cons_filter_key`, `perm_map_key`: A party beside the others.
-/

namespace ChibiDb

open List Option

variable {σ lab : Type}

/-- The state reached by taking the labels in order, or `none` if one of them
    is not enabled when its turn comes. -/
def runSteps (step : σ → lab → Option σ) : σ → List lab → Option σ
  | s, [] => some s
  | s, l :: ls => match step s l with
    | none => none
    | some s' => runSteps step s' ls

/-- Every step of the run meets the condition in the state it is taken in. -/
def Meets (step : σ → lab → Option σ) (ok : σ → lab → Prop) : σ → List lab → Prop
  | _, [] => True
  | s, l :: ls => ok s l ∧ match step s l with
    | none => True
    | some s' => Meets step ok s' ls

instance decidableMeets (step : σ → lab → Option σ) (ok : σ → lab → Prop)
    [∀ s l, Decidable (ok s l)] (s : σ) (ls : List lab) : Decidable (Meets step ok s ls) :=
  match ls with
  | [] => isTrue trivial
  | l :: ls =>
    match hstep : step s l with
    | none => decidable_of_iff (ok s l) (by simp [Meets, hstep])
    | some s' =>
      have : Decidable (Meets step ok s' ls) := decidableMeets step ok s' ls
      decidable_of_iff (ok s l ∧ Meets step ok s' ls) (by simp only [Meets, hstep])

variable {l : lab} {ls : List lab} {s t : σ} {step : σ → lab → Option σ}

/-- A run takes its first step, and the rest of it starts there. -/
theorem runSteps_cons (h : runSteps step s (l :: ls) = some t) :
    ∃ s', step s l = some s' ∧ runSteps step s' ls = some t := by
  simp only [runSteps] at h
  cases hstep : step s l with
  | none =>
    rw [hstep] at h
    cases h
  | some s' =>
    rw [hstep] at h
    exact ⟨s', rfl, h⟩

/-- The condition after a first step that is taken. -/
theorem meets_cons (ok : σ → lab → Prop) {s' : σ} (ls : List lab) (hstep : step s l = some s') :
    Meets step ok s (l :: ls) ↔ ok s l ∧ Meets step ok s' ls := by
  simp only [Meets, hstep]

/-- A run can be cut into two. -/
theorem runSteps_append (s : σ) (ms : List lab) (h : runSteps step s ls = some t) :
    runSteps step s (ls ++ ms) = runSteps step t ms := by
  induction ls generalizing s with
  | nil =>
    simp only [runSteps, some.injEq] at h
    rw [h, nil_append]
  | cons _ _ ih =>
    rcases runSteps_cons h with ⟨s', hstep, hrest⟩
    simp only [cons_append, runSteps, hstep]
    exact ih s' hrest

/-- A condition that a run meets is met by every beginning of it. -/
theorem meets_of_append {ok : σ → lab → Prop} {ms : List lab} (h : Meets step ok s (ls ++ ms)) :
    Meets step ok s ls := by
  induction ls generalizing s with
  | nil => exact trivial
  | cons l _ ih =>
    refine ⟨h.1, ?_⟩
    have hrest := h.2
    cases hstep : step s l with
    | none => exact trivial
    | some s' =>
      rw [hstep] at hrest
      exact ih hrest

/-- An invariant rule for runs under a condition: what every step that meets the condition keeps
    holds at the end. -/
theorem invariant_of_meets (step : σ → lab → Option σ) (ok : σ → lab → Prop) (inv : σ → Prop)
    (hinv : ∀ s l s', inv s → ok s l → step s l = some s' → inv s')
    (s t : σ) (ls : List lab) (hs : inv s) (hok : Meets step ok s ls)
    (hrun : runSteps step s ls = some t) : inv t := by
  induction ls generalizing s with
  | nil =>
    cases hrun
    exact hs
  | cons l ls ih =>
    rcases runSteps_cons hrun with ⟨s', hstep, hrest⟩
    rw [meets_cons ok ls hstep] at hok
    exact ih s' (hinv s l s' hs hok.1 hstep) hok.2 hrest

/-- A condition on the labels alone. -/
theorem meets_of_labels {ok : lab → Prop} (s : σ) (h : ∀ l ∈ ls, ok l) :
    Meets step (fun _ => ok) s ls := by
  induction ls generalizing s with
  | nil => exact trivial
  | cons l _ ih =>
    rw [forall_mem_cons] at h
    refine ⟨h.1, ?_⟩
    cases step s l with
    | none => exact trivial
    | some s' => exact ih s' h.2

/-- The invariant rule without a condition. -/
theorem invariant_of_steps (step : σ → lab → Option σ) (inv : σ → Prop)
    (hinv : ∀ s l s', inv s → step s l = some s' → inv s')
    (s t : σ) (ls : List lab) (hs : inv s) (hrun : runSteps step s ls = some t) : inv t :=
  invariant_of_meets step (fun _ _ => True) inv (fun s l s' h _ => hinv s l s' h) s t ls hs
    (meets_of_labels s (fun _ _ => trivial)) hrun

section

variable {α ι : Type} [DecidableEq ι] {key : α → ι} {x y : α} {l : List α} {i : ι}

/-- One of the parties of a system is put back in its place. -/
theorem mem_map_put (h : y ∈ l.map (fun z => if key z = key x then x else z)) :
    y = x ∨ (y ∈ l ∧ key y ≠ key x) := by
  rcases List.mem_map.mp h with ⟨z, hz, rfl⟩
  by_cases hid : key z = key x
  · rw [if_pos hid]
    exact .inl rfl
  · rw [if_neg hid]
    exact .inr ⟨hz, hid⟩

theorem map_map_put : (l.map (fun z => if key z = key x then x else z)).map key = l.map key := by
  rw [List.map_map]
  refine map_congr_left (fun z _ => ?_)
  by_cases hid : key z = key x <;>
    simp [hid]

theorem mem_of_find_key (h : l.find? (fun z => key z = i) = some x) : x ∈ l ∧ key x = i := by
  have hkey := find?_some h
  exact ⟨mem_of_find?_eq_some h, of_decide_eq_true hkey⟩

theorem not_mem_of_find_key (h : l.find? (fun z => key z = i) = none) : i ∉ l.map key := by
  intro hmem
  rcases List.mem_map.mp hmem with ⟨x, hx, hid⟩
  exact find?_eq_none.mp h x hx (decide_eq_true hid)

/-- With one party for each key, the one found is the one there is. -/
theorem find_key_of_mem (hnd : (l.map key).Nodup) (hx : x ∈ l) :
    l.find? (fun z => key z = key x) = some x := by
  cases hf : l.find? (fun z => key z = key x) with
  | none => exact absurd (mem_map_of_mem hx) (not_mem_of_find_key hf)
  | some y =>
    rcases mem_of_find_key hf with ⟨hy, hid⟩
    rw [inj_on_of_nodup_map hnd hy hx hid]

/-- The other parties, beside one of them. -/
theorem perm_cons_filter_key (hnd : (l.map key).Nodup) (hx : x ∈ l) :
    l.Perm (x :: l.filter (fun z => key z ≠ key x)) := by
  rw [perm_ext_iff_of_nodup hnd.of_map (nodup_cons.mpr ⟨by simp, hnd.of_map.filter _⟩)]
  intro z
  rw [mem_cons, mem_filter, decide_eq_true_eq]
  constructor
  · intro hz
    by_cases hk : key z = key x
    · exact .inl (inj_on_of_nodup_map hnd hz hx hk)
    · exact .inr ⟨hz, hk⟩
  · rintro (rfl | hz)
    · exact hx
    · exact hz.1

theorem perm_map_key (g : α → α) (hnd : (l.map key).Nodup) (hx : x ∈ l) :
    (l.map (fun z => if key z = key x then g z else z)).Perm
      (g x :: l.filter (fun z => key z ≠ key x)) := by
  refine ((perm_cons_filter_key hnd hx).map _).trans ?_
  rw [map_cons, if_pos rfl, map_congr_left (g := id), List.map_id]
  intro z hz
  exact if_neg (of_decide_eq_true (mem_filter.mp hz).2)

end

end ChibiDb
