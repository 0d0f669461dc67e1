import ChibiDb.Theory.DbSteps
import ChibiDb.Theory.SessionSteps
import ChibiDb.Theory.CheckpointSteps

/-!
# One Transaction Manager Under Three Models

The database, the sessions and the checkpoints are modelled apart: the first has
pages, the log and crashes, the second statements, locks and indexes, the third
the order of the reads of a checkpoint. What they share is the transaction
manager. This file says that they use it in the same way: a run of any of them
is a run of the manager's own operations, so what holds of those holds in all
three. Only a crash, which the database alone has, starts a new manager.

The database saves the catalog in one step, where the checkpoints read the next
id, the horizon and the commit bits one after the other. The next id, which can
move in between, is read apart in `Horizon.Traced` too.

## Main definitions

* `ManagerStep`: An operation of the manager, or none.
* `ManagerRun`: Any number of them.

## Theorems

* `managerRun_of_steps`: From the steps of a model to its runs.
* `Sessions.managerRun`, `Checkpointing.managerRun`, `Db.managerRun`: The three models.
* `ManagerRun.grows`: Ids are not handed out again, and what is committed stays so.
-/

namespace ChibiDb

variable {m m' : TransactionManager}

/-- What one step does to the manager. -/
inductive ManagerStep (m : TransactionManager) : TransactionManager → Prop where
  | same : ManagerStep m m
  | begin : ManagerStep m m.beginOpen.2
  | removeOpen (id : Nat) : ManagerStep m (m.removeOpen id)
  | bumpCommits : ManagerStep m m.bumpCommits
  | markCommitted (id : Nat) : ManagerStep m (m.markCommitted id)
  | advanceHorizon (b : Nat) : ManagerStep m (m.advanceHorizon b)

/-- A run of the manager. -/
abbrev ManagerRun : TransactionManager → TransactionManager → Prop :=
  Relation.ReflTransGen ManagerStep

/-- Where every step of a system is one of the manager, every run is a run of it. -/
theorem managerRun_of_steps {σ lab : Type} {step : σ → lab → Option σ}
    (tm : σ → TransactionManager) (ok : lab → Prop)
    (hstep : ∀ s l s', ok l → step s l = some s' → ManagerStep (tm s) (tm s'))
    {ls : List lab} {s s' : σ} (hok : ∀ l ∈ ls, ok l) (h : runSteps step s ls = some s') :
    ManagerRun (tm s) (tm s') := by
  induction ls generalizing s with
  | nil =>
    cases h
    exact .refl
  | cons l ls ih =>
    rcases runSteps_cons h with ⟨t, hl, ht⟩
    have hfirst := hstep s l t (hok l List.mem_cons_self) hl
    exact .head hfirst (ih (fun l hl => hok l (List.mem_cons_of_mem _ hl)) ht)

/-- An operation hands out no id again and takes no commit back. -/
theorem ManagerStep.grows (h : ManagerStep m m') :
    m.nextId ≤ m'.nextId ∧ m.commits ≤ m'.commits ∧
      ∀ x, m.committed.isCommitted x = true → m'.committed.isCommitted x = true := by
  cases h with
  | same | removeOpen => exact ⟨le_rfl, le_rfl, fun _ hx => hx⟩
  | begin => exact ⟨Nat.le_succ _, le_rfl, fun _ hx => hx⟩
  | bumpCommits => exact ⟨le_rfl, Nat.le_succ _, fun _ hx => hx⟩
  | markCommitted => exact ⟨le_rfl, le_rfl, fun x hx => (Clog.isCommitted_mark ..).mpr (.inl hx)⟩
  | advanceHorizon =>
    exact ⟨le_rfl, le_rfl, fun x hx => (Clog.isCommitted_advanceBase ..).mpr (.inl hx)⟩

/-- Ids are not handed out again, and what is committed stays so. -/
theorem ManagerRun.grows (h : ManagerRun m m') :
    m.nextId ≤ m'.nextId ∧ m.commits ≤ m'.commits ∧
      ∀ x, m.committed.isCommitted x = true → m'.committed.isCommitted x = true := by
  induction h with
  | refl => exact ⟨le_rfl, le_rfl, fun _ hx => hx⟩
  | tail _ hlast ih =>
    have hg := hlast.grows
    exact ⟨ih.1.trans hg.1, ih.2.1.trans hg.2.1, fun x hx => hg.2.2 x (ih.2.2 x hx)⟩

/-- The sessions use the manager by its operations only. -/
theorem Sessions.managerRun {s s' : Sessions} {ls : List SessionLabel}
    (h : runSteps Sessions.step s ls = some s') : ManagerRun s.tm s'.tm := by
  refine managerRun_of_steps Sessions.tm (fun _ => True) (fun s l s' _ hl => ?_)
    (fun _ _ => trivial) h
  cases Sessions.step_cases hl with
  | begin => exact .begin
  | act _ _ _ _ hact =>
    cases hact with
    | removeOpen => exact .removeOpen _
    | closeCommitted => exact .removeOpen _
    | markCommitted => exact .markCommitted _
    | _ => exact .same

/-- So do the checkpoints. -/
theorem Checkpointing.managerRun {s s' : Checkpointing} {ls : List CheckpointLabel}
    (h : runSteps Checkpointing.step s ls = some s') : ManagerRun s.tm s'.tm := by
  refine managerRun_of_steps Checkpointing.tm (fun _ => True) (fun s l s' _ hl => ?_)
    (fun _ _ => trivial) h
  cases Checkpointing.step_cases hl with
  | begin => exact .begin
  | trx _ _ _ _ hw =>
    cases hw with
    | count => exact .bumpCommits
    | mark => exact .markCommitted _
    | leave | rollback => exact .removeOpen _
    | _ => exact .same
  | _ => exact .same

/-- So does the database until it crashes. -/
theorem Db.managerRun {s s' : Db} {ls : List Label} (hup : ∀ l ∈ ls, l ≠ .crash)
    (h : runSteps Db.step s ls = some s') : ManagerRun s.tm s'.tm := by
  refine managerRun_of_steps Db.tm (· ≠ .crash) (fun s l s' hne hl => ?_) hup h
  cases Db.step_cases hl with
  | begin => exact .begin
  | trx _ _ _ _ _ ht =>
    cases ht with
    | removeOpen | commitFinish => exact .removeOpen _
    | commitCount => exact .bumpCommits
    | commitMark => exact .markCommitted _
    | _ => exact .same
  | vacuumHorizon => exact .advanceHorizon _
  | crash => exact absurd rfl hne
  | _ => exact .same

end ChibiDb
