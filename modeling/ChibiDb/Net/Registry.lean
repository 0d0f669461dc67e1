import ChibiDb.Net.Connections

/-!
# The Registry of HTTP Sessions

A session that outlives its connection is kept in a map, under an id the server made. A
request takes its session out of the map, and locks it later. In between, a sweep may
remove the session from the map and roll it back; what the request then begins can be
reached by no id, and no later sweep ends it.

## Main definitions

* `Registry`: The map, the sessions, the requests and what a sweep still has to do.
* `Engine.registryStep`: One step of a request or of a sweep.
* `Engine.Spares`: What requests and sweeps have to leave to each other.
* `Engine.Kept`: Every open transaction is in the map or is still to be rolled back.

## Theorems

* `mem_evict`: What is among the most recently used is not evicted.
* `Engine.Kept.step`: The step lemma.
* `open_sessions_reachable`: Sweeps and requests that meet the condition orphan no session.
* `claimed_session_orphaned`: A request and a sweep that do not.
-/

namespace ChibiDb.Net

open List Option Function

/-- `IDLE_TIMEOUT` in milliseconds. -/
def idleTimeout : Nat := 30 * 60 * 1000

/-- The sessions a sweep leaves at most. -/
def maxSessions : Nat := 256

/-- An entry of the map, with the session it shares. -/
structure Entry where
  id : String
  session : Nat
  lastSeen : Nat
  lastTick : Nat
  deriving DecidableEq

/-- Where a request is that carries a session id. -/
inductive Request where
  | missed
  | found (session : Nat)
  | claimed (session : Nat)
  | locked (session : Nat)

/-- The session of a request, if it has one. -/
def Request.session : Request → Option Nat
  | .missed => none
  | .found i | .claimed i | .locked i => some i

/-- The map, the sessions and the requests that are running. -/
structure Registry (σ : Type) where
  tick : Nat
  entries : List Entry
  /-- How many sessions were made. -/
  made : Nat
  sessions : Nat → σ
  locked : Nat → Bool
  requests : Nat → Option Request
  /-- Sessions removed from the map that are still to be rolled back. -/
  dropped : List Nat

/-- The steps of requests and sweeps. -/
inductive RegistryAction (ρ : Type) where
  /-- A request looks for its id in the map. -/
  | lookup (n : Nat) (id : String)
  | touch (n now : Nat)
  /-- A request whose id is unknown gets a new session. -/
  | mintFor (n : Nat) (id : String) (now : Nat)
  /-- A session is made for `GET /session`. -/
  | mint (id : String) (now : Nat)
  | lock (n : Nat)
  | execute (n : Nat) (r : ρ)
  | finish (n : Nat)
  /-- A sweep removes entries from the map. -/
  | sweep (now : Nat)
  /-- A sweep rolls back a session it removed. Where its database cannot be opened, the
      session stays as it is. -/
  | rollback (i : Nat) (ok : Bool)

/-- Remove the least recently used entry while there are too many. There are at most as
    many rounds as the first list has elements. -/
def evict : List Entry → List Entry → List Entry
  | [], es => es
  | _ :: rounds, es =>
    if maxSessions < es.length then
      match es.argmin Entry.lastTick with
      | none => es
      | some e => evict rounds (es.erase e)
    else es

namespace Registry

variable {σ : Type}

/-- The session of an id. -/
def lookup (s : Registry σ) (id : String) : Option Nat :=
  (s.entries.find? (fun e => e.id = id)).map Entry.session

/-- What a sweep leaves in the map. -/
def kept (s : Registry σ) (cutoff : Nat) : List Entry :=
  let live := s.entries.filter (fun e => cutoff ≤ e.lastSeen)
  evict live live

/-- Take sessions out of the map; they are still to be rolled back. -/
def sweep (s : Registry σ) (cutoff : Nat) : Registry σ :=
  { s with
    entries := s.kept cutoff
    dropped := (s.entries.filter (fun e => e ∉ s.kept cutoff)).map Entry.session ++ s.dropped }

/-- Replace the state of a request. -/
def put (s : Registry σ) (n : Nat) (q : Option Request) : Registry σ :=
  { s with requests := update s.requests n q }

end Registry

namespace Engine

variable {σ ρ : Type} (E : Engine σ ρ)

/-- A registry with no sessions. -/
def emptyRegistry : Registry σ := ⟨0, [], 0, fun _ => E.new, fun _ => false, fun _ => none, []⟩

/-- Make a session and put it into the map. -/
def mint (s : Registry σ) (id : String) (now : Nat) : Registry σ :=
  { s with
    tick := (s.tick + 1) % 2 ^ 64
    entries := ⟨id, s.made, now, s.tick⟩ :: s.entries
    made := s.made + 1
    sessions := update s.sessions s.made E.new }

/-- One step. -/
def registryStep (s : Registry σ) : RegistryAction ρ → Option (Registry σ)
  | .lookup n id => match s.requests n with
    | some _ => none
    | none => some (s.put n (some ((s.lookup id).elim .missed .found)))
  | .touch n now => match s.requests n with
    | some (.found i) => some { s.put n (some (.claimed i)) with
        tick := (s.tick + 1) % 2 ^ 64
        entries := s.entries.map (fun e =>
          if e.session = i then { e with lastSeen := now, lastTick := s.tick } else e) }
    | _ => none
  -- the ids that are made are distinct
  | .mintFor n id now => match s.requests n with
    | some .missed =>
      if id ∈ s.entries.map Entry.id then none
      else some ((E.mint s id now).put n (some (.claimed s.made)))
    | _ => none
  | .mint id now => if id ∈ s.entries.map Entry.id then none else some (E.mint s id now)
  | .lock n => match s.requests n with
    | some (.claimed i) =>
      if s.locked i then none
      else some { s.put n (some (.locked i)) with locked := update s.locked i true }
    | _ => none
  | .execute n r => match s.requests n with
    | some (.locked i) =>
      some { s with sessions := update s.sessions i (E.execute (s.sessions i) r) }
    | _ => none
  | .finish n => match s.requests n with
    | some (.locked i) => some { s.put n none with locked := update s.locked i false }
    | _ => none
  | .sweep now => some (s.sweep (now - idleTimeout))
  | .rollback i ok =>
    if i ∈ s.dropped ∧ s.locked i = false then some { s with
      dropped := s.dropped.erase i
      sessions := if ok then update s.sessions i (E.rollbackSession (s.sessions i))
        else s.sessions }
    else none

/-- The entries a sweep does not find expired. -/
def live (s : Registry σ) (cutoff : Nat) : List Entry :=
  s.entries.filter (fun e => cutoff ≤ e.lastSeen)

/-- What requests and sweeps have to leave to each other.

    * A sweep that runs while no request does finds every session in a transaction seen within the
      timeout and among the most recently used ones.
    * A session that was removed from the map and has been rolled back gets no transaction again.
    * The rollback of a session in a transaction succeeds.
    * The last running request ends when no removed session is in a transaction. -/
def Spares (s : Registry σ) : RegistryAction ρ → Prop
  | .execute n r => ∀ i, s.requests n = some (.locked i) → i ∉ s.entries.map Entry.session →
      i ∉ s.dropped → E.inTransaction (E.execute (s.sessions i) r) = false
  | .finish n => (∀ m ≠ n, s.requests m = none) →
      ∀ i ∈ s.dropped, E.inTransaction (s.sessions i) = false
  | .sweep now => (∀ n, s.requests n = none) →
      ∀ e ∈ s.entries, E.inTransaction (s.sessions e.session) = true →
        now - idleTimeout ≤ e.lastSeen ∧ (live s (now - idleTimeout)).countP
          (fun d => d ≠ e ∧ e.lastTick ≤ d.lastTick) < maxSessions
  | .rollback i ok => E.inTransaction (s.sessions i) = true → ok = true
  | _ => True

/-- A session in a transaction is in the map or is still to be rolled back, and it is in the map
    while no request is running. -/
structure Kept (s : Registry σ) : Prop where
  ids : (s.entries.map Entry.id).Nodup
  opened : ∀ i, E.inTransaction (s.sessions i) = true →
    i ∈ s.entries.map Entry.session ∨ i ∈ s.dropped
  quiet : (∀ n, s.requests n = none) → ∀ i, E.inTransaction (s.sessions i) = true →
    i ∈ s.entries.map Entry.session

end Engine

variable {σ ρ : Type} {E : Engine σ ρ} {s s' : Registry σ} {a : RegistryAction ρ} {e : Entry}
  {i n : Nat}

/-- Eviction only removes entries. -/
theorem evict_sublist (rounds es : List Entry) : (evict rounds es).Sublist es := by
  induction rounds generalizing es with
  | nil => exact .refl _
  | cons _ _ ih =>
    unfold evict
    split
    · split
      · exact .refl _
      · exact (ih _).trans erase_sublist
    · exact .refl _

/-- An entry that is evicted is followed by all that are left, and these fill the map. -/
theorem mem_evict {rounds es all : List Entry} (hsub : es.Sublist all) (hes : es.Nodup)
    (hfew : all.countP (fun d => d ≠ e ∧ e.lastTick ≤ d.lastTick) < maxSessions) (he : e ∈ es) :
    e ∈ evict rounds es := by
  induction rounds generalizing es with
  | nil => exact he
  | cons _ _ ih =>
    unfold evict
    split
    · next hlen =>
      split
      · exact he
      · next m hm =>
        have hne : e ≠ m := by
          intro heq
          rw [← heq] at hm
          have hall : (es.erase e).countP (fun d => d ≠ e ∧ e.lastTick ≤ d.lastTick) =
              (es.erase e).length := by
            rw [countP_eq_length]
            intro d hd
            rw [hes.mem_erase_iff] at hd
            exact decide_eq_true ⟨hd.1, le_of_mem_argmin hd.2 hm⟩
          have hle : (es.erase e).length ≤ _ := hall ▸ (erase_sublist.trans hsub).countP_le
          have hleft := length_erase_of_mem he
          omega
        exact ih (erase_sublist.trans hsub) (hes.erase m) ((mem_erase_of_ne hne).mpr he)
    · exact he

/-- What a sweep takes out of the map is still to be rolled back. -/
theorem mem_sweep {cutoff : Nat} (he : e ∈ s.entries) :
    e ∈ (s.sweep cutoff).entries ∨ e.session ∈ (s.sweep cutoff).dropped := by
  by_cases hk : e ∈ s.kept cutoff
  · exact .inl hk
  · exact .inr (mem_append_left _ (mem_map_of_mem (mem_filter.mpr ⟨he, decide_eq_true hk⟩)))

/-- A sweep that spares open transactions keeps them reachable. -/
theorem Engine.Kept.sweep {now : Nat} (h : E.Kept s)
    (hok : E.Spares s (.sweep now : RegistryAction ρ)) :
    E.Kept (s.sweep (now - idleTimeout)) := by
  have hlive : (live s (now - idleTimeout)).Sublist s.entries := filter_sublist
  have hsub : (s.kept (now - idleTimeout)).Sublist s.entries := (evict_sublist _ _).trans hlive
  refine ⟨Nodup.sublist (hsub.map Entry.id) h.ids, fun i hi => ?_, fun hquiet i hi => ?_⟩
  · rcases h.opened i hi with hmem | hdropped
    · rcases mem_map.mp hmem with ⟨e, he, rfl⟩
      exact (mem_sweep he).imp_left mem_map_of_mem
    · exact .inr (mem_append_right _ hdropped)
  · rcases mem_map.mp (h.quiet hquiet i hi) with ⟨e, he, rfl⟩
    rcases hok hquiet e he hi with ⟨hseen, hfew⟩
    refine mem_map_of_mem (mem_evict (.refl _) (h.ids.of_map.sublist hlive) hfew ?_)
    exact mem_filter.mpr ⟨he, decide_eq_true hseen⟩

/-- A request that goes on, or a new one, leaves the sessions as they are. -/
theorem Engine.Kept.put (h : E.Kept s) (q : Request) : E.Kept (s.put n (some q)) := by
  refine ⟨h.ids, h.opened, fun hquiet => ?_⟩
  have hn := hquiet n
  simp [Registry.put] at hn

/-- A new session keeps the others reachable. -/
theorem Engine.Kept.mint {id : String} (now : Nat) (h : E.Kept s)
    (hid : id ∉ s.entries.map Entry.id) : E.Kept (E.mint s id now) := by
  -- the new session has no transaction, and the others are as they were
  have hold : ∀ i, E.inTransaction ((E.mint s id now).sessions i) = true →
      E.inTransaction (s.sessions i) = true := by
    intro i hi
    unfold Engine.mint at hi
    simp only [] at hi
    by_cases him : i = s.made
    · rw [him, update_self, E.new_ended] at hi
      cases hi
    · rwa [update_of_ne him] at hi
  refine ⟨nodup_cons.mpr ⟨hid, h.ids⟩, fun i hi => ?_, fun hquiet i hi => ?_⟩
  · exact (h.opened i (hold i hi)).imp_left (mem_cons_of_mem _)
  · exact mem_cons_of_mem _ (h.quiet hquiet i (hold i hi))

/-- A request keeps the sessions reachable. -/
theorem Engine.Kept.execute {r : ρ} (h : E.Kept s) (hn : s.requests n = some (.locked i))
    (hok : E.Spares s (.execute n r)) :
    E.Kept { s with sessions := update s.sessions i (E.execute (s.sessions i) r) } := by
  refine ⟨h.ids, fun j hj => ?_, fun hquiet => ?_⟩
  · simp only [] at hj
    by_cases hji : j = i
    · rw [hji, update_self] at hj
      by_contra hnot
      rw [not_or, hji] at hnot
      cases (hok i hn hnot.1 hnot.2).symm.trans hj
    · rw [update_of_ne hji] at hj
      exact h.opened j hj
  · cases hn.symm.trans (hquiet n)

theorem Engine.Kept.finish (h : E.Kept s)
    (hok : E.Spares s (.finish n : RegistryAction ρ)) : E.Kept (s.put n none) := by
  refine ⟨h.ids, h.opened, fun hquiet i hi => ?_⟩
  have hothers : ∀ m ≠ n, s.requests m = none := by
    intro m hm
    have hnone := hquiet m
    simp only [Registry.put] at hnone
    rwa [update_of_ne hm] at hnone
  rcases h.opened i hi with hmem | hdropped
  · exact hmem
  · cases (hok hothers i hdropped).symm.trans hi

theorem Engine.Kept.rollback {ok : Bool} (h : E.Kept s)
    (hok : E.Spares s (.rollback i ok : RegistryAction ρ)) :
    E.Kept { s with
      dropped := s.dropped.erase i
      sessions := if ok then update s.sessions i (E.rollbackSession (s.sessions i))
        else s.sessions } := by
  -- behind it, the session that is rolled back has no transaction
  have hold : ∀ j, E.inTransaction ((if ok then update s.sessions i
      (E.rollbackSession (s.sessions i)) else s.sessions) j) = true →
      E.inTransaction (s.sessions j) = true ∧ j ≠ i := by
    intro j hj
    cases ok with
    | true =>
      by_cases hji : j = i
      · rw [if_pos rfl, hji, update_self, E.rollback_ended] at hj
        cases hj
      · rw [if_pos rfl, update_of_ne hji] at hj
        exact ⟨hj, hji⟩
    | false =>
      refine ⟨hj, ?_⟩
      rintro rfl
      cases hok hj
  refine ⟨h.ids, fun j hj => ?_, fun hquiet j hj => h.quiet hquiet j (hold j hj).1⟩
  exact (h.opened j (hold j hj).1).imp_right (mem_erase_of_ne (hold j hj).2).mpr

/-- A touched entry keeps its id and its session. -/
theorem map_touched {β : Type} (i now tick : Nat) (es : List Entry) (f : Entry → β)
    (hf : ∀ e x y, f { e with lastSeen := x, lastTick := y } = f e) :
    (es.map fun e => if e.session = i then { e with lastSeen := now, lastTick := tick }
      else e).map f = es.map f := by
  rw [List.map_map]
  refine map_congr_left fun e _ => ?_
  simp only [Function.comp]
  split
  · exact hf e now tick
  · rfl

/-- Every sparing step keeps the sessions reachable. -/
theorem Engine.Kept.step (h : E.Kept s) (hok : E.Spares s a)
    (hstep : E.registryStep s a = some s') : E.Kept s' := by
  cases a <;> simp only [registryStep] at hstep
  case lookup n id =>
    split at hstep <;> cases hstep
    exact h.put _
  case touch n now =>
    split at hstep <;> cases hstep
    next i hn =>
    have hp : E.Kept (s.put n (some (.claimed i))) := h.put _
    have hid := map_touched i now s.tick s.entries Entry.id fun _ _ _ => rfl
    have hsession := map_touched i now s.tick s.entries Entry.session fun _ _ _ => rfl
    refine ⟨hid ▸ h.ids, fun j hj => ?_, fun hquiet j hj => ?_⟩
    · exact hsession ▸ h.opened j hj
    · exact hsession ▸ hp.quiet hquiet j hj
  case mintFor n id now =>
    split at hstep
    · split_ifs at hstep with hid
      cases hstep
      exact (h.mint now hid).put _
    · cases hstep
  case mint id now =>
    split_ifs at hstep with hid
    cases hstep
    exact h.mint now hid
  case lock n =>
    split at hstep
    · next i hn =>
      split_ifs at hstep
      cases hstep
      have hp : E.Kept (s.put n (some (.locked i))) := h.put _
      exact ⟨hp.ids, hp.opened, hp.quiet⟩
    · cases hstep
  case execute n r =>
    split at hstep <;> cases hstep
    next i hn => exact h.execute hn hok
  case finish n =>
    split at hstep <;> cases hstep
    have hp := h.finish hok
    exact ⟨hp.ids, hp.opened, hp.quiet⟩
  case sweep now =>
    cases hstep
    exact h.sweep hok
  case rollback i ok =>
    by_cases hfree : i ∈ s.dropped ∧ s.locked i = false
    · rw [if_pos hfree] at hstep
      cases hstep
      exact h.rollback hok
    · rw [if_neg hfree] at hstep
      cases hstep

/-- **No transaction is orphaned.** Along every run whose requests and sweeps meet the condition:
    when no request is running, a session with an open transaction is found in the map by its
    id. -/
theorem open_sessions_reachable {σ ρ : Type} (E : Engine σ ρ) (as : List (RegistryAction ρ))
    (s : Registry σ) (hok : Meets E.registryStep E.Spares E.emptyRegistry as)
    (h : runSteps E.registryStep E.emptyRegistry as = some s) (hquiet : ∀ n, s.requests n = none)
    (i : Nat) (hi : E.inTransaction (s.sessions i) = true) : ∃ id, s.lookup id = some i := by
  have hstart : E.Kept E.emptyRegistry := by
    refine ⟨nodup_nil, fun i hi => ?_, fun _ i hi => ?_⟩ <;>
      cases E.new_ended.symm.trans hi
  have hs : E.Kept s :=
    invariant_of_meets _ _ E.Kept (fun _ _ _ hs hok => hs.step hok) _ _ as hstart hok h
  rcases mem_map.mp (hs.quiet hquiet i hi) with ⟨e, he, rfl⟩
  refine ⟨e.id, ?_⟩
  unfold Registry.lookup
  rw [find_key_of_mem hs.ids he]
  rfl

/-- Requests of two sessions and a sweep: a transaction is left open in session a, which then is
    idle for long. While a request of session b is running, which begins a transaction too, the
    sweep removes a from the map and rolls it back. -/
def sweptRun : List (RegistryAction Sql.Stmt) :=
  [.lookup 0 "", .mintFor 0 "a" 0, .lock 0, .execute 0 (.trx .begin), .finish 0,
    .lookup 1 "", .mintFor 1 "b" 1800001, .lock 1, .sweep 1800001,
    .execute 1 (.trx .begin), .rollback 0 true, .finish 1]

theorem sweptRun_spares :
    Meets oneDatabase.registryStep oneDatabase.Spares oneDatabase.emptyRegistry sweptRun := by
  -- both statements are executed in the session that is first in the map
  have hin {i j : Nat} {p : Prop} (hi : some (Request.locked j) = some (.locked i))
      (hnot : i ∉ [j]) : p := by
    cases hi
    exact absurd mem_cons_self hnot
  exact ⟨trivial, trivial, trivial, fun i hi hnot _ => hin hi hnot,
    fun _ i hi => absurd hi not_mem_nil, trivial, trivial, trivial,
    fun hquiet => absurd (hquiet 1) (some_ne_none _), fun i hi hnot _ => hin hi hnot,
    fun _ => rfl, fun _ i hi => absurd hi not_mem_nil, trivial⟩

/-- A run that sweeps an idle session meets the condition. -/
theorem open_sessions_reachable_swept :
    ∃ s, runSteps oneDatabase.registryStep oneDatabase.emptyRegistry sweptRun = some s ∧
      s.lookup "a" = none ∧ oneDatabase.inTransaction (s.sessions 0) = false ∧
      ∃ id, s.lookup id = some 1 := by
  refine ⟨_, rfl, rfl, rfl, open_sessions_reachable oneDatabase sweptRun _ sweptRun_spares rfl
    (fun n => ?_) 1 rfl⟩
  rcases n with _ | _ | n <;> rfl

/-- A session is looked up when it has been idle for long. A sweep removes it from the
    map and rolls it back. Then the request locks it, begins a transaction and ends. -/
theorem claimed_session_orphaned :
    ∃ s, runSteps oneDatabase.registryStep oneDatabase.emptyRegistry
        [.mint "a" 0, .lookup 0 "a", .sweep (idleTimeout + 1), .rollback 0 true,
          .touch 0 (idleTimeout + 1), .lock 0, .execute 0 (.trx .begin), .finish 0] = some s ∧
      (∀ n, s.requests n = none) ∧ s.dropped = [] ∧
      oneDatabase.inTransaction (s.sessions 0) = true ∧ ∀ id, s.lookup id = none :=
  ⟨_, rfl, fun n => by cases n <;> rfl, rfl, rfl, fun _ => rfl⟩

end ChibiDb.Net
