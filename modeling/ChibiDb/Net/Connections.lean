import ChibiDb.Net.Instance

/-!
# Serving a Connection

The three frontends serve a connection on a thread of its own, with a session that
belongs to it. A thread reads a request, executes it and writes the answer, until the
client is gone; then the transaction of the session is to be rolled back.

The text frontend rolls back behind its serving loop, however that ended. The others
do so at the end of the function that has the loop, and leave it at once where a call
on the socket fails: the MySQL frontend where it writes, the HTTP frontend where it
reads or writes. A connection that is lost there leaves its transaction open.

What an instance does with a session is left to an `Engine`. Its one law is that a
rollback ends the transaction.

## Main definitions

* `Engine`: What a frontend needs of an instance.
* `Turn`: One round of a serving loop.
* `Engine.step`: What the frontends make of it.
* `Engine.Idle`: No call on which the thread returns at once fails within a transaction.

## Theorems

* `lost_connection_closes_iff`: When a connection leaves no transaction open.
-/

namespace ChibiDb.Net

open Option

/-- Sessions of type `σ`, each with the databases it works on, and requests of type
    `ρ`. A session in a transaction has an id in the open set, and the row locks. -/
structure Engine (σ ρ : Type) where
  new : σ
  execute : σ → ρ → σ
  inTransaction : σ → Bool
  rollbackSession : σ → σ
  new_ended : inTransaction new = false
  rollback_ended : ∀ s, inTransaction (rollbackSession s) = false

/-- The three front ends. -/
inductive Frontend where
  | text | mysql | http

/-- One round of a serving loop, with what the calls on the socket give. -/
inductive Turn (ρ : Type) where
  /-- The start of a MySQL connection, unless it is refused before there is a session:
      the database is selected, if one is named, and the answer is written. -/
  | login (use : Option (ρ × Bool)) (sent : Bool)
  /-- A request is read. One that is for the session of the connection is executed;
      all packets of the answer are written, or one of them fails. -/
  | request (r : Option ρ) (sent : Bool)
  /-- The client is done: `exit` or `quit`, COM_QUIT, `Connection: close`. -/
  | quit
  | eof
  /-- Reading fails, or the headers do not end. -/
  | readFails
  /-- A request of the text frontend that is no text, or a body announced that is too
      large; the HTTP frontend answers it. -/
  | malformed (sent : Bool)

/-- A thread, with the session of its connection. -/
inductive Conn (σ : Type) where
  | connecting
  | serving (s : σ)
  | finished (s : σ)

namespace Engine

variable {σ ρ : Type} (E : Engine σ ρ)

/-- Execute a request, if there is one. -/
def run (s : σ) (r : Option ρ) : σ := (r.map (E.execute s)).getD s

/-- The end of a thread that gets to its rollback. -/
def close (s : σ) : Conn σ := .finished (E.rollbackSession s)

/-- A connection that is accepted. -/
def start : Frontend → Conn σ
  | .mysql => .connecting
  | _ => .serving E.new

/-- A turn of the text protocol. -/
def stepText (s : σ) : Turn ρ → Option (Conn σ)
  | .login .. => none
  | .request r sent => some (if sent then .serving (E.run s r) else E.close (E.run s r))
  | _ => some (E.close s)

/-- A turn of the MySQL protocol. -/
def stepMySql (s : σ) : Turn ρ → Option (Conn σ)
  | .request r sent => some (if sent then .serving (E.run s r) else .finished (E.run s r))
  -- The loop goes on while a packet can be read.
  | .quit | .eof | .readFails => some (E.close s)
  | _ => none

/-- A turn of the HTTP protocol. -/
def stepHttp (s : σ) : Turn ρ → Option (Conn σ)
  | .login .. => none
  | .request r sent => some (if sent then .serving (E.run s r) else .finished (E.run s r))
  | .quit | .eof => some (E.close s)
  | .readFails => some (.finished s)
  | .malformed sent => some (if sent then E.close s else .finished s)

/-- One turn of a connection. -/
def step (f : Frontend) : Conn σ → Turn ρ → Option (Conn σ)
  | .connecting, .login use sent =>
    let s := E.run E.new (use.map Prod.fst)
    some (if use.all Prod.snd ∧ sent then .serving s else .finished s)
  | .serving s, t => match f with
    | .text => E.stepText s t
    | .mysql => E.stepMySql s t
    | .http => E.stepHttp s t
  | _, _ => none

/-- No call on which the thread returns at once fails within a transaction: none that
    writes to a MySQL client, and none that reads from or writes to an HTTP client. -/
def Idle (f : Frontend) : Conn σ → Turn ρ → Prop
  | .connecting, .login use sent =>
    use.all Prod.snd ∧ sent ∨ E.inTransaction (E.run E.new (use.map Prod.fst)) = false
  | .serving s, .request r sent => f = .text ∨ sent ∨ E.inTransaction (E.run s r) = false
  | .serving s, .malformed sent => f ≠ .http ∨ sent ∨ E.inTransaction s = false
  | .serving s, .readFails => f ≠ .http ∨ E.inTransaction s = false
  | _, _ => True

variable {E} {f : Frontend} {c c' : Conn σ} {t : Turn ρ}

/-- A turn that goes on is idle, and one that ends the thread is idle exactly if it
    leaves no transaction open. -/
theorem step_cases (h : E.step f c t = some c') :
    (∃ s, c' = .serving s ∧ E.Idle f c t) ∨
      ∃ s, c' = .finished s ∧ (E.Idle f c t ↔ E.inTransaction s = false) := by
  -- a thread that gets to its rollback leaves nothing open
  have hclose : ∀ s, E.Idle f c t → some (E.close s) = some c' →
      ∃ s, c' = .finished s ∧ (E.Idle f c t ↔ E.inTransaction s = false) :=
    fun s hi h => ⟨_, (some.inj h).symm, iff_of_true hi (E.rollback_ended s)⟩
  cases c with
  | finished => cases h
  | connecting =>
    cases t with
    | login use sent =>
      simp only [step] at h
      by_cases hs : use.all Prod.snd ∧ sent
      · rw [if_pos hs, some.injEq] at h
        exact .inl ⟨_, h.symm, .inl hs⟩
      · rw [if_neg hs, some.injEq] at h
        exact .inr ⟨_, h.symm, or_iff_right hs⟩
    | _ => cases h
  | serving =>
    cases t with
    | login => cases f <;> cases h
    | request r sent =>
      cases sent with
      | true => cases f <;> exact .inl ⟨_, (some.inj h).symm, .inr (.inl rfl)⟩
      | false =>
        cases f with
        | text => exact .inr (hclose _ (.inl rfl) h)
        | _ => exact .inr ⟨_, (some.inj h).symm, by simp [Idle]⟩
    | quit | eof => cases f <;> exact .inr (hclose _ trivial h)
    | readFails =>
      cases f with
      | http => exact .inr ⟨_, (some.inj h).symm, by simp [Idle]⟩
      | _ => exact .inr (hclose _ (.inl nofun) h)
    | malformed sent =>
      cases f with
      | text => exact .inr (hclose _ (.inl nofun) h)
      | mysql => cases h
      | http =>
        cases sent with
        | true => exact .inr (hclose _ (.inr (.inl rfl)) h)
        | false => exact .inr ⟨_, (some.inj h).symm, by simp [Idle]⟩

/-- A thread that has finished takes no further turn. -/
theorem idle_run_iff {ts : List (Turn ρ)} {s : σ} (hc : ∀ s, c ≠ .finished s)
    (h : runSteps (E.step f) c ts = some (.finished s)) :
    E.inTransaction s = false ↔ Meets (E.step f) (E.Idle f) c ts := by
  induction ts generalizing c with
  | nil => exact absurd (some.inj h) (hc s)
  | cons t ts ih =>
    rcases runSteps_cons h with ⟨c', hstep, hrest⟩
    rw [meets_cons _ ts hstep]
    rcases step_cases hstep with ⟨s', rfl, hidle⟩ | ⟨s', rfl, hidle⟩
    · rw [ih (fun _ h => by cases h) hrest, and_iff_right hidle]
    cases ts with
    | nil =>
      cases hrest
      exact hidle.symm.trans (and_iff_left trivial).symm
    | cons => cases hrest

end Engine

/-- Whatever an instance does with its sessions: once the thread of a connection has
    finished, the session of the connection has no transaction open exactly if no call
    on which the thread returns at once failed within a transaction. -/
theorem lost_connection_closes_iff {σ ρ : Type} (E : Engine σ ρ) (f : Frontend)
    (ts : List (Turn ρ)) (s : σ) (h : runSteps (E.step f) (E.start f) ts = some (.finished s)) :
    E.inTransaction s = false ↔ Meets (E.step f) (E.Idle f) (E.start f) ts :=
  Engine.idle_run_iff (by cases f <;> exact fun _ => nofun) h

/-- The sessions of an instance with one database each, where nothing fails: a session takes the
    handle of the database and has its lock at once. -/
def oneDatabase : Engine (Store × Work) Sql.Stmt where
  new := (⟨[defaultDb], [defaultDb], [], []⟩, {})
  execute := fun (st, w) stmt => match st.locate w {} with
    | (st, w, .error _) => (st, w)
    | (st, w, .ok h) => ((st.executeIn h w stmt {}).1, (st.executeIn h w stmt {}).2.1)
  inTransaction := fun s => s.2.trx.isSome
  rollbackSession := fun (st, w) => match st.locate w {} with
    | (st, w, .error _) => (st, { w with trx := none })
    | (st, w, .ok h) => (st.rollbackIn h w, { w with trx := none })
  new_ended := rfl
  rollback_ended := fun (st, w) => by
    dsimp only
    split <;> rfl

/-- A text client is gone within a transaction. -/
theorem lost_connection_closes_text :
    ∃ s, runSteps (oneDatabase.step .text) (oneDatabase.start .text)
        [.request (some (.trx .begin)) true, .eof] = some (.finished s) ∧
      (oneDatabase.inTransaction s = false ↔ Meets (oneDatabase.step .text)
        (oneDatabase.Idle .text) (oneDatabase.start .text)
        [.request (some (.trx .begin)) true, .eof]) :=
  ⟨_, rfl, lost_connection_closes_iff oneDatabase .text _ _ rfl⟩

/-- A MySQL client is gone when the answer to its BEGIN is written, an HTTP client when
    its second request is read. Their transactions stay open. -/
theorem lost_connection_stays_open :
    (∃ s, runSteps (oneDatabase.step .mysql) (oneDatabase.start .mysql)
        [.login none true, .request (some (.trx .begin)) false] = some (.finished s) ∧
      oneDatabase.inTransaction s = true) ∧
    ∃ s, runSteps (oneDatabase.step .http) (oneDatabase.start .http)
        [.request (some (.trx .begin)) true, .readFails] = some (.finished s) ∧
      oneDatabase.inTransaction s = true :=
  ⟨⟨_, rfl, rfl⟩, ⟨_, rfl, rfl⟩⟩

end ChibiDb.Net
