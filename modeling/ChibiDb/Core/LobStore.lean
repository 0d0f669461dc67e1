import ChibiDb.Data.Transition

/-!
# The Large-Object Store

A directory with one file per object, named by the object's id. The id counter
is not stored: opening the directory reads the names that are there and resumes
after the largest id among them.

A write takes the next id before it touches the file, so a write that fails uses
its id up without returning it. It fails when the file cannot be created, which
leaves nothing, or when its bytes cannot be written or synced, which leaves a
file with some of them.

`returned` records the ids that writes have returned, newest first. It is no
part of the store.

## Main definitions

* `lobName`, `parseId`: The file name of an id, and the id of a file name.
* `LobStore`, `LobStore.openDir`: The store and how it is opened.
* `LobStore.write`, `LobStore.read`, `LobStore.delete`: Its calls.
* `LobHistory`, `LobHistory.step`: Calls and reopenings one after the other.
-/

namespace ChibiDb

/-- A file name is a list of characters. -/
abbrev FileName := List Char

/-- The ending of the files that hold large objects. -/
def lobSuffix : FileName := ['.', 'l', 'o', 'b']

/-- The file of a large object. -/
def lobName (id : Nat) : FileName := Nat.toDigits 10 id ++ lobSuffix

/-- A number without its plus sign. -/
def stripPlus : List Char → List Char
  | '+' :: rest => rest
  | cs => cs

/-- A number as `u64` reads it: digits behind an optional plus sign, and no more
    than the type holds. -/
def parseU64 (cs : List Char) : Option Nat :=
  let digits := stripPlus cs
  if digits = [] ∨ ¬ digits.all Char.isDigit then none
  else if Nat.ofDigitChars 10 digits 0 < 2 ^ 64 then some (Nat.ofDigitChars 10 digits 0)
  else none

/-- The id in a file name, if it is one of a large object. -/
def parseId (name : FileName) : Option Nat :=
  if lobSuffix.isSuffixOf name then parseU64 (name.take (name.length - lobSuffix.length))
  else none

/-- The files of a directory with their contents. -/
abbrev LobDir := List (FileName × List UInt8)

namespace LobDir

/-- The ids of the files that are objects. -/
def ids (dir : LobDir) : List Nat := dir.filterMap (fun f => parseId f.1)

/-- The largest id in use. -/
def maxId (dir : LobDir) : Nat := dir.ids.foldl max 0

/-- Remove a file. -/
def remove (dir : LobDir) (name : FileName) : LobDir := dir.filter (fun f => f.1 ≠ name)

/-- Write a file, over an old one if there is one. -/
def create (dir : LobDir) (name : FileName) (data : List UInt8) : LobDir :=
  (name, data) :: dir.remove name

end LobDir

/-- The directory and the next id. -/
structure LobStore where
  dir : LobDir
  nextId : Nat

/-- How the file operations of a write end. -/
inductive LobOutcome where
  | stored
  /-- The file could not be created. -/
  | notCreated
  /-- The file was created, but only `n` bytes of it were written and synced. -/
  | cut (n : Nat)
  deriving DecidableEq, Repr

namespace LobStore

/-- Open a directory: ids go on behind the largest one. -/
def openDir (dir : LobDir) : LobStore := ⟨dir, (dir.maxId + 1) % 2 ^ 64⟩

/-- Store an object, and return its id unless a file operation fails. -/
def write (s : LobStore) (data : List UInt8) (outcome : LobOutcome) : LobStore × Option Nat :=
  let id := s.nextId
  let next := (id + 1) % 2 ^ 64
  match outcome with
  | .stored => (⟨s.dir.create (lobName id) data, next⟩, some id)
  | .notCreated => (⟨s.dir, next⟩, none)
  | .cut n => (⟨s.dir.create (lobName id) (data.take n), next⟩, none)

/-- The content of a large object. -/
def read (s : LobStore) (id : Nat) : Option (List UInt8) :=
  (s.dir.find? (fun f => f.1 = lobName id)).map Prod.snd

/-- Delete an object, whether it is there or not, unless removing the file fails. -/
def delete (s : LobStore) (id : Nat) (removed : Bool) : LobStore :=
  if removed then { s with dir := s.dir.remove (lobName id) } else s

end LobStore

/-- A store with the ids its writes have returned. -/
structure LobHistory where
  store : LobStore
  returned : List Nat

/-- A call, or closing the store and opening its directory again. -/
inductive LobLabel where
  | write (data : List UInt8) (outcome : LobOutcome)
  | delete (id : Nat) (removed : Bool)
  | reopen

namespace LobHistory

/-- A store that is opened, before anything is written. -/
def start (dir : LobDir) : LobHistory := ⟨LobStore.openDir dir, []⟩

/-- One step of the store. -/
def step (s : LobHistory) : LobLabel → Option LobHistory
  | .write data outcome =>
    match s.store.write data outcome with
    | (store, some id) => some ⟨store, id :: s.returned⟩
    | (store, none) => some ⟨store, s.returned⟩
  | .delete id removed => some { s with store := s.store.delete id removed }
  | .reopen => some { s with store := LobStore.openDir s.store.dir }

end LobHistory

end ChibiDb
