-- SUMMARY: `directory_tracker::worker`: the rounds of `connect_db` and `reindex`, with the connection that one round leaves to the next.
import Spacenet.Effect.Reindex
import Spacenet.Sqlite.Script

/-!
# The worker

A round of the worker connects, unless it is connected, and reindexes. Where
`reindex` throws the connection is closed; where it returns the connection stays
for the next round. A process that ends is started again.
-/

namespace Spacenet

/-- The statements of `connect_db`. -/
inductive Pragma where
  | pageSize | journalMode | countChanges | autoVacuum | cacheSize | synchronous
deriving DecidableEq

/-- The text that `connect_db` executes. A PRAGMA in a comment is behind the last statement. -/
def pragmaScript : Script Pragma where
  pieces := [.pageSize, .journalMode, .countChanges, .autoVacuum, .cacheSize, .synchronous].map .statement
  trailing := true

/-- What a round meets. No PRAGMA of `connect_db` changes what is stored: `pragma` is the code with which
it ends, `none` when the process ends in it. -/
structure Round where
  openError : Option Nat
  refused : Pragma → Option Nat
  pragma : Pragma → Option ResultCode
  sql : Sqlite
  shutdown : Nat → Bool
  register : Nat → U32 → U32
  tree : Tree
  win : Win32

namespace Round

variable (x : Round)

def engine : Engine Pragma where
  refused := fun _ p => x.refused p
  params := fun _ => 0
  outcome := fun p db => (x.pragma p).map (·, db)

/-- The `directory_indexer` of the worker, with `modified_only(true)`. -/
def env : Env where
  sql := x.sql
  modifiedOnly := true
  shutdown := x.shutdown
  register := x.register

end Round

/-- The worker between two rounds: the content on disk, the connection, and the last exception. -/
structure Worker where
  disk : Tables
  conn : Option Db
  error : Option Error

/-- The worker of a process that has just started. -/
def Worker.start (disk : Tables) : Worker where
  disk := disk
  conn := none
  error := none

/-- `connect_db`: the connection behind it, `none` when the process ends. -/
def connectDb (x : Round) (w : Worker) : Option (Option Db) :=
  match w.conn with
  | some db => some (some db)
  | none =>
      -- `db.exceptions(false).connect(...)`, whose failure shows in the statements only.
      match x.engine.executeAll x.openError.isNone pragmaScript ⟨w.disk, none, false, []⟩ with
      | .error _ _ => none
      | .ok rc db => some (if rc ≠ .ok then none else some (db.withExceptions true))

/-- The value of SQLITE_NOMEM, which `sqlite3_errcode` gives for a null connection. -/
def sqliteNomem : Nat := 7

/-- What a round leaves: a worker behind the round, or a process that has ended in it. -/
inductive RoundEnd where
  | behind (w : Worker)
  | ended (disk : Tables)

/-- The worker behind the round, or that of the next process. -/
def RoundEnd.worker : RoundEnd → Worker
  | .behind w => w
  | .ended disk => .start disk

/-- The `try` in the `for(;;)` of `worker`, with at most `fuel` steps of the walk. -/
def Worker.round (fuel : Nat) (dirPathName : WString) (x : Round) (w : Worker) : Option RoundEnd :=
  match connectDb x w with
  | none => some (.ended w.disk)
  | some none => some (.behind ⟨w.disk, none, some (.databaseError sqliteNomem)⟩)
  | some (some db) =>
      match reindex x.env (x.tree.disk (rootPath dirPathName)) fuel dirPathName x.win db with
      | none => none
      | some (.ok _ db) => some (.behind ⟨db.committed, some db, w.error⟩)
      | some (.error .killed db) => some (.ended db.committed)
      | some (.error e db) => some (.behind ⟨db.committed, none, some e⟩)

/-- The worker behind its loop. -/
def Worker.disconnect (w : Worker) : Worker := { w with conn := none }

/-- The lives of the worker on a database: rounds, and whatever becomes of them. -/
inductive Life (dirPathName : WString) (t₀ : Tables) : List Round → Worker → Prop where
  | start : Life dirPathName t₀ [] (.start t₀)
  | round {xs : List Round} {w : Worker} {r : RoundEnd} (x : Round) (before : Life dirPathName t₀ xs w)
      (fuel : Nat) (result : w.round fuel dirPathName x = some r) : Life dirPathName t₀ (xs ++ [x]) r.worker
  | disconnect {xs : List Round} {w : Worker} (before : Life dirPathName t₀ xs w) : Life dirPathName t₀ xs w.disconnect

end Spacenet
