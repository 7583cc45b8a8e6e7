-- SUMMARY: The SQL statements of `reindex`, their effect on the tables, and the connection that executes them (`sqlite3pp`).
import Spacenet.Library.Program
import Spacenet.Sqlite.Tables

/-!
# The connection

`sqlite3pp::database`, `command::execute` and `transaction`, over the statements
that `reindex` prepares. A statement fails when the fault plan of the connection
says so; what the failure does then depends on `database::exceptions`.
-/

namespace Spacenet

open Prog

/-! ## Statements -/

/-- The objects that the schema of `reindex` creates when they do not exist. -/
inductive SchemaObject where
  | entries | i1 | i2 | blocksDigests | i3
deriving DecidableEq

/-- The SQL statements of `reindex`, with the values bound to them. -/
inductive Stmt where
  | create (object : SchemaObject)
  | sel (parentId : Nat) (name : WString)
  | ins (params : EntryParams)
  | upd (params : EntryParams)
  | updTouch (id : Nat)
  | updAfter (id : Nat) (mtime : U64) (digest : Blob)
  | blkIns (entryId : Nat) (blockNo : Nat) (digest : Blob)
  | blkUpd (entryId : Nat) (blockNo : Nat) (digest : Blob)
  | blkDel (entryId : Nat) (blockNo : Nat)
  | deleteBlocks
  | deleteEntries
  | resetAlive
  | begin (immediate : Bool)
  | commit
  | rollback
deriving DecidableEq

/-- SQLite result codes. `error` is every code but SQLITE_ROW, SQLITE_DONE and
SQLITE_CONSTRAINT_UNIQUE. -/
inductive ResultCode where
  | row | done | constraintUnique | error (code : Nat)
deriving DecidableEq

/-- `command::execute` throws on every code but SQLITE_ROW and SQLITE_DONE. -/
def ResultCode.failed : ResultCode → Bool
  | .row | .done => false
  | .constraintUnique | .error _ => true

/-- The value of `SQLITE_CONSTRAINT_UNIQUE`. -/
def sqliteConstraintUnique : Nat := 2067

def ResultCode.code : ResultCode → Nat
  | .row => 100
  | .done => 101
  | .constraintUnique => sqliteConstraintUnique
  | .error code => code

/-- `st_upd`. -/
def EntryRow.upd (params : EntryParams) (r : EntryRow) : EntryRow :=
  { r with
    isAlive := 0
    parentId := params.parentId
    name := params.name
    isDir := params.isDir
    fileSize := params.fileSize
    blockSize := params.blockSize
    digest := none }

/-- `st_upd_touch`. -/
def EntryRow.touch (r : EntryRow) : EntryRow :=
  { r with isAlive := 0 }

/-- `st_upd_after`. -/
def EntryRow.updAfter (mtime : U64) (digest : Blob) (r : EntryRow) : EntryRow :=
  { r with isAlive := 0, mtime := some mtime, digest := some digest }

def BlockRow.upd (digest : Blob) (b : BlockRow) : BlockRow :=
  { b with digest := some digest }

namespace Entries

def upd (t : Entries) (params : EntryParams) : Entries :=
  t.update (fun r => r.key = params.key) (EntryRow.upd params)
    (fun _ _ => rfl) (fun _ h => (of_decide_eq_true h).symm)

def updTouch (t : Entries) (id : Nat) : Entries :=
  t.update (fun r => r.rowid = id) EntryRow.touch (fun _ _ => rfl) (fun _ _ => rfl)

def updAfter (t : Entries) (id : Nat) (mtime : U64) (digest : Blob) : Entries :=
  t.update (fun r => r.rowid = id) (EntryRow.updAfter mtime digest) (fun _ _ => rfl) (fun _ _ => rfl)

/-- The rowids that `SELECT rowid FROM entries WHERE is_alive <> 0` gives. -/
def unmarked (t : Entries) : List Nat :=
  (t.rows.filter (fun r => r.isAlive ≠ 0)).map EntryRow.rowid

def deleteUnmarked (t : Entries) : Entries :=
  t.filter (fun r => r.isAlive = 0)

def resetAlive (t : Entries) : Entries :=
  t.update (fun _ => true) (fun r => { r with isAlive := 1 }) (fun _ _ => rfl) (fun _ _ => rfl)

variable {t : Entries} {parentId : Nat} {name : WString}

theorem find_updAfter {id : Nat} {mtime : U64} {digest : Blob} :
    (t.updAfter id mtime digest).find parentId name =
      (t.find parentId name).map fun r => if r.rowid = id then r.updAfter mtime digest else r := by
  have := @find_update t (fun r => r.rowid = id) (EntryRow.updAfter mtime digest)
    (fun _ _ => rfl) (fun _ _ => rfl) parentId name
  refine this.trans ?_
  simp only [decide_eq_true_eq]

theorem find_deleteUnmarked :
    t.deleteUnmarked.find parentId name =
      (t.find parentId name).filter fun r => r.isAlive = 0 :=
  find_filter

theorem find_resetAlive :
    t.resetAlive.find parentId name = (t.find parentId name).map fun r => { r with isAlive := 1 } :=
  find_update

end Entries

namespace Blocks

def upd (t : Blocks) (entryId : Nat) (blockNo : Nat) (digest : Blob) : Blocks :=
  t.update (fun b => b.entryId = entryId ∧ b.blockNo = blockNo) (BlockRow.upd digest) (fun _ _ => rfl)

def deleteAbove (t : Blocks) (entryId : Nat) (blockNo : Nat) : Blocks :=
  t.filter (fun b => ¬(b.entryId = entryId ∧ b.blockNo > blockNo))

def deleteEntries (t : Blocks) (ids : List Nat) : Blocks :=
  t.filter (fun b => b.entryId ∉ ids)

end Blocks

/-- What a statement does to the tables when nothing fails. A UNIQUE conflict aborts it. The
transaction statements do nothing here: `Stmt.run` has their effect. -/
def Stmt.exec (policy : RowidPolicy) (s : Stmt) (t : Tables) : ResultCode × Tables :=
  match s with
  | .create _ => (.done, t)
  | .sel parentId name => (if (t.entries.find parentId name).isSome then .row else .done, t)
  | .ins params =>
      if h : t.entries.find params.parentId params.name = none then
        (.done, { t with entries := t.entries.insert policy params h })
      else
        (.constraintUnique, t)
  | .upd params => (.done, { t with entries := t.entries.upd params })
  | .updTouch id => (.done, { t with entries := t.entries.updTouch id })
  | .updAfter id mtime digest => (.done, { t with entries := t.entries.updAfter id mtime digest })
  | .blkIns entryId blockNo digest =>
      if h : t.blocksDigests.find entryId blockNo = none then
        (.done, { t with blocksDigests := t.blocksDigests.insert ⟨entryId, blockNo, some digest⟩ h })
      else
        (.constraintUnique, t)
  | .blkUpd entryId blockNo digest =>
      (.done, { t with blocksDigests := t.blocksDigests.upd entryId blockNo digest })
  | .blkDel entryId blockNo =>
      (.done, { t with blocksDigests := t.blocksDigests.deleteAbove entryId blockNo })
  | .deleteBlocks =>
      (.done, { t with blocksDigests := t.blocksDigests.deleteEntries t.entries.unmarked })
  | .deleteEntries => (.done, { t with entries := t.entries.deleteUnmarked })
  | .resetAlive => (.done, { t with entries := t.entries.resetAlive })
  | .begin _ | .commit | .rollback => (.done, t)

/-! ## The connection -/

/-- The exceptions of the program. `killed` is the end of the process: nothing of the program
runs after it, and SQLite rolls an open transaction back. -/
inductive Error where
  | runtimeError (what : Text)
  | rangeError (what : Text)
  | databaseError (errcode : Nat)
  | killed
deriving DecidableEq

/-- What `str2utf` throws on a string that is no UTF-16. -/
def badConversion : Error := .rangeError "bad conversion".toList

/-- `sqlite3pp::database`: the content the connection sees, the content to go back to while a
transaction is open, the `exceptions` flag, and the statements executed so far with their codes. -/
structure Db where
  tables : Tables
  snapshot : Option Tables
  exceptions : Bool
  log : List (Stmt × ResultCode)

/-- What can happen to a statement instead of its effect. An error that leaves the transaction
open is an `error`; one that rolls it back ends the process in `~transaction`, like a `kill`. -/
inductive Fault where
  | error (code : Nat)
  | kill

/-- The part of SQLite that the program has no say in. -/
structure Sqlite where
  policy : RowidPolicy
  fault : Db → Stmt → Option Fault

/-- The content on disk: what a connection that is opened next sees. -/
def Db.committed (db : Db) : Tables := db.snapshot.getD db.tables

/-- A connection as `directory_tracker::worker` opens it, with exceptions switched on. -/
def Db.connect (t : Tables) : Db where
  tables := t
  snapshot := none
  exceptions := true
  log := []

abbrev DbM (α : Type) := EStateM Error Db α

/-- The value of `SQLITE_ERROR`, which BEGIN gives inside a transaction, and COMMIT and ROLLBACK
outside of one. -/
def sqliteError : Nat := 1

/-- What a statement does to the content and to the open transaction when nothing fails. -/
def Stmt.run (policy : RowidPolicy) (s : Stmt) (t : Tables) (snapshot : Option Tables) :
    ResultCode × Tables × Option Tables :=
  match s, snapshot with
  | .begin _, none => (.done, t, some t)
  | .begin _, some _ => (.error sqliteError, t, snapshot)
  | .commit, some _ => (.done, t, none)
  | .rollback, some t₀ => (.done, t₀, none)
  | .commit, none | .rollback, none => (.error sqliteError, t, none)
  | s, _ => ((s.exec policy t).1, (s.exec policy t).2, snapshot)

namespace Db

/-- The connection with its `exceptions` flag set. -/
def withExceptions (db : Db) (exceptions : Bool) : Db :=
  { db with exceptions := exceptions }

/-- `database::exceptions(bool)`. -/
def setExceptions (exceptions : Bool) : DbM Unit :=
  modify fun db => db.withExceptions exceptions

/-- `exceptions_safe = db.exceptions(); at_scope_exit(db.exceptions(exceptions_safe))`. -/
def keepingExceptions (m : DbM α) : DbM α := do
  let db ← get
  atScopeExit (fun db' => db'.withExceptions db.exceptions) m

/-- The end of the process: SQLite rolls an open transaction back. -/
def crash (db : Db) : Db :=
  { db with tables := db.committed, snapshot := none }

/-- A statement has ended with `rc` and left `t` and `snapshot`. -/
def finish (db : Db) (s : Stmt) (rc : ResultCode) (t : Tables) (snapshot : Option Tables) :
    EStateM.Result Error Db ResultCode :=
  let db' := { db with tables := t, snapshot := snapshot, log := db.log ++ [(s, rc)] }
  if rc.failed ∧ db.exceptions then .error (.databaseError rc.code) db' else .ok rc db'

end Db

namespace Sqlite

variable (sql : Sqlite)

/-- `command::execute`. The result code is thrown when it is a failure and exceptions are on. -/
def execute (s : Stmt) : DbM ResultCode := fun db =>
  match sql.fault db s with
  | some .kill => .error .killed db.crash
  | some (.error code) => db.finish s (.error code) db.tables db.snapshot
  | none =>
      let (rc, t, snapshot) := s.run sql.policy db.tables db.snapshot
      db.finish s rc t snapshot

/-- `database::execute_all`: the statements of one text, in order. -/
def executeAll : List Stmt → DbM Unit
  | [] => pure ()
  | s :: rest => do
      let _ ← sql.execute s
      executeAll rest

/-- The part of a scope behind the construction of `transaction xct`: `body`, then
`xct.commit()`. When `body` throws, the destructor executes the ROLLBACK or the COMMIT that
`frollback` selects; a failure of that throws during unwinding, which ends the process. -/
def transactionScope (frollback : Bool) (body : DbM Unit) : DbM Unit := fun db =>
  match body db with
  | .ok _ db' => (do let _ ← sql.execute .commit) db'
  | .error e db' =>
      if e = .killed then .error e db'
      else
        match sql.execute (if frollback then .rollback else .commit) db' with
        | .ok _ db'' => .error e db''
        | .error _ db'' => .error .killed db''.crash

/-- `transaction xct(db, freserve, frollback); body; xct.commit()`. -/
def transaction (freserve : Bool) (frollback : Bool) (body : DbM Unit) : DbM Unit := do
  let _ ← sql.execute (.begin freserve)
  sql.transactionScope frollback body

end Sqlite

end Spacenet
