-- SUMMARY: `command::execute_all`: the statements of one SQL text, prepared one after the other from the tail that the last one left.
import Spacenet.Sqlite.Statement

/-!
# SQL texts

`execute_all` prepares the first statement of a text, executes it, and goes on
with the tail until that is empty or has no statement left. Where exceptions are
off it finds out about a failure from pointers: a statement that is null, and a
tail that was never written.
-/

namespace Spacenet

open Prog

/-- A statement of a text, or what cannot be parsed. -/
inductive Piece (S : Type) where
  | statement (s : S)
  | malformed (code : Nat)

/-- A text: its statements, and whether blank text or a comment is behind them. -/
structure Script (S : Type) where
  pieces : List (Piece S)
  trailing : Bool

/-- What SQLite makes of statements of a kind: the error with which it refuses to prepare one, the number
of its parameters, and the outcome of executing one, `none` where the process ends. -/
structure Engine (S : Type) where
  refused : Db → S → Option Nat
  params : S → Nat
  outcome : S → Db → Option (ResultCode × Db)

/-- The statements of `reindex`, in texts of which SQLite refuses some. -/
def Sqlite.engine (sql : Sqlite) (refused : Db → Stmt → Option Nat) (params : Stmt → Nat) : Engine Stmt where
  refused := refused
  params := params
  outcome := sql.outcome

namespace Engine

variable {S : Type} (engine : Engine S)

/-- `database::throw_database_error`. -/
def throwDatabaseError (code : Nat) : DbM Unit := do
  let db ← get
  if db.exceptions then throw (.databaseError code)

/-- An access through a null pointer, or to a statement that is finalized, ends the process. -/
def segfault {α : Type} : DbM α := fun db => .error .killed db.crash

/-- What `prepare_impl` leaves in `stmt_` and `tail_`, and its code. A null `tail_` is `none`. -/
structure Prepared (S : Type) where
  rc : Rc
  stmt : Option S
  tail : Option (List (Piece S))

/-- `sqlite3_prepare_v2`. A connection that is not open, and one that refuses the statement, do not
write the tail. -/
def sqlite3Prepare (opened : Bool) (tail : Option (List (Piece S))) (db : Db) : List (Piece S) → Prepared S
  | pieces =>
      if opened then
        match pieces with
        | [] => ⟨.ok, none, some []⟩
        | .malformed code :: rest => ⟨.step (.error code), none, some rest⟩
        | .statement s :: rest =>
            match engine.refused db s with
            | some code => ⟨.step (.error code), none, tail⟩
            | none => ⟨.ok, some s, some rest⟩
      else ⟨.misuse, none, tail⟩

/-- `prepare_impl`. -/
def prepareImpl (opened : Bool) (tail : Option (List (Piece S))) (pieces : List (Piece S)) : DbM (Prepared S) := do
  let db ← get
  let prepared := engine.sqlite3Prepare opened tail db pieces
  if prepared.rc ≠ .ok then
    throwDatabaseError prepared.rc.code
  return prepared

/-- `sqlite3_step` on a statement that was just prepared. -/
def sqlite3Step : Option S → DbM Rc
  | none => pure .misuse
  | some s => fun db =>
      match engine.outcome s db with
      | none => .error .killed db.crash
      | some (rc, db) => .ok (.step rc) db

/-- `command::execute`. Resetting a statement that was just prepared, or none, is SQLITE_OK. -/
def execute (stmt : Option S) : DbM Rc := do
  let rc ← engine.sqlite3Step stmt
  if rc ≠ .step .row ∧ rc ≠ .step .done then
    throwDatabaseError rc.code
  return rc

/-- The `while` of `execute_all`, with `rc_`, `stmt_` and the text at `sql`. -/
def executeRest (opened trailing : Bool) (rc : Rc) (stmt : Option S) : List (Piece S) → DbM Rc
  | [] => do
      -- Blank text is not empty: it is prepared, and there is no statement in it.
      if trailing then
        let prepared ← engine.prepareImpl opened (some []) []
        return prepared.rc
      else return rc
  | piece :: rest => do
      let prepared ← engine.prepareImpl opened (some (piece :: rest)) (piece :: rest)
      match prepared.stmt with
      | none => return prepared.rc
      | some s =>
          -- `sqlite3_transfer_bindings` reads the parameter counts of both statements.
          match stmt with
          | none => segfault
          | some old =>
              if engine.params old ≠ engine.params s then do
                -- It fails and leaves the connection without an error. Where nothing is thrown, the old
                -- statement is finalized a second time.
                throwDatabaseError Rc.ok.code
                segfault
              else do
                let rc ← engine.execute (some s)
                executeRest opened trailing rc (some s) rest

/-- `database::execute_all`. -/
def executeAll (opened : Bool) (script : Script S) : DbM Rc := do
  let prepared ← engine.prepareImpl opened none script.pieces
  let rc ← engine.execute prepared.stmt
  -- `std::strlen(sql)`.
  match prepared.tail with
  | none => segfault
  | some pieces => engine.executeRest opened script.trailing rc prepared.stmt pieces

end Engine

end Spacenet
