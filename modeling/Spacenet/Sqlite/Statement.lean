-- SUMMARY: Prepared statements: `sqlite3_bind`, `sqlite3_step` and `sqlite3_reset`, and `statement`, `command` and `query` of `sqlite3pp` over them.
import Spacenet.Library.Unicode
import Spacenet.Sqlite.Database

/-!
# Prepared statements

`reindex` prepares eight statements once and runs them again and again. What a
statement does depends on its history: it must be reset before a value is bound,
a reset reports the error of the run before, and a slot keeps its value, or the
pointer to it, until another one is bound.
-/

namespace Spacenet

open Prog Unicode

/-! ## Values -/

/-- A value of SQLite. An INTEGER is its 64 bits without a sign. -/
inductive Value where
  | null
  | integer (n : Nat)
  | text (utf8 : Blob)
  | blob (bytes : Blob)
deriving DecidableEq

/-- What is bound to a parameter. With `nocopy` SQLite has the pointer only. -/
structure Slot where
  value : Value
  nocopy : Bool

/-- The parameters of the statements. -/
inductive Param where
  | parentId | name | isDir | fileSize | blockSize | id | mtime | digest | entryId | blockNo
deriving DecidableEq

inductive Column where
  | rowid | mtime
deriving DecidableEq

/-- The statements that `reindex` prepares. -/
inductive Handle where
  | sel | ins | upd | updTouch | updAfter | blkIns | blkUpd | blkDel
deriving DecidableEq

/-- The names of `sqlite3_bind_parameter_name`: a parameter has the index of its first occurrence. -/
def Handle.params : Handle → List Param
  | .sel => [.parentId, .name]
  | .ins => [.parentId, .name, .isDir, .fileSize, .blockSize]
  | .upd => [.parentId, .name, .isDir, .fileSize, .blockSize]
  | .updTouch => [.id]
  | .updAfter => [.mtime, .digest, .id]
  | .blkIns => [.entryId, .blockNo, .digest]
  | .blkUpd => [.digest, .entryId, .blockNo]
  | .blkDel => [.entryId, .blockNo]

/-- A column that may be NULL. -/
def Value.nullable : Value → Option (Option Nat)
  | .null => some none
  | .integer n => some (some n)
  | _ => none

/-- The parameters that `st_ins` and `st_upd` have in common. -/
def EntryParams.ofValues (value : Param → Value) : Option EntryParams := do
  let .integer parentId := value .parentId | none
  let .text utf8 := value .name | none
  let name ← ofUtf8 utf8
  let isDir ← (value .isDir).nullable
  let fileSize ← (value .fileSize).nullable
  let blockSize ← (value .blockSize).nullable
  some {
    parentId := parentId
    name := utf16 name
    isDir := isDir.map (· ≠ 0)
    fileSize := fileSize.map (BitVec.ofNat 64)
    blockSize := blockSize }

/-- The text of the statement with values for its parameters, `none` where they are of other types
than `reindex` binds. -/
def Handle.stmt (value : Param → Value) : Handle → Option Stmt
  | .sel =>
      match value .parentId, value .name with
      | .integer parentId, .text utf8 => (ofUtf8 utf8).map fun name => .sel parentId (utf16 name)
      | _, _ => none
  | .ins => (EntryParams.ofValues value).map .ins
  | .upd => (EntryParams.ofValues value).map .upd
  | .updTouch =>
      match value .id with
      | .integer id => some (.updTouch id)
      | _ => none
  | .updAfter =>
      match value .id, value .mtime, value .digest with
      | .integer id, .integer mtime, .blob digest => some (.updAfter id (BitVec.ofNat 64 mtime) digest)
      | _, _, _ => none
  | .blkIns =>
      match value .entryId, value .blockNo, value .digest with
      | .integer entryId, .integer blockNo, .blob digest => some (.blkIns entryId blockNo digest)
      | _, _, _ => none
  | .blkUpd =>
      match value .entryId, value .blockNo, value .digest with
      | .integer entryId, .integer blockNo, .blob digest => some (.blkUpd entryId blockNo digest)
      | _, _, _ => none
  | .blkDel =>
      match value .entryId, value .blockNo with
      | .integer entryId, .integer blockNo => some (.blkDel entryId blockNo)
      | _, _ => none

/-- The columns `rowid` and `mtime` of a row. -/
def EntryRow.column (r : EntryRow) : Column → Value
  | .rowid => .integer r.rowid
  | .mtime =>
      match r.mtime with
      | none => .null
      | some mtime => .integer mtime.toNat

/-! ## sqlite3_stmt -/

/-- The result codes that the calls on a statement give. -/
inductive Rc where
  | ok | misuse | range
  | step (rc : ResultCode)
deriving DecidableEq

/-- The values of SQLITE_MISUSE, SQLITE_RANGE and SQLITE_MISMATCH. -/
def sqliteMisuse : Nat := 21
def sqliteRange : Nat := 25
def sqliteMismatch : Nat := 20

def Rc.code : Rc → Nat
  | .ok => 0
  | .misuse => sqliteMisuse
  | .range => sqliteRange
  | .step rc => rc.code

/-- Where a statement stands: it can be bound and run, it is at a row, or it has ended. -/
inductive Progress where
  | ready
  | row (column : Column → Value)
  | halted (rc : Rc)

/-- `sqlite3_stmt`. -/
structure Vdbe where
  progress : Progress
  vars : Nat → Slot

/-- A statement as `sqlite3_prepare_v2` gives it. -/
def Vdbe.prepared : Vdbe where
  progress := .ready
  vars := fun _ => ⟨.null, false⟩

namespace Vdbe

variable (vm : Vdbe)

/-- `sqlite3_bind_...` on a statement with `count` parameters. -/
def bind (count idx : Nat) (slot : Slot) : Rc × Vdbe :=
  match vm.progress with
  | .ready =>
      if 1 ≤ idx ∧ idx ≤ count then (.ok, { vm with vars := Function.update vm.vars idx slot })
      else (.range, vm)
  | _ => (.misuse, vm)

/-- `sqlite3_reset`: the code with which the statement has ended. -/
def reset : Rc × Vdbe :=
  match vm.progress with
  | .halted rc => (rc, { vm with progress := .ready })
  | _ => (.ok, { vm with progress := .ready })

/-- `sqlite3_column_int64`. A NULL reads as 0. -/
def columnInt64 (c : Column) : Nat :=
  match vm.progress with
  | .row column =>
      match column c with
      | .integer n => n
      | _ => 0
  | _ => 0

end Vdbe

/-- The value bound to a parameter. -/
def Handle.value (h : Handle) (vm : Vdbe) (p : Param) : Value := (vm.vars (h.params.idxOf p + 1)).value

/-! ## Statements of a connection -/

/-- The connection with the statements prepared on it. -/
structure Session where
  db : Db
  vm : Handle → Vdbe

abbrev SessionM (α : Type) := EStateM Error Session α

namespace Session

def setVm (h : Handle) (vm : Vdbe) (s : Session) : Session :=
  { s with vm := Function.update s.vm h vm }

/-- A program of the connection. -/
def withConnection {α : Type} (m : DbM α) : SessionM α :=
  onPart Session.db (fun db s => { s with db := db }) m

/-- `database::exceptions(bool)`. -/
def setExceptions (exceptions : Bool) : SessionM Unit := withConnection (Db.setExceptions exceptions)

/-- `exceptions_safe = db.exceptions(); at_scope_exit(db.exceptions(exceptions_safe))`. -/
def keepingExceptions {α : Type} (m : SessionM α) : SessionM α := do
  let s ← get
  atScopeExit (fun s' => { s' with db := s'.db.withExceptions s.db.exceptions }) m

/-- `database::throw_database_error`. -/
def throwDatabaseError (code : Nat) : SessionM Unit := do
  let s ← get
  if s.db.exceptions then throw (.databaseError code)

/-- The memory behind the pointers of `nocopy` is freed: it reads as `garbage` from now on. -/
def release (garbage : Handle → Nat → Value) : SessionM Unit :=
  modify fun s => { s with vm := fun h => { s.vm h with
    vars := fun i => if ((s.vm h).vars i).nocopy then ⟨garbage h i, true⟩ else (s.vm h).vars i } }

end Session

namespace Sqlite

variable (sql : Sqlite)

/-- The code with which a statement ends and what it leaves, `none` when the process ends. -/
def outcome (stmt : Stmt) (db : Db) : Option (ResultCode × Db) :=
  match sql.fault db stmt with
  | some .kill => none
  | some (.error code) => some (.error code, { db with log := db.log ++ [(stmt, .error code)] })
  | none =>
      let (rc, t, snapshot) := stmt.run sql.policy db.tables db.snapshot
      some (rc, { db with tables := t, snapshot := snapshot, log := db.log ++ [(stmt, rc)] })

/-- Where the statement stands behind a run that ended with `rc`. -/
def standing (h : Handle) (stmt : Stmt) (rc : ResultCode) (db : Db) : Progress :=
  match h, stmt, rc with
  | .sel, .sel parentId name, .row =>
      match db.tables.entries.find parentId name with
      | some r => .row r.column
      | none => .halted .ok
  | _, _, .row | _, _, .done => .halted .ok
  | _, _, rc => .halted (.step rc)

/-- `sqlite3_step`. A statement that has ended is reset first; behind its only row it is done. -/
def step (h : Handle) : SessionM ResultCode := fun s =>
  match (s.vm h).progress with
  | .row _ => .ok .done (s.setVm h { s.vm h with progress := .halted .ok })
  | _ =>
      match h.stmt (h.value (s.vm h)) with
      | none => .ok (.error sqliteMismatch)
          (s.setVm h { s.vm h with progress := .halted (.step (.error sqliteMismatch)) })
      | some stmt =>
          match sql.outcome stmt s.db with
          | none => .error .killed { s with db := s.db.crash }
          | some (rc, db) => .ok rc ({ s with db := db }.setVm h
              { s.vm h with progress := standing h stmt rc db })

end Sqlite

/-! ## statement, command and query -/

namespace Statement

open Session

variable (sql : Sqlite) (h : Handle)

def sqlite3Bind (idx : Nat) (slot : Slot) : SessionM Rc := fun s =>
  let (rc, vm) := (s.vm h).bind h.params.length idx slot
  .ok rc (s.setVm h vm)

def sqlite3Reset : SessionM Rc := fun s =>
  let (rc, vm) := (s.vm h).reset
  .ok rc (s.setVm h vm)

/-- `statement::bind(int idx, ...)`. A statement that was not reset is, and the value is bound again. -/
def bindIdx (idx : Nat) (slot : Slot) : SessionM Rc := do
  let rc ← sqlite3Bind h idx slot
  let rc ← if rc = .misuse then do
      let _ ← sqlite3Reset h
      sqlite3Bind h idx slot
    else pure rc
  if rc ≠ .ok then
    throwDatabaseError rc.code
  return rc

/-- `param_name2idx`. It throws whatever `exceptions` is. -/
def paramName2idx (p : Param) : SessionM Nat :=
  match h.params.idxOf? p with
  | some i => pure (i + 1)
  | none => throw (.databaseError 0)

/-- `statement::bind(char const* name, ...)`. -/
def bind (p : Param) (value : Value) (nocopy : Bool) : SessionM Rc := do
  let idx ← paramName2idx h p
  bindIdx h idx ⟨value, nocopy⟩

/-- `statement::step`. -/
def step : SessionM ResultCode := do
  let rc ← sql.step h
  if rc ≠ .row ∧ rc ≠ .done then
    throwDatabaseError rc.code
  return rc

/-- `statement::reset`. -/
def reset : SessionM Rc := sqlite3Reset h

/-- `command::execute`. -/
def execute : SessionM Rc := do
  let rc ← reset h
  let rc ← if rc = .ok then do
      let rc ← step sql h
      pure (.step rc)
    else pure rc
  if rc ≠ .step .row ∧ rc ≠ .step .done then
    throwDatabaseError rc.code
  return rc

/-- `query::begin`: the `rc_` of the iterator, which is true unless that is SQLITE_DONE. -/
def begin : SessionM ResultCode := step sql h

/-- `i->get<uint64_t>(name)`. -/
def getInt64 (c : Column) : SessionM Nat := do
  let s ← get
  return (s.vm h).columnInt64 c

end Statement

end Spacenet
