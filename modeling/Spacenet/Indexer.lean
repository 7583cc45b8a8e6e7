-- SUMMARY: `directory_indexer::reindex` with its lambdas: `update_block_digest`, `update_entry`, `update_blocks`, the callback and `cleanup_entries`.
import Spacenet.DirectoryReader
import Spacenet.Cdc512

/-!
# reindex

The lambdas of `directory_indexer::reindex` as programs over the connection. The
callback runs them on the state that it captures by reference: the connection and
the map from directory paths to rowids.
-/

namespace Spacenet

open Prog

/-! ## update_block_digest and update_blocks -/

section

variable (sql : Sqlite)

/-- `update_block_digest`. -/
def updateBlockDigest (entryId blkNo : Nat) (blockDigest : Blob) : DbM Unit :=
  Db.keepingExceptions do
    Db.setExceptions false
    let rc ← sql.execute (.blkIns entryId blkNo blockDigest)
    if rc = .constraintUnique then
      Db.setExceptions true
      let _ ← sql.execute (.blkUpd entryId blkNo blockDigest)

/-- The buffer behind a `_read` that returned `chunk`: the rest of it is zeroed. -/
def zeroPad (blockSize : Nat) (chunk : Blob) : Blob :=
  chunk ++ List.replicate (blockSize - chunk.length) 0

/-- The `for(;;)` of `update_blocks` from block `blkNo` on, with the results that `_read` still
gives: `chunks`, then -1 or 0. -/
def updateBlocksLoop (entryId blockSize : Nat) (failed : Bool) :
    (chunks : List Blob) → (blkNo : Nat) → Cdc512 → DbM (Bool × Cdc512)
  | [], _, fileCtx => pure (!failed, fileCtx)
  | chunk :: chunks, blkNo, fileCtx => do
      let buf := zeroPad blockSize chunk
      updateBlockDigest sql entryId blkNo (cdc512 buf)
      let _ ← sql.execute (.blkDel entryId blkNo)
      updateBlocksLoop entryId blockSize failed chunks (blkNo + 1) (fileCtx.update buf)

/-- `update_blocks`: whether the file was read to its end, and the context of the file's digest. -/
def updateBlocks (disk : Disk) (fileCtx : Cdc512) (pathName : WString) (entryId blockSize : Nat) :
    DbM (Bool × Cdc512) :=
  match disk.sopen pathName with
  | none => pure (false, fileCtx)
  | some reads => updateBlocksLoop sql entryId blockSize reads.failed reads.chunks 1 fileCtx

/-! ## update_entry -/

/-- `get_id_mtim`: the variables `id` and `mtim` behind it. A NULL mtime reads as 0. -/
def getIdMtim (parentId : Nat) (name : WString) (id : Nat) (mtim : U64) : DbM (Nat × U64) := do
  let rc ← sql.execute (.sel parentId name)
  let db ← get
  match rc, db.tables.entries.find parentId name with
  | .row, some r => pure (r.rowid, r.mtime.getD 0)
  | _, _ => pure (id, mtim)

/-- What `bind` of `update_entry` binds. -/
def entryParams (parentId : Nat) (name : WString) (isDir : Bool) (fileSize : U64) (blockSize : Nat) :
    EntryParams where
  parentId := parentId
  name := name
  isDir := if isDir then some true else none
  fileSize := if fileSize = 0 then none else some fileSize
  blockSize := if blockSize = 0 then none else some blockSize

/-- `update_entry`: the id of the entry, and the mtime stored for it before. -/
def updateEntry (modifiedOnly : Bool) (params : EntryParams) (mtime : U64) : DbM (Nat × U64) :=
  Db.keepingExceptions do
    Db.setExceptions true
    let (id, mtim) ← getIdMtim sql params.parentId params.name 0 0
    if modifiedOnly ∧ id ≠ 0 ∧ (mtim = mtime ∨ mtime = 0) then
      let _ ← sql.execute (.updTouch id)
    else
      Db.setExceptions false
      let rc ← sql.execute (.ins params)
      if rc = .constraintUnique then
        Db.setExceptions true
        let _ ← sql.execute (.upd params)
    if id = 0 then
      let (id, _) ← getIdMtim sql params.parentId params.name id mtim
      pure (id, mtim)
    else
      pure (id, mtim)

/-! ## cleanup_entries -/

/-- The text that `cleanup_entries` executes. -/
def cleanupStatements : List Stmt := [.deleteBlocks, .deleteEntries, .resetAlive]

/-- `cleanup_entries`. The transaction is constructed with its default for `frollback`. -/
def cleanupEntries : DbM Unit :=
  sql.transaction true false (sql.executeAll cleanupStatements)

end

/-! ## The callback -/

/-- The state that the callback captures: the connection and `parents`. `calls` counts the
callbacks made. -/
structure World where
  db : Db
  parents : List (WString × Nat)
  calls : Nat

/-- `parents.emplace(path, id)`: an existing element stays. -/
def emplace (path : WString) (id : Nat) (parents : List (WString × Nat)) : List (WString × Nat) :=
  if (parents.lookup path).isSome then parents else (path, id) :: parents

/-- What a run of `reindex` depends on beside the tree: SQLite, `modified_only_`, whether
`*p_shutdown` is seen set at a callback, and what a callback's API calls make of the last error. -/
structure Env where
  sql : Sqlite
  modifiedOnly : Bool
  shutdown : Nat → Bool
  register : Nat → U32 → U32

def R_OK : Nat := 4
def X_OK : Nat := 0

/-- `size_t block_size = 4096`. -/
def fileBlockSize : Nat := 4096

theorem fileBlockSize_pos : 0 < fileBlockSize := by decide

theorem size_dvd_fileBlockSize : Cdc512Data.size ∣ fileBlockSize := by decide

/-- `fmtim`. -/
def DirectoryReader.fmtim (dr : DirectoryReader) : U64 :=
  dr.mtime * 1000000000 + dr.mtimeNs.setWidth 64

/-- Run a program of the connection in the callback. -/
def withDb {α : Type} (m : DbM α) : EStateM Error (Shared World) α :=
  onPart (fun sh => sh.user.db) (fun db sh => { sh with user := { sh.user with db := db } }) m

def setParents (f : List (WString × Nat) → List (WString × Nat)) : EStateM Error (Shared World) Unit :=
  modify fun sh => { sh with user := { sh.user with parents := f sh.user.parents } }

/-- `str2utf` of a text of the reader. The tables and `parents` hold the string itself. -/
def convert (text : WString) : EStateM Error (Shared World) Unit :=
  if WellFormed text then pure () else throw badConversion

variable (env : Env) (disk : Disk)

/-- The lambda that finds `parent_id`. -/
def parentIdOf (dr : DirectoryReader) : EStateM Error (Shared World) Nat := do
  let sh ← get
  match sh.user.parents.lookup dr.path with
  | some id => pure id
  | none =>
      if dr.level > 1 then
        throw (.runtimeError "Undefined behavior".toList)
      else do
        let (id, _) ← withDb (updateEntry env.sql env.modifiedOnly (entryParams 0 dr.path true 0 0) 0)
        setParents (emplace dr.path id)
        pure id

/-- The part of the callback behind `access`. -/
def indexEntry (dr : DirectoryReader) : EStateM Error (Shared World) Unit := do
  convert dr.name
  convert dr.path
  let parentId ← parentIdOf env dr
  let (entryId, mtim) ← withDb (updateEntry env.sql env.modifiedOnly
    (entryParams parentId dr.name dr.isDir dr.fsize fileBlockSize) dr.fmtim)
  if dr.isDir then
    convert dr.pathName
    setParents (emplace dr.pathName entryId)
  if dr.isReg ∧ (¬env.modifiedOnly ∨ mtim ≠ dr.fmtim) then
    let (complete, ctx) ←
      withDb (updateBlocks env.sql disk Cdc512.init dr.pathName entryId fileBlockSize)
    if complete then
      let _ ← withDb (env.sql.execute (.updAfter entryId dr.fmtim ctx.finish.digest))

/-- The `manipulator_` of `reindex`. -/
def manipulator : Manipulator World := fun dr => do
  let sh ← get
  set { sh with user := { sh.user with calls := sh.user.calls + 1 } }
  if env.shutdown sh.user.calls then
    modify fun sh => { sh with abort := true }
  else
    modify fun sh' => { sh' with lastError := env.register sh.user.calls sh'.lastError }
    if disk.access dr.pathName (if dr.isDir then R_OK ||| X_OK else R_OK) ≠ 0 then
      pure ()
    else
      indexEntry env disk dr

/-! ## reindex -/

/-- The reader that `reindex` declares. -/
def indexReader : DirectoryReader where
  recursive := true
  listDirectories := true

/-- The statements of the schema. -/
def schemaStatements : List Stmt :=
  [.create .entries, .create .i1, .create .i2, .create .blocksDigests, .create .i3]

/-- `reindex(db, dir_path_name, p_shutdown)`, with at most `fuel` steps of `read`. -/
def reindex (fuel : Nat) (dirPathName : WString) (win : Win32) (db : Db) :
    Option (EStateM.Result Error Db Unit) :=
  match env.sql.executeAll schemaStatements db with
  | .error e db => some (.error e db)
  | .ok _ db =>
      match indexReader.read fuel disk (some (manipulator env disk)) dirPathName win ⟨db, [], 0⟩ with
      | none => none
      | some (.error e st) => some (.error e st.user.db)
      | some (.ok _ st) => some (cleanupEntries env.sql st.user.db)

end Spacenet
