-- SUMMARY: `directory_indexer::reindex` once more, over its prepared statements and the UTF-8 texts that it binds and looks up.
import Spacenet.Indexer
import Spacenet.LocaleTraits
import Spacenet.Sqlite.Statement

/-!
# reindex over prepared statements

The lambdas of `reindex` call by call: every `bind`, every `execute`, the
conversions of the names, and the buffers that are freed behind a `nocopy`. The
statements start in the state in which the run before has left them.
-/

namespace Spacenet

namespace Prepared

open Prog Session Statement LocaleTraits Unicode

/-- What a run over prepared statements depends on beside `Env`: the conversions, and what freed
memory holds. -/
structure Platform where
  nls : Nls
  garbage : Handle → Nat → Value

/-! ## update_block_digest and update_blocks -/

section

variable (sql : Sqlite) (platform : Platform)

/-- `bind` of `update_block_digest`. -/
def bindBlock (entryId blkNo : Nat) (blockDigest : Blob) (st : Handle) : SessionM Unit := do
  let _ ← bind st .entryId (.integer entryId) false
  let _ ← bind st .blockNo (.integer blkNo) false
  let _ ← bind st .digest (.blob blockDigest) true

/-- `update_block_digest`. -/
def updateBlockDigest (entryId blkNo : Nat) (blockDigest : Blob) : SessionM Unit := do
  bindBlock entryId blkNo blockDigest .blkIns
  keepingExceptions do
    setExceptions false
    let rc ← execute sql .blkIns
    if rc = .step .constraintUnique then
      setExceptions true
      bindBlock entryId blkNo blockDigest .blkUpd
      let _ ← execute sql .blkUpd

/-- The `for(;;)` of `update_blocks`. `block_digest` is freed behind every block. -/
def updateBlocksLoop (entryId blockSize : Nat) (failed : Bool) :
    (chunks : List Blob) → (blkNo : Nat) → Cdc512 → SessionM (Bool × Cdc512)
  | [], _, fileCtx => pure (!failed, fileCtx)
  | chunk :: chunks, blkNo, fileCtx => do
      let buf := zeroPad blockSize chunk
      updateBlockDigest sql entryId blkNo (cdc512 buf)
      let _ ← bind .blkDel .entryId (.integer entryId) false
      let _ ← bind .blkDel .blockNo (.integer blkNo) false
      let _ ← execute sql .blkDel
      release platform.garbage
      updateBlocksLoop entryId blockSize failed chunks (blkNo + 1) (fileCtx.update buf)

/-- `update_blocks`. -/
def updateBlocks (disk : Disk) (fileCtx : Cdc512) (pathName : WString) (entryId blockSize : Nat) :
    SessionM (Bool × Cdc512) :=
  match disk.sopen pathName with
  | none => pure (false, fileCtx)
  | some reads => updateBlocksLoop sql platform entryId blockSize reads.failed reads.chunks 1 fileCtx

/-! ## update_entry -/

/-- `get_id_mtim`: the variables `id` and `mtim` behind it. -/
def getIdMtim (id : Nat) (mtim : U64) : SessionM (Nat × U64) := do
  let rc ← begin sql .sel
  if rc ≠ .done then
    let id ← getInt64 .sel .rowid
    let mtim ← getInt64 .sel .mtime
    pure (id, BitVec.ofNat 64 mtim)
  else pure (id, mtim)

/-- `bind` of `update_entry`. -/
def bindEntry (parentId : Nat) (name : Blob) (isDir : Bool) (fileSize : U64) (blockSize : Nat) (st : Handle) :
    SessionM Unit := do
  let _ ← bind st .parentId (.integer parentId) false
  let _ ← bind st .name (.text name) true
  let _ ← bind st .isDir (if isDir then .integer 1 else .null) false
  let _ ← bind st .fileSize (if fileSize = 0 then .null else .integer fileSize.toNat) false
  let _ ← bind st .blockSize (if blockSize = 0 then .null else .integer blockSize) false

/-- `update_entry`. -/
def updateEntry (modifiedOnly : Bool) (parentId : Nat) (name : Blob) (isDir : Bool) (mtime fileSize : U64)
    (blockSize : Nat) : SessionM (Nat × U64) :=
  keepingExceptions do
    let _ ← bind .sel .parentId (.integer parentId) false
    let _ ← bind .sel .name (.text name) true
    setExceptions true
    let (id, mtim) ← getIdMtim sql 0 0
    if modifiedOnly ∧ id ≠ 0 ∧ (mtim = mtime ∨ mtime = 0) then
      let _ ← bind .updTouch .id (.integer id) false
      let _ ← execute sql .updTouch
    else
      setExceptions false
      bindEntry parentId name isDir fileSize blockSize .ins
      let rc ← execute sql .ins
      if rc = .step .constraintUnique then
        setExceptions true
        bindEntry parentId name isDir fileSize blockSize .upd
        let _ ← execute sql .upd
    if id = 0 then
      let (id, _) ← getIdMtim sql id mtim
      pure (id, mtim)
    else
      pure (id, mtim)

end

/-! ## The callback -/

/-- The state that the callback captures. `parents` has UTF-8 texts. -/
structure World where
  session : Session
  parents : List (Blob × Nat)
  calls : Nat

/-- `parents.emplace(path, id)`. -/
def emplace (path : Blob) (id : Nat) (parents : List (Blob × Nat)) : List (Blob × Nat) :=
  if (parents.lookup path).isSome then parents else (path, id) :: parents

abbrev CallbackM (α : Type) := EStateM Error (Shared World) α

/-- Run a program of the statements in the callback. -/
def withSession {α : Type} (m : SessionM α) : CallbackM α :=
  onPart (fun sh => sh.user.session) (fun session sh => { sh with user := { sh.user with session := session } }) m

def setParents (f : List (Blob × Nat) → List (Blob × Nat)) : CallbackM Unit :=
  modify fun sh => { sh with user := { sh.user with parents := f sh.user.parents } }

variable (env : Env) (platform : Platform) (disk : Disk)

/-- `str2utf` of a text of the reader. -/
def convert (text : WString) : CallbackM Blob :=
  match str2utf platform.nls text with
  | .ok utf => pure utf
  | .error e => throw e

/-- The lambda that finds `parent_id`. -/
def parentIdOf (utfPath : Blob) (level : Nat) : CallbackM Nat := do
  let sh ← get
  match sh.user.parents.lookup utfPath with
  | some id => pure id
  | none =>
      if level > 1 then
        throw (.runtimeError "Undefined behavior".toList)
      else do
        let (id, _) ← withSession (updateEntry env.sql env.modifiedOnly 0 utfPath true 0 0 0)
        setParents (emplace utfPath id)
        pure id

/-- The part of the callback behind `access`. -/
def indexEntry (dr : DirectoryReader) : CallbackM Unit := do
  let utfName ← convert platform dr.name
  let utfPath ← convert platform dr.path
  let parentId ← parentIdOf env utfPath dr.level
  let (entryId, mtim) ← withSession
    (updateEntry env.sql env.modifiedOnly parentId utfName dr.isDir dr.fmtim dr.fsize fileBlockSize)
  if dr.isDir then
    let utfPathName ← convert platform dr.pathName
    setParents (emplace utfPathName entryId)
  if dr.isReg ∧ (¬env.modifiedOnly ∨ mtim ≠ dr.fmtim) then
    let (complete, ctx) ←
      withSession (updateBlocks env.sql platform disk Cdc512.init dr.pathName entryId fileBlockSize)
    if complete then
      let _ ← withSession do
        let _ ← bind .updAfter .id (.integer entryId) false
        let _ ← bind .updAfter .mtime (.integer dr.fmtim.toNat) false
        let _ ← bind .updAfter .digest (.blob ctx.finish.digest) true
        execute env.sql .updAfter

/-- The `manipulator_` of `reindex`. The texts of the names are freed at its end. -/
def manipulator : Manipulator World := fun dr => do
  let sh ← get
  set { sh with user := { sh.user with calls := sh.user.calls + 1 } }
  if env.shutdown sh.user.calls then
    modify fun sh => { sh with abort := true }
  else
    modify fun sh' => { sh' with lastError := env.register sh.user.calls sh'.lastError }
    if disk.access dr.pathName (if dr.isDir then R_OK ||| X_OK else R_OK) ≠ 0 then
      pure ()
    else
      indexEntry env platform disk dr
      withSession (release platform.garbage)

/-! ## reindex -/

/-- `reindex(db, dir_path_name, p_shutdown)` over statements in the states `vm`. -/
def reindex (fuel : Nat) (dirPathName : WString) (win : Win32) (vm : Handle → Vdbe) (db : Db) :
    Option (EStateM.Result Error Db Unit) :=
  match env.sql.executeAll schemaStatements db with
  | .error e db => some (.error e db)
  | .ok _ db =>
      match indexReader.read fuel disk (some (manipulator env platform disk)) dirPathName win ⟨⟨db, vm⟩, [], 0⟩ with
      | none => none
      | some (.error e st) => some (.error e st.user.session.db)
      | some (.ok _ st) => some (cleanupEntries env.sql st.user.session.db)

end Prepared

end Spacenet
