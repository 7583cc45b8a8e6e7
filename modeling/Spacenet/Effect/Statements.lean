-- SUMMARY: The statements that the programs of `reindex` execute, by what they write and under which id.
import Spacenet.Sqlite.Log
import Spacenet.Effect.Callback

/-!
# The statements of the callback

The id 0 stands for an entry that was not inserted. A program that is given the id
of a stored entry writes nothing under 0. The mtime and the digest of an entry are
written by `st_upd_after` only.
-/

namespace Spacenet

/-- The statement writes a row under the id 0, other than the row of the root. -/
def Stmt.UnderZero (root : WString) : Stmt → Prop
  | .ins params | .upd params => params.parentId = 0 ∧ params ≠ (Record.root root).params 0
  | .blkIns entryId _ _ | .blkUpd entryId _ _ => entryId = 0
  | _ => False

/-- The statement writes nothing under the id 0, and no mtime. -/
def Stmt.Plain (root : WString) : Stmt → Prop
  | .updAfter _ _ _ => False
  | s => ¬s.UnderZero root

section

variable {root : WString} {sql : Sqlite}

theorem executes_getIdMtim (parentId : Nat) (name : WString) (id : Nat) (mtim : U64) :
    Executes (Stmt.Plain root) (getIdMtim sql parentId name id mtim) := by
  have hsel : (Stmt.sel parentId name).Plain root := fun h => h
  apply (Executes.execute hsel).bind
  intro rc
  apply Executes.get.bind
  intro db
  split
  · exact .pure _
  · exact .pure _

theorem executes_updateEntry {params : EntryParams}
    (hparams : params.parentId = 0 → params = (Record.root root).params 0) (modifiedOnly : Bool)
    (mtime : U64) : Executes (Stmt.Plain root) (updateEntry sql modifiedOnly params mtime) := by
  have htouch : ∀ id, (Stmt.updTouch id).Plain root := fun _ h => h
  have hins : (Stmt.ins params).Plain root := fun h => h.2 (hparams h.1)
  have hupd : (Stmt.upd params).Plain root := fun h => h.2 (hparams h.1)
  apply Executes.keepingExceptions
  apply (Executes.setExceptions true).bind
  intro _
  apply (executes_getIdMtim _ _ _ _).bind
  rintro ⟨id, mtim⟩
  have hrest : Executes (Stmt.Plain root) (if id = 0 then do
      let found ← getIdMtim sql params.parentId params.name id mtim
      pure (found.1, mtim)
    else pure (id, mtim)) := by
    apply Executes.ite
    · exact (executes_getIdMtim _ _ _ _).bind fun _ => .pure _
    · exact .pure _
  apply Executes.ite
  · exact (Executes.execute (htouch id)).bind fun _ => hrest
  · apply (Executes.setExceptions false).bind
    intro _
    apply (Executes.execute hins).bind
    intro rc
    apply Executes.ite
    · apply (Executes.setExceptions true).bind
      intro _
      exact (Executes.execute hupd).bind fun _ => hrest
    · exact hrest

theorem executes_updateBlockDigest {entryId : Nat} (hid : entryId ≠ 0) (blkNo : Nat) (digest : Blob) :
    Executes (Stmt.Plain root) (updateBlockDigest sql entryId blkNo digest) := by
  have hins : (Stmt.blkIns entryId blkNo digest).Plain root := hid
  have hupd : (Stmt.blkUpd entryId blkNo digest).Plain root := hid
  apply Executes.keepingExceptions
  apply (Executes.setExceptions false).bind
  intro _
  apply (Executes.execute hins).bind
  intro rc
  apply Executes.ite
  · exact (Executes.setExceptions true).bind fun _ => (Executes.execute hupd).bind fun _ => .pure _
  · exact .pure _

theorem executes_updateBlocks {entryId : Nat} (hid : entryId ≠ 0) (disk : Disk) (fileCtx : Cdc512)
    (pathName : WString) (blockSize : Nat) :
    Executes (Stmt.Plain root) (updateBlocks sql disk fileCtx pathName entryId blockSize) := by
  have hdel : ∀ blkNo, (Stmt.blkDel entryId blkNo).Plain root := fun _ h => h
  unfold updateBlocks
  cases disk.sopen pathName with
  | none => exact .pure _
  | some reads =>
      simp only []
      generalize reads.chunks = chunks, 1 = blkNo
      induction chunks generalizing blkNo fileCtx with
      | nil => exact .pure _
      | cons chunk chunks ih =>
          refine (executes_updateBlockDigest hid _ _).bind fun _ => ?_
          exact (Executes.execute (hdel blkNo)).bind fun _ => ih _ _

theorem executes_schema : Executes (Stmt.Plain root) (sql.executeAll schemaStatements) := by
  apply Executes.executeAll
  simp [schemaStatements, Stmt.Plain, Stmt.UnderZero]

theorem executes_cleanupEntries : Executes (Stmt.Plain root) (cleanupEntries sql) := by
  apply Executes.transaction
  · exact fun h => h
  · apply Executes.executeAll
    simp [cleanupStatements, Stmt.Plain, Stmt.UnderZero]
  · exact fun h => h

end

end Spacenet
