-- SUMMARY: A run that skips nothing: behind it every row and every block row says what its entry is, whatever was stored before.
import Spacenet.Effect.Columns
import Spacenet.Preorder

/-!
# Refreshing

With `modified_only` off every accessible entry is recorded as if its row had just
been inserted. Of what was stored before, a row keeps its rowid, and an mtime
where there is no digest. A file that gives no block keeps its old block rows.
-/

namespace Spacenet

/-! ## What an entry is -/

/-- The blocks that the entry gives. -/
def Node.chunks : Node → List Blob
  | .file info => (info.content.map FileReads.chunks).getD []
  | .dir _ _ => []

/-- The digest of a file that is read in full. -/
def Node.digest : Node → Option Blob
  | .file info => (info.content.filter fun reads => !reads.failed).map FileReads.digest
  | .dir _ _ => none

/-- The row says what the entry is. -/
structure EntryRow.Describes (node : Node) (r : EntryRow) : Prop where
  isDir : r.isDir = if node.isDir then some true else none
  fileSize : r.fileSize = if node.stat.fsize = 0 then none else some node.stat.fsize
  digest : r.digest = node.digest
  mtime : node.digest.isSome → r.mtime = some node.stat.fmtim

/-- The numbered blocks of the entry are those that it gives, or the old ones if it gives none. -/
def Blocks.Describes (node : Node) (rowid : Nat) (old new : Blocks) : Prop :=
  ∀ b : BlockRow, b.entryId = rowid → 1 ≤ b.blockNo → (b ∈ new.rows ↔
    if node.chunks = [] then b ∈ old.rows
    else ∃ i chunk, node.chunks[i]? = some chunk ∧
      b = ⟨rowid, (1 + i : Nat), some (cdc512 (zeroPad fileBlockSize chunk))⟩)

namespace Call

variable (c : Call)

theorem record_isDir : c.record.isDir = c.node.isDir := by
  cases hnode : c.node with
  | file info => exact (record_file hnode).1
  | dir info entries => exact (record_dir hnode).1

theorem record_chunks (mtim : U64) : c.record.chunks false mtim = c.node.chunks := by
  unfold Record.chunks
  cases hnode : c.node with
  | file info =>
      obtain ⟨hisDir, hreads⟩ := record_file hnode
      rw [if_pos (Record.hashed_all.mpr hisDir), hreads, Node.chunks]
      cases info.content <;> rfl
  | dir info entries =>
      obtain ⟨hisDir, -⟩ := record_dir hnode
      exact if_neg fun h => by simp [Record.hashed, hisDir] at h

theorem record_fileDigest : c.record.fileDigest = c.node.digest := by
  unfold Record.fileDigest Record.digest
  cases hnode : c.node with
  | file info =>
      obtain ⟨hisDir, hreads⟩ := record_file hnode
      rw [if_pos (Record.hashed_all.mpr hisDir), hreads, Node.digest]
      cases info.content with
      | none => rfl
      | some reads =>
          cases hfailed : reads.failed with
          | true => simp [hfailed]
          | false =>
              simp [hfailed]
              rfl
  | dir info entries =>
      obtain ⟨hisDir, -⟩ := record_dir hnode
      exact if_neg fun h => by simp [Record.hashed, hisDir] at h

/-- The row that the record of the call leaves. -/
theorem row_describes (parentId rowid : Nat) (old : Option EntryRow) :
    ((c.record.row false parentId rowid old).revived).Describes c.node := by
  obtain ⟨⟨hisDir, hfileSize, hdigest⟩, hmtime⟩ := Record.row_rewrites c.record parentId rowid old
  rw [c.record_isDir] at hisDir
  rw [c.record_fsize] at hfileSize
  rw [c.record_fileDigest] at hdigest hmtime
  rw [c.record_fmtim] at hmtime
  exact ⟨hisDir, hfileSize, hdigest, fun hsome => hmtime.trans (if_pos hsome)⟩

/-- The block rows that it leaves. -/
theorem blocks_describes (rowid : Nat) (old : Option EntryRow) (t : Blocks) :
    Blocks.Describes c.node rowid t (c.record.blocks false rowid old t) := by
  intro b hb hnumber
  unfold Record.blocks
  rw [c.record_chunks]
  by_cases hchunks : c.node.chunks = []
  · rw [if_pos hchunks, hchunks]
    exact Iff.rfl
  · rw [if_neg hchunks, Blocks.mem_updateBlocks hchunks]
    constructor
    · rintro (⟨-, hbelow⟩ | hblock)
      · exact absurd (hbelow hb) (Int.not_lt.mpr hnumber)
      · exact hblock
    · exact .inr

end Call

end Spacenet
