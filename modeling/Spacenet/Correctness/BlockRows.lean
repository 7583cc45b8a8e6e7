-- SUMMARY: The block rows that `update_blocks` leaves, compared with the blocks of the file.
import Spacenet.Effect.Content

/-!
# The block rows of a file

The rows that `update_blocks` leaves for an entry are the blocks of the file,
unless rows are stored that its loop does not reach: `st_blk_del` is executed
behind a block only, and deletes the higher numbers only.
-/

namespace Spacenet

open Prog

/-- `update_blocks` of a file that opens and is read in full returns true. Behind it the rows of the
entry are exactly the blocks of the file, and those of other entries are the same, if and only if no
row is stored that it does not reach. -/
theorem updateBlocks_exact_iff {sql : Sqlite} (hsql : sql.NoFault) {disk : Disk} {pathName : WString}
    {blockSize : Nat} (hpos : 0 < blockSize) {content : Blob}
    (hopen : disk.sopen pathName = some (.full hpos content)) (fileCtx : Cdc512) (entryId : Nat)
    {db : Db} (hdb : db.snapshot = none) :
    ∃ ctx db', updateBlocks sql disk fileCtx pathName entryId blockSize db = .ok (true, ctx) db' ∧
      (db'.tables.blocksDigests.Exactly entryId blockSize content ∧
        db.tables.blocksDigests.SameBut entryId db'.tables.blocksDigests ↔
          db.tables.blocksDigests.Reached entryId content) := by
  have hwp : wp (updateBlocks sql disk fileCtx pathName entryId blockSize)
      (fun result db' => result.1 = true ∧ db'.tables.blocksDigests =
        db.tables.blocksDigests.updateBlocks entryId blockSize (FileReads.full hpos content).chunks 1)
      (fun _ _ => False) db := by
    refine wp_updateBlocks hsql.throws.losesNothing hdb ?_ ?_ ?_
    · intro hclosed
      rw [hopen] at hclosed
      cases hclosed
    · intro reads log hreads
      obtain rfl := Option.some.inj (hopen.symm.trans hreads)
      exact ⟨rfl, rfl⟩
    · intro e t log hfault _
      exact hfault hsql
  obtain ⟨⟨complete, ctx⟩, db', hrun, rfl, hblocks⟩ := hwp.returns
  refine ⟨ctx, db', hrun, ?_⟩
  have hsame : db.tables.blocksDigests.SameBut entryId db'.tables.blocksDigests := by
    rw [hblocks]
    exact Blocks.updateBlocks_sameBut _ _ _ _
  rw [hblocks] at hsame ⊢
  rw [Blocks.exactly_updateBlocks_iff hpos]
  exact and_iff_left hsame

/-- A disk on which every file has the given content, read by blocks of this size. -/
def contentDisk {blockSize : Nat} (hpos : 0 < blockSize) (content : Blob) : Disk where
  findFirst := fun _ => .error ERROR_PATH_NOT_FOUND
  access := fun _ _ => 0
  sopen := fun _ => some (.full hpos content)

/-- Rows of a file that had nine blocks or more, and rows of another file. -/
def stale : Tables where
  entries := .empty
  blocksDigests := ⟨[⟨1, 2, some [0]⟩, ⟨2, 1, some [4]⟩, ⟨1, 9, some [0]⟩, ⟨2, 5, none⟩, ⟨1, 1, none⟩], by decide⟩

/-- The file has three blocks now. -/
theorem updateBlocks_exact_iff_stale :
    ∃ ctx db', updateBlocks (.working .maxPlusOne) (contentDisk Nat.two_pos [1, 2, 3, 4, 5]) Cdc512.init ['f'] 1 2
        (Db.connect stale) = .ok (true, ctx) db' ∧
      (db'.tables.blocksDigests.Exactly 1 2 [1, 2, 3, 4, 5] ∧
        stale.blocksDigests.SameBut 1 db'.tables.blocksDigests ↔ stale.blocksDigests.Reached 1 [1, 2, 3, 4, 5]) :=
  updateBlocks_exact_iff (Sqlite.working_noFault _) Nat.two_pos rfl Cdc512.init 1 rfl

/-- The block row of a file that has been truncated to no bytes. -/
def truncated : Tables where
  entries := .empty
  blocksDigests := ⟨[⟨1, 1, some []⟩], by decide⟩

/-- `update_blocks` of the empty file returns true and keeps the row of its former first block. -/
theorem updateBlocks_not_exact :
    ¬∀ ctx db', updateBlocks (.working .maxPlusOne) (contentDisk fileBlockSize_pos []) Cdc512.init ['f'] 1
        fileBlockSize (Db.connect truncated) = .ok (true, ctx) db' →
      db'.tables.blocksDigests.Exactly 1 fileBlockSize [] := by
  intro h
  have hexact := h _ _ rfl
  obtain ⟨k, hk, hk', -⟩ := (hexact ⟨1, 1, some []⟩ rfl).mp (List.mem_singleton.mpr rfl)
  have hcount : blockCount fileBlockSize [] = 0 := by decide
  omega

end Spacenet
