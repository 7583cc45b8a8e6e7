-- SUMMARY: The first run on an empty database: which files get a digest, an mtime and a size.
import Spacenet.Effect.Accessible
import Spacenet.Effect.Columns

/-!
# The first run

On an empty database every row is inserted, with a NULL mtime. The callback reads
that as 0 and compares it with `fmtim`, so that the file whose time is 0 is taken
for unmodified.
-/

namespace Spacenet

open Prog

/-- The row has a digest, and the time and the size of the file. -/
structure EntryRow.Indexes (info : FileInfo) (r : EntryRow) : Prop where
  digest : r.digest ≠ none
  mtime : r.mtime = some info.stat.fmtim
  fileSize : r.fileSize = if info.stat.fsize = 0 then none else some info.stat.fsize

/-- The file opens and is read in full. -/
def FileInfo.Reads (info : FileInfo) : Prop :=
  ∃ reads, info.content = some reads ∧ reads.failed = false

/-- The row that a new file gets. -/
theorem Record.row_indexes_iff {c : Call} {info : FileInfo} (hnode : c.node = .file info)
    (hreads : info.Reads) (parentId rowid : Nat) :
    (c.record.row true parentId rowid none).Indexes info ↔ info.stat.fmtim ≠ 0 := by
  obtain ⟨reads, hcontent, hfailed⟩ := hreads
  obtain ⟨hisDir, hrecReads⟩ := Call.record_file hnode
  have hfmtim : c.record.fmtim = info.stat.fmtim := by
    rw [Call.record_fmtim, hnode]
    rfl
  have hfsize : c.record.fsize = info.stat.fsize := by
    rw [Call.record_fsize, hnode]
    rfl
  have hhashed : c.record.hashed true 0 ↔ info.stat.fmtim ≠ 0 := by
    simp [Record.hashed, hisDir, hfmtim, eq_comm]
  constructor
  · intro h hzero
    apply h.digest
    have hnot : ¬c.record.hashed true 0 := fun hh => hhashed.mp hh hzero
    have hnone := Record.digest_eq_none hnot
    simp only [Record.row, Record.after_of_none hnone]
    rfl
  · intro hne
    have hsome := Record.digest_eq_some.mpr ⟨hhashed.mpr hne, reads, hrecReads.trans hcontent, hfailed, rfl⟩
    simp only [Record.row, Record.after_of_some hsome]
    refine ⟨?_, ?_, ?_⟩
    · simp [EntryRow.updAfter]
    · simp only [EntryRow.updAfter, hfmtim]
    · simp only [EntryRow.updAfter, EntryParams.row, Record.params, entryParams, hfsize]

theorem EntryRow.revived_indexes_iff {info : FileInfo} {r : EntryRow} :
    r.revived.Indexes info ↔ r.Indexes info :=
  ⟨fun h => ⟨h.digest, h.mtime, h.fileSize⟩, fun h => ⟨h.digest, h.mtime, h.fileSize⟩⟩

/-- A file of one byte that was last written at the Unix epoch. -/
def epochTree : Tree where
  info := .plain
  entries := .file ['f'] (.plain ⟨0xD53E8000, 0x019DB1DE⟩ [7]) .nil
  wf := by decide

end Spacenet
