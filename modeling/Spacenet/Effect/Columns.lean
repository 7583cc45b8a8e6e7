-- SUMMARY: The columns of the row that a record leaves: when the row is touched, rewritten, or given an mtime and a digest.
import Spacenet.Effect.Visits

/-!
# The columns of a recorded row

A record touches the row stored before, or rewrites it and clears its digest. A
file that is hashed and read to its end gets its mtime and its digest in one
statement.
-/

namespace Spacenet

/-! ## The data of an entry -/

/-- The write time in nanoseconds since 1970, modulo 2^64. -/
def Stat.fmtim (stat : Stat) : U64 :=
  (unpackFILETIME stat.ftLastWriteTime).1 * 1000000000 +
    (unpackFILETIME stat.ftLastWriteTime).2.setWidth 64

def Stat.fsize (stat : Stat) : U64 :=
  stat.nFileSizeHigh.setWidth 64 <<< 32 ||| stat.nFileSizeLow.setWidth 64

def Node.stat : Node → Stat
  | .file info => info.stat
  | .dir info _ => info.stat

theorem Call.record_fmtim (c : Call) : c.record.fmtim = c.node.stat.fmtim := by
  cases hnode : c.node <;>
    simp [Call.record, Call.reader, DirectoryReader.publish, DirectoryReader.fmtim, Node.findData,
      hnode, Node.stat, Stat.fmtim]

theorem Call.record_fsize (c : Call) : c.record.fsize = c.node.stat.fsize := by
  cases hnode : c.node <;>
    simp [Call.record, Call.reader, DirectoryReader.publish, Node.findData, hnode, Node.stat, Stat.fsize]

theorem Call.record_file {c : Call} {info : FileInfo} (h : c.node = .file info) :
    c.record.isDir = false ∧ c.record.reads = info.content := by
  simp [Call.record, Call.reader, DirectoryReader.publish, Node.findData, h]

theorem Call.record_dir {c : Call} {info : DirInfo} {entries : Forest} (h : c.node = .dir info entries) :
    c.record.isDir = true ∧ c.record.reads = none := by
  simp [Call.record, Call.reader, DirectoryReader.publish, Node.findData, h]

/-! ## The digest -/

/-- The digest of what a file gives. -/
def FileReads.digest (reads : FileReads) : Blob :=
  (fileContext fileBlockSize reads.chunks Cdc512.init).finish.digest

namespace Record

variable {modifiedOnly : Bool} {rec : Record} {mtim : U64} {parentId rowid : Nat} {r : EntryRow}

/-- A digest is recorded for a file that is hashed and read to its end. -/
theorem digest_eq_some {digest : Blob} :
    rec.digest modifiedOnly mtim = some digest ↔ rec.hashed modifiedOnly mtim ∧
      ∃ reads, rec.reads = some reads ∧ reads.failed = false ∧
        digest = (fileContext rec.blockSize reads.chunks Cdc512.init).finish.digest := by
  unfold Record.digest
  split
  · next hhashed =>
      cases hreads : rec.reads with
      | none => simp [hhashed]
      | some reads =>
          cases hfailed : reads.failed with
          | true => simp [hhashed, hfailed]
          | false =>
              simp only [hfailed, Bool.false_eq_true, if_false, Option.some.injEq]
              constructor
              · intro hdigest
                exact ⟨hhashed, reads, rfl, hfailed, hdigest.symm⟩
              · rintro ⟨-, reads', hreads', -, rfl⟩
                rw [hreads']
  · next hhashed => simp [hhashed]

theorem digest_eq_none (h : ¬rec.hashed modifiedOnly mtim) : rec.digest modifiedOnly mtim = none :=
  if_neg h

theorem after_of_none (h : rec.digest modifiedOnly mtim = none) :
    rec.after modifiedOnly mtim r = r := by
  simp only [after, h]

theorem after_of_some {digest : Blob} (h : rec.digest modifiedOnly mtim = some digest) :
    rec.after modifiedOnly mtim r = r.updAfter rec.fmtim digest := by
  simp only [after, h]

/-! ## The row -/

/-- The digest of the record when nothing is skipped. -/
def fileDigest (rec : Record) : Option Blob := rec.digest false 0

theorem hashed_all : rec.hashed false mtim ↔ rec.isDir = false := by
  simp [hashed]

theorem digest_of_hashed_iff {modifiedOnly' : Bool} {mtim' : U64}
    (h : rec.hashed modifiedOnly mtim ↔ rec.hashed modifiedOnly' mtim') :
    rec.digest modifiedOnly mtim = rec.digest modifiedOnly' mtim' := by
  simp only [digest, h]

/-- The columns that the record determines. -/
structure Columns (rec : Record) (r : EntryRow) : Prop where
  isDir : r.isDir = if rec.isDir then some true else none
  fileSize : r.fileSize = if rec.fsize = 0 then none else some rec.fsize
  digest : r.digest = rec.fileDigest

/-- The record rewrites the row `old`: every column but mtime is new, and mtime is when there is a
digest. -/
structure Rewrites (rec : Record) (old : Option EntryRow) (r : EntryRow) : Prop where
  columns : rec.Columns r
  mtime : r.mtime = if rec.fileDigest.isSome then some rec.fmtim else old.bind EntryRow.mtime

variable {old : Option EntryRow}

theorem rewrites_after (hisDir : r.isDir = if rec.isDir then some true else none)
    (hfileSize : r.fileSize = if rec.fsize = 0 then none else some rec.fsize)
    (hdigest : r.digest = none) (hmtime : r.mtime = old.bind EntryRow.mtime)
    (hfile : rec.digest modifiedOnly mtim = rec.fileDigest) :
    rec.Rewrites old (rec.after modifiedOnly mtim r) := by
  cases hd : rec.digest modifiedOnly mtim with
  | none =>
      rw [after_of_none hd]
      rw [hfile] at hd
      refine ⟨⟨hisDir, hfileSize, ?_⟩, ?_⟩
      · rw [hdigest, hd]
      · rw [hmtime, hd]
        rfl
  | some digest =>
      rw [after_of_some hd]
      rw [hfile] at hd
      refine ⟨⟨hisDir, hfileSize, ?_⟩, ?_⟩
      · rw [hd]
        rfl
      · rw [hd]
        rfl

/-- A run that skips nothing rewrites every row. -/
theorem row_rewrites (rec : Record) (parentId rowid : Nat) (old : Option EntryRow) :
    rec.Rewrites old (rec.row false parentId rowid old) := by
  have hfile : ∀ mtim, rec.digest false mtim = rec.fileDigest :=
    fun mtim => digest_of_hashed_iff (hashed_all.trans hashed_all.symm)
  cases old with
  | none => exact rewrites_after rfl rfl rfl rfl (hfile _)
  | some r =>
      have hupd : r.updateEntry false (rec.params parentId) rec.fmtim = r.upd (rec.params parentId) :=
        if_neg (by simp)
      simp only [row, hupd]
      exact rewrites_after rfl rfl rfl rfl (hfile _)

/-- A run that skips touches the row whose mtime is that of the entry, and rewrites every other. -/
theorem row_skipping (hfmtim : rec.fmtim ≠ 0) (parentId rowid : Nat) (old : Option EntryRow) :
    (∃ r, old = some r ∧ r.mtime = some rec.fmtim ∧ rec.row true parentId rowid old = r.touch) ∨
      rec.Rewrites old (rec.row true parentId rowid old) ∧
        ∀ r, old = some r → r.mtime ≠ some rec.fmtim := by
  have hfile : ∀ mtim, mtim ≠ rec.fmtim → rec.digest true mtim = rec.fileDigest := by
    intro mtim hne
    refine digest_of_hashed_iff (Iff.trans ?_ hashed_all.symm)
    simp [hashed, hne]
  cases old with
  | none =>
      refine .inr ⟨?_, fun r hr => by cases hr⟩
      exact rewrites_after rfl rfl rfl rfl (hfile 0 hfmtim.symm)
  | some r =>
      have hmtime : r.mtime.getD 0 = rec.fmtim ↔ r.mtime = some rec.fmtim := by
        cases hm : r.mtime with
        | none =>
            constructor
            · intro hzero
              exact absurd hzero.symm hfmtim
            · intro hmtime
              cases hmtime
        | some mtime => simp
      by_cases hsame : r.mtime = some rec.fmtim
      · left
        refine ⟨r, rfl, hsame, ?_⟩
        have htouch : r.updateEntry true (rec.params parentId) rec.fmtim = r.touch :=
          if_pos ⟨rfl, .inl (hmtime.mpr hsame)⟩
        have hnot : ¬rec.hashed true (r.mtime.getD 0) := by
          intro hhashed
          rcases hhashed.2 with hall | hmtim
          · exact absurd rfl hall
          · exact hmtim (hmtime.mpr hsame)
        simp only [row, htouch]
        exact after_of_none (digest_eq_none hnot)
      · right
        refine ⟨?_, fun r' hr' => by cases hr'; exact hsame⟩
        have hupd : r.updateEntry true (rec.params parentId) rec.fmtim = r.upd (rec.params parentId) := by
          refine if_neg ?_
          rintro ⟨-, hm | hzero⟩
          · exact hsame (hmtime.mp hm)
          · exact hfmtim hzero
        simp only [row, hupd]
        exact rewrites_after rfl rfl rfl rfl (hfile _ (fun hm => hsame (hmtime.mp hm)))

/-- The row of the root: rewritten, or touched when it is skipped. -/
theorem row_root (path : WString) (parentId rowid : Nat) (old : Option EntryRow) :
    (∃ r, old = some r ∧ (root path).row true parentId rowid old = r.touch) ∨
      old = none ∧ (root path).Rewrites none ((root path).row true parentId rowid none) := by
  cases old with
  | none => exact .inr ⟨rfl, rewrites_after rfl rfl rfl rfl rfl⟩
  | some r =>
      left
      refine ⟨r, rfl, ?_⟩
      have htouch : r.updateEntry true ((root path).params parentId) (root path).fmtim = r.touch :=
        if_pos ⟨rfl, .inr rfl⟩
      have hnot : ¬(root path).hashed true (r.mtime.getD 0) := by
        simp [hashed, root]
      simp only [row, htouch]
      exact after_of_none (digest_eq_none hnot)

end Record

end Spacenet
