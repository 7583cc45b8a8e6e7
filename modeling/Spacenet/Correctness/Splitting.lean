-- SUMMARY: What the file digest and the block rows keep of the lengths of the reads.
import Spacenet.Correctness.BlockRows

/-!
# Reads that do not fill the buffer

`update_blocks` fills the buffer with zeros behind a short read and hashes the
whole buffer, as a block and as a part of the file. The number of bytes that were
read is lost.
-/

namespace Spacenet

open Prog

/-! ## Buffers -/

/-- The buffers that are hashed. -/
def FileReads.buffers (blockSize : Nat) (reads : FileReads) : List Blob :=
  reads.chunks.map (zeroPad blockSize)

theorem fileContext_eq_buffers (blockSize : Nat) (reads : FileReads) (ctx : Cdc512) :
    fileContext blockSize reads.chunks ctx = (reads.buffers blockSize).foldl Cdc512.update ctx := by
  rw [FileReads.buffers, List.foldl_map]
  rfl

/-- The block rows depend on the buffers alone. -/
theorem Blocks.updateBlocks_congr {blockSize : Nat} (entryId : Nat) {chunks chunks' : List Blob}
    (h : chunks.map (zeroPad blockSize) = chunks'.map (zeroPad blockSize)) (blkNo : Nat) (t : Blocks) :
    t.updateBlocks entryId blockSize chunks blkNo = t.updateBlocks entryId blockSize chunks' blkNo := by
  induction chunks generalizing chunks' blkNo t with
  | nil =>
      rw [List.map_nil, eq_comm, List.map_eq_nil_iff] at h
      rw [h]
  | cons chunk chunks ih =>
      cases chunks' with
      | nil => cases h
      | cons chunk' chunks' =>
          rw [List.map_cons, List.map_cons] at h
          obtain ⟨hchunk, hchunks⟩ := List.cons.inj h
          simp only [updateBlocks, hchunk]
          exact ih hchunks _ _

/-- The reads of two files do not give distinct buffers with the same digest. -/
def FileReads.NoCollision (blockSize : Nat) (reads reads' : FileReads) : Prop :=
  ∀ buf ∈ reads.buffers blockSize, ∀ buf' ∈ reads'.buffers blockSize,
    cdc512 buf = cdc512 buf' → buf = buf'

theorem FileReads.NoCollision.symm {blockSize : Nat} {reads reads' : FileReads}
    (h : reads.NoCollision blockSize reads') : reads'.NoCollision blockSize reads :=
  fun buf hbuf buf' hbuf' heq => (h buf' hbuf' buf hbuf heq.symm).symm

/-- A buffer that is recorded for one file is the buffer of the same number of the other file. -/
theorem buffers_getElem?_of_rows {t : Blocks} {entryId blockSize : Nat} {reads reads' : FileReads}
    (hcollision : reads.NoCollision blockSize reads') (hne : reads'.chunks ≠ [])
    (hrows : ∀ b ∈ (t.updateBlocks entryId blockSize reads.chunks 1).rows,
      b ∈ (t.updateBlocks entryId blockSize reads'.chunks 1).rows)
    {i : Nat} {buf : Blob} (hbuf : (reads.buffers blockSize)[i]? = some buf) :
    (reads'.buffers blockSize)[i]? = some buf := by
  rw [FileReads.buffers, List.getElem?_map, Option.map_eq_some_iff] at hbuf
  obtain ⟨chunk, hchunk, rfl⟩ := hbuf
  have hstored := hrows _ (Blocks.mem_updateBlocks_block hchunk)
  rcases (Blocks.mem_updateBlocks hne).mp hstored with ⟨-, hno⟩ | ⟨j, chunk', hchunk', heq⟩
  · have hno := hno rfl
    simp only [Nat.cast_one] at hno
    omega
  · obtain ⟨-, hno, hdigest⟩ := BlockRow.mk.inj heq
    have hij : i = j := by omega
    rw [← hij] at hchunk'
    have hsame := hcollision _ (List.mem_map_of_mem (List.mem_of_getElem? hchunk)) _
      (List.mem_map_of_mem (List.mem_of_getElem? hchunk')) (Option.some.inj hdigest)
    rw [FileReads.buffers, List.getElem?_map, hchunk', Option.map_some, hsame]

theorem FileReads.chunks_eq_nil_iff (reads : FileReads) : reads.chunks = [] ↔ reads.bytes = [] := by
  constructor
  · intro h
    rw [bytes, h, List.flatten_nil]
  · intro h
    apply List.eq_nil_iff_forall_not_mem.mpr
    intro chunk hchunk
    exact reads.nonempty chunk hchunk (List.flatten_eq_nil_iff.mp h chunk hchunk)

theorem buffers_eq_of_rows {t : Blocks} {entryId blockSize : Nat} {reads reads' : FileReads}
    (hbytes : reads.bytes = reads'.bytes) (hcollision : reads.NoCollision blockSize reads')
    (hrows : (t.updateBlocks entryId blockSize reads.chunks 1).rows =
      (t.updateBlocks entryId blockSize reads'.chunks 1).rows) :
    reads.buffers blockSize = reads'.buffers blockSize := by
  by_cases hempty : reads.chunks = []
  · have hempty' : reads'.chunks = [] := by
      rw [FileReads.chunks_eq_nil_iff, ← hbytes, ← FileReads.chunks_eq_nil_iff]
      exact hempty
    rw [FileReads.buffers, FileReads.buffers, hempty, hempty']
  · have hne' : reads'.chunks ≠ [] := by
      rw [ne_eq, FileReads.chunks_eq_nil_iff, ← hbytes, ← FileReads.chunks_eq_nil_iff]
      exact hempty
    apply List.ext_getElem?
    intro i
    apply Option.ext
    intro buf
    constructor
    · exact buffers_getElem?_of_rows hcollision hne' (fun b hb => hrows ▸ hb)
    · exact buffers_getElem?_of_rows hcollision.symm hempty (fun b hb => hrows ▸ hb)

/-! ## Two ways to cut the bytes of a file -/

/-- `update_blocks` behind the reads of a file that opens. -/
theorem updateBlocks_run {sql : Sqlite} (hsql : sql.NoFault) {disk : Disk} {pathName : WString}
    {reads : FileReads} (hopen : disk.sopen pathName = some reads) (fileCtx : Cdc512)
    (entryId blockSize : Nat) {db : Db} (hdb : db.snapshot = none) :
    ∃ ctx db', updateBlocks sql disk fileCtx pathName entryId blockSize db = .ok (!reads.failed, ctx) db' ∧
      ctx = (reads.buffers blockSize).foldl Cdc512.update fileCtx ∧
      db'.tables = db.tables.updateBlocks entryId blockSize reads.chunks 1 := by
  have hwp : wp (updateBlocks sql disk fileCtx pathName entryId blockSize)
      (fun result db' => result = (!reads.failed, (reads.buffers blockSize).foldl Cdc512.update fileCtx) ∧
        db'.tables = db.tables.updateBlocks entryId blockSize reads.chunks 1)
      (fun _ _ => False) db := by
    refine wp_updateBlocks hsql.throws.losesNothing hdb ?_ ?_ ?_
    · intro hclosed
      rw [hopen] at hclosed
      cases hclosed
    · intro reads' log hreads
      obtain rfl := Option.some.inj (hopen.symm.trans hreads)
      rw [fileContext_eq_buffers]
      exact ⟨rfl, rfl⟩
    · intro e t log hfault _
      exact hfault hsql
  obtain ⟨⟨complete, ctx⟩, db', hrun, hresult, htables⟩ := hwp.returns
  obtain ⟨rfl, rfl⟩ := Prod.mk.inj hresult
  exact ⟨_, db', hrun, rfl, htables⟩

/-- The same bytes in two cuts, on the same database: with the same buffers, block rows and file
digest are the same. Where no two of the buffers have the same digest, block rows and file digest are
the same only with the same buffers. -/
theorem updateBlocks_cut_iff {sql : Sqlite} (hsql : sql.NoFault) {disk disk' : Disk} {pathName : WString}
    {reads reads' : FileReads} (hopen : disk.sopen pathName = some reads)
    (hopen' : disk'.sopen pathName = some reads') (hbytes : reads.bytes = reads'.bytes)
    (fileCtx : Cdc512) (entryId blockSize : Nat) {db : Db} (hdb : db.snapshot = none) :
    ∃ ctx db₁ ctx' db₂,
      updateBlocks sql disk fileCtx pathName entryId blockSize db = .ok (!reads.failed, ctx) db₁ ∧
      updateBlocks sql disk' fileCtx pathName entryId blockSize db = .ok (!reads'.failed, ctx') db₂ ∧
      (reads.buffers blockSize = reads'.buffers blockSize →
        db₁.tables.blocksDigests.rows = db₂.tables.blocksDigests.rows ∧
          ctx.finish.digest = ctx'.finish.digest) ∧
      (reads.NoCollision blockSize reads' →
        db₁.tables.blocksDigests.rows = db₂.tables.blocksDigests.rows ∧
            ctx.finish.digest = ctx'.finish.digest →
          reads.buffers blockSize = reads'.buffers blockSize) := by
  obtain ⟨ctx, db₁, hrun, hctx, htables⟩ := updateBlocks_run hsql hopen fileCtx entryId blockSize hdb
  obtain ⟨ctx', db₂, hrun', hctx', htables'⟩ :=
    updateBlocks_run hsql hopen' fileCtx entryId blockSize hdb
  refine ⟨ctx, db₁, ctx', db₂, hrun, hrun', ?_, ?_⟩
  · intro hbuffers
    rw [htables, htables', hctx, hctx', hbuffers]
    refine ⟨?_, rfl⟩
    exact congrArg Blocks.rows (Blocks.updateBlocks_congr entryId hbuffers 1 _)
  · rintro hcollision ⟨hrows, -⟩
    rw [htables, htables'] at hrows
    exact buffers_eq_of_rows hbytes hcollision hrows

/-- A disk on which every file gives the same reads. -/
def readsDisk (reads : FileReads) : Disk where
  findFirst := fun _ => .error ERROR_PATH_NOT_FOUND
  access := fun _ _ => 0
  sopen := fun _ => some reads

/-- Two bytes in one read. -/
def readAtOnce : FileReads := ⟨[[1, 2]], false, by decide⟩

/-- Two bytes in two reads. -/
def readInPieces : FileReads := ⟨[[1], [2]], false, by decide⟩

theorem updateBlocks_cut_iff_two :
    ∃ ctx db₁ ctx' db₂,
      updateBlocks (.working .maxPlusOne) (readsDisk readAtOnce) Cdc512.init ['f'] 1 fileBlockSize
        (Db.connect .empty) = .ok (!readAtOnce.failed, ctx) db₁ ∧
      updateBlocks (.working .maxPlusOne) (readsDisk readInPieces) Cdc512.init ['f'] 1 fileBlockSize
        (Db.connect .empty) = .ok (!readInPieces.failed, ctx') db₂ ∧
      (readAtOnce.buffers fileBlockSize = readInPieces.buffers fileBlockSize →
        db₁.tables.blocksDigests.rows = db₂.tables.blocksDigests.rows ∧
          ctx.finish.digest = ctx'.finish.digest) ∧
      (readAtOnce.NoCollision fileBlockSize readInPieces →
        db₁.tables.blocksDigests.rows = db₂.tables.blocksDigests.rows ∧
            ctx.finish.digest = ctx'.finish.digest →
          readAtOnce.buffers fileBlockSize = readInPieces.buffers fileBlockSize) :=
  updateBlocks_cut_iff (Sqlite.working_noFault _)
    (show (readsDisk readAtOnce).sopen ['f'] = some readAtOnce from rfl)
    (show (readsDisk readInPieces).sopen ['f'] = some readInPieces from rfl) (by decide) Cdc512.init 1
    fileBlockSize rfl

/-- The second read is recorded as a second block. -/
theorem updateBlocks_cut_matters :
    ¬∀ reads reads' : FileReads, reads.bytes = reads'.bytes →
      (∀ chunk ∈ reads.chunks, chunk.length ≤ fileBlockSize) →
      (∀ chunk ∈ reads'.chunks, chunk.length ≤ fileBlockSize) → ∀ ctx db₁ ctx' db₂,
      updateBlocks (.working .maxPlusOne) (readsDisk reads) Cdc512.init ['f'] 1 fileBlockSize
        (Db.connect .empty) = .ok (true, ctx) db₁ →
      updateBlocks (.working .maxPlusOne) (readsDisk reads') Cdc512.init ['f'] 1 fileBlockSize
        (Db.connect .empty) = .ok (true, ctx') db₂ →
      db₁.tables.blocksDigests.rows = db₂.tables.blocksDigests.rows ∧
        ctx.finish.digest = ctx'.finish.digest := by
  intro h
  have hrun := fun reads => updateBlocks_run (Sqlite.working_noFault .maxPlusOne)
    (show (readsDisk reads).sopen ['f'] = some reads from rfl) Cdc512.init 1 fileBlockSize
    (show (Db.connect .empty).snapshot = none from rfl)
  obtain ⟨ctx, db₁, hrun₁, -, htables₁⟩ := hrun readAtOnce
  obtain ⟨ctx', db₂, hrun₂, -, htables₂⟩ := hrun readInPieces
  obtain ⟨hrows, -⟩ := h readAtOnce readInPieces (by decide) (by decide) (by decide) ctx db₁ ctx' db₂
    hrun₁ hrun₂
  have hsecond : (⟨1, (2 : Nat), some (cdc512 (zeroPad fileBlockSize [2]))⟩ : BlockRow) ∈
      db₂.tables.blocksDigests.rows := by
    rw [htables₂]
    exact Blocks.mem_updateBlocks_block (show readInPieces.chunks[1]? = some [2] from rfl)
  rw [← hrows, htables₁] at hsecond
  rcases (Blocks.mem_updateBlocks (show readAtOnce.chunks ≠ [] by decide)).mp hsecond with
    ⟨hmem, -⟩ | ⟨i, chunk, hchunk, heq⟩
  · cases hmem
  · obtain ⟨hi, -⟩ := List.getElem?_eq_some_iff.mp hchunk
    obtain ⟨-, hno, -⟩ := BlockRow.mk.inj heq
    have hlength : readAtOnce.chunks.length = 1 := rfl
    omega

/-! ## Zeros behind the content -/

theorem padded_append_zeros {blockSize : Nat} (hpos : 0 < blockSize) {content : Blob} {k : Nat}
    (h : blockCount blockSize (content ++ List.replicate k 0) = blockCount blockSize content) :
    padded blockSize (content ++ List.replicate k 0) = padded blockSize content := by
  have hlength : (content ++ List.replicate k 0).length = content.length + k := by
    rw [List.length_append, List.length_replicate]
  have hroom : content.length + k ≤ blockCount blockSize content * blockSize := by
    have hno : ¬blockCount blockSize content < blockCount blockSize (content ++ List.replicate k 0) := by
      omega
    rw [lt_blockCount hpos] at hno
    omega
  have hzeros : k + (blockCount blockSize content * blockSize - (content.length + k)) =
      blockCount blockSize content * blockSize - content.length := by omega
  rw [padded, padded, h, hlength, List.append_assoc, List.replicate_append_replicate, hzeros]

/-- The file digest of a file that is read by full blocks. -/
theorem updateBlocks_digest_eq {sql : Sqlite} (hsql : sql.NoFault) {disk : Disk} {pathName : WString}
    {reads : FileReads} (hopen : disk.sopen pathName = some reads) (hcomplete : reads.failed = false)
    (hfull : reads.FullBlocks fileBlockSize) (entryId : Nat) {db : Db} (hdb : db.snapshot = none) :
    ∃ ctx db', updateBlocks sql disk Cdc512.init pathName entryId fileBlockSize db = .ok (true, ctx) db' ∧
      ctx.finish.digest = cdc512 (padded fileBlockSize reads.bytes) := by
  obtain ⟨ctx, db', hrun, hctx, -⟩ := updateBlocks_run hsql hopen Cdc512.init entryId fileBlockSize hdb
  rw [hcomplete] at hrun
  refine ⟨ctx, db', hrun, ?_⟩
  rw [hctx, ← fileContext_eq_buffers]
  exact hfull.digest_eq fileBlockSize_pos size_dvd_fileBlockSize

/-- Two files that are read by full blocks, the second with zeros behind the content of the first and
the same number of blocks: `update_blocks` returns true for both and the file digests are equal. -/
theorem updateBlocks_append_zeros {sql : Sqlite} (hsql : sql.NoFault) {disk disk' : Disk}
    {pathName pathName' : WString} {reads reads' : FileReads} (hopen : disk.sopen pathName = some reads)
    (hopen' : disk'.sopen pathName' = some reads') (hcomplete : reads.failed = false)
    (hcomplete' : reads'.failed = false) (hfull : reads.FullBlocks fileBlockSize)
    (hfull' : reads'.FullBlocks fileBlockSize) {k : Nat}
    (hbytes : reads'.bytes = reads.bytes ++ List.replicate k 0)
    (hblocks : blockCount fileBlockSize reads'.bytes = blockCount fileBlockSize reads.bytes)
    (entryId entryId' : Nat) {db db' : Db} (hdb : db.snapshot = none) (hdb' : db'.snapshot = none) :
    ∃ ctx db₁ ctx' db₂,
      updateBlocks sql disk Cdc512.init pathName entryId fileBlockSize db = .ok (true, ctx) db₁ ∧
      updateBlocks sql disk' Cdc512.init pathName' entryId' fileBlockSize db' = .ok (true, ctx') db₂ ∧
      ctx.finish.digest = ctx'.finish.digest := by
  obtain ⟨ctx, db₁, hrun, hdigest⟩ := updateBlocks_digest_eq hsql hopen hcomplete hfull entryId hdb
  obtain ⟨ctx', db₂, hrun', hdigest'⟩ := updateBlocks_digest_eq hsql hopen' hcomplete' hfull' entryId' hdb'
  refine ⟨ctx, db₁, ctx', db₂, hrun, hrun', ?_⟩
  rw [hbytes] at hblocks hdigest'
  rw [hdigest, hdigest', padded_append_zeros fileBlockSize_pos hblocks]

/-- A byte, and the byte with a zero behind it. -/
def oneByte : FileReads := ⟨[[1]], false, by decide⟩

def oneByteAndZero : FileReads := ⟨[[1, 0]], false, by decide⟩

theorem updateBlocks_append_zeros_one :
    ∃ ctx db₁ ctx' db₂,
      updateBlocks (.working .maxPlusOne) (readsDisk oneByte) Cdc512.init ['f'] 1 fileBlockSize
        (Db.connect .empty) = .ok (true, ctx) db₁ ∧
      updateBlocks (.working .maxPlusOne) (readsDisk oneByteAndZero) Cdc512.init ['f'] 1 fileBlockSize
        (Db.connect .empty) = .ok (true, ctx') db₂ ∧
      ctx.finish.digest = ctx'.finish.digest :=
  updateBlocks_append_zeros (k := 1) (Sqlite.working_noFault _)
    (show (readsDisk oneByte).sopen ['f'] = some oneByte from rfl)
    (show (readsDisk oneByteAndZero).sopen ['f'] = some oneByteAndZero from rfl) rfl rfl
    ⟨by decide, by decide⟩ ⟨by decide, by decide⟩ (by decide) (by decide) 1 1 rfl rfl

/-- The zero behind the byte leaves the file digest as it is. -/
theorem updateBlocks_length_unnoticed :
    ¬∀ (reads reads' : FileReads) (k : Nat), reads.FullBlocks fileBlockSize →
      reads'.FullBlocks fileBlockSize → 1 ≤ k → reads.bytes ≠ [] →
      reads'.bytes = reads.bytes ++ List.replicate k 0 →
      blockCount fileBlockSize reads'.bytes = blockCount fileBlockSize reads.bytes →
      ∀ ctx db₁ ctx' db₂,
      updateBlocks (.working .maxPlusOne) (readsDisk reads) Cdc512.init ['f'] 1 fileBlockSize
        (Db.connect .empty) = .ok (true, ctx) db₁ →
      updateBlocks (.working .maxPlusOne) (readsDisk reads') Cdc512.init ['f'] 1 fileBlockSize
        (Db.connect .empty) = .ok (true, ctx') db₂ →
      ctx.finish.digest ≠ ctx'.finish.digest := by
  intro h
  have hrun := fun reads hcomplete hfull => updateBlocks_digest_eq (Sqlite.working_noFault .maxPlusOne)
    (show (readsDisk reads).sopen ['f'] = some reads from rfl) hcomplete hfull 1
    (show (Db.connect .empty).snapshot = none from rfl)
  obtain ⟨ctx, db₁, hrun₁, hdigest₁⟩ := hrun oneByte rfl ⟨by decide, by decide⟩
  obtain ⟨ctx', db₂, hrun₂, hdigest₂⟩ := hrun oneByteAndZero rfl ⟨by decide, by decide⟩
  apply h oneByte oneByteAndZero 1 ⟨by decide, by decide⟩ ⟨by decide, by decide⟩ (Nat.le_refl 1)
    (by decide) (by decide) (by decide) ctx db₁ ctx' db₂ hrun₁ hrun₂
  have hpadded : padded fileBlockSize ([1] ++ List.replicate 1 0) = padded fileBlockSize [1] :=
    padded_append_zeros (by decide) (by decide)
  rw [hdigest₁, hdigest₂]
  exact congrArg cdc512 hpadded.symm

end Spacenet
