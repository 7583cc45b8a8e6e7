-- SUMMARY: What `update_block_digest` and `update_blocks` do to the table `blocks_digests`, and the proof that the programs do it.
import Spacenet.Indexer
import Spacenet.Sqlite.Execution

/-!
# The effect of update_blocks

`update_blocks` rewrites the block rows of one entry, block by block. Behind the
block `k` the rows of the entry are the rows below the first block, the blocks up
to `k`, and nothing above. The rows of other entries and the table `entries` stay
as they are at every point.
-/

namespace Spacenet

open Prog UniqueKey

namespace Blocks

/-- The table behind `update_block_digest`. -/
def updateBlockDigest (entryId blkNo : Nat) (blockDigest : Blob) (t : Blocks) : Blocks :=
  if h : t.find entryId blkNo = none then t.insert ⟨entryId, blkNo, some blockDigest⟩ h
  else t.upd entryId blkNo blockDigest

/-- The table behind the loop of `update_blocks`, entered with the block number `blkNo`. -/
def updateBlocks (entryId blockSize : Nat) : List Blob → Nat → Blocks → Blocks
  | [], _, t => t
  | chunk :: chunks, blkNo, t =>
      updateBlocks entryId blockSize chunks (blkNo + 1)
        ((t.updateBlockDigest entryId blkNo (cdc512 (zeroPad blockSize chunk))).deleteAbove entryId blkNo)

variable {t : Blocks} {entryId : Nat}

theorem mem_updateBlockDigest {blkNo : Nat} {blockDigest : Blob} {b : BlockRow} :
    b ∈ (t.updateBlockDigest entryId blkNo blockDigest).rows ↔
      (b ∈ t.rows ∧ ¬(b.entryId = entryId ∧ b.blockNo = blkNo)) ∨
        b = ⟨entryId, blkNo, some blockDigest⟩ := by
  have hkey : ∀ q : BlockRow, q.key = (entryId, (blkNo : Int)) ↔
      q.entryId = entryId ∧ q.blockNo = blkNo := fun q => Prod.mk_inj
  rw [← hkey]
  unfold updateBlockDigest
  split
  · next hnone => exact mem_append_new (lookup_eq_none.mp hnone)
  · next hsome =>
      obtain ⟨r, hfind⟩ := Option.ne_none_iff_exists'.mp hsome
      obtain ⟨hr, hr'⟩ := t.keyUnique.lookup_eq_some.mp hfind
      have hupd : r.upd blockDigest = ⟨entryId, blkNo, some blockDigest⟩ := by
        obtain ⟨hid, hno⟩ := (hkey r).mp hr'
        simp only [BlockRow.upd, hid, hno]
      rw [← hupd]
      exact t.keyUnique.mem_modify_key hr hr' (fun q => decide_eq_true_iff.trans (hkey q).symm)

/-- A block row that is stored with the digest stays as it is. -/
theorem updateBlockDigest_of_mem {blkNo : Nat} {blockDigest : Blob}
    (h : ⟨entryId, blkNo, some blockDigest⟩ ∈ t.rows) :
    t.updateBlockDigest entryId blkNo blockDigest = t := by
  have hfind : t.find entryId blkNo ≠ none := fun hnone => find_eq_none.mp hnone _ h rfl rfl
  rw [updateBlockDigest, dif_neg hfind]
  apply Blocks.ext
  refine (List.map_congr_left (fun b hb => ?_)).trans (List.map_id t.rows)
  split
  · next hkey =>
      obtain ⟨hid, hno⟩ := of_decide_eq_true hkey
      have hsame : b = ⟨entryId, blkNo, some blockDigest⟩ :=
        t.keyUnique.eq_of_key hb h (Prod.ext hid hno)
      rw [hsame]
      rfl
  · rfl

theorem mem_deleteAbove {blkNo : Nat} {b : BlockRow} :
    b ∈ (t.deleteAbove entryId blkNo).rows ↔
      b ∈ t.rows ∧ ¬(b.entryId = entryId ∧ b.blockNo > blkNo) := by
  simp only [deleteAbove, filter, List.mem_filter, decide_eq_true_eq]

/-- One round of the loop: the block replaces every row of the entry from its number on. -/
theorem mem_updateBlock {blkNo : Nat} {blockDigest : Blob} {b : BlockRow} :
    b ∈ ((t.updateBlockDigest entryId blkNo blockDigest).deleteAbove entryId blkNo).rows ↔
      (b ∈ t.rows ∧ (b.entryId = entryId → b.blockNo < blkNo)) ∨
        b = ⟨entryId, blkNo, some blockDigest⟩ := by
  rw [mem_deleteAbove, mem_updateBlockDigest]
  constructor
  · rintro ⟨⟨hb, hk⟩ | rfl, habove⟩
    · refine .inl ⟨hb, fun hid => ?_⟩
      have h₁ : b.blockNo ≠ blkNo := fun hno => hk ⟨hid, hno⟩
      have h₂ : ¬b.blockNo > blkNo := fun hno => habove ⟨hid, hno⟩
      omega
    · exact .inr rfl
  · rintro (⟨hb, hlt⟩ | rfl)
    · refine ⟨.inl ⟨hb, fun hk => ?_⟩, fun hk => ?_⟩
      · have := hlt hk.1
        omega
      · have := hlt hk.1
        omega
    · refine ⟨.inr rfl, fun hk => ?_⟩
      exact absurd hk.2 (Int.lt_irrefl _)

/-- The rows of an entry behind `update_blocks`. The blocks of the file replace every row from the
first block on. -/
theorem mem_updateBlocks {blockSize : Nat} {chunks : List Blob} (hne : chunks ≠ []) {blkNo : Nat}
    {b : BlockRow} :
    b ∈ (t.updateBlocks entryId blockSize chunks blkNo).rows ↔
      (b ∈ t.rows ∧ (b.entryId = entryId → b.blockNo < blkNo)) ∨
        ∃ i chunk, chunks[i]? = some chunk ∧
          b = ⟨entryId, (blkNo + i : Nat), some (cdc512 (zeroPad blockSize chunk))⟩ := by
  induction chunks generalizing blkNo t with
  | nil => exact absurd rfl hne
  | cons chunk chunks ih =>
      simp only [updateBlocks]
      cases hchunks : chunks with
      | nil =>
          simp only [updateBlocks, mem_updateBlock]
          constructor
          · rintro (h | rfl)
            · exact .inl h
            · exact .inr ⟨0, chunk, rfl, rfl⟩
          · rintro (h | ⟨i, c, hc, rfl⟩)
            · exact .inl h
            · cases i with
              | zero =>
                  cases hc
                  exact .inr rfl
              | succ i => cases hc
      | cons chunk' chunks' =>
          rw [← hchunks, ih (by simp [hchunks])]
          simp only [mem_updateBlock]
          constructor
          · rintro (⟨⟨hb, hlt⟩ | rfl, -⟩ | ⟨i, c, hc, rfl⟩)
            · exact .inl ⟨hb, hlt⟩
            · exact .inr ⟨0, chunk, rfl, rfl⟩
            · refine .inr ⟨i + 1, c, hc, ?_⟩
              rw [Nat.add_assoc, Nat.add_comm 1 i]
          · rintro (⟨hb, hlt⟩ | ⟨i, c, hc, rfl⟩)
            · refine .inl ⟨.inl ⟨hb, hlt⟩, fun hid => ?_⟩
              have := hlt hid
              omega
            · cases i with
              | zero =>
                  cases hc
                  refine .inl ⟨.inr rfl, fun _ => ?_⟩
                  simp only [Nat.add_zero]
                  omega
              | succ i =>
                  refine .inr ⟨i, c, hc, ?_⟩
                  rw [Nat.add_assoc, Nat.add_comm 1 i]

/-- Every block that was read is stored. -/
theorem mem_updateBlocks_block {blockSize : Nat} {chunks : List Blob} {i : Nat} {chunk : Blob}
    (h : chunks[i]? = some chunk) :
    ⟨entryId, (i + 1 : Nat), some (cdc512 (zeroPad blockSize chunk))⟩ ∈
      (t.updateBlocks entryId blockSize chunks 1).rows := by
  have hne : chunks ≠ [] := by
    rintro rfl
    cases h
  refine (mem_updateBlocks hne).mpr (.inr ⟨i, chunk, h, ?_⟩)
  rw [Nat.add_comm]

/-- The rows of the entry behind `update_blocks` depend on its rows before alone. -/
theorem mem_updateBlocks_congr {t' : Blocks} (h : ∀ b : BlockRow, b.entryId = entryId →
    (b ∈ t.rows ↔ b ∈ t'.rows)) {blockSize : Nat} {chunks : List Blob} {blkNo : Nat} {b : BlockRow}
    (hb : b.entryId = entryId) :
    b ∈ (t.updateBlocks entryId blockSize chunks blkNo).rows ↔
      b ∈ (t'.updateBlocks entryId blockSize chunks blkNo).rows := by
  cases chunks with
  | nil => exact h b hb
  | cons chunk chunks =>
      rw [mem_updateBlocks (List.cons_ne_nil _ _), mem_updateBlocks (List.cons_ne_nil _ _), h b hb]

/-- The rows of other entries are the same. -/
def SameBut (entryId : Nat) (t t' : Blocks) : Prop :=
  ∀ b : BlockRow, b.entryId ≠ entryId → (b ∈ t'.rows ↔ b ∈ t.rows)

theorem SameBut.refl (entryId : Nat) (t : Blocks) : SameBut entryId t t := fun _ _ => Iff.rfl

theorem SameBut.trans {t t' t'' : Blocks} (h : SameBut entryId t t')
    (h' : SameBut entryId t' t'') : SameBut entryId t t'' :=
  fun b hb => (h' b hb).trans (h b hb)

theorem updateBlockDigest_sameBut (blkNo : Nat) (blockDigest : Blob) :
    SameBut entryId t (t.updateBlockDigest entryId blkNo blockDigest) := by
  intro b hb
  rw [mem_updateBlockDigest]
  constructor
  · rintro (h | rfl)
    · exact h.1
    · exact absurd rfl hb
  · intro h
    exact .inl ⟨h, fun hk => hb hk.1⟩

theorem deleteAbove_sameBut (blkNo : Nat) : SameBut entryId t (t.deleteAbove entryId blkNo) := by
  intro b hb
  rw [mem_deleteAbove]
  constructor
  · exact fun h => h.1
  · exact fun h => ⟨h, fun hk => hb hk.1⟩

theorem updateBlocks_sameBut (blockSize : Nat) (chunks : List Blob) (blkNo : Nat) (t : Blocks) :
    SameBut entryId t (t.updateBlocks entryId blockSize chunks blkNo) := by
  induction chunks generalizing blkNo t with
  | nil => exact .refl _ _
  | cons chunk chunks ih =>
      exact ((updateBlockDigest_sameBut _ _).trans (deleteAbove_sameBut _)).trans (ih _ _)

end Blocks

/-! ## The programs -/

/-- The context of the file digest behind the blocks of `chunks`. -/
def fileContext (blockSize : Nat) (chunks : List Blob) (ctx : Cdc512) : Cdc512 :=
  chunks.foldl (fun ctx chunk => ctx.update (zeroPad blockSize chunk)) ctx

/-- The tables behind `update_block_digest`. -/
def Tables.updateBlockDigest (entryId blkNo : Nat) (blockDigest : Blob) (t : Tables) : Tables :=
  { t with blocksDigests := t.blocksDigests.updateBlockDigest entryId blkNo blockDigest }

/-- The tables behind the loop of `update_blocks`. -/
def Tables.updateBlocks (entryId blockSize : Nat) (chunks : List Blob) (blkNo : Nat) (t : Tables) :
    Tables :=
  { t with blocksDigests := t.blocksDigests.updateBlocks entryId blockSize chunks blkNo }

/-- Only block rows of one entry differ, and the new ones are numbered from 1 on. -/
structure Tables.SameButBlocks (entryId : Nat) (t t' : Tables) : Prop where
  entries : t'.entries = t.entries
  blocks : t.blocksDigests.SameBut entryId t'.blocksDigests
  numbered : ∀ b ∈ t'.blocksDigests.rows, b ∈ t.blocksDigests.rows ∨ 1 ≤ b.blockNo

theorem Tables.SameButBlocks.refl (entryId : Nat) (t : Tables) : SameButBlocks entryId t t :=
  ⟨rfl, Blocks.SameBut.refl _ _, fun _ hb => .inl hb⟩

theorem Tables.SameButBlocks.trans {entryId : Nat} {t t' t'' : Tables}
    (h : SameButBlocks entryId t t') (h' : SameButBlocks entryId t' t'') :
    SameButBlocks entryId t t'' where
  entries := h'.entries.trans h.entries
  blocks := h.blocks.trans h'.blocks
  numbered := by
    intro b hb
    rcases h'.numbered b hb with hb | hno
    · exact h.numbered b hb
    · exact .inr hno

theorem Tables.updateBlockDigest_sameButBlocks (entryId : Nat) {blkNo : Nat} (hno : 1 ≤ blkNo)
    (blockDigest : Blob) (t : Tables) :
    t.SameButBlocks entryId (t.updateBlockDigest entryId blkNo blockDigest) where
  entries := rfl
  blocks := Blocks.updateBlockDigest_sameBut _ _
  numbered := by
    intro b hb
    rcases Blocks.mem_updateBlockDigest.mp hb with ⟨hb, -⟩ | rfl
    · exact .inl hb
    · exact .inr (Int.ofNat_le.mpr hno)

theorem Tables.deleteAbove_sameButBlocks (entryId blkNo : Nat) (t : Tables) :
    t.SameButBlocks entryId { t with blocksDigests := t.blocksDigests.deleteAbove entryId blkNo } where
  entries := rfl
  blocks := Blocks.deleteAbove_sameBut _
  numbered := fun _ hb => .inl (Blocks.mem_deleteAbove.mp hb).1

theorem Tables.updateBlocks_sameButBlocks (entryId blockSize : Nat) (chunks : List Blob) {blkNo : Nat}
    (hno : 1 ≤ blkNo) (t : Tables) :
    t.SameButBlocks entryId (t.updateBlocks entryId blockSize chunks blkNo) := by
  induction chunks generalizing blkNo t with
  | nil => exact .refl _ _
  | cons chunk chunks ih =>
      have hstep := updateBlockDigest_sameButBlocks entryId hno (cdc512 (zeroPad blockSize chunk)) t
      have hdelete := deleteAbove_sameButBlocks entryId blkNo
        (t.updateBlockDigest entryId blkNo (cdc512 (zeroPad blockSize chunk)))
      exact (hstep.trans hdelete).trans (ih (Nat.le_add_left 1 blkNo) _)

variable {sql : Sqlite} {db : Db}

theorem wp_updateBlockDigest (h : sql.LosesNothing) {entryId blkNo : Nat} {blockDigest : Blob}
    {Q : Unit → Db → Prop} {E : Error → Db → Prop} (hdb : db.snapshot = none)
    (hok : ∀ log, Q () (db.put (db.tables.updateBlockDigest entryId blkNo blockDigest) log))
    (herr : ∀ e log, ¬sql.NoFault → E e (db.put db.tables log)) :
    wp (updateBlockDigest sql entryId blkNo blockDigest) Q E db := by
  unfold updateBlockDigest Db.keepingExceptions
  simp only [wp_bind, wp_get, wp_atScopeExit, Db.setExceptions, wp_modify, wp_ite, wp_pure]
  refine h.wp_insert rfl rfl hdb ?_ ?_ (fun e log => herr e log)
  · intro log
    by_cases hfind : db.tables.blocksDigests.find entryId blkNo = none
    · have hexec := Stmt.exec_blkIns sql.policy blockDigest hfind
      simp only [Db.withExceptions_tables, hexec, reduceCtorEq, if_false]
      have := hok log
      simp only [Tables.updateBlockDigest, Blocks.updateBlockDigest, dif_pos hfind] at this
      exact this
    · have hexec := Stmt.exec_blkIns_conflict sql.policy blockDigest hfind
      simp only [Db.withExceptions_tables, hexec, if_true]
      refine h.wp_execute rfl rfl hdb ?_ (fun e log => herr e log)
      intro log
      have := hok log
      simp only [Tables.updateBlockDigest, Blocks.updateBlockDigest, dif_neg hfind] at this
      exact this
  · intro code log _ hstored
    have hmem : ⟨entryId, blkNo, some blockDigest⟩ ∈ db.tables.blocksDigests.rows := hstored
    have hsame : db.tables.updateBlockDigest entryId blkNo blockDigest = db.tables := by
      rw [Tables.updateBlockDigest, Blocks.updateBlockDigest_of_mem hmem]
    have := hok log
    rw [hsame] at this
    simp only [reduceCtorEq, if_false]
    exact this

/-- The loop of `update_blocks`. The induction is on the reads that are left; an exception finds
only block rows of the entry changed. -/
theorem wp_updateBlocksLoop (h : sql.LosesNothing) {entryId blockSize : Nat} {failed : Bool}
    {Q : Bool × Cdc512 → Db → Prop} {E : Error → Db → Prop} (chunks : List Blob) :
    ∀ (blkNo : Nat) (fileCtx : Cdc512) (db : Db), 1 ≤ blkNo → db.snapshot = none →
      (∀ log, Q (!failed, fileContext blockSize chunks fileCtx)
        (db.put (db.tables.updateBlocks entryId blockSize chunks blkNo) log)) →
      (∀ e t log, ¬sql.NoFault → db.tables.SameButBlocks entryId t → E e (db.put t log)) →
      wp (updateBlocksLoop sql entryId blockSize failed chunks blkNo fileCtx) Q E db := by
  induction chunks with
  | nil =>
      intro blkNo fileCtx db _ _ hok _
      exact hok db.log
  | cons chunk chunks ih =>
      intro blkNo fileCtx db hno hdb hok herr
      simp only [updateBlocksLoop, wp_bind]
      refine wp_updateBlockDigest h hdb ?_ (fun e log hfault => herr e _ log hfault (.refl _ _))
      intro log
      have hstep := Tables.updateBlockDigest_sameButBlocks entryId hno
        (cdc512 (zeroPad blockSize chunk)) db.tables
      refine h.wp_execute rfl rfl hdb ?_ (fun e log hfault => herr e _ log hfault hstep)
      intro log
      refine ih _ _ _ (Nat.le_add_left 1 blkNo) hdb (fun log => hok log) ?_
      intro e t log hfault hsame
      have hdelete := Tables.deleteAbove_sameButBlocks entryId blkNo
        (db.tables.updateBlockDigest entryId blkNo (cdc512 (zeroPad blockSize chunk)))
      exact herr e t log hfault ((hstep.trans hdelete).trans hsame)

/-- `update_blocks` on a file that does not open changes nothing; otherwise it rewrites the block
rows of the entry by what is read. -/
theorem wp_updateBlocks (h : sql.LosesNothing) {disk : Disk} {fileCtx : Cdc512} {pathName : WString}
    {entryId blockSize : Nat} {Q : Bool × Cdc512 → Db → Prop} {E : Error → Db → Prop}
    (hdb : db.snapshot = none)
    (hclosed : disk.sopen pathName = none → Q (false, fileCtx) db)
    (hread : ∀ reads log, disk.sopen pathName = some reads →
      Q (!reads.failed, fileContext blockSize reads.chunks fileCtx)
        (db.put (db.tables.updateBlocks entryId blockSize reads.chunks 1) log))
    (herr : ∀ e t log, ¬sql.NoFault → db.tables.SameButBlocks entryId t → E e (db.put t log)) :
    wp (updateBlocks sql disk fileCtx pathName entryId blockSize) Q E db := by
  unfold updateBlocks
  cases hopen : disk.sopen pathName with
  | none => exact hclosed hopen
  | some reads =>
      exact wp_updateBlocksLoop h reads.chunks 1 fileCtx db (Nat.le_refl 1) hdb (fun log => hread reads log hopen) herr

end Spacenet
