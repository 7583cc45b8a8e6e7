-- SUMMARY: The content of a file as the blocks that are read from it, and the digest of the whole.
import Spacenet.Effect.Blocks

/-!
# File contents

A file that gives a full block in every read but the last gives the blocks of its
content. The digest over the blocks is the digest of the content padded with
zeros to a whole number of blocks.
-/

namespace Spacenet

/-! ## The blocks of a file -/

/-- How many blocks a content has. -/
def blockCount (blockSize : Nat) (content : Blob) : Nat :=
  (content.length + blockSize - 1) / blockSize

/-- The block of a content behind `k` blocks: `blockSize` bytes, or what remains. -/
def blockAt (blockSize : Nat) (content : Blob) (k : Nat) : Blob :=
  (content.drop (k * blockSize)).take blockSize

section

variable {blockSize : Nat} {content : Blob} {k : Nat}

theorem length_blockAt :
    (blockAt blockSize content k).length = min blockSize (content.length - k * blockSize) := by
  simp only [blockAt, List.length_take, List.length_drop]

theorem lt_blockCount (hpos : 0 < blockSize) :
    k < blockCount blockSize content ↔ k * blockSize < content.length := by
  unfold blockCount
  rw [Nat.lt_iff_add_one_le, Nat.le_div_iff_mul_le hpos, Nat.succ_mul]
  omega

theorem blockCount_pos (hpos : 0 < blockSize) (content : Blob) : 0 < blockCount blockSize content ↔ content ≠ [] := by
  rw [lt_blockCount hpos, Nat.zero_mul, List.length_pos_iff]

theorem blockAt_ne_nil (hpos : 0 < blockSize) (hk : k < blockCount blockSize content) :
    blockAt blockSize content k ≠ [] := by
  have hlt := (lt_blockCount hpos).mp hk
  apply List.ne_nil_of_length_pos
  rw [length_blockAt]
  omega

end

/-- The reads of a file when each `_read` gives a full block or what remains. -/
def FileReads.full {blockSize : Nat} (hpos : 0 < blockSize) (content : Blob) : FileReads where
  chunks := (List.range (blockCount blockSize content)).map (blockAt blockSize content)
  failed := false
  nonempty := by
    intro chunk hchunk
    obtain ⟨k, hk, rfl⟩ := List.mem_map.mp hchunk
    exact blockAt_ne_nil hpos (List.mem_range.mp hk)

/-- The row of the block `k` of an entry, where the first block has the number 1. -/
def blockRow (entryId blockSize : Nat) (content : Blob) (k : Nat) : BlockRow where
  entryId := entryId
  blockNo := k
  digest := some (cdc512 (zeroPad blockSize (blockAt blockSize content (k - 1))))

namespace Blocks

/-- The rows of the entry are exactly the blocks of the content. -/
def Exactly (entryId blockSize : Nat) (content : Blob) (t : Blocks) : Prop :=
  ∀ b : BlockRow, b.entryId = entryId →
    (b ∈ t.rows ↔ ∃ k, 1 ≤ k ∧ k ≤ blockCount blockSize content ∧ b = blockRow entryId blockSize content k)

/-- No row of the entry is stored that `update_blocks` does not reach. -/
def Reached (entryId : Nat) (content : Blob) (t : Blocks) : Prop :=
  ∀ b ∈ t.rows, b.entryId = entryId → content ≠ [] ∧ 1 ≤ b.blockNo

variable {t : Blocks} {entryId blockSize : Nat} {content : Blob}

/-- The rows of the entry behind `update_blocks` on a full content. -/
theorem mem_updateBlocks_full (hpos : 0 < blockSize) {b : BlockRow} (hb : b.entryId = entryId) :
    b ∈ (t.updateBlocks entryId blockSize (FileReads.full hpos content).chunks 1).rows ↔
      (b ∈ t.rows ∧ (content ≠ [] → b.blockNo < 1)) ∨
        ∃ k, 1 ≤ k ∧ k ≤ blockCount blockSize content ∧ b = blockRow entryId blockSize content k := by
  by_cases hempty : content = []
  · have hcount : blockCount blockSize content = 0 := by
      have := (blockCount_pos hpos content).not
      simpa [hempty] using this
    have hchunks : (FileReads.full hpos content).chunks = [] := by
      simp only [FileReads.full, hcount, List.range_zero, List.map_nil]
    rw [hchunks, hcount]
    simp only [updateBlocks]
    constructor
    · intro h
      exact .inl ⟨h, fun hne => absurd hempty hne⟩
    · rintro (⟨h, -⟩ | ⟨k, hk, hk', -⟩)
      · exact h
      · omega
  · have hcount := (blockCount_pos hpos content).mpr hempty
    have hne : (FileReads.full hpos content).chunks ≠ [] := by
      apply List.ne_nil_of_length_pos
      simpa only [FileReads.full, List.length_map, List.length_range] using hcount
    have hchunk : ∀ i chunk, (FileReads.full hpos content).chunks[i]? = some chunk ↔
        i < blockCount blockSize content ∧ chunk = blockAt blockSize content i := by
      intro i chunk
      simp only [FileReads.full, List.getElem?_map, Option.map_eq_some_iff,
        List.getElem?_eq_some_iff, List.length_range, List.getElem_range]
      constructor
      · rintro ⟨j, ⟨hi, rfl⟩, rfl⟩
        exact ⟨hi, rfl⟩
      · rintro ⟨hi, rfl⟩
        exact ⟨i, ⟨hi, rfl⟩, rfl⟩
    rw [mem_updateBlocks hne]
    have hleft : (b.entryId = entryId → b.blockNo < (1 : Nat)) ↔ (content ≠ [] → b.blockNo < 1) := by
      simp only [hb, hempty, ne_eq, not_false_eq_true, forall_const, Nat.cast_one]
    rw [hleft]
    refine or_congr Iff.rfl ?_
    constructor
    · rintro ⟨i, chunk, hi, rfl⟩
      obtain ⟨hlt, rfl⟩ := (hchunk i chunk).mp hi
      refine ⟨1 + i, by omega, by omega, ?_⟩
      simp only [blockRow, Nat.add_sub_cancel_left]
    · rintro ⟨k, hk, hk', rfl⟩
      refine ⟨k - 1, _, (hchunk _ _).mpr ⟨by omega, rfl⟩, ?_⟩
      simp only [blockRow, Nat.add_sub_cancel' hk]

theorem exactly_updateBlocks_iff (hpos : 0 < blockSize) :
    (t.updateBlocks entryId blockSize (FileReads.full hpos content).chunks 1).Exactly entryId
      blockSize content ↔ t.Reached entryId content := by
  constructor
  · intro hexact b hb hid
    by_contra hnot
    -- the row is kept, so it would have to be a block of the content
    have hkept : content ≠ [] → b.blockNo < 1 := by
      intro hne
      by_contra hno
      exact hnot ⟨hne, by omega⟩
    have hmem := (mem_updateBlocks_full hpos hid).mpr (.inl ⟨hb, hkept⟩)
    obtain ⟨k, hk, hk', rfl⟩ := (hexact b hid).mp hmem
    apply hnot
    refine ⟨(blockCount_pos hpos content).mp (by omega), ?_⟩
    exact Int.ofNat_le.mpr hk
  · intro hreached b hb
    rw [mem_updateBlocks_full hpos hb]
    constructor
    · rintro (⟨hmem, hkept⟩ | hblock)
      · obtain ⟨hne, hno⟩ := hreached b hmem hb
        have := hkept hne
        omega
      · exact hblock
    · exact .inr

end Blocks

/-! ## Files that are read by full blocks -/

/-- The content behind `k` blocks of which the first is full. -/
theorem blockAt_append {blockSize : Nat} {chunk content : Blob} (hchunk : chunk.length = blockSize)
    (k : Nat) : blockAt blockSize (chunk ++ content) (k + 1) = blockAt blockSize content k := by
  have hdrop : (k + 1) * blockSize = chunk.length + k * blockSize := by
    rw [hchunk, Nat.succ_mul, Nat.add_comm]
  unfold blockAt
  rw [hdrop, ← List.drop_drop, List.drop_left]

theorem blockCount_append {blockSize : Nat} (hpos : 0 < blockSize) {chunk content : Blob}
    (hchunk : chunk.length = blockSize) :
    blockCount blockSize (chunk ++ content) = blockCount blockSize content + 1 := by
  unfold blockCount
  rw [List.length_append, hchunk, Nat.add_assoc, Nat.add_sub_assoc (by omega),
    Nat.add_div_left _ hpos]

theorem blockCount_of_le {blockSize : Nat} {chunk : Blob} (hne : chunk ≠ [])
    (hle : chunk.length ≤ blockSize) : blockCount blockSize chunk = 1 := by
  have := List.length_pos_iff.mpr hne
  unfold blockCount
  exact Nat.div_eq_of_lt_le (by omega) (by omega)

/-- A content padded with zeros to a whole number of blocks. -/
def padded (blockSize : Nat) (content : Blob) : Blob :=
  content ++ List.replicate (blockCount blockSize content * blockSize - content.length) 0

namespace FileReads

/-- The bytes that the file gives. -/
def bytes (reads : FileReads) : Blob := reads.chunks.flatten

/-- Every read but the last gives a full block. -/
def FullBlocks (blockSize : Nat) (reads : FileReads) : Prop :=
  (∀ chunk ∈ reads.chunks, chunk.length ≤ blockSize) ∧
    ∀ chunk ∈ reads.chunks.dropLast, chunk.length = blockSize

/-- The induction over reads by full blocks: the last read, and a full block before others. -/
theorem FullBlocks.induction {blockSize : Nat} {P : List Blob → Prop} (hnil : P [])
    (hlast : ∀ chunk, chunk ≠ [] → chunk.length ≤ blockSize → P [chunk])
    (hfull : ∀ chunk chunks, chunk.length = blockSize → P chunks → P (chunk :: chunks))
    {reads : FileReads} (h : reads.FullBlocks blockSize) : P reads.chunks := by
  obtain ⟨hle, hdrop⟩ := h
  have hne := reads.nonempty
  generalize reads.chunks = chunks at hle hdrop hne
  induction chunks with
  | nil => exact hnil
  | cons chunk rest ih =>
      cases rest with
      | nil => exact hlast chunk (hne chunk List.mem_cons_self) (hle chunk List.mem_cons_self)
      | cons chunk' rest =>
          rw [List.dropLast_cons_cons] at hdrop
          refine hfull chunk _ (hdrop chunk List.mem_cons_self) (ih ?_ ?_ ?_)
          · exact fun c hc => hle c (List.mem_cons_of_mem _ hc)
          · exact fun c hc => hdrop c (List.mem_cons_of_mem _ hc)
          · exact fun c hc => hne c (List.mem_cons_of_mem _ hc)

variable {reads : FileReads} {blockSize : Nat}

/-- The reads are the blocks of the bytes. -/
theorem FullBlocks.chunks_eq (h : reads.FullBlocks blockSize) (hpos : 0 < blockSize) :
    reads.chunks = (FileReads.full hpos reads.bytes).chunks := by
  refine h.induction (P := fun chunks => chunks =
    (List.range (blockCount blockSize chunks.flatten)).map (blockAt blockSize chunks.flatten)) ?_ ?_ ?_
  · have hcount : blockCount blockSize [] = 0 := by
      have := (blockCount_pos hpos []).not
      simpa using this
    simp [hcount]
  · intro chunk hne hle
    rw [List.flatten_singleton, blockCount_of_le hne hle]
    simp [blockAt, List.take_of_length_le hle]
  · intro chunk chunks hfull ih
    rw [List.flatten_cons, blockCount_append hpos hfull, List.range_succ_eq_map, List.map_cons,
      List.map_map]
    have htail : blockAt blockSize (chunk ++ chunks.flatten) ∘ Nat.succ =
        blockAt blockSize chunks.flatten := funext (fun k => blockAt_append hfull k)
    have hhead : blockAt blockSize (chunk ++ chunks.flatten) 0 = chunk := by
      simp [blockAt, ← hfull]
    rw [htail, hhead, ← ih]

theorem FullBlocks.padded_eq (h : reads.FullBlocks blockSize) (hpos : 0 < blockSize) :
    (reads.chunks.map (zeroPad blockSize)).flatten = padded blockSize reads.bytes := by
  refine h.induction (P := fun chunks =>
    (chunks.map (zeroPad blockSize)).flatten = padded blockSize chunks.flatten) ?_ ?_ ?_
  · have hcount : blockCount blockSize [] = 0 := by
      have := (blockCount_pos hpos []).not
      simpa using this
    simp [padded, hcount]
  · intro chunk hne hle
    simp [padded, blockCount_of_le hne hle, zeroPad]
  · intro chunk chunks hfull ih
    have hpad : zeroPad blockSize chunk = chunk := by simp [zeroPad, hfull]
    have hrest : (blockCount blockSize chunks.flatten + 1) * blockSize -
        (chunk.length + chunks.flatten.length) =
          blockCount blockSize chunks.flatten * blockSize - chunks.flatten.length := by
      rw [hfull, Nat.succ_mul]
      omega
    rw [List.map_cons, List.flatten_cons, ih, hpad, List.flatten_cons, padded, padded,
      blockCount_append hpos hfull, List.length_append, hrest, List.append_assoc]

end FileReads

/-- Padded blocks may be absorbed one by one. -/
theorem fileContext_eq {blockSize : Nat} (hchunk : Cdc512Data.size ∣ blockSize) (chunks : List Blob)
    (hle : ∀ chunk ∈ chunks, chunk.length ≤ blockSize) (ctx : Cdc512) :
    fileContext blockSize chunks ctx = ctx.update (chunks.map (zeroPad blockSize)).flatten := by
  induction chunks generalizing ctx with
  | nil => exact (Cdc512.update_nil ctx).symm
  | cons chunk chunks ih =>
      have hlength : (zeroPad blockSize chunk).length = blockSize := by
        have := hle chunk List.mem_cons_self
        simp only [zeroPad, List.length_append, List.length_replicate]
        omega
      have hrest := ih (fun c hc => hle c (List.mem_cons_of_mem _ hc))
        (ctx.update (zeroPad blockSize chunk))
      have happend := ctx.update_append (zeroPad blockSize chunk)
        (chunks.map (zeroPad blockSize)).flatten (by rw [hlength]; exact hchunk)
      rw [List.map_cons, List.flatten_cons, ← happend]
      exact hrest

/-- The digest over the blocks is the digest of the padded content. -/
theorem FileReads.FullBlocks.digest_eq {reads : FileReads} {blockSize : Nat}
    (h : reads.FullBlocks blockSize) (hpos : 0 < blockSize) (hchunk : Cdc512Data.size ∣ blockSize) :
    (fileContext blockSize reads.chunks Cdc512.init).finish.digest =
      cdc512 (padded blockSize reads.bytes) := by
  rw [fileContext_eq hchunk _ h.1, h.padded_eq hpos]
  rfl

end Spacenet
