-- SUMMARY: The same records made twice: the second time every row and every block row is written as it stands.
import Spacenet.Effect.Rooted

/-!
# Records made again

Behind a sweep the row of a record is the row that the record left. What the
record writes over it is the same row: it was touched and is touched again, or it
was updated and is updated again, and it is hashed only if it was hashed before.
-/

namespace Spacenet

/-! ## One record -/

section

variable {modifiedOnly : Bool} {params : EntryParams} {mtime : U64}

theorem EntryRow.updateEntry_again (r : EntryRow) :
    (r.updateEntry modifiedOnly params mtime).revived.updateEntry modifiedOnly params mtime =
      r.updateEntry modifiedOnly params mtime := by
  by_cases hsame : modifiedOnly ∧ (r.mtime.getD 0 = mtime ∨ mtime = 0)
  · have htouched : r.updateEntry modifiedOnly params mtime = r.touch := if_pos hsame
    rw [htouched]
    exact if_pos hsame
  · have hupdated : r.updateEntry modifiedOnly params mtime = r.upd params := if_neg hsame
    rw [hupdated]
    exact if_neg hsame

theorem EntryParams.row_again (rowid : Nat) :
    (params.row rowid).revived.updateEntry modifiedOnly params mtime = params.row rowid := by
  unfold EntryRow.updateEntry
  split
  · rfl
  · rfl

end

namespace Record

variable {modifiedOnly : Bool} {rec : Record} {parentId rowid : Nat} {old : Option EntryRow}

/-- The mtime stored under the key of a record. -/
def mtimeOf (old : Option EntryRow) : U64 := (old.bind EntryRow.mtime).getD 0

/-- The row that `update_entry` leaves for a record. -/
def entered (modifiedOnly : Bool) (rec : Record) (parentId rowid : Nat) (old : Option EntryRow) :
    EntryRow :=
  match old with
  | none => (rec.params parentId).row rowid
  | some r => r.updateEntry modifiedOnly (rec.params parentId) rec.fmtim

theorem row_eq_after : rec.row modifiedOnly parentId rowid old =
    rec.after modifiedOnly (mtimeOf old) (rec.entered modifiedOnly parentId rowid old) := by
  cases old with
  | none => rfl
  | some r => rfl

theorem entered_mtime : (rec.entered modifiedOnly parentId rowid old).mtime.getD 0 = mtimeOf old := by
  cases old with
  | none => rfl
  | some r =>
      simp only [entered, EntryRow.updateEntry]
      split
      · rfl
      · rfl

theorem entered_again :
    (rec.entered modifiedOnly parentId rowid old).revived.updateEntry modifiedOnly
        (rec.params parentId) rec.fmtim =
      rec.entered modifiedOnly parentId rowid old := by
  cases old with
  | none => exact EntryParams.row_again rowid
  | some r => exact r.updateEntry_again

/-- The row of a file that is not hashed to its end. -/
theorem row_of_digest_none (h : rec.digest modifiedOnly (mtimeOf old) = none) :
    rec.row modifiedOnly parentId rowid old = rec.entered modifiedOnly parentId rowid old := by
  rw [row_eq_after, after, h]

theorem row_of_digest_some {digest : Blob} (h : rec.digest modifiedOnly (mtimeOf old) = some digest) :
    rec.row modifiedOnly parentId rowid old =
      (rec.entered modifiedOnly parentId rowid old).updAfter rec.fmtim digest := by
  rw [row_eq_after, after, h]

/-- With `modified_only_` off a file is hashed whatever mtime is stored. -/
theorem hashed_false (mtim mtim' : U64) : rec.hashed false mtim ↔ rec.hashed false mtim' := by
  simp [hashed]

theorem not_hashed_fmtim : ¬rec.hashed true rec.fmtim := by
  simp [hashed]

/-- The row that a record leaves is written as it stands. -/
theorem row_again {rowid' : Nat} : rec.row modifiedOnly parentId rowid'
      (some (rec.row modifiedOnly parentId rowid old).revived) =
    rec.row modifiedOnly parentId rowid old := by
  cases hdigest : rec.digest modifiedOnly (mtimeOf old) with
  | none =>
      rw [row_of_digest_none hdigest, row_of_digest_none, entered, entered_again]
      have hmtime : mtimeOf (some (rec.entered modifiedOnly parentId rowid old).revived) = mtimeOf old :=
        entered_mtime
      rw [hmtime]
      exact hdigest
  | some digest =>
      rw [row_of_digest_some hdigest]
      cases modifiedOnly with
      | true =>
          -- the mtime is stored, so the row is touched and not hashed
          have hnone : rec.digest true rec.fmtim = none := if_neg not_hashed_fmtim
          rw [row_of_digest_none hnone]
          exact if_pos ⟨rfl, .inl rfl⟩
      | false =>
          have hsome : rec.digest false rec.fmtim = some digest := by
            rw [← hdigest]
            simp only [Record.digest, hashed_false rec.fmtim (mtimeOf old)]
          rw [row_of_digest_some hsome]
          cases old with
          | none => rfl
          | some r => rfl

/-- What a record reads from the file the second time is what it read the first time, or nothing. -/
theorem chunks_again :
    rec.chunks modifiedOnly (mtimeOf (some (rec.row modifiedOnly parentId rowid old).revived)) = [] ∨
      rec.chunks modifiedOnly (mtimeOf (some (rec.row modifiedOnly parentId rowid old).revived)) =
        rec.chunks modifiedOnly (mtimeOf old) := by
  cases modifiedOnly with
  | false =>
      right
      simp only [chunks, hashed_false _ (mtimeOf old)]
  | true =>
      cases hdigest : rec.digest true (mtimeOf old) with
      | none =>
          right
          rw [row_of_digest_none hdigest]
          have hmtime : mtimeOf (some (rec.entered true parentId rowid old).revived) = mtimeOf old :=
            entered_mtime
          rw [hmtime]
      | some digest =>
          left
          rw [row_of_digest_some hdigest]
          exact if_neg not_hashed_fmtim

end Record

/-- Blocks that are written again, or not at all, are as they were. -/
theorem Blocks.mem_updateBlocks_again {t : Blocks} {entryId blockSize : Nat} {chunks chunks' : List Blob}
    (h : chunks' = [] ∨ chunks' = chunks) {b : BlockRow} :
    b ∈ ((t.updateBlocks entryId blockSize chunks 1).updateBlocks entryId blockSize chunks' 1).rows ↔
      b ∈ (t.updateBlocks entryId blockSize chunks 1).rows := by
  rcases h with rfl | rfl
  · exact Iff.rfl
  · cases chunks' with
    | nil => exact Iff.rfl
    | cons chunk chunks =>
        rw [mem_updateBlocks (List.cons_ne_nil _ _)]
        constructor
        · rintro (⟨hb, -⟩ | hblock)
          · exact hb
          · exact (mem_updateBlocks (List.cons_ne_nil _ _)).mpr (.inr hblock)
        · intro hb
          rcases (mem_updateBlocks (List.cons_ne_nil _ _)).mp hb with ⟨-, hlow⟩ | hblock
          · exact .inl ⟨hb, hlow⟩
          · exact .inr hblock

/-! ## The records of a run -/

namespace Recorded

variable {modifiedOnly : Bool} {recs : List Record} {t₀ t₁ t₂ : Tables}

/-- The row of a record behind the second run is the row behind the first. -/
theorem again (h₁ : Recorded modifiedOnly recs t₀ t₁) (hpre : Preorder recs)
    (h₂ : Recorded modifiedOnly recs t₁.sweep t₂) {rec : Record} (hrec : rec ∈ recs) :
    ∃ parentId rowid r, r = rec.row modifiedOnly parentId rowid (t₀.entries.find parentId rec.name) ∧
      t₁.entries.idAt rec.parts = some parentId ∧ t₁.entries.find parentId rec.name = some r ∧
      t₂.entries.idAt rec.parts = some parentId ∧ t₂.entries.find parentId rec.name = some r := by
  obtain ⟨parentId, rowid, hid, hfind⟩ := h₁.recorded rec hrec
  have hid' : t₁.sweep.entries.idAt rec.parts = some parentId :=
    (h₁.idAt_sweep hpre (hpre.dir rec hrec)).trans hid
  have hfind' := Tables.find_sweep hfind Record.row_isAlive
  obtain ⟨parentId', rowid', hid'', hfind''⟩ := h₂.recorded rec hrec
  obtain rfl : parentId' = parentId :=
    Option.some.inj (hid''.symm.trans (h₂.entries_extends.idAt hid'))
  rw [hfind', Record.row_again] at hfind''
  exact ⟨parentId', rowid, _, rfl, hid, hfind, hid'', hfind''⟩

/-- Every key behind the first run is the key of a record. -/
theorem key_recorded (h₁ : Recorded modifiedOnly recs t₀ t₁) (hpre : Preorder recs)
    (halive : ∀ r ∈ t₀.entries.rows, r.isAlive ≠ 0) (h₂ : Recorded modifiedOnly recs t₁.sweep t₂)
    {r : EntryRow} (hr : r ∈ t₁.sweep.entries.rows) :
    ∃ rec ∈ recs, t₂.entries.idAt rec.parts = some r.parentId ∧ rec.name = r.name := by
  obtain ⟨rec, hrec, hrow⟩ := h₁.row_of_sweep hpre halive hr
  rw [Record.path, Entries.rowAt_append] at hrow
  obtain ⟨parentId, hid, hfind⟩ := Entries.rowIn_eq_some.mp hrow
  obtain ⟨-, rfl, hname⟩ := Entries.find_eq_some.mp hfind
  exact ⟨rec, hrec, h₂.entries_extends.idAt hid, hname.symm⟩

theorem find_again (h₁ : Recorded modifiedOnly recs t₀ t₁) (hpre : Preorder recs)
    (halive : ∀ r ∈ t₀.entries.rows, r.isAlive ≠ 0) (h₂ : Recorded modifiedOnly recs t₁.sweep t₂)
    (parentId : Nat) (name : WString) :
    t₂.sweep.entries.find parentId name = t₁.sweep.entries.find parentId name := by
  by_cases hrec : ∀ rec ∈ recs, t₂.entries.idAt rec.parts = some parentId → rec.name ≠ name
  · -- a key of no record has no row, behind neither run
    have hnone : t₁.sweep.entries.find parentId name = none := by
      rw [Entries.find_eq_none]
      rintro r hr rfl rfl
      obtain ⟨rec, hmem, hid, hname⟩ := h₁.key_recorded hpre halive h₂ hr
      exact hrec rec hmem hid hname
    have hkept := h₂.others parentId name hrec
    rw [hnone] at hkept ⊢
    exact Entries.find_sweep.trans (by rw [hkept]; rfl)
  · push Not at hrec
    obtain ⟨rec, hmem, hid, rfl⟩ := hrec
    obtain ⟨parentId', rowid, r, rfl, -, hfind₁, hid', hfind₂⟩ := h₁.again hpre h₂ hmem
    obtain rfl : parentId' = parentId := Option.some.inj (hid'.symm.trans hid)
    rw [Tables.find_sweep hfind₁ Record.row_isAlive, Tables.find_sweep hfind₂ Record.row_isAlive]

/-- The second run marks every row. -/
theorem marked_again (h₁ : Recorded modifiedOnly recs t₀ t₁) (hpre : Preorder recs)
    (halive : ∀ r ∈ t₀.entries.rows, r.isAlive ≠ 0) (h₂ : Recorded modifiedOnly recs t₁.sweep t₂)
    {r : EntryRow} (hr : r ∈ t₂.entries.rows) : r.isAlive = 0 := by
  have hof : ∀ rec ∈ recs, t₂.entries.rowAt rec.path = some r → r.isAlive = 0 := by
    intro rec hrec hrow
    obtain ⟨s, hs, hmarked⟩ := h₂.rowAt_marked hrec
    obtain rfl := Option.some.inj (hrow.symm.trans hs)
    exact hmarked
  rcases h₂.row_cases hr with ⟨rec, hrec, hrow⟩ | hold
  · exact hof rec hrec hrow
  · obtain ⟨rec, hrec, hid, hname⟩ := h₁.key_recorded hpre halive h₂ hold
    apply hof rec hrec
    apply Entries.rowAt_of_find hid
    rw [hname]
    exact Entries.find_self hr

/-- The blocks of a record behind the second run are those behind the first. -/
theorem blocks_again (h₁ : Recorded modifiedOnly recs t₀ t₁) (hpre : Preorder recs)
    (halive : ∀ r ∈ t₀.entries.rows, r.isAlive ≠ 0) (h₂ : Recorded modifiedOnly recs t₁.sweep t₂)
    (b : BlockRow) : b ∈ t₂.sweep.blocksDigests.rows ↔ b ∈ t₁.sweep.blocksDigests.rows := by
  have hswept : b ∈ t₂.sweep.blocksDigests.rows ↔ b ∈ t₂.blocksDigests.rows := by
    have hnone : b.entryId ∉ t₂.entries.unmarked := by
      intro hid
      obtain ⟨r, hr, hunmarked, -⟩ := Entries.mem_unmarked.mp hid
      exact hunmarked (h₁.marked_again hpre halive h₂ hr)
    exact Blocks.mem_deleteEntries.trans (and_iff_left hnone)
  rw [hswept]
  by_cases hrec : ∀ rec ∈ recs, ∀ r, t₂.entries.rowAt rec.path = some r → b.entryId ≠ r.rowid
  · exact h₂.blocksOthers b hrec
  · push Not at hrec
    obtain ⟨rec, hmem, r', hrow', hb⟩ := hrec
    obtain ⟨parentId, rowid, r, hr, hid₁, hfind₁, hid₂, hfind₂⟩ := h₁.again hpre h₂ hmem
    obtain rfl : r' = r := Option.some.inj (hrow'.symm.trans (Entries.rowAt_of_find hid₂ hfind₂))
    have hmarked : r'.isAlive = 0 := by
      rw [hr]
      exact Record.row_isAlive
    have hkept : ∀ b : BlockRow, b.entryId = r'.rowid →
        (b ∈ t₁.sweep.blocksDigests.rows ↔ b ∈ t₁.blocksDigests.rows) :=
      fun b hb => Tables.mem_sweep_blocks (Entries.find_eq_some.mp hfind₁).1 hmarked hb
    have hfirst : ∀ b : BlockRow, b.entryId = r'.rowid →
        (b ∈ t₁.blocksDigests.rows ↔ b ∈ (rec.blocks modifiedOnly r'.rowid
          (t₀.entries.find parentId rec.name) t₀.blocksDigests).rows) :=
      h₁.blocksRecorded rec hmem parentId r' hid₁ hfind₁
    have hsecond := h₂.blocksRecorded rec hmem parentId r' hid₂ hfind₂ b hb
    rw [Tables.find_sweep hfind₁ hmarked] at hsecond
    calc b ∈ t₂.blocksDigests.rows
        ↔ b ∈ (rec.blocks modifiedOnly r'.rowid (some r'.revived) t₁.sweep.blocksDigests).rows := hsecond
      _ ↔ b ∈ (rec.blocks modifiedOnly r'.rowid (some r'.revived) (rec.blocks modifiedOnly r'.rowid
            (t₀.entries.find parentId rec.name) t₀.blocksDigests)).rows :=
          Blocks.mem_updateBlocks_congr (fun b hb => (hkept b hb).trans (hfirst b hb)) hb
      _ ↔ b ∈ (rec.blocks modifiedOnly r'.rowid (t₀.entries.find parentId rec.name)
            t₀.blocksDigests).rows := by
          apply Blocks.mem_updateBlocks_again
          rw [hr]
          exact Record.chunks_again
      _ ↔ b ∈ t₁.blocksDigests.rows := (hfirst b hb).symm
      _ ↔ b ∈ t₁.sweep.blocksDigests.rows := (hkept b hb).symm

end Recorded

end Spacenet
