-- SUMMARY: The records of a run in order, and the tables behind them: which rows a record leaves, and which it does not touch.
import Spacenet.Effect.Callback
import Spacenet.Effect.Paths

/-!
# The records of a run

A run makes one record for each entry that it visits, a directory before its
entries. The tables behind the records are described entry by entry: the row of
a recorded path is the record's row over the row that was stored before the run,
and every other key has the row that it had.
-/

namespace Spacenet

open UniqueKey

/-! ## One record -/

/-- What `st_upd_after` makes of the row that `update_entry` left. `mtim` is the mtime stored
before. -/
def Record.after (modifiedOnly : Bool) (rec : Record) (mtim : U64) (r : EntryRow) : EntryRow :=
  match rec.digest modifiedOnly mtim with
  | none => r
  | some digest => r.updAfter rec.fmtim digest

namespace Record

variable {modifiedOnly : Bool} {rec : Record} {mtim : U64} {r : EntryRow}

theorem after_rowid : (rec.after modifiedOnly mtim r).rowid = r.rowid := by
  unfold after
  split <;> rfl

theorem after_key : (rec.after modifiedOnly mtim r).key = r.key := by
  unfold after
  split <;> rfl

theorem after_isAlive (h : r.isAlive = 0) : (rec.after modifiedOnly mtim r).isAlive = 0 := by
  unfold after
  split
  · exact h
  · rfl

/-- The row that a record leaves in the directory `parentId`: over the row `old` that was stored
under its key, or with a new rowid. -/
def row (modifiedOnly : Bool) (rec : Record) (parentId rowid : Nat) (old : Option EntryRow) :
    EntryRow :=
  match old with
  | none => rec.after modifiedOnly 0 ((rec.params parentId).row rowid)
  | some r => rec.after modifiedOnly (r.mtime.getD 0)
      (r.updateEntry modifiedOnly (rec.params parentId) rec.fmtim)

/-- The block rows that a record leaves. -/
def blocks (modifiedOnly : Bool) (rec : Record) (rowid : Nat) (old : Option EntryRow)
    (t : Blocks) : Blocks :=
  t.updateBlocks rowid rec.blockSize (rec.chunks modifiedOnly ((old.bind EntryRow.mtime).getD 0)) 1

variable {parentId rowid : Nat} {old : Option EntryRow}

theorem row_isAlive : (rec.row modifiedOnly parentId rowid old).isAlive = 0 := by
  cases old with
  | none => exact after_isAlive rfl
  | some r => exact after_isAlive (EntryRow.updateEntry_isAlive ..)

theorem row_rowid_some : (rec.row modifiedOnly parentId rowid (some r)).rowid = r.rowid :=
  after_rowid.trans (EntryRow.updateEntry_rowid ..)

end Record

namespace Entries

variable (policy : RowidPolicy) (modifiedOnly : Bool) (parentId : Nat) (rec : Record)

/-- The row that `recordAt` leaves for the entry. -/
def recordedRow (t : Entries) : EntryRow :=
  rec.row modifiedOnly parentId (t.rowOf policy modifiedOnly (rec.params parentId) rec.fmtim).rowid
    (t.find parentId rec.name)

theorem recordedRow_eq (t : Entries) :
    t.recordedRow policy modifiedOnly parentId rec =
      rec.after modifiedOnly (t.mtimeOf parentId rec.name)
        (t.rowOf policy modifiedOnly (rec.params parentId) rec.fmtim) := by
  unfold recordedRow Record.row
  cases hfind : t.find parentId rec.name with
  | none =>
      have : t.mtimeOf parentId rec.name = 0 := by simp [mtimeOf, hfind]
      rw [this, rowOf_of_none hfind]
      rfl
  | some r =>
      rw [mtimeOf_of_find hfind, rowOf_of_some hfind]

theorem recordedRow_rowid (t : Entries) :
    (t.recordedRow policy modifiedOnly parentId rec).rowid =
      (t.rowOf policy modifiedOnly (rec.params parentId) rec.fmtim).rowid := by
  rw [recordedRow_eq, Record.after_rowid]

end Entries

namespace Tables

variable {policy : RowidPolicy} {modifiedOnly : Bool} {parentId : Nat} {rec : Record} {t : Tables}

/-- The entries behind a record: the rows of `update_entry`, the entry's own with what
`st_upd_after` makes of it. -/
theorem find_recordAt {parentId' : Nat} {name : WString} :
    (t.recordAt policy modifiedOnly parentId rec).entries.find parentId' name =
      if (parentId, rec.name) = (parentId', name) then
        some (t.entries.recordedRow policy modifiedOnly parentId rec)
      else t.entries.find parentId' name := by
  have hplain : (t.updateEntry policy modifiedOnly (rec.params parentId) rec.fmtim).entries.find
      parentId' name = if (parentId, rec.name) = (parentId', name) then
        some (t.entries.rowOf policy modifiedOnly (rec.params parentId) rec.fmtim)
      else t.entries.find parentId' name := Entries.find_updateEntry
  rw [Entries.recordedRow_eq]
  simp only [recordAt, Record.after]
  cases hdigest : rec.digest modifiedOnly (t.entries.mtimeOf parentId rec.name) with
  | none => exact hplain
  | some digest =>
      simp only [updateBlocks]
      rw [Entries.find_updAfter, hplain]
      split
      · simp [entryId]
      · next hkey =>
          -- the rows with another key have another rowid
          cases hfind : t.entries.find parentId' name with
          | none => rfl
          | some r =>
              have hkey' : r.key ≠ (rec.params parentId).key := by
                rw [(t.entries.keyUnique.lookup_eq_some.mp hfind).2]
                exact fun h => hkey h.symm
              have hne : r.rowid ≠ t.entryId policy modifiedOnly (rec.params parentId) rec.fmtim :=
                Entries.rowid_ne_rowOf (Entries.find_eq_some.mp hfind).1 hkey'
              simp [hne]

theorem find_recordAt_self :
    (t.recordAt policy modifiedOnly parentId rec).entries.find parentId rec.name =
      some (t.entries.recordedRow policy modifiedOnly parentId rec) := by
  rw [find_recordAt]
  exact if_pos rfl

theorem extends_recordAt :
    t.entries.Extends (t.recordAt policy modifiedOnly parentId rec).entries := by
  intro parentId' name r hr
  rw [find_recordAt]
  split
  · next hkey =>
      cases hkey
      refine ⟨_, rfl, ?_⟩
      rw [Entries.recordedRow, hr, Record.row_rowid_some]
  · exact ⟨r, hr, rfl⟩

/-- The path of a record leads to the id that `update_entry` returned. -/
theorem idAt_recordAt (h : t.entries.idAt rec.parts = some parentId) :
    (t.recordAt policy modifiedOnly parentId rec).entries.idAt rec.path =
      some (t.entryId policy modifiedOnly (rec.params parentId) rec.fmtim) := by
  have hid : (t.recordAt policy modifiedOnly parentId rec).entries.idAt rec.parts = some parentId :=
    extends_recordAt.idAt h
  have hrow := Entries.rowAt_of_find hid find_recordAt_self
  rw [Record.path, Entries.idAt_of_rowAt hrow, Entries.recordedRow_rowid]
  rfl

theorem recordAt_blocks :
    (t.recordAt policy modifiedOnly parentId rec).blocksDigests =
      rec.blocks modifiedOnly (t.entries.recordedRow policy modifiedOnly parentId rec).rowid
        (t.entries.find parentId rec.name) t.blocksDigests := by
  rw [Entries.recordedRow_rowid]
  simp only [recordAt, Record.blocks]
  split <;> rfl

theorem recordAt_sameBut :
    t.blocksDigests.SameBut (t.entries.recordedRow policy modifiedOnly parentId rec).rowid
      (t.recordAt policy modifiedOnly parentId rec).blocksDigests := by
  rw [recordAt_blocks]
  exact Blocks.updateBlocks_sameBut _ _ _ _

end Tables

/-! ## A run of records -/

/-- The paths of the records differ, and every record has its directory before it. -/
inductive Preorder : List Record → Prop where
  | nil : Preorder []
  | snoc {recs : List Record} {rec : Record} (before : Preorder recs)
      (new : ∀ rec' ∈ recs, rec'.path ≠ rec.path)
      (dir : rec.parts = [] ∨ ∃ rec' ∈ recs, rec'.path = rec.parts) : Preorder (recs ++ [rec])

namespace Tables

variable (policy : RowidPolicy) (modifiedOnly : Bool)

/-- The tables behind a record, whose directory is found by its path. -/
def record (rec : Record) (t : Tables) : Tables :=
  t.recordAt policy modifiedOnly ((t.entries.idAt rec.parts).getD 0) rec

/-- The tables behind a list of records. -/
def recordAll (recs : List Record) (t : Tables) : Tables :=
  recs.foldl (fun t rec => t.record policy modifiedOnly rec) t

theorem recordAll_append (recs recs' : List Record) (t : Tables) :
    t.recordAll policy modifiedOnly (recs ++ recs') =
      (t.recordAll policy modifiedOnly recs).recordAll policy modifiedOnly recs' :=
  List.foldl_append

end Tables

/-- What `recs` has made of `t₀`, entry by entry. -/
structure Recorded (modifiedOnly : Bool) (recs : List Record) (t₀ t : Tables) : Prop where
  /-- The row of a recorded path is the record's row over the row stored before. -/
  recorded : ∀ rec ∈ recs, ∃ parentId rowid, t.entries.idAt rec.parts = some parentId ∧
    t.entries.find parentId rec.name =
      some (rec.row modifiedOnly parentId rowid (t₀.entries.find parentId rec.name))
  /-- Every other key has the row that it had. -/
  others : ∀ parentId name,
    (∀ rec ∈ recs, t.entries.idAt rec.parts = some parentId → rec.name ≠ name) →
      t.entries.find parentId name = t₀.entries.find parentId name
  blocksRecorded : ∀ rec ∈ recs, ∀ parentId r, t.entries.idAt rec.parts = some parentId →
    t.entries.find parentId rec.name = some r → ∀ b : BlockRow, b.entryId = r.rowid →
      (b ∈ t.blocksDigests.rows ↔
        b ∈ (rec.blocks modifiedOnly r.rowid (t₀.entries.find parentId rec.name)
          t₀.blocksDigests).rows)
  blocksOthers : ∀ b : BlockRow,
    (∀ rec ∈ recs, ∀ r, t.entries.rowAt rec.path = some r → b.entryId ≠ r.rowid) →
      (b ∈ t.blocksDigests.rows ↔ b ∈ t₀.blocksDigests.rows)

namespace Recorded

variable {policy : RowidPolicy} {modifiedOnly : Bool} {recs : List Record} {t₀ t : Tables}

/-- The row of a recorded path. -/
theorem rowAt_path (h : Recorded modifiedOnly recs t₀ t) {rec : Record} (hrec : rec ∈ recs) :
    ∃ parentId rowid, t.entries.idAt rec.parts = some parentId ∧ t.entries.rowAt rec.path =
      some (rec.row modifiedOnly parentId rowid (t₀.entries.find parentId rec.name)) := by
  obtain ⟨parentId, rowid, hid, hfind⟩ := h.recorded rec hrec
  exact ⟨parentId, rowid, hid, Entries.rowAt_of_find hid hfind⟩

theorem entries_extends (h : Recorded modifiedOnly recs t₀ t) : t₀.entries.Extends t.entries := by
  intro parentId name r hr
  by_cases hrec : ∀ rec ∈ recs, t.entries.idAt rec.parts = some parentId → rec.name ≠ name
  · exact ⟨r, (h.others parentId name hrec).trans hr, rfl⟩
  · push Not at hrec
    obtain ⟨rec, hmem, hid, rfl⟩ := hrec
    obtain ⟨parentId', rowid, hid', hfind⟩ := h.recorded rec hmem
    obtain rfl : parentId' = parentId := Option.some.inj (hid'.symm.trans hid)
    refine ⟨_, hfind, ?_⟩
    rw [hr, Record.row_rowid_some]

/-- The directory of the next record has an id. -/
theorem idAt_parts (h : Recorded modifiedOnly recs t₀ t) {rec : Record}
    (hdir : rec.parts = [] ∨ ∃ rec' ∈ recs, rec'.path = rec.parts) :
    ∃ parentId, t.entries.idAt rec.parts = some parentId := by
  rcases hdir with hnil | ⟨rec', hmem, hpath⟩
  · exact ⟨0, by rw [hnil, Entries.idAt_nil]⟩
  · obtain ⟨parentId, rowid, -, hrow⟩ := h.rowAt_path hmem
    exact ⟨_, hpath ▸ Entries.idAt_of_rowAt hrow⟩

theorem nil (t : Tables) : Recorded modifiedOnly [] t t where
  recorded := fun _ h => absurd h List.not_mem_nil
  others := fun _ _ _ => rfl
  blocksRecorded := fun _ h => absurd h List.not_mem_nil
  blocksOthers := fun _ _ => Iff.rfl

section Next

variable {rec : Record} {parentId : Nat}

/-- The directories of the records before have the ids that they had. -/
theorem idAt_of_recordAt (h : Recorded modifiedOnly recs t₀ t) {rec' : Record} (hmem : rec' ∈ recs)
    {id : Nat}
    (hid : (t.recordAt policy modifiedOnly parentId rec).entries.idAt rec'.parts = some id) :
    t.entries.idAt rec'.parts = some id := by
  obtain ⟨id', rowid, hid', -⟩ := h.recorded rec' hmem
  rw [hid', ← hid, Tables.extends_recordAt.idAt hid']

/-- A new path and the id of its directory: the key is none of the keys recorded before. -/
structure Fresh (recs : List Record) (t : Tables) (parentId : Nat) (rec : Record) : Prop where
  parent : t.entries.idAt rec.parts = some parentId
  name : ∀ rec' ∈ recs, t.entries.idAt rec'.parts = some parentId → rec'.name ≠ rec.name

theorem fresh (hnew : ∀ rec' ∈ recs, rec'.path ≠ rec.path)
    (hparent : t.entries.idAt rec.parts = some parentId) : Fresh recs t parentId rec := by
  refine ⟨hparent, fun rec' hmem hid hname => hnew rec' hmem ?_⟩
  rw [Record.path, Record.path, Entries.idAt_injective hid hparent, hname]

namespace Fresh

theorem parent_recordAt (hfresh : Fresh recs t parentId rec) :
    (t.recordAt policy modifiedOnly parentId rec).entries.idAt rec.parts = some parentId :=
  Tables.extends_recordAt.idAt hfresh.parent

theorem key_ne (hfresh : Fresh recs t parentId rec) {rec' : Record} (hmem : rec' ∈ recs)
    {id : Nat} (hid : t.entries.idAt rec'.parts = some id) : (id, rec'.name) ≠ (parentId, rec.name) := by
  intro hkey
  obtain ⟨rfl, hname⟩ := Prod.mk.inj hkey
  exact hfresh.name rec' hmem hid hname

theorem find_old (hfresh : Fresh recs t parentId rec) (h : Recorded modifiedOnly recs t₀ t) :
    t.entries.find parentId rec.name = t₀.entries.find parentId rec.name :=
  h.others parentId rec.name hfresh.name

/-- The rows of the records before stay. -/
theorem find_recordAt (hfresh : Fresh recs t parentId rec) {rec' : Record} (hmem : rec' ∈ recs)
    {id : Nat} (hid : t.entries.idAt rec'.parts = some id) :
    (t.recordAt policy modifiedOnly parentId rec).entries.find id rec'.name =
      t.entries.find id rec'.name := by
  rw [Tables.find_recordAt, if_neg]
  exact fun hkey => hfresh.key_ne hmem hid hkey.symm

theorem rowid_ne (hfresh : Fresh recs t parentId rec) {rec' : Record} (hmem : rec' ∈ recs) {id : Nat}
    {r : EntryRow} (hid : t.entries.idAt rec'.parts = some id) (hr : t.entries.find id rec'.name = some r) :
    r.rowid ≠ (t.entries.recordedRow policy modifiedOnly parentId rec).rowid := by
  rw [Entries.recordedRow_rowid]
  refine Entries.rowid_ne_rowOf (Entries.find_eq_some.mp hr).1 ?_
  rw [(t.entries.keyUnique.lookup_eq_some.mp hr).2]
  exact hfresh.key_ne hmem hid

/-- The blocks of the row were not touched before. -/
theorem blocks_old (hfresh : Fresh recs t parentId rec) (h : Recorded modifiedOnly recs t₀ t)
    {b : BlockRow}
    (hb : b.entryId = (t.entries.recordedRow policy modifiedOnly parentId rec).rowid) :
    b ∈ t.blocksDigests.rows ↔ b ∈ t₀.blocksDigests.rows := by
  refine h.blocksOthers b (fun rec' hmem r hrow => ?_)
  rw [Record.path, Entries.rowAt_append] at hrow
  obtain ⟨id, hid, hfind⟩ := Entries.rowIn_eq_some.mp hrow
  rw [hb]
  exact (hfresh.rowid_ne hmem hid hfind).symm

end Fresh

end Next

/-- A record more. Its key is none of the keys recorded before, since the paths differ. -/
theorem snoc (h : Recorded modifiedOnly recs t₀ t) {rec : Record}
    (hnew : ∀ rec' ∈ recs, rec'.path ≠ rec.path)
    (hdir : rec.parts = [] ∨ ∃ rec' ∈ recs, rec'.path = rec.parts) :
    Recorded modifiedOnly (recs ++ [rec]) t₀ (t.record policy modifiedOnly rec) := by
  obtain ⟨parentId, hparent⟩ := h.idAt_parts hdir
  have hfresh : Fresh recs t parentId rec := fresh hnew hparent
  have hrecord : t.record policy modifiedOnly rec = t.recordAt policy modifiedOnly parentId rec := by
    simp only [Tables.record, hparent, Option.getD_some]
  rw [hrecord]
  refine ⟨?_, ?_, ?_, ?_⟩
  · intro rec' hmem
    rcases List.mem_append.mp hmem with hmem | hmem
    · obtain ⟨id, rowid, hid, hrow⟩ := h.recorded rec' hmem
      exact ⟨id, rowid, Tables.extends_recordAt.idAt hid, (hfresh.find_recordAt hmem hid).trans hrow⟩
    · obtain rfl := List.mem_singleton.mp hmem
      refine ⟨parentId, (t.entries.rowOf policy modifiedOnly (rec'.params parentId) rec'.fmtim).rowid,
        hfresh.parent_recordAt, ?_⟩
      rw [Tables.find_recordAt_self, Entries.recordedRow, hfresh.find_old h]
  · intro id name hothers
    rw [Tables.find_recordAt, if_neg]
    · refine h.others id name (fun rec' hmem hid => ?_)
      exact hothers rec' (List.mem_append_left _ hmem) (Tables.extends_recordAt.idAt hid)
    · intro hkey
      obtain ⟨rfl, rfl⟩ := Prod.mk.inj hkey
      exact hothers rec (List.mem_append_right _ List.mem_cons_self) hfresh.parent_recordAt rfl
  · intro rec' hmem id r hid hr b hb
    rcases List.mem_append.mp hmem with hmem | hmem
    · have hid' := h.idAt_of_recordAt hmem hid
      have hr' := (hfresh.find_recordAt hmem hid').symm.trans hr
      refine (Tables.recordAt_sameBut b ?_).trans (h.blocksRecorded rec' hmem id r hid' hr' b hb)
      rw [hb]
      exact hfresh.rowid_ne hmem hid' hr'
    · obtain rfl := List.mem_singleton.mp hmem
      obtain rfl : id = parentId := Option.some.inj (hid.symm.trans hfresh.parent_recordAt)
      rw [Tables.find_recordAt_self] at hr
      obtain rfl := Option.some.inj hr
      rw [Tables.recordAt_blocks, hfresh.find_old h]
      exact Blocks.mem_updateBlocks_congr (fun b hb => hfresh.blocks_old h hb) hb
  · intro b hothers
    have hself := hothers rec (List.mem_append_right _ List.mem_cons_self) _
      (Entries.rowAt_of_find hfresh.parent_recordAt Tables.find_recordAt_self)
    refine (Tables.recordAt_sameBut b hself).trans (h.blocksOthers b (fun rec' hmem r hrow => ?_))
    rw [Record.path, Entries.rowAt_append] at hrow
    obtain ⟨id, hid, hr⟩ := Entries.rowIn_eq_some.mp hrow
    refine hothers rec' (List.mem_append_left _ hmem) r ?_
    exact Entries.rowAt_of_find (Tables.extends_recordAt.idAt hid)
      ((hfresh.find_recordAt hmem hid).trans hr)

/-- The run lemma: the tables behind records in order. -/
theorem recordAll (h : Preorder recs) (t₀ : Tables) :
    Recorded modifiedOnly recs t₀ (t₀.recordAll policy modifiedOnly recs) := by
  induction h with
  | nil => exact .nil t₀
  | snoc _ hnew hdir ih =>
      rw [Tables.recordAll_append]
      exact ih.snoc hnew hdir

end Recorded

end Spacenet
