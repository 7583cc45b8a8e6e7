-- SUMMARY: The two tables of the index database, with the constraints that SQLite keeps on them.
import Mathlib.Data.BitVec
import Spacenet.Library.UniqueKey
import Spacenet.Strings

/-!
# Tables

`entries` has one row for each file and directory, `blocks_digests` one for each
block of a file. The uniqueness of the rowid and of the declared UNIQUE columns
are fields of the tables, so every table that can be built satisfies them.
-/

namespace Spacenet

open UniqueKey

abbrev U8 := BitVec 8
abbrev U32 := BitVec 32
abbrev U64 := BitVec 64

abbrev Blob := List U8

/-! ## entries -/

/-- A row of `entries`. `isAlive` is 0 on the rows that a run has marked and 1 after the sweep. The UTF-8
text of a name is held as the string that it was converted from. -/
structure EntryRow where
  rowid : Nat
  isAlive : Int
  parentId : Nat
  name : WString
  isDir : Option Bool
  mtime : Option U64
  fileSize : Option U64
  blockSize : Option Nat
  digest : Option Blob
deriving DecidableEq

/-- The columns of `UNIQUE(parent_id, name)`. -/
def EntryRow.key (r : EntryRow) : Nat × WString := (r.parentId, r.name)

/-- The table `entries`. -/
@[ext] structure Entries where
  rows : List EntryRow
  rowidPos : ∀ r ∈ rows, 0 < r.rowid
  rowidUnique : Unique EntryRow.rowid rows
  keyUnique : Unique EntryRow.key rows

/-- How SQLite chooses the rowid of a new row. The program never names one. -/
structure RowidPolicy where
  next : List Nat → Nat
  fresh : ∀ ids, next ids ∉ ids
  pos : ∀ ids, 0 < next ids

theorem le_foldr_max {ids : List Nat} {i : Nat} (h : i ∈ ids) : i ≤ ids.foldr max 0 := by
  induction ids with
  | nil => cases h
  | cons j ids ih =>
      rcases List.mem_cons.mp h with rfl | h
      · exact Nat.le_max_left _ _
      · exact (ih h).trans (Nat.le_max_right _ _)

/-- One more than the largest rowid, which SQLite chooses while there is room for it. -/
def RowidPolicy.maxPlusOne : RowidPolicy where
  next ids := ids.foldr max 0 + 1
  fresh ids h := absurd (le_foldr_max h) (by omega)
  pos ids := by omega

/-- The values that `update_entry` binds to `st_ins` and `st_upd`. -/
structure EntryParams where
  parentId : Nat
  name : WString
  isDir : Option Bool
  fileSize : Option U64
  blockSize : Option Nat
deriving DecidableEq

def EntryParams.key (p : EntryParams) : Nat × WString := (p.parentId, p.name)

/-- The row that `st_ins` inserts with a rowid: marked, with no mtime and no digest. -/
def EntryParams.row (p : EntryParams) (rowid : Nat) : EntryRow where
  rowid := rowid
  isAlive := 0
  parentId := p.parentId
  name := p.name
  isDir := p.isDir
  mtime := none
  fileSize := p.fileSize
  blockSize := p.blockSize
  digest := none

namespace Entries

def empty : Entries where
  rows := []
  rowidPos := by simp
  rowidUnique := Unique.nil _
  keyUnique := Unique.nil _

/-- `SELECT ... WHERE parent_id = :parent_id AND name = :name`. -/
def find (t : Entries) (parentId : Nat) (name : WString) : Option EntryRow :=
  lookup EntryRow.key (parentId, name) t.rows

def rowids (t : Entries) : List Nat := t.rows.map EntryRow.rowid

/-- The row that `st_ins` inserts. -/
def newRow (t : Entries) (policy : RowidPolicy) (p : EntryParams) : EntryRow :=
  p.row (policy.next t.rowids)

theorem newRow_rowid_ne {t : Entries} {policy : RowidPolicy} {p : EntryParams} {r : EntryRow}
    (hr : r ∈ t.rows) : r.rowid ≠ (t.newRow policy p).rowid := by
  intro h
  exact policy.fresh t.rowids (List.mem_map.mpr ⟨r, hr, h⟩)

/-- Append the row of `st_ins`, when no row has its key. -/
def insert (t : Entries) (policy : RowidPolicy) (p : EntryParams)
    (h : t.find p.parentId p.name = none) : Entries where
  rows := t.rows ++ [t.newRow policy p]
  rowidPos := by
    intro r hr
    rcases List.mem_append.mp hr with hr | hr
    · exact t.rowidPos r hr
    · rw [List.mem_singleton.mp hr]
      exact policy.pos _
  rowidUnique := t.rowidUnique.append (fun _ hr => newRow_rowid_ne hr)
  keyUnique := t.keyUnique.append (lookup_eq_none.mp h)

/-- Rewrite the rows that `p` selects, by an `f` that keeps rowid and key. -/
def update (t : Entries) (p : EntryRow → Bool) (f : EntryRow → EntryRow)
    (hid : ∀ r, p r → (f r).rowid = r.rowid) (hkey : ∀ r, p r → (f r).key = r.key) : Entries where
  rows := modify p f t.rows
  rowidPos := by
    intro r hr
    obtain ⟨r₀, hr₀, rfl⟩ := mem_modify.mp hr
    split
    · rw [hid r₀ ‹_›]
      exact t.rowidPos r₀ hr₀
    · exact t.rowidPos r₀ hr₀
  rowidUnique := t.rowidUnique.modify hid
  keyUnique := t.keyUnique.modify hkey

/-- Keep the rows that `p` selects. -/
def filter (t : Entries) (p : EntryRow → Bool) : Entries where
  rows := t.rows.filter p
  rowidPos := fun r hr => t.rowidPos r (List.mem_filter.mp hr).1
  rowidUnique := t.rowidUnique.filter p
  keyUnique := t.keyUnique.filter p

theorem find_eq_some {t : Entries} {parentId : Nat} {name : WString} {r : EntryRow} :
    t.find parentId name = some r ↔ r ∈ t.rows ∧ r.parentId = parentId ∧ r.name = name := by
  rw [find, t.keyUnique.lookup_eq_some]
  simp [EntryRow.key]

theorem find_eq_none {t : Entries} {parentId : Nat} {name : WString} :
    t.find parentId name = none ↔ ∀ r ∈ t.rows, r.parentId = parentId → r.name ≠ name := by
  rw [find, lookup_eq_none]
  simp [EntryRow.key]

theorem find_update {t : Entries} {p : EntryRow → Bool} {f : EntryRow → EntryRow}
    {hid : ∀ r, p r → (f r).rowid = r.rowid} {hkey : ∀ r, p r → (f r).key = r.key}
    {parentId : Nat} {name : WString} :
    (t.update p f hid hkey).find parentId name =
      (t.find parentId name).map (fun r => if p r then f r else r) :=
  lookup_modify hkey

theorem find_filter {t : Entries} {p : EntryRow → Bool} {parentId : Nat} {name : WString} :
    (t.filter p).find parentId name = (t.find parentId name).filter p :=
  t.keyUnique.lookup_filter p

end Entries

/-! ## blocks_digests -/

/-- A row of `blocks_digests`. -/
structure BlockRow where
  entryId : Nat
  blockNo : Int
  digest : Option Blob
deriving DecidableEq

/-- The columns of `UNIQUE(entry_id, block_no)`. -/
def BlockRow.key (b : BlockRow) : Nat × Int := (b.entryId, b.blockNo)

/-- The table `blocks_digests`. -/
@[ext] structure Blocks where
  rows : List BlockRow
  keyUnique : Unique BlockRow.key rows

namespace Blocks

def empty : Blocks where
  rows := []
  keyUnique := Unique.nil _

def find (t : Blocks) (entryId : Nat) (blockNo : Int) : Option BlockRow :=
  lookup BlockRow.key (entryId, blockNo) t.rows

/-- Append a row, when no row has its key. -/
def insert (t : Blocks) (b : BlockRow) (h : t.find b.entryId b.blockNo = none) : Blocks where
  rows := t.rows ++ [b]
  keyUnique := t.keyUnique.append (lookup_eq_none.mp h)

/-- Rewrite the rows that `p` selects, by an `f` that keeps the key. -/
def update (t : Blocks) (p : BlockRow → Bool) (f : BlockRow → BlockRow)
    (hkey : ∀ b, p b → (f b).key = b.key) : Blocks where
  rows := modify p f t.rows
  keyUnique := t.keyUnique.modify hkey

/-- Keep the rows that `p` selects. -/
def filter (t : Blocks) (p : BlockRow → Bool) : Blocks where
  rows := t.rows.filter p
  keyUnique := t.keyUnique.filter p

theorem find_eq_none {t : Blocks} {entryId : Nat} {blockNo : Int} :
    t.find entryId blockNo = none ↔ ∀ b ∈ t.rows, b.entryId = entryId → b.blockNo ≠ blockNo := by
  rw [find, lookup_eq_none]
  simp [BlockRow.key]

end Blocks

/-- The content of the index database. -/
@[ext] structure Tables where
  entries : Entries
  blocksDigests : Blocks

def Tables.empty : Tables := ⟨Entries.empty, Blocks.empty⟩

end Spacenet
