-- SUMMARY: Rows by path: following `parent_id` from the root, and what the updates of the table keep of it.
import Spacenet.Effect.Entry

/-!
# Rows by path

The table `entries` is a tree: a path leads to a row through the rows of its
directories, each the `parent_id` of the next. The root of a tree is the row with
the `parent_id` 0 and the path text of the root as its name.
-/

namespace Spacenet

open UniqueKey

namespace Entries

/-- The rowid that a path leads to; the empty path leads to 0. -/
def idAt (t : Entries) (path : List WString) : Option Nat :=
  path.foldlM (fun id name => (t.find id name).map EntryRow.rowid) 0

/-- The row of the entry `name` in the directory `parts`. -/
def rowIn (t : Entries) (parts : List WString) (name : WString) : Option EntryRow :=
  (t.idAt parts).bind fun id => t.find id name

/-- The row that a path leads to. -/
def rowAt (t : Entries) (path : List WString) : Option EntryRow :=
  path.getLast?.bind fun name => t.rowIn path.dropLast name

variable {t t' t'' : Entries} {path : List WString}

@[simp] theorem idAt_nil (t : Entries) : t.idAt [] = some 0 := rfl

theorem rowAt_append (t : Entries) (parts : List WString) (name : WString) :
    t.rowAt (parts ++ [name]) = t.rowIn parts name := by
  simp [rowAt]

theorem idAt_append (t : Entries) (parts : List WString) (name : WString) :
    t.idAt (parts ++ [name]) = (t.rowIn parts name).map EntryRow.rowid := by
  simp only [idAt, rowIn, List.foldlM_append, List.foldlM_cons, List.foldlM_nil, bind_pure]
  cases List.foldlM (fun id name => (t.find id name).map EntryRow.rowid) 0 parts <;> rfl

theorem rowIn_eq_some {parts : List WString} {name : WString} {r : EntryRow} :
    t.rowIn parts name = some r ↔ ∃ id, t.idAt parts = some id ∧ t.find id name = some r := by
  unfold rowIn
  rw [Option.bind_eq_some_iff]

theorem rowAt_of_find {parts : List WString} {name : WString} {id : Nat} {r : EntryRow}
    (hid : t.idAt parts = some id) (hfind : t.find id name = some r) :
    t.rowAt (parts ++ [name]) = some r := by
  rw [rowAt_append]
  exact rowIn_eq_some.mpr ⟨id, hid, hfind⟩

theorem idAt_of_rowAt {r : EntryRow} (h : t.rowAt path = some r) : t.idAt path = some r.rowid := by
  cases path using List.reverseRecOn with
  | nil => cases h
  | append_singleton parts name =>
      rw [rowAt_append] at h
      rw [idAt_append, h, Option.map_some]

theorem rowAt_mem {r : EntryRow} (h : t.rowAt path = some r) : r ∈ t.rows := by
  obtain ⟨name, -, h⟩ := Option.bind_eq_some_iff.mp h
  obtain ⟨id, -, h⟩ := rowIn_eq_some.mp h
  exact (find_eq_some.mp h).1

/-- The mtime that is stored at the path, 0 when there is none. -/
def mtimeAt (t : Entries) (path : List WString) : U64 := ((t.rowAt path).bind EntryRow.mtime).getD 0

theorem mtimeOf_of_idAt {parts : List WString} {id : Nat} (h : t.idAt parts = some id) (name : WString) :
    t.mtimeOf id name = t.mtimeAt (parts ++ [name]) := by
  rw [mtimeAt, rowAt_append, rowIn, h]
  rfl

/-- Only the empty path leads to 0. -/
theorem idAt_append_ne_zero {parts : List WString} {name : WString} :
    t.idAt (parts ++ [name]) ≠ some 0 := by
  rw [idAt_append]
  intro h
  obtain ⟨r, hr, hid⟩ := Option.map_eq_some_iff.mp h
  obtain ⟨id, -, hfind⟩ := rowIn_eq_some.mp hr
  have := t.rowidPos r (find_eq_some.mp hfind).1
  omega

/-- A rowid has one path. -/
theorem idAt_injective {path path' : List WString} {id : Nat} (h : t.idAt path = some id)
    (h' : t.idAt path' = some id) : path = path' := by
  induction path using List.reverseRecOn generalizing path' id with
  | nil =>
      cases path' using List.reverseRecOn with
      | nil => rfl
      | append_singleton parts' name' =>
          cases h
          exact absurd h' idAt_append_ne_zero
  | append_singleton parts name ih =>
      cases path' using List.reverseRecOn with
      | nil =>
          cases h'
          exact absurd h idAt_append_ne_zero
      | append_singleton parts' name' =>
          rw [idAt_append] at h h'
          obtain ⟨r, hr, rfl⟩ := Option.map_eq_some_iff.mp h
          obtain ⟨r', hr', hid⟩ := Option.map_eq_some_iff.mp h'
          obtain ⟨i, hi, hfind⟩ := rowIn_eq_some.mp hr
          obtain ⟨i', hi', hfind'⟩ := rowIn_eq_some.mp hr'
          obtain ⟨hmem, hparent, hname⟩ := find_eq_some.mp hfind
          obtain ⟨hmem', hparent', hname'⟩ := find_eq_some.mp hfind'
          obtain rfl := t.rowidUnique.eq_of_key hmem hmem' hid.symm
          rw [← hname, ← hname', ih hi (hi'.trans (congrArg some (hparent'.symm.trans hparent)))]

theorem rowAt_injective {path path' : List WString} {r : EntryRow} (h : t.rowAt path = some r)
    (h' : t.rowAt path' = some r) : path = path' :=
  idAt_injective (idAt_of_rowAt h) (idAt_of_rowAt h')

/-! ## Tables that keep their keys -/

/-- Every row of `t` has a row of the same key and rowid in `t'`. -/
def Extends (t t' : Entries) : Prop :=
  ∀ parentId name r, t.find parentId name = some r →
    ∃ r', t'.find parentId name = some r' ∧ r'.rowid = r.rowid

theorem Extends.refl (t : Entries) : t.Extends t := fun _ _ r h => ⟨r, h, rfl⟩

theorem Extends.trans (h : t.Extends t') (h' : t'.Extends t'') : t.Extends t'' := by
  intro parentId name r hr
  obtain ⟨r', hr', hid⟩ := h parentId name r hr
  obtain ⟨r'', hr'', hid'⟩ := h' parentId name r' hr'
  exact ⟨r'', hr'', hid'.trans hid⟩

theorem Extends.idAt (h : t.Extends t') {id : Nat} (hid : t.idAt path = some id) :
    t'.idAt path = some id := by
  induction path using List.reverseRecOn generalizing id with
  | nil => exact hid
  | append_singleton parts name ih =>
      rw [idAt_append] at hid ⊢
      obtain ⟨r, hr, rfl⟩ := Option.map_eq_some_iff.mp hid
      obtain ⟨i, hi, hfind⟩ := rowIn_eq_some.mp hr
      obtain ⟨r', hfind', hrow⟩ := h i name r hfind
      rw [rowIn_eq_some.mpr ⟨i, ih hi, hfind'⟩, Option.map_some, hrow]

theorem Extends.rowAt (h : t.Extends t') {r : EntryRow} (hrow : t.rowAt path = some r) :
    ∃ r', t'.rowAt path = some r' ∧ r'.rowid = r.rowid := by
  cases path using List.reverseRecOn with
  | nil => cases hrow
  | append_singleton parts name =>
      have hid := h.idAt (idAt_of_rowAt hrow)
      rw [idAt_append, ← rowAt_append] at hid
      exact Option.map_eq_some_iff.mp hid

theorem extends_updateEntry {policy : RowidPolicy} {modifiedOnly : Bool} {params : EntryParams}
    {mtime : U64} : t.Extends (t.updateEntry policy modifiedOnly params mtime) := by
  intro parentId name r hr
  rw [find_updateEntry]
  split
  · next hkey =>
      cases hkey
      exact ⟨_, rfl, rowOf_rowid hr⟩
  · exact ⟨r, hr, rfl⟩

theorem extends_update {p : EntryRow → Bool} {f : EntryRow → EntryRow}
    {hid : ∀ r, p r → (f r).rowid = r.rowid} {hkey : ∀ r, p r → (f r).key = r.key} :
    t.Extends (t.update p f hid hkey) := by
  intro parentId name r hr
  refine ⟨if p r then f r else r, by rw [find_update, hr, Option.map_some], ?_⟩
  split
  · exact hid r ‹_›
  · rfl

theorem extends_updAfter (id : Nat) (mtime : U64) (digest : Blob) :
    t.Extends (t.updAfter id mtime digest) :=
  extends_update

end Entries

end Spacenet
