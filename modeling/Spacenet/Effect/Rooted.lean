-- SUMMARY: The table `entries` stays a tree over every history: each row has a path, and the directory of a marked row is marked.
import Spacenet.Effect.History

/-!
# The tree of the rows

Every row of a reachable table has a path. A marked row has its directory marked,
since a callback records the directory before its entries; so the sweep, also
one that is left after a part, never takes a directory from a row that it keeps.
-/

namespace Spacenet

open UniqueKey

namespace Entries

/-- A directory into which a marked row can be put: the root of all paths, or a marked row. -/
def MarkedDir (t : Entries) (id : Nat) : Prop :=
  id = 0 ∨ ∃ p ∈ t.rows, p.rowid = id ∧ p.isAlive = 0

/-- Every row has a path, and a marked row has its directory marked. -/
structure Rooted (t : Entries) : Prop where
  linked : ∀ r ∈ t.rows, ∃ path, t.rowAt path = some r
  marked : ∀ r ∈ t.rows, r.isAlive = 0 → t.MarkedDir r.parentId

variable {t t' : Entries}

theorem Extends.rowAt_of_mem (h : t.Extends t') {path : List WString} {r r' : EntryRow}
    (hrow : t.rowAt path = some r) (hr' : r' ∈ t'.rows) (hid : r'.rowid = r.rowid) :
    t'.rowAt path = some r' := by
  obtain ⟨s, hs, hsid⟩ := h.rowAt hrow
  rw [hs, t'.rowidUnique.eq_of_key (rowAt_mem hs) hr' (hsid.trans hid.symm)]

theorem find_self {r : EntryRow} (hr : r ∈ t.rows) : t.find r.parentId r.name = some r :=
  find_eq_some.mpr ⟨hr, rfl, rfl⟩

/-! ## One row -/

/-- `t'` is `t` with the marked row `row` under its key. -/
structure Puts (t t' : Entries) (row : EntryRow) : Prop where
  find : ∀ parentId name, t'.find parentId name =
    if row.key = (parentId, name) then some row else t.find parentId name
  rowid : ∀ r, t.find row.parentId row.name = some r → row.rowid = r.rowid
  marked : row.isAlive = 0

namespace Puts

variable {row : EntryRow}

theorem find_row (h : t.Puts t' row) : t'.find row.parentId row.name = some row := by
  rw [h.find]
  exact if_pos rfl

theorem row_mem (h : t.Puts t' row) : row ∈ t'.rows := (find_eq_some.mp h.find_row).1

theorem extend (h : t.Puts t' row) : t.Extends t' := by
  intro parentId name r hr
  rw [h.find]
  split
  · next hkey =>
      obtain ⟨rfl, rfl⟩ := Prod.mk.inj hkey
      exact ⟨row, rfl, h.rowid r hr⟩
  · exact ⟨r, hr, rfl⟩

/-- The rows of `t'`: the row put, and rows of `t`. -/
theorem mem_cases (h : t.Puts t' row) {r : EntryRow} (hr : r ∈ t'.rows) : r = row ∨ r ∈ t.rows := by
  have hfind := find_self hr
  rw [h.find] at hfind
  split at hfind
  · exact .inl (Option.some.inj hfind).symm
  · exact .inr (find_eq_some.mp hfind).1

/-- A marked row has a marked row of its rowid behind it. -/
theorem markedDir (h : t.Puts t' row) {id : Nat} (hdir : t.MarkedDir id) : t'.MarkedDir id := by
  refine hdir.imp_right ?_
  rintro ⟨p, hp, rfl, hmarked⟩
  by_cases hkey : row.key = (p.parentId, p.name)
  · obtain ⟨hparent, hname⟩ := Prod.mk.inj hkey
    refine ⟨row, h.row_mem, h.rowid p ?_, h.marked⟩
    rw [hparent, hname]
    exact find_self hp
  · have hfind : t'.find p.parentId p.name = some p := by
      rw [h.find, if_neg hkey]
      exact find_self hp
    exact ⟨p, (find_eq_some.mp hfind).1, rfl, hmarked⟩

end Puts

/-- A marked row in a marked directory. -/
theorem Rooted.put (h : t.Rooted) {row : EntryRow} (hputs : t.Puts t' row)
    (hdir : t.MarkedDir row.parentId) : t'.Rooted where
  linked := by
    intro r hr
    rcases hputs.mem_cases hr with rfl | hold
    · -- the row put is behind the path of its directory
      rcases hdir with hzero | ⟨p, hp, hid, -⟩
      · refine ⟨[] ++ [r.name], rowAt_of_find ?_ hputs.find_row⟩
        rw [hzero]
        rfl
      · obtain ⟨path, hpath⟩ := h.linked p hp
        refine ⟨path ++ [r.name], rowAt_of_find ?_ hputs.find_row⟩
        rw [← hid]
        exact hputs.extend.idAt (idAt_of_rowAt hpath)
    · obtain ⟨path, hpath⟩ := h.linked r hold
      exact ⟨path, hputs.extend.rowAt_of_mem hpath hr rfl⟩
  marked := by
    intro r hr hmarked
    rcases hputs.mem_cases hr with rfl | hold
    · exact hputs.markedDir hdir
    · exact hputs.markedDir (h.marked r hold hmarked)

/-- A row that is put at `path` leaves what the other paths lead to. -/
theorem Rooted.rowAt_put (h : t.Rooted) {row : EntryRow} (hputs : t.Puts t' row) {path path' : List WString}
    (hrow : t'.rowAt path = some row) (hne : path' ≠ path) : t'.rowAt path' = t.rowAt path' := by
  cases hnew : t'.rowAt path' with
  | some r =>
      rcases hputs.mem_cases (rowAt_mem hnew) with rfl | hold
      · exact absurd (rowAt_injective hnew hrow) hne
      · obtain ⟨p, hp⟩ := h.linked r hold
        rw [rowAt_injective hnew (hputs.extend.rowAt_of_mem hp (rowAt_mem hnew) rfl), hp]
  | none =>
      cases hold : t.rowAt path' with
      | none => rfl
      | some r =>
          obtain ⟨s, hs, -⟩ := hputs.extend.rowAt hold
          rw [hnew] at hs
          cases hs

/-! ## The sweep -/

/-- The path of a marked row leads to it among the marked rows. -/
theorem Rooted.rowAt_deleteUnmarked (h : t.Rooted) {path : List WString} {r : EntryRow}
    (hrow : t.rowAt path = some r) (hmarked : r.isAlive = 0) :
    t.deleteUnmarked.rowAt path = some r := by
  induction path using List.reverseRecOn generalizing r with
  | nil => cases hrow
  | append_singleton parts name ih =>
      rw [rowAt_append] at hrow
      obtain ⟨id, hid, hfind⟩ := rowIn_eq_some.mp hrow
      have hfind' : t.deleteUnmarked.find id name = some r := by
        rw [find_deleteUnmarked, hfind, Option.filter_some, if_pos (decide_eq_true hmarked)]
      refine rowAt_of_find ?_ hfind'
      obtain ⟨hr, hparent, -⟩ := find_eq_some.mp hfind
      cases parts using List.reverseRecOn with
      | nil => exact hid
      | append_singleton parts' name' =>
          rw [idAt_append] at hid
          obtain ⟨p, hp, hpid⟩ := Option.map_eq_some_iff.mp hid
          rw [← rowAt_append] at hp
          have hpos := t.rowidPos p (rowAt_mem hp)
          rcases h.marked r hr hmarked with hzero | ⟨p', hp', hid', hmarked'⟩
          · omega
          · obtain rfl : p = p' := t.rowidUnique.eq_of_key (rowAt_mem hp) hp' (by
              rw [hpid, hid', hparent])
            rw [idAt_of_rowAt (ih hp hmarked'), hpid]

theorem mem_deleteUnmarked {r : EntryRow} :
    r ∈ t.deleteUnmarked.rows ↔ r ∈ t.rows ∧ r.isAlive = 0 := by
  simp only [deleteUnmarked, filter, List.mem_filter, decide_eq_true_eq]

theorem Rooted.deleteUnmarked (h : t.Rooted) : t.deleteUnmarked.Rooted where
  linked := by
    intro r hr
    obtain ⟨hr, hmarked⟩ := mem_deleteUnmarked.mp hr
    obtain ⟨path, hpath⟩ := h.linked r hr
    exact ⟨path, h.rowAt_deleteUnmarked hpath hmarked⟩
  marked := by
    intro r hr hmarked
    obtain ⟨hr, -⟩ := mem_deleteUnmarked.mp hr
    refine (h.marked r hr hmarked).imp_right ?_
    rintro ⟨p, hp, hid, hmarked'⟩
    exact ⟨p, mem_deleteUnmarked.mpr ⟨hp, hmarked'⟩, hid, hmarked'⟩

theorem mem_resetAlive {r : EntryRow} : r ∈ t.resetAlive.rows ↔ ∃ s ∈ t.rows, r = s.revived := by
  simp only [resetAlive, update, mem_modify, if_true]
  constructor
  · rintro ⟨s, hs, rfl⟩
    exact ⟨s, hs, rfl⟩
  · rintro ⟨s, hs, rfl⟩
    exact ⟨s, hs, rfl⟩

theorem extends_resetAlive : t.Extends t.resetAlive := extends_update

theorem Rooted.resetAlive (h : t.Rooted) : t.resetAlive.Rooted where
  linked := by
    intro r hr
    obtain ⟨s, hs, rfl⟩ := mem_resetAlive.mp hr
    obtain ⟨path, hpath⟩ := h.linked s hs
    exact ⟨path, extends_resetAlive.rowAt_of_mem hpath hr rfl⟩
  marked := by
    intro r hr hmarked
    obtain ⟨s, -, rfl⟩ := mem_resetAlive.mp hr
    cases hmarked

/-- The path of a marked row leads to it behind the sweep. -/
theorem Rooted.rowAt_sweep {tables : Tables} (h : tables.entries.Rooted) {path : List WString}
    {r : EntryRow} (hrow : tables.entries.rowAt path = some r) (hmarked : r.isAlive = 0) :
    tables.sweep.entries.rowAt path = some r.revived := by
  have hkept := h.rowAt_deleteUnmarked hrow hmarked
  have hmem : r.revived ∈ tables.sweep.entries.rows := mem_resetAlive.mpr ⟨r, rowAt_mem hkept, rfl⟩
  exact extends_resetAlive.rowAt_of_mem hkept hmem rfl

end Entries

/-! ## Callbacks -/

section

variable {policy : RowidPolicy} {modifiedOnly : Bool} {parentId : Nat} {rec : Record} {t : Tables}

theorem Entries.puts_updateEntry {entries : Entries} {params : EntryParams} {mtime : U64} :
    entries.Puts (entries.updateEntry policy modifiedOnly params mtime)
      (entries.rowOf policy modifiedOnly params mtime) := by
  have hkey : (entries.rowOf policy modifiedOnly params mtime).key = params.key := Entries.rowOf_key
  obtain ⟨hparent, hname⟩ := Prod.mk.inj hkey
  refine ⟨fun parentId name => ?_, fun r hr => ?_, Entries.rowOf_isAlive⟩
  · rw [hkey]
    exact Entries.find_updateEntry
  · rw [hparent, hname] at hr
    exact Entries.rowOf_rowid hr

theorem Tables.puts_recordAt :
    t.entries.Puts (t.recordAt policy modifiedOnly parentId rec).entries
      (t.entries.recordedRow policy modifiedOnly parentId rec) := by
  have hkey : (t.entries.recordedRow policy modifiedOnly parentId rec).key = (parentId, rec.name) := by
    rw [Entries.recordedRow_eq, Record.after_key]
    exact Entries.rowOf_key
  obtain ⟨hparent, hname⟩ := Prod.mk.inj hkey
  refine ⟨fun parentId' name => ?_, fun r hr => ?_, Record.row_isAlive⟩
  · rw [hkey]
    exact Tables.find_recordAt
  · rw [hparent, hname] at hr
    rw [Entries.recordedRow, hr, Record.row_rowid_some]

/-- A record in a marked directory leaves a marked row with the id that `update_entry` returns. -/
theorem Tables.markedDir_recordAt : (t.recordAt policy modifiedOnly parentId rec).entries.MarkedDir
    (t.entryId policy modifiedOnly (rec.params parentId) rec.fmtim) := by
  refine .inr ⟨_, Tables.puts_recordAt.row_mem, ?_, Record.row_isAlive⟩
  exact Entries.recordedRow_rowid policy modifiedOnly parentId rec t.entries

/-- The tables are a tree, and `parents` leads to marked directories. -/
structure Index.Rooted (idx : Index) : Prop where
  entries : idx.tables.entries.Rooted
  parents : ∀ path id, idx.parents.lookup path = some id → idx.tables.entries.MarkedDir id

namespace Index.Rooted

variable {idx idx' : Index} {c : Call}

theorem start (h : t.entries.Rooted) : Index.Rooted ⟨t, []⟩ := ⟨h, fun _ _ h => by cases h⟩

/-- A record in a marked directory, whose id `parents` may get. -/
theorem record (h : idx.Rooted) (hdir : idx.tables.entries.MarkedDir parentId)
    {parents : List (WString × Nat)} (hparents : parents = idx.parents ∨ ∃ path, parents = emplace path
      (idx.tables.entryId policy modifiedOnly (rec.params parentId) rec.fmtim) idx.parents) :
    Index.Rooted ⟨idx.tables.recordAt policy modifiedOnly parentId rec, parents⟩ where
  entries := by
    refine h.entries.put Tables.puts_recordAt ?_
    have hkey : (idx.tables.entries.recordedRow policy modifiedOnly parentId rec).key =
        (parentId, rec.name) := by
      rw [Entries.recordedRow_eq, Record.after_key]
      exact Entries.rowOf_key
    rw [(Prod.mk.inj hkey).1]
    exact hdir
  parents := by
    have hold : ∀ path id, idx.parents.lookup path = some id →
        (idx.tables.recordAt policy modifiedOnly parentId rec).entries.MarkedDir id :=
      fun path id hlookup => Tables.puts_recordAt.markedDir (h.parents path id hlookup)
    intro path id hlookup
    rcases hparents with rfl | ⟨path', rfl⟩
    · exact hold path id hlookup
    · rcases lookup_emplace_cases hlookup with hknown | ⟨-, rfl⟩
      · exact hold path id hknown
      · exact Tables.markedDir_recordAt

theorem enter (h : idx.Rooted) (hdir : idx.tables.entries.MarkedDir parentId) :
    (idx.enter policy modifiedOnly c parentId).Rooted := by
  refine h.record hdir ?_
  unfold Record.parentsBehind
  split
  · exact .inr ⟨_, rfl⟩
  · exact .inl rfl

theorem enterRoot (h : idx.Rooted) (path : WString) :
    (idx.enterRoot policy modifiedOnly path).Rooted :=
  h.record (.inl rfl) (.inr ⟨path, rfl⟩)

theorem visit (h : idx.Rooted) (hvisit : idx.visit policy modifiedOnly c = some idx') :
    idx'.Rooted := by
  cases Index.visit_cases hvisit with
  | skipped inaccessible => exact h
  | below accessible converts known => exact h.enter (h.parents _ _ known)
  | first accessible => exact (h.enterRoot _).enter Tables.markedDir_recordAt

theorem partly (h : idx.Rooted) (hdir : idx.tables.entries.MarkedDir parentId)
    (hpartly : idx.tables.Partly policy modifiedOnly parentId rec t) : t.entries.Rooted := by
  have hentry : (idx.tables.updateEntry policy modifiedOnly (rec.params parentId)
      rec.fmtim).entries.Rooted := by
    refine h.entries.put Entries.puts_updateEntry ?_
    rw [(Prod.mk.inj Entries.rowOf_key).1]
    exact hdir
  cases hpartly with
  | before => exact h.entries
  | entry => exact hentry
  | blocks hashed same => exact same.entries ▸ hentry

theorem inside (h : idx.Rooted) (hinside : idx.Inside policy modifiedOnly c t) :
    t.entries.Rooted := by
  rcases hinside with rfl | ⟨-, hinside⟩
  · exact h.entries
  · rcases hinside with ⟨parentId, hlookup, hpartly⟩ | ⟨-, -, hpartly | hpartly⟩
    · exact h.partly (h.parents _ _ hlookup) hpartly
    · exact h.partly (.inl rfl) hpartly
    · exact (h.enterRoot _).partly Tables.markedDir_recordAt hpartly

theorem visitAll {cs : List Call} (h : idx.Rooted)
    (hvisit : idx.visitAll policy modifiedOnly cs = some idx') : idx'.Rooted :=
  Index.visitAll_keeps (fun _ _ _ _ hidx hfirst => hidx.visit hfirst) h hvisit

end Index.Rooted

end

/-! ## Histories -/

/-- What the sweep leaves on disk, when it throws as well. -/
theorem cleanupEntries_committed {sql : Sqlite} (h : sql.Throws) {db : Db} (hdb : db.snapshot = none) :
    (resultDb (cleanupEntries sql db)).committed.entries = db.tables.sweep.entries ∨
      (resultDb (cleanupEntries sql db)).committed.entries = db.tables.entries ∨
      (resultDb (cleanupEntries sql db)).committed.entries = db.tables.entries.deleteUnmarked := by
  have hwp := wp_cleanupEntries h.losesNothing hdb
  cases hc : cleanupEntries sql db with
  | ok a db' =>
      obtain ⟨log, rfl⟩ := Prog.wp_of_ok hwp hc
      left
      simp [resultDb, Db.committed, hdb]
  | error e db' =>
      right
      simp only [resultDb]
      obtain ⟨-, htables | htables | htables⟩ := Prog.wp_of_error hwp hc
      · rw [htables]
        exact .inl rfl
      · rw [htables]
        exact .inl rfl
      · rw [htables]
        exact .inr rfl

theorem Entries.empty_rooted : Entries.empty.Rooted where
  linked := fun _ hr => absurd hr List.not_mem_nil
  marked := fun _ hr => absurd hr List.not_mem_nil

/-- The table of a history whose failing statements throw is a tree. -/
theorem History.rooted {admits : Run → EStateM.Result Error Db Unit → Prop}
    (hadmits : ∀ x r, admits x r → x.env.sql.Throws) {xs : List Run} {t : Tables}
    (h : History admits xs t) : t.entries.Rooted := by
  refine h.invariant (I := fun _ t => t.entries.Rooted) Entries.empty_rooted ?_
  intro xs x db r hrooted hdb hresult hadmitted
  have hsql := hadmits x r hadmitted
  refine Attempt.keeps (s := ⟨x, db⟩) (I := fun t => t.entries.Rooted) (J := Index.Rooted) hsql
    (fun _ h => h.entries) ?_ ?_ (.start hrooted) hdb ?_ hresult
  · exact fun _ _ _ _ h hvisit => h.visit hvisit
  · exact fun _ _ _ _ h hinside => h.inside hinside
  · intro before hclosed ht
    rcases cleanupEntries_committed hsql hclosed with heq | heq | heq
    · exact heq ▸ ht.deleteUnmarked.resetAlive
    · exact heq ▸ ht
    · exact heq ▸ ht.deleteUnmarked

end Spacenet
