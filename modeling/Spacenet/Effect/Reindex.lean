-- SUMMARY: `reindex` as schema, walk and sweep; its result does not depend on the fuel, and the sweep keeps the marked rows.
import Spacenet.Effect.Run

/-!
# Whole runs

`reindex` on a directory tree creates the schema, runs the events of the tree and
sweeps. With enough fuel it has a result, and only one.
-/

namespace Spacenet

open Prog Machine

/-! ## The result of a run -/

/-- `reindex` on the directory tree `t`, named by `path`, has the result `r`. -/
def Reindexes (env : Env) (t : Tree) (path : WString) (win : Win32) (db : Db)
    (r : EStateM.Result Error Db Unit) : Prop :=
  ∃ fuel, reindex env (t.disk (rootPath path)) fuel path win db = some r

/-- The result of `reindex` by the events of the tree. -/
def reindexed (env : Env) (t : Tree) (root : WString) (lastError : U32) (db : Db) :
    EStateM.Result Error Db Unit :=
  match env.sql.executeAll schemaStatements db with
  | .error e db => .error e db
  | .ok _ db =>
      match runEvents indexReader (manipulator env (t.disk root)) (t.events indexReader root) lastError
        ⟨db, [], 0⟩ with
      | .through _ w | .returned w => cleanupEntries env.sql w.db
      | .threw e w => .error e w.db

theorem reindex_of_read {env : Env} {t : Tree} {path : WString} {win : Win32} {db : Db} {fuel : Nat}
    {r : EStateM.Result Error Db Unit}
    (h : reindex env (t.disk (rootPath path)) fuel path win db = some r) :
    r = reindexed env t (rootPath path) win.lastError db := by
  unfold reindex at h
  unfold reindexed
  cases hschema : env.sql.executeAll schemaStatements db with
  | error e db' =>
      simp only [hschema] at h ⊢
      exact (Option.some.inj h).symm
  | ok _ db' =>
      simp only [hschema] at h ⊢
      cases hread : indexReader.read fuel (t.disk (rootPath path))
          (some (manipulator env (t.disk (rootPath path)))) path win ⟨db', [], 0⟩ with
      | none =>
          rw [hread] at h
          cases h
      | some result =>
          have hgives := DirectoryReader.read_gives rfl rfl hread
          cases hrun : runEvents indexReader (manipulator env (t.disk (rootPath path)))
              (t.events indexReader (rootPath path)) win.lastError ⟨db', [], 0⟩ with
          | through lastError w =>
              rw [hrun] at hgives
              obtain ⟨st, rfl, rfl⟩ := hgives
              rw [hread] at h
              exact (Option.some.inj h).symm
          | returned w =>
              rw [hrun] at hgives
              obtain ⟨st, rfl, rfl⟩ := hgives
              rw [hread] at h
              exact (Option.some.inj h).symm
          | threw e w =>
              rw [hrun] at hgives
              obtain ⟨st, rfl, rfl⟩ := hgives
              rw [hread] at h
              exact (Option.some.inj h).symm

theorem reindex_total (env : Env) (t : Tree) (path : WString) (win : Win32) (db : Db) :
    ∃ r, Reindexes env t path win db r := by
  unfold Reindexes reindex
  cases hschema : env.sql.executeAll schemaStatements db with
  | error e db' => exact ⟨_, 0, rfl⟩
  | ok _ db' =>
      obtain ⟨fuel, hread⟩ := DirectoryReader.read_total t indexReader
        (manipulator env (t.disk (rootPath path))) path win ⟨db', [], 0⟩ rfl rfl
      obtain ⟨result, hread⟩ := Option.isSome_iff_exists.mp hread
      cases result with
      | ok _ st =>
          refine ⟨cleanupEntries env.sql st.user.db, fuel, ?_⟩
          simp only [hread]
      | error e st =>
          refine ⟨.error e st.user.db, fuel, ?_⟩
          simp only [hread]

/-- A run has one result, that of the events of its tree. -/
theorem reindexes_iff {env : Env} {t : Tree} {path : WString} {win : Win32} {db : Db}
    {r : EStateM.Result Error Db Unit} :
    Reindexes env t path win db r ↔ r = reindexed env t (rootPath path) win.lastError db := by
  constructor
  · rintro ⟨fuel, h⟩
    exact reindex_of_read h
  · rintro rfl
    obtain ⟨r, fuel, h⟩ := reindex_total env t path win db
    exact ⟨fuel, by rw [h, reindex_of_read h]⟩

/-! ## The schema -/

theorem wp_schema {sql : Sqlite} (h : sql.LosesNothing) {db : Db} (hdb : db.snapshot = none) :
    wp (sql.executeAll schemaStatements) (fun _ db' => ∃ log, db' = db.put db.tables log)
      (fun _ db' => ¬sql.NoFault ∧ ∃ log, db' = db.put db.tables log) db := by
  have key : ∀ (objects : List SchemaObject) (db' : Db), (∃ log, db' = db.put db.tables log) →
      wp (sql.executeAll (objects.map .create)) (fun _ db' => ∃ log, db' = db.put db.tables log)
        (fun _ db' => ¬sql.NoFault ∧ ∃ log, db' = db.put db.tables log) db' := by
    intro objects
    induction objects with
    | nil => exact fun _ h => h
    | cons object objects ih =>
        rintro db' ⟨log, rfl⟩
        simp only [List.map_cons, Sqlite.executeAll, wp_bind]
        refine h.wp_execute rfl rfl hdb ?_ ?_
        · intro log
          exact ih _ ⟨log, rfl⟩
        · intro e log hfault
          exact ⟨hfault, log, rfl⟩
  exact key [.entries, .i1, .i2, .blocksDigests, .i3] db ⟨db.log, rfl⟩

/-! ## The sweep -/

/-- The tables behind `cleanup_entries`. -/
def Tables.sweep (t : Tables) : Tables where
  entries := t.entries.deleteUnmarked.resetAlive
  blocksDigests := t.blocksDigests.deleteEntries t.entries.unmarked

namespace Entries

variable {t : Entries}

theorem mem_sweep {r : EntryRow} :
    r ∈ t.deleteUnmarked.resetAlive.rows ↔ ∃ s ∈ t.rows, s.isAlive = 0 ∧ r = { s with isAlive := 1 } := by
  simp only [resetAlive, update, UniqueKey.mem_modify, deleteUnmarked, filter, List.mem_filter,
    decide_eq_true_eq, if_true]
  constructor
  · rintro ⟨s, ⟨hs, halive⟩, rfl⟩
    exact ⟨s, hs, halive, rfl⟩
  · rintro ⟨s, hs, halive, rfl⟩
    exact ⟨s, ⟨hs, halive⟩, rfl⟩

theorem find_sweep {parentId : Nat} {name : WString} :
    t.deleteUnmarked.resetAlive.find parentId name =
      ((t.find parentId name).filter fun r => r.isAlive = 0).map fun r => { r with isAlive := 1 } := by
  rw [find_resetAlive, find_deleteUnmarked]

theorem mem_unmarked {id : Nat} : id ∈ t.unmarked ↔ ∃ r ∈ t.rows, r.isAlive ≠ 0 ∧ r.rowid = id := by
  simp only [unmarked, List.mem_map, List.mem_filter, decide_eq_true_eq]
  constructor
  · rintro ⟨r, ⟨hr, halive⟩, hid⟩
    exact ⟨r, hr, halive, hid⟩
  · rintro ⟨r, hr, halive, hid⟩
    exact ⟨r, ⟨hr, halive⟩, hid⟩

end Entries

theorem Blocks.mem_deleteEntries {t : Blocks} {ids : List Nat} {b : BlockRow} :
    b ∈ (t.deleteEntries ids).rows ↔ b ∈ t.rows ∧ b.entryId ∉ ids := by
  simp only [Blocks.deleteEntries, Blocks.filter, List.mem_filter, decide_eq_true_eq]

end Spacenet
