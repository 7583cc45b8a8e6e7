-- SUMMARY: When the sweep of `cleanup_entries` is undone as a whole after one of its statements failed.
import Spacenet.Effect.Outcome

/-!
# Atomicity of the sweep

`transaction xct(db, true)` leaves `frollback` at its default, so that the
destructor commits. What the statements before the failing one have deleted stays
deleted: the sweep is undone only where they had nothing to delete.
-/

namespace Spacenet

open Prog

/-! ## One failing statement -/

/-- A connection on which one statement fails with an error that leaves the transaction open. -/
def Sqlite.failing (policy : RowidPolicy) (stmt : Stmt) (code : Nat) : Sqlite where
  policy := policy
  fault := fun _ s => if s = stmt then some (.error code) else none

namespace Sqlite

variable {policy : RowidPolicy} {stmt s : Stmt} {code : Nat} {db : Db}

theorem execute_failing (hex : db.exceptions = true) :
    (failing policy stmt code).execute stmt db =
      .error (.databaseError code) (db.put db.tables (db.log ++ [(stmt, .error code)])) := by
  simp [execute, failing, Db.finish, ResultCode.failed, hex, ResultCode.code, Db.put]

theorem execute_working (code : Nat) {rc : ResultCode} {t : Tables} {snapshot : Option Tables} (hne : s ≠ stmt)
    (hrun : s.run policy db.tables db.snapshot = (rc, t, snapshot)) (hrc : rc.failed = false) :
    (failing policy stmt code).execute s db =
      .ok rc ((db.within snapshot).put t (db.log ++ [(s, rc)])) := by
  simp [execute, failing, hne, hrun, Db.finish, hrc, Db.put, Db.within]

/-- What an exception in the body leaves on disk: the transaction is committed. -/
theorem transaction_failing {body : DbM Unit} {e : Error} {t : Tables}
    (hdb : db.snapshot = none) (hbegin : stmt ≠ .begin true) (hcommit : stmt ≠ .commit)
    (he : e ≠ .killed)
    (hbody : ∀ log₀, ∃ log, body ((db.within (some db.tables)).put db.tables log₀) =
      .error e ((db.within (some db.tables)).put t log)) :
    ∃ db', (failing policy stmt code).transaction true false body db = .error e db' ∧
      db'.committed = t := by
  have hopen : (Stmt.begin true).run policy db.tables db.snapshot =
      (.done, db.tables, some db.tables) := by
    rw [hdb]
    rfl
  obtain ⟨log₁, hbody⟩ := hbody (db.log ++ [(.begin true, .done)])
  have hclose : Stmt.commit.run policy ((db.within (some db.tables)).put t log₁).tables
      ((db.within (some db.tables)).put t log₁).snapshot = (.done, t, none) := rfl
  refine ⟨(((db.within (some db.tables)).put t log₁).within none).put t (log₁ ++ [(.commit, .done)]),
    ?_, rfl⟩
  simp only [transaction, bind, EStateM.bind, execute_working code hbegin.symm hopen rfl,
    transactionScope, hbody, if_neg he, Bool.false_eq_true, if_false,
    execute_working code hcommit.symm hclose rfl]
  rfl

/-- The statements of one text up to the failing one. -/
theorem executeAll_failing (code : Nat) {before : List Stmt} (after : List Stmt)
    (hbefore : ∀ s ∈ before, s ≠ stmt ∧ s.autocommits = true ∧
      ∀ t, (s.exec policy t).1.failed = false) (hex : db.exceptions = true) :
    ∃ log, (failing policy stmt code).executeAll (before ++ stmt :: after) db =
      .error (.databaseError code)
        (db.put (before.foldl (fun t s => (s.exec policy t).2) db.tables) log) := by
  induction before generalizing db with
  | nil =>
      refine ⟨db.log ++ [(stmt, .error code)], ?_⟩
      simp only [List.nil_append, executeAll, bind, EStateM.bind, execute_failing hex]
      rfl
  | cons s before ih =>
      obtain ⟨hne, hauto, hrc⟩ := hbefore s List.mem_cons_self
      have hrun := Stmt.run_autocommits hauto policy db.tables db.snapshot
      have hstep := execute_working code hne hrun (hrc db.tables)
      obtain ⟨log, hrest⟩ := ih (fun s' hs' => hbefore s' (List.mem_cons_of_mem _ hs'))
        (show ((db.within db.snapshot).put (s.exec policy db.tables).2
          (db.log ++ [(s, (s.exec policy db.tables).1)])).exceptions = true from hex)
      refine ⟨log, ?_⟩
      simp only [List.cons_append, executeAll, bind, EStateM.bind, hstep, hrest]
      rfl

end Sqlite

/-! ## The sweep -/

/-- What the sweep has done to the tables before its statement `stmt`. -/
def Tables.sweptBefore (t : Tables) : Stmt → Tables
  | .deleteEntries => t.blocksDeleted
  | .resetAlive => t.deleted
  | _ => t

/-- The statements of the sweep before `stmt` find nothing to delete. -/
def Tables.NothingToDelete (t : Tables) : Stmt → Prop
  | .deleteEntries => ∀ b ∈ t.blocksDigests.rows, b.entryId ∉ t.entries.unmarked
  | .resetAlive => ∀ r ∈ t.entries.rows, r.isAlive = 0
  | _ => True

theorem Tables.blocksDeleted_eq_iff {t : Tables} :
    t.blocksDeleted = t ↔ ∀ b ∈ t.blocksDigests.rows, b.entryId ∉ t.entries.unmarked := by
  constructor
  · intro h b hb
    rw [← h] at hb
    exact (Blocks.mem_deleteEntries.mp hb).2
  · intro h
    refine Tables.ext rfl (Blocks.ext (List.filter_eq_self.mpr (fun b hb => ?_)))
    exact decide_eq_true (h b hb)

theorem Tables.deleted_eq_iff {t : Tables} :
    t.deleted = t ↔ ∀ r ∈ t.entries.rows, r.isAlive = 0 := by
  constructor
  · intro h r hr
    rw [← h] at hr
    exact of_decide_eq_true (List.mem_filter.mp hr).2
  · intro h
    have hunmarked : t.entries.unmarked = [] := by
      rw [List.eq_nil_iff_forall_not_mem]
      intro id hid
      obtain ⟨r, hr, halive, -⟩ := Entries.mem_unmarked.mp hid
      exact halive (h r hr)
    refine Tables.ext (Entries.ext (List.filter_eq_self.mpr (fun r hr => ?_)))
      (Blocks.ext (List.filter_eq_self.mpr (fun b hb => ?_)))
    · exact decide_eq_true (h r hr)
    · exact decide_eq_true (hunmarked ▸ List.not_mem_nil)

theorem Tables.sweptBefore_eq_iff {t : Tables} {stmt : Stmt} :
    t.sweptBefore stmt = t ↔ t.NothingToDelete stmt := by
  cases stmt <;>
    first
    | exact Tables.blocksDeleted_eq_iff
    | exact Tables.deleted_eq_iff
    | simp [sweptBefore, NothingToDelete]

/-- A failing statement of the sweep: the statements before it stay done. -/
theorem cleanupEntries_failing {policy : RowidPolicy} {stmt : Stmt} (code : Nat) {db : Db}
    (hstmt : stmt ∈ cleanupStatements) (hdb : db.snapshot = none) (hex : db.exceptions = true) :
    ∃ db', cleanupEntries (.failing policy stmt code) db = .error (.databaseError code) db' ∧
      db'.committed = db.tables.sweptBefore stmt := by
  unfold cleanupEntries
  have hbody : ∀ (before after : List Stmt), cleanupStatements = before ++ stmt :: after →
      (∀ s ∈ before, s ≠ stmt ∧ s.autocommits = true ∧ ∀ t, (s.exec policy t).1.failed = false) →
      before.foldl (fun t s => (s.exec policy t).2) db.tables = db.tables.sweptBefore stmt →
      ∀ log₀, ∃ log, (Sqlite.failing policy stmt code).executeAll cleanupStatements
        ((db.within (some db.tables)).put db.tables log₀) =
        .error (.databaseError code)
          ((db.within (some db.tables)).put (db.tables.sweptBefore stmt) log) := by
    intro before after hsplit hbefore hfold log₀
    obtain ⟨log, h⟩ := Sqlite.executeAll_failing code after hbefore
      (show ((db.within (some db.tables)).put db.tables log₀).exceptions = true from hex)
    rw [hsplit, ← hfold]
    exact ⟨log, h⟩
  simp only [cleanupStatements, List.mem_cons, List.not_mem_nil, or_false] at hstmt
  rcases hstmt with rfl | rfl | rfl
  · exact Sqlite.transaction_failing hdb (by simp) (by simp) (by simp)
      (hbody [] [.deleteEntries, .resetAlive] rfl (by simp) rfl)
  · exact Sqlite.transaction_failing hdb (by simp) (by simp) (by simp)
      (hbody [.deleteBlocks] [.resetAlive] rfl (by simp [Stmt.autocommits, Stmt.exec, ResultCode.failed])
        rfl)
  · exact Sqlite.transaction_failing hdb (by simp) (by simp) (by simp)
      (hbody [.deleteBlocks, .deleteEntries] [] rfl
        (by simp [Stmt.autocommits, Stmt.exec, ResultCode.failed]) rfl)

/-- After a failure inside of the sweep the tables are what they were before it exactly when the
statements before the failing one had nothing to delete. -/
theorem cleanupEntries_undone_iff (policy : RowidPolicy) (stmt : Stmt) (code : Nat) (db : Db)
    (hstmt : stmt ∈ cleanupStatements) (hdb : db.snapshot = none) (hex : db.exceptions = true) :
    ∃ db', cleanupEntries (.failing policy stmt code) db = .error (.databaseError code) db' ∧
      (db'.committed = db.tables ↔ db.tables.NothingToDelete stmt) := by
  obtain ⟨db', herror, hcommitted⟩ := cleanupEntries_failing code hstmt hdb hex
  exact ⟨db', herror, by rw [hcommitted, Tables.sweptBefore_eq_iff]⟩

/-- A deleted file whose row and block row the sweep has to remove. -/
def staleTables : Tables where
  entries := ⟨[⟨1, 1, 0, ['f'], none, some 1, some 2, some 4096, some []⟩],
    List.forall_mem_singleton.mpr Nat.one_pos, List.nodup_singleton _, List.nodup_singleton _⟩
  blocksDigests := ⟨[⟨1, 1, some []⟩], List.nodup_singleton _⟩

theorem cleanupEntries_undone_iff_staleTables :
    ∃ db', cleanupEntries (.failing .maxPlusOne .deleteBlocks 6) (Db.connect staleTables) =
        .error (.databaseError 6) db' ∧
      (db'.committed = staleTables ↔ staleTables.NothingToDelete .deleteBlocks) :=
  cleanupEntries_undone_iff .maxPlusOne .deleteBlocks 6 (Db.connect staleTables) (by decide) rfl rfl

/-- The second statement fails with SQLITE_LOCKED: the block row is gone, the entry is not. -/
theorem cleanupEntries_not_atomic :
    ((resultDb (cleanupEntries (.failing .maxPlusOne .deleteEntries 6) (Db.connect staleTables))).committed.entries.rows,
      (resultDb (cleanupEntries (.failing .maxPlusOne .deleteEntries 6) (Db.connect staleTables))).committed.blocksDigests.rows)
      ≠ (staleTables.entries.rows, staleTables.blocksDigests.rows) := by
  decide +kernel

end Spacenet
