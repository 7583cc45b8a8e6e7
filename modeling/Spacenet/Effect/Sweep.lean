-- SUMMARY: The sweep of `cleanup_entries`: its effect, and what a failure inside of its transaction leaves.
import Spacenet.Effect.Reindex

/-!
# The sweep

`cleanup_entries` runs three statements in a transaction. When one of them throws,
the destructor of the transaction commits what the statements before it have done.
-/

namespace Spacenet

open Prog

namespace Sqlite

variable {sql : Sqlite} {db : Db}

theorem wp_begin {immediate : Bool} {Q : ResultCode → Db → Prop} {E : Error → Db → Prop}
    (h : sql.LosesNothing) (hdb : db.snapshot = none)
    (hok : ∀ log, Q .done ((db.within (some db.tables)).put db.tables log))
    (herr : ∀ e log, ¬sql.NoFault → E e (db.put db.tables log)) :
    wp (sql.execute (.begin immediate)) Q E db := by
  have hrun : (Stmt.begin immediate).run sql.policy db.tables db.snapshot =
      (.done, db.tables, some db.tables) := by
    rw [hdb]
    rfl
  refine h.wp_execute_done rfl hrun hok (fun code log => herr _ log) ?_
  intro hfault
  rw [Db.crash_eq hdb]
  exact herr _ db.log hfault

theorem wp_commit {t₀ : Tables} {Q : ResultCode → Db → Prop} {E : Error → Db → Prop}
    (h : sql.LosesNothing) (hdb : db.snapshot = some t₀)
    (hok : ∀ log, Q .done ((db.within none).put db.tables log))
    (herr : ∀ e db', ¬sql.NoFault → db'.committed = t₀ → E e db') :
    wp (sql.execute .commit) Q E db := by
  have hrun : Stmt.commit.run sql.policy db.tables db.snapshot = (.done, db.tables, none) := by
    rw [hdb]
    rfl
  have hcommitted : db.committed = t₀ := by simp [Db.committed, hdb]
  refine h.wp_execute_done rfl hrun hok ?_ ?_
  · intro code log hfault
    exact herr _ _ hfault hcommitted
  · intro hfault
    exact herr _ _ hfault hcommitted

/-- The rule of `transaction` with its default for `frollback`: a body that throws is committed. -/
theorem wp_transaction {body : DbM Unit} {Q : Unit → Db → Prop} {E : Error → Db → Prop}
    (h : sql.LosesNothing) (hdb : db.snapshot = none)
    (hbody : ∀ log, wp body (fun _ db' => db'.snapshot = some db.tables ∧
        ∀ log, Q () ((db'.within none).put db'.tables log))
      (fun e db' => ¬sql.NoFault ∧ if e = .killed then db'.committed = db.tables
        else db'.snapshot = some db.tables ∧ ∀ log, E e ((db'.within none).put db'.tables log))
      ((db.within (some db.tables)).put db.tables log))
    (herr : ∀ e db', ¬sql.NoFault → db'.committed = db.tables → E e db') :
    wp (sql.transaction true false body) Q E db := by
  have hcommitted : ∀ log, (db.put db.tables log).committed = db.tables := by
    intro log
    simp [Db.committed, hdb]
  unfold transaction
  rw [wp_bind]
  refine wp_begin h hdb ?_ (fun e log hfault => herr e _ hfault (hcommitted log))
  intro log
  have hwp := hbody log
  unfold wp transactionScope
  cases hm : body ((db.within (some db.tables)).put db.tables log) with
  | ok a db' =>
      obtain ⟨hsnapshot, hQ⟩ := wp_of_ok hwp hm
      have hcommit : wp (do let _ ← sql.execute .commit) Q E db' := by
        rw [wp_bind]
        exact wp_commit h hsnapshot hQ herr
      exact hcommit
  | error e db' =>
      obtain ⟨hfault, hE⟩ := wp_of_error hwp hm
      by_cases hkilled : e = .killed
      · rw [if_pos hkilled] at hE
        simp only [if_pos hkilled]
        exact herr e db' hfault hE
      · rw [if_neg hkilled] at hE
        obtain ⟨hsnapshot, hcommits⟩ := hE
        simp only [if_neg hkilled, Bool.false_eq_true, if_false]
        have hcommit : wp (sql.execute .commit) (fun _ db'' => E e db'')
            (fun _ db'' => db''.committed = db.tables) db' :=
          wp_commit h hsnapshot hcommits (fun _ _ _ h => h)
        unfold wp at hcommit
        cases hc : sql.execute .commit db' with
        | ok rc db'' =>
            simp only [hc] at hcommit ⊢
            exact hcommit
        | error e' db'' =>
            simp only [hc] at hcommit ⊢
            exact herr .killed db''.crash hfault hcommit

end Sqlite

/-! ## cleanup_entries -/

/-- The tables behind the first two statements of the sweep. -/
def Tables.deleted (t : Tables) : Tables where
  entries := t.entries.deleteUnmarked
  blocksDigests := t.blocksDigests.deleteEntries t.entries.unmarked

/-- The tables behind the first statement of the sweep. -/
def Tables.blocksDeleted (t : Tables) : Tables :=
  { t with blocksDigests := t.blocksDigests.deleteEntries t.entries.unmarked }

/-- The sweep is made as a whole, or it throws; then the statements before the failing one may be
committed. -/
theorem wp_cleanupEntries {sql : Sqlite} (h : sql.LosesNothing) {db : Db} (hdb : db.snapshot = none) :
    wp (cleanupEntries sql) (fun _ db' => ∃ log, db' = db.put db.tables.sweep log)
      (fun _ db' => ¬sql.NoFault ∧ (db'.committed = db.tables ∨
        db'.committed = db.tables.blocksDeleted ∨ db'.committed = db.tables.deleted)) db := by
  unfold cleanupEntries
  refine Sqlite.wp_transaction h hdb ?_ (fun _ _ hfault h => ⟨hfault, .inl h⟩)
  intro log
  simp only [cleanupStatements, Sqlite.executeAll, wp_bind]
  -- what a thrown error finds is committed, a killed process leaves the tables before the sweep
  have hthrown : ∀ (db' : Db) code log t, ¬sql.NoFault → (db'.put t log).snapshot = some db.tables →
      (t = db.tables ∨ t = db.tables.blocksDeleted ∨ t = db.tables.deleted) →
      ¬sql.NoFault ∧ if Error.databaseError code = .killed then (db'.put t log).committed = db.tables
      else (db'.put t log).snapshot = some db.tables ∧
        ∀ log', ¬sql.NoFault ∧ ((((db'.put t log).within none).put t log').committed = db.tables ∨
          (((db'.put t log).within none).put t log').committed = db.tables.blocksDeleted ∨
          (((db'.put t log).within none).put t log').committed = db.tables.deleted) := by
    intro db' code log t hfault hsnapshot ht
    rw [if_neg (by simp)]
    exact ⟨hfault, hsnapshot, fun _ => ⟨hfault, ht⟩⟩
  have hkilled : ∀ (db' : Db) s {P : Prop}, sql.fault db' s = some .kill →
      db'.committed = db.tables →
      ¬sql.NoFault ∧ if Error.killed = .killed then db'.crash.committed = db.tables else P := by
    intro db' s P hf hcommitted
    rw [if_pos rfl]
    exact ⟨Sqlite.not_noFault hf, hcommitted⟩
  refine Sqlite.wp_execute_within rfl (.inl rfl) ?_ (fun _ _ hf hex => (h.noticed rfl hf hex).elim) ?_
    (fun hf => hkilled _ _ hf rfl)
  · intro log
    refine Sqlite.wp_execute_within rfl (.inl rfl) ?_ (fun _ _ hf hex => (h.noticed rfl hf hex).elim) ?_
      (fun hf => hkilled _ _ hf rfl)
    · intro log
      refine Sqlite.wp_execute_within rfl (.inl rfl) ?_ (fun _ _ hf hex => (h.noticed rfl hf hex).elim) ?_
        (fun hf => hkilled _ _ hf rfl)
      · intro log
        refine ⟨rfl, fun log => ⟨log, ?_⟩⟩
        have hclosed : (db.within none).put db.tables.sweep log = db.put db.tables.sweep log := by
          rw [Db.within_self hdb]
        exact hclosed
      · intro code log hf
        exact hthrown _ code log _ (Sqlite.not_noFault hf) rfl (.inr (.inr rfl))
    · intro code log hf
      exact hthrown _ code log _ (Sqlite.not_noFault hf) rfl (.inr (.inl rfl))
  · intro code log hf
    exact hthrown _ code log _ (Sqlite.not_noFault hf) rfl (.inl rfl)

end Spacenet
