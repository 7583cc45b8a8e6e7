-- SUMMARY: The outcomes of a run of `reindex`: what a result says about the tables on disk.
import Spacenet.Effect.Sweep

/-!
# Outcomes of a run

A run that returns has made the records of the callbacks up to its end and has
swept. A run that throws leaves the tables of a point of the walk or of the sweep.
-/

namespace Spacenet

open Prog

/-- The state in which a program ended. -/
def resultDb (r : EStateM.Result Error Db Unit) : Db :=
  match r with
  | .ok _ db => db
  | .error _ db => db

/-- The state in which a program returned. -/
def resultOk (r : EStateM.Result Error Db Unit) : Option Db :=
  match r with
  | .ok _ db => some db
  | .error _ _ => none

theorem resultOk_eq_some {r : EStateM.Result Error Db Unit} {db : Db} (h : resultOk r = some db) :
    r = .ok () db := by
  cases r with
  | ok _ db' => exact congrArg _ (Option.some.inj h)
  | error _ _ => cases h

/-- Why a walk that has performed `pre` is over, when it did not throw. -/
inductive WalkOver (env : Env) (pre : List Event) : (post : List Event) → Prop where
  | through : WalkOver env pre []
  | vanished (path : WString) (post : List Event) :
      WalkOver env pre (.openFailed path ERROR_PATH_NOT_FOUND :: post)
  | aborted (c : Call) (post : List Event) (shutdown : env.shutdown (callsOf pre).length = true) :
      WalkOver env pre (.call c :: post)

/-- The outcomes of a run from the tables `t₀`, over the events of its tree. -/
inductive Outcome (env : Env) (es : List Event) (t₀ : Tables) :
    EStateM.Result Error Db Unit → Prop where
  | notStarted {e : Error} {db : Db} (fault : ¬env.sql.NoFault) (tables : db.committed = t₀) :
      Outcome env es t₀ (.error e db)
  | completed {pre post : List Event} {idx : Index} {db : Db} (events : es = pre ++ post)
      (visited : Visited env ⟨t₀, []⟩ 0 pre idx) (ended : WalkOver env pre post)
      (swept : ∃ before : Db, before.snapshot = none ∧ before.tables = idx.tables ∧
        cleanupEntries env.sql before = .ok () db)
      (tables : db.committed = idx.tables.sweep) : Outcome env es t₀ (.ok () db)
  | sweepThrew {pre post : List Event} {idx : Index} {e : Error} {db : Db} (events : es = pre ++ post)
      (visited : Visited env ⟨t₀, []⟩ 0 pre idx) (ended : WalkOver env pre post) (fault : ¬env.sql.NoFault)
      (swept : ∃ before : Db, before.snapshot = none ∧ before.tables = idx.tables ∧
        cleanupEntries env.sql before = .error e db)
      (tables : db.committed = idx.tables ∨ db.committed = idx.tables.blocksDeleted ∨
        db.committed = idx.tables.deleted) : Outcome env es t₀ (.error e db)
  | walkThrew {pre post : List Event} {idx : Index} {e : Error} {db : Db} (events : es = pre ++ post)
      (visited : Visited env ⟨t₀, []⟩ 0 pre idx) (cause : WalkThrows env idx (callsOf pre).length post)
      (tables : db.committed = idx.tables ∨ ∃ c post', post = .call c :: post' ∧
        idx.Inside env.sql.policy env.modifiedOnly c db.committed) : Outcome env es t₀ (.error e db)

theorem outcome_of_sweep {env : Env} {es pre post : List Event} {t₀ : Tables} {idx : Index} {db : Db}
    (h : env.sql.Throws) (hevents : es = pre ++ post) (hvisited : Visited env ⟨t₀, []⟩ 0 pre idx)
    (hover : WalkOver env pre post) (hdb : db.snapshot = none) (htables : db.tables = idx.tables) :
    Outcome env es t₀ (cleanupEntries env.sql db) := by
  have hwp := wp_cleanupEntries h.losesNothing hdb
  cases hc : cleanupEntries env.sql db with
  | ok a db' =>
      obtain ⟨log, rfl⟩ := wp_of_ok hwp hc
      refine .completed hevents hvisited hover ⟨_, hdb, htables, hc⟩ ?_
      simp [Db.committed, hdb, htables]
  | error e db' =>
      obtain ⟨hfault, htables'⟩ := wp_of_error hwp hc
      rw [htables] at htables'
      exact .sweepThrew hevents hvisited hover hfault ⟨db, hdb, htables, hc⟩ htables'

/-- The outcome of a run whose failing statements throw. -/
theorem reindexed_outcome {env : Env} (h : env.sql.Throws) (t : Tree) (root : WString) (lastError : U32)
    {db : Db} (hdb : db.snapshot = none) :
    Outcome env (t.events indexReader root) db.tables (reindexed env t root lastError db) := by
  have hwp := wp_schema h.losesNothing hdb
  unfold reindexed
  cases hschema : env.sql.executeAll schemaStatements db with
  | error e db' =>
      obtain ⟨hfault, log, rfl⟩ := wp_of_error hwp hschema
      refine .notStarted hfault ?_
      simp [Db.committed, hdb]
  | ok _ db' =>
      obtain ⟨log, rfl⟩ := wp_of_ok hwp hschema
      have hwalks := runEvents_walks h (t.events indexReader root)
        (t.calls_below indexReader root) lastError ⟨db.put db.tables log, [], 0⟩ hdb
      simp only []
      cases hrun : runEvents indexReader (manipulator env (t.disk root)) (t.events indexReader root)
          lastError ⟨db.put db.tables log, [], 0⟩ with
      | through lastError' w =>
          rw [hrun] at hwalks
          cases hwalks with
          | through visited =>
              exact outcome_of_sweep h (List.append_nil _).symm visited .through hdb rfl
      | returned w =>
          rw [hrun] at hwalks
          cases hwalks with
          | vanished pre post events visited =>
              exact outcome_of_sweep h events visited (.vanished _ _) hdb rfl
          | aborted pre post events visited shutdown =>
              rw [Nat.zero_add] at shutdown
              exact outcome_of_sweep h events visited (.aborted _ _ shutdown) hdb rfl
      | threw e w =>
          rw [hrun] at hwalks
          cases hwalks with
          | @threw pre post _ _ idx t' log' events visited tables cause world =>
              have hcommitted : w.db.committed = t' := by
                rw [world]
                simp [Db.committed, hdb]
              rw [Nat.zero_add] at cause
              exact .walkThrew events visited cause (hcommitted ▸ tables)

end Spacenet
