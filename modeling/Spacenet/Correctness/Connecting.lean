-- SUMMARY: When `connect_db` connects: the codes of its PRAGMAs play no part, and a database that cannot be opened ends the process.
import Spacenet.Correctness.Scripts
import Spacenet.Effect.Accessible
import Spacenet.Tracker.Worker

/-!
# Connecting

`connect_db` executes its PRAGMAs with exceptions off and tests the code of the
whole text. That code is SQLITE_OK whatever becomes of the PRAGMAs, because a
comment is behind the last of them. And where the database was not opened, the
first PRAGMA leaves no tail to go on with.
-/

namespace Spacenet

open Prog Engine

namespace Round

/-- The database opens, and every PRAGMA can be prepared and comes to an end. -/
structure Connects (x : Round) : Prop where
  opens : x.openError = none
  prepares : ∀ p, x.refused p = none
  ends : ∀ p, x.pragma p ≠ none

variable {x : Round} {db : Db}

theorem engine_keepsExceptions (x : Round) : x.engine.KeepsExceptions := by
  intro p db rc db' h
  obtain ⟨rc, -, hpair⟩ := Option.map_eq_some_iff.mp h
  cases hpair
  rfl

/-- A PRAGMA that is refused is null, and the tail stays as it was. -/
theorem prepareImpl_refused {tail : Option (List (Piece Pragma))} {p : Pragma} {rest : List (Piece Pragma)} {code : Nat}
    (hexc : db.exceptions = false) (h : x.refused p = some code) :
    x.engine.prepareImpl true tail (.statement p :: rest) db = .ok ⟨.step (.error code), none, tail⟩ db := by
  rw [prepareImpl_quiet hexc]
  simp only [sqlite3Prepare, engine, h, if_true]

theorem engine_outcome {p : Pragma} {rc : ResultCode} (h : x.pragma p = some rc) (db : Db) :
    x.engine.outcome p db = some (rc, db) := by
  simp only [engine, h, Option.map_some]

theorem engine_ended {p : Pragma} (h : x.pragma p = none) (db : Db) : x.engine.outcome p db = none := by
  simp only [engine, h, Option.map_none]

/-- The rest of the text ends with SQLITE_OK when its PRAGMAs can be prepared and come to an end. -/
theorem executeRest_ok_iff (hexc : db.exceptions = false) (rc : Rc) (p : Pragma) (ps : List Pragma) (db' : Db) :
    x.engine.executeRest true true rc (some p) (ps.map .statement) db = .ok .ok db' ↔
      db' = db ∧ ∀ p ∈ ps, x.refused p = none ∧ x.pragma p ≠ none := by
  induction ps generalizing rc p with
  | nil =>
      have hblank : x.engine.executeRest true true rc (some p) [] db = .ok .ok db := rfl
      rw [List.map_nil, hblank]
      simp [eq_comm]
  | cons p' ps ih =>
      rw [List.map_cons, List.forall_mem_cons]
      cases hrefused : x.refused p' with
      | some code =>
          rw [executeRest, bind_of_ok (prepareImpl_refused hexc hrefused)]
          simp [Pure.pure, EStateM.pure]
      | none =>
          have hparams : x.engine.params p = x.engine.params p' := rfl
          rw [executeRest_statement (show x.engine.refused db p' = none from hrefused) hparams]
          cases hpragma : x.pragma p' with
          | none =>
              simp [Bind.bind, EStateM.bind, execute_ended (engine_ended hpragma db)]
          | some rc' =>
              simp only [bind_of_ok (execute_quiet x.engine_keepsExceptions hexc (engine_outcome hpragma db))]
              rw [ih]
              simp

/-- So does the whole text. -/
theorem executeAll_ok_iff (hexc : db.exceptions = false) (db' : Db) :
    x.engine.executeAll true pragmaScript db = .ok .ok db' ↔
      db' = db ∧ ∀ p, x.refused p = none ∧ x.pragma p ≠ none := by
  have hall : (∀ p, x.refused p = none ∧ x.pragma p ≠ none) ↔ (x.refused .pageSize = none ∧ x.pragma .pageSize ≠ none) ∧
      ∀ p ∈ [Pragma.journalMode, .countChanges, .autoVacuum, .cacheSize, .synchronous],
        x.refused p = none ∧ x.pragma p ≠ none := by
    constructor
    · intro h
      exact ⟨h _, fun p _ => h p⟩
    · rintro ⟨hfirst, hrest⟩ p
      cases p with
      | pageSize => exact hfirst
      | _ => exact hrest _ (by decide)
  rw [hall, executeAll, pragmaScript, List.map_cons]
  cases hrefused : x.refused .pageSize with
  | some code =>
      rw [bind_of_ok (prepareImpl_refused hexc hrefused), bind_of_ok (execute_null hexc)]
      simp [segfault]
  | none =>
      rw [bind_of_ok (prepareImpl_statement hrefused)]
      cases hpragma : x.pragma .pageSize with
      | none =>
          simp [Bind.bind, EStateM.bind, execute_ended (engine_ended hpragma db)]
      | some rc =>
          simp only [bind_of_ok (execute_quiet x.engine_keepsExceptions hexc (engine_outcome hpragma db))]
          rw [executeRest_ok_iff hexc]
          simp

/-- Without an open database, or without a first statement, `std::strlen` gets a null pointer. -/
theorem executeAll_ends (hexc : db.exceptions = false) {opened : Bool}
    (h : opened = false ∨ x.refused .pageSize ≠ none) :
    x.engine.executeAll opened pragmaScript db = .error .killed db.crash := by
  have hnull : ∃ rc, x.engine.prepareImpl opened none pragmaScript.pieces db = .ok ⟨rc, none, none⟩ db := by
    rw [prepareImpl_quiet hexc]
    cases opened with
    | false => exact ⟨_, rfl⟩
    | true =>
        obtain ⟨code, hcode⟩ := Option.ne_none_iff_exists'.mp (h.resolve_left nofun)
        exact ⟨.step (.error code), by simp only [sqlite3Prepare, pragmaScript, List.map_cons, engine, hcode, if_true]⟩
  obtain ⟨rc, hprepare⟩ := hnull
  rw [executeAll, bind_of_ok hprepare, bind_of_ok (execute_null hexc)]
  rfl

end Round

theorem connectDb_of_connects {x : Round} {w : Worker} (hconn : w.conn = none) (h : x.Connects) :
    connectDb x w = some (some (.connect w.disk)) := by
  have hrun := (Round.executeAll_ok_iff (rfl : Db.exceptions ⟨w.disk, none, false, []⟩ = false) _).mpr
    ⟨rfl, fun p => ⟨h.prepares p, h.ends p⟩⟩
  rw [connectDb, hconn, h.opens]
  simp only [Option.isNone_none, hrun]
  rfl

theorem connects_of_connectDb {x : Round} {w : Worker} {db : Db} (hconn : w.conn = none)
    (h : connectDb x w = some (some db)) : x.Connects := by
  rw [connectDb, hconn] at h
  dsimp only at h
  cases hopen : x.openError with
  | some code =>
      rw [hopen, Option.isNone_some, Round.executeAll_ends rfl (.inl rfl)] at h
      cases h
  | none =>
      rw [hopen, Option.isNone_none] at h
      cases hrun : x.engine.executeAll true pragmaScript ⟨w.disk, none, false, []⟩ with
      | error e db' =>
          rw [hrun] at h
          cases h
      | ok rc db' =>
          rw [hrun] at h
          by_cases hrc : rc = .ok
          · subst hrc
            obtain ⟨-, hall⟩ := (Round.executeAll_ok_iff rfl _).mp hrun
            exact ⟨hopen, fun p => (hall p).1, fun p => (hall p).2⟩
          · simp [hrc] at h

/-- `connect_db` connects exactly when the database opens and its PRAGMAs can be prepared and come to an
end: the codes of the PRAGMAs play no part. Where the database does not open, the process ends. -/
theorem connectDb_connects_iff (x : Round) (w : Worker) (hconn : w.conn = none) :
    ((∃ db, connectDb x w = some (some db)) ↔ x.Connects) ∧
      (x.Connects → connectDb x w = some (some (.connect w.disk))) ∧
      (x.openError ≠ none ∨ x.refused .pageSize ≠ none → connectDb x w = none) := by
  refine ⟨⟨?_, fun h => ⟨_, connectDb_of_connects hconn h⟩⟩, connectDb_of_connects hconn, ?_⟩
  · rintro ⟨db, h⟩
    exact connects_of_connectDb hconn h
  · intro hfails
    have hends : x.openError.isNone = false ∨ x.refused .pageSize ≠ none := by
      refine hfails.imp_left fun hopen => ?_
      obtain ⟨code, hcode⟩ := Option.ne_none_iff_exists'.mp hopen
      rw [hcode]
      rfl
    have hrun := Round.executeAll_ends (rfl : Db.exceptions ⟨w.disk, none, false, []⟩ = false) hends
    rw [connectDb, hconn]
    simp only [hrun]

/-- A round over the plain tree in which nothing fails but the PRAGMAs. -/
def Round.plain (pragma : ResultCode) : Round where
  openError := none
  refused := fun _ => none
  pragma := fun _ => some pragma
  sql := .working .maxPlusOne
  shutdown := fun _ => false
  register := fun _ lastError => lastError
  tree := plainTree
  win := ⟨[], 0⟩

theorem Round.plain_connects (pragma : ResultCode) : (Round.plain pragma).Connects := ⟨rfl, fun _ => rfl, fun _ => nofun⟩

/-- Every PRAGMA fails, and `connect_db` connects. -/
theorem connectDb_connects_iff_plain :
    let x := Round.plain (.error 10)
    let w := Worker.start .empty
    ((∃ db, connectDb x w = some (some db)) ↔ x.Connects) ∧
      (x.Connects → connectDb x w = some (some (.connect w.disk))) ∧
      (x.openError ≠ none ∨ x.refused .pageSize ≠ none → connectDb x w = none) :=
  connectDb_connects_iff _ _ rfl

end Spacenet
