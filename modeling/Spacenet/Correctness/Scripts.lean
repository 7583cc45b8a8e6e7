-- SUMMARY: What `execute_all` executes of a text, with exceptions on and with exceptions off.
import Spacenet.Indexer
import Spacenet.Sqlite.Binding
import Spacenet.Sqlite.Execution
import Spacenet.Sqlite.Script

/-!
# Executing a text

With exceptions on, the statements are executed in order up to the first that
fails. With exceptions off they are all executed, and the code that is returned
is that of the blank text behind them, if there is any.
-/

namespace Spacenet

open Prog

namespace Engine

variable {S : Type} {engine : Engine S}

theorem throwDatabaseError_eq (code : Nat) (db : Db) :
    throwDatabaseError code db = if db.exceptions then .error (.databaseError code) db else .ok () db := by
  rw [throwDatabaseError, bind_get]
  split <;> rfl

/-- Preparing a statement that is not refused. -/
theorem prepareImpl_statement {tail : Option (List (Piece S))} {s : S} {rest : List (Piece S)} {db : Db}
    (h : engine.refused db s = none) :
    engine.prepareImpl true tail (.statement s :: rest) db = .ok ⟨.ok, some s, some rest⟩ db := by
  have hprepared : engine.sqlite3Prepare true tail db (.statement s :: rest) = ⟨.ok, some s, some rest⟩ := by
    simp only [sqlite3Prepare, h, if_true]
  rw [prepareImpl, bind_of_ok (show (get : DbM Db) db = .ok db db from rfl), hprepared]
  rfl

/-- A statement behind one with equally many parameters is executed. -/
theorem executeRest_statement {trailing : Bool} {rc : Rc} {s s' : S} {rest : List (Piece S)} {db : Db}
    (hrefused : engine.refused db s' = none) (hparams : engine.params s = engine.params s') :
    engine.executeRest true trailing rc (some s) (.statement s' :: rest) db =
      (engine.execute (some s') >>= fun rc => engine.executeRest true trailing rc (some s') rest) db := by
  rw [executeRest, bind_of_ok (prepareImpl_statement hrefused)]
  dsimp only
  rw [if_neg (not_not.mpr hparams)]

/-- Each of the statements can be prepared where those before it have left the database. -/
def accepts (engine : Engine S) : List S → Db → Bool
  | [], _ => true
  | s :: stmts, db =>
      (engine.refused db s).isNone &&
        match engine.outcome s db with
        | none => true
        | some (_, db) => engine.accepts stmts db

/-- The first statement can be prepared. -/
theorem refused_of_accepts {s : S} {stmts : List S} {db : Db} (h : engine.accepts (s :: stmts) db) :
    engine.refused db s = none := by
  rw [accepts, Bool.and_eq_true] at h
  exact Option.isNone_iff_eq_none.mp h.1

/-- And so can those behind it. -/
theorem accepts_of_outcome {s : S} {stmts : List S} {db db' : Db} {rc : ResultCode}
    (h : engine.accepts (s :: stmts) db) (houtcome : engine.outcome s db = some (rc, db')) :
    engine.accepts stmts db' := by
  rw [accepts, Bool.and_eq_true, houtcome] at h
  exact h.2

/-! ## Exceptions on -/

section

variable {sql : Sqlite} {refused : Db → Stmt → Option Nat} {params : Stmt → Nat}

/-- Executing a statement that was just prepared is executing it. -/
theorem execute_rwp (s : Stmt) (db : Db) :
    rwp ((sql.engine refused params).execute (some s)) (sql.execute s)
      (fun rc db₁ rc' db₂ => rc = .step rc' ∧ db₁ = db₂ ∧ sql.outcome s db = some (rc', db₂)) Eq db db := by
  rw [rwp, sql.execute_eq_outcome]
  cases houtcome : sql.outcome s db with
  | none =>
      simp only [execute, sqlite3Step, Bind.bind, EStateM.bind,
        show (sql.engine refused params).outcome = sql.outcome from rfl, houtcome]
      exact ⟨rfl, rfl⟩
  | some result =>
      obtain ⟨rc, db'⟩ := result
      have hstep : (sql.engine refused params).sqlite3Step (some s) db = .ok (.step rc) db' := by
        simp only [sqlite3Step, show (sql.engine refused params).outcome = sql.outcome from rfl, houtcome]
      have hexc := Sqlite.outcome_exceptions houtcome
      rw [execute, bind_of_ok hstep]
      by_cases hfailed : rc.failed
      · have hne := rc.failed_iff.mp hfailed
        simp only [ne_eq, Rc.step.injEq, hne, not_false_eq_true, and_self, if_true, Bind.bind, EStateM.bind,
          throwDatabaseError_eq, hexc, hfailed, true_and]
        by_cases hon : db.exceptions
        · simp only [hon, if_true]
          exact ⟨rfl, rfl⟩
        · simp only [hon]
          exact ⟨rfl, rfl, rfl⟩
      · simp only [ne_eq, Rc.step.injEq, if_neg (rc.failed_iff.not.mp hfailed), hfailed]
        exact ⟨rfl, rfl, rfl⟩

theorem executeRest_rwp (trailing : Bool) {stmts : List Stmt} {rc : Rc} {s : Stmt} {db : Db}
    (haccepts : (sql.engine refused params).accepts stmts db) (hparams : ∀ s' ∈ stmts, params s' = params s) :
    rwp ((sql.engine refused params).executeRest true trailing rc (some s) (stmts.map .statement))
      (sql.executeAll stmts) (fun _ db₁ _ db₂ => db₁ = db₂) Eq db db := by
  induction stmts generalizing rc s db with
  | nil =>
      rw [List.map_nil, executeRest]
      cases trailing <;> exact rfl
  | cons s' stmts ih =>
      rw [List.forall_mem_cons] at hparams
      rw [rwp, List.map_cons, executeRest_statement (refused_of_accepts haccepts) hparams.1.symm]
      refine rwp_bind ((execute_rwp s' db).mono ?_ (fun _ _ h => h))
      rintro rc' db₁ rc'' db₂ ⟨-, rfl, houtcome⟩
      exact ih (accepts_of_outcome haccepts houtcome) fun s'' h => (hparams.2 s'' h).trans hparams.1.symm

/-- `execute_all` of a text with a statement in it executes the statements of the text in order, where each
of them can be prepared and they have equally many parameters. -/
theorem executeAll_rwp (sql : Sqlite) (trailing : Bool) {stmts : List Stmt} (hne : stmts ≠ []) {db : Db} {n : Nat}
    (haccepts : (sql.engine refused params).accepts stmts db) (hparams : ∀ s ∈ stmts, params s = n) :
    rwp ((sql.engine refused params).executeAll true ⟨stmts.map .statement, trailing⟩) (sql.executeAll stmts)
      (fun _ db₁ _ db₂ => db₁ = db₂) Eq db db := by
  cases stmts with
  | nil => exact absurd rfl hne
  | cons s stmts =>
      rw [List.forall_mem_cons] at hparams
      refine rwp_left (prepareImpl_statement (refused_of_accepts haccepts))
        (rwp_bind ((execute_rwp s db).mono ?_ (fun _ _ h => h)))
      rintro rc db₁ rc' db₂ ⟨-, rfl, houtcome⟩
      exact executeRest_rwp trailing (accepts_of_outcome haccepts houtcome)
        fun s' h => (hparams.2 s' h).trans hparams.1.symm

/-- An index is refused as long as its table has not been created. -/
def refusesIndex (db : Db) : Stmt → Option Nat
  | .create .i1 | .create .i2 => if (.create .entries, .done) ∈ db.log then none else some sqliteError
  | .create .i3 => if (.create .blocksDigests, .done) ∈ db.log then none else some sqliteError
  | _ => none

/-- The text of the schema, on an empty database. -/
theorem executeAll_rwp_schema :
    rwp (((Sqlite.working .maxPlusOne).engine refusesIndex fun _ => 0).executeAll true
        ⟨schemaStatements.map .statement, true⟩)
      ((Sqlite.working .maxPlusOne).executeAll schemaStatements) (fun _ db₁ _ db₂ => db₁ = db₂) Eq
      (.connect .empty) (.connect .empty) :=
  executeAll_rwp _ true (by decide) (by decide) (fun _ _ => rfl)

end

/-! ## Exceptions off -/

/-- Execute the statements one after the other, whatever becomes of them. -/
def executeEach (engine : Engine S) : List S → Db → Option (List ResultCode × Db)
  | [], db => some ([], db)
  | s :: stmts, db =>
      match engine.outcome s db with
      | none => none
      | some (rc, db) => (engine.executeEach stmts db).map fun x => (rc :: x.1, x.2)

/-- Executing a statement does not switch exceptions on or off. -/
def KeepsExceptions (engine : Engine S) : Prop :=
  ∀ s db rc db', engine.outcome s db = some (rc, db') → db'.exceptions = db.exceptions

variable {db : Db} {s : S}

theorem throwDatabaseError_quiet (hexc : db.exceptions = false) (code : Nat) :
    throwDatabaseError code db = .ok () db := by
  rw [throwDatabaseError_eq, hexc]
  rfl

theorem prepareImpl_quiet (hexc : db.exceptions = false) (opened : Bool) (tail : Option (List (Piece S)))
    (pieces : List (Piece S)) :
    engine.prepareImpl opened tail pieces db = .ok (engine.sqlite3Prepare opened tail db pieces) db := by
  rw [prepareImpl, bind_of_ok (show (get : DbM Db) db = .ok db db from rfl)]
  dsimp only
  split
  · rw [bind_of_ok (throwDatabaseError_quiet hexc _)]
    rfl
  · rfl

/-- Executing no statement is a misuse. -/
theorem execute_null (hexc : db.exceptions = false) : engine.execute none db = .ok .misuse db := by
  rw [execute, bind_of_ok (show engine.sqlite3Step none db = .ok .misuse db from rfl), if_pos ⟨nofun, nofun⟩,
    bind_of_ok (throwDatabaseError_quiet hexc _)]
  rfl

theorem execute_quiet (hkeeps : engine.KeepsExceptions) (hexc : db.exceptions = false) {rc : ResultCode} {db' : Db}
    (houtcome : engine.outcome s db = some (rc, db')) : engine.execute (some s) db = .ok (.step rc) db' := by
  have hstep : engine.sqlite3Step (some s) db = .ok (.step rc) db' := by
    simp only [sqlite3Step, houtcome]
  have hexc' : db'.exceptions = false := (hkeeps _ _ _ _ houtcome).trans hexc
  rw [execute, bind_of_ok hstep]
  split
  · rw [bind_of_ok (throwDatabaseError_quiet hexc' _)]
    rfl
  · rfl

theorem execute_ended (houtcome : engine.outcome s db = none) : engine.execute (some s) db = .error .killed db.crash := by
  simp only [execute, sqlite3Step, houtcome, Bind.bind, EStateM.bind]

/-- The code that `execute_all` returns behind statements that ended with `rcs`. -/
def lastCode (trailing : Bool) (rc : Rc) (rcs : List ResultCode) : Rc :=
  if trailing then .ok else (rcs.getLast?.map .step).getD rc

theorem lastCode_cons (trailing : Bool) (rc : Rc) (rc' : ResultCode) (rcs : List ResultCode) :
    lastCode trailing rc (rc' :: rcs) = lastCode trailing (.step rc') rcs := by
  unfold lastCode
  rw [List.getLast?_cons]
  cases rcs.getLast? <;> rfl

/-- The program ends as executing statements one by one does that ended as `each` says. -/
def Quiet (trailing : Bool) (rc : Rc) (m : DbM Rc) (db : Db) : Option (List ResultCode × Db) → Prop
  | none => ∃ db', m db = .error .killed db'
  | some (rcs, db') => m db = .ok (lastCode trailing rc rcs) db'

theorem Quiet.bind {α : Type} {m : DbM α} {a : α} {f : α → DbM Rc} {db' : Db} (hm : m db = .ok a db')
    {trailing : Bool} {rc : Rc} {each : Option (List ResultCode × Db)} (h : Quiet trailing rc (f a) db' each) :
    Quiet trailing rc (m >>= f) db each := by
  cases each with
  | none =>
      obtain ⟨db₁, hkilled⟩ := h
      exact ⟨db₁, (bind_of_ok hm).trans hkilled⟩
  | some result => exact (bind_of_ok hm).trans h

/-- One statement before others that are executed quietly. -/
theorem Quiet.cons (hkeeps : engine.KeepsExceptions) (hexc : db.exceptions = false) {trailing : Bool} {stmts : List S}
    {f : Rc → DbM Rc} (rc : Rc) (hrest : ∀ rc' db', db'.exceptions = false → engine.outcome s db = some (rc', db') →
      Quiet trailing (.step rc') (f (.step rc')) db' (engine.executeEach stmts db')) :
    Quiet trailing rc (engine.execute (some s) >>= f) db (engine.executeEach (s :: stmts) db) := by
  rw [executeEach]
  cases houtcome : engine.outcome s db with
  | none =>
      refine ⟨db.crash, ?_⟩
      simp only [Bind.bind, EStateM.bind, execute_ended houtcome]
  | some result =>
      obtain ⟨rc', db'⟩ := result
      have hafter := hrest rc' db' ((hkeeps _ _ _ _ houtcome).trans hexc) houtcome
      refine .bind (execute_quiet hkeeps hexc houtcome) ?_
      dsimp only
      cases heach : engine.executeEach stmts db' with
      | none =>
          rw [heach] at hafter
          exact hafter
      | some result =>
          rw [heach] at hafter
          rw [Option.map_some, Quiet, lastCode_cons]
          exact hafter

theorem executeRest_quiet (hkeeps : engine.KeepsExceptions) (trailing : Bool) {stmts : List S} (rc : Rc)
    (haccepts : engine.accepts stmts db) (hparams : ∀ s' ∈ stmts, engine.params s' = engine.params s)
    (hexc : db.exceptions = false) :
    Quiet trailing rc (engine.executeRest true trailing rc (some s) (stmts.map .statement)) db
      (engine.executeEach stmts db) := by
  induction stmts generalizing rc s db with
  | nil => cases trailing <;> rfl
  | cons s' stmts ih =>
      rw [List.forall_mem_cons] at hparams
      rw [List.map_cons]
      unfold Quiet
      rw [executeRest_statement (refused_of_accepts haccepts) hparams.1.symm]
      refine Quiet.cons hkeeps hexc rc ?_
      intro rc' db' hexc' houtcome
      exact ih (.step rc') (accepts_of_outcome haccepts houtcome)
        (fun s'' h => (hparams.2 s'' h).trans hparams.1.symm) hexc'

/-- With exceptions off `execute_all` executes every statement of a text whose statements can be prepared and
have equally many parameters, and the blank text behind the last of them makes its code SQLITE_OK. -/
theorem executeAll_quiet (hkeeps : engine.KeepsExceptions) (hexc : db.exceptions = false) (trailing : Bool)
    {stmts : List S} (hne : stmts ≠ []) {n : Nat} (haccepts : engine.accepts stmts db)
    (hparams : ∀ s ∈ stmts, engine.params s = n) :
    match engine.executeEach stmts db with
    | none => ∃ db', engine.executeAll true ⟨stmts.map .statement, trailing⟩ db = .error .killed db'
    | some (rcs, db') => engine.executeAll true ⟨stmts.map .statement, trailing⟩ db =
        .ok (lastCode trailing .misuse rcs) db' := by
  cases stmts with
  | nil => exact absurd rfl hne
  | cons s stmts =>
      rw [List.forall_mem_cons] at hparams
      refine Quiet.bind (prepareImpl_statement (refused_of_accepts haccepts)) (.cons hkeeps hexc .misuse ?_)
      intro rc db' hexc' houtcome
      exact executeRest_quiet hkeeps trailing (.step rc) (accepts_of_outcome haccepts houtcome)
        (fun s' h => (hparams.2 s' h).trans hparams.1.symm) hexc'

theorem engine_keepsExceptions (sql : Sqlite) (refused : Db → Stmt → Option Nat) (params : Stmt → Nat) :
    (sql.engine refused params).KeepsExceptions := fun _ _ _ _ h => Sqlite.outcome_exceptions h

/-- A block row inserted twice: the second INSERT fails, and the code of the text is SQLITE_OK. -/
theorem executeAll_quiet_twice :
    let engine := (Sqlite.working .maxPlusOne).engine refusesIndex fun _ => 0
    let stmts := [Stmt.blkIns 1 1 [], .blkIns 1 1 []]
    let db := (Db.connect .empty).withExceptions false
    (engine.executeEach stmts db).map Prod.fst = some [.done, .constraintUnique] ∧
      match engine.executeEach stmts db with
      | none => ∃ db', engine.executeAll true ⟨stmts.map .statement, true⟩ db = .error .killed db'
      | some (rcs, db') => engine.executeAll true ⟨stmts.map .statement, true⟩ db =
          .ok (lastCode true .misuse rcs) db' :=
  have hexc : ((Db.connect .empty).withExceptions false).exceptions = false := rfl
  ⟨by decide, executeAll_quiet (engine_keepsExceptions (.working .maxPlusOne) _ _) hexc true
    (List.cons_ne_nil (.blkIns 1 1 []) [.blkIns 1 1 []]) (by decide) (fun _ _ => rfl)⟩

end Engine

end Spacenet
