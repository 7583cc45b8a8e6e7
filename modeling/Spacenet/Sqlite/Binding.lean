-- SUMMARY: What a prepared statement does once its parameters are bound: the statement with these values, whatever it did before.
import Spacenet.Library.Simulation
import Spacenet.Sqlite.Statement

/-!
# Bound statements

`bind` brings a statement into the state in which values can be bound, wherever
it stood, and so the code that `execute` returns is that of this execution. The
slots that were bound before keep their values.
-/

namespace Spacenet

open Prog

/-- `execute` in terms of the outcome of the statement. -/
theorem Sqlite.execute_eq_outcome (sql : Sqlite) (stmt : Stmt) (db : Db) :
    sql.execute stmt db =
      match sql.outcome stmt db with
      | none => .error .killed db.crash
      | some (rc, db') =>
          if rc.failed ∧ db.exceptions then .error (.databaseError rc.code) db' else .ok rc db' := by
  unfold Sqlite.execute Sqlite.outcome
  cases sql.fault db stmt with
  | none => rfl
  | some fault =>
      cases fault with
      | kill => rfl
      | error code => rfl

/-- The outcome has the flag of the connection. -/
theorem Sqlite.outcome_exceptions {sql : Sqlite} {stmt : Stmt} {db db' : Db} {rc : ResultCode}
    (h : sql.outcome stmt db = some (rc, db')) : db'.exceptions = db.exceptions := by
  unfold Sqlite.outcome at h
  split at h
  · cases h
  · cases h
    rfl
  · cases h
    rfl

theorem ResultCode.failed_iff (rc : ResultCode) : rc.failed = true ↔ rc ≠ .row ∧ rc ≠ .done := by
  cases rc <;> simp [ResultCode.failed]

/-- A SELECT that gives a row finds it in the table. -/
theorem Sqlite.outcome_row {sql : Sqlite} {parentId : Nat} {name : WString} {db db' : Db}
    (h : sql.outcome (.sel parentId name) db = some (.row, db')) :
    ∃ r, db'.tables.entries.find parentId name = some r := by
  unfold Sqlite.outcome at h
  split at h
  · cases h
  · cases h
  · simp only [Stmt.run, Stmt.exec, Option.some.injEq, Prod.mk.injEq] at h
    obtain ⟨hrc, rfl⟩ := h
    split at hrc
    · exact Option.isSome_iff_exists.mp ‹_›
    · cases hrc

namespace Session

/-- The session behind a `bind`. -/
def bound (s : Session) (h : Handle) (p : Param) (slot : Slot) : Session :=
  s.setVm h ⟨.ready, Function.update (s.vm h).vars (h.params.idxOf p + 1) slot⟩

@[simp] theorem bound_db (s : Session) (h : Handle) (p : Param) (slot : Slot) : (s.bound h p slot).db = s.db := rfl

@[simp] theorem bound_progress (s : Session) (h : Handle) (p : Param) (slot : Slot) :
    ((s.bound h p slot).vm h).progress = .ready := by
  simp [bound, setVm]

theorem bound_vm_of_ne (s : Session) {h h' : Handle} (hne : h' ≠ h) (p : Param) (slot : Slot) :
    (s.bound h p slot).vm h' = s.vm h' := by
  simp [bound, setVm, hne]

/-- A parameter has the value bound to it last. -/
theorem value_bound (s : Session) {h : Handle} {p q : Param} (slot : Slot) (hp : p ∈ h.params) :
    h.value ((s.bound h p slot).vm h) q = if q = p then slot.value else h.value (s.vm h) q := by
  unfold Handle.value bound setVm
  simp only [Function.update_self]
  by_cases hq : q = p
  · rw [hq, Function.update_self, if_pos rfl]
  · have hne : h.params.idxOf q ≠ h.params.idxOf p := fun heq => hq ((List.idxOf_inj hp).mp heq.symm).symm
    rw [Function.update_of_ne (by omega), if_neg hq]

/-- The session behind an execution that ended with `rc` and left `db`. -/
def stepped (s : Session) (h : Handle) (stmt : Stmt) (rc : ResultCode) (db : Db) : Session :=
  { s with db := db }.setVm h { s.vm h with progress := Sqlite.standing h stmt rc db }

end Session

namespace Statement

open Session

variable {sql : Sqlite}

theorem paramName2idx_eq (s : Session) {h : Handle} {p : Param} (hp : p ∈ h.params) :
    paramName2idx h p s = .ok (h.params.idxOf p + 1) s := by
  obtain ⟨i, hi⟩ := Option.isSome_iff_exists.mp (List.isSome_idxOf?.mpr hp)
  rw [paramName2idx, hi, List.idxOf_eq_getD_idxOf?, hi]
  rfl

theorem sqlite3Bind_ready {s : Session} {h : Handle} {idx : Nat} {vars : Nat → Slot} (slot : Slot)
    (hvm : s.vm h = ⟨.ready, vars⟩) (hidx : 1 ≤ idx ∧ idx ≤ h.params.length) :
    sqlite3Bind h idx slot s = .ok .ok (s.setVm h ⟨.ready, Function.update vars idx slot⟩) := by
  rw [sqlite3Bind, hvm, Vdbe.bind]
  simp only [if_pos hidx]

/-- A statement that is not ready refuses the value. -/
theorem sqlite3Bind_misuse {s : Session} {h : Handle} (idx : Nat) (slot : Slot)
    (hready : (s.vm h).progress ≠ .ready) : sqlite3Bind h idx slot s = .ok .misuse (s.setVm h (s.vm h)) := by
  rw [sqlite3Bind, Vdbe.bind]
  cases hprogress : (s.vm h).progress with
  | ready => exact absurd hprogress hready
  | row column => rfl
  | halted rc => rfl

theorem sqlite3Reset_eq (s : Session) (h : Handle) :
    ∃ rc, sqlite3Reset h s = .ok rc (s.setVm h ⟨.ready, (s.vm h).vars⟩) := by
  rw [sqlite3Reset, Vdbe.reset]
  cases (s.vm h).progress <;> exact ⟨_, rfl⟩

theorem setVm_self (s : Session) (h : Handle) : s.setVm h (s.vm h) = s := by
  rw [setVm, Function.update_eq_self]

theorem setVm_setVm (s : Session) (h : Handle) (vm vm' : Vdbe) : (s.setVm h vm).setVm h vm' = s.setVm h vm' := by
  rw [setVm, setVm, Function.update_idem]
  rfl

@[simp] theorem setVm_vm (s : Session) (h : Handle) (vm : Vdbe) : (s.setVm h vm).vm h = vm :=
  Function.update_self ..

/-- A value can be bound to every parameter of the statement, wherever the statement stands. -/
theorem bind_eq (s : Session) {h : Handle} {p : Param} (value : Value) (nocopy : Bool) (hp : p ∈ h.params) :
    bind h p value nocopy s = .ok .ok (s.bound h p ⟨value, nocopy⟩) := by
  have hidx : 1 ≤ h.params.idxOf p + 1 ∧ h.params.idxOf p + 1 ≤ h.params.length :=
    ⟨Nat.le_add_left _ _, List.idxOf_lt_length_of_mem hp⟩
  rw [bind, bind_of_ok (paramName2idx_eq s hp), bindIdx]
  by_cases hready : (s.vm h).progress = .ready
  · have hvm : s.vm h = ⟨.ready, (s.vm h).vars⟩ := by
      rw [← hready]
    rw [bind_of_ok (sqlite3Bind_ready _ hvm hidx)]
    rfl
  · obtain ⟨rc, hreset⟩ := sqlite3Reset_eq s h
    rw [bind_of_ok (sqlite3Bind_misuse _ _ hready), setVm_self, if_pos rfl]
    rw [bind_of_ok hreset, bind_of_ok (sqlite3Bind_ready _ (setVm_vm ..) hidx), setVm_setVm]
    rfl

theorem throwDatabaseError_eq (code : Nat) (s : Session) :
    throwDatabaseError code s = if s.db.exceptions then .error (.databaseError code) s else .ok () s := by
  rw [throwDatabaseError, bind_get]
  split <;> rfl

/-- A statement that is not at a row executes the statement that its values make. -/
theorem step_eq {s : Session} {h : Handle} {stmt : Stmt} (hrow : ∀ column, (s.vm h).progress ≠ .row column)
    (hstmt : h.stmt (h.value (s.vm h)) = some stmt) :
    step sql h s =
      match sql.outcome stmt s.db with
      | none => .error .killed { s with db := s.db.crash }
      | some (rc, db) =>
          if rc.failed ∧ s.db.exceptions then .error (.databaseError rc.code) (s.stepped h stmt rc db)
          else .ok rc (s.stepped h stmt rc db) := by
  have hstep : sql.step h s =
      match sql.outcome stmt s.db with
      | none => .error .killed { s with db := s.db.crash }
      | some (rc, db) => .ok rc (s.stepped h stmt rc db) := by
    unfold Sqlite.step
    cases hprogress : (s.vm h).progress with
    | row column => exact absurd hprogress (hrow column)
    | ready =>
        simp only [hstmt]
        rfl
    | halted rc =>
        simp only [hstmt]
        rfl
  cases houtcome : sql.outcome stmt s.db with
  | none =>
      rw [houtcome] at hstep
      simp only [step, Bind.bind, EStateM.bind, hstep]
  | some result =>
      obtain ⟨rc, db⟩ := result
      rw [houtcome] at hstep
      have hexceptions : (s.stepped h stmt rc db).db.exceptions = s.db.exceptions := Sqlite.outcome_exceptions houtcome
      rw [step, bind_of_ok hstep]
      by_cases hfailed : rc.failed
      · simp only [Bind.bind, EStateM.bind, if_pos (rc.failed_iff.mp hfailed), throwDatabaseError_eq, hexceptions,
          hfailed, true_and]
        by_cases hexc : s.db.exceptions
        · simp only [hexc, if_true]
        · simp only [hexc]
          rfl
      · simp only [if_neg (rc.failed_iff.not.mp hfailed), hfailed]
        rfl

/-- `step` does to the connection what executing the statement of the values does. -/
theorem step_rwp {s : Session} {h : Handle} {stmt : Stmt} (hrow : ∀ column, (s.vm h).progress ≠ .row column)
    (hstmt : h.stmt (h.value (s.vm h)) = some stmt) :
    rwp (step sql h) (sql.execute stmt)
      (fun rc s' rc' db' => rc = rc' ∧ s' = s.stepped h stmt rc db' ∧ (rc.failed = true → db'.exceptions = false) ∧
        ∀ parentId name, stmt = .sel parentId name → rc = .row →
          ∃ r, db'.tables.entries.find parentId name = some r)
      (fun s' db' => s'.db = db') s s.db := by
  rw [rwp, step_eq hrow hstmt, sql.execute_eq_outcome]
  cases houtcome : sql.outcome stmt s.db with
  | none => exact ⟨rfl, rfl⟩
  | some result =>
      obtain ⟨rc, db⟩ := result
      by_cases hthrows : rc.failed ∧ s.db.exceptions
      · simp only [if_pos hthrows]
        exact ⟨rfl, rfl⟩
      · simp only [if_neg hthrows]
        refine ⟨rfl, rfl, ?_, ?_⟩
        · intro hfailed
          rw [Sqlite.outcome_exceptions houtcome]
          exact Bool.eq_false_iff.mpr fun hexc => hthrows ⟨hfailed, hexc⟩
        · rintro parentId name rfl rfl
          exact Sqlite.outcome_row houtcome

/-- The statement can be executed, and it is `stmt` then. -/
structure Bound (h : Handle) (stmt : Stmt) (vm : Vdbe) : Prop where
  ready : vm.progress = .ready
  stmt_eq : h.stmt (h.value vm) = some stmt

/-- `execute` of a bound statement. Its code is that of this execution. -/
theorem execute_rwp {s : Session} {h : Handle} {stmt : Stmt} (hbound : Bound h stmt (s.vm h)) :
    rwp (execute sql h) (sql.execute stmt)
      (fun rc s' rc' db' => rc = .step rc' ∧ s'.db = db' ∧ ∀ h' ≠ h, s'.vm h' = s.vm h')
      (fun s' db' => s'.db = db') s s.db := by
  have hreset : reset h s = .ok .ok s := by
    rw [reset, sqlite3Reset, Vdbe.reset, hbound.ready]
    have hvm : (⟨.ready, (s.vm h).vars⟩ : Vdbe) = s.vm h := by
      rw [← hbound.ready]
    simp only [hvm, setVm_self]
  have hrow : ∀ column, (s.vm h).progress ≠ .row column := by
    intro column
    rw [hbound.ready]
    exact nofun
  have hrwp : rwp (step sql h) (sql.execute stmt) _ _ s s.db := step_rwp hrow hbound.stmt_eq
  refine rwp_left hreset ?_
  rcases related_iff.mp hrwp with
    ⟨rc, s', rc', db', hstep, hexec, rfl, rfl, hquiet, -⟩ | ⟨e, s', db', hstep, hexec, hdb⟩
  · have hframe : ∀ h' ≠ h, (s.stepped h stmt rc db').vm h' = s.vm h' := fun h' hne => Function.update_of_ne hne ..
    rw [rwp, hexec]
    simp only [if_true, Bind.bind, EStateM.bind, hstep, Pure.pure, EStateM.pure]
    by_cases hfailed : rc.failed
    · have hne := rc.failed_iff.mp hfailed
      have hexc : (s.stepped h stmt rc db').db.exceptions = false := hquiet hfailed
      simp only [ne_eq, Rc.step.injEq, hne, not_false_eq_true, and_self, if_true, EStateM.bind, throwDatabaseError_eq,
        hexc, Bool.false_eq_true, if_false]
      exact ⟨rfl, rfl, hframe⟩
    · simp only [ne_eq, Rc.step.injEq, if_neg (rc.failed_iff.not.mp hfailed)]
      exact ⟨rfl, rfl, hframe⟩
  · rw [rwp, hexec]
    simp only [if_true, Bind.bind, EStateM.bind, hstep]
    exact ⟨rfl, hdb⟩

end Statement

end Spacenet
