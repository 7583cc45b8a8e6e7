-- SUMMARY: What the execution of a statement outside a transaction can do: its effect, an exception, or a failure that goes unnoticed.
import Spacenet.Sqlite.Database

/-!
# Execution outside a transaction

Outside a transaction a statement either has its effect or leaves the tables as
they are. A failure is thrown, unless it happens while the exceptions of the
connection are switched off: then the program sees it in the result code only.
-/

namespace Spacenet

open Prog

/-- Every failing statement throws: none fails while the exceptions are switched off. -/
def Sqlite.Throws (sql : Sqlite) : Prop :=
  ∀ db s code, sql.fault db s = some (.error code) → db.exceptions = true

/-- No statement fails, other than by a UNIQUE conflict. -/
def Sqlite.NoFault (sql : Sqlite) : Prop := ∀ db s, sql.fault db s = none

/-- A connection on which no statement fails. -/
def Sqlite.working (policy : RowidPolicy) : Sqlite where
  policy := policy
  fault := fun _ _ => none

theorem Sqlite.working_noFault (policy : RowidPolicy) : (working policy).NoFault := fun _ _ => rfl

theorem Sqlite.NoFault.throws {sql : Sqlite} (h : sql.NoFault) : sql.Throws := by
  intro db s code hfault
  rw [h db s] at hfault
  cases hfault

/-- The INSERT finds stored what it would write: a row of the entry, or the block row with its
digest. -/
def Stmt.Stored (t : Tables) : Stmt → Prop
  | .ins params => t.entries.find params.parentId params.name ≠ none
  | .blkIns entryId blockNo digest => ⟨entryId, blockNo, some digest⟩ ∈ t.blocksDigests.rows
  | _ => False

instance (t : Tables) (s : Stmt) : Decidable (s.Stored t) := by
  unfold Stmt.Stored
  split <;> infer_instance

/-- Every failing statement throws, or is an INSERT that finds stored what it would write. -/
def Sqlite.LosesNothing (sql : Sqlite) : Prop :=
  ∀ db s code, sql.fault db s = some (.error code) → db.exceptions = true ∨ s.Stored db.tables

theorem Sqlite.Throws.losesNothing {sql : Sqlite} (h : sql.Throws) : sql.LosesNothing :=
  fun db s code hfault => .inl (h db s code hfault)

/-- The statements that do not touch the open transaction. -/
def Stmt.autocommits : Stmt → Bool
  | .begin _ | .commit | .rollback => false
  | _ => true

/-- The statements that a UNIQUE conflict can end. -/
def Stmt.conflicts : Stmt → Bool
  | .ins _ | .blkIns _ _ _ => true
  | _ => false

theorem Stmt.run_autocommits {s : Stmt} (hs : s.autocommits = true) (policy : RowidPolicy)
    (t : Tables) (snapshot : Option Tables) :
    s.run policy t snapshot = ((s.exec policy t).1, (s.exec policy t).2, snapshot) := by
  cases s <;> first | rfl | cases hs

namespace Stmt

variable {policy : RowidPolicy} {t : Tables}

theorem exec_ins (policy : RowidPolicy) {params : EntryParams} (h : t.entries.find params.parentId params.name = none) :
    (ins params).exec policy t = (.done, { t with entries := t.entries.insert policy params h }) :=
  dif_pos h

theorem exec_ins_conflict (policy : RowidPolicy) {params : EntryParams}
    (h : t.entries.find params.parentId params.name ≠ none) :
    (ins params).exec policy t = (.constraintUnique, t) :=
  dif_neg h

theorem exec_blkIns (policy : RowidPolicy) (digest : Blob) {entryId blockNo : Nat}
    (h : t.blocksDigests.find entryId blockNo = none) :
    (blkIns entryId blockNo digest).exec policy t =
      (.done, { t with blocksDigests := t.blocksDigests.insert ⟨entryId, blockNo, some digest⟩ h }) :=
  dif_pos h

theorem exec_blkIns_conflict (policy : RowidPolicy) (digest : Blob) {entryId blockNo : Nat}
    (h : t.blocksDigests.find entryId blockNo ≠ none) :
    (blkIns entryId blockNo digest).exec policy t = (.constraintUnique, t) :=
  dif_neg h

theorem exec_ne_error (s : Stmt) (t : Tables) (code : Nat) : (s.exec policy t).1 ≠ .error code := by
  intro h
  unfold exec at h
  split at h <;> first | cases h | (split at h <;> cases h)

/-- Only a UNIQUE conflict ends a statement that can be executed with a failure. -/
theorem conflicts_of_failed {s : Stmt} (h : (s.exec policy t).1.failed = true) :
    s.conflicts = true := by
  cases s with
  | ins params => rfl
  | blkIns entryId blockNo digest => rfl
  | sel parentId name =>
      simp only [exec] at h
      split at h <;> cases h
  | create object => cases h
  | begin immediate => cases h
  | commit => cases h
  | rollback => cases h
  | upd params => cases h
  | updTouch id => cases h
  | updAfter id mtime digest => cases h
  | blkUpd entryId blockNo digest => cases h
  | blkDel entryId blockNo => cases h
  | deleteBlocks => cases h
  | deleteEntries => cases h
  | resetAlive => cases h

end Stmt

namespace Db

/-- The same connection with other tables, and with more in its log. -/
def put (db : Db) (t : Tables) (log : List (Stmt × ResultCode)) : Db :=
  { db with tables := t, log := log }

@[simp] theorem put_tables (db : Db) (t : Tables) (log) : (db.put t log).tables = t := rfl
@[simp] theorem put_snapshot (db : Db) (t : Tables) (log) : (db.put t log).snapshot = db.snapshot := rfl
@[simp] theorem put_exceptions (db : Db) (t : Tables) (log) :
    (db.put t log).exceptions = db.exceptions := rfl
@[simp] theorem put_put (db : Db) (t t' : Tables) (log log') :
    (db.put t log).put t' log' = db.put t' log' := rfl

@[simp] theorem withExceptions_exceptions (db : Db) (b : Bool) :
    (db.withExceptions b).exceptions = b := rfl
@[simp] theorem withExceptions_tables (db : Db) (b : Bool) :
    (db.withExceptions b).tables = db.tables := rfl
@[simp] theorem withExceptions_snapshot (db : Db) (b : Bool) :
    (db.withExceptions b).snapshot = db.snapshot := rfl
@[simp] theorem put_withExceptions (db : Db) (b : Bool) (t : Tables) (log) :
    (db.put t log).withExceptions b = (db.withExceptions b).put t log := rfl
@[simp] theorem withExceptions_withExceptions (db : Db) (b b' : Bool) :
    (db.withExceptions b).withExceptions b' = db.withExceptions b' := rfl
@[simp] theorem withExceptions_self (db : Db) : db.withExceptions db.exceptions = db := rfl

theorem put_self (db : Db) : db.put db.tables db.log = db := rfl

theorem crash_eq {db : Db} (h : db.snapshot = none) : db.crash = db := by
  unfold crash committed
  rw [h]
  cases db
  simp only at h
  subst h
  rfl

end Db

namespace Db

/-- The same connection with another open transaction. -/
def within (db : Db) (snapshot : Option Tables) : Db :=
  { db with snapshot := snapshot }

@[simp] theorem within_tables (db : Db) (snapshot) : (db.within snapshot).tables = db.tables := rfl
@[simp] theorem within_snapshot (db : Db) (snapshot) : (db.within snapshot).snapshot = snapshot := rfl
@[simp] theorem within_exceptions (db : Db) (snapshot) :
    (db.within snapshot).exceptions = db.exceptions := rfl
@[simp] theorem within_within (db : Db) (snapshot snapshot') :
    (db.within snapshot).within snapshot' = db.within snapshot' := rfl
@[simp] theorem put_within (db : Db) (t : Tables) (log) (snapshot) :
    (db.put t log).within snapshot = (db.within snapshot).put t log := rfl

theorem within_self {db : Db} {snapshot : Option Tables} (h : db.snapshot = snapshot) :
    db.within snapshot = db := by
  subst h
  rfl

end Db

namespace Sqlite

variable {sql : Sqlite} {db : Db} {s : Stmt}

theorem not_noFault {f : Fault} (h : sql.fault db s = some f) : ¬sql.NoFault := by
  intro hno
  rw [hno db s] at h
  cases h

/-- The rule of `command::execute`, for every statement. -/
theorem wp_execute_run {Q : ResultCode → Db → Prop} {E : Error → Db → Prop}
    (hok : ∀ rc t snapshot log, s.run sql.policy db.tables db.snapshot = (rc, t, snapshot) →
      (rc.failed = true → db.exceptions = false) → Q rc ((db.within snapshot).put t log))
    (hthrown : ∀ rc t snapshot log, s.run sql.policy db.tables db.snapshot = (rc, t, snapshot) →
      rc.failed = true → db.exceptions = true →
        E (.databaseError rc.code) ((db.within snapshot).put t log))
    (hunnoticed : ∀ code log, sql.fault db s = some (.error code) → db.exceptions = false →
      Q (.error code) (db.put db.tables log))
    (hfault : ∀ code log, sql.fault db s = some (.error code) →
      E (.databaseError code) (db.put db.tables log))
    (hkill : sql.fault db s = some .kill → E .killed db.crash) :
    wp (sql.execute s) Q E db := by
  unfold wp execute
  cases hf : sql.fault db s with
  | some f =>
      cases f with
      | kill => exact hkill hf
      | error code =>
          simp only [Db.finish, ResultCode.failed, true_and]
          by_cases hex : db.exceptions = true
          · rw [if_pos hex]
            exact hfault code _ hf
          · rw [if_neg hex]
            exact hunnoticed code _ hf (Bool.eq_false_iff.mpr hex)
  | none =>
      cases hrun : s.run sql.policy db.tables db.snapshot with
      | mk rc rest =>
          obtain ⟨t, snapshot⟩ := rest
          simp only [Db.finish]
          by_cases hbad : rc.failed = true ∧ db.exceptions = true
          · rw [if_pos hbad]
            exact hthrown rc t snapshot _ hrun hbad.1 hbad.2
          · rw [if_neg hbad]
            refine hok rc t snapshot _ hrun (fun hfailed => ?_)
            exact Bool.eq_false_iff.mpr (fun hex => hbad ⟨hfailed, hex⟩)

/-- The rule for the statements that do not touch the transaction, where a UNIQUE conflict does not
throw. An exception leaves the tables as they are, or the process ends. -/
theorem wp_execute_within {Q : ResultCode → Db → Prop} {E : Error → Db → Prop}
    (hs : s.autocommits = true) (hquiet : s.conflicts = false ∨ db.exceptions = false)
    (hok : ∀ log, Q (s.exec sql.policy db.tables).1 (db.put (s.exec sql.policy db.tables).2 log))
    (hunnoticed : ∀ code log, sql.fault db s = some (.error code) → db.exceptions = false →
      Q (.error code) (db.put db.tables log))
    (herr : ∀ code log, sql.fault db s = some (.error code) →
      E (.databaseError code) (db.put db.tables log))
    (hkill : sql.fault db s = some .kill → E .killed db.crash) :
    wp (sql.execute s) Q E db := by
  refine wp_execute_run ?_ ?_ hunnoticed herr hkill
  · intro rc t snapshot log hrun _
    rw [Stmt.run_autocommits hs] at hrun
    obtain ⟨rfl, rfl, rfl⟩ := hrun
    exact hok log
  · intro rc t snapshot log hrun hfailed hex
    rw [Stmt.run_autocommits hs] at hrun
    obtain ⟨rfl, rfl, rfl⟩ := hrun
    rcases hquiet with hquiet | hquiet
    · rw [Stmt.conflicts_of_failed hfailed] at hquiet
      cases hquiet
    · rw [hex] at hquiet
      cases hquiet

/-- The rule for them outside a transaction. -/
theorem wp_execute {Q : ResultCode → Db → Prop} {E : Error → Db → Prop}
    (hs : s.autocommits = true) (hquiet : s.conflicts = false ∨ db.exceptions = false)
    (hdb : db.snapshot = none)
    (hok : ∀ log, Q (s.exec sql.policy db.tables).1 (db.put (s.exec sql.policy db.tables).2 log))
    (hunnoticed : ∀ code log, sql.fault db s = some (.error code) → db.exceptions = false →
      Q (.error code) (db.put db.tables log))
    (herr : ∀ e log f, sql.fault db s = some f → E e (db.put db.tables log)) :
    wp (sql.execute s) Q E db := by
  refine wp_execute_within hs hquiet hok hunnoticed (fun code log hf => herr _ log _ hf) ?_
  intro hf
  rw [Db.crash_eq hdb]
  exact herr .killed db.log _ hf

namespace LosesNothing

variable {Q : ResultCode → Db → Prop} {E : Error → Db → Prop}

/-- No failure of a statement other than an INSERT goes unnoticed. -/
theorem noticed (h : sql.LosesNothing) (hs : s.conflicts = false) {code : Nat}
    (hf : sql.fault db s = some (.error code)) (hex : db.exceptions = false) : False := by
  rcases h db s code hf with hthrown | hstored
  · rw [hex] at hthrown
    cases hthrown
  · cases s <;> first | exact hstored | cases hs

/-- The rule for the statements other than INSERTs. -/
theorem wp_execute (h : sql.LosesNothing) (hs : s.autocommits = true) (hconflicts : s.conflicts = false)
    (hdb : db.snapshot = none)
    (hok : ∀ log, Q (s.exec sql.policy db.tables).1 (db.put (s.exec sql.policy db.tables).2 log))
    (herr : ∀ e log, ¬sql.NoFault → E e (db.put db.tables log)) : wp (sql.execute s) Q E db := by
  refine Sqlite.wp_execute hs (.inl hconflicts) hdb hok ?_ ?_
  · intro code log hf hex
    exact (h.noticed hconflicts hf hex).elim
  · intro e log f hf
    exact herr e log (not_noFault hf)

/-- The rule for a statement that begins or ends a transaction. -/
theorem wp_execute_done (h : sql.LosesNothing) (hconflicts : s.conflicts = false) {t : Tables}
    {snapshot : Option Tables} (hrun : s.run sql.policy db.tables db.snapshot = (.done, t, snapshot))
    (hok : ∀ log, Q .done ((db.within snapshot).put t log))
    (herr : ∀ code log, ¬sql.NoFault → E (.databaseError code) (db.put db.tables log))
    (hkill : ¬sql.NoFault → E .killed db.crash) : wp (sql.execute s) Q E db := by
  refine wp_execute_run ?_ ?_ (fun _ _ hf hex => (h.noticed hconflicts hf hex).elim) ?_ ?_
  · intro rc t' snapshot' log hr _
    rw [hrun] at hr
    cases hr
    exact hok log
  · intro rc t' snapshot' log hr hfailed _
    rw [hrun] at hr
    cases hr
    cases hfailed
  · intro code log hf
    exact herr code log (not_noFault hf)
  · intro hf
    exact hkill (not_noFault hf)

/-- The rule for an INSERT, which is executed with the exceptions switched off. A failure that goes
unnoticed finds stored what would have been written. -/
theorem wp_insert (h : sql.LosesNothing) (hs : s.autocommits = true) (hex : db.exceptions = false)
    (hdb : db.snapshot = none)
    (hok : ∀ log, Q (s.exec sql.policy db.tables).1 (db.put (s.exec sql.policy db.tables).2 log))
    (hunnoticed : ∀ code log, ¬sql.Throws → s.Stored db.tables → Q (.error code) (db.put db.tables log))
    (herr : ∀ e log, ¬sql.NoFault → E e (db.put db.tables log)) : wp (sql.execute s) Q E db := by
  refine Sqlite.wp_execute hs (.inr hex) hdb hok ?_ ?_
  · intro code log hf _
    refine hunnoticed code log (fun hthrows => ?_) ?_
    · have := hthrows db s code hf
      rw [hex] at this
      cases this
    · refine (h db s code hf).resolve_left (fun hthrown => ?_)
      rw [hex] at hthrown
      cases hthrown
  · intro e log f hf
    exact herr e log (not_noFault hf)

end LosesNothing

end Sqlite

end Spacenet
