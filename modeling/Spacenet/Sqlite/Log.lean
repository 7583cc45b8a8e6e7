-- SUMMARY: Rules for the statements that a program executes, whatever the database holds.
import Spacenet.Sqlite.Execution

/-!
# The statements of a program

`Executes P m` bounds what `m` adds to the log of the connection where it
returns. The rules follow the structure of the program; the tables do not matter.
-/

namespace Spacenet

open Prog

/-- The statements that the log of `db'` has more than the log of `db` satisfy `P`. -/
def Db.Adds (P : Stmt → Prop) (db db' : Db) : Prop :=
  ∀ e ∈ db'.log, e ∈ db.log ∨ P e.1

/-- Where `m` returns, it has executed statements with `P`. -/
def Executes {α : Type} (P : Stmt → Prop) (m : DbM α) : Prop :=
  ∀ db, wp m (fun _ db' => db.Adds P db') (fun _ _ => True) db

namespace Db.Adds

variable {P P' : Stmt → Prop} {db db' db'' : Db}

theorem of_log_eq (h : db'.log = db.log) : db.Adds P db' := by
  intro e he
  rw [h] at he
  exact .inl he

theorem trans (h : db.Adds P db') (h' : db'.Adds P db'') : db.Adds P db'' := by
  intro e he
  rcases h' e he with he | he
  · exact h e he
  · exact .inr he

theorem mono (h : db.Adds P db') (hP : ∀ s, P s → P' s) : db.Adds P' db' :=
  fun e he => (h e he).imp_right (hP e.1)

end Db.Adds

namespace Executes

variable {α β : Type} {P : Stmt → Prop} {sql : Sqlite}

theorem pure (a : α) : Executes P (pure a : DbM α) :=
  fun _ => Db.Adds.of_log_eq rfl

theorem get : Executes P (get : DbM Db) :=
  fun _ => Db.Adds.of_log_eq rfl

theorem setExceptions (exceptions : Bool) : Executes P (Db.setExceptions exceptions) :=
  fun _ => Db.Adds.of_log_eq rfl

theorem bind {m : DbM α} {f : α → DbM β} (h : Executes P m) (h' : ∀ a, Executes P (f a)) :
    Executes P (m >>= f) := by
  intro db
  rw [wp_bind]
  refine (h db).mono ?_ (fun _ _ _ => trivial)
  intro a db' hadds
  exact (h' a db').mono (fun _ _ hadds' => hadds.trans hadds') (fun _ _ _ => trivial)

theorem ite {c : Prop} [Decidable c] {m m' : DbM α} (h : Executes P m) (h' : Executes P m') :
    Executes P (if c then m else m') := by
  split
  · exact h
  · exact h'

theorem atScopeExit {exit : Db → Db} (hexit : ∀ db, (exit db).log = db.log) {m : DbM α}
    (h : Executes P m) : Executes P (atScopeExit exit m) := by
  intro db
  rw [wp_atScopeExit]
  refine (h db).mono ?_ (fun _ _ _ => trivial)
  intro a db' hadds
  exact hadds.trans (.of_log_eq (hexit db'))

theorem keepingExceptions {m : DbM α} (h : Executes P m) : Executes P (Db.keepingExceptions m) := by
  apply get.bind
  intro db
  exact h.atScopeExit fun db' => (rfl : (db'.withExceptions db.exceptions).log = db'.log)

theorem execute {s : Stmt} (h : P s) : Executes P (sql.execute s) := by
  -- a statement that has ended is the last of the log
  have hfinish : ∀ (db : Db) rc t snapshot, wp (fun db => db.finish s rc t snapshot)
      (fun _ db' => db.Adds P db') (fun _ _ => True) db := by
    intro db rc t snapshot
    have hadds : db.Adds P
        { db with tables := t, snapshot := snapshot, log := db.log ++ [(s, rc)] } := by
      intro e he
      rcases List.mem_append.mp he with he | he
      · exact .inl he
      · rw [List.mem_singleton.mp he]
        exact .inr h
    simp only [wp, Db.finish]
    split
    · next heq =>
        split at heq
        · cases heq
        · cases heq
          exact hadds
    · trivial
  intro db
  unfold wp Sqlite.execute
  cases sql.fault db s with
  | none => exact hfinish db _ _ _
  | some f =>
      cases f with
      | kill => trivial
      | error code => exact hfinish db _ _ _

theorem executeAll {statements : List Stmt} (h : ∀ s ∈ statements, P s) :
    Executes P (sql.executeAll statements) := by
  induction statements with
  | nil => exact pure ()
  | cons s statements ih =>
      have hs : Executes P (sql.execute s) := execute (h s List.mem_cons_self)
      exact hs.bind fun _ => ih fun s' hs' => h s' (List.mem_cons_of_mem s hs')

/-- A transaction that returns has executed its body and the COMMIT. -/
theorem transaction {freserve frollback : Bool} {body : DbM Unit} (hbegin : P (.begin freserve))
    (hbody : Executes P body) (hcommit : P .commit) :
    Executes P (sql.transaction freserve frollback body) := by
  refine (execute hbegin).bind fun _ db => ?_
  have hexecute : Executes P (sql.execute .commit) := execute hcommit
  have hclosed := hbody.bind fun _ => hexecute.bind fun _ => pure ()
  have hwp := hclosed db
  rw [wp_bind] at hwp
  unfold wp Sqlite.transactionScope
  cases hb : body db with
  | ok a db' =>
      have hcommits := wp_of_ok hwp hb
      exact hcommits
  | error e db' =>
      by_cases hkilled : e = .killed
      · simp only [if_pos hkilled]
      · simp only [if_neg hkilled]
        cases sql.execute (if frollback then .rollback else .commit) db' <;> trivial

end Executes

end Spacenet
