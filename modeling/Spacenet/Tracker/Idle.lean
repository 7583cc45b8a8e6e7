-- SUMMARY: `reindex` leaves its connection as it got it: without an open transaction and with exceptions switched on.
import Spacenet.Observation
import Spacenet.Sqlite.Binding

/-!
# The connection between two rounds

The worker keeps its connection after a round that returns. Whatever statements
have failed on the way, no transaction is open then, and exceptions are on.
-/

namespace Spacenet

open Prog

/-- No transaction is open. -/
def Db.Closed (db : Db) : Prop := db.snapshot = none

/-- No transaction is open and exceptions are switched on: what a round starts with. -/
structure Db.Idle (db : Db) : Prop where
  closed : db.snapshot = none
  exceptions : db.exceptions = true

/-! ## The statements -/

section

variable {sql : Sqlite} {α : Type}

/-- What a statement outside transactions leaves on the connection when the process goes on. -/
theorem outcome_leaves {s : Stmt} (hs : s.autocommits = true) {db db' : Db} {rc : ResultCode}
    (h : sql.outcome s db = some (rc, db')) : db'.snapshot = db.snapshot ∧ db'.exceptions = db.exceptions := by
  unfold Sqlite.outcome at h
  cases hfault : sql.fault db s with
  | none =>
      simp only [hfault, Stmt.run_autocommits hs] at h
      cases h
      exact ⟨rfl, rfl⟩
  | some fault =>
      rw [hfault] at h
      cases fault with
      | kill => cases h
      | error code =>
          cases h
          exact ⟨rfl, rfl⟩

/-- A statement that returns leaves the transaction as it was. The end of the process rolls it back. -/
theorem execute_leaves {s : Stmt} (hs : s.autocommits = true) (db : Db) :
    wp (sql.execute s) (fun _ db' => db'.snapshot = db.snapshot ∧ db'.exceptions = db.exceptions)
      (fun _ db' => (db'.snapshot = db.snapshot ∨ db'.snapshot = none) ∧ db'.exceptions = db.exceptions) db := by
  rw [wp, sql.execute_eq_outcome]
  cases houtcome : sql.outcome s db with
  | none => exact ⟨.inr rfl, rfl⟩
  | some result =>
      obtain ⟨rc, db'⟩ := result
      obtain ⟨hsnapshot, hexc⟩ := outcome_leaves hs houtcome
      by_cases hthrows : rc.failed ∧ db.exceptions
      · simp only [if_pos hthrows]
        exact ⟨.inl hsnapshot, hexc⟩
      · simp only [if_neg hthrows]
        exact ⟨hsnapshot, hexc⟩

theorem execute_closed {s : Stmt} (hs : s.autocommits = true) : Keeps Db.Closed (sql.execute s) := by
  intro db hdb
  refine (execute_leaves hs db).mono ?_ ?_
  · rintro rc db' ⟨hsnapshot, -⟩
    exact hsnapshot.trans hdb
  · rintro e db' ⟨hsnapshot | hsnapshot, -⟩
    · exact hsnapshot.trans hdb
    · exact hsnapshot

theorem execute_idle {s : Stmt} (hs : s.autocommits = true) : Keeps Db.Idle (sql.execute s) := by
  intro db hdb
  refine ((execute_closed hs db hdb.closed).and (execute_leaves hs db)).mono ?_ ?_
  · rintro rc db' ⟨hclosed, -, hexc⟩
    exact ⟨hclosed, hexc.trans hdb.exceptions⟩
  · rintro e db' ⟨hclosed, -, hexc⟩
    exact ⟨hclosed, hexc.trans hdb.exceptions⟩

theorem setExceptions_closed (exceptions : Bool) : Keeps Db.Closed (Db.setExceptions exceptions) := fun _ h => h

/-- The guard switches exceptions back, whatever `m` has done to them. -/
theorem keepingExceptions_idle {m : DbM α} (hm : Keeps Db.Closed m) : Keeps Db.Idle (Db.keepingExceptions m) := by
  intro db hdb
  unfold Db.keepingExceptions
  rw [wp_bind, wp_get, wp_atScopeExit]
  refine (hm db hdb.closed).mono ?_ ?_
  · intro a db' hclosed
    exact ⟨hclosed, hdb.exceptions⟩
  · intro e db' hclosed
    exact ⟨hclosed, hdb.exceptions⟩

/-! ## The lambdas -/

theorem updateBlockDigest_idle (entryId blkNo : Nat) (digest : Blob) :
    Keeps Db.Idle (updateBlockDigest sql entryId blkNo digest) := by
  refine keepingExceptions_idle (.bind (setExceptions_closed _) fun _ => .bind (execute_closed rfl) fun rc => .ite ?_ (.pure _ _))
  exact .bind (setExceptions_closed _) fun _ => .bind (execute_closed rfl) fun _ => .pure _ _

theorem updateBlocks_idle (disk : Disk) (ctx : Cdc512) (pathName : WString) (entryId blockSize : Nat) :
    Keeps Db.Idle (updateBlocks sql disk ctx pathName entryId blockSize) := by
  have hloop : ∀ (failed : Bool) (chunks : List Blob) (blkNo : Nat) (ctx : Cdc512),
      Keeps Db.Idle (updateBlocksLoop sql entryId blockSize failed chunks blkNo ctx) := by
    intro failed chunks
    induction chunks with
    | nil => exact fun _ _ => .pure _ _
    | cons chunk chunks ih =>
        intro blkNo ctx
        exact .bind (updateBlockDigest_idle _ _ _) fun _ => .bind (execute_idle rfl) fun _ => ih _ _
  unfold updateBlocks
  split
  · exact .pure _ _
  · exact hloop _ _ _ _

theorem getIdMtim_closed (parentId : Nat) (name : WString) (id : Nat) (mtim : U64) :
    Keeps Db.Closed (getIdMtim sql parentId name id mtim) := by
  refine .bind (execute_closed rfl) fun rc => .get_bind fun db => ?_
  split <;> exact .pure _ _

theorem updateEntry_idle (modifiedOnly : Bool) (params : EntryParams) (mtime : U64) :
    Keeps Db.Idle (updateEntry sql modifiedOnly params mtime) := by
  refine keepingExceptions_idle (.bind (setExceptions_closed _) fun _ => .bind (getIdMtim_closed _ _ _ _) fun x => ?_)
  have htail : ∀ id mtim, Keeps Db.Closed (if id = 0 then
      getIdMtim sql params.parentId params.name id mtim >>= fun x => pure (x.1, mtim) else pure (id, mtim)) :=
    fun id mtim => .ite (.bind (getIdMtim_closed _ _ _ _) fun _ => .pure _ _) (.pure _ _)
  refine .ite (.bind (execute_closed rfl) fun _ => htail _ _) ?_
  refine .bind (setExceptions_closed _) fun _ => .bind (execute_closed rfl) fun rc => .ite ?_ (htail _ _)
  exact .bind (setExceptions_closed _) fun _ => .bind (execute_closed rfl) fun _ => htail _ _

end

/-! ## The callback and the walk -/

/-- The connection of a callback is idle. -/
def IdleWorld (sh : Shared World) : Prop := sh.user.db.Idle

theorem withDb_idle {α : Type} {m : DbM α} (hm : Keeps Db.Idle m) : Keeps IdleWorld (withDb m) :=
  .onPart hm fun _ _ => rfl

theorem setParents_idle (f : List (WString × Nat) → List (WString × Nat)) : Keeps IdleWorld (setParents f) := fun _ h => h

theorem convert_idle (text : WString) : Keeps IdleWorld (convert text) := .ite (.pure _ _) (.throw _ _)

section

variable (env : Env) (disk : Disk)

theorem parentIdOf_idle (dr : DirectoryReader) : Keeps IdleWorld (parentIdOf env dr) := by
  refine .get_bind fun sh => ?_
  split
  · exact .pure _ _
  · refine .ite (.throw _ _) ?_
    exact .bind (withDb_idle (updateEntry_idle _ _ _)) fun _ => .bind (setParents_idle _) fun _ => .pure _ _

theorem digests_idle (dr : DirectoryReader) (entryId : Nat) {c : Prop} [Decidable c] :
    Keeps IdleWorld (if c then (do
        let (complete, ctx) ← withDb (updateBlocks env.sql disk Cdc512.init dr.pathName entryId fileBlockSize)
        if complete then
          let _ ← withDb (env.sql.execute (.updAfter entryId dr.fmtim ctx.finish.digest)))
      else pure ()) := by
  refine .ite (.bind (withDb_idle (updateBlocks_idle _ _ _ _ _)) fun y => .ite ?_ (.pure _ _)) (.pure _ _)
  exact .bind (withDb_idle (execute_idle rfl)) fun _ => .pure _ _

theorem indexEntry_idle (dr : DirectoryReader) : Keeps IdleWorld (indexEntry env disk dr) := by
  refine .bind (convert_idle _) fun _ => .bind (convert_idle _) fun _ => ?_
  refine .bind (parentIdOf_idle env dr) fun parentId => .bind (withDb_idle (updateEntry_idle _ _ _)) fun x => ?_
  refine .ite (.bind (convert_idle _) fun _ => ?_) (digests_idle env disk dr x.1)
  exact .bind (setParents_idle _) fun _ => digests_idle env disk dr x.1

theorem manipulator_idle (dr : DirectoryReader) : Keeps IdleWorld (manipulator env disk dr) := by
  intro sh hsh
  simp only [manipulator, wp_bind, wp_get, wp_set, wp_ite, wp_modify, wp_pure]
  by_cases hshutdown : env.shutdown sh.user.calls
  · rw [if_pos hshutdown]
    exact hsh
  rw [if_neg hshutdown]
  by_cases haccess : disk.access dr.pathName (if dr.isDir then R_OK ||| X_OK else R_OK) ≠ 0
  · rw [if_pos haccess]
    exact hsh
  · rw [if_neg haccess]
    exact indexEntry_idle env disk dr _ hsh

end

/-- A walk keeps what its callback keeps. -/
theorem runEvents_keeps {σ : Type} {I : σ → Prop} {m : Manipulator σ}
    (hm : ∀ dr, Keeps (fun sh : Shared σ => I sh.user) (m dr)) (o : DirectoryReader) (es : List Event) (lastError : U32)
    {user : σ} (huser : I user) : I (runEvents o m es lastError user).user := by
  induction es generalizing lastError user with
  | nil => exact huser
  | cons e es ih =>
      rw [runEvents]
      cases e with
      | openFailed path err =>
          rw [Event.run]
          split <;> exact huser
      | endOfDirectory path err =>
          rw [Event.run]
          split
          · exact ih err huser
          · exact huser
      | call c =>
          have hcall := hm (c.reader o) ⟨false, lastError, user⟩ huser
          rw [Event.run]
          cases hrun : m (c.reader o) ⟨false, lastError, user⟩ with
          | error e sh => exact wp_of_error hcall hrun
          | ok a sh =>
              have hsh := wp_of_ok hcall hrun
              dsimp only
              split
              · rw [Call.stop_bind, Call.stop_user]
                exact hsh
              · exact ih sh.lastError hsh

/-! ## The sweep and the run -/

theorem executeAll_idle {sql : Sqlite} {stmts : List Stmt} (h : ∀ s ∈ stmts, s.autocommits = true) :
    Keeps Db.Idle (sql.executeAll stmts) := by
  induction stmts with
  | nil => exact .pure _ _
  | cons s stmts ih =>
      rw [List.forall_mem_cons] at h
      exact .bind (execute_idle h.1) fun _ => ih h.2

theorem executeAll_on {sql : Sqlite} {stmts : List Stmt} (h : ∀ s ∈ stmts, s.autocommits = true) (db : Db) :
    wp (sql.executeAll stmts) (fun _ db' => db'.snapshot = db.snapshot ∧ db'.exceptions = db.exceptions)
      (fun _ _ => True) db := by
  induction stmts generalizing db with
  | nil => exact ⟨rfl, rfl⟩
  | cons s stmts ih =>
      rw [List.forall_mem_cons] at h
      rw [Sqlite.executeAll, wp_bind]
      refine (execute_leaves h.1 db).mono ?_ (fun _ _ _ => trivial)
      rintro rc db₁ ⟨hsnapshot, hexc⟩
      refine (ih h.2 db₁).mono ?_ (fun _ _ h => h)
      rintro _ db₂ ⟨hsnapshot₂, hexc₂⟩
      exact ⟨hsnapshot₂.trans hsnapshot, hexc₂.trans hexc⟩

/-- With exceptions on, a statement that returns has had its effect on the transaction. -/
theorem wp_execute_on {sql : Sqlite} (s : Stmt) {db : Db} (hexc : db.exceptions = true) :
    wp (sql.execute s)
      (fun _ db' => (s.run sql.policy db.tables db.snapshot).1.failed = false ∧
        db'.snapshot = (s.run sql.policy db.tables db.snapshot).2.2 ∧ db'.exceptions = true)
      (fun _ _ => True) db := by
  rw [wp, sql.execute_eq_outcome, Sqlite.outcome]
  cases sql.fault db s with
  | none =>
      simp only [hexc, and_true]
      cases hfailed : (s.run sql.policy db.tables db.snapshot).1.failed with
      | true => trivial
      | false => exact ⟨rfl, rfl, rfl⟩
  | some fault =>
      cases fault with
      | kill => trivial
      | error code =>
          simp only [hexc, ResultCode.failed, and_self, if_true]

/-- Where the body of a transaction throws, so does the transaction. -/
theorem transactionScope_error (sql : Sqlite) (frollback : Bool) {body : DbM Unit} {db db₁ : Db} {e : Error}
    (h : body db = .error e db₁) : ∃ e' db', sql.transactionScope frollback body db = .error e' db' := by
  rw [Sqlite.transactionScope, h]
  dsimp only
  split
  · exact ⟨_, _, rfl⟩
  · split <;> exact ⟨_, _, rfl⟩

/-- `cleanup_entries` leaves no transaction open when it returns. -/
theorem cleanupEntries_idle {sql : Sqlite} {db : Db} (h : db.Idle) :
    wp (cleanupEntries sql) (fun _ db' => db'.Idle) (fun _ _ => True) db := by
  unfold cleanupEntries Sqlite.transaction
  rw [wp_bind]
  refine (wp_execute_on (.begin true) h.exceptions).mono ?_ (fun _ _ h => h)
  rintro rc db₁ ⟨-, hsnapshot, hexc⟩
  rw [h.closed] at hsnapshot
  have hbody : wp (sql.executeAll cleanupStatements) _ _ db₁ := executeAll_on (by decide) db₁
  cases hrun : sql.executeAll cleanupStatements db₁ with
  | error e db₂ =>
      obtain ⟨e', db', hthrew⟩ := transactionScope_error sql false hrun
      rw [wp, hthrew]
      trivial
  | ok _ db₂ =>
      obtain ⟨hsnapshot₂, hexc₂⟩ := wp_of_ok hbody hrun
      have hcommit : wp (do let _ ← sql.execute .commit) (fun _ db' => db'.Idle) (fun _ _ => True) db₂ := by
        rw [wp_bind]
        refine (wp_execute_on .commit (hexc₂.trans hexc)).mono ?_ (fun _ _ h => h)
        rintro rc db₃ ⟨-, hclosed, hon⟩
        rw [hsnapshot₂, hsnapshot] at hclosed
        exact ⟨hclosed, hon⟩
      rw [wp, Sqlite.transactionScope, hrun]
      exact hcommit

/-- A run that returns leaves its connection idle. -/
theorem reindexed_idle {env : Env} {t : Tree} {root : WString} {lastError : U32} {db db' : Db} (h : db.Idle)
    (hresult : reindexed env t root lastError db = .ok () db') : db'.Idle := by
  unfold reindexed at hresult
  cases hschema : env.sql.executeAll schemaStatements db with
  | error e db₁ =>
      rw [hschema] at hresult
      cases hresult
  | ok _ db₁ =>
      have hidle : db₁.Idle := wp_of_ok (executeAll_idle (by decide) db h) hschema
      have hwalk := runEvents_keeps (I := fun w : World => w.db.Idle) (manipulator_idle env (t.disk root)) indexReader
        (t.events indexReader root) lastError (show World.db ⟨db₁, [], 0⟩ |>.Idle from hidle)
      simp only [hschema] at hresult
      generalize runEvents indexReader (manipulator env (t.disk root)) (t.events indexReader root) lastError
        ⟨db₁, [], 0⟩ = x at hwalk hresult
      cases x with
      | through lastError w => exact wp_of_ok (cleanupEntries_idle hwalk) hresult
      | returned w => exact wp_of_ok (cleanupEntries_idle hwalk) hresult
      | threw e w => cases hresult

end Spacenet
