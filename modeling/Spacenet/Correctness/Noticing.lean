-- SUMMARY: Failing INSERTs that are not thrown: the runs that lose nothing by them, and a run that writes a row under the id 0.
import Spacenet.Effect.Accessible
import Spacenet.Effect.Careful

/-!
# Failures that are not noticed

The exceptions are off around `st_ins` and `st_blk_ins`, so that a UNIQUE conflict
can be answered by an UPDATE. Every other failure of these statements is dropped.
A run stays right when each of them finds stored what it would have written.
-/

namespace Spacenet

open Prog

/-- Only `st_ins` and `st_blk_ins` fail, with any code but that of a UNIQUE conflict. -/
def Sqlite.InsertsFail (sql : Sqlite) : Prop :=
  ∀ db s f, sql.fault db s = some f →
    s.conflicts = true ∧ ∃ code, f = .error code ∧ code ≠ sqliteConstraintUnique

/-- What a run that returned has to have written when no failure went unnoticed. -/
structure Noticed (t : Tree) (root : WString) (db : Db) : Prop where
  /-- An entry whose mtime and digest were recorded is a file with all its blocks. -/
  hashed : ∀ id mtime digest rc, (Stmt.updAfter id mtime digest, rc) ∈ db.log →
    ∃ c ∈ callsOf (t.events indexReader root), ∃ info reads, c.node = .file info ∧
      info.content = some reads ∧ mtime = info.stat.fmtim ∧ digest = reads.digest ∧
      (∃ r ∈ db.committed.entries.rows, r.rowid = id ∧ r.name = c.name ∧ r.mtime = some mtime ∧
        r.digest = some digest) ∧
      ∀ (i : Nat) chunk, reads.chunks[i]? = some chunk →
        ⟨id, (i + 1 : Nat), some (cdc512 (zeroPad fileBlockSize chunk))⟩ ∈
          db.committed.blocksDigests.rows
  /-- No row was written under the id of an entry that was not inserted. -/
  inserted : ∀ s rc, (s, rc) ∈ db.log → rc.failed = false → ¬s.UnderZero root

theorem Stmt.Backed.not_underZero {root : WString} {cs : List Call} {t : Tables} {s : Stmt}
    (h : s.Backed root cs t) : ¬s.UnderZero root := by
  rcases h with hplain | ⟨c, -, reads, r, -, rfl⟩
  · cases s with
    | updAfter id mtime digest => exact fun hzero => hzero
    | ins params => exact hplain
    | upd params => exact hplain
    | blkIns entryId blockNo digest => exact hplain
    | blkUpd entryId blockNo digest => exact hplain
    | _ => exact fun hzero => hzero
  · exact fun hzero => hzero

theorem Call.node_of_reads {c : Call} {reads : FileReads} (h : c.record.reads = some reads) :
    ∃ info, c.node = .file info ∧ info.content = some reads := by
  cases hnode : c.node with
  | file info => exact ⟨info, rfl, (Call.record_file hnode).2 ▸ h⟩
  | dir info entries =>
      rw [(Call.record_dir hnode).2] at h
      cases h

/-- What the statements of the walk have stored is there behind the sweep. -/
theorem Traced.noticed {t : Tree} {root : WString} {w : World}
    (h : Traced root (callsOf (t.events indexReader root)) w) {db : Db}
    (hadds : w.db.Adds (Stmt.Plain root) db) (hcommitted : db.committed = w.db.tables.sweep) :
    Noticed t root db where
  hashed := by
    intro id mtime digest rc hmem
    have hbacked : (Stmt.updAfter id mtime digest).Backed root
        (callsOf (t.events indexReader root)) w.db.tables := by
      rcases hadds _ hmem with hold | hplain
      · exact h.statements _ hold
      · exact .inl hplain
    rcases hbacked with hplain | ⟨c, hc, reads, r, hstores, hs⟩
    · exact hplain.elim
    · obtain ⟨rfl, rfl, rfl⟩ := Stmt.updAfter.inj hs
      obtain ⟨info, hnode, hcontent⟩ := Call.node_of_reads hstores.opens
      have hmtime : c.record.fmtim = info.stat.fmtim := by rw [c.record_fmtim, hnode, Node.stat]
      have hname : r.name = c.name := by
        have hrow := hstores.row
        rw [Call.path, Entries.rowAt_append] at hrow
        obtain ⟨parentId, -, hfind⟩ := Entries.rowIn_eq_some.mp hrow
        exact (Entries.find_eq_some.mp hfind).2.2
      obtain ⟨hrow, hblocks⟩ := hstores.sweep
      rw [hcommitted]
      exact ⟨c, hc, info, reads, hnode, hcontent, hmtime, rfl,
        ⟨_, hrow, rfl, hname, hstores.mtime, hstores.digest⟩, hblocks⟩
  inserted := by
    intro s rc hmem _
    rcases hadds _ hmem with hold | hplain
    · exact (h.statements _ hold).not_underZero
    · have hbacked : s.Backed root [] w.db.tables := .inl hplain
      exact hbacked.not_underZero

/-- Where no statement can fail unnoticed but INSERTs that find stored what they would write. -/
theorem Reindexes.noticed {env : Env} (hsql : env.sql.LosesNothing) {t : Tree} {path : WString} {win : Win32}
    {t₀ : Tables} {db : Db} (h : Reindexes env t path win (Db.connect t₀) (.ok () db)) :
    Noticed t (rootPath path) db := by
  have hresult := reindexes_iff.mp h
  have hclosed : (Db.connect t₀).snapshot = none := rfl
  have hplain : Executes (Stmt.Plain (rootPath path)) (env.sql.executeAll schemaStatements) :=
    executes_schema
  have hschema := (wp_schema hsql hclosed).and (hplain (Db.connect t₀))
  unfold reindexed at hresult
  cases hexec : env.sql.executeAll schemaStatements (Db.connect t₀) with
  | error e db₁ =>
      rw [hexec] at hresult
      cases hresult
  | ok _ db₁ =>
      obtain ⟨⟨log, rfl⟩, hadds⟩ := wp_of_ok hschema hexec
      have hstart : Traced (rootPath path) [] ⟨(Db.connect t₀).put t₀ log, [], 0⟩ :=
        { closed := rfl
          known := fun _ _ _ hlookup => by cases hlookup
          statements := fun e he => by
            rcases hadds e he with hold | hplain
            · cases hold
            · exact .inl hplain }
      have hwalk := runEvents_traced hsql (t.calls_below indexReader (rootPath path))
        (t.calls_pairwise indexReader (rootPath path)) win.lastError hstart
      simp only [hexec] at hresult
      -- the sweep follows wherever the walk is left without an exception
      have hswept : ∀ w, Traced (rootPath path) (callsOf (t.events indexReader (rootPath path))) w →
          cleanupEntries env.sql w.db = .ok () db → Noticed t (rootPath path) db := by
        intro w htraced hclean
        have hplain' : Executes (Stmt.Plain (rootPath path)) (cleanupEntries env.sql) :=
          executes_cleanupEntries
        have hsweep := (wp_cleanupEntries hsql htraced.closed).and (hplain' w.db)
        obtain ⟨⟨log', rfl⟩, hadds'⟩ := wp_of_ok hsweep hclean
        apply htraced.noticed hadds'
        simp [Db.committed, htraced.closed]
      cases hrun : runEvents indexReader (manipulator env (t.disk (rootPath path)))
          (t.events indexReader (rootPath path)) win.lastError ⟨(Db.connect t₀).put t₀ log, [], 0⟩ with
      | through lastError w =>
          rw [hrun] at hwalk
          simp only [Db.connect] at hresult hrun
          simp only [hrun] at hresult
          exact hswept w hwalk hresult.symm
      | returned w =>
          rw [hrun] at hwalk
          simp only [Db.connect] at hresult hrun
          simp only [hrun] at hresult
          exact hswept w hwalk hresult.symm
      | threw e w =>
          simp only [Db.connect] at hresult hrun
          simp only [hrun] at hresult
          cases hresult

/-- In a run whose own failing INSERTs have found stored what they would have written, no failure goes
unnoticed, whatever else could have failed. -/
theorem reindex_noticed {env : Env} {t : Tree} {path : WString} {win : Win32} {t₀ : Tables} {db : Db}
    (h : Reindexes env t path win (Db.connect t₀) (.ok () db))
    (hlog : (Db.connect t₀).content.LosesNothing env.sql.policy db.log) : Noticed t (rootPath path) db := by
  obtain ⟨log, hadded, -, hcareful⟩ := reindexed_careful (reindexes_iff.mp h).symm
  have hdblog : db.log = log := hadded
  rw [hdblog] at hlog
  have hresult : Reindexes env.careful t path win (Db.connect t₀) (.ok () db) :=
    reindexes_iff.mpr (hcareful hlog).symm
  exact hresult.noticed env.sql.careful_losesNothing

/-- The INSERT of the root is answered by SQLITE_BUSY, and so would be that of an entry `x`. -/
def busyRoot : Env where
  sql := {
    policy := .maxPlusOne
    fault := fun _ s =>
      match s with
      | .ins params => if params.name ∈ ([['r'], ['x']] : List WString) then some (.error 5) else none
      | _ => none }
  modifiedOnly := false
  shutdown := fun _ => false
  register := fun _ lastError => lastError

/-- The tables with the row of the root. -/
def rootTables : Tables :=
  (Tables.empty.updateEntry .maxPlusOne true ((Record.root ['r']).params 0) 0).sweep

/-- The INSERT of the root fails, and that of the directory and of the file do not. -/
theorem reindex_noticed_busyRoot :
    ∃ db, Reindexes busyRoot plainTree ['r'] ⟨[], 0⟩ (Db.connect rootTables) (.ok () db) ∧
      (Stmt.ins ((Record.root ['r']).params 0), ResultCode.error 5) ∈ db.log ∧
      Noticed plainTree (rootPath ['r']) db := by
  have heval : ((reindex busyRoot (plainTree.disk ['r']) 40 ['r'] ⟨[], 0⟩
      (Db.connect rootTables)).bind fun r => (resultOk r).map fun db =>
        decide ((Stmt.ins ((Record.root ['r']).params 0), ResultCode.error 5) ∈ db.log ∧
          (Db.connect rootTables).content.LosesNothing .maxPlusOne db.log)) = some true := by
    decide +kernel
  obtain ⟨r, hr, hok⟩ := Option.bind_eq_some_iff.mp heval
  cases r with
  | error e db => cases hok
  | ok _ db =>
      obtain ⟨hmem, hlog⟩ := of_decide_eq_true (Option.some.inj hok)
      exact ⟨db, ⟨40, hr⟩, hmem, reindex_noticed ⟨40, hr⟩ hlog⟩

/-- The INSERT of the directory `d` is answered by SQLITE_BUSY. -/
def busyDirectory : Env where
  sql := {
    policy := .maxPlusOne
    fault := fun _ s =>
      match s with
      | .ins params => if params.name = (['d'] : WString) then some (.error 5) else none
      | _ => none }
  modifiedOnly := true
  shutdown := fun _ => false
  register := fun _ lastError => lastError

/-- The run returns, and has written the file of the directory under the id 0. -/
theorem reindex_busyDirectory_unnoticed :
    busyDirectory.sql.InsertsFail ∧
      ∃ db, Reindexes busyDirectory plainTree ['r'] ⟨[], 0⟩ (Db.connect .empty) (.ok () db) ∧
        ¬Noticed plainTree (rootPath ['r']) db := by
  constructor
  · intro db s f hfault
    simp only [busyDirectory] at hfault
    split at hfault
    · split at hfault
      · obtain rfl := Option.some.inj hfault
        exact ⟨rfl, 5, rfl, by decide⟩
      · cases hfault
    · cases hfault
  · have heval : ((reindex busyDirectory (plainTree.disk ['r']) 40 ['r'] ⟨[], 0⟩
        (Db.connect .empty)).bind fun r => (resultOk r).map fun db =>
          decide ((Stmt.ins (entryParams 0 ['f'] false 1 4096), ResultCode.done) ∈ db.log)) =
        some true := by
      decide +kernel
    obtain ⟨r, hr, hok⟩ := Option.bind_eq_some_iff.mp heval
    cases r with
    | error e db => cases hok
    | ok _ db =>
        have hmem := of_decide_eq_true (Option.some.inj hok)
        refine ⟨db, ⟨40, hr⟩, fun hnoticed => ?_⟩
        refine hnoticed.inserted _ _ hmem rfl ⟨rfl, ?_⟩
        decide

end Spacenet
