-- SUMMARY: Reindexing an unchanged tree leaves the rows of both tables as they are; only the rowids of block rows can change.
import Spacenet.Effect.Again
import Spacenet.Correctness.Integrity
import Spacenet.Sqlite.Numbering

/-!
# Unchanged trees

The second run makes the records of the first. It leaves the rows of `entries`
with their rowids, and the rows of `blocks_digests`. A file that is hashed again
has its blocks deleted behind the first one and inserted again, and SQLite gives
them other rowids.
-/

namespace Spacenet

/-- The same rows in both tables. -/
structure Tables.SameRows (t t' : Tables) : Prop where
  entries : ∀ r, r ∈ t'.entries.rows ↔ r ∈ t.entries.rows
  blocks : ∀ b, b ∈ t'.blocksDigests.rows ↔ b ∈ t.blocksDigests.rows

theorem Entries.mem_iff_of_find {t t' : Entries}
    (h : ∀ parentId name, t'.find parentId name = t.find parentId name) (r : EntryRow) :
    r ∈ t'.rows ↔ r ∈ t.rows := by
  have hself : ∀ t : Entries, r ∈ t.rows ↔ t.find r.parentId r.name = some r := by
    intro t
    rw [find_eq_some]
    exact ⟨fun hr => ⟨hr, rfl, rfl⟩, fun hr => hr.1⟩
  rw [hself, hself, h]

/-- A run without a fault and without a shutdown makes the records of its tree. -/
theorem Reindexes.recorded {env : Env} {t : Tree} {path : WString} {win : Win32} {db db' : Db}
    (hsql : env.sql.NoFault) (hrun : ∀ i, env.shutdown i = false) (hdb : db.snapshot = none)
    (hresult : Reindexes env t path win db (.ok () db')) :
    ∃ t', db'.committed = Tables.sweep t' ∧ Recorded env.modifiedOnly
      (recordsOf (rootPath path) (callsOf (passedOf (t.events indexReader (rootPath path))))) db.tables t' ∧
      Preorder (recordsOf (rootPath path) (callsOf (passedOf (t.events indexReader (rootPath path))))) := by
  obtain ⟨idx, hvisited, hcommitted⟩ := (Reindexes.outcome (x := ⟨env, t, path, win⟩) hresult
    hsql.throws hdb).visited hrun
  have hsound := hvisited.sound (passedOf_isPrefix _)
  exact ⟨idx.tables, hcommitted, hsound.recorded, hsound.preorder⟩

/-- The second of two runs over the same tree leaves the rows of both tables. -/
theorem reindex_again {env env' : Env} {t : Tree} {path : WString} {win win' : Win32} {db db₁ db' db₂ : Db}
    (hsql : env.sql.NoFault) (hsql' : env'.sql.NoFault) (hmode : env'.modifiedOnly = env.modifiedOnly)
    (hrun : ∀ i, env.shutdown i = false) (hrun' : ∀ i, env'.shutdown i = false)
    (hdb : db.snapshot = none) (halive : ∀ r ∈ db.tables.entries.rows, r.isAlive = 1)
    (hresult : Reindexes env t path win db (.ok () db₁)) (hdb' : db'.snapshot = none)
    (htables : db'.tables = db₁.committed) (hresult' : Reindexes env' t path win' db' (.ok () db₂)) :
    db₁.committed.SameRows db₂.committed := by
  obtain ⟨t₁, hswept₁, hfirst, hpre⟩ := hresult.recorded hsql hrun hdb
  obtain ⟨t₂, hswept₂, hsecond, -⟩ := hresult'.recorded hsql' hrun' hdb'
  rw [hmode, htables, hswept₁] at hsecond
  have hunmarked : ∀ r ∈ db.tables.entries.rows, r.isAlive ≠ 0 := by
    intro r hr
    rw [halive r hr]
    exact Int.one_ne_zero
  rw [hswept₁, hswept₂]
  exact {
    entries := Entries.mem_iff_of_find (hfirst.find_again hpre hunmarked hsecond)
    blocks := hfirst.blocks_again hpre hunmarked hsecond }

/-- Both runs over the plain tree. -/
theorem reindex_again_plainTree : ∃ db₁ db₂ : Db,
    Reindexes (.plain false) plainTree ['r'] ⟨[], 0⟩ (Db.connect .empty) (.ok () db₁) ∧
    Reindexes (.plain false) plainTree ['r'] ⟨[], 0⟩ (Db.connect db₁.committed) (.ok () db₂) ∧
    db₁.committed.SameRows db₂.committed := by
  have hsql : (Env.plain false).sql.NoFault := Sqlite.working_noFault _
  obtain ⟨db₁, hfirst⟩ := plainTree_returns false .empty
  obtain ⟨db₂, hsecond⟩ := plainTree_returns false db₁.committed
  have hempty : ∀ r ∈ (Db.connect .empty).tables.entries.rows, r.isAlive = 1 :=
    fun _ hr => absurd hr List.not_mem_nil
  exact ⟨db₁, db₂, hfirst, hsecond, reindex_again hsql hsql rfl (fun _ => rfl) (fun _ => rfl) rfl hempty
    hfirst rfl rfl hsecond⟩

/-! ## The rowids of the blocks -/

/-- A file of two blocks. -/
def FileInfo.twoBlocks (first second : U8) : FileInfo where
  stat := .plain ⟨0, 1⟩ 8192
  accessible := true
  content := some {
    chunks := [List.replicate fileBlockSize first, List.replicate fileBlockSize second]
    failed := false
    nonempty := by
      intro chunk hchunk
      rcases List.mem_cons.mp hchunk with rfl | hchunk
      · exact List.cons_ne_nil _ _
      · rw [List.mem_singleton.mp hchunk]
        exact List.cons_ne_nil _ _ }

/-- A directory with two such files. -/
def twoFilesTree : Tree where
  info := .plain
  entries := .file ['a'] (.twoBlocks 1 2) (.file ['b'] (.twoBlocks 3 4) .nil)
  wf := by decide

/-- The rowids of the blocks, with the keys of the rows. -/
def Numbered.blockRowids (n : Numbered) : List (Nat × Nat × Int) :=
  n.blocks.map fun b => (b.rowid, b.row.key)

/-- Behind the log of a run that returns, the numbered tables are the tables on disk. -/
theorem Reindexes.numbered {x : Run} {db db' : Db} {n n' : Numbered} (hx : x.Throws)
    (hcoherent : db.tables.Coherent) (hdb : db.snapshot = none) (hlog : db.log = [])
    (hresult : Reindexes x.env x.tree x.path x.win db (.ok () db')) (hn : n.tables = db.tables)
    (hafter : n.afterLog x.env.sql.policy db'.log = some n') : n'.tables = db'.committed := by
  obtain ⟨log, hnew, -, hcommitted⟩ := hresult.stops hx hcoherent hdb
  obtain rfl : db'.log = log := by
    have hresultLog : db'.log = db.log ++ log := hnew
    rw [hresultLog, hlog, List.nil_append]
  have hstart : db.content = (n.tables, none) := by
    rw [Db.content, hdb, hn]
  rw [hstart, Numbered.content_of_afterLog hafter] at hcommitted
  exact hcommitted

/-- The run over the two files. -/
def twoFilesRun : Run where
  env := .plain false
  tree := twoFilesTree
  path := ['r']
  win := ⟨[], 0⟩

/-- The second run gives the second block of each file another rowid. -/
theorem reindex_twoFilesRun_renumbers : ∃ (db₁ db₂ : Db) (n₁ n₂ : Numbered),
    Reindexes twoFilesRun.env twoFilesRun.tree twoFilesRun.path twoFilesRun.win (Db.connect .empty)
      (.ok () db₁) ∧
    Reindexes twoFilesRun.env twoFilesRun.tree twoFilesRun.path twoFilesRun.win
      (Db.connect db₁.committed) (.ok () db₂) ∧
    Numbered.empty.afterLog .maxPlusOne db₁.log = some n₁ ∧ n₁.tables = db₁.committed ∧
    n₁.afterLog .maxPlusOne db₂.log = some n₂ ∧ n₂.tables = db₂.committed ∧
    n₁.blockRowids = [(1, 2, 1), (2, 2, 2), (3, 3, 1), (4, 3, 2)] ∧
    n₂.blockRowids = [(1, 2, 1), (3, 3, 1), (5, 2, 2), (6, 3, 2)] := by
  have heval : (reindex (.plain false) (twoFilesTree.disk ['r']) 20 ['r'] ⟨[], 0⟩ (Db.connect .empty)).bind
      (fun r₁ => (resultOk r₁).bind fun db₁ =>
        (reindex (.plain false) (twoFilesTree.disk ['r']) 20 ['r'] ⟨[], 0⟩
          (Db.connect db₁.committed)).bind fun r₂ => (resultOk r₂).bind fun db₂ =>
        (Numbered.empty.afterLog .maxPlusOne db₁.log).bind fun n₁ =>
        (n₁.afterLog .maxPlusOne db₂.log).map fun n₂ => (n₁.blockRowids, n₂.blockRowids)) =
      some ([(1, 2, 1), (2, 2, 2), (3, 3, 1), (4, 3, 2)],
        [(1, 2, 1), (3, 3, 1), (5, 2, 2), (6, 3, 2)]) := by
    decide +kernel
  obtain ⟨r₁, hfirst, hr₁⟩ := Option.bind_eq_some_iff.mp heval
  obtain ⟨db₁, hdb₁, hrun₁⟩ := Option.bind_eq_some_iff.mp hr₁
  obtain rfl := resultOk_eq_some hdb₁
  obtain ⟨r₂, hsecond, hr₂⟩ := Option.bind_eq_some_iff.mp hrun₁
  obtain ⟨db₂, hdb₂, hrun₂⟩ := Option.bind_eq_some_iff.mp hr₂
  obtain rfl := resultOk_eq_some hdb₂
  obtain ⟨n₁, hafter₁, hn₁⟩ := Option.bind_eq_some_iff.mp hrun₂
  obtain ⟨n₂, hafter₂, hrowids⟩ := Option.map_eq_some_iff.mp hn₁
  obtain ⟨hrowids₁, hrowids₂⟩ := Prod.mk.inj hrowids
  have hthrows : twoFilesRun.Throws := ⟨(Sqlite.working_noFault _).throws, rfl⟩
  have hhistory : History (fun x _ => x.Throws) [twoFilesRun] db₁.committed :=
    .run twoFilesRun .start rfl ⟨20, hfirst⟩ hthrows
  have htables₁ : n₁.tables = db₁.committed :=
    Reindexes.numbered hthrows .empty rfl rfl ⟨20, hfirst⟩ rfl hafter₁
  have htables₂ : n₂.tables = db₂.committed :=
    Reindexes.numbered hthrows hhistory.coherent rfl rfl ⟨20, hsecond⟩ htables₁ hafter₂
  exact ⟨db₁, db₂, n₁, n₂, ⟨20, hfirst⟩, ⟨20, hsecond⟩, hafter₁, htables₁, hafter₂, htables₂, hrowids₁,
    hrowids₂⟩

end Spacenet
