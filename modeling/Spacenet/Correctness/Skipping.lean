-- SUMMARY: When a run that skips unmodified files leaves the columns of a run that skips none: the stored mtime has to come with a digest.
import Spacenet.Correctness.FirstRun
import Spacenet.Correctness.Recovery
import Spacenet.Effect.Content

/-!
# Skipping

A file is skipped when its time is the stored mtime. That mtime is of a complete
read of the file, but `st_upd` clears the digest and leaves the mtime, so that
the digest of that read may be gone.
-/

namespace Spacenet

/-! ## Content -/

/-- The same kind; files have the same size, and complete reads of them give the same content, in the same
pieces. -/
def Node.SameContent : Node → Node → Prop
  | .file info, .file info' => info.stat.fsize = info'.stat.fsize ∧
      ∀ reads reads', info.content = some reads → info'.content = some reads' →
        reads.failed = false → reads'.failed = false → reads.chunks = reads'.chunks
  | .dir _ _, .dir _ _ => True
  | _, _ => False

/-- The entry that the tree of the run has at the path. -/
def Run.Has (x : Run) (path : List WString) (node : Node) : Prop :=
  ∃ names, path = rootPath x.path :: names ∧ x.tree.node.descend names = some node

theorem Run.has_call {x : Run} {c : Call} (hc : c ∈ callsOf x.events) : x.Has c.path c.node :=
  x.tree.calls_descend indexReader (rootPath x.path) c hc

/-- A run that skips unmodified files and is not aborted. A failing statement throws, and no entry has
the time 0. -/
structure Run.Skips (x : Run) : Prop where
  throws : x.env.sql.Throws
  modifiedOnly : x.env.modifiedOnly = true
  shutdown : ∀ i, x.env.shutdown i = false
  nonzero : ∀ path node, x.Has path node → node.stat.fmtim ≠ 0

/-- Where an earlier run has an entry with the time of an entry of this run, it has the content. -/
def Run.ConsistentWith (xs : List Run) (x : Run) : Prop :=
  ∀ y ∈ xs, ∀ path node node', y.Has path node → x.Has path node' →
    node.stat.fmtim = node'.stat.fmtim → node.SameContent node'

/-- The record of a file whose reads are complete. -/
theorem Call.fileDigest_eq_some {c : Call} {digest : Blob} :
    c.record.fileDigest = some digest ↔ ∃ info reads, c.node = .file info ∧
      info.content = some reads ∧ reads.failed = false ∧ digest = reads.digest := by
  have hblockSize : c.record.blockSize = fileBlockSize := rfl
  rw [Record.fileDigest, Record.digest_eq_some, hblockSize]
  cases hnode : c.node with
  | file info =>
      obtain ⟨hfile, hreads⟩ := Call.record_file hnode
      rw [hreads]
      constructor
      · rintro ⟨-, reads, hcontent, hfailed, hdigest⟩
        exact ⟨info, reads, rfl, hcontent, hfailed, hdigest⟩
      · rintro ⟨info', reads, heq, hcontent, hfailed, hdigest⟩
        cases heq
        exact ⟨Record.hashed_all.mpr hfile, reads, hcontent, hfailed, hdigest⟩
  | dir info entries =>
      obtain ⟨hdir, hreads⟩ := Call.record_dir hnode
      constructor
      · rintro ⟨-, reads, hcontent, -⟩
        rw [hreads] at hcontent
        cases hcontent
      · rintro ⟨info', reads, heq, -⟩
        cases heq

/-! ## Stamped rows -/

/-- The mtime is that of a complete read; a digest is of the same record. -/
structure Record.Stamps (rec : Record) (r : EntryRow) : Prop where
  read : rec.fileDigest ≠ none
  mtime : r.mtime = some rec.fmtim
  columns : r.digest ≠ none → rec.Columns r

/-- Only `is_alive` differs. -/
def EntryRow.SameData (r r' : EntryRow) : Prop := ∃ isAlive, r' = { r with isAlive := isAlive }

theorem EntryRow.SameData.touch_revived (r : EntryRow) : r.SameData r.touch.revived := ⟨1, rfl⟩

theorem EntryRow.SameData.revived (r : EntryRow) : r.SameData r.revived := ⟨1, rfl⟩

theorem Record.Columns.frame {rec : Record} {r r' : EntryRow} (h : rec.Columns r)
    (hsame : r.SameData r') : rec.Columns r' := by
  obtain ⟨isAlive, rfl⟩ := hsame
  exact ⟨h.isDir, h.fileSize, h.digest⟩

theorem Record.Stamps.frame {rec : Record} {r r' : EntryRow} (h : rec.Stamps r)
    (hsame : r.SameData r') : rec.Stamps r' := by
  obtain ⟨isAlive, rfl⟩ := hsame
  refine ⟨h.read, h.mtime, fun hdigest => ?_⟩
  obtain ⟨hisDir, hfileSize, hdigest⟩ := h.columns hdigest
  exact ⟨hisDir, hfileSize, hdigest⟩

/-- Every row is found by its path. The row of a root is its record's, and an mtime is stamped by one
of the records `V`. -/
structure Tables.Stamped (V : Record → Prop) (t : Tables) : Prop where
  alive : ∀ r ∈ t.entries.rows, r.isAlive ≠ 0
  linked : ∀ r ∈ t.entries.rows, ∃ path, t.entries.rowAt path = some r
  root : ∀ root r, t.entries.rowAt [root] = some r → (Record.root root).Columns r
  stamped : ∀ path r, t.entries.rowAt path = some r → r.mtime ≠ none →
    ∃ rec, V rec ∧ rec.path = path ∧ rec.Stamps r

namespace Tables.Stamped

variable {V V' : Record → Prop} {t : Tables} {root : WString} {cs : List Call} {idx : Index}
  {policy : RowidPolicy}

theorem empty (V : Record → Prop) : Tables.empty.Stamped V where
  alive := fun _ hr => absurd hr List.not_mem_nil
  linked := fun _ hr => absurd hr List.not_mem_nil
  root := fun _ _ h => by cases h
  stamped := by
    intro path r h
    cases path using List.reverseRecOn with
    | nil => cases h
    | append_singleton parts name =>
        rw [Entries.rowAt_append] at h
        obtain ⟨id, -, hfind⟩ := Entries.rowIn_eq_some.mp h
        cases hfind

/-- The row of the root behind the sweep. -/
theorem root_swept {r : EntryRow} (h : t.Stamped V) {parentId rowid : Nat}
    (hrow : r = ((Record.root root).row true parentId rowid (t.entries.rowAt [root])).revived) :
    (Record.root root).Columns r ∧
      (r.mtime ≠ none → ∃ r₀, t.entries.rowAt [root] = some r₀ ∧ r₀.SameData r) := by
  subst hrow
  rcases Record.row_root root parentId rowid (t.entries.rowAt [root]) with
    ⟨r₀, hold, htouch⟩ | ⟨hold, hrewrites⟩
  · rw [htouch]
    exact ⟨(h.root root r₀ hold).frame (.touch_revived r₀), fun _ => ⟨r₀, hold, .touch_revived r₀⟩⟩
  · rw [hold]
    refine ⟨hrewrites.columns.frame (.revived _), fun hmtime => ?_⟩
    exact absurd hrewrites.mtime hmtime

/-- A row that only differs in `is_alive` is stamped by the same record. -/
theorem kept (h : t.Stamped V) {path : List WString} {r₀ r : EntryRow}
    (hr₀ : t.entries.rowAt path = some r₀) (hsame : r₀.SameData r) (hmtime : r.mtime ≠ none) :
    ∃ rec, V rec ∧ rec.path = path ∧ rec.Stamps r := by
  have hmtime₀ : r₀.mtime ≠ none := by
    obtain ⟨isAlive, rfl⟩ := hsame
    exact hmtime
  obtain ⟨rec, hrec, hpath, hstamps⟩ := h.stamped path r₀ hr₀ hmtime₀
  exact ⟨rec, hrec, hpath, hstamps.frame hsame⟩

/-- The mtime of a rewritten row is the record's, or it is left from the row before. -/
theorem rewritten (h : t.Stamped V) {rec : Record} {r r' : EntryRow}
    (hrewrites : rec.Rewrites (t.entries.rowAt rec.path) r) (hsame : r.SameData r')
    (hmtime : r'.mtime ≠ none) :
    ∃ rec', (V rec' ∨ rec' = rec) ∧ rec'.path = rec.path ∧ rec'.Stamps r' := by
  have hcolumns : rec.Columns r' := hrewrites.columns.frame hsame
  have hmtimeEq : r'.mtime = if rec.fileDigest.isSome then some rec.fmtim
      else (t.entries.rowAt rec.path).bind EntryRow.mtime := by
    obtain ⟨isAlive, rfl⟩ := hsame
    exact hrewrites.mtime
  cases hdigest : rec.fileDigest with
  | some digest =>
      rw [hdigest] at hmtimeEq
      exact ⟨rec, .inr rfl, rfl, by simp [hdigest], hmtimeEq, fun _ => hcolumns⟩
  | none =>
      -- there is no digest
      rw [hdigest] at hmtimeEq
      obtain ⟨m, hm⟩ := Option.ne_none_iff_exists'.mp hmtime
      obtain ⟨r₀, hr₀, hm₀⟩ := Option.bind_eq_some_iff.mp (hmtimeEq.symm.trans hm)
      obtain ⟨rec', hrec', hpath, hstamps⟩ := h.stamped rec.path r₀ hr₀ (by simp [hm₀])
      refine ⟨rec', .inl hrec', hpath, hstamps.read, ?_, fun hne => ?_⟩
      · rw [hm, ← hm₀]
        exact hstamps.mtime
      · rw [hcolumns.digest, hdigest] at hne
        exact absurd rfl hne

/-- The row of a visited entry behind the sweep. -/
theorem call_swept (h : t.Stamped V) {c : Call} (hfmtim : c.record.fmtim ≠ 0) {parentId rowid : Nat}
    {r : EntryRow}
    (hrow : r = (c.record.row true parentId rowid (t.entries.rowAt c.record.path)).revived)
    (hmtime : r.mtime ≠ none) :
    ∃ rec, (V rec ∨ rec = c.record) ∧ rec.path = c.record.path ∧ rec.Stamps r := by
  rcases Record.row_skipping hfmtim parentId rowid (t.entries.rowAt c.record.path) with
    ⟨r₀, hold, -, htouch⟩ | ⟨hrewrites, -⟩
  · have hsame : r₀.SameData r := by
      rw [hrow, htouch]
      exact .touch_revived r₀
    obtain ⟨rec, hrec, hstamps⟩ := h.kept hold hsame hmtime
    exact ⟨rec, .inl hrec, hstamps⟩
  · have hsame : (c.record.row true parentId rowid (t.entries.rowAt c.record.path)).SameData r := by
      rw [hrow]
      exact .revived _
    exact h.rewritten hrewrites hsame hmtime

/-- Every row behind the sweep is that of a record. -/
theorem row_of_swept (h : t.Stamped V) {recs : List Record} {t' : Tables} {modifiedOnly : Bool}
    (hrecorded : Recorded modifiedOnly recs t t') (hpre : Preorder recs) {r : EntryRow}
    (hr : r ∈ t'.sweep.entries.rows) :
    ∃ rec ∈ recs, t'.sweep.entries.rowAt rec.path = some r ∧ ∃ parentId rowid,
      r = (rec.row modifiedOnly parentId rowid (t.entries.rowAt rec.path)).revived := by
  obtain ⟨rec, hrec, hpath⟩ := hrecorded.row_of_sweep hpre h.alive hr
  obtain ⟨parentId, rowid, hswept⟩ := hrecorded.swept hpre h.linked hrec
  exact ⟨rec, hrec, hpath, parentId, rowid, Option.some.inj (hpath.symm.trans hswept)⟩

/-- The step lemma: a run that completes. -/
theorem swept (h : t.Stamped V) (hsound : idx.Sound policy true root (recordsOf root cs) t)
    (hnonzero : ∀ c ∈ cs, c.node.stat.fmtim ≠ 0) (hparts : ∀ c ∈ cs, c.parts ≠ [])
    (hV : ∀ rec, V rec → V' rec) (hcs : ∀ c ∈ cs, c.node.accessible = true → V' c.record) :
    idx.tables.sweep.Stamped V' := by
  have hrow : ∀ path r, idx.tables.sweep.entries.rowAt path = some r →
      ∃ rec ∈ recordsOf root cs, rec.path = path ∧ ∃ parentId rowid,
        r = (rec.row true parentId rowid (t.entries.rowAt rec.path)).revived := by
    intro path r hr
    obtain ⟨rec, hrec, hpath, heq⟩ := h.row_of_swept hsound.recorded hsound.preorder (Entries.rowAt_mem hr)
    exact ⟨rec, hrec, Entries.rowAt_injective hpath hr, heq⟩
  refine ⟨?_, ?_, ?_, ?_⟩
  · intro r hr
    obtain ⟨s, -, -, rfl⟩ := mem_sweep.mp hr
    exact one_ne_zero
  · intro r hr
    obtain ⟨rec, -, hpath, -⟩ := h.row_of_swept hsound.recorded hsound.preorder hr
    exact ⟨rec.path, hpath⟩
  · intro root' r hr
    obtain ⟨rec, hrec, hpath, parentId, rowid, heq⟩ := hrow [root'] r hr
    rcases mem_recordsOf hrec with rfl | ⟨c, hc, -, rfl⟩
    · obtain rfl : root = root' := List.singleton_injective hpath
      exact (h.root_swept heq).1
    · have hnil := List.append_eq_singleton_iff.mp hpath
      rcases hnil with ⟨hnil, -⟩ | ⟨-, hnil⟩
      · exact absurd hnil (hparts c hc)
      · cases hnil
  · intro path r hr hmtime
    obtain ⟨rec, hrec, rfl, parentId, rowid, heq⟩ := hrow path r hr
    rcases mem_recordsOf hrec with rfl | ⟨c, hc, hacc, rfl⟩
    · obtain ⟨r₀, hr₀, hsame⟩ := (h.root_swept heq).2 hmtime
      obtain ⟨rec, hrec, hstamps⟩ := h.kept hr₀ hsame hmtime
      exact ⟨rec, hV rec hrec, hstamps⟩
    · have hfmtim : c.record.fmtim ≠ 0 := by
        rw [Call.record_fmtim]
        exact hnonzero c hc
      obtain ⟨rec, hrec, hstamps⟩ := h.call_swept hfmtim heq hmtime
      refine ⟨rec, ?_, hstamps⟩
      rcases hrec with hrec | rfl
      · exact hV rec hrec
      · exact hcs c hc hacc

end Tables.Stamped

/-! ## Runs -/

theorem Run.mem_visits {x : Run} {c : Call} (hc : c ∈ x.visits) : c ∈ callsOf x.events := by
  rw [passedOf_isPrefix x.events, callsOf_append]
  exact List.mem_append_left _ hc

/-- A run that completes makes the records of its visits, and sweeps. -/
theorem Reindexes.sound {x : Run} {db db' : Db} (hsql : x.env.sql.Throws)
    (hrun : ∀ i, x.env.shutdown i = false) (hdb : db.snapshot = none)
    (h : Reindexes x.env x.tree x.path x.win db (.ok () db')) :
    ∃ idx : Index, idx.Sound x.env.sql.policy x.env.modifiedOnly (rootPath x.path)
      (recordsOf (rootPath x.path) x.visits) db.tables ∧ db'.committed = idx.tables.sweep := by
  obtain ⟨idx, hvisited, htables⟩ := (h.outcome hsql hdb).visited hrun
  exact ⟨idx, hvisited.sound (passedOf_isPrefix x.events), htables⟩

/-- A record of one of the runs, which skip unmodified files. -/
def RecordedBy (xs : List Run) (rec : Record) : Prop := ∃ y ∈ xs, y.Skips ∧ y.Records rec

/-- A run of a history: it skips unmodified files, and completes. -/
def Run.Completes (x : Run) (r : EStateM.Result Error Db Unit) : Prop :=
  x.Skips ∧ ∃ db, r = .ok () db

/-- The run lemma: a history of runs that complete. -/
theorem History.stamped {xs : List Run} {t : Tables} (h : History Run.Completes xs t) :
    t.Stamped (RecordedBy xs) := by
  refine h.invariant (I := fun xs t => t.Stamped (RecordedBy xs)) (Tables.Stamped.empty _) ?_
  rintro xs x db r hstamped hdb hresult ⟨hskips, db', rfl⟩
  obtain ⟨idx, hsound, htables⟩ := hresult.sound hskips.throws hskips.shutdown hdb
  rw [hskips.modifiedOnly] at hsound
  have hswept : db'.committed.Stamped (RecordedBy (xs ++ [x])) := by
    rw [htables]
    refine hstamped.swept hsound ?_ ?_ ?_ ?_
    · intro c hc
      exact hskips.nonzero c.path c.node (x.has_call (Run.mem_visits hc))
    · intro c hc
      exact (x.tree.calls_below indexReader (rootPath x.path) c (Run.mem_visits hc)).parts_ne_nil
    · rintro rec ⟨y, hy, hrec⟩
      exact ⟨y, List.mem_append_left _ hy, hrec⟩
    · intro c hc hacc
      exact ⟨x, List.mem_append_right _ List.mem_cons_self, hskips, c, Run.mem_visits hc, hacc, rfl⟩
  exact hswept

/-- A row whose mtime is the time of a visited entry is stamped by the record of the entry. -/
theorem Run.ConsistentWith.stamps {xs : List Run} {x : Run} (h : x.ConsistentWith xs)
    (hreads : ∀ path info, x.Has path (.file info) → info.Reads) {c : Call}
    (hc : c ∈ x.visits) {rec : Record} (hrec : RecordedBy xs rec) (hpath : rec.path = c.path)
    {r : EntryRow} (hstamps : rec.Stamps r) (hmtime : r.mtime = some c.node.stat.fmtim) :
    c.record.Stamps r := by
  obtain ⟨y, hy, -, c₀, hc₀, -, rfl⟩ := hrec
  have hhas₀ : y.Has c₀.path c₀.node := y.has_call hc₀
  have hhas : x.Has c.path c.node := x.has_call (Run.mem_visits hc)
  have hfmtim : c₀.node.stat.fmtim = c.node.stat.fmtim := by
    rw [← Call.record_fmtim]
    exact Option.some.inj (hstamps.mtime.symm.trans hmtime)
  have hsame : c₀.node.SameContent c.node := by
    refine h y hy c.path c₀.node c.node ?_ hhas hfmtim
    exact hpath ▸ hhas₀
  obtain ⟨digest, hdigest₀⟩ := Option.ne_none_iff_exists'.mp hstamps.read
  obtain ⟨info₀, reads₀, hnode₀, hcontent₀, hfailed₀, rfl⟩ := Call.fileDigest_eq_some.mp hdigest₀
  cases hnode : c.node with
  | dir info entries =>
      rw [hnode₀, hnode] at hsame
      exact hsame.elim
  | file info =>
      rw [hnode₀, hnode] at hsame
      obtain ⟨hfsize, hchunks⟩ := hsame
      rw [hnode] at hhas
      obtain ⟨reads, hcontent, hfailed⟩ := hreads c.path info hhas
      have hdigest : c.record.fileDigest = some reads₀.digest := by
        refine Call.fileDigest_eq_some.mpr ⟨info, reads, hnode, hcontent, hfailed, ?_⟩
        rw [FileReads.digest, FileReads.digest, hchunks reads₀ reads hcontent₀ hcontent hfailed₀ hfailed]
      refine ⟨by simp [hdigest], ?_, fun hne => ?_⟩
      · rw [Call.record_fmtim]
        exact hmtime
      · obtain ⟨hisDir, hfileSize, hdigest'⟩ := hstamps.columns hne
        refine ⟨?_, ?_, ?_⟩
        · rw [hisDir, (Call.record_file hnode₀).1, (Call.record_file hnode).1]
        · have hfsize' : c₀.record.fsize = c.record.fsize := by
            rw [Call.record_fsize, Call.record_fsize, hnode₀, hnode]
            exact hfsize
          rw [hfileSize, hfsize']
        · rw [hdigest', hdigest₀, hdigest]

/-! ## The comparison -/

/-- The same run when nothing is skipped. -/
def Run.all (x : Run) : Run := { x with env := { x.env with modifiedOnly := false } }

/-- Each row has the columns of the row that the other table has at its path. -/
def Entries.Agrees (entries entries' : Entries) : Prop :=
  ∀ r ∈ entries.rows, ∃ path r', entries.rowAt path = some r ∧ entries'.rowAt path = some r' ∧
    r.isDir = r'.isDir ∧ r.fileSize = r'.fileSize ∧ r.digest = r'.digest

/-- The row of a visited entry has a digest when its mtime is the time of the entry. -/
def Run.SkipsDigests (x : Run) (entries : Entries) : Prop :=
  ∀ c ∈ x.visits, c.node.accessible = true → ∀ r, entries.rowAt c.path = some r →
    r.mtime = some c.node.stat.fmtim → r.digest ≠ none

/-- A record leaves its columns when the row that it skips has them. -/
theorem Record.columns_revived {rec : Record} (hfmtim : rec.fmtim ≠ 0) {parentId rowid : Nat}
    {old : Option EntryRow}
    (hskipped : ∀ r₀, old = some r₀ → r₀.mtime = some rec.fmtim → rec.Columns r₀) :
    rec.Columns (rec.row true parentId rowid old).revived := by
  rcases Record.row_skipping hfmtim parentId rowid old with
    ⟨r₀, hold, hmtime, htouch⟩ | ⟨hrewrites, -⟩
  · rw [htouch]
    exact (hskipped r₀ hold hmtime).frame (.touch_revived r₀)
  · exact hrewrites.columns.frame (.revived _)

theorem Node.sameContent_self (node : Node) : node.SameContent node := by
  cases node with
  | file info =>
      refine ⟨rfl, fun reads reads' hreads hreads' _ _ => ?_⟩
      obtain rfl := Option.some.inj (hreads.symm.trans hreads')
      rfl
  | dir info entries => trivial

theorem DirInfo.plain_fmtim (entries : Forest) : (Node.dir .plain entries).stat.fmtim ≠ 0 := by
  have hfmtim : DirInfo.plain.stat.fmtim ≠ 0 := by decide
  exact hfmtim

/-- The entries of the plain tree. -/
theorem plainTree_nodes {names : List WString} {node : Node}
    (h : plainTree.node.descend names = some node) :
    (∃ entries, node = .dir .plain entries) ∨ node = .file (.plain ⟨0, 1⟩ [7]) := by
  cases names with
  | nil => exact .inl ⟨_, (Option.some.inj h).symm⟩
  | cons name names =>
      simp only [plainTree, Tree.node, Node.descend, Forest.find] at h
      split at h
      · cases names with
        | nil => exact .inl ⟨_, (Option.some.inj h).symm⟩
        | cons name' names =>
            simp only [Option.bind_some, Node.descend, Forest.find] at h
            split at h
            · cases names with
              | nil => exact .inr (Option.some.inj h).symm
              | cons _ _ => cases h
            · cases h
      · cases h

theorem plainRun_skips : (plainRun true).Skips where
  throws := (Sqlite.working_noFault _).throws
  modifiedOnly := rfl
  shutdown := fun _ => rfl
  nonzero := by
    rintro path node ⟨names, -, hdescend⟩
    rcases plainTree_nodes hdescend with ⟨entries, rfl⟩ | rfl
    · exact DirInfo.plain_fmtim entries
    · decide

/-- A run over a directory that holds the file. -/
def oneFileRun (info : FileInfo) : Run where
  env := .plain true
  tree := ⟨.plain, .file ['f'] info .nil, by decide, List.not_mem_nil, trivial⟩
  path := ['r']
  win := ⟨[], 0⟩

/-- A file, and the same file when it has been replaced by one that does not open. -/
def readFile : FileInfo := .plain ⟨0, 1⟩ [7]

def lockedFile : FileInfo := { FileInfo.plain ⟨0, 2⟩ [8] with content := none }

theorem oneFileRun_has {info : FileInfo} {path : List WString} {node : Node}
    (h : (oneFileRun info).Has path node) :
    path = [(['r'] : WString)] ∧ (∃ entries, node = .dir .plain entries) ∨
      path = [(['r'] : WString), ['f']] ∧ node = .file info := by
  obtain ⟨names, rfl, hdescend⟩ := h
  cases names with
  | nil => exact .inl ⟨rfl, _, (Option.some.inj hdescend).symm⟩
  | cons name names =>
      simp only [oneFileRun, Tree.node, Node.descend, Forest.find] at hdescend
      split at hdescend
      · next heq =>
          subst heq
          cases names with
          | nil => exact .inr ⟨rfl, (Option.some.inj hdescend).symm⟩
          | cons _ _ => cases hdescend
      · cases hdescend

theorem oneFileRun_skips {info : FileInfo} (hfmtim : info.stat.fmtim ≠ 0) : (oneFileRun info).Skips where
  throws := (Sqlite.working_noFault _).throws
  modifiedOnly := rfl
  shutdown := fun _ => rfl
  nonzero := by
    intro path node hhas
    rcases oneFileRun_has hhas with ⟨-, entries, rfl⟩ | ⟨-, rfl⟩
    · exact DirInfo.plain_fmtim entries
    · exact hfmtim

theorem oneFileRun_consistentWith {infos : List FileInfo} {info : FileInfo}
    (h : ∀ info' ∈ infos, info'.stat.fmtim = info.stat.fmtim → info' = info) :
    (oneFileRun info).ConsistentWith (infos.map oneFileRun) := by
  intro y hy path node node' hhas hhas' hfmtim
  obtain ⟨info', hmem, rfl⟩ := List.mem_map.mp hy
  rcases oneFileRun_has hhas with ⟨rfl, entries, rfl⟩ | ⟨rfl, rfl⟩
  · rcases oneFileRun_has hhas' with ⟨-, entries', rfl⟩ | ⟨heq, -⟩
    · trivial
    · cases heq
  · rcases oneFileRun_has hhas' with ⟨heq, -⟩ | ⟨-, rfl⟩
    · cases heq
    · rw [h info' hmem hfmtim]
      exact Node.sameContent_self _

theorem readFile_skips : (oneFileRun readFile).Skips := oneFileRun_skips (by decide)

theorem lockedFile_skips : (oneFileRun lockedFile).Skips := oneFileRun_skips (by decide)

end Spacenet
