-- SUMMARY: Which rows an interrupted run deletes: the sweep runs behind an abort that `read` returns from, and takes the entries not reached for deleted.
import Spacenet.Effect.Interrupted
import Spacenet.Effect.Rooted

/-!
# Interruption

Behind an abort the walk has visited a part of the tree. When `read` returns, the
sweep deletes the rows of all entries that the walk has not come to. Block rows
are also deleted where a file that was hashed has become shorter.
-/

namespace Spacenet

open UniqueKey

/-! ## Block rows -/

/-- `update_blocks` keeps the block rows of the entry up to the number of blocks read. -/
theorem Blocks.kept_updateBlocks_iff {t : Blocks} {entryId blockSize : Nat} {chunks : List Blob}
    {b : BlockRow} (hb : b ∈ t.rows) (hid : b.entryId = entryId) :
    (∃ b' ∈ (t.updateBlocks entryId blockSize chunks 1).rows, b'.key = b.key) ↔
      (chunks ≠ [] → b.blockNo ≤ chunks.length) := by
  by_cases hchunks : chunks = []
  · subst hchunks
    constructor
    · intro _ hne
      exact absurd rfl hne
    · intro _
      exact ⟨b, hb, rfl⟩
  · constructor
    · rintro ⟨b', hb', hkey⟩ -
      obtain ⟨hid', hno⟩ := Prod.mk.inj hkey
      rw [← hno]
      rcases (mem_updateBlocks hchunks).mp hb' with ⟨-, hbelow⟩ | ⟨i, chunk, hi, rfl⟩
      · have := hbelow (hid'.trans hid)
        omega
      · obtain ⟨hlt, -⟩ := List.getElem?_eq_some_iff.mp hi
        simp only
        omega
    · intro hle
      have hno := hle hchunks
      by_cases hbelow : b.blockNo < 1
      · exact ⟨b, (mem_updateBlocks hchunks).mpr (.inl ⟨hb, fun _ => hbelow⟩), rfl⟩
      · -- the block of that number is written
        obtain ⟨i, hi⟩ : ∃ i : Nat, b.blockNo = (1 + i : Nat) := ⟨(b.blockNo - 1).toNat, by omega⟩
        have hlt : i < chunks.length := by omega
        refine ⟨_, (mem_updateBlocks hchunks).mpr (.inr ⟨i, chunks[i], by simp [hlt], rfl⟩), ?_⟩
        simp only [BlockRow.key, hid, hi]

/-! ## Rows of accessible paths -/

/-- The row of a path of the tree that is accessible. -/
def Tree.AccessibleRow (t : Tree) (root : WString) (entries : Entries) (path : List WString) (r : EntryRow) :
    Prop :=
  ∃ names node, path = root :: names ∧ t.node.descend names = some node ∧ node.accessible = true ∧
    entries.rowAt path = some r

/-- No row and no block row of an accessible path has been deleted. -/
structure Tables.Keeps (t : Tree) (root : WString) (t₀ t₁ : Tables) : Prop where
  entries : ∀ path r, t.AccessibleRow root t₀.entries path r →
    ∃ r' ∈ t₁.entries.rows, r'.rowid = r.rowid
  blocks : ∀ path r, t.AccessibleRow root t₀.entries path r →
    ∀ b ∈ t₀.blocksDigests.rows, b.entryId = r.rowid → ∃ b' ∈ t₁.blocksDigests.rows, b'.key = b.key

/-- The records reach every accessible path that has a row. -/
def Tree.Reached (t : Tree) (root : WString) (recs : List Record) (entries : Entries) : Prop :=
  ∀ path r, t.AccessibleRow root entries path r → ∃ rec ∈ recs, rec.path = path

/-- Where blocks of a file are read, there are as many as its entry has block rows. -/
def Tables.NotShorter (modifiedOnly : Bool) (recs : List Record) (t₀ : Tables) : Prop :=
  ∀ rec ∈ recs, ∀ r, t₀.entries.rowAt rec.path = some r →
    ∀ b ∈ t₀.blocksDigests.rows, b.entryId = r.rowid →
      rec.chunks modifiedOnly (r.mtime.getD 0) ≠ [] →
        b.blockNo ≤ (rec.chunks modifiedOnly (r.mtime.getD 0)).length

namespace Recorded

variable {modifiedOnly : Bool} {recs : List Record} {t₀ t : Tables} {path : List WString} {r : EntryRow}

/-- The path of a row is that of the record whose row has its rowid. -/
theorem path_of_rowid (h : Recorded modifiedOnly recs t₀ t) (hr : t₀.entries.rowAt path = some r)
    {rec : Record} {s : EntryRow} (hs : t.entries.rowAt rec.path = some s) (hid : s.rowid = r.rowid) :
    rec.path = path := by
  have hid₀ := h.entries_extends.idAt (Entries.idAt_of_rowAt hr)
  have hid' := Entries.idAt_of_rowAt hs
  rw [hid] at hid'
  exact Entries.idAt_injective hid' hid₀

/-- A row stays, also where its path is not recorded. -/
theorem row_kept (h : Recorded modifiedOnly recs t₀ t) (hr : t₀.entries.rowAt path = some r) :
    ∃ s ∈ t.entries.rows, s.rowid = r.rowid := by
  obtain ⟨s, hs, hid⟩ := h.entries_extends _ _ r (Entries.find_self (Entries.rowAt_mem hr))
  exact ⟨s, (Entries.find_eq_some.mp hs).1, hid⟩

/-- Without marks at the beginning, the sweep keeps the row of a path if and only if it is recorded. -/
theorem row_kept_sweep_iff (h : Recorded modifiedOnly recs t₀ t)
    (halive : ∀ r ∈ t₀.entries.rows, r.isAlive ≠ 0) (hr : t₀.entries.rowAt path = some r) :
    (∃ r' ∈ t.sweep.entries.rows, r'.rowid = r.rowid) ↔ ∃ rec ∈ recs, rec.path = path := by
  constructor
  · rintro ⟨r', hr', hid⟩
    obtain ⟨s, hs, hmarked, rfl⟩ := Tables.mem_sweep.mp hr'
    rcases h.row_cases hs with ⟨rec, hrec, hrow⟩ | hold
    · exact ⟨rec, hrec, h.path_of_rowid hr hrow hid⟩
    · exact absurd hmarked (halive s hold)
  · rintro ⟨rec, hrec, rfl⟩
    obtain ⟨s, hs, hmarked⟩ := h.rowAt_marked hrec
    have hid₀ := h.entries_extends.idAt (Entries.idAt_of_rowAt hr)
    refine ⟨s.revived, Tables.mem_sweep.mpr ⟨s, Entries.rowAt_mem hs, hmarked, rfl⟩, ?_⟩
    exact Option.some.inj ((Entries.idAt_of_rowAt hs).symm.trans hid₀)

/-- A block row stays where its path is not recorded. -/
theorem block_kept_of_not (h : Recorded modifiedOnly recs t₀ t) (hr : t₀.entries.rowAt path = some r)
    (hnot : ∀ rec ∈ recs, rec.path ≠ path) {b : BlockRow} (hb : b.entryId = r.rowid) :
    b ∈ t.blocksDigests.rows ↔ b ∈ t₀.blocksDigests.rows := by
  refine h.blocksOthers b (fun rec hrec s hs hid => ?_)
  exact hnot rec hrec (h.path_of_rowid hr hs (hid.symm.trans hb))

/-- A block row of a recorded path stays if and only if the file is not shorter. -/
theorem block_kept_iff (h : Recorded modifiedOnly recs t₀ t) {rec : Record} (hrec : rec ∈ recs)
    (hr : t₀.entries.rowAt rec.path = some r) {b : BlockRow} (hmem : b ∈ t₀.blocksDigests.rows)
    (hb : b.entryId = r.rowid) :
    (∃ b' ∈ t.blocksDigests.rows, b'.key = b.key) ↔
      (rec.chunks modifiedOnly (r.mtime.getD 0) ≠ [] →
        b.blockNo ≤ (rec.chunks modifiedOnly (r.mtime.getD 0)).length) := by
  obtain ⟨parentId, rowid, hid, hfind⟩ := h.recorded rec hrec
  have hold : t₀.entries.find parentId rec.name = some r := by
    rw [Record.path, Entries.rowAt_append] at hr
    obtain ⟨id, hid', hfind'⟩ := Entries.rowIn_eq_some.mp hr
    obtain rfl : id = parentId := Option.some.inj ((h.entries_extends.idAt hid').symm.trans hid)
    exact hfind'
  have hblocks := h.blocksRecorded rec hrec parentId _ hid hfind
  rw [hold, Record.row_rowid_some] at hblocks
  rw [← Blocks.kept_updateBlocks_iff hmem hb]
  constructor
  · rintro ⟨b', hb', hkey⟩
    exact ⟨b', (hblocks b' ((Prod.mk.inj hkey).1.trans hb)).mp hb', hkey⟩
  · rintro ⟨b', hb', hkey⟩
    exact ⟨b', (hblocks b' ((Prod.mk.inj hkey).1.trans hb)).mpr hb', hkey⟩

/-- What the records of the walk keep. -/
theorem keeps_iff {tree : Tree} {root : WString} (h : Recorded modifiedOnly recs t₀ t)
    (hfiles : ∀ rec ∈ recs, rec.isDir = false → ∀ r, t₀.entries.rowAt rec.path = some r →
      tree.AccessibleRow root t₀.entries rec.path r) :
    Tables.Keeps tree root t₀ t ↔ t₀.NotShorter modifiedOnly recs := by
  constructor
  · intro hkeeps rec hrec r hr b hb hid
    refine (h.block_kept_iff hrec hr hb hid).mp ?_
    by_cases hdir : rec.isDir = false
    · exact hkeeps.blocks rec.path r (hfiles rec hrec hdir r hr) b hb hid
    · have hchunks : rec.chunks modifiedOnly (r.mtime.getD 0) = [] := if_neg fun hh => hdir hh.1
      exact (h.block_kept_iff hrec hr hb hid).mpr fun hne => absurd hchunks hne
  · intro hlonger
    refine ⟨?_, ?_⟩
    · rintro path r ⟨names, node, -, -, -, hr⟩
      exact h.row_kept hr
    · rintro path r ⟨names, node, -, -, -, hr⟩ b hb hid
      by_cases hrec : ∃ rec ∈ recs, rec.path = path
      · obtain ⟨rec, hrec, rfl⟩ := hrec
        exact (h.block_kept_iff hrec hr hb hid).mpr (hlonger rec hrec r hr b hb hid)
      · push Not at hrec
        exact ⟨b, (h.block_kept_of_not hr hrec hid).mpr hb, rfl⟩

/-- What the sweep keeps behind the records of the walk. -/
theorem keeps_sweep_iff {tree : Tree} {root : WString} (h : Recorded modifiedOnly recs t₀ t)
    (halive : ∀ r ∈ t₀.entries.rows, r.isAlive ≠ 0) :
    Tables.Keeps tree root t₀ t.sweep ↔
      Tables.Keeps tree root t₀ t ∧ tree.Reached root recs t₀.entries := by
  constructor
  · intro hkeeps
    refine ⟨⟨?_, ?_⟩, ?_⟩
    · rintro path r ⟨names, node, -, -, -, hr⟩
      exact h.row_kept hr
    · intro path r hrow b hb hid
      obtain ⟨b', hb', hkey⟩ := hkeeps.blocks path r hrow b hb hid
      exact ⟨b', (Blocks.mem_deleteEntries.mp hb').1, hkey⟩
    · intro path r hrow
      obtain ⟨names, node, -, -, -, hr⟩ := id hrow
      exact (h.row_kept_sweep_iff halive hr).mp (hkeeps.entries path r hrow)
  · rintro ⟨hkeeps, hreached⟩
    refine ⟨?_, ?_⟩
    · intro path r hrow
      obtain ⟨names, node, -, -, -, hr⟩ := id hrow
      exact (h.row_kept_sweep_iff halive hr).mpr (hreached path r hrow)
    · intro path r hrow b hb hid
      obtain ⟨names, node, -, -, -, hr⟩ := id hrow
      obtain ⟨b', hb', hkey⟩ := hkeeps.blocks path r hrow b hb hid
      obtain ⟨rec, hrec, rfl⟩ := hreached path r hrow
      obtain ⟨s, hs, hmarked⟩ := h.rowAt_marked hrec
      have hid₀ := h.entries_extends.idAt (Entries.idAt_of_rowAt hr)
      have hrowid : s.rowid = r.rowid := Option.some.inj ((Entries.idAt_of_rowAt hs).symm.trans hid₀)
      have hb's : b'.entryId = s.rowid := by
        rw [(Prod.mk.inj hkey).1, hid, hrowid]
      exact ⟨b', (Tables.mem_sweep_blocks (Entries.rowAt_mem hs) hmarked hb's).mpr hb', hkey⟩

end Recorded

/-! ## Interrupted runs -/

/-- An interrupted run deletes no row of an accessible path if and only if `read` throws or the walk
has reached all of them, and no file that was hashed has become shorter. -/
theorem reindex_interrupted_iff {env : Env} (hsql : env.sql.NoFault) {t : Tree} {path : WString}
    {win : Win32} {db : Db} (hdb : db.snapshot = none)
    (halive : ∀ r ∈ db.tables.entries.rows, r.isAlive = 1) {pre : List Event} {c : Call} {idx : Index}
    (hinterrupted : Interrupted env t (rootPath path) db.tables pre c idx)
    {r : EStateM.Result Error Db Unit} (hresult : Reindexes env t path win db r) :
    Tables.Keeps t (rootPath path) db.tables (resultDb r).committed ↔
      (c.StopThrows (lastErrorBehind env.register pre 0 win.lastError) ∨
        t.Reached (rootPath path) (recordsOf (rootPath path) (callsOf pre)) db.tables.entries) ∧
      db.tables.NotShorter env.modifiedOnly (recordsOf (rootPath path) (callsOf pre)) := by
  obtain ⟨post, hevents⟩ := hinterrupted.events
  have hsound := hinterrupted.visited.sound hevents
  have hrecorded := hsound.recorded
  have hunmarked : ∀ r ∈ db.tables.entries.rows, r.isAlive ≠ 0 := by
    intro r hr
    rw [halive r hr]
    decide
  have hfiles : ∀ rec ∈ recordsOf (rootPath path) (callsOf pre), rec.isDir = false →
      ∀ r, db.tables.entries.rowAt rec.path = some r →
        t.AccessibleRow (rootPath path) db.tables.entries rec.path r := by
    intro rec hrec hfile r hr
    rcases mem_recordsOf hrec with rfl | ⟨c', hc', hacc, rfl⟩
    · cases hfile
    · have hmem : c' ∈ callsOf (t.events indexReader (rootPath path)) := by
        rw [hevents, callsOf_append]
        exact List.mem_append_left _ hc'
      obtain ⟨names, hpath, hdescend⟩ := t.calls_descend indexReader (rootPath path) c' hmem
      exact ⟨names, c'.node, hpath, hdescend, hacc, hr⟩
  rw [hinterrupted.committed hsql hdb hresult]
  split
  · next hthrows =>
      rw [hrecorded.keeps_iff hfiles]
      simp only [hthrows, true_or, true_and]
  · next hthrows =>
      rw [hrecorded.keeps_sweep_iff hunmarked, hrecorded.keeps_iff hfiles, and_comm]
      simp only [hthrows, false_or]

/-- A run that is told to shut down before its first callback. -/
def stoppedEnv : Env := { Env.plain true with shutdown := fun _ => true }

/-- The first callback over the plain tree. -/
def plainCall : Call := ⟨[['r']], ['d'], .dir .plain (.file ['f'] (.plain ⟨0, 1⟩ [7]) .nil), false, .descend⟩

theorem stoppedEnv_interrupted (t₀ : Tables) :
    Interrupted stoppedEnv plainTree (rootPath ['r']) t₀ [] plainCall ⟨t₀, []⟩ where
  events := ⟨_, rfl⟩
  visited := .nil stoppedEnv ⟨t₀, []⟩ 0
  shutdown := rfl

theorem reindex_interrupted_iff_stoppedEnv :
    ∃ db r, Reindexes stoppedEnv plainTree ['r'] ⟨[], 0⟩ db r ∧
      (Tables.Keeps plainTree (rootPath ['r']) db.tables (resultDb r).committed ↔
        (plainCall.StopThrows (lastErrorBehind stoppedEnv.register [] 0 0) ∨
          plainTree.Reached (rootPath ['r']) (recordsOf (rootPath ['r']) []) db.tables.entries) ∧
        db.tables.NotShorter true (recordsOf (rootPath ['r']) [])) := by
  have hsql : (Env.plain true).sql.NoFault := Sqlite.working_noFault _
  have hdb : (Db.connect .empty).snapshot = none := rfl
  obtain ⟨db₁, hreturns⟩ := plainTree_accessible.returns plainTree_indexable hsql (fun _ => rfl) 0 hdb
  obtain ⟨idx, -, htables⟩ :=
    plainTree_accessible.visited hsql.throws (fun _ => rfl) hreturns hdb
  have halive : ∀ r ∈ (Db.connect db₁.committed).tables.entries.rows, r.isAlive = 1 := by
    intro r hr
    have hswept : r ∈ db₁.committed.entries.rows := hr
    rw [htables] at hswept
    obtain ⟨s, -, -, rfl⟩ := Tables.mem_sweep.mp hswept
    rfl
  obtain ⟨r, hresult⟩ := reindex_total stoppedEnv plainTree ['r'] ⟨[], 0⟩ (Db.connect db₁.committed)
  have hstopped : stoppedEnv.sql.NoFault := Sqlite.working_noFault _
  exact ⟨_, r, hresult, reindex_interrupted_iff hstopped rfl halive (stoppedEnv_interrupted _) hresult⟩

/-- The tables of a completed run are emptied by a run that is stopped at its first callback. -/
theorem reindex_interrupted_deletes :
    ∃ db r, db.snapshot = none ∧ (∀ r ∈ db.tables.entries.rows, r.isAlive = 1) ∧
      stoppedEnv.sql.NoFault ∧
      Interrupted stoppedEnv plainTree (rootPath ['r']) db.tables [] plainCall ⟨db.tables, []⟩ ∧
      Reindexes stoppedEnv plainTree ['r'] ⟨[], 0⟩ db r ∧
      ¬Tables.Keeps plainTree (rootPath ['r']) db.tables (resultDb r).committed := by
  have heval : (reindex (.plain true) (plainTree.disk ['r']) 20 ['r'] ⟨[], 0⟩ (Db.connect .empty)).bind
      (fun r₁ => (reindex stoppedEnv (plainTree.disk ['r']) 20 ['r'] ⟨[], 0⟩
          (Db.connect (resultDb r₁).committed)).bind fun r₂ =>
        ((resultDb r₁).committed.entries.rowAt [['r'], ['d']]).map fun _ =>
          ((resultDb r₁).committed.entries.rows.all fun r => r.isAlive = 1,
            (resultDb r₂).committed.entries.rows.length)) = some (true, 0) := by
    decide +kernel
  obtain ⟨r₁, -, heval⟩ := Option.bind_eq_some_iff.mp heval
  obtain ⟨r₂, hsecond, heval⟩ := Option.bind_eq_some_iff.mp heval
  obtain ⟨row, hrow, heval⟩ := Option.map_eq_some_iff.mp heval
  obtain ⟨halive, hempty⟩ := Prod.mk.inj heval
  refine ⟨Db.connect (resultDb r₁).committed, r₂, rfl, ?_, Sqlite.working_noFault _,
    stoppedEnv_interrupted _, ⟨20, hsecond⟩, ?_⟩
  · intro r hr
    exact of_decide_eq_true (List.all_eq_true.mp halive r hr)
  · intro hkeeps
    have hnode : plainTree.node.descend [['d']] =
        some (.dir .plain (.file ['f'] (.plain ⟨0, 1⟩ [7]) .nil)) := rfl
    obtain ⟨r, hr, -⟩ := hkeeps.entries [['r'], ['d']] row ⟨[['d']], _, rfl, hnode, rfl, hrow⟩
    rw [List.eq_nil_of_length_eq_zero hempty] at hr
    cases hr

end Spacenet
