-- SUMMARY: In every state on disk, a stored digest is that of one complete read, recorded together with the mtime and with the blocks.
import Spacenet.Effect.Accessible
import Spacenet.Effect.Rooted
import Spacenet.Effect.Columns
import Spacenet.Effect.Content

/-!
# Trusted digests

A row with a digest is backed by a record: its mtime, its digest and its block
rows are what one visit of a file has written. A visit clears the digest before
it touches the block rows, and writes mtime and digest in one statement behind
them, so that every statement keeps this.
-/

namespace Spacenet

open UniqueKey

/-! ## Backed rows -/

/-- The row is that at the path of `rec`, with the mtime and the digest that `rec` records for a file read
to its end; unless the file is empty, the block rows of the entry are exactly its blocks. -/
structure Record.Backs (rec : Record) (t : Tables) (r : EntryRow) : Prop where
  isFile : rec.isDir = false
  row : t.entries.rowAt rec.path = some r
  mtime : r.mtime = some rec.fmtim
  read : ∃ reads, rec.reads = some reads ∧ reads.failed = false ∧
    r.digest = some (cdc512 (padded fileBlockSize reads.bytes)) ∧
    (reads.bytes ≠ [] → t.blocksDigests.Exactly r.rowid fileBlockSize reads.bytes)

/-- Every row with a digest is backed by one of the records `V`, and block numbers start at 1. -/
structure Tables.Trusted (V : Record → Prop) (t : Tables) : Prop where
  row : ∀ r ∈ t.entries.rows, r.digest ≠ none → ∃ rec, V rec ∧ rec.Backs t r
  numbered : ∀ b ∈ t.blocksDigests.rows, 1 ≤ b.blockNo

/-- The row `r'` of `t'` is the row `r` of `t`, as far as `Backs` reads it. -/
structure EntryRow.SameRecord (t t' : Tables) (r r' : EntryRow) : Prop where
  rowid : r'.rowid = r.rowid
  mtime : r'.mtime = r.mtime
  digest : r'.digest = r.digest
  row : ∀ path, t.entries.rowAt path = some r → t'.entries.rowAt path = some r'
  blocks : ∀ b : BlockRow, b.entryId = r.rowid → (b ∈ t'.blocksDigests.rows ↔ b ∈ t.blocksDigests.rows)

theorem Record.Backs.frame {rec : Record} {t t' : Tables} {r r' : EntryRow} (h : rec.Backs t r)
    (hsame : r.SameRecord t t' r') : rec.Backs t' r' where
  isFile := h.isFile
  row := hsame.row _ h.row
  mtime := hsame.mtime.trans h.mtime
  read := by
    obtain ⟨reads, hreads, hfailed, hdigest, hexactly⟩ := h.read
    refine ⟨reads, hreads, hfailed, hsame.digest.trans hdigest, fun hne b hb => ?_⟩
    rw [hsame.rowid] at hb ⊢
    rw [hsame.blocks b hb]
    exact hexactly hne b hb

namespace Tables.Trusted

variable {V V' : Record → Prop} {t t' : Tables}

theorem empty (V : Record → Prop) : Tables.empty.Trusted V where
  row := fun _ hr => absurd hr List.not_mem_nil
  numbered := fun _ hb => absurd hb List.not_mem_nil

theorem mono (h : t.Trusted V) (hV : ∀ rec, V rec → V' rec) : t.Trusted V' where
  row := by
    intro r hr hdigest
    obtain ⟨rec, hrec, hbacks⟩ := h.row r hr hdigest
    exact ⟨rec, hV rec hrec, hbacks⟩
  numbered := h.numbered

/-- Tables whose rows with a digest are rows of `t`, with the same block rows. -/
theorem frame (h : t.Trusted V)
    (hrow : ∀ r' ∈ t'.entries.rows, r'.digest ≠ none → ∃ r ∈ t.entries.rows, r.SameRecord t t' r')
    (hnumbered : ∀ b ∈ t'.blocksDigests.rows, b ∈ t.blocksDigests.rows ∨ 1 ≤ b.blockNo) :
    t'.Trusted V where
  row := by
    intro r' hr' hdigest
    obtain ⟨r, hr, hsame⟩ := hrow r' hr' hdigest
    obtain ⟨rec, hrec, hbacks⟩ := h.row r hr (hsame.digest ▸ hdigest)
    exact ⟨rec, hrec, hbacks.frame hsame⟩
  numbered := by
    intro b hb
    rcases hnumbered b hb with hb | hno
    · exact h.numbered b hb
    · exact hno

theorem sweep (h : t.Trusted V) (hrooted : t.entries.Rooted) : t.sweep.Trusted V := by
  refine h.frame ?_ (fun b hb => .inl (Blocks.mem_deleteEntries.mp hb).1)
  intro r' hr' _
  obtain ⟨s, hs, hmarked, rfl⟩ := mem_sweep.mp hr'
  exact ⟨s, hs, rfl, rfl, rfl, fun path hpath => hrooted.rowAt_sweep hpath hmarked,
    fun b hb => mem_sweep_blocks hs hmarked hb⟩

end Tables.Trusted

/-! ## A record -/

section

variable {policy : RowidPolicy} {modifiedOnly : Bool} {parentId : Nat} {rec : Record} {t : Tables}

/-- A row with a digest behind `update_entry` had it before. The block rows of the others stay. -/
theorem Tables.updateEntry_sameRecord {params : EntryParams} {mtime : U64} {t' : Tables}
    (hentries : t'.entries = t.entries.updateEntry policy modifiedOnly params mtime)
    {r' : EntryRow} (hr' : r' ∈ t'.entries.rows) (hdigest : r'.digest ≠ none)
    (hblocks : ∀ b : BlockRow, b.entryId = r'.rowid → (b ∈ t'.blocksDigests.rows ↔ b ∈ t.blocksDigests.rows)) :
    ∃ r ∈ t.entries.rows, r.SameRecord t t' r' := by
  have hextends : t.entries.Extends t'.entries := hentries ▸ Entries.extends_updateEntry
  have hmem := hr'
  rw [hentries] at hmem
  rcases Entries.mem_updateEntry.mp hmem with ⟨hold, -⟩ | rfl
  · exact ⟨r', hold, rfl, rfl, rfl, fun path hpath => hextends.rowAt_of_mem hpath hr' rfl, hblocks⟩
  · cases hfind : t.entries.find params.parentId params.name with
    | none =>
        rw [Entries.rowOf_of_none hfind] at hdigest
        exact absurd rfl hdigest
    | some r =>
        have hrowid : (t.entries.rowOf policy modifiedOnly params mtime).rowid = r.rowid := Entries.rowOf_rowid hfind
        refine ⟨r, (Entries.find_eq_some.mp hfind).1, hrowid, ?_, ?_,
          fun path hpath => hextends.rowAt_of_mem hpath hr' hrowid, hrowid ▸ hblocks⟩
        all_goals
          rw [Entries.rowOf_of_some hfind] at hdigest ⊢
          unfold EntryRow.updateEntry at hdigest ⊢
          split at hdigest
          · next htouch =>
              rw [if_pos htouch]
              rfl
          · exact absurd rfl hdigest

/-- While a file is hashed its row has no digest. -/
theorem Record.rowOf_digest (hhashed : rec.hashed modifiedOnly (t.entries.mtimeOf parentId rec.name))
    (hnonzero : rec.fmtim ≠ 0) :
    (t.entries.rowOf policy modifiedOnly (rec.params parentId) rec.fmtim).digest = none := by
  cases hfind : t.entries.find parentId rec.name with
  | none =>
      have hfind' : t.entries.find (rec.params parentId).parentId (rec.params parentId).name = none :=
        hfind
      rw [Entries.rowOf_of_none hfind']
      rfl
  | some r =>
      have hfind' : t.entries.find (rec.params parentId).parentId (rec.params parentId).name = some r :=
        hfind
      rw [Entries.mtimeOf_of_find hfind] at hhashed
      have hupd : ¬(modifiedOnly ∧ (r.mtime.getD 0 = rec.fmtim ∨ rec.fmtim = 0)) := by
        rintro ⟨hmodified, hsame | hzero⟩
        · rcases hhashed.2 with hnot | hne
          · exact hnot hmodified
          · exact hne hsame
        · exact hnonzero hzero
      rw [Entries.rowOf_of_some hfind', EntryRow.updateEntry, if_neg hupd]
      rfl

/-- What is known of the records of a regular run. -/
structure Record.Regular (rec : Record) : Prop where
  nonzero : rec.isDir = false → rec.fmtim ≠ 0
  blockSize : rec.isDir = false → rec.blockSize = fileBlockSize
  full : ∀ reads, rec.reads = some reads → reads.FullBlocks fileBlockSize

theorem Tables.Trusted.partly {V : Record → Prop} (h : t.Trusted V) (hregular : rec.Regular)
    {t' : Tables} (hpartly : t.Partly policy modifiedOnly parentId rec t') : t'.Trusted V := by
  cases hpartly with
  | before => exact h
  | entry =>
      refine h.frame ?_ (fun _ hb => .inl hb)
      intro r' hr' hdigest
      exact Tables.updateEntry_sameRecord rfl hr' hdigest (fun _ _ => Iff.rfl)
  | blocks hashed same =>
      refine h.frame ?_ same.numbered
      intro r' hr' hdigest
      refine Tables.updateEntry_sameRecord same.entries hr' hdigest (fun b hb => same.blocks b ?_)
      rw [same.entries] at hr'
      -- the row of the entry has no digest, so this is another one
      rw [hb]
      intro hid
      apply hdigest
      rw [(Entries.rowidUnique _).eq_of_key hr' Entries.rowOf_mem hid]
      exact Record.rowOf_digest hashed (hregular.nonzero hashed.1)

/-- The block rows of a regular file that is read are the blocks of its bytes. -/
theorem Record.Regular.exactly (hregular : rec.Regular) {mtim : U64}
    (hhashed : rec.hashed modifiedOnly mtim) {reads : FileReads} (hreads : rec.reads = some reads)
    (hne : reads.bytes ≠ []) {blocks : Blocks} (hnumbered : ∀ b ∈ blocks.rows, 1 ≤ b.blockNo)
    {entryId : Nat} :
    (blocks.updateBlocks entryId rec.blockSize (rec.chunks modifiedOnly mtim) 1).Exactly entryId
      fileBlockSize reads.bytes := by
  have hchunks : rec.chunks modifiedOnly mtim = (FileReads.full fileBlockSize_pos reads.bytes).chunks := by
    unfold Record.chunks
    rw [if_pos hhashed, hreads]
    exact (hregular.full reads hreads).chunks_eq fileBlockSize_pos
  rw [hregular.blockSize hhashed.1, hchunks]
  exact (Blocks.exactly_updateBlocks_iff fileBlockSize_pos).mpr fun b hb _ => ⟨hne, hnumbered b hb⟩

/-- The last statement of a record backs the row of the entry. -/
theorem Tables.Trusted.whole {V : Record → Prop} (h : t.Trusted V) (hregular : rec.Regular)
    (hparent : t.entries.idAt rec.parts = some parentId)
    (hV : rec.hashed modifiedOnly (t.entries.mtimeOf parentId rec.name) → V rec) :
    (t.recordAt policy modifiedOnly parentId rec).Trusted V := by
  have hblocks : rec.hashed modifiedOnly (t.entries.mtimeOf parentId rec.name) → t.Partly policy
      modifiedOnly parentId rec ((t.updateEntry policy modifiedOnly (rec.params parentId)
        rec.fmtim).updateBlocks (t.entryId policy modifiedOnly (rec.params parentId) rec.fmtim)
        rec.blockSize (rec.chunks modifiedOnly (t.entries.mtimeOf parentId rec.name)) 1) :=
    fun hhashed => .blocks hhashed (Tables.updateBlocks_sameButBlocks _ _ _ (Nat.le_refl 1) _)
  have hrow : (t.recordAt policy modifiedOnly parentId rec).entries.rowAt rec.path =
      some (t.entries.recordedRow policy modifiedOnly parentId rec) :=
    Entries.rowAt_of_find (Tables.extends_recordAt.idAt hparent) Tables.find_recordAt_self
  rw [Entries.recordedRow_eq, Record.after] at hrow
  simp only [Tables.recordAt] at hrow ⊢
  cases hdigest : rec.digest modifiedOnly (t.entries.mtimeOf parentId rec.name) with
  | none =>
      by_cases hhashed : rec.hashed modifiedOnly (t.entries.mtimeOf parentId rec.name)
      · exact h.partly hregular (hblocks hhashed)
      · have hchunks : rec.chunks modifiedOnly (t.entries.mtimeOf parentId rec.name) = [] :=
          if_neg hhashed
        rw [hchunks]
        exact h.partly hregular .entry
  | some digest =>
      simp only [hdigest] at hrow
      obtain ⟨hhashed, reads, hreads, hfailed, rfl⟩ := Record.digest_eq_some.mp hdigest
      have hbefore := h.partly hregular (hblocks hhashed)
      refine ⟨?_, hbefore.numbered⟩
      intro r' hr' hdigest'
      obtain ⟨r, hr, rfl⟩ := mem_modify.mp hr'
      split at hdigest'
      · next hid =>
          have heq : r = t.entries.rowOf policy modifiedOnly (rec.params parentId) rec.fmtim :=
            (Entries.rowidUnique _).eq_of_key hr Entries.rowOf_mem (of_decide_eq_true hid)
          rw [if_pos hid, heq]
          refine ⟨rec, hV hhashed, hhashed.1, hrow, rfl, reads, hreads, hfailed, ?_, ?_⟩
          · have hdigestEq := (hregular.full reads hreads).digest_eq fileBlockSize_pos size_dvd_fileBlockSize
            simp only [EntryRow.updAfter, hregular.blockSize hhashed.1, hdigestEq]
          · exact fun hne => hregular.exactly hhashed hreads hne h.numbered
      · next hid =>
          rw [if_neg hid] at hr' ⊢
          obtain ⟨rec', hrec', hbacks⟩ := hbefore.row r hr hdigest'
          refine ⟨rec', hrec', hbacks.frame ⟨rfl, rfl, rfl, fun path hpath => ?_, fun _ _ => Iff.rfl⟩⟩
          exact (Entries.extends_updAfter _ _ _).rowAt_of_mem hpath hr' rfl

end

/-! ## Histories -/

/-- The transaction of the sweep is atomic. -/
def Sqlite.SweepAtomic (sql : Sqlite) : Prop :=
  ∀ db : Db, db.snapshot = none → (resultDb (cleanupEntries sql db)).committed = db.tables ∨
    (resultDb (cleanupEntries sql db)).committed = db.tables.sweep

/-- A run in which a failing statement throws, the sweep is atomic, no file has the time 0, and every
`_read` of a file but the last gives a full block. -/
structure Run.Regular (x : Run) : Prop where
  throws : x.env.sql.Throws
  sweep : x.env.sql.SweepAtomic
  nonzero : x.tree.entries.Files fun info => info.stat.fmtim ≠ 0
  full : x.tree.entries.Files fun info =>
    ∀ reads, info.content = some reads → reads.FullBlocks fileBlockSize

theorem Run.Regular.record {x : Run} (h : x.Regular) {c : Call} (hc : c ∈ callsOf x.events) :
    c.record.Regular := by
  obtain ⟨names, -, hdescend⟩ := x.tree.calls_descend indexReader (rootPath x.path) c hc
  have hfile : ∀ info, c.node = .file info →
      info.stat.fmtim ≠ 0 ∧ ∀ reads, info.content = some reads → reads.FullBlocks fileBlockSize := by
    intro info hnode
    rw [hnode] at hdescend
    cases names with
    | nil => cases hdescend
    | cons name names =>
        have hdescend' := Tree.descend_cons.symm.trans hdescend
        exact ⟨h.nonzero.of_descend hdescend', h.full.of_descend hdescend'⟩
  cases hnode : c.node with
  | file info =>
      obtain ⟨hnonzero, hfull⟩ := hfile info hnode
      obtain ⟨-, hreads⟩ := Call.record_file hnode
      refine ⟨fun _ => ?_, fun _ => rfl, fun reads hreads' => hfull reads (hreads.symm.trans hreads')⟩
      rw [Call.record_fmtim, hnode]
      exact hnonzero
  | dir info entries =>
      obtain ⟨hdir, hreads⟩ := Call.record_dir hnode
      refine ⟨fun hfile => ?_, fun _ => rfl, fun reads hreads' => ?_⟩
      · rw [hdir] at hfile
        cases hfile
      · rw [hreads] at hreads'
        cases hreads'

theorem Record.root_regular (path : WString) : (Record.root path).Regular where
  nonzero := fun h => by cases h
  blockSize := fun h => by cases h
  full := fun _ h => by cases h

/-! ## Attempts -/

/-- The attempt makes the callback `c`, which hashes its file: `modified_only` is off, or another mtime is
stored. -/
def Attempt.Hashes (s : Attempt) (c : Call) : Prop :=
  ∃ w, s.Makes c w ∧ c.node.accessible = true ∧
    c.record.hashed s.run.env.modifiedOnly (w.db.tables.entries.mtimeAt c.path)

/-- The tables of an index are trusted, and `parents` leads where the paths lead. -/
structure Index.Trusted (V : Record → Prop) (root : WString) (idx : Index) : Prop where
  tables : idx.tables.Trusted V
  rooted : idx.Rooted
  located : idx.Located root

namespace Index.Trusted

variable {V : Record → Prop} {root : WString} {policy : RowidPolicy} {modifiedOnly : Bool} {idx idx' : Index}
  {c : Call}

theorem enterRoot (h : idx.Trusted V root) :
    (idx.enterRoot policy modifiedOnly root).tables.Trusted V :=
  h.tables.whole (Record.root_regular root) rfl fun hhashed => Bool.noConfusion hhashed.1

/-- The record of the root leaves what is stored at other paths. -/
theorem mtimeAt_enterRoot (h : idx.Trusted V root) {path : List WString} (hne : path ≠ [root]) :
    (idx.enterRoot policy modifiedOnly root).tables.entries.mtimeAt path = idx.tables.entries.mtimeAt path := by
  have hrow : (idx.enterRoot policy modifiedOnly root).tables.entries.rowAt ([] ++ [root]) =
      some (idx.tables.entries.recordedRow policy modifiedOnly 0 (.root root)) :=
    Entries.rowAt_of_find rfl Tables.find_recordAt_self
  have hsame : (idx.enterRoot policy modifiedOnly root).tables.entries.rowAt path = idx.tables.entries.rowAt path :=
    h.rooted.entries.rowAt_put Tables.puts_recordAt hrow hne
  unfold Entries.mtimeAt
  rw [hsame]

/-- The step lemma: a callback backs the row of the file that it hashes. -/
theorem visit (h : idx.Trusted V root) {disk : Disk} (hbelow : c.Below disk [root]) (hregular : c.record.Regular)
    (hV : c.node.accessible = true → c.record.hashed modifiedOnly (idx.tables.entries.mtimeAt c.path) → V c.record)
    (hvisit : idx.visit policy modifiedOnly c = some idx') : idx'.Trusted V root where
  rooted := h.rooted.visit hvisit
  located := h.located.visit hbelow hvisit
  tables := by
    cases Index.visit_cases hvisit with
    | skipped inaccessible => exact h.tables
    | below accessible converts known =>
        have hparent := h.located c.parts hbelow.inTree_parts _ known
        refine h.tables.whole hregular hparent fun hhashed => hV accessible ?_
        rw [Entries.mtimeOf_of_idAt hparent] at hhashed
        exact hhashed
    | first accessible converts unknown level =>
        have hparts : c.parts = [root] := hbelow.parts_of_level level
        have hparent : (idx.enterRoot policy modifiedOnly root).tables.entries.idAt c.parts =
            some (idx.tables.entryId policy modifiedOnly ((Record.root root).params 0) 0) := by
          have hroot : idx.tables.entries.idAt (Record.root root).parts = some 0 := rfl
          rw [hparts]
          exact Tables.idAt_recordAt hroot
        rw [hparts, joinPath_singleton]
        refine h.enterRoot.whole hregular hparent fun hhashed => hV accessible ?_
        rw [Entries.mtimeOf_of_idAt hparent] at hhashed
        have hsame : (idx.enterRoot policy modifiedOnly root).tables.entries.mtimeAt c.path =
            idx.tables.entries.mtimeAt c.path := h.mtimeAt_enterRoot hbelow.path_ne_root
        exact hsame ▸ hhashed

/-- Inside of a callback no row is backed anew. -/
theorem inside (h : idx.Trusted V root) {disk : Disk} (hbelow : c.Below disk [root]) (hregular : c.record.Regular)
    {t : Tables} (hinside : idx.Inside policy modifiedOnly c t) : t.Trusted V := by
  rcases hinside with rfl | ⟨-, hinside⟩
  · exact h.tables
  · rcases hinside with ⟨parentId, -, hpartly⟩ | ⟨-, hlevel, hpartly⟩
    · exact h.tables.partly hregular hpartly
    · rw [hbelow.parts_of_level (Nat.not_lt.mpr hlevel), joinPath_singleton] at hpartly
      rcases hpartly with hpartly | hpartly
      · exact h.tables.partly (Record.root_regular root) hpartly
      · exact h.enterRoot.partly hregular hpartly

end Index.Trusted

/-- The run lemma: a regular attempt keeps the trust in the rows, and the callbacks that hash add to it. -/
theorem Attempt.trusted {s : Attempt} (h : s.run.Regular) {V : Record → Prop} (hV : ∀ c, s.Hashes c → V c.record)
    {r : EStateM.Result Error Db Unit} (hdb : s.db.snapshot = none)
    (hresult : Reindexes s.run.env s.run.tree s.run.path s.run.win s.db r) (htrusted : s.db.tables.Trusted V)
    (hrooted : s.db.tables.entries.Rooted) :
    (resultDb r).committed.Trusted V ∧ (resultDb r).committed.entries.Rooted := by
  have hbelow := s.run.tree.calls_below indexReader (rootPath s.run.path)
  refine Attempt.keeps (I := fun t => t.Trusted V ∧ t.entries.Rooted) (J := Index.Trusted V (rootPath s.run.path))
    h.throws ?_ ?_ ?_ ⟨htrusted, .start hrooted, .start _ _⟩ hdb ?_ hresult
  · exact fun idx hidx => ⟨hidx.tables, hidx.rooted.entries⟩
  · intro c w idx' hmakes hidx hvisit
    exact hidx.visit (hbelow c hmakes.mem) (h.record hmakes.mem) (fun hacc hhashed => hV c ⟨w, hmakes, hacc, hhashed⟩)
      hvisit
  · intro c hc idx t hidx hinside
    exact ⟨hidx.inside (hbelow c hc) (h.record hc) hinside, hidx.rooted.inside hinside⟩
  · rintro before hclosed ⟨ht, hrooted⟩
    rcases h.sweep before hclosed with hkept | hswept
    · exact hkept ▸ ⟨ht, hrooted⟩
    · exact hswept ▸ ⟨ht.sweep hrooted, hrooted.deleteUnmarked.resetAlive⟩

theorem Sqlite.NoFault.sweepAtomic {sql : Sqlite} (h : sql.NoFault) : sql.SweepAtomic := by
  intro db hdb
  have hwp := wp_cleanupEntries h.throws.losesNothing hdb
  cases hc : cleanupEntries sql db with
  | ok a db' =>
      obtain ⟨log, rfl⟩ := Prog.wp_of_ok hwp hc
      right
      simp [resultDb, Db.committed, hdb]
  | error e db' => exact absurd h (Prog.wp_of_error hwp hc).1

theorem plainRun_regular (modifiedOnly : Bool) : (plainRun modifiedOnly).Regular where
  throws := (Sqlite.working_noFault _).throws
  sweep := (Sqlite.working_noFault _).sweepAtomic
  nonzero := ⟨⟨by decide, trivial⟩, trivial⟩
  full := by
    refine ⟨⟨fun reads hreads => ?_, trivial⟩, trivial⟩
    obtain rfl := Option.some.inj hreads
    exact ⟨by decide, by decide⟩

theorem failedRun_regular : failedRun.Regular where
  throws := (Sqlite.working_noFault _).throws
  sweep := (Sqlite.working_noFault _).sweepAtomic
  nonzero := ⟨by decide, trivial⟩
  full := by
    refine ⟨fun reads hreads => ?_, trivial⟩
    obtain rfl := Option.some.inj hreads
    exact ⟨by decide, by decide⟩

end Spacenet
