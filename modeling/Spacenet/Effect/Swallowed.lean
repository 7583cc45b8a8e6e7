-- SUMMARY: Runs in which a failing INSERT goes unnoticed where it would have written nothing new: what the statements of such a run have stored.
import Spacenet.Effect.Statements
import Spacenet.Effect.Outcome
import Spacenet.Effect.Columns

/-!
# Failures that lose nothing

A failing INSERT of the callback is not thrown. Where the row of the entry, or the
block row with its digest, is stored already, nothing is lost by it: the ids that
the callbacks find are those of stored rows, and behind `st_upd_after` all blocks
of the file are there. Later callbacks and the sweep keep them.
-/

namespace Spacenet

open Prog

/-! ## Tables that differ at some paths only -/

/-- The rows and the blocks at the paths without `P` are kept. -/
structure Tables.KeepsBut (P : List WString → Prop) (t t' : Tables) : Prop where
  ids : t.entries.Extends t'.entries
  rows : ∀ path r, ¬P path → t.entries.rowAt path = some r → t'.entries.rowAt path = some r
  blocks : ∀ path id, ¬P path → t.entries.idAt path = some id → ∀ b : BlockRow, b.entryId = id →
    b ∈ t.blocksDigests.rows → b ∈ t'.blocksDigests.rows

namespace Tables.KeepsBut

variable {P : List WString → Prop} {t t' t'' : Tables}

theorem refl (P : List WString → Prop) (t : Tables) : t.KeepsBut P t where
  ids := .refl _
  rows := fun _ _ _ h => h
  blocks := fun _ _ _ _ _ _ h => h

theorem trans (h : t.KeepsBut P t') (h' : t'.KeepsBut P t'') : t.KeepsBut P t'' where
  ids := h.ids.trans h'.ids
  rows := fun path r hpath hr => h'.rows path r hpath (h.rows path r hpath hr)
  blocks := fun path id hpath hid b hb hmem =>
    h'.blocks path id hpath (h.ids.idAt hid) b hb (h.blocks path id hpath hid b hb hmem)

/-- Entries that differ at one key. -/
theorem of_find {entries : Entries} {parts : List WString} {name : WString} {parentId : Nat}
    (hparent : t.entries.idAt parts = some parentId) (hext : t.entries.Extends entries)
    (hfind : ∀ parentId' name', (parentId, name) ≠ (parentId', name') →
      entries.find parentId' name' = t.entries.find parentId' name') :
    t.KeepsBut (· = parts ++ [name]) { t with entries := entries } where
  ids := hext
  rows := by
    intro path r hpath hr
    cases path using List.reverseRecOn with
    | nil => cases hr
    | append_singleton parts' name' =>
        rw [Entries.rowAt_append] at hr ⊢
        obtain ⟨id, hid, hrow⟩ := Entries.rowIn_eq_some.mp hr
        refine Entries.rowIn_eq_some.mpr ⟨id, hext.idAt hid, ?_⟩
        rw [hfind id name' ?_, hrow]
        intro hkey
        obtain ⟨rfl, rfl⟩ := Prod.mk.inj hkey
        apply hpath
        rw [Entries.idAt_injective hid hparent]
  blocks := fun _ _ _ _ _ _ h => h

/-- Blocks that differ at one entry. -/
theorem of_sameBut {blocks : Blocks} {path : List WString} {id : Nat}
    (hid : t.entries.idAt path = some id) (hsame : t.blocksDigests.SameBut id blocks) :
    t.KeepsBut (· = path) { t with blocksDigests := blocks } where
  ids := .refl _
  rows := fun _ _ _ h => h
  blocks := by
    intro path' id' hpath hid' b hb hmem
    refine (hsame b (fun hbid => hpath ?_)).mpr hmem
    apply Entries.idAt_injective hid'
    rw [hid, ← hbid, hb]

/-- `st_upd_after` differs at the entry of the rowid. -/
theorem updAfter {parts : List WString} {name : WString} {parentId : Nat} {r : EntryRow}
    (hparent : t.entries.idAt parts = some parentId) (hrow : t.entries.find parentId name = some r)
    (mtime : U64) (digest : Blob) :
    t.KeepsBut (· = parts ++ [name])
      { t with entries := t.entries.updAfter r.rowid mtime digest } := by
  apply of_find hparent (Entries.extends_updAfter r.rowid mtime digest)
  intro parentId' name' hkey
  rw [Entries.find_updAfter]
  cases hfind : t.entries.find parentId' name' with
  | none => rfl
  | some r' =>
      have hne : r'.rowid ≠ r.rowid := by
        intro hid
        obtain ⟨hmem, hparent', hname⟩ := Entries.find_eq_some.mp hrow
        obtain ⟨hmem', hparent'', hname'⟩ := Entries.find_eq_some.mp hfind
        obtain rfl := t.entries.rowidUnique.eq_of_key hmem' hmem hid
        apply hkey
        rw [← hparent', ← hparent'', ← hname, ← hname']
      rw [Option.map_some, if_neg hne]

end Tables.KeepsBut

/-! ## What a callback stores -/

/-- The entry of `c` is stored with the mtime and the digest of what `reads` gives, and with all its
blocks. -/
structure Tables.Stores (t : Tables) (c : Call) (reads : FileReads) (r : EntryRow) : Prop where
  opens : c.record.reads = some reads
  complete : reads.failed = false
  row : t.entries.rowAt c.path = some r
  alive : r.isAlive = 0
  mtime : r.mtime = some c.record.fmtim
  digest : r.digest = some reads.digest
  blocks : ∀ (i : Nat) chunk, reads.chunks[i]? = some chunk →
    ⟨r.rowid, (i + 1 : Nat), some (cdc512 (zeroPad fileBlockSize chunk))⟩ ∈ t.blocksDigests.rows

/-- Behind `st_upd_after` the entry is stored, when its blocks were. -/
theorem Tables.Stores.of_updAfter {t : Tables} {c : Call} {reads : FileReads} {parentId : Nat}
    {r : EntryRow} (hreads : c.record.reads = some reads) (hfailed : reads.failed = false)
    (hparent : t.entries.idAt c.parts = some parentId)
    (hrow : t.entries.find parentId c.name = some r)
    (hblocks : ∀ (i : Nat) chunk, reads.chunks[i]? = some chunk →
      ⟨r.rowid, (i + 1 : Nat), some (cdc512 (zeroPad fileBlockSize chunk))⟩ ∈ t.blocksDigests.rows) :
    Tables.Stores { t with entries := t.entries.updAfter r.rowid c.record.fmtim reads.digest } c reads
      (r.updAfter c.record.fmtim reads.digest) where
  opens := hreads
  complete := hfailed
  row := by
    apply Entries.rowAt_of_find ((Entries.extends_updAfter _ _ _).idAt hparent)
    rw [Entries.find_updAfter, hrow, Option.map_some, if_pos rfl]
  alive := rfl
  mtime := rfl
  digest := rfl
  blocks := hblocks

theorem Tables.Stores.kept {t t' : Tables} {c : Call} {reads : FileReads} {r : EntryRow}
    (h : t.Stores c reads r) {P : List WString → Prop} (hkeeps : t.KeepsBut P t') (hc : ¬P c.path) :
    t'.Stores c reads r where
  opens := h.opens
  complete := h.complete
  row := hkeeps.rows c.path r hc h.row
  alive := h.alive
  mtime := h.mtime
  digest := h.digest
  blocks := fun i chunk hi =>
    hkeeps.blocks c.path r.rowid hc (Entries.idAt_of_rowAt h.row) _ rfl (h.blocks i chunk hi)

/-! ## The callback -/

/-- A plain statement, or the `st_upd_after` of a file of `cs` that is stored with all its blocks. -/
def Stmt.Backed (root : WString) (cs : List Call) (t : Tables) (s : Stmt) : Prop :=
  s.Plain root ∨ ∃ c ∈ cs, ∃ reads r,
    t.Stores c reads r ∧ s = .updAfter r.rowid c.record.fmtim reads.digest

theorem Stmt.Backed.mono {root : WString} {cs cs' : List Call} {t : Tables} {s : Stmt}
    (h : s.Backed root cs t) (hcs : ∀ c ∈ cs, c ∈ cs') : s.Backed root cs' t := by
  rcases h with hplain | ⟨c, hc, hstored⟩
  · exact .inl hplain
  · exact .inr ⟨c, hcs c hc, hstored⟩

/-- The world behind the callbacks `cs`: `parents` has the ids of stored rows, and the statements
executed are backed by the tables. -/
structure Traced (root : WString) (cs : List Call) (w : World) : Prop where
  closed : w.db.snapshot = none
  known : w.index.Located root
  statements : ∀ e ∈ w.db.log, e.1.Backed root cs w.db.tables

namespace Traced

variable {root : WString} {cs cs' : List Call} {w w' : World}

theorem mono (h : Traced root cs w) (hcs : ∀ c ∈ cs, c ∈ cs') : Traced root cs' w where
  closed := h.closed
  known := h.known
  statements := fun e he => (h.statements e he).mono hcs

/-- Backed statements, behind which the tables differ at no path of a callback made. -/
theorem step (h : Traced root cs w) {P : List WString → Prop} (hcs : ∀ c ∈ cs, ¬P c.path)
    (hsub : ∀ c ∈ cs, c ∈ cs') (hclosed : w'.db.snapshot = none)
    (hkeeps : w.db.tables.KeepsBut P w'.db.tables)
    (hadds : w.db.Adds (Stmt.Backed root cs' w'.db.tables) w'.db) (hparents : w'.parents = w.parents) :
    Traced root cs' w' where
  closed := hclosed
  known := by
    have hknown : Index.Located root ⟨w'.db.tables, w.parents⟩ := Index.Located.extend h.known hkeeps.ids
    rw [World.index, hparents]
    exact hknown
  statements := by
    intro e he
    rcases hadds e he with hold | hbacked
    · rcases h.statements e hold with hplain | ⟨c, hc, reads, r, hstores, hs⟩
      · exact .inl hplain
      · exact .inr ⟨c, hsub c hc, reads, r, hstores.kept hkeeps (hcs c hc), hs⟩
    · exact hbacked

/-- Plain statements. -/
theorem plain (h : Traced root cs w) {P : List WString → Prop} (hcs : ∀ c ∈ cs, ¬P c.path) {db : Db}
    (hclosed : db.snapshot = none) (hkeeps : w.db.tables.KeepsBut P db.tables)
    (hadds : w.db.Adds (Stmt.Plain root) db) : Traced root cs { w with db := db } :=
  h.step hcs (fun _ hc => hc) hclosed hkeeps (hadds.mono fun _ => .inl) rfl

/-- The directory at `path` gets into `parents`. -/
theorem emplace (h : Traced root cs w) {path : List WString} (hpath : InTree root path) {id : Nat}
    (hid : w.db.tables.entries.idAt path = some id) :
    Traced root cs { w with parents := emplace (joinPath path) id w.parents } where
  closed := h.closed
  known := Index.Located.emplace h.known hpath hid
  statements := h.statements

end Traced

variable {env : Env} {disk : Disk} {root : WString} {cs : List Call} {c : Call} {sh : Shared World}

/-- `update_entry` in a directory that has an id leaves a row of its entry. -/
theorem wp_updateEntry_keeps {sql : Sqlite} (h : sql.LosesNothing) {db : Db} (hdb : db.snapshot = none)
    {params : EntryParams} (hroot : params.parentId = 0 → params = (Record.root root).params 0)
    {parts : List WString} (hparent : db.tables.entries.idAt parts = some params.parentId)
    (modifiedOnly : Bool) (mtime : U64) :
    wp (updateEntry sql modifiedOnly params mtime)
      (fun found db' => db'.snapshot = none ∧ db.Adds (Stmt.Plain root) db' ∧
        db.tables.KeepsBut (· = parts ++ [params.name]) db'.tables ∧
        ∃ r, db'.tables.entries.find params.parentId params.name = some r ∧ r.rowid = found.1)
      (fun _ _ => True) db := by
  have hkeeps : wp (updateEntry sql modifiedOnly params mtime)
      (fun found db' => db'.snapshot = none ∧
        db.tables.KeepsBut (· = parts ++ [params.name]) db'.tables ∧
        ∃ r, db'.tables.entries.find params.parentId params.name = some r ∧ r.rowid = found.1)
      (fun _ _ => True) db := by
    refine wp_updateEntry h hdb ?_ ?_ (fun _ _ _ => trivial) (fun _ _ _ => trivial)
    · intro log
      refine ⟨hdb, ?_, _, Entries.find_updateEntry_self, rfl⟩
      apply Tables.KeepsBut.of_find hparent Entries.extends_updateEntry
      intro parentId name hkey
      have hother : params.key ≠ (parentId, name) := hkey
      rw [Entries.find_updateEntry, if_neg hother]
    · intro r log _ hfind
      exact ⟨hdb, .refl _ _, r, hfind, rfl⟩
  refine (hkeeps.and (executes_updateEntry hroot modifiedOnly mtime db)).mono ?_ (fun _ _ _ => trivial)
  rintro found db' ⟨⟨hclosed, hkept, hrow⟩, hadds⟩
  exact ⟨hclosed, hadds, hkept, hrow⟩

/-- `update_blocks` on the row of the entry of `c`. A complete read leaves its blocks. -/
theorem wp_updateBlocks_keeps {sql : Sqlite} (h : sql.LosesNothing) {db : Db} (hdb : db.snapshot = none)
    (hhas : disk.Has c.path c.node) (hfile : c.record.isDir = false) {r : EntryRow}
    (hr : r ∈ db.tables.entries.rows) (hid : db.tables.entries.idAt c.path = some r.rowid) :
    wp (updateBlocks sql disk Cdc512.init (joinPath c.path) r.rowid fileBlockSize)
      (fun result db' => db'.snapshot = none ∧ db.Adds (Stmt.Plain root) db' ∧
        db.tables.KeepsBut (· = c.path) db'.tables ∧
        (result.1 = true → ∃ reads, c.record.reads = some reads ∧ reads.failed = false ∧
          result.2.finish.digest = reads.digest ∧
          db'.tables = db.tables.updateBlocks r.rowid fileBlockSize reads.chunks 1))
      (fun _ _ => True) db := by
  have hkeeps : wp (updateBlocks sql disk Cdc512.init (joinPath c.path) r.rowid fileBlockSize)
      (fun result db' => db'.snapshot = none ∧ db.tables.KeepsBut (· = c.path) db'.tables ∧
        (result.1 = true → ∃ reads, c.record.reads = some reads ∧ reads.failed = false ∧
          result.2.finish.digest = reads.digest ∧
          db'.tables = db.tables.updateBlocks r.rowid fileBlockSize reads.chunks 1))
      (fun _ _ => True) db := by
    refine wp_updateBlocks h hdb ?_ ?_ (fun _ _ _ _ _ => trivial)
    · intro _
      exact ⟨hdb, .refl _ _, fun hcomplete => by cases hcomplete⟩
    · intro reads log hopen
      rw [Call.sopen hhas hfile] at hopen
      refine ⟨hdb, .of_sameBut hid (Blocks.updateBlocks_sameBut _ _ _ _), fun hcomplete => ?_⟩
      exact ⟨reads, hopen, by simpa using hcomplete, rfl, rfl⟩
  have hplain : Executes (Stmt.Plain root)
      (updateBlocks sql disk Cdc512.init (joinPath c.path) r.rowid fileBlockSize) :=
    executes_updateBlocks (Nat.ne_of_gt (db.tables.entries.rowidPos r hr)) disk _ _ _
  refine (hkeeps.and (hplain db)).mono ?_ (fun _ _ _ => trivial)
  rintro result db' ⟨⟨hclosed, hkept, hcomplete⟩, hadds⟩
  exact ⟨hclosed, hadds, hkept, hcomplete⟩

/-- `update_blocks` and `st_upd_after` on the entry of `c`, whose row is stored. -/
theorem wp_hash_traced (h : env.sql.LosesNothing) (hhas : disk.Has c.path c.node)
    (hfile : c.record.isDir = false) (htraced : Traced root cs sh.user)
    (hnew : ∀ c' ∈ cs, c'.path ≠ c.path) {parentId : Nat} {r : EntryRow}
    (hparent : sh.user.db.tables.entries.idAt c.parts = some parentId)
    (hrow : sh.user.db.tables.entries.find parentId c.name = some r) :
    wp (do
        let (complete, ctx) ←
          withDb (updateBlocks env.sql disk Cdc512.init (joinPath c.path) r.rowid fileBlockSize)
        if complete then
          let _ ← withDb (env.sql.execute (.updAfter r.rowid c.record.fmtim ctx.finish.digest)))
      (fun _ sh' => Traced root (cs ++ [c]) sh'.user) (fun _ _ => True) sh := by
  have hid : sh.user.db.tables.entries.idAt c.path = some r.rowid :=
    Entries.idAt_of_rowAt (Entries.rowAt_of_find hparent hrow)
  have hcs : ∀ c' ∈ cs, ¬c'.path = c.path := hnew
  have hsub : ∀ c' ∈ cs, c' ∈ cs ++ [c] := fun c' hc' => List.mem_append_left _ hc'
  simp only [wp_bind]
  apply wp_withDb
  have hblocks := @wp_updateBlocks_keeps disk root c env.sql h sh.user.db htraced.closed hhas hfile r
    (Entries.find_eq_some.mp hrow).1 hid
  refine hblocks.mono ?_ (fun _ _ _ => trivial)
  rintro ⟨complete, ctx⟩ db' ⟨hclosed', hadds, hkeeps, hcomplete⟩
  have hstep : Traced root cs { sh.user with db := db' } := htraced.plain hcs hclosed' hkeeps hadds
  cases complete with
  | false =>
      simp only [Bool.false_eq_true, if_false, wp_pure]
      exact hstep.mono hsub
  | true =>
      obtain ⟨reads, hreads, hfailed, hdigest, htables⟩ := hcomplete rfl
      have hparent' : db'.tables.entries.idAt c.parts = some parentId := hkeeps.ids.idAt hparent
      have hrow' : db'.tables.entries.find parentId c.name = some r := by
        rw [htables]
        exact hrow
      have hstores := Tables.Stores.of_updAfter hreads hfailed hparent' hrow'
        (fun i chunk hi => htables ▸ Blocks.mem_updateBlocks_block hi)
      have hwrite := h.wp_execute (s := .updAfter r.rowid c.record.fmtim reads.digest)
        (Q := fun _ db'' => db''.snapshot = none ∧ db''.tables = { db'.tables with
          entries := db'.tables.entries.updAfter r.rowid c.record.fmtim reads.digest })
        (E := fun _ _ => True) rfl rfl hclosed' (fun _ => ⟨hclosed', rfl⟩) (fun _ _ _ => trivial)
      have hexecutes : Executes (· = Stmt.updAfter r.rowid c.record.fmtim reads.digest)
        (env.sql.execute (.updAfter r.rowid c.record.fmtim reads.digest)) := Executes.execute rfl
      simp only [if_true, wp_bind, wp_pure, hdigest]
      apply wp_withDb
      refine (hwrite.and (hexecutes db')).mono ?_ (fun _ _ _ => trivial)
      rintro _ db'' ⟨⟨hclosed'', htables''⟩, hadds''⟩
      refine hstep.step (P := (· = c.path)) hcs hsub hclosed'' ?_ ?_ rfl
      · rw [htables'']
        exact .updAfter hparent' hrow' _ _
      · refine hadds''.mono ?_
        rintro _ rfl
        rw [← htables''] at hstores
        exact .inr ⟨c, List.mem_append_right _ List.mem_cons_self, reads, _, hstores, rfl⟩

/-- The record of an entry whose directory is stored. -/
theorem wp_recordEntry_traced (h : env.sql.LosesNothing) (hbelow : c.Below disk [root])
    (htraced : Traced root cs sh.user) (hnew : ∀ c' ∈ cs, c'.path ≠ c.path) {parentId : Nat}
    (hparent : sh.user.db.tables.entries.idAt c.parts = some parentId) :
    wp (recordEntry env disk (c.reader indexReader) parentId)
      (fun _ sh' => Traced root (cs ++ [c]) sh'.user) (fun _ _ => True) sh := by
  have hparams : entryParams parentId c.name (c.reader indexReader).isDir
      (c.reader indexReader).fsize fileBlockSize = c.record.params parentId := rfl
  have hreaderDir : (c.reader indexReader).isDir = c.record.isDir := rfl
  have hreaderMtim : (c.reader indexReader).fmtim = c.record.fmtim := rfl
  have hroot : (c.record.params parentId).parentId = 0 →
      c.record.params parentId = (Record.root root).params 0 := by
    intro hzero
    have hnil : sh.user.db.tables.entries.idAt [] = some parentId := congrArg some hzero.symm
    exact absurd (Entries.idAt_injective hparent hnil) hbelow.parts_ne_nil
  have hsub : ∀ c' ∈ cs, c' ∈ cs ++ [c] := fun c' hc' => List.mem_append_left _ hc'
  unfold recordEntry
  rw [Call.reader_name, Call.reader_pathName hbelow.parts_ne_nil indexReader, Call.reader_isReg, hparams,
    hreaderDir, hreaderMtim, wp_bind]
  apply wp_withDb
  refine (wp_updateEntry_keeps h htraced.closed hroot hparent env.modifiedOnly c.record.fmtim).mono ?_
    (fun _ _ _ => trivial)
  rintro ⟨entryId, mtim⟩ db' ⟨hclosed, hadds, hkeeps, r, hrow, rfl⟩
  have hstep : Traced root cs { sh.user with db := db' } := htraced.plain hnew hclosed hkeeps hadds
  have hparent' : db'.tables.entries.idAt c.parts = some parentId := hkeeps.ids.idAt hparent
  cases hdir : c.record.isDir with
  | true =>
      have hid : db'.tables.entries.idAt c.path = some r.rowid :=
        Entries.idAt_of_rowAt (Entries.rowAt_of_find hparent' hrow)
      have hemplaced := (hstep.emplace hbelow.inTree_path hid).mono hsub
      simp only [if_true, wp_bind, wp_convert]
      split
      · simpa [setParents] using hemplaced
      · trivial
  | false =>
      simp only [Bool.false_eq_true, if_false, wp_bind, wp_pure, wp_ite, Bool.not_false, true_and]
      split
      · have hhash := @wp_hash_traced env disk root cs c { sh with user := { sh.user with db := db' } } h
          hbelow.has hdir hstep hnew parentId r hparent' hrow
        simpa only [wp_bind, wp_ite, wp_pure] using hhash
      · exact hstep.mono hsub

/-- The callback behind the conversions. -/
theorem wp_locate_traced (h : env.sql.LosesNothing) (hbelow : c.Below disk [root])
    (htraced : Traced root cs sh.user) (hnew : ∀ c' ∈ cs, c'.path ≠ c.path)
    (hroot : ∀ c' ∈ cs, c'.path ≠ [root]) :
    wp (parentIdOf env (c.reader indexReader) >>= recordEntry env disk (c.reader indexReader))
      (fun _ sh' => Traced root (cs ++ [c]) sh'.user) (fun _ _ => True) sh := by
  unfold parentIdOf
  simp only [wp_bind, wp_get, Call.reader_path]
  cases hlookup : sh.user.parents.lookup (joinPath c.parts) with
  | some parentId =>
      have hid := htraced.known c.parts hbelow.inTree_parts parentId hlookup
      simp only [wp_pure]
      exact wp_recordEntry_traced h hbelow htraced hnew hid
  | none =>
      simp only [Call.reader_level, wp_ite, wp_throw, wp_bind, wp_pure, setParents, wp_modify]
      split
      · trivial
      · next hlevel =>
          -- the root is recorded before the first entry
          have hparts : c.parts = [root] := hbelow.parts_of_level hlevel
          have hjoin : joinPath [root] = root := joinPath_singleton _
          have hparams : entryParams 0 root true 0 0 = (Record.root root).params 0 := rfl
          have hparent : sh.user.db.tables.entries.idAt [] = some 0 := Entries.idAt_nil _
          have hself : (Record.root root).params 0 = (Record.root root).params 0 := rfl
          have hupdate := wp_updateEntry_keeps h htraced.closed (fun _ => hself) hparent
            env.modifiedOnly 0
          rw [hparts, hjoin, hparams]
          apply wp_withDb
          refine hupdate.mono ?_ (fun _ _ _ => trivial)
          rintro ⟨id, mtim⟩ db' ⟨hclosed, hadds, hkeeps, r, hrow, rfl⟩
          have hid : db'.tables.entries.idAt ([] ++ [root]) = some r.rowid :=
            Entries.idAt_of_rowAt (Entries.rowAt_of_find (Entries.idAt_nil _) hrow)
          have hstep := (htraced.plain hroot hclosed hkeeps hadds).emplace ⟨⟨[], rfl, by simp⟩⟩ hid
          rw [hjoin] at hstep
          exact wp_recordEntry_traced h hbelow hstep hnew (hparts ▸ hid)

/-- The step lemma: the callback keeps the statements backed. -/
theorem wp_manipulator_traced (h : env.sql.LosesNothing) (hbelow : c.Below disk [root])
    (htraced : Traced root cs sh.user) (hnew : ∀ c' ∈ cs, c'.path ≠ c.path)
    (hroot : ∀ c' ∈ cs, c'.path ≠ [root]) :
    wp (manipulator env disk (c.reader indexReader))
      (fun _ sh' => Traced root (cs ++ [c]) sh'.user) (fun _ _ => True) sh := by
  have hsub : ∀ c' ∈ cs, c' ∈ cs ++ [c] := fun c' hc' => List.mem_append_left _ hc'
  have hcounted : Traced root cs { sh.user with calls := sh.user.calls + 1 } :=
    ⟨htraced.closed, htraced.known, htraced.statements⟩
  have haccess : ∀ mode, disk.access (joinPath c.path) mode = if c.node.accessible then 0 else -1 :=
    hbelow.has.access
  unfold manipulator
  simp only [wp_bind, wp_get, wp_set, wp_ite, wp_modify, wp_pure, indexEntry_eq, wp_convert,
    Call.reader_pathName hbelow.parts_ne_nil indexReader, haccess]
  cases env.shutdown sh.user.calls with
  | true => exact hcounted.mono hsub
  | false =>
      cases c.node.accessible with
      | false => exact hcounted.mono hsub
      | true =>
          simp only [Bool.false_eq_true, if_false, if_true, ne_eq, not_true_eq_false]
          split
          · split
            · rw [← wp_bind]
              exact wp_locate_traced h hbelow hcounted hnew hroot
            · trivial
          · trivial

/-! ## The walk -/

/-- What holds of the world where the walk ends without an exception. -/
def WalkEnd.Leaves (P : World → Prop) : WalkEnd World → Prop
  | .through _ w | .returned w => P w
  | .threw _ _ => True

/-- The run lemma, by induction on the events: the walk keeps the statements backed. -/
theorem runEvents_traced (h : env.sql.LosesNothing) {es : List Event}
    (hbelow : ∀ c ∈ cs ++ callsOf es, c.Below disk [root])
    (hpaths : (cs ++ callsOf es).Pairwise (fun c c' => c.path ≠ c'.path)) (lastError : U32) {w : World}
    (htraced : Traced root cs w) :
    (runEvents indexReader (manipulator env disk) es lastError w).Leaves
      (Traced root (cs ++ callsOf es)) := by
  induction es generalizing cs lastError w with
  | nil => exact htraced.mono fun c hc => List.mem_append_left _ hc
  | cons e es ih =>
      cases e with
      | call c =>
          have hsplit : cs ++ callsOf (.call c :: es) = (cs ++ [c]) ++ callsOf es := by simp
          rw [hsplit] at hbelow hpaths ⊢
          obtain ⟨hmade, -, -⟩ := List.pairwise_append.mp hpaths
          obtain ⟨-, -, hlast⟩ := List.pairwise_append.mp hmade
          have hcs : ∀ c' ∈ cs ++ [c], c'.Below disk [root] :=
            fun c' hc' => hbelow c' (List.mem_append_left _ hc')
          have hwp : wp (manipulator env disk (c.reader indexReader))
              (fun _ sh' => Traced root (cs ++ [c]) sh'.user) (fun _ _ => True) ⟨false, lastError, w⟩ :=
            wp_manipulator_traced h (hcs c (List.mem_append_right _ List.mem_cons_self)) htraced
              (fun c' hc' => hlast c' hc' c List.mem_cons_self)
              (fun c' hc' => (hcs c' (List.mem_append_left _ hc')).path_ne_root)
          simp only [runEvents, Event.run]
          cases hm : manipulator env disk (c.reader indexReader) ⟨false, lastError, w⟩ with
          | error e sh => trivial
          | ok _ sh =>
              have hbehind := wp_of_ok (Q := fun _ sh' => Traced root (cs ++ [c]) sh'.user) hwp hm
              have hthen := ih hbelow hpaths sh.lastError hbehind
              cases habort : sh.abort with
              | false =>
                  simp only [habort, Bool.false_eq_true, if_false, WalkEnd.bind]
                  exact hthen
              | true =>
                  simp only [habort, if_true, Call.stop_bind]
                  rcases c.stop_cases sh.lastError sh.user with hstop | ⟨e, hstop⟩
                  · rw [hstop]
                    exact hbehind.mono fun c' hc' => List.mem_append_left _ hc'
                  · rw [hstop]
                    trivial
      | openFailed path err =>
          simp only [runEvents, Event.run]
          split
          · exact htraced.mono fun c hc => List.mem_append_left _ hc
          · trivial
      | endOfDirectory path err =>
          simp only [runEvents, Event.run]
          split
          · exact ih hbelow hpaths err htraced
          · trivial

/-! ## The run -/

/-- The sweep keeps what the callbacks have stored. -/
theorem Tables.Stores.sweep {t : Tables} {c : Call} {reads : FileReads} {r : EntryRow}
    (h : t.Stores c reads r) :
    { r with isAlive := 1 } ∈ t.sweep.entries.rows ∧ ∀ (i : Nat) chunk, reads.chunks[i]? = some chunk →
      ⟨r.rowid, (i + 1 : Nat), some (cdc512 (zeroPad fileBlockSize chunk))⟩ ∈
        t.sweep.blocksDigests.rows := by
  have hmem := Entries.rowAt_mem h.row
  constructor
  · exact Entries.mem_sweep.mpr ⟨r, hmem, h.alive, rfl⟩
  · intro i chunk hi
    refine Blocks.mem_deleteEntries.mpr ⟨h.blocks i chunk hi, fun hunmarked => ?_⟩
    obtain ⟨r', hmem', halive, hid⟩ := Entries.mem_unmarked.mp hunmarked
    obtain rfl := t.entries.rowidUnique.eq_of_key hmem' hmem hid
    exact halive h.alive

end Spacenet
