-- SUMMARY: What the callback of `reindex` does to the tables and to `parents`, and the proof that the program does it.
import Spacenet.Effect.Entry
import Spacenet.Effect.Blocks
import Spacenet.WalkCalls

/-!
# The effect of the callback

A callback records its entry: the row of the entry, and for a regular file that
is hashed its block rows and its digest. The first callback records the root
before. An exception leaves a table in which the last record is made in part.
-/

namespace Spacenet

open Prog

/-! ## Records -/

/-- What the callback records of an entry. `reads` is `none` for a directory and for a file that
does not open. -/
structure Record where
  parts : List WString
  name : WString
  isDir : Bool
  fsize : U64
  blockSize : Nat
  fmtim : U64
  reads : Option FileReads

namespace Record

/-- The path of the entry. -/
def path (rec : Record) : List WString := rec.parts ++ [rec.name]

def params (rec : Record) (parentId : Nat) : EntryParams :=
  entryParams parentId rec.name rec.isDir rec.fsize rec.blockSize

/-- The record of the root directory: no mtime, and no sizes. -/
def root (path : WString) : Record where
  parts := []
  name := path
  isDir := true
  fsize := 0
  blockSize := 0
  fmtim := 0
  reads := none

/-- The test whether the digests are calculated, with the mtime stored before. -/
def hashed (modifiedOnly : Bool) (rec : Record) (mtim : U64) : Prop :=
  rec.isDir = false ∧ (¬modifiedOnly ∨ mtim ≠ rec.fmtim)

instance (modifiedOnly : Bool) (rec : Record) (mtim : U64) : Decidable (rec.hashed modifiedOnly mtim) := by
  unfold hashed
  infer_instance

/-- The blocks that the record reads from the file. -/
def chunks (modifiedOnly : Bool) (rec : Record) (mtim : U64) : List Blob :=
  if rec.hashed modifiedOnly mtim then
    match rec.reads with
    | none => []
    | some reads => reads.chunks
  else []

/-- The digest that the record stores: that of a file which is hashed and read to its end. -/
def digest (modifiedOnly : Bool) (rec : Record) (mtim : U64) : Option Blob :=
  if rec.hashed modifiedOnly mtim then
    match rec.reads with
    | none => none
    | some reads =>
        if reads.failed then none
        else some (fileContext rec.blockSize reads.chunks Cdc512.init).finish.digest
  else none

end Record

/-- What the callback records. -/
def Call.record (c : Call) : Record where
  parts := c.parts
  name := c.name
  isDir := (c.reader indexReader).isDir
  fsize := (c.reader indexReader).fsize
  blockSize := fileBlockSize
  fmtim := (c.reader indexReader).fmtim
  reads :=
    match c.node with
    | .file info => info.content
    | .dir _ _ => none

namespace Tables

variable (policy : RowidPolicy) (modifiedOnly : Bool)

/-- The tables behind a callback that records `rec` in the directory `parentId`. -/
def recordAt (parentId : Nat) (rec : Record) (t : Tables) : Tables :=
  let mtim := t.entries.mtimeOf parentId rec.name
  let id := t.entryId policy modifiedOnly (rec.params parentId) rec.fmtim
  let t' := (t.updateEntry policy modifiedOnly (rec.params parentId) rec.fmtim).updateBlocks id
    rec.blockSize (rec.chunks modifiedOnly mtim) 1
  match rec.digest modifiedOnly mtim with
  | none => t'
  | some digest => { t' with entries := t'.entries.updAfter id rec.fmtim digest }

/-- The tables inside of the callback: nothing is recorded yet, or the row is; while the file is
hashed the block rows of the entry may differ. -/
inductive Partly (parentId : Nat) (rec : Record) (t : Tables) : Tables → Prop where
  | before : Partly parentId rec t t
  | entry : Partly parentId rec t (t.updateEntry policy modifiedOnly (rec.params parentId) rec.fmtim)
  | blocks {t' : Tables} (hashed : rec.hashed modifiedOnly (t.entries.mtimeOf parentId rec.name))
      (same : SameButBlocks (t.entryId policy modifiedOnly (rec.params parentId) rec.fmtim)
        (t.updateEntry policy modifiedOnly (rec.params parentId) rec.fmtim) t') :
      Partly parentId rec t t'

end Tables

/-! ## The program -/

variable {env : Env} {disk : Disk} {c : Call}

/-- The world with other tables. -/
def World.put (w : World) (t : Tables) (log : List (Stmt × ResultCode)) : World :=
  { w with db := w.db.put t log }

theorem wp_withDb {α : Type} {m : DbM α} {Q : α → Shared World → Prop}
    {E : Error → Shared World → Prop} {sh : Shared World}
    (h : wp m (fun a db => Q a { sh with user := { sh.user with db := db } })
      (fun e db => E e { sh with user := { sh.user with db := db } }) sh.user.db) :
    wp (withDb m) Q E sh := by
  unfold withDb
  rw [wp_onPart]
  exact h

/-- The part of the callback behind the lambda that finds `parent_id`. -/
def recordEntry (env : Env) (disk : Disk) (dr : DirectoryReader) (parentId : Nat) :
    EStateM Error (Shared World) Unit := do
  let (entryId, mtim) ← withDb (updateEntry env.sql env.modifiedOnly
    (entryParams parentId dr.name dr.isDir dr.fsize fileBlockSize) dr.fmtim)
  if dr.isDir then
    convert dr.pathName
    setParents (emplace dr.pathName entryId)
  if dr.isReg ∧ (¬env.modifiedOnly ∨ mtim ≠ dr.fmtim) then
    let (complete, ctx) ←
      withDb (updateBlocks env.sql disk Cdc512.init dr.pathName entryId fileBlockSize)
    if complete then
      let _ ← withDb (env.sql.execute (.updAfter entryId dr.fmtim ctx.finish.digest))

theorem indexEntry_eq (env : Env) (disk : Disk) (dr : DirectoryReader) :
    indexEntry env disk dr = (do
      convert dr.name
      convert dr.path
      parentIdOf env dr >>= recordEntry env disk dr) := rfl

@[simp] theorem wp_convert (text : WString) (Q : Unit → Shared World → Prop) (E : Error → Shared World → Prop)
    (sh : Shared World) :
    wp (convert text) Q E sh ↔ if WellFormed text then Q () sh else E badConversion sh := by
  unfold convert
  split <;> simp

/-- The texts that the callback converts are UTF-16. -/
def Call.Converts (c : Call) : Prop := WellFormed c.name ∧ WellFormed (joinPath c.parts)

instance (c : Call) : Decidable c.Converts := inferInstanceAs (Decidable (_ ∧ _))

/-- With its directory the path of an entry is UTF-16. -/
theorem Call.Converts.path {c : Call} (h : c.Converts) (hparts : c.parts ≠ []) : WellFormed (joinPath c.path) := by
  rw [Call.path, joinPath_append_name hparts]
  exact (h.2.append (by decide)).append h.1

/-- The parents behind the record of an entry. -/
def Record.parentsBehind (rec : Record) (path : WString) (id : Nat) (parents : List (WString × Nat)) :
    List (WString × Nat) :=
  if rec.isDir then emplace path id parents else parents

theorem Call.reader_name : (c.reader indexReader).name = c.name := by
  cases hnode : c.node <;> simp [Call.reader, DirectoryReader.publish, Node.findData, hnode]

theorem Call.reader_isReg : (c.reader indexReader).isReg = !c.record.isDir := by
  cases hnode : c.node <;>
    simp [Call.reader, Call.record, DirectoryReader.publish, Node.findData, hnode]

/-- A file of the tree opens with what the record says that it gives. -/
theorem Call.sopen (hhas : disk.Has c.path c.node) (hfile : c.record.isDir = false) :
    disk.sopen (joinPath c.path) = c.record.reads := by
  cases hnode : c.node with
  | file info =>
      rw [hhas.sopen info hnode]
      simp only [Call.record, hnode]
  | dir info entries =>
      simp [Call.record, Call.reader, DirectoryReader.publish, Node.findData, hnode] at hfile

variable {Q : Unit → Shared World → Prop} {E : Error → Shared World → Prop} {sh : Shared World}

/-- The shared state with another connection and other parents. -/
def Shared.index (sh : Shared World) (db : Db) (parents : List (WString × Nat)) : Shared World :=
  { sh with user := { sh.user with db := db, parents := parents } }

theorem wp_recordEntry (h : env.sql.Throws) (hhas : disk.Has c.path c.node) (hparts : c.parts ≠ [])
    (hconverts : c.Converts) {parentId : Nat} (hdb : sh.user.db.snapshot = none)
    (hok : ∀ log, Q () (sh.index
      (sh.user.db.put (sh.user.db.tables.recordAt env.sql.policy env.modifiedOnly parentId c.record) log)
      (c.record.parentsBehind (joinPath c.path)
        (sh.user.db.tables.entryId env.sql.policy env.modifiedOnly (c.record.params parentId)
          c.record.fmtim) sh.user.parents)))
    (herr : ∀ e t log parents, ¬env.sql.NoFault →
      sh.user.db.tables.Partly env.sql.policy env.modifiedOnly parentId c.record t →
      E e (sh.index (sh.user.db.put t log) parents)) :
    wp (recordEntry env disk (c.reader indexReader) parentId) Q E sh := by
  have hparams : entryParams parentId c.name (c.reader indexReader).isDir
      (c.reader indexReader).fsize fileBlockSize = c.record.params parentId := rfl
  have hreaderDir : (c.reader indexReader).isDir = c.record.isDir := rfl
  have hreaderMtim : (c.reader indexReader).fmtim = c.record.fmtim := rfl
  unfold recordEntry
  rw [Call.reader_name, Call.reader_pathName hparts indexReader, Call.reader_isReg, hparams, hreaderDir,
    hreaderMtim, wp_bind]
  refine wp_withDb (wp_updateEntry h.losesNothing hdb ?_ (fun _ _ hnot => absurd h hnot) ?_ ?_)
  · intro log
    have hmtim : (c.record.params parentId).parentId = parentId := rfl
    have hname : (c.record.params parentId).name = c.record.name := rfl
    simp only [Tables.recordAt, Record.chunks, Record.digest, Record.parentsBehind] at hok
    cases hdir : c.record.isDir with
    | true =>
        have hnot : ¬c.record.hashed env.modifiedOnly
            (sh.user.db.tables.entries.mtimeOf parentId c.record.name) := by
          simp [Record.hashed, hdir]
        simp only [if_neg hnot, hdir, if_true] at hok
        simp only [if_true, wp_bind, wp_convert, if_pos (hconverts.path hparts)]
        exact hok log
    | false =>
        simp only [hdir, Bool.false_eq_true, if_false] at hok
        simp only [Bool.not_false, true_and, Bool.false_eq_true, if_false, wp_ite, wp_pure, hmtim, hname]
        split
        · next hhash =>
            have hhashed : c.record.hashed env.modifiedOnly
                (sh.user.db.tables.entries.mtimeOf parentId c.record.name) := ⟨hdir, hhash⟩
            simp only [if_pos hhashed] at hok
            simp only [wp_bind]
            refine wp_withDb (wp_updateBlocks h.losesNothing hdb ?_ ?_ ?_)
            · intro hclosed
              rw [Call.sopen hhas hdir] at hclosed
              rw [hclosed] at hok
              exact hok log
            · intro reads log hopen
              rw [Call.sopen hhas hdir] at hopen
              simp only [hopen] at hok
              cases hfailed : reads.failed with
              | true =>
                  simp only [hfailed, if_true] at hok
                  exact hok log
              | false =>
                  simp only [hfailed, Bool.false_eq_true, if_false] at hok
                  simp only [Bool.not_false, if_true, wp_bind, wp_pure]
                  refine wp_withDb (h.losesNothing.wp_execute rfl rfl hdb (fun log => hok log) ?_)
                  intro e log hfault
                  exact herr e _ log sh.user.parents hfault
                    (.blocks hhashed (Tables.updateBlocks_sameButBlocks _ _ _ (Nat.le_refl 1) _))
            · intro e t log hfault hsame
              exact herr e t log sh.user.parents hfault (.blocks hhashed hsame)
        · next hhash =>
            have hnot : ¬c.record.hashed env.modifiedOnly
                (sh.user.db.tables.entries.mtimeOf parentId c.record.name) := fun hh => hhash hh.2
            simp only [if_neg hnot] at hok
            exact hok log
  · intro e log hfault
    exact herr e _ log sh.user.parents hfault .before
  · intro e log hfault
    exact herr e _ log sh.user.parents hfault .entry

/-! ## The callback -/

/-- The tables and the map `parents`. -/
structure Index where
  tables : Tables
  parents : List (WString × Nat)

namespace Index

variable (policy : RowidPolicy) (modifiedOnly : Bool)

/-- The index behind the record of the entry of `c` in the directory `parentId`. -/
def enter (c : Call) (parentId : Nat) (idx : Index) : Index where
  tables := idx.tables.recordAt policy modifiedOnly parentId c.record
  parents := c.record.parentsBehind (joinPath c.path)
    (idx.tables.entryId policy modifiedOnly (c.record.params parentId) c.record.fmtim) idx.parents

/-- The index behind the record of the root directory. -/
def enterRoot (path : WString) (idx : Index) : Index where
  tables := idx.tables.recordAt policy modifiedOnly 0 (.root path)
  parents := emplace path
    (idx.tables.entryId policy modifiedOnly ((Record.root path).params 0) 0) idx.parents

/-- The index behind the callback for an accessible entry, `none` when `parents` does not have the
directory. -/
def locate (c : Call) (idx : Index) : Option Index :=
  match idx.parents.lookup (joinPath c.parts) with
  | some parentId => some (idx.enter policy modifiedOnly c parentId)
  | none =>
      if c.parts.length > 1 then none
      else
        let parentId := idx.tables.entryId policy modifiedOnly
          ((Record.root (joinPath c.parts)).params 0) 0
        some ((idx.enterRoot policy modifiedOnly (joinPath c.parts)).enter policy modifiedOnly c
          parentId)

/-- The index behind the callback `c`, `none` when it throws: its texts are no UTF-16, or `parents` does
not have the directory. -/
def visit (c : Call) (idx : Index) : Option Index :=
  if c.node.accessible then
    if c.Converts then idx.locate policy modifiedOnly c else none
  else some idx

/-- What a callback that does not throw makes of the index. -/
inductive Visit (c : Call) (idx : Index) : Index → Prop where
  | skipped (inaccessible : ¬c.node.accessible = true) : Visit c idx idx
  | below (accessible : c.node.accessible = true) (converts : c.Converts) {parentId : Nat}
      (known : idx.parents.lookup (joinPath c.parts) = some parentId) :
      Visit c idx (idx.enter policy modifiedOnly c parentId)
  | first (accessible : c.node.accessible = true) (converts : c.Converts)
      (unknown : idx.parents.lookup (joinPath c.parts) = none) (level : ¬c.parts.length > 1) :
      Visit c idx ((idx.enterRoot policy modifiedOnly (joinPath c.parts)).enter policy modifiedOnly c
        (idx.tables.entryId policy modifiedOnly ((Record.root (joinPath c.parts)).params 0) 0))

variable {policy modifiedOnly} in
theorem visit_cases {c : Call} {idx idx' : Index} (h : idx.visit policy modifiedOnly c = some idx') :
    Visit policy modifiedOnly c idx idx' := by
  unfold visit at h
  split at h
  · next hacc =>
      split at h
      · next hconverts =>
          unfold locate at h
          split at h
          · next hlookup =>
              obtain rfl := Option.some.inj h
              exact .below hacc hconverts hlookup
          · next hlookup =>
              split at h
              · cases h
              · next hlevel =>
                  obtain rfl := Option.some.inj h
                  exact .first hacc hconverts hlookup hlevel
      · cases h
  · next hacc =>
      obtain rfl := Option.some.inj h
      exact .skipped hacc

/-- The tables inside of the callback `c`. -/
def Inside (c : Call) (idx : Index) (t : Tables) : Prop :=
  t = idx.tables ∨ c.node.accessible = true ∧
    ((∃ parentId, idx.parents.lookup (joinPath c.parts) = some parentId ∧
      idx.tables.Partly policy modifiedOnly parentId c.record t) ∨
    (idx.parents.lookup (joinPath c.parts) = none ∧ c.parts.length ≤ 1 ∧
      (idx.tables.Partly policy modifiedOnly 0 (.root (joinPath c.parts)) t ∨
        (idx.enterRoot policy modifiedOnly (joinPath c.parts)).tables.Partly policy modifiedOnly
          (idx.tables.entryId policy modifiedOnly ((Record.root (joinPath c.parts)).params 0) 0)
          c.record t)))

end Index

/-- The index of the world. -/
def World.index (w : World) : Index := ⟨w.db.tables, w.parents⟩

/-- The world behind a callback that was not told to shut down. -/
def World.behind (w : World) (idx : Index) (log : List (Stmt × ResultCode)) : World where
  db := w.db.put idx.tables log
  parents := idx.parents
  calls := w.calls + 1

theorem Call.reader_path : (c.reader indexReader).path = joinPath c.parts := by
  cases hnode : c.node <;> simp [Call.reader, DirectoryReader.publish, Node.findData, hnode]

theorem Call.reader_level : (c.reader indexReader).level = c.parts.length := by
  cases hnode : c.node <;> simp [Call.reader, DirectoryReader.publish, Node.findData, hnode]

/-- The callback behind the conversions. -/
theorem wp_locate (h : env.sql.Throws) (hhas : disk.Has c.path c.node) (hparts : c.parts ≠ [])
    (hconverts : c.Converts) (hacc : c.node.accessible = true) (hdb : sh.user.db.snapshot = none)
    (hok : ∀ idx log, sh.user.index.locate env.sql.policy env.modifiedOnly c = some idx →
      Q () (sh.index (sh.user.db.put idx.tables log) idx.parents))
    (hunknown : ∀ log, sh.user.index.locate env.sql.policy env.modifiedOnly c = none →
      E (.runtimeError "Undefined behavior".toList) (sh.index (sh.user.db.put sh.user.db.tables log) sh.user.parents))
    (herr : ∀ e sh' t log, ¬env.sql.NoFault →
      sh.user.index.Inside env.sql.policy env.modifiedOnly c t →
      sh'.user.db = sh.user.db.put t log → E e sh') :
    wp (parentIdOf env (c.reader indexReader) >>= recordEntry env disk (c.reader indexReader)) Q E sh := by
  unfold parentIdOf
  simp only [wp_bind, wp_get, Call.reader_path]
  cases hlookup : sh.user.parents.lookup (joinPath c.parts) with
  | some parentId =>
      have hlocate : sh.user.index.locate env.sql.policy env.modifiedOnly c =
          some (sh.user.index.enter env.sql.policy env.modifiedOnly c parentId) := by
        simp only [Index.locate, World.index, hlookup]
      simp only [wp_pure]
      refine wp_recordEntry h hhas hparts hconverts hdb (fun log => hok _ log hlocate) ?_
      intro e t log parents hfault hpartly
      exact herr e _ t log hfault (.inr ⟨hacc, .inl ⟨parentId, hlookup, hpartly⟩⟩) rfl
  | none =>
      simp only [Call.reader_level, wp_ite, wp_throw, wp_bind, wp_pure, setParents, wp_modify]
      split
      · next hlevel =>
          have hlocate : sh.user.index.locate env.sql.policy env.modifiedOnly c = none := by
            simp only [Index.locate, World.index, hlookup, hlevel, if_true]
          exact hunknown sh.user.db.log hlocate
      · next hlevel =>
          have hlocate : sh.user.index.locate env.sql.policy env.modifiedOnly c =
              some ((sh.user.index.enterRoot env.sql.policy env.modifiedOnly
                (joinPath c.parts)).enter env.sql.policy env.modifiedOnly c
                (sh.user.db.tables.entryId env.sql.policy env.modifiedOnly
                  ((Record.root (joinPath c.parts)).params 0) 0)) := by
            simp only [Index.locate, World.index, hlookup, hlevel, if_false]
          have hlevel' : c.parts.length ≤ 1 := Nat.le_of_not_lt hlevel
          refine wp_withDb (wp_updateEntry h.losesNothing hdb ?_ (fun _ _ hnot => absurd h hnot) ?_ ?_)
          · intro log
            refine wp_recordEntry h hhas hparts hconverts hdb (fun log => hok _ log hlocate) ?_
            intro e t log parents hfault hpartly
            exact herr e _ t log hfault (.inr ⟨hacc, .inr ⟨hlookup, hlevel', .inr hpartly⟩⟩) rfl
          · intro e log hfault
            exact herr e _ _ log hfault (.inl rfl) rfl
          · intro e log hfault
            exact herr e _ _ log hfault
              (.inr ⟨hacc, .inr ⟨hlookup, hlevel', .inl .entry⟩⟩) rfl

/-- The callback makes its visit. It throws where a text does not convert or `parents` does not have the
directory, and where a statement does. -/
theorem wp_manipulator (h : env.sql.Throws) (hhas : disk.Has c.path c.node) (hparts : c.parts ≠ [])
    (hdb : sh.user.db.snapshot = none) (hrun : env.shutdown sh.user.calls = false)
    (hok : ∀ idx log, sh.user.index.visit env.sql.policy env.modifiedOnly c = some idx →
      Q () ⟨sh.abort, env.register sh.user.calls sh.lastError, sh.user.behind idx log⟩)
    (hunknown : ∀ e sh' log, sh.user.index.visit env.sql.policy env.modifiedOnly c = none →
      sh'.user.db = sh.user.db.put sh.user.db.tables log → E e sh')
    (herr : ∀ e sh' t log, ¬env.sql.NoFault →
      sh.user.index.Inside env.sql.policy env.modifiedOnly c t →
      sh'.user.db = sh.user.db.put t log → E e sh') :
    wp (manipulator env disk (c.reader indexReader)) Q E sh := by
  have haccess : ∀ mode, disk.access (joinPath c.path) mode = if c.node.accessible then 0 else -1 :=
    hhas.access
  unfold manipulator
  simp only [wp_bind, wp_get, wp_set, wp_ite, wp_modify, hrun, Bool.false_eq_true, if_false,
    Call.reader_pathName hparts indexReader, haccess, indexEntry_eq]
  cases hacc : c.node.accessible with
  | false =>
      simp only [Bool.false_eq_true, if_false, ne_eq, Int.reduceNeg, reduceCtorEq, not_false_eq_true,
        if_true]
      have hvisit : sh.user.index.visit env.sql.policy env.modifiedOnly c = some sh.user.index := by
        simp only [Index.visit, hacc, Bool.false_eq_true, if_false]
      exact hok _ sh.user.db.log hvisit
  | true =>
      simp only [if_true, ne_eq, not_true_eq_false, if_false, wp_convert, Call.reader_name, Call.reader_path]
      by_cases hconverts : c.Converts
      · have hvisit : sh.user.index.visit env.sql.policy env.modifiedOnly c =
            sh.user.index.locate env.sql.policy env.modifiedOnly c := by
          rw [Index.visit, if_pos hacc, if_pos hconverts]
        rw [hvisit] at hok hunknown
        rw [if_pos hconverts.1, if_pos hconverts.2, ← wp_bind]
        exact wp_locate h hhas hparts hconverts hacc hdb hok
          (fun log hlocate => hunknown _ _ log hlocate rfl) herr
      · have hvisit : sh.user.index.visit env.sql.policy env.modifiedOnly c = none := by
          rw [Index.visit, if_pos hacc, if_neg hconverts]
        split
        · next hname =>
            rw [if_neg fun hpath => hconverts ⟨hname, hpath⟩]
            exact hunknown _ _ sh.user.db.log hvisit rfl
        · exact hunknown _ _ sh.user.db.log hvisit rfl

end Spacenet
