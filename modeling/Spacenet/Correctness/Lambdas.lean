-- SUMMARY: The lambdas of `reindex` over prepared statements do to the connection what they do with the statements executed by value.
import Spacenet.Prepared
import Spacenet.Sqlite.Binding

/-!
# The lambdas over prepared statements

Every execution is preceded by a `bind` of all the parameters of its statement,
so neither the state in which the statement was left nor the memory behind its
old pointers has a say in what is executed.
-/

namespace Spacenet

open Prog Session Statement Unicode

/-- The programs have left one connection. -/
def Sees (s : Session) (db : Db) : Prop := s.db = db

/-- The programs have one value and have left one connection. -/
def Agrees {α : Type} (a : α) (s : Session) (b : α) (db : Db) : Prop := a = b ∧ s.db = db

theorem keepingExceptions_rwp {α : Type} {m : SessionM α} {m' : DbM α} {s : Session} {db : Db} (hs : s.db = db)
    (h : rwp m m' Agrees Sees s db) :
    rwp (keepingExceptions m) (Db.keepingExceptions m') Agrees Sees s db := by
  subst hs
  refine rwp_bind (rwp_atScopeExit (h.mono ?_ ?_))
  · rintro a s' b db' ⟨hab, hdb⟩
    exact ⟨hab, congrArg (fun db => db.withExceptions s.db.exceptions) hdb⟩
  · intro s' db' hdb
    exact congrArg (fun db => db.withExceptions s.db.exceptions) hdb

theorem setExceptions_rwp {exceptions : Bool} {Q : Unit → Session → Unit → Db → Prop} {E : Session → Db → Prop}
    {s : Session} {db : Db} (h : Q () { s with db := s.db.withExceptions exceptions } () (db.withExceptions exceptions)) :
    rwp (Session.setExceptions exceptions) (Db.setExceptions exceptions) Q E s db := h

namespace Prepared

variable {sql : Sqlite}

/-! ## update_block_digest -/

theorem bindBlock_eq (s : Session) {entryId blkNo : Nat} {digest : Blob} {h : Handle} {stmt : Stmt}
    (hh : h = .blkIns ∧ stmt = .blkIns entryId blkNo digest ∨ h = .blkUpd ∧ stmt = .blkUpd entryId blkNo digest) :
    ∃ s', bindBlock entryId blkNo digest h s = .ok () s' ∧ s'.db = s.db ∧ Bound h stmt (s'.vm h) := by
  have hparams : Param.entryId ∈ h.params ∧ Param.blockNo ∈ h.params ∧ Param.digest ∈ h.params := by
    rcases hh with ⟨rfl, -⟩ | ⟨rfl, -⟩ <;> decide
  obtain ⟨hentry, hblock, hdigest⟩ := hparams
  refine ⟨((s.bound h .entryId ⟨.integer entryId, false⟩).bound h .blockNo ⟨.integer blkNo, false⟩).bound h .digest
    ⟨.blob digest, true⟩, ?_, rfl, bound_progress .., ?_⟩
  · rw [bindBlock, bind_of_ok (bind_eq _ _ _ hentry), bind_of_ok (bind_eq _ _ _ hblock),
      bind_of_ok (bind_eq _ _ _ hdigest)]
    rfl
  · rcases hh with ⟨rfl, rfl⟩ | ⟨rfl, rfl⟩
    · simp only [Handle.stmt, value_bound, hentry, hblock, hdigest]
      rfl
    · simp only [Handle.stmt, value_bound, hentry, hblock, hdigest]
      rfl

theorem updateBlockDigest_rwp (s : Session) (entryId blkNo : Nat) (digest : Blob) :
    rwp (updateBlockDigest sql entryId blkNo digest) (Spacenet.updateBlockDigest sql entryId blkNo digest)
      Agrees Sees s s.db := by
  obtain ⟨s₁, hbind, hdb, hbound⟩ := bindBlock_eq s (.inl ⟨rfl, rfl⟩)
  refine rwp_left hbind (keepingExceptions_rwp hdb ?_)
  rw [← hdb]
  refine rwp_bind (setExceptions_rwp ?_)
  refine rwp_bind ((execute_rwp (s := { s₁ with db := s₁.db.withExceptions false }) hbound).mono ?_ (fun _ _ h => h))
  rintro rc s₂ rc' db₂ ⟨rfl, rfl, -⟩
  refine rwp_ite (by rw [Rc.step.injEq]) (fun _ => ?_) (fun _ => rwp_pure ⟨rfl, rfl⟩)
  refine rwp_bind (setExceptions_rwp ?_)
  obtain ⟨s₃, hbind', hdb', hbound'⟩ := bindBlock_eq { s₂ with db := s₂.db.withExceptions true } (.inr ⟨rfl, rfl⟩)
  refine rwp_left hbind' ?_
  change rwp _ _ _ _ s₃ (Session.db { s₂ with db := s₂.db.withExceptions true })
  rw [← hdb']
  refine rwp_bind ((execute_rwp hbound').mono ?_ (fun _ _ h => h))
  rintro rc s₄ rc' db₄ ⟨-, hdb₄, -⟩
  exact rwp_pure ⟨rfl, hdb₄⟩

/-! ## update_blocks -/

theorem updateBlocksLoop_rwp (platform : Platform) (entryId blockSize : Nat) (failed : Bool) (chunks : List Blob)
    (blkNo : Nat) (ctx : Cdc512) (s : Session) :
    rwp (updateBlocksLoop sql platform entryId blockSize failed chunks blkNo ctx)
      (Spacenet.updateBlocksLoop sql entryId blockSize failed chunks blkNo ctx) Agrees Sees s s.db := by
  induction chunks generalizing blkNo ctx s with
  | nil => exact rwp_pure ⟨rfl, rfl⟩
  | cons chunk chunks ih =>
      refine rwp_bind ((updateBlockDigest_rwp s entryId blkNo _).mono ?_ (fun _ _ h => h))
      rintro - s₁ - db₁ ⟨-, rfl⟩
      refine rwp_left (bind_eq _ _ _ (by decide)) (rwp_left (bind_eq _ _ _ (by decide)) ?_)
      have hbound : Bound .blkDel (.blkDel entryId blkNo)
          (((s₁.bound .blkDel .entryId ⟨.integer entryId, false⟩).bound .blkDel .blockNo
            ⟨.integer blkNo, false⟩).vm .blkDel) := by
        refine ⟨bound_progress .., ?_⟩
        simp (disch := decide) only [Handle.stmt, value_bound]
        rfl
      refine rwp_bind ((execute_rwp hbound).mono ?_ (fun _ _ h => h))
      rintro rc s₂ rc' db₂ ⟨-, rfl, -⟩
      refine rwp_left rfl ?_
      exact ih _ _ _

theorem updateBlocks_rwp (platform : Platform) (disk : Disk) (ctx : Cdc512) (pathName : WString)
    (entryId blockSize : Nat) (s : Session) :
    rwp (updateBlocks sql platform disk ctx pathName entryId blockSize)
      (Spacenet.updateBlocks sql disk ctx pathName entryId blockSize) Agrees Sees s s.db := by
  unfold updateBlocks Spacenet.updateBlocks
  cases disk.sopen pathName with
  | none => exact rwp_pure ⟨rfl, rfl⟩
  | some reads => exact updateBlocksLoop_rwp platform entryId blockSize reads.failed reads.chunks 1 ctx s

/-! ## update_entry -/

/-- The values that `bind` of `update_entry` binds are the parameters of the entry. -/
theorem ofValues_eq {value : Param → Value} {parentId : Nat} {text : Text} {isDir : Bool} {fileSize : U64}
    {blockSize : Nat} (hparent : value .parentId = .integer parentId) (hname : value .name = .text (utf8 text))
    (hdir : value .isDir = if isDir then .integer 1 else .null)
    (hsize : value .fileSize = if fileSize = 0 then .null else .integer fileSize.toNat)
    (hblock : value .blockSize = if blockSize = 0 then .null else .integer blockSize) :
    EntryParams.ofValues value = some (entryParams parentId (utf16 text) isDir fileSize blockSize) := by
  have hdir' : (value .isDir).nullable = some (if isDir then some 1 else none) := by
    rw [hdir]
    cases isDir <;> rfl
  have hsize' : (value .fileSize).nullable = some (if fileSize = 0 then none else some fileSize.toNat) := by
    rw [hsize]
    split <;> rfl
  have hblock' : (value .blockSize).nullable = some (if blockSize = 0 then none else some blockSize) := by
    rw [hblock]
    split <;> rfl
  simp only [EntryParams.ofValues, hparent, hname, ofUtf8_utf8, hdir', hsize', hblock', Option.bind_eq_bind,
    Option.bind_some, entryParams]
  congr 2
  · cases isDir <;> rfl
  · split
    · rfl
    · rw [Option.map_some, BitVec.ofNat_toNat, BitVec.setWidth_eq]

theorem bindEntry_eq (s : Session) {parentId : Nat} {text : Text} {isDir : Bool} {fileSize : U64} {blockSize : Nat}
    {h : Handle} {stmt : Stmt}
    (hh : h = .ins ∧ stmt = .ins (entryParams parentId (utf16 text) isDir fileSize blockSize) ∨
      h = .upd ∧ stmt = .upd (entryParams parentId (utf16 text) isDir fileSize blockSize)) :
    ∃ s', bindEntry parentId (utf8 text) isDir fileSize blockSize h s = .ok () s' ∧ s'.db = s.db ∧
      Bound h stmt (s'.vm h) ∧ s'.vm .sel = s.vm .sel := by
  have hparams : h.params = [.parentId, .name, .isDir, .fileSize, .blockSize] ∧ Handle.sel ≠ h := by
    rcases hh with ⟨rfl, -⟩ | ⟨rfl, -⟩ <;> exact ⟨rfl, nofun⟩
  obtain ⟨hparams, hne⟩ := hparams
  have hmem : Param.parentId ∈ h.params ∧ Param.name ∈ h.params ∧ Param.isDir ∈ h.params ∧
      Param.fileSize ∈ h.params ∧ Param.blockSize ∈ h.params := by
    rw [hparams]
    decide
  obtain ⟨hparent, hname, hdir, hsize, hblock⟩ := hmem
  refine ⟨((((s.bound h .parentId ⟨.integer parentId, false⟩).bound h .name ⟨.text (utf8 text), true⟩).bound h .isDir
    ⟨if isDir then .integer 1 else .null, false⟩).bound h .fileSize
    ⟨if fileSize = 0 then .null else .integer fileSize.toNat, false⟩).bound h .blockSize
    ⟨if blockSize = 0 then .null else .integer blockSize, false⟩, ?_, rfl, ⟨bound_progress .., ?_⟩, ?_⟩
  · rw [bindEntry, bind_of_ok (bind_eq _ _ _ hparent), bind_of_ok (bind_eq _ _ _ hname),
      bind_of_ok (bind_eq _ _ _ hdir), bind_of_ok (bind_eq _ _ _ hsize), bind_of_ok (bind_eq _ _ _ hblock)]
    rfl
  · have hvalues : EntryParams.ofValues (h.value (((((s.bound h .parentId ⟨.integer parentId, false⟩).bound h .name
        ⟨.text (utf8 text), true⟩).bound h .isDir ⟨if isDir then .integer 1 else .null, false⟩).bound h .fileSize
        ⟨if fileSize = 0 then .null else .integer fileSize.toNat, false⟩).bound h .blockSize
        ⟨if blockSize = 0 then .null else .integer blockSize, false⟩ |>.vm h)) =
          some (entryParams parentId (utf16 text) isDir fileSize blockSize) := by
      apply ofValues_eq <;> simp [value_bound, hparent, hname, hdir, hsize, hblock]
    rcases hh with ⟨rfl, rfl⟩ | ⟨rfl, rfl⟩
    · rw [Handle.stmt, hvalues]
      rfl
    · rw [Handle.stmt, hvalues]
      rfl
  · rw [bound_vm_of_ne _ hne, bound_vm_of_ne _ hne, bound_vm_of_ne _ hne, bound_vm_of_ne _ hne, bound_vm_of_ne _ hne]

/-- `st_sel` can be stepped, and it looks for the entry `name` of `parent_id` then. -/
structure Selects (parentId : Nat) (name : WString) (vm : Vdbe) : Prop where
  notAtRow : ∀ column, vm.progress ≠ .row column
  stmt_eq : Handle.sel.stmt (Handle.sel.value vm) = some (.sel parentId name)

theorem standing_of_ne_row (h : Handle) (stmt : Stmt) {rc : ResultCode} (hrc : rc ≠ .row) (db : Db) :
    ∃ c, Sqlite.standing h stmt rc db = .halted c := by
  unfold Sqlite.standing
  split
  · exact absurd rfl hrc
  · exact absurd rfl hrc
  · exact ⟨_, rfl⟩
  · exact ⟨_, rfl⟩

theorem Selects.stepped {s : Session} {parentId : Nat} {name : WString} {rc : ResultCode}
    (hselects : Selects parentId name (s.vm .sel)) (hrc : rc ≠ .row) (db : Db) :
    Selects parentId name ((s.stepped .sel (.sel parentId name) rc db).vm .sel) := by
  obtain ⟨c, hc⟩ := standing_of_ne_row .sel (.sel parentId name) hrc db
  rw [Session.stepped, setVm_vm]
  refine ⟨fun column => ?_, hselects.stmt_eq⟩
  rw [hc]
  exact nofun

/-- The columns of a statement that has ended read as 0. -/
theorem columnInt64_stepped (s : Session) (parentId : Nat) (name : WString) {rc : ResultCode} (hrc : rc ≠ .row)
    (db : Db) (c : Column) : ((s.stepped .sel (.sel parentId name) rc db).vm .sel).columnInt64 c = 0 := by
  obtain ⟨c, hc⟩ := standing_of_ne_row .sel (.sel parentId name) hrc db
  rw [Session.stepped, setVm_vm, Vdbe.columnInt64, hc]

/-- `get_id_mtim` with the variables still 0. An entry that is found has another id, and otherwise the
statement can be stepped once more. -/
theorem getIdMtim_rwp {s : Session} {parentId : Nat} {name : WString} (hselects : Selects parentId name (s.vm .sel))
    (mtim : U64) :
    rwp (getIdMtim sql 0 mtim) (Spacenet.getIdMtim sql parentId name 0 mtim)
      (fun a s' b db' => a.1 = b.1 ∧ (mtim = 0 → a = b) ∧ s'.db = db' ∧
        (a.1 = 0 → Selects parentId name (s'.vm .sel)))
      Sees s s.db := by
  refine rwp_bind ((step_rwp hselects.notAtRow hselects.stmt_eq).mono ?_ (fun _ _ h => h))
  rintro rc s' rc' db' ⟨rfl, rfl, -, hrow⟩
  by_cases hrc : rc = .row
  · subst hrc
    obtain ⟨r, hr⟩ := hrow parentId name rfl rfl
    have hvm : (s.stepped .sel (.sel parentId name) .row db').vm .sel =
        { s.vm .sel with progress := .row r.column } := by
      rw [stepped, setVm_vm, Sqlite.standing, hr]
    have hmtime : BitVec.ofNat 64 (((s.stepped .sel (.sel parentId name) .row db').vm .sel).columnInt64 .mtime) =
        r.mtime.getD 0 := by
      rw [hvm]
      cases hmtime : r.mtime with
      | none => simp [Vdbe.columnInt64, EntryRow.column, hmtime]
      | some mtime => simp [Vdbe.columnInt64, EntryRow.column, hmtime]
    have hid : ((s.stepped .sel (.sel parentId name) .row db').vm .sel).columnInt64 .rowid = r.rowid := by
      rw [hvm]
      rfl
    have hne : r.rowid ≠ 0 := Nat.ne_of_gt (db'.tables.entries.rowidPos r (Entries.find_eq_some.mp hr).1)
    simp only [rwp, bind_get, hr]
    exact ⟨hid, fun _ => Prod.ext hid hmtime, rfl, fun hzero => absurd (hid.symm.trans hzero) hne⟩
  · have hkept := hselects.stepped hrc db'
    have hcolumn := columnInt64_stepped s parentId name hrc db'
    -- Behind a failure the iterator is true, and the columns of no row read as 0.
    have hfailed : ∀ x : Nat × U64, x = (0, mtim) → rwp
        (do let id ← getInt64 .sel .rowid; let mtim ← getInt64 .sel .mtime; pure (id, BitVec.ofNat 64 mtim))
        (pure x : DbM (Nat × U64))
        (fun a s' b db' => a.1 = b.1 ∧ (mtim = 0 → a = b) ∧ s'.db = db' ∧ (a.1 = 0 → Selects parentId name (s'.vm .sel)))
        Sees (s.stepped .sel (.sel parentId name) rc db') db' := by
      rintro _ rfl
      refine ⟨hcolumn _, fun hmtim => ?_, rfl, fun _ => hkept⟩
      exact Prod.ext (hcolumn _) ((congrArg (BitVec.ofNat 64) (hcolumn _)).trans hmtim.symm)
    cases rc with
    | row => exact absurd rfl hrc
    | done => exact ⟨rfl, fun _ => rfl, rfl, fun _ => hkept⟩
    | constraintUnique => exact hfailed _ rfl
    | error code => exact hfailed _ rfl

/-- The end of `update_entry`: the id of an entry that was not there before. -/
theorem findInserted_rwp (sql : Sqlite) {s : Session} {parentId : Nat} {name : WString} (id : Nat) (mtim : U64)
    (hselects : id = 0 → Selects parentId name (s.vm .sel)) :
    rwp (if id = 0 then do let (id, _) ← getIdMtim sql id mtim; pure (id, mtim) else pure (id, mtim))
      (if id = 0 then do let (id, _) ← Spacenet.getIdMtim sql parentId name id mtim; pure (id, mtim)
        else pure (id, mtim))
      Agrees Sees s s.db := by
  refine rwp_ite Iff.rfl (fun hid => ?_) (fun _ => rwp_pure ⟨rfl, rfl⟩)
  subst hid
  refine rwp_bind ((getIdMtim_rwp (hselects rfl) mtim).mono ?_ (fun _ _ h => h))
  rintro ⟨id, _⟩ s' ⟨id', _⟩ db' ⟨hid, -, hdb, -⟩
  exact rwp_pure ⟨Prod.ext hid rfl, hdb⟩

/-- The row of the entry is inserted, or it is rewritten where it is there. Then the programs go on with
`k` and `k'`. -/
theorem insert_rwp {α : Type} (s : Session) (parentId : Nat) (text : Text) (isDir : Bool) (fileSize : U64)
    (blockSize : Nat) {k : SessionM α} {k' : DbM α}
    (hk : ∀ s', s'.vm .sel = s.vm .sel → rwp k k' Agrees Sees s' s'.db) :
    rwp (do
        setExceptions false
        bindEntry parentId (utf8 text) isDir fileSize blockSize .ins
        let rc ← execute sql .ins
        if rc = .step .constraintUnique then
          setExceptions true
          bindEntry parentId (utf8 text) isDir fileSize blockSize .upd
          let _ ← execute sql .upd
          k
        else k)
      (do
        Db.setExceptions false
        let rc ← sql.execute (.ins (entryParams parentId (utf16 text) isDir fileSize blockSize))
        if rc = .constraintUnique then
          Db.setExceptions true
          let _ ← sql.execute (.upd (entryParams parentId (utf16 text) isDir fileSize blockSize))
          k'
        else k')
      Agrees Sees s s.db := by
  refine rwp_bind (setExceptions_rwp ?_)
  obtain ⟨s₁, hbind, hdb, hbound, hsel⟩ := bindEntry_eq { s with db := s.db.withExceptions false } (.inl ⟨rfl, rfl⟩)
  refine rwp_left hbind ?_
  change rwp _ _ _ _ s₁ (Session.db { s with db := s.db.withExceptions false })
  rw [← hdb]
  refine rwp_bind ((execute_rwp hbound).mono ?_ (fun _ _ h => h))
  rintro rc s₂ rc' db₂ ⟨rfl, rfl, hframe⟩
  have hsel₂ : s₂.vm .sel = s.vm .sel := (hframe .sel nofun).trans hsel
  refine rwp_ite (by rw [Rc.step.injEq]) (fun _ => ?_) (fun _ => hk s₂ hsel₂)
  refine rwp_bind (setExceptions_rwp ?_)
  obtain ⟨s₃, hbind', hdb', hbound', hsel'⟩ := bindEntry_eq { s₂ with db := s₂.db.withExceptions true } (.inr ⟨rfl, rfl⟩)
  refine rwp_left hbind' ?_
  change rwp _ _ _ _ s₃ (Session.db { s₂ with db := s₂.db.withExceptions true })
  rw [← hdb']
  refine rwp_bind ((execute_rwp hbound').mono ?_ (fun _ _ h => h))
  rintro rc s₄ rc' db₄ ⟨-, rfl, hframe'⟩
  exact hk s₄ ((hframe' .sel nofun).trans (hsel'.trans hsel₂))

/-- The row of the entry is touched. Then the programs go on with `k` and `k'`. -/
theorem touch_rwp {α : Type} (s : Session) (id : Nat) {k : SessionM α} {k' : DbM α}
    (hk : ∀ s', s'.vm .sel = s.vm .sel → rwp k k' Agrees Sees s' s'.db) :
    rwp (do
        let _ ← bind .updTouch .id (.integer id) false
        let _ ← execute sql .updTouch
        k)
      (do
        let _ ← sql.execute (.updTouch id)
        k')
      Agrees Sees s s.db := by
  refine rwp_left (bind_eq _ _ _ (by decide)) ?_
  have hbound : Bound .updTouch (.updTouch id) ((s.bound .updTouch .id ⟨.integer id, false⟩).vm .updTouch) := by
    refine ⟨bound_progress .., ?_⟩
    simp (disch := decide) only [Handle.stmt, value_bound]
    rfl
  refine rwp_bind ((execute_rwp hbound).mono ?_ (fun _ _ h => h))
  rintro rc s' rc' db' ⟨-, rfl, hframe⟩
  exact hk s' (hframe .sel nofun)

theorem updateEntry_rwp (s : Session) (modifiedOnly : Bool) (parentId : Nat) (text : Text) (isDir : Bool)
    (mtime fileSize : U64) (blockSize : Nat) :
    rwp (updateEntry sql modifiedOnly parentId (utf8 text) isDir mtime fileSize blockSize)
      (Spacenet.updateEntry sql modifiedOnly (entryParams parentId (utf16 text) isDir fileSize blockSize) mtime)
      Agrees Sees s s.db := by
  refine keepingExceptions_rwp rfl ?_
  refine rwp_left (bind_eq _ _ _ (by decide)) (rwp_left (bind_eq _ _ _ (by decide)) ?_)
  have hselects : Selects parentId (utf16 text)
      (((s.bound .sel .parentId ⟨.integer parentId, false⟩).bound .sel .name ⟨.text (utf8 text), true⟩).vm .sel) := by
    refine ⟨fun column => ?_, ?_⟩
    · rw [bound_progress]
      exact nofun
    · simp (disch := decide) only [Handle.stmt, value_bound]
      simp [ofUtf8_utf8]
  refine rwp_bind (setExceptions_rwp ?_)
  refine rwp_bind ((getIdMtim_rwp (s := Session.mk (s.db.withExceptions true) _) hselects 0).mono ?_ (fun _ _ h => h))
  rintro ⟨id, mtim⟩ s₁ b db₁ ⟨-, hsame, rfl, hagain⟩
  obtain rfl := hsame rfl
  have htail := fun s' (hsel : Session.vm s' .sel = s₁.vm .sel) =>
    findInserted_rwp sql id mtim fun hid => hsel ▸ hagain hid
  exact rwp_ite Iff.rfl (fun _ => touch_rwp s₁ id htail)
    (fun _ => insert_rwp s₁ parentId text isDir fileSize blockSize htail)

end Prepared

end Spacenet
