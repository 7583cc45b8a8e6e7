-- SUMMARY: The states of the database inside of a run: the programs of `reindex` keep the references between the rows in all of them.
import Spacenet.Sqlite.Trace
import Spacenet.Effect.Coherent

/-!
# The states inside of a run

Each program is executed with what its statements need: a marked directory for
the entries written, and a marked row for their blocks. The callback has both,
since `parents` has the ids of marked directories.
-/

namespace Spacenet

open Prog

/-- The content that the connection sees and the content to go back to are coherent. -/
def Content.Coherent (c : Content) : Prop := c.1.Coherent ∧ ∀ t, c.2 = some t → t.Coherent

namespace Content.Coherent

variable {c : Content}

theorem committed (h : c.Coherent) : c.committed.Coherent := by
  obtain ⟨t, snapshot⟩ := c
  cases snapshot with
  | none => exact h.1
  | some t₀ => exact h.2 t₀ rfl

/-- BEGIN, COMMIT and ROLLBACK. -/
theorem run (h : c.Coherent) {s : Stmt} (hs : s.autocommits = false) (policy : RowidPolicy) :
    Content.Coherent (s.run policy c.1 c.2).2 := by
  obtain ⟨t, snapshot⟩ := c
  have hclosed : Content.Coherent (t, none) := ⟨h.1, nofun⟩
  cases s with
  | begin immediate =>
      cases snapshot with
      | none => exact ⟨h.1, fun t' ht' => Option.some.inj ht' ▸ h.1⟩
      | some t₀ => exact h
  | commit =>
      cases snapshot with
      | none => exact h
      | some t₀ => exact hclosed
  | rollback =>
      cases snapshot with
      | none => exact h
      | some t₀ => exact ⟨h.2 t₀ rfl, nofun⟩
  | _ => cases hs

end Content.Coherent

/-- Outside of a transaction, with coherent tables in which the ids `K` are marked. -/
structure Db.Ready (K : Nat → Prop) (db : Db) : Prop where
  closed : db.snapshot = none
  coherent : db.tables.Coherent
  marked : ∀ id, K id → db.tables.entries.MarkedDir id

namespace Db.Ready

variable {K K' : Nat → Prop} {db db' : Db}

theorem content (h : db.Ready K) : db.content.Coherent := by
  refine ⟨h.coherent, fun t ht => ?_⟩
  have hnone : db.snapshot = some t := ht
  rw [h.closed] at hnone
  cases hnone

theorem of_content (h : db.Ready K) (hcontent : db'.content = db.content) : db'.Ready K := by
  obtain ⟨htables, hsnapshot⟩ := Prod.mk.inj hcontent
  refine ⟨hsnapshot.trans h.closed, ?_, ?_⟩
  · rw [htables]
    exact h.coherent
  · rw [htables]
    exact h.marked

theorem mono (h : db.Ready K) (hK : ∀ id, K' id → K id) : db.Ready K' :=
  ⟨h.closed, h.coherent, fun id hid => h.marked id (hK id hid)⟩

/-- One more id. -/
theorem add (h : db.Ready K) {id : Nat} (hid : db.tables.entries.MarkedDir id) :
    db.Ready (fun id' => K id' ∨ id' = id) := by
  refine ⟨h.closed, h.coherent, ?_⟩
  rintro id' (hold | rfl)
  · exact h.marked id' hold
  · exact hid

end Db.Ready

/-- A program of the connection goes through coherent states, and returns with `Q`. -/
abbrev Coherently (sql : Sqlite) {α : Type} (m : DbM α) (Q : α → Db → Prop) (db : Db) : Prop :=
  Guards sql.policy Content.Coherent (fun db => db) m Q db

section

variable {sql : Sqlite} {K : Nat → Prop} {db : Db}

/-- An admissible statement of the callback. -/
theorem guards_execute (hpolicy : sql.policy = .maxPlusOne) (h : db.Ready K) {s : Stmt}
    (hadmissible : s.Admissible db.tables) (hs : s.autocommits = true) (hdelete : s ≠ .deleteEntries)
    (hreset : s ≠ .resetAlive) :
    Coherently sql (sql.execute s) (fun _ db' => db'.Ready K) db := by
  have hcoherent := hadmissible.coherent h.coherent
  have hgrows := hadmissible.grows h.coherent hdelete hreset
  rw [← hpolicy] at hcoherent hgrows
  have hexec : ∀ log, (db.put (s.exec sql.policy db.tables).2 log).Ready K := fun _ =>
    ⟨h.closed, hcoherent, fun id hid => hgrows.markedDir (h.marked id hid)⟩
  have hend : wp (sql.execute s) (fun _ db' => db'.Ready K) (fun _ _ => True) db := by
    refine Sqlite.wp_execute_run ?_ (fun _ _ _ _ _ _ _ => trivial) ?_ (fun _ _ _ => trivial)
      (fun _ => trivial)
    · intro rc t snapshot log hrun _
      rw [Stmt.run_autocommits hs] at hrun
      obtain ⟨rfl, rfl, rfl⟩ := hrun
      exact hexec log
    · intro code log _ _
      exact h.of_content rfl
  have hkeeps : Content.Coherent (s.run sql.policy db.tables db.snapshot).2 := by
    rw [Stmt.run_autocommits hs]
    exact (hexec []).content
  exact ((Guards.execute h.content hkeeps).and hend).mono fun _ _ h => h.2

theorem guards_setExceptions (h : db.Ready K) (exceptions : Bool) :
    Coherently sql (Db.setExceptions exceptions) (fun _ db' => db'.Ready K) db :=
  .modify h.content rfl rfl (h.of_content rfl)

/-- `get_id_mtim` gives the id of the row, when there is one. -/
theorem guards_getIdMtim (hpolicy : sql.policy = .maxPlusOne) (h : db.Ready K) (parentId : Nat)
    (name : WString) (mtim : U64) :
    Coherently sql (getIdMtim sql parentId name 0 mtim)
      (fun found db' => db'.Ready K ∧ (found.1 ≠ 0 →
        ∃ r ∈ db'.tables.entries.rows, r.rowid = found.1 ∧ r.parentId = parentId)) db := by
  apply Guards.bind
  refine (guards_execute hpolicy h (s := .sel parentId name) trivial rfl nofun nofun).mono ?_
  intro rc db' hready
  apply Guards.bind
  apply Guards.get hready.content
  split
  · next r hfind =>
      apply Guards.pure hready.content
      obtain ⟨hr, hparent, -⟩ := Entries.find_eq_some.mp hfind
      exact ⟨hready, fun _ => ⟨r, hr, rfl, hparent⟩⟩
  · exact .pure hready.content ⟨hready, fun hne => absurd rfl hne⟩

/-- `update_entry` in a marked directory leaves a marked row of its entry. -/
theorem guards_updateEntry (hpolicy : sql.policy = .maxPlusOne) (hthrows : sql.Throws)
    (h : db.Ready K) (params : EntryParams) (hdir : K params.parentId) (modifiedOnly : Bool)
    (mtime : U64) :
    Coherently sql (updateEntry sql modifiedOnly params mtime)
      (fun found db' => db'.Ready K ∧ found.1 ≠ 0 ∧ db'.tables.entries.MarkedDir found.1) db := by
  have hend : wp (updateEntry sql modifiedOnly params mtime)
      (fun found db' => found.1 ≠ 0 ∧ db'.tables.entries.MarkedDir found.1) (fun _ _ => True) db := by
    refine wp_updateEntry hthrows.losesNothing h.closed ?_ (fun _ _ hnot => absurd hthrows hnot)
      (fun _ _ _ => trivial) (fun _ _ _ => trivial)
    intro log
    have hrow : db.tables.entries.rowOf sql.policy modifiedOnly params mtime ∈
      (db.tables.updateEntry sql.policy modifiedOnly params mtime).entries.rows := Entries.rowOf_mem
    exact ⟨Nat.ne_of_gt (Entries.rowidPos _ _ hrow), .inr ⟨_, hrow, rfl, Entries.rowOf_isAlive⟩⟩
  have hstates : Coherently sql (updateEntry sql modifiedOnly params mtime)
      (fun _ db' => db'.Ready K) db := by
    apply Guards.keepingExceptions
    apply Guards.bind
    refine (guards_setExceptions h true).mono fun _ db₁ h₁ => ?_
    apply Guards.bind
    refine (guards_getIdMtim hpolicy h₁ _ _ 0).mono ?_
    rintro ⟨id, mtim⟩ db₂ ⟨h₂, hfound⟩
    have hrest : ∀ db', db'.Ready K → Coherently sql (if id = 0 then do
        let found ← getIdMtim sql params.parentId params.name id mtim
        pure (found.1, mtim)
      else pure (id, mtim)) (fun _ db' => (db'.withExceptions db.exceptions).Ready K) db' := by
      intro db' h'
      apply Guards.ite
      · rintro rfl
        apply Guards.bind
        refine (guards_getIdMtim hpolicy h' _ _ mtim).mono ?_
        rintro found db'' ⟨h'', -⟩
        exact .pure h''.content (h''.of_content rfl)
      · intro _
        exact .pure h'.content (h'.of_content rfl)
    apply Guards.ite
    · rintro ⟨-, hne, -⟩
      obtain ⟨r, hr, hid, hparent⟩ := hfound hne
      apply Guards.bind
      refine (guards_execute hpolicy h₂ (s := .updTouch id) ?_ rfl nofun nofun).mono
        fun _ db' h' => hrest db' h'
      refine ⟨r, hr, hid, ?_⟩
      rw [hparent]
      exact h₂.marked _ hdir
    · intro _
      apply Guards.bind
      refine (guards_setExceptions h₂ false).mono fun _ db₃ h₃ => ?_
      apply Guards.bind
      refine (guards_execute hpolicy h₃ (s := .ins params) (h₃.marked _ hdir) rfl nofun nofun).mono ?_
      intro rc db₄ h₄
      apply Guards.ite
      · intro _
        apply Guards.bind
        refine (guards_setExceptions h₄ true).mono fun _ db₅ h₅ => ?_
        apply Guards.bind
        refine (guards_execute hpolicy h₅ (s := .upd params) (h₅.marked _ hdir) rfl nofun nofun).mono ?_
        exact fun _ db' h' => hrest db' h'
      · intro _
        exact hrest db₄ h₄
  exact hstates.and hend

/-- `update_block_digest` for a marked row. -/
theorem guards_updateBlockDigest (hpolicy : sql.policy = .maxPlusOne) (h : db.Ready K) {entryId : Nat}
    (hne : entryId ≠ 0) (hid : K entryId) (blkNo : Nat) (digest : Blob) :
    Coherently sql (updateBlockDigest sql entryId blkNo digest) (fun _ db' => db'.Ready K) db := by
  apply Guards.keepingExceptions
  apply Guards.bind
  refine (guards_setExceptions h false).mono fun _ db₁ h₁ => ?_
  apply Guards.bind
  refine (guards_execute hpolicy h₁ (s := .blkIns entryId blkNo digest) ⟨hne, h₁.marked _ hid⟩ rfl
    nofun nofun).mono ?_
  intro rc db₂ h₂
  apply Guards.ite
  · intro _
    apply Guards.bind
    refine (guards_setExceptions h₂ true).mono fun _ db₃ h₃ => ?_
    apply Guards.bind
    refine (guards_execute hpolicy h₃ (s := .blkUpd entryId blkNo digest) trivial rfl nofun nofun).mono ?_
    exact fun _ _ h₄ => .pure h₄.content (h₄.of_content rfl)
  · intro _
    exact .pure h₂.content (h₂.of_content rfl)

theorem guards_updateBlocksLoop (hpolicy : sql.policy = .maxPlusOne) {entryId : Nat} (hne : entryId ≠ 0)
    (hid : K entryId) (blockSize : Nat) (failed : Bool) (chunks : List Blob) (blkNo : Nat) (fileCtx : Cdc512)
    (h : db.Ready K) :
    Coherently sql (updateBlocksLoop sql entryId blockSize failed chunks blkNo fileCtx)
      (fun _ db' => db'.Ready K) db := by
  induction chunks generalizing blkNo fileCtx db with
  | nil => exact .pure h.content h
  | cons chunk chunks ih =>
      apply Guards.bind
      refine (guards_updateBlockDigest hpolicy h hne hid _ _).mono fun _ db₁ h₁ => ?_
      apply Guards.bind
      refine (guards_execute hpolicy h₁ (s := .blkDel entryId blkNo) trivial rfl nofun nofun).mono ?_
      exact fun _ _ h₂ => ih _ _ h₂

theorem guards_updateBlocks (hpolicy : sql.policy = .maxPlusOne) (h : db.Ready K) {entryId : Nat}
    (hne : entryId ≠ 0) (hid : K entryId) (disk : Disk) (fileCtx : Cdc512) (pathName : WString)
    (blockSize : Nat) :
    Coherently sql (updateBlocks sql disk fileCtx pathName entryId blockSize)
      (fun _ db' => db'.Ready K) db := by
  unfold updateBlocks
  split
  · exact .pure h.content h
  · exact guards_updateBlocksLoop hpolicy hne hid _ _ _ _ _ h

end

/-! ## The callback -/

/-- The connection is ready for the ids of `K` and of `parents`. -/
def World.Ready (K : Nat → Prop) (w : World) : Prop :=
  w.db.Ready fun id => K id ∨ ∃ path, w.parents.lookup path = some id

/-- A program of the world goes through coherent states. -/
abbrev World.Coherently (sql : Sqlite) {α : Type} (m : EStateM Error (Shared World) α)
    (Q : α → Shared World → Prop) (sh : Shared World) : Prop :=
  Guards sql.policy Content.Coherent (fun sh => sh.user.db) m Q sh

section

variable {env : Env} {disk : Disk} {K : Nat → Prop} {sh : Shared World}

theorem World.Ready.emplace {w : World} (h : w.Ready K) {id : Nat} (hid : K id) (path : WString) :
    World.Ready K { w with parents := emplace path id w.parents } := by
  refine ⟨h.closed, h.coherent, ?_⟩
  intro id' hid'
  apply h.marked
  rcases hid' with hK | ⟨path', hlookup⟩
  · exact .inl hK
  · rcases lookup_emplace_cases hlookup with hknown | ⟨-, rfl⟩
    · exact .inr ⟨path', hknown⟩
    · exact .inl hid

theorem guards_withDb {α : Type} {m : DbM α} {Q : α → Shared World → Prop}
    (h : Coherently env.sql m (fun a db => Q a { sh with user := { sh.user with db := db } })
      sh.user.db) :
    World.Coherently env.sql (withDb m) Q sh := by
  refine Guards.onPart ?_ ?_ h
  · rfl
  · exact fun _ => rfl

theorem guards_setParents {Q : Unit → Shared World → Prop} (h : sh.user.Ready K)
    (f : List (WString × Nat) → List (WString × Nat))
    (hQ : Q () { sh with user := { sh.user with parents := f sh.user.parents } }) :
    World.Coherently env.sql (setParents f) Q sh :=
  .modify h.content rfl rfl hQ

theorem guards_convert {Q : Unit → Shared World → Prop} (h : sh.user.Ready K) (text : WString) (hQ : Q () sh) :
    World.Coherently env.sql (convert text) Q sh := by
  apply Guards.ite
  · exact fun _ => .pure h.content hQ
  · exact fun _ => .throw h.content

/-- The lambda that finds `parent_id` gives a marked directory. -/
theorem guards_parentIdOf (hpolicy : env.sql.policy = .maxPlusOne) (hthrows : env.sql.Throws)
    (h : sh.user.Ready fun _ => False) (dr : DirectoryReader) :
    World.Coherently env.sql (parentIdOf env dr) (fun id sh' => sh'.user.Ready (· = id)) sh := by
  apply Guards.bind
  refine Guards.get (s := sh) h.content ?_
  split
  · next id hlookup =>
      apply Guards.pure h.content
      apply h.mono
      rintro id' (rfl | hknown)
      · exact .inr ⟨_, hlookup⟩
      · exact .inr hknown
  · apply Guards.ite
    · intro _
      exact .throw h.content
    · intro _
      apply Guards.bind
      apply guards_withDb
      refine (guards_updateEntry hpolicy hthrows (h.add (.inl rfl)) (entryParams 0 dr.path true 0 0)
        (.inr rfl) _ _).mono ?_
      rintro ⟨id, mtim⟩ db' ⟨h', -, hid⟩
      have hready : World.Ready (· = id) { sh.user with db := db' } := by
        apply (h'.add hid).mono
        rintro id' (rfl | hknown)
        · exact .inr rfl
        · exact .inl (.inl (.inr hknown))
      have hparents := hready.emplace rfl dr.path
      apply Guards.bind
      apply guards_setParents hready
      exact .pure hparents.content hparents

/-- The record of an entry in a marked directory. -/
theorem guards_recordEntry (hpolicy : env.sql.policy = .maxPlusOne) (hthrows : env.sql.Throws)
    (disk : Disk) (dr : DirectoryReader) {parentId : Nat} (h : sh.user.Ready (· = parentId)) :
    World.Coherently env.sql (recordEntry env disk dr parentId)
      (fun _ sh' => sh'.user.Ready fun _ => False) sh := by
  apply Guards.bind
  apply guards_withDb
  refine (guards_updateEntry hpolicy hthrows h
    (entryParams parentId dr.name dr.isDir dr.fsize fileBlockSize) (.inl rfl) _ _).mono ?_
  rintro ⟨entryId, mtim⟩ db' ⟨h', hne, hid⟩
  have hready : World.Ready (· = entryId) { sh.user with db := db' } := by
    apply (h'.add hid).mono
    rintro id' (rfl | hknown)
    · exact .inr rfl
    · exact .inl (.inr hknown)
  have hforget : ∀ {w : World}, w.Ready (· = entryId) → w.Ready fun _ => False :=
    fun h => h.mono fun _ hid => hid.imp_left False.elim
  -- the part behind the `emplace` of a directory
  have hrest : ∀ sh' : Shared World, sh'.user.Ready (· = entryId) →
      World.Coherently env.sql (do
        if dr.isReg ∧ (¬env.modifiedOnly ∨ mtim ≠ dr.fmtim) then
          let hashed ←
            withDb (updateBlocks env.sql disk Cdc512.init dr.pathName entryId fileBlockSize)
          if hashed.1 then
            let _ ← withDb (env.sql.execute (.updAfter entryId dr.fmtim hashed.2.finish.digest)))
        (fun _ sh'' => sh''.user.Ready fun _ => False) sh' := by
    intro sh' hsh'
    apply Guards.ite
    · intro _
      apply Guards.bind
      apply guards_withDb
      refine (guards_updateBlocks hpolicy hsh' hne (.inl rfl) disk _ _ _).mono ?_
      rintro ⟨complete, ctx⟩ db₁ h₁
      apply Guards.ite
      · intro _
        apply Guards.bind
        apply guards_withDb
        refine (guards_execute hpolicy h₁ (s := .updAfter entryId dr.fmtim ctx.finish.digest)
          (h₁.marked _ (.inl rfl)) rfl nofun nofun).mono ?_
        exact fun _ _ h₂ => .pure h₂.content (hforget h₂)
      · intro _
        exact .pure h₁.content (hforget h₁)
    · intro _
      exact .pure hsh'.content (hforget hsh')
  apply Guards.ite
  · intro _
    apply Guards.bind
    apply guards_convert hready
    apply Guards.bind
    apply guards_setParents hready
    exact hrest _ (hready.emplace rfl dr.pathName)
  · intro _
    exact hrest _ hready

/-- The part of the callback behind `access`. -/
theorem guards_indexEntry (hpolicy : env.sql.policy = .maxPlusOne) (hthrows : env.sql.Throws)
    (disk : Disk) (dr : DirectoryReader) (h : sh.user.Ready fun _ => False) :
    World.Coherently env.sql (indexEntry env disk dr) (fun _ sh' => sh'.user.Ready fun _ => False) sh := by
  rw [indexEntry_eq]
  apply Guards.bind
  apply guards_convert h
  apply Guards.bind
  apply guards_convert h
  apply Guards.bind
  refine (guards_parentIdOf hpolicy hthrows h dr).mono ?_
  exact fun parentId _ h₁ => guards_recordEntry hpolicy hthrows disk dr h₁

/-- The callback keeps the references between the rows. -/
theorem guards_manipulator (hpolicy : env.sql.policy = .maxPlusOne) (hthrows : env.sql.Throws)
    (disk : Disk) (dr : DirectoryReader) (h : sh.user.Ready fun _ => False) :
    World.Coherently env.sql (manipulator env disk dr) (fun _ sh' => sh'.user.Ready fun _ => False)
      sh := by
  have hJ : sh.user.db.content.Coherent := h.content
  apply Guards.bind
  refine Guards.get (s := sh) hJ ?_
  apply Guards.bind
  refine Guards.modify (s := sh) hJ rfl rfl ?_
  apply Guards.ite
  · intro _
    exact .modify hJ rfl rfl h
  · intro _
    apply Guards.bind
    refine Guards.modify hJ rfl rfl ?_
    apply Guards.ite
    · intro _
      exact .pure hJ h
    · intro _
      apply guards_indexEntry hpolicy hthrows
      exact h

/-! ## The walk -/

/-- A piece of the walk from the world `w` went through coherent states. -/
def WalkEnd.Coherently (sql : Sqlite) (w : World) : WalkEnd World → Prop
  | .through _ w' | .returned w' =>
      w.db.Through sql.policy Content.Coherent w'.db ∧ w'.Ready fun _ => False
  | .threw e w' => w.db.Stops sql.policy Content.Coherent e w'.db

theorem WalkEnd.Coherently.trans {sql : Sqlite} {w w' : World} {out : WalkEnd World}
    (h : w.db.Through sql.policy Content.Coherent w'.db) (hout : out.Coherently sql w') :
    out.Coherently sql w := by
  cases out with
  | through lastError w'' => exact ⟨h.trans hout.1, hout.2⟩
  | returned w'' => exact ⟨h.trans hout.1, hout.2⟩
  | threw e w'' => exact h.stops_trans hout

theorem coherently_event (hpolicy : env.sql.policy = .maxPlusOne) (hthrows : env.sql.Throws)
    (disk : Disk) (e : Event) (lastError : U32) {w : World} (h : w.Ready fun _ => False) :
    (e.run indexReader (manipulator env disk) lastError w).Coherently env.sql w := by
  have hself : w.db.Through env.sql.policy Content.Coherent w.db := .refl h.content
  cases e with
  | call c =>
      have hready : (⟨false, lastError, w⟩ : Shared World).user.Ready fun _ => False := h
      have hcall := guards_manipulator hpolicy hthrows disk (c.reader indexReader) hready
      simp only [Event.run]
      cases hm : manipulator env disk (c.reader indexReader) ⟨false, lastError, w⟩ with
      | error e sh => exact hcall.threw hm
      | ok _ sh =>
          obtain ⟨hthrough, hready⟩ := hcall.returned hm
          simp only []
          split
          · rcases c.stop_cases sh.lastError sh.user with hstop | ⟨e, hstop⟩
            · rw [hstop]
              exact ⟨hthrough, hready⟩
            · rw [hstop]
              exact hthrough.stops e
          · exact ⟨hthrough, hready⟩
  | openFailed path err =>
      simp only [Event.run]
      split
      · exact ⟨hself, h⟩
      · exact hself.stops _
  | endOfDirectory path err =>
      simp only [Event.run]
      split
      · exact ⟨hself, h⟩
      · exact hself.stops _

/-- The run lemma of the walk. -/
theorem coherently_runEvents (hpolicy : env.sql.policy = .maxPlusOne) (hthrows : env.sql.Throws)
    (disk : Disk) (es : List Event) (lastError : U32) {w : World} (h : w.Ready fun _ => False) :
    (runEvents indexReader (manipulator env disk) es lastError w).Coherently env.sql w := by
  induction es generalizing lastError w with
  | nil => exact ⟨.refl h.content, h⟩
  | cons e es ih =>
      have hevent := coherently_event hpolicy hthrows disk e lastError h
      simp only [runEvents]
      cases hrun : e.run indexReader (manipulator env disk) lastError w with
      | through lastError' w' =>
          rw [hrun] at hevent
          exact .trans hevent.1 (ih lastError' hevent.2)
      | returned w' =>
          rw [hrun] at hevent
          exact hevent
      | threw e w' =>
          rw [hrun] at hevent
          exact hevent

end

/-! ## The sweep -/

section

variable {sql : Sqlite} {db : Db}

/-- The rule for an admissible statement inside of a transaction. -/
theorem guards_within (hpolicy : sql.policy = .maxPlusOne) (hthrows : sql.Throws)
    (h : db.content.Coherent) {s : Stmt} (hadmissible : s.Admissible db.tables)
    (hs : s.autocommits = true) (hquiet : s.conflicts = false) :
    Coherently sql (sql.execute s) (fun _ db' => db'.content.Coherent ∧
      db'.tables = (s.exec .maxPlusOne db.tables).2) db := by
  have hcoherent := hadmissible.coherent h.1
  rw [← hpolicy] at hcoherent ⊢
  have hkeeps : Content.Coherent (s.run sql.policy db.tables db.snapshot).2 := by
    rw [Stmt.run_autocommits hs]
    exact ⟨hcoherent, h.2⟩
  have hend : wp (sql.execute s) (fun _ db' => db'.content.Coherent ∧
      db'.tables = (s.exec sql.policy db.tables).2) (fun _ _ => True) db := by
    refine Sqlite.wp_execute_within hs (.inl hquiet) (fun _ => ⟨⟨hcoherent, h.2⟩, rfl⟩)
      (fun _ _ hf hex => ?_) (fun _ _ _ => trivial) (fun _ => trivial)
    rw [hthrows _ _ _ hf] at hex
    cases hex
  exact ((Guards.execute h hkeeps).and hend).mono fun _ _ h => h.2

theorem guards_cleanupEntries (hpolicy : sql.policy = .maxPlusOne) (hthrows : sql.Throws)
    (h : db.content.Coherent) : Coherently sql (cleanupEntries sql) (fun _ _ => True) db := by
  have hbody : ∀ db : Db, db.content.Coherent →
      Coherently sql (sql.executeAll cleanupStatements) (fun _ _ => True) db := by
    intro db h
    apply Guards.bind
    refine (guards_within hpolicy hthrows h (s := .deleteBlocks) trivial rfl rfl).mono ?_
    rintro _ db₁ ⟨h₁, htables⟩
    have hgone : Stmt.deleteEntries.Admissible db₁.tables := by
      intro b hb
      rw [htables] at hb ⊢
      exact (Blocks.mem_deleteEntries.mp hb).2
    apply Guards.bind
    refine (guards_within hpolicy hthrows h₁ (s := .deleteEntries) hgone rfl rfl).mono ?_
    rintro _ db₂ ⟨h₂, -⟩
    apply Guards.bind
    refine (guards_within hpolicy hthrows h₂ (s := .resetAlive) trivial rfl rfl).mono ?_
    rintro _ db₃ ⟨h₃, -⟩
    exact .pure h₃ trivial
  exact Guards.transaction (fun _ _ hs hc => hc.run hs _) hbody h

theorem guards_schema (hpolicy : sql.policy = .maxPlusOne) {K : Nat → Prop} (h : db.Ready K) :
    Coherently sql (sql.executeAll schemaStatements) (fun _ db' => db'.Ready K) db := by
  have key : ∀ (objects : List SchemaObject) (db : Db), db.Ready K →
      Coherently sql (sql.executeAll (objects.map .create)) (fun _ db' => db'.Ready K) db := by
    intro objects
    induction objects with
    | nil => exact fun _ h => .pure h.content h
    | cons object objects ih =>
        intro db h
        apply Guards.bind
        refine (guards_execute hpolicy h (s := .create object) trivial rfl nofun nofun).mono ?_
        exact fun _ db' h' => ih db' h'
  exact key [.entries, .i1, .i2, .blocksDigests, .i3] db h

end

/-! ## The run -/

/-- The run lemma: a run goes through coherent states, however it ends. -/
theorem guards_reindexed {env : Env} (hpolicy : env.sql.policy = .maxPlusOne)
    (hthrows : env.sql.Throws) (t : Tree) (root : WString) (lastError : U32) {db : Db}
    (h : db.Ready fun _ => False) :
    Coherently env.sql (reindexed env t root lastError) (fun _ _ => True) db := by
  have hschema := guards_schema hpolicy h
  unfold Coherently Guards wp reindexed
  cases hexec : env.sql.executeAll schemaStatements db with
  | error e db' => exact hschema.threw hexec
  | ok _ db' =>
      obtain ⟨hthrough, hready⟩ := hschema.returned hexec
      have hworld : World.Ready (fun _ => False) ⟨db', [], 0⟩ := by
        apply hready.mono
        rintro id (hfalse | ⟨path, hlookup⟩)
        · exact hfalse
        · cases hlookup
      have hwalk := coherently_runEvents hpolicy hthrows (t.disk root) (t.events indexReader root)
        lastError hworld
      have hsweep : ∀ w : World, w.db.content.Coherent → db.Through env.sql.policy Content.Coherent w.db →
          wp (cleanupEntries env.sql) (fun _ db' => db.Through env.sql.policy Content.Coherent db' ∧ True)
            (fun e db' => db.Stops env.sql.policy Content.Coherent e db') w.db := by
        intro w hw hwthrough
        refine wp.mono (guards_cleanupEntries hpolicy hthrows hw) ?_ ?_
        · exact fun _ _ hdone => ⟨hwthrough.trans hdone.1, trivial⟩
        · exact fun _ _ hstops => hwthrough.stops_trans hstops
      simp only []
      cases hrun : runEvents indexReader (manipulator env (t.disk root)) (t.events indexReader root)
          lastError ⟨db', [], 0⟩ with
      | through lastError' w =>
          rw [hrun] at hwalk
          exact hsweep w hwalk.2.content (hthrough.trans hwalk.1)
      | returned w =>
          rw [hrun] at hwalk
          exact hsweep w hwalk.2.content (hthrough.trans hwalk.1)
      | threw e w =>
          rw [hrun] at hwalk
          exact hthrough.stops_trans hwalk

end Spacenet
