-- SUMMARY: A run of `reindex` that returns, and whose own failures lose nothing, is a run in which no other statement can fail.
import Spacenet.Effect.Swallowed
import Spacenet.Sqlite.Failures

/-!
# Runs whose failures lose nothing

Which statements fail in a run is in its log. When all of them have found stored
what they would write, the programs of the run do the same on the SQLite that has
no other failures to answer with.
-/

namespace Spacenet

open Prog

/-! ## The programs of the connection -/

section

variable {sql : Sqlite}

theorem repeats_setExceptions {policy : RowidPolicy} (exceptions : Bool) :
    Repeats policy id (Db.setExceptions exceptions) (Db.setExceptions exceptions) :=
  .modify (fun _ => rfl) (fun _ => rfl)

theorem repeats_getIdMtim (parentId : Nat) (name : WString) (id : Nat) (mtim : U64) :
    Repeats sql.policy (fun db => db) (getIdMtim sql parentId name id mtim)
      (getIdMtim sql.careful parentId name id mtim) := by
  refine (Repeats.execute _).bind fun rc => Repeats.get.bind fun db => ?_
  split
  · exact .pure _
  · exact .pure _

theorem repeats_updateEntry (modifiedOnly : Bool) (params : EntryParams) (mtime : U64) :
    Repeats sql.policy id (updateEntry sql modifiedOnly params mtime)
      (updateEntry sql.careful modifiedOnly params mtime) := by
  have hrest : ∀ found : Nat × U64, Repeats sql.policy id
      (if found.1 = 0 then do
        let found' ← getIdMtim sql params.parentId params.name found.1 found.2
        pure (found'.1, found.2)
      else pure (found.1, found.2))
      (if found.1 = 0 then do
        let found' ← getIdMtim sql.careful params.parentId params.name found.1 found.2
        pure (found'.1, found.2)
      else pure (found.1, found.2)) :=
    fun found => .ite ((repeats_getIdMtim _ _ _ _).bind fun _ => .pure _) (.pure _)
  apply Repeats.keepingExceptions
  refine (repeats_setExceptions true).bind fun _ => (repeats_getIdMtim _ _ _ _).bind fun found => ?_
  apply Repeats.ite
  · exact (Repeats.execute _).bind fun _ => hrest found
  · refine (repeats_setExceptions false).bind fun _ => (Repeats.execute _).bind fun rc => ?_
    apply Repeats.ite
    · exact (repeats_setExceptions true).bind fun _ => (Repeats.execute _).bind fun _ => hrest found
    · exact hrest found

theorem repeats_updateBlockDigest (entryId blkNo : Nat) (digest : Blob) :
    Repeats sql.policy id (updateBlockDigest sql entryId blkNo digest)
      (updateBlockDigest sql.careful entryId blkNo digest) := by
  apply Repeats.keepingExceptions
  refine (repeats_setExceptions false).bind fun _ => (Repeats.execute _).bind fun rc => ?_
  apply Repeats.ite
  · exact (repeats_setExceptions true).bind fun _ => (Repeats.execute _).bind fun _ => .pure _
  · exact .pure _

theorem repeats_updateBlocks (disk : Disk) (fileCtx : Cdc512) (pathName : WString) (entryId blockSize : Nat) :
    Repeats sql.policy id (updateBlocks sql disk fileCtx pathName entryId blockSize)
      (updateBlocks sql.careful disk fileCtx pathName entryId blockSize) := by
  unfold updateBlocks
  cases disk.sopen pathName with
  | none => exact .pure _
  | some reads =>
      simp only []
      generalize reads.chunks = chunks, 1 = blkNo
      induction chunks generalizing blkNo fileCtx with
      | nil => exact .pure _
      | cons chunk chunks ih =>
          exact (repeats_updateBlockDigest _ _ _).bind fun _ => (Repeats.execute _).bind fun _ => ih _ _

theorem repeats_cleanupEntries : Repeats sql.policy id (cleanupEntries sql) (cleanupEntries sql.careful) :=
  .transaction (.executeAll _)

end

/-! ## The callback -/

section

variable {env : Env} {disk : Disk}

/-- The run on the careful SQLite. -/
def Env.careful (env : Env) : Env := { env with sql := env.sql.careful }

theorem repeats_withDb {policy : RowidPolicy} {α : Type} {m m' : DbM α} (h : Repeats policy id m m') :
    Repeats policy (fun sh : Shared World => sh.user.db) (withDb m) (withDb m') :=
  .onPart (fun _ => rfl) (fun _ _ => rfl) h

theorem repeats_setParents {policy : RowidPolicy} (f : List (WString × Nat) → List (WString × Nat)) :
    Repeats policy (fun sh : Shared World => sh.user.db) (setParents f) (setParents f) :=
  .modify (fun _ => rfl) (fun _ => rfl)

theorem repeats_convert {policy : RowidPolicy} (text : WString) :
    Repeats policy (fun sh : Shared World => sh.user.db) (convert text) (convert text) := by
  unfold convert
  exact .ite (.pure _) (.throw _)

theorem repeats_parentIdOf (dr : DirectoryReader) :
    Repeats env.sql.policy (fun sh => sh.user.db) (parentIdOf env dr) (parentIdOf env.careful dr) := by
  refine Repeats.get.bind fun sh => ?_
  cases sh.user.parents.lookup dr.path with
  | some id => exact .pure _
  | none =>
      apply Repeats.ite
      · exact .throw _
      · refine (repeats_withDb (repeats_updateEntry _ _ _)).bind fun found => ?_
        exact (repeats_setParents _).bind fun _ => .pure _

theorem repeats_indexEntry (dr : DirectoryReader) :
    Repeats env.sql.policy (fun sh => sh.user.db) (indexEntry env disk dr) (indexEntry env.careful disk dr) := by
  -- the part behind the `emplace` of a directory
  have hrest : ∀ found : Nat × U64, Repeats env.sql.policy (fun sh : Shared World => sh.user.db)
      (do
        if dr.isReg ∧ (¬env.modifiedOnly ∨ found.2 ≠ dr.fmtim) then
          let hashed ← withDb (updateBlocks env.sql disk Cdc512.init dr.pathName found.1 fileBlockSize)
          if hashed.1 then
            let _ ← withDb (env.sql.execute (.updAfter found.1 dr.fmtim hashed.2.finish.digest)))
      (do
        if dr.isReg ∧ (¬env.modifiedOnly ∨ found.2 ≠ dr.fmtim) then
          let hashed ← withDb (updateBlocks env.sql.careful disk Cdc512.init dr.pathName found.1 fileBlockSize)
          if hashed.1 then
            let _ ← withDb (env.sql.careful.execute (.updAfter found.1 dr.fmtim hashed.2.finish.digest))) := by
    intro found
    refine .ite ?_ (.pure _)
    refine (repeats_withDb (repeats_updateBlocks _ _ _ _ _)).bind fun hashed => .ite ?_ (.pure _)
    exact (repeats_withDb (.execute _)).bind fun _ => .pure _
  refine (repeats_convert _).bind fun _ => (repeats_convert _).bind fun _ => ?_
  refine (repeats_parentIdOf dr).bind fun parentId => ?_
  refine (repeats_withDb (repeats_updateEntry _ _ _)).bind fun found => .ite ?_ (hrest found)
  exact (repeats_convert _).bind fun _ => (repeats_setParents _).bind fun _ => hrest found

theorem repeats_manipulator (dr : DirectoryReader) :
    Repeats env.sql.policy (fun sh => sh.user.db) (manipulator env disk dr) (manipulator env.careful disk dr) := by
  -- the part behind the count of the callbacks
  have hrest : ∀ sh : Shared World, Repeats env.sql.policy (fun sh : Shared World => sh.user.db)
      (do
        if env.shutdown sh.user.calls then
          modify fun sh => { sh with abort := true }
        else
          modify fun sh' => { sh' with lastError := env.register sh.user.calls sh'.lastError }
          if disk.access dr.pathName (if dr.isDir then R_OK ||| X_OK else R_OK) ≠ 0 then
            pure ()
          else
            indexEntry env disk dr)
      (do
        if env.shutdown sh.user.calls then
          modify fun sh => { sh with abort := true }
        else
          modify fun sh' => { sh' with lastError := env.register sh.user.calls sh'.lastError }
          if disk.access dr.pathName (if dr.isDir then R_OK ||| X_OK else R_OK) ≠ 0 then
            pure ()
          else
            indexEntry env.careful disk dr) := by
    intro sh
    refine .ite (.modify (fun _ => rfl) (fun _ => rfl)) ?_
    apply Repeats.bind
    · exact .modify (fun _ => rfl) (fun _ => rfl)
    · exact fun _ => .ite (.pure _) (repeats_indexEntry dr)
  intro sh
  exact hrest sh { sh with user := { sh.user with calls := sh.user.calls + 1 } }

/-! ## The walk and the run -/

theorem WalkEnd.Leaves.imp {out : WalkEnd World} {P Q : World → Prop} (h : out.Leaves P) (hPQ : ∀ w, P w → Q w) :
    out.Leaves Q := by
  cases out with
  | through lastError w => exact hPQ w h
  | returned w => exact hPQ w h
  | threw e w => trivial

/-- The step lemma of the walk. -/
theorem Event.run_careful (e : Event) (lastError : U32) (w : World) :
    (e.run indexReader (manipulator env disk) lastError w).Leaves fun w' =>
      w.db.Reaches env.sql.policy w'.db (e.run indexReader (manipulator env.careful disk) lastError w =
        e.run indexReader (manipulator env disk) lastError w) := by
  cases e with
  | call c =>
      have hstep := @repeats_manipulator env disk (c.reader indexReader) ⟨false, lastError, w⟩
      unfold wp at hstep
      cases hm : manipulator env disk (c.reader indexReader) ⟨false, lastError, w⟩ with
      | error e sh =>
          simp only [Event.run, hm]
          trivial
      | ok _ sh =>
          rw [hm] at hstep
          have hrun : ∀ m : Manipulator World, m (c.reader indexReader) ⟨false, lastError, w⟩ = .ok () sh →
              (Event.call c).run indexReader m lastError w =
                if sh.abort then c.stop sh.lastError sh.user else .through sh.lastError sh.user := by
            intro m h
            simp only [Event.run, h]
          have hworld : (if sh.abort then c.stop sh.lastError sh.user
              else .through sh.lastError sh.user : WalkEnd World).Leaves (· = sh.user) := by
            split
            · rcases c.stop_cases sh.lastError sh.user with hstop | ⟨e, hstop⟩
              · rw [hstop]
                exact rfl
              · rw [hstop]
                trivial
            · exact rfl
          rw [hrun _ hm]
          refine hworld.imp fun w' hw' => ?_
          rw [hw']
          exact Db.Reaches.mono hstep fun hcareful => hrun _ hcareful
  | openFailed path err =>
      simp only [Event.run]
      split
      · exact .of_eq rfl rfl trivial
      · trivial
  | endOfDirectory path err =>
      simp only [Event.run]
      split
      · exact .of_eq rfl rfl trivial
      · trivial

/-- The run lemma, by induction on the events. -/
theorem runEvents_careful (es : List Event) (lastError : U32) (w : World) :
    (runEvents indexReader (manipulator env disk) es lastError w).Leaves fun w' =>
      w.db.Reaches env.sql.policy w'.db (runEvents indexReader (manipulator env.careful disk) es lastError w =
        runEvents indexReader (manipulator env disk) es lastError w) := by
  induction es generalizing lastError w with
  | nil => exact .of_eq rfl rfl rfl
  | cons e es ih =>
      have hstep := @Event.run_careful env disk e lastError w
      simp only [runEvents]
      cases hrun : e.run indexReader (manipulator env disk) lastError w with
      | through lastError' w₁ =>
          rw [hrun] at hstep
          have hfirst : w.db.Reaches env.sql.policy w₁.db _ := hstep
          refine (ih lastError' w₁).imp fun w' hrest => ?_
          refine (hfirst.trans hrest).mono ?_
          rintro ⟨hsame, hthen⟩
          rw [hsame]
          simp only [WalkEnd.bind]
          exact hthen
      | returned w₁ =>
          rw [hrun] at hstep
          refine Db.Reaches.mono hstep fun hsame => ?_
          rw [hsame]
          simp only [WalkEnd.bind]
      | threw error w₁ => trivial

/-- A run that returns is a run on the careful SQLite, when the failures in its log lose nothing. -/
theorem reindexed_careful {t : Tree} {root : WString} {lastError : U32} {db db' : Db}
    (h : reindexed env t root lastError db = .ok () db') : db.Reaches env.sql.policy db'
      (reindexed env.careful t root lastError db = .ok () db') := by
  have hschema := @Repeats.executeAll env.sql schemaStatements db
  unfold reindexed at h ⊢
  unfold wp at hschema
  cases hexec : env.sql.executeAll schemaStatements db with
  | error e db₁ =>
      rw [hexec] at h
      cases h
  | ok _ db₁ =>
      rw [hexec] at hschema
      have hcreated : db.Reaches env.sql.policy db₁ (env.careful.sql.executeAll schemaStatements db = .ok () db₁) :=
        hschema
      have hwalk := @runEvents_careful env (t.disk root) (t.events indexReader root) lastError
        ⟨db₁, [], 0⟩
      simp only [hexec] at h
      -- the sweep follows wherever the walk is left without an exception
      have hswept : ∀ w : World, cleanupEntries env.sql w.db = .ok () db' →
          w.db.Reaches env.sql.policy db' (cleanupEntries env.careful.sql w.db = .ok () db') := by
        intro w hclean
        have hsweep := @repeats_cleanupEntries env.sql w.db
        unfold wp at hsweep
        rw [hclean] at hsweep
        exact hsweep
      cases hrun : runEvents indexReader (manipulator env (t.disk root)) (t.events indexReader root) lastError
          ⟨db₁, [], 0⟩ with
      | through lastError' w =>
          rw [hrun] at hwalk
          simp only [hrun] at h
          refine ((hcreated.trans hwalk).trans (hswept w h)).mono ?_
          rintro ⟨⟨hcreated', hwalk'⟩, hswept'⟩
          simp only [hcreated', hwalk', hswept']
      | returned w =>
          rw [hrun] at hwalk
          simp only [hrun] at h
          refine ((hcreated.trans hwalk).trans (hswept w h)).mono ?_
          rintro ⟨⟨hcreated', hwalk'⟩, hswept'⟩
          simp only [hcreated', hwalk', hswept']
      | threw e w =>
          simp only [hrun] at h
          cases h

end

end Spacenet
