-- SUMMARY: `reindex` over prepared statements does to the connection what it does with the statements executed by value.
import Spacenet.Correctness.Conversions
import Spacenet.Correctness.Lambdas
import Spacenet.Effect.Accessible
import Spacenet.Lockstep

/-!
# The run over prepared statements

The callback looks up UTF-8 texts where the model of the run has the strings of the
reader, and its statements come in the state in which the callback before has left
them. Neither makes a difference, as long as no name has a NUL.
-/

namespace Spacenet

open Prog Session Statement Unicode

namespace Prepared

/-! ## The callback -/

/-- The string has no NUL. -/
def NulFree (str : WString) : Prop := (0 : WChar) ∉ str

instance (str : WString) : Decidable (NulFree str) := inferInstanceAs (Decidable (¬_))

/-- One connection, and one map: in UTF-8 here, by strings there. -/
structure WorldRel (w : World) (w' : Spacenet.World) : Prop where
  db : w.session.db = w'.db
  parents : ∃ texts : List (Text × Nat), w.parents = texts.map (Prod.map utf8 id) ∧
    w'.parents = texts.map (Prod.map utf16 id)
  calls : w.calls = w'.calls

theorem lookup_map {α β : Type} [BEq α] [LawfulBEq α] [BEq β] [LawfulBEq β] {f : α → β}
    (hf : Function.Injective f) (parents : List (α × Nat)) (path : α) :
    (parents.map (Prod.map f id)).lookup (f path) = parents.lookup path := by
  induction parents with
  | nil => rfl
  | cons p parents ih =>
      rw [List.map_cons, Prod.map, List.lookup_cons, List.lookup_cons, ih]
      by_cases h : path = p.1
      · rw [h, beq_self_eq_true, beq_self_eq_true]
        rfl
      · rw [beq_eq_false_iff_ne.mpr h, beq_eq_false_iff_ne.mpr fun heq => h (hf heq)]

/-- The string, and what `str2utf` has made of it. -/
def Converted (utf : Blob) (str : WString) : Prop := ∃ text, utf = utf8 text ∧ str = utf16 text

/-- `parents.emplace`, by characters. -/
def emplaceText (path : Text) (id : Nat) (parents : List (Text × Nat)) : List (Text × Nat) :=
  if (parents.lookup path).isSome then parents else (path, id) :: parents

/-- The callbacks have one value and are in related states. -/
def Together {α : Type} (a : α) (sh : Shared World) (b : α) (sh' : Shared Spacenet.World) : Prop :=
  a = b ∧ SharedRel WorldRel sh sh'

section

variable {sh : Shared World} {sh' : Shared Spacenet.World} (hsh : SharedRel WorldRel sh sh')
include hsh

theorem withSession_rwp {α : Type} {m : SessionM α} {m' : DbM α}
    (h : rwp m m' Agrees Sees sh.user.session sh.user.session.db) :
    rwp (withSession m) (withDb m') Together (SharedRel WorldRel) sh sh' := by
  obtain ⟨habort, hlast, hdb, hparents, hcalls⟩ := hsh
  rw [hdb] at h
  refine rwp_onPart (h.mono ?_ ?_)
  · rintro a s b db ⟨rfl, rfl⟩
    exact ⟨rfl, habort, hlast, rfl, hparents, hcalls⟩
  · rintro s db rfl
    exact ⟨habort, hlast, rfl, hparents, hcalls⟩

/-- Both callbacks convert the string, or both throw. -/
theorem convert_rwp {platform : Platform} (hlone : platform.nls.Throws) {str : WString} (h : NulFree str) :
    rwp (convert platform str) (Spacenet.convert str)
      (fun utf sh₁ _ sh₁' => Converted utf str ∧ SharedRel WorldRel sh₁ sh₁') (SharedRel WorldRel) sh sh' := by
  unfold convert Spacenet.convert
  by_cases hwide : WellFormed str
  · obtain ⟨text, rfl⟩ := wellFormed_iff.mp hwide
    rw [if_pos hwide, LocaleTraits.str2utf_utf16,
      LocaleTraits.takeWhile_of_notMem (zero_mem_utf16_iff.not.mp h)]
    exact rwp_pure ⟨⟨text, rfl, rfl⟩, hsh⟩
  · have hnone : ofUtf16 str = none := Option.not_isSome_iff_eq_none.mp hwide
    have hbytes : LocaleTraits.str2utf platform.nls str = .error badConversion := by
      rw [LocaleTraits.str2utf, cString, LocaleTraits.takeWhile_of_notMem h, LocaleTraits.toBytes, hnone]
      exact hlone str hwide
    rw [if_neg hwide, hbytes]
    exact rwp_throw _ hsh

theorem emplace_rwp {utf : Blob} {path : WString} (hpath : Converted utf path) (id : Nat) :
    rwp (setParents (emplace utf id)) (Spacenet.setParents (Spacenet.emplace path id)) Together
      (SharedRel WorldRel) sh sh' := by
  obtain ⟨text, rfl, rfl⟩ := hpath
  obtain ⟨habort, hlast, hdb, ⟨texts, hparents, hparents'⟩, hcalls⟩ := hsh
  refine rwp_modify ⟨rfl, habort, hlast, hdb, ⟨emplaceText text id texts, ?_, ?_⟩, hcalls⟩
  · simp only [hparents, emplace, emplaceText, lookup_map utf8_injective]
    split <;> rfl
  · simp only [hparents', Spacenet.emplace, emplaceText, lookup_map utf16_injective]
    split <;> rfl

theorem parentIdOf_rwp (env : Env) {utf : Blob} (dr : DirectoryReader) (hpath : Converted utf dr.path) :
    rwp (parentIdOf env utf dr.level) (Spacenet.parentIdOf env dr) Together (SharedRel WorldRel) sh sh' := by
  have hlookup : sh.user.parents.lookup utf = sh'.user.parents.lookup dr.path := by
    obtain ⟨text, rfl, htext⟩ := hpath
    obtain ⟨texts, hparents, hparents'⟩ := hsh.2.2.parents
    rw [htext, hparents, hparents', lookup_map utf8_injective, lookup_map utf16_injective]
  refine rwp_get_bind ?_
  rw [hlookup]
  cases sh'.user.parents.lookup dr.path with
  | some id => exact rwp_pure ⟨rfl, hsh⟩
  | none =>
      refine rwp_ite Iff.rfl (fun _ => rwp_throw _ hsh) (fun _ => ?_)
      have hpath' := hpath
      obtain ⟨text, rfl, htext⟩ := hpath'
      rw [htext] at hpath ⊢
      refine rwp_bind ((withSession_rwp hsh (updateEntry_rwp _ _ _ _ _ _ _ _)).mono ?_ (fun _ _ h => h))
      rintro ⟨id, mtim⟩ sh₁ _ sh₁' ⟨rfl, hsh₁⟩
      refine rwp_bind ((emplace_rwp hsh₁ hpath id).mono ?_ (fun _ _ h => h))
      rintro _ sh₂ _ sh₂' ⟨-, hsh₂⟩
      exact rwp_pure ⟨rfl, hsh₂⟩

theorem updAfter_rwp {sql : Sqlite} (entryId : Nat) (mtime : U64) (digest : Blob) :
    rwp (withSession (do
          let _ ← bind .updAfter .id (.integer entryId) false
          let _ ← bind .updAfter .mtime (.integer mtime.toNat) false
          let _ ← bind .updAfter .digest (.blob digest) true
          execute sql .updAfter))
      (withDb (sql.execute (.updAfter entryId mtime digest))) (fun _ sh _ sh' => SharedRel WorldRel sh sh')
      (SharedRel WorldRel) sh sh' := by
  obtain ⟨habort, hlast, hdb, hparents, hcalls⟩ := hsh
  refine rwp_onPart ?_
  refine rwp_left (bind_eq _ _ _ (by decide)) (rwp_left (bind_eq _ _ _ (by decide))
    (rwp_left (bind_eq _ _ _ (by decide)) ?_))
  have hbound : Bound .updAfter (.updAfter entryId mtime digest)
      ((((sh.user.session.bound .updAfter .id ⟨.integer entryId, false⟩).bound .updAfter .mtime
        ⟨.integer mtime.toNat, false⟩).bound .updAfter .digest ⟨.blob digest, true⟩).vm .updAfter) := by
    refine ⟨bound_progress .., ?_⟩
    simp (disch := decide) only [Handle.stmt, value_bound]
    simp
  rw [← hdb]
  refine (execute_rwp hbound).mono ?_ ?_
  · rintro rc s rc' db ⟨-, rfl, -⟩
    exact ⟨habort, hlast, rfl, hparents, hcalls⟩
  · rintro s db rfl
    exact ⟨habort, hlast, rfl, hparents, hcalls⟩

/-- The digests of the file are stored. -/
theorem digests_rwp (env : Env) (platform : Platform) (disk : Disk) (dr : DirectoryReader) (entryId : Nat) (mtim : U64) :
    rwp (if dr.isReg ∧ (¬env.modifiedOnly ∨ mtim ≠ dr.fmtim) then do
          let (complete, ctx) ←
            withSession (updateBlocks env.sql platform disk Cdc512.init dr.pathName entryId fileBlockSize)
          if complete then
            let _ ← withSession do
              let _ ← bind .updAfter .id (.integer entryId) false
              let _ ← bind .updAfter .mtime (.integer dr.fmtim.toNat) false
              let _ ← bind .updAfter .digest (.blob ctx.finish.digest) true
              execute env.sql .updAfter
        else pure ())
      (if dr.isReg ∧ (¬env.modifiedOnly ∨ mtim ≠ dr.fmtim) then do
          let (complete, ctx) ←
            withDb (Spacenet.updateBlocks env.sql disk Cdc512.init dr.pathName entryId fileBlockSize)
          if complete then
            let _ ← withDb (env.sql.execute (.updAfter entryId dr.fmtim ctx.finish.digest))
        else pure ())
      (fun _ sh _ sh' => SharedRel WorldRel sh sh') (SharedRel WorldRel) sh sh' := by
  refine rwp_ite Iff.rfl (fun _ => ?_) (fun _ => rwp_pure hsh)
  refine rwp_bind ((withSession_rwp hsh (updateBlocks_rwp _ _ _ _ _ _ _)).mono ?_ (fun _ _ h => h))
  rintro ⟨complete, ctx⟩ sh₁ _ sh₁' ⟨rfl, hsh₁⟩
  refine rwp_ite Iff.rfl (fun _ => ?_) (fun _ => rwp_pure hsh₁)
  refine rwp_bind ((updAfter_rwp hsh₁ _ _ _).mono ?_ (fun _ _ h => h))
  rintro _ sh₂ _ sh₂' hsh₂
  exact rwp_pure hsh₂

theorem indexEntry_rwp (env : Env) {platform : Platform} (hlone : platform.nls.Throws) (disk : Disk)
    {dr : DirectoryReader} (hdr : dr.Texts NulFree) :
    rwp (indexEntry env platform disk dr) (Spacenet.indexEntry env disk dr)
      (fun _ sh _ sh' => SharedRel WorldRel sh sh') (SharedRel WorldRel) sh sh' := by
  refine rwp_bind ((convert_rwp hsh hlone hdr.name).mono ?_ (fun _ _ h => h))
  rintro utfName sh₁ _ sh₁' ⟨⟨text, rfl, hname⟩, hsh₁⟩
  refine rwp_bind ((convert_rwp hsh₁ hlone hdr.path).mono ?_ (fun _ _ h => h))
  rintro utfPath sh₂ _ sh₂' ⟨hpath, hsh₂⟩
  refine rwp_bind ((parentIdOf_rwp hsh₂ env dr hpath).mono ?_ (fun _ _ h => h))
  rintro parentId sh₃ _ sh₃' ⟨rfl, hsh₃⟩
  rw [hname]
  refine rwp_bind ((withSession_rwp hsh₃ (updateEntry_rwp _ _ _ _ _ _ _ _)).mono ?_ (fun _ _ h => h))
  rintro ⟨entryId, mtim⟩ sh₄ _ sh₄' ⟨rfl, hsh₄⟩
  have htail : ∀ sh₅ sh₅', SharedRel WorldRel sh₅ sh₅' → rwp _ _ _ _ sh₅ sh₅' := fun sh₅ sh₅' hsh₅ =>
    digests_rwp hsh₅ env platform disk dr entryId mtim
  refine rwp_ite Iff.rfl (fun _ => ?_) (fun _ => htail _ _ hsh₄)
  refine rwp_bind ((convert_rwp hsh₄ hlone hdr.pathName).mono ?_ (fun _ _ h => h))
  rintro utfPathName sh₅ _ sh₅' ⟨hpathName, hsh₅⟩
  refine rwp_bind ((emplace_rwp hsh₅ hpathName entryId).mono ?_ (fun _ _ h => h))
  rintro _ sh₆ _ sh₆' ⟨-, hsh₆⟩
  exact htail _ _ hsh₆

end

theorem manipulator_alike (env : Env) {platform : Platform} (hlone : platform.nls.Throws) (disk : Disk) :
    ReaderState.Alike NulFree WorldRel (manipulator env platform disk) (Spacenet.manipulator env disk) := by
  intro dr hdr sh sh' hsh
  obtain ⟨habort, hlast, hdb, hparents, hcalls⟩ := hsh
  refine rwp_left rfl (rwp_left rfl ?_)
  change rwp _ (if env.shutdown sh'.user.calls then _ else _) _ _ _
    { sh' with user := { sh'.user with calls := sh'.user.calls + 1 } }
  rw [hcalls]
  refine rwp_ite Iff.rfl (fun _ => ?_) (fun _ => ?_)
  · exact rwp_modify ⟨rfl, hlast, hdb, hparents, rfl⟩
  refine rwp_bind (rwp_modify ?_)
  have hsh₁ : SharedRel WorldRel
      { sh with lastError := env.register sh'.user.calls sh.lastError
                user := { sh.user with calls := sh'.user.calls + 1 } }
      { sh' with lastError := env.register sh'.user.calls sh'.lastError
                 user := { sh'.user with calls := sh'.user.calls + 1 } } :=
    ⟨habort, congrArg _ hlast, hdb, hparents, rfl⟩
  refine rwp_ite Iff.rfl (fun _ => rwp_pure hsh₁) (fun _ => ?_)
  refine rwp_after ((indexEntry_rwp hsh₁ env hlone disk hdr).mono ?_ (fun _ _ h => h))
  rintro _ sh₂ _ sh₂' ⟨habort₂, hlast₂, hdb₂, hparents₂, hcalls₂⟩
  exact ⟨habort₂, hlast₂, hdb₂, hparents₂, hcalls₂⟩

/-! ## reindex -/

theorem nulFree_join {path name : WString} (hpath : NulFree path) (hname : NulFree name) :
    NulFree (path ++ pathDelimiter ++ name) := by
  unfold NulFree at *
  simp only [pathDelimiter, List.mem_append, List.mem_singleton, hpath, hname, or_false, false_or]
  decide

theorem nulFree_rootPath {path : WString} (h : NulFree path) : NulFree (rootPath path) := by
  unfold rootPath
  split
  · exact fun hmem => h (List.mem_of_mem_dropLast hmem)
  · exact h

/-- `reindex` over prepared statements, in whatever state these are and whatever the freed memory behind
their pointers holds, does what it does with the statements executed by value. -/
theorem reindex_eq (env : Env) {platform : Platform} (hlone : platform.nls.Throws) {disk : Disk}
    (hdisk : ∀ path l, disk.findFirst path = .ok l →
      NulFree l.first.cFileName ∧ ∀ fdw ∈ l.rest, NulFree fdw.cFileName)
    {dirPathName : WString} (hdir : NulFree dirPathName) {win : Win32}
    (hwin : ∀ s ∈ win.searches, ∀ fdw ∈ s.rest, NulFree fdw.cFileName) (vm : Handle → Vdbe) (fuel : Nat) (db : Db) :
    reindex env platform disk fuel dirPathName win vm db = Spacenet.reindex env disk fuel dirPathName win db := by
  have hlists : disk.Lists NulFree := ⟨fun _ _ => nulFree_join, hdisk⟩
  unfold reindex Spacenet.reindex
  cases env.sql.executeAll schemaStatements db with
  | error e db => rfl
  | ok _ db =>
      have hread := indexReader.read_lockstep hlists (manipulator_alike env hlone disk) (nulFree_rootPath hdir)
        nofun hwin (⟨rfl, ⟨[], rfl, rfl⟩, rfl⟩ : WorldRel ⟨⟨db, vm⟩, [], 0⟩ ⟨db, [], 0⟩) fuel
      dsimp only
      generalize indexReader.read fuel disk (some (manipulator env platform disk)) dirPathName win ⟨⟨db, vm⟩, [], 0⟩ = r
        at hread ⊢
      generalize indexReader.read fuel disk (some (Spacenet.manipulator env disk)) dirPathName win ⟨db, [], 0⟩ = r'
        at hread ⊢
      cases hread with
      | none => rfl
      | some hend =>
          rcases related_iff.mp hend with ⟨_, st, _, st', rfl, rfl, hrel⟩ | ⟨e, st, st', rfl, rfl, hrel⟩
          · exact congrArg (fun db => some (cleanupEntries env.sql db)) hrel.db
          · exact congrArg (fun db => some (EStateM.Result.error e db)) hrel.db

/-- A platform on which ill-formed texts do not convert, and freed memory reads as NULL. -/
def Platform.plain : Platform where
  nls := ⟨fun _ => .error badConversion, fun _ => []⟩
  garbage := fun _ _ => .null

theorem reindex_eq_plainTree :
    reindex (.plain true) .plain (plainTree.disk ['r']) 100 ['r'] ⟨[], 0⟩ (fun _ => .prepared) (.connect .empty) =
      Spacenet.reindex (.plain true) (plainTree.disk ['r']) 100 ['r'] ⟨[], 0⟩ (.connect .empty) :=
  reindex_eq (.plain true) (fun _ _ => rfl)
    (Tree.findFirst_named (show plainTree.entries.Named NulFree from ⟨by decide, ⟨by decide, trivial⟩, trivial⟩)
      (by decide) (by decide) ['r'])
    (by decide) (List.forall_mem_nil _) (fun _ => .prepared) 100 (.connect .empty)

end Prepared

end Spacenet
