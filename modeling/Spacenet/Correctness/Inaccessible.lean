-- SUMMARY: Runs over trees with inaccessible entries: a directory that the callback skips is still opened by the walk.
import Spacenet.Effect.Accessible

/-!
# Inaccessible entries

The callback skips an entry that is not accessible, but the walk goes into a
directory whatever the callback did. An inaccessible file is skipped without
harm; an inaccessible directory does not open, and the run ends by an exception.
-/

namespace Spacenet

/-! ## Trees with inaccessible entries -/

/-- A directory that is accessible is searched to its end; one that is not does not open, with an
error other than that of a missing path. -/
structure DirInfo.Guarded (info : DirInfo) : Prop where
  enters : info.accessible = true → info.Readable
  refuses : info.accessible = false → ∃ err, info.openError = some err ∧ err ≠ ERROR_PATH_NOT_FOUND

/-- The root and the directories of the tree are guarded. -/
structure Tree.Guarded (t : Tree) : Prop where
  root : t.info.Guarded
  dirs : t.entries.Dirs DirInfo.Guarded

/-- No directory is inaccessible. -/
structure Tree.DirsAccessible (t : Tree) : Prop where
  root : t.info.accessible = true
  dirs : t.entries.Dirs fun info => info.accessible = true

/-- The path leads to an accessible entry below accessible directories. -/
def Tree.Reaches (t : Tree) (names : List WString) : Prop :=
  (t.node.descend names).isSome ∧
    ∀ names' node, names' <+: names → t.node.descend names' = some node → node.accessible = true

theorem Forest.Dirs.entered {f : Forest} (h : f.Dirs DirInfo.Guarded)
    (hacc : f.Dirs fun info => info.accessible = true) : f.Dirs DirInfo.Entered := by
  induction f with
  | nil => trivial
  | file name info rest ih => exact ih h hacc
  | dir name info sub rest ihs ihr =>
      obtain ⟨hguarded, hsub, hrest⟩ := h
      obtain ⟨hdir, hsub', hrest'⟩ := hacc
      exact ⟨⟨hdir, hguarded.enters hdir⟩, ihs hsub hsub', ihr hrest hrest'⟩

theorem Tree.Guarded.searchable {t : Tree} (h : t.Guarded) (hacc : t.DirsAccessible) : t.Searchable :=
  ⟨h.root.enters hacc.root, h.dirs.entered hacc.dirs⟩

/-! ## The walk -/

/-- A directory that fails to open by a missing path is not guarded. -/
def Event.NotMissing : Event → Prop
  | .openFailed _ err => err ≠ ERROR_PATH_NOT_FOUND
  | _ => True

namespace DirInfo.Guarded

variable {info : DirInfo} {parts : List WString} {inside : List Event}

theorem notMissing (h : info.Guarded) (hinside : ∀ e ∈ inside, e.NotMissing) :
    ∀ e ∈ info.events parts inside, e.NotMissing := by
  intro e he
  cases hacc : info.accessible with
  | true =>
      have hopens := (h.enters hacc).opens
      simp only [DirInfo.events_of_open hopens, List.mem_append, List.mem_singleton] at he
      rcases he with he | rfl
      · exact hinside e he
      · trivial
  | false =>
      obtain ⟨err, hopen, hne⟩ := h.refuses hacc
      simp only [DirInfo.events_of_openError hopen, List.mem_singleton] at he
      rw [he]
      exact hne

/-- The walk gets past a guarded directory only when it is accessible. -/
theorem accessible_of_pass (h : info.Guarded) (hpass : ∀ e ∈ info.events parts inside, e.Passes) :
    info.accessible = true ∧ ∀ e ∈ inside, e.Passes := by
  cases hacc : info.accessible with
  | true =>
      have hopens := (h.enters hacc).opens
      simp only [DirInfo.events_of_open hopens, List.mem_append] at hpass
      exact ⟨rfl, fun e he => hpass e (.inl he)⟩
  | false =>
      obtain ⟨err, hopen, -⟩ := h.refuses hacc
      simp only [DirInfo.events_of_openError hopen, List.mem_singleton, forall_eq] at hpass
      exact hpass.elim

end DirInfo.Guarded

theorem Forest.Dirs.notMissing {o : DirectoryReader} {f : Forest} (h : f.Dirs DirInfo.Guarded)
    {endError : U32} {parts : List WString} {orphan : Bool} :
    ∀ e ∈ f.events o endError parts orphan, e.NotMissing :=
  h.events_forall (fun _ => trivial) fun _ _ _ hguarded hinside => hguarded.notMissing hinside

/-- A walk that passes all events of a guarded tree has met no inaccessible directory. -/
theorem Forest.Dirs.accessible_of_pass {o : DirectoryReader} (ho : o.ListsAll) {f : Forest}
    (h : f.Dirs DirInfo.Guarded) {endError : U32} {parts : List WString} {orphan : Bool}
    (hpass : ∀ e ∈ f.events o endError parts orphan, e.Passes) :
    f.Dirs fun info => info.accessible = true := by
  induction f generalizing endError parts orphan with
  | nil => trivial
  | file name info rest ih =>
      simp only [Forest.events, List.mem_append] at hpass
      exact ih h (fun e he => hpass e (.inr he))
  | dir name info sub rest ihs ihr =>
      obtain ⟨hguarded, hsub, hrest⟩ := h
      simp only [Forest.events, ho.descends, if_true, List.mem_append] at hpass
      obtain ⟨hacc, hinside⟩ := hguarded.accessible_of_pass (fun e he => hpass e (.inl (.inr he)))
      exact ⟨hacc, ihs hsub hinside, ihr hrest (fun e he => hpass e (.inr he))⟩

theorem Tree.Guarded.dirsAccessible_of_pass {t : Tree} (h : t.Guarded) {root : WString}
    (hpass : ∀ e ∈ t.events indexReader root, e.Passes) : t.DirsAccessible := by
  obtain ⟨hroot, hinside⟩ := h.root.accessible_of_pass hpass
  exact ⟨hroot, h.dirs.accessible_of_pass indexReader_listsAll hinside⟩

theorem Tree.Guarded.notMissing {t : Tree} (h : t.Guarded) {root : WString} :
    ∀ e ∈ t.events indexReader root, e.NotMissing :=
  h.root.notMissing h.dirs.notMissing

/-! ## The run -/

/-- The run returns and leaves a row for every entry that is reached. -/
def SkipsInaccessible (env : Env) (t : Tree) (path : WString) (win : Win32) (db : Db) : Prop :=
  ∃ db', Reindexes env t path win db (.ok () db') ∧
    ∀ names, names ≠ [] → t.Reaches names →
      ∃ r, db'.committed.entries.rowAt (rootPath path :: names) = some r

section

variable {env : Env} {t : Tree} {path : WString} {win : Win32} {db : Db}

theorem Tree.Searchable.rowAt (ht : t.Searchable) (hsql : env.sql.Throws)
    (hrun : ∀ i, env.shutdown i = false) {db' : Db} {root : WString} {lastError : U32}
    (hresult : reindexed env t root lastError db = .ok () db') (hdb : db.snapshot = none)
    {names : List WString} (hne : names ≠ []) {node : Node} (hdescend : t.node.descend names = some node)
    (hacc : node.accessible = true) (hmatch : ∀ name ∈ names.getLast?, matchesDotStar name = true) :
    ∃ r, db'.committed.entries.rowAt (root :: names) = some r := by
  obtain ⟨idx, hvisited, htables⟩ := ht.visited hsql hrun hresult hdb
  have hsound := Index.visitAll_sound (t.calls_below indexReader root)
    (t.calls_pairwise indexReader root) db.tables hvisited.visit
  cases names with
  | nil => exact absurd rfl hne
  | cons name names =>
      obtain ⟨c, hc, hpath, hnode⟩ := Tree.calls_complete indexReader_listsAll.toDeep ht.root.opens
        ht.dirs.opens root hdescend fun last hlast =>
          (indexReader_listsAll.matchName last).trans (hmatch last hlast)
      have hmem := @record_mem_recordsOf root _ _ hc (hnode ▸ hacc)
      obtain ⟨r, hrow, -⟩ := hsound.recorded.rowAt_marked hmem
      have hsweep := hsound.recorded.rowAt_sweep hsound.preorder hmem hrow
      rw [htables, ← hpath]
      exact ⟨_, hsweep⟩

/-- A run over a guarded tree that returns has met no inaccessible directory. -/
theorem Reindexes.dirsAccessible {db' : Db} (h : Reindexes env t path win db (.ok () db')) (hsql : env.sql.Throws)
    (hrun : ∀ i, env.shutdown i = false) (ht : t.Guarded) (hdb : db.snapshot = none) : t.DirsAccessible := by
  have houtcome := reindexed_outcome hsql t (rootPath path) win.lastError hdb
  rw [← reindexes_iff.mp h] at houtcome
  cases houtcome with
  | @completed pre post idx _ events visited ended swept tables =>
      cases ended with
      | through =>
          rw [List.append_nil] at events
          apply ht.dirsAccessible_of_pass
          rw [events]
          exact visited.passes
      | vanished path' post =>
          have hmem : .openFailed path' ERROR_PATH_NOT_FOUND ∈ t.events indexReader (rootPath path) := by
            rw [events]
            exact List.mem_append_right _ List.mem_cons_self
          exact absurd rfl (ht.notMissing _ hmem)
      | aborted c post shutdown =>
          rw [hrun] at shutdown
          cases shutdown

/-- Where no directory is inaccessible, every accessible entry is reached. -/
theorem Tree.DirsAccessible.reaches (h : t.DirsAccessible) {names : List WString} {node : Node}
    (hdescend : t.node.descend names = some node) (hacc : node.accessible = true) : t.Reaches names := by
  refine ⟨Option.isSome_iff_exists.mpr ⟨node, hdescend⟩, ?_⟩
  rintro names' node' ⟨more, rfl⟩ hdescend'
  cases more with
  | nil =>
      rw [List.append_nil] at hdescend
      exact Option.some.inj (hdescend'.symm.trans hdescend) ▸ hacc
  | cons n more =>
      rw [Node.descend_append, hdescend', Option.bind_some] at hdescend
      cases node' with
      | file info => cases hdescend
      | dir info sub =>
          cases names' with
          | nil => exact (Node.dir.inj (Option.some.inj hdescend')).1 ▸ h.root
          | cons n' names' => exact h.dirs.of_descend (Tree.descend_cons.symm.trans hdescend')

/-- A database without marks gets a row for every entry that is reached only where each can be
indexed. -/
theorem SkipsInaccessible.indexable (h : SkipsInaccessible env t path win db) (hsql : env.sql.Throws)
    (hrun : ∀ i, env.shutdown i = false) (ht : t.Guarded) (hdb : db.snapshot = none)
    (halive : ∀ r ∈ db.tables.entries.rows, r.isAlive ≠ 0) :
    t.DirsAccessible ∧ t.Indexable (rootPath path) := by
  obtain ⟨db', hreindexes, hrows⟩ := h
  have hacc := hreindexes.dirsAccessible hsql hrun ht hdb
  have hsearchable := ht.searchable hacc
  obtain ⟨idx, hvisited, htables⟩ := hsearchable.visited hsql hrun (reindexes_iff.mp hreindexes).symm hdb
  have hsound := Index.visitAll_sound (t.calls_below indexReader (rootPath path))
    (t.calls_pairwise indexReader (rootPath path)) db.tables hvisited.visit
  refine ⟨hacc, hsearchable.indexable hvisited ?_⟩
  intro names node hdescend hnode name hname
  cases names with
  | nil => cases hdescend
  | cons n names =>
      obtain ⟨r, hrow⟩ := hrows (n :: names) (by simp) (hacc.reaches hdescend hnode)
      rw [htables] at hrow
      exact hsound.recorded.name_matches hsound.preorder halive hname hrow

end

/-- ERROR_ACCESS_DENIED. -/
def accessDenied : U32 := 5

/-- A directory that may not be entered. -/
def DirInfo.denied : DirInfo :=
  { DirInfo.plain with accessible := false, openError := some accessDenied }

theorem DirInfo.plain_guarded : plain.Guarded := ⟨fun _ => plain_readable, nofun⟩

theorem DirInfo.denied_guarded : denied.Guarded := ⟨nofun, fun _ => ⟨_, rfl, by decide⟩⟩

/-- A directory that may not be entered in front of a file. -/
def deniedTree : Tree where
  info := .plain
  entries := .dir ['d'] .denied .nil (.file ['f'] (.plain ⟨0, 1⟩ [7]) .nil)
  wf := by decide

theorem deniedTree_guarded : deniedTree.Guarded :=
  ⟨DirInfo.plain_guarded, DirInfo.denied_guarded, trivial, trivial⟩

end Spacenet
