-- SUMMARY: Runs over a tree whose directories are all entered: the callback never misses a directory in `parents`, and the run completes.
import Spacenet.Effect.Completed

/-!
# Accessible trees

Where every directory is accessible and is searched to its end, the walk visits
the whole tree: every directory is in `parents` when the callbacks for its entries
come, so that the exception of the parents lookup is not raised. In an accessible
tree the files are accessible, too.
-/

namespace Spacenet

/-- A directory that can be searched to its end. -/
structure DirInfo.Readable (info : DirInfo) : Prop where
  opens : info.openError = none
  ends : info.endError = ERROR_NO_MORE_FILES

/-- Every entry is accessible. -/
def Forest.Accessible : Forest → Prop
  | .nil => True
  | .file _ info rest => info.accessible = true ∧ rest.Accessible
  | .dir _ info sub rest =>
      info.accessible = true ∧ info.Readable ∧ sub.Accessible ∧ rest.Accessible

structure Tree.Accessible (t : Tree) : Prop where
  root : t.info.Readable
  entries : t.entries.Accessible

/-- Every directory among the entries has the property. -/
def Forest.Dirs (P : DirInfo → Prop) : Forest → Prop
  | .nil => True
  | .file _ _ rest => rest.Dirs P
  | .dir _ info sub rest => P info ∧ sub.Dirs P ∧ rest.Dirs P

/-- A directory that the callback does not skip and that is searched to its end. -/
def DirInfo.Entered (info : DirInfo) : Prop := info.accessible = true ∧ info.Readable

/-- Every directory is entered. Files may be inaccessible. -/
structure Tree.Searchable (t : Tree) : Prop where
  root : t.info.Readable
  dirs : t.entries.Dirs DirInfo.Entered

theorem Forest.Dirs.of_descend {P : DirInfo → Prop} {f sub : Forest} (h : f.Dirs P) {names : List WString}
    {info : DirInfo} (hdescend : f.descend names = some (.dir info sub)) : P info := by
  have key : ∀ info' sub', Node.dir info sub = .dir info' sub' → P info' := by
    refine Forest.of_descend (Q := Forest.Dirs P) (P := fun node => ∀ info' sub', node = .dir info' sub' →
      P info') ?_ ?_ h hdescend
    · intro name info rest hrest
      exact ⟨nofun, hrest⟩
    · rintro name info sub rest ⟨hinfo, hsub, hrest⟩
      refine ⟨?_, hsub, hrest⟩
      rintro info' sub' heq
      exact (Node.dir.inj heq).1 ▸ hinfo
  exact key info sub rfl

theorem Forest.Accessible.dirs {f : Forest} (h : f.Accessible) : f.Dirs DirInfo.Entered := by
  induction f with
  | nil => trivial
  | file name info rest ih => exact ih h.2
  | dir name info sub rest ihs ihr =>
      obtain ⟨hacc, hreadable, hsub, hrest⟩ := h
      exact ⟨⟨hacc, hreadable⟩, ihs hsub, ihr hrest⟩

theorem Forest.Accessible.of_descend {f : Forest} (h : f.Accessible) {names : List WString} {node : Node}
    (hdescend : f.descend names = some node) : node.accessible = true := by
  refine Forest.of_descend (Q := Forest.Accessible) (P := fun node => node.accessible = true) ?_ ?_ h hdescend
  · intro name info rest h
    exact h
  · rintro name info sub rest ⟨hacc, -, hsub, hrest⟩
    exact ⟨hacc, hsub, hrest⟩

theorem Tree.Accessible.searchable {t : Tree} (h : t.Accessible) : t.Searchable :=
  ⟨h.root, h.entries.dirs⟩

/-- The entry gets its callback, and the texts of the callback are UTF-16. -/
def IndexableName (root name : WString) : Prop :=
  matchesDotStar name = true ∧ WellFormed name ∧ WellFormed root

instance (root name : WString) : Decidable (IndexableName root name) := inferInstanceAs (Decidable (_ ∧ _))

/-- Every accessible entry can be indexed. -/
def Tree.Indexable (t : Tree) (root : WString) : Prop :=
  t.entries.Each fun name node => node.accessible = true → IndexableName root name

theorem Forest.Dirs.opens {f : Forest} (h : f.Dirs DirInfo.Entered) : f.Opens := by
  induction f with
  | nil => trivial
  | file name info rest ih => exact ih h
  | dir name info sub rest ihs ihr =>
      obtain ⟨⟨-, hreadable⟩, hsub, hrest⟩ := h
      exact ⟨hreadable.opens, ihs hsub, ihr hrest⟩

theorem Forest.Accessible.opens {f : Forest} (h : f.Accessible) : f.Opens := h.dirs.opens

/-! ## The events -/

/-- An event that the walk of an accessible tree has: the entry of a callback is accessible, and no
directory fails to open or to be read. -/
def Event.Smooth : Event → Prop
  | .call c => c.node.accessible = true
  | .openFailed _ _ => False
  | .endOfDirectory _ err => err = ERROR_NO_MORE_FILES

/-- A property of the events inside of a readable directory, and of its end. -/
theorem DirInfo.Readable.events_forall {P : Event → Prop} {info : DirInfo} (h : info.Readable) {parts : List WString}
    {inside : List Event} (hinside : ∀ e ∈ inside, P e)
    (hend : P (.endOfDirectory (joinPath parts) info.endError)) : ∀ e ∈ info.events parts inside, P e := by
  intro e he
  simp only [DirInfo.events_of_open h.opens, List.mem_append, List.mem_singleton] at he
  rcases he with he | rfl
  · exact hinside e he
  · exact hend

theorem Forest.events_smooth {o : DirectoryReader} {f : Forest} (h : f.Accessible) {endError : U32}
    {parts : List WString} {orphan : Bool} : ∀ e ∈ f.events o endError parts orphan, e.Smooth := by
  refine Forest.events_forall ?_ ?_ h
  · rintro name info rest ⟨hacc, hrest⟩
    exact ⟨fun _ _ _ => hacc, hrest⟩
  · rintro name info sub rest ⟨hacc, hreadable, hsub, hrest⟩
    exact ⟨fun _ _ _ => hacc, fun _ _ hinside => hreadable.events_forall hinside hreadable.ends, hsub, hrest⟩

/-- What holds of every callback, and of the events of each directory when it holds of those inside,
holds of all events. -/
theorem Forest.Dirs.events_forall {D : DirInfo → Prop} {P : Event → Prop} (hcall : ∀ c, P (.call c))
    (hdir : ∀ info parts inside, D info → (∀ e ∈ inside, P e) →
      ∀ e ∈ DirInfo.events info parts inside, P e)
    {o : DirectoryReader} {f : Forest} (h : f.Dirs D) {endError : U32} {parts : List WString} {orphan : Bool} :
    ∀ e ∈ f.events o endError parts orphan, P e := by
  refine Forest.events_forall ?_ ?_ h
  · intro name info rest hrest
    exact ⟨fun _ _ _ => hcall _, hrest⟩
  · rintro name info sub rest ⟨hinfo, hsub, hrest⟩
    exact ⟨fun _ _ _ => hcall _, fun _ _ hinside => hdir info _ _ hinfo hinside, hsub, hrest⟩

/-- The events of directories that are entered do not end the walk. -/
theorem Forest.Dirs.events_pass {o : DirectoryReader} {f : Forest} (h : f.Dirs DirInfo.Entered)
    {endError : U32} {parts : List WString} {orphan : Bool} :
    ∀ e ∈ f.events o endError parts orphan, e.Passes :=
  h.events_forall (fun _ => trivial) fun _ _ _ hentered hinside => hentered.2.events_forall hinside hentered.2.ends

theorem Tree.Searchable.events_pass {t : Tree} (h : t.Searchable) (o : DirectoryReader)
    (root : WString) : ∀ e ∈ t.events o root, e.Passes :=
  h.root.events_forall h.dirs.events_pass h.root.ends

theorem Tree.Accessible.events_smooth {t : Tree} (h : t.Accessible) (o : DirectoryReader)
    (root : WString) : ∀ e ∈ t.events o root, e.Smooth :=
  h.root.events_forall (Forest.events_smooth h.entries) h.root.ends

/-! ## The callbacks -/

namespace Index

variable {policy : RowidPolicy} {modifiedOnly : Bool} {idx idx' : Index} {c : Call}

/-- The callback for an entry of the directory `parts` finds its `parent_id`. -/
def Knows (idx : Index) (parts : List WString) : Prop :=
  (idx.parents.lookup (joinPath parts)).isSome ∨ parts.length ≤ 1

theorem lookup_emplace_isSome {path path' : WString} {id : Nat} {parents : List (WString × Nat)}
    (h : (parents.lookup path').isSome) : ((emplace path id parents).lookup path').isSome := by
  rw [lookup_emplace]
  split
  · rfl
  · exact h

theorem lookup_emplace_self {path : WString} {id : Nat} {parents : List (WString × Nat)} :
    ((emplace path id parents).lookup path).isSome := by
  rw [lookup_emplace, if_pos rfl]
  rfl

theorem lookup_enter {parentId : Nat} {path : WString} (h : (idx.parents.lookup path).isSome) :
    ((idx.enter policy modifiedOnly c parentId).parents.lookup path).isSome := by
  simp only [enter, Record.parentsBehind]
  split
  · exact lookup_emplace_isSome h
  · exact h

/-- `parents` loses nothing by a callback. -/
theorem Knows.visit (hvisit : idx.visit policy modifiedOnly c = some idx') {parts : List WString}
    (h : idx.Knows parts) : idx'.Knows parts := by
  refine h.imp_left (fun hknown => ?_)
  cases Index.visit_cases hvisit with
  | skipped inaccessible => exact hknown
  | below accessible => exact lookup_enter hknown
  | first accessible => exact lookup_enter (lookup_emplace_isSome hknown)

/-- A callback whose directory is known makes its visit, and a directory is known behind it. -/
theorem Knows.visits (h : idx.Knows c.parts) (hconverts : c.node.accessible = true → c.Converts)
    (policy : RowidPolicy) (modifiedOnly : Bool) :
    ∃ idx', idx.visit policy modifiedOnly c = some idx' ∧
      (c.node.accessible = true → c.record.isDir = true → idx'.Knows c.path) := by
  have hdirectory : ∀ (idx : Index) (parentId : Nat), c.record.isDir = true →
      (idx.enter policy modifiedOnly c parentId).Knows c.path := by
    intro idx parentId hdir
    left
    simp only [enter, Record.parentsBehind, hdir, if_true]
    exact lookup_emplace_self
  unfold Index.visit
  by_cases hacc : c.node.accessible = true
  · rw [if_pos hacc, if_pos (hconverts hacc)]
    unfold locate
    cases hlookup : idx.parents.lookup (joinPath c.parts) with
    | some parentId => exact ⟨_, rfl, fun _ hdir => hdirectory _ _ hdir⟩
    | none =>
        have hlevel : ¬c.parts.length > 1 := by
          rcases h with h | h
          · rw [hlookup] at h
            cases h
          · omega
        simp only [if_neg hlevel]
        exact ⟨_, rfl, fun _ hdir => hdirectory _ _ hdir⟩
  · rw [if_neg hacc]
    exact ⟨idx, rfl, fun hacc' => absurd hacc' hacc⟩

end Index

/-- The callbacks for the entries of a known directory. The induction is on the entries: a directory
is known when its own entries come. -/
theorem Forest.Dirs.visits {o : DirectoryReader} (ho : o.ListsAll) {f : Forest}
    (h : f.Dirs DirInfo.Entered) {root : WString}
    (hnames : f.Each fun name node => node.accessible = true → IndexableName root name) (policy : RowidPolicy)
    (modifiedOnly : Bool) (endError : U32) {parts : List WString} (hne : parts ≠ [])
    (hparts : WellFormed root → WellFormed (joinPath parts)) (orphan : Bool) {idx : Index}
    (hknows : idx.Knows parts) :
    ∃ idx', idx.visitAll policy modifiedOnly (callsOf (f.events o endError parts orphan)) = some idx' ∧
      ∀ path, idx.Knows path → idx'.Knows path := by
  induction f generalizing endError parts orphan idx with
  | nil => exact ⟨idx, rfl, fun _ h => h⟩
  | file name info rest ih =>
      obtain ⟨hname, hnames⟩ := hnames
      simp only [Forest.events, ho.matchName]
      by_cases hmatch : matchesDotStar name = true
      · let c : Call := ⟨parts, name, .file info, orphan, rest.after endError⟩
        have hconverts : c.node.accessible = true → c.Converts := fun hacc =>
          ⟨(hname hacc).2.1, hparts (hname hacc).2.2⟩
        obtain ⟨idx₁, hvisit, -⟩ := Index.Knows.visits (c := c) hknows hconverts policy modifiedOnly
        obtain ⟨idx₂, hrest, hkept⟩ := ih h hnames endError hne hparts orphan (hknows.visit hvisit)
        refine ⟨idx₂, ?_, fun path hpath => hkept path (hpath.visit hvisit)⟩
        rw [if_pos hmatch, List.singleton_append, callsOf_call, Index.visitAll_cons hvisit]
        exact hrest
      · rw [if_neg hmatch, List.nil_append]
        exact ih h hnames endError hne hparts orphan hknows
  | dir name info sub rest ihs ihr =>
      obtain ⟨⟨hacc, hreadable⟩, hsub, hrest⟩ := h
      obtain ⟨hname, hnamesSub, hnamesRest⟩ := hnames
      obtain ⟨hmatch, hwide, hroot⟩ := hname hacc
      let c : Call := ⟨parts, name, .dir info sub, orphan,
        if o.descends parts then .descend else rest.after endError⟩
      have hconverts : c.Converts := ⟨hwide, hparts hroot⟩
      obtain ⟨idx₁, hvisit, hdir⟩ := Index.Knows.visits (c := c) hknows (fun _ => hconverts) policy modifiedOnly
      have hentered : idx₁.Knows (parts ++ [name]) := hdir hacc rfl
      have hpath : WellFormed (joinPath (parts ++ [name])) := hconverts.path hne
      obtain ⟨idx₂, hinside, hkept⟩ := ihs hsub hnamesSub info.endError (by simp) (fun _ => hpath)
        (orphan || !info.accessible) hentered
      obtain ⟨idx₃, hbehind, hkept'⟩ := ihr hrest hnamesRest endError hne hparts orphan
        (hkept _ (hknows.visit hvisit))
      refine ⟨idx₃, ?_, fun path hpath => hkept' path (hkept path (hpath.visit hvisit))⟩
      have hcalls : callsOf ((Forest.dir name info sub rest).events o endError parts orphan) =
          c :: (callsOf (sub.events o info.endError (parts ++ [name]) (orphan || !info.accessible)) ++
            callsOf (rest.events o endError parts orphan)) := by
        simp [Forest.events, c, ho.matchName, hmatch, ho.listDirectories, ho.toDeep.descends, DirInfo.events,
          hreadable.opens]
      rw [hcalls, Index.visitAll_cons hvisit, Index.visitAll_append, hinside, Option.bind_some]
      exact hbehind

/-- The texts of a visit have been converted. -/
theorem Index.visitAll_converts {policy : RowidPolicy} {modifiedOnly : Bool} {cs : List Call} {idx idx' : Index}
    (h : idx.visitAll policy modifiedOnly cs = some idx') : ∀ c ∈ cs, c.node.accessible = true → c.Converts := by
  induction cs generalizing idx with
  | nil => exact fun c hc => absurd hc List.not_mem_nil
  | cons c cs ih =>
      rw [Index.visitAll, List.foldlM_cons] at h
      obtain ⟨idx₁, hvisit, hrest⟩ := Option.bind_eq_some_iff.mp h
      intro c' hc' hacc
      rcases List.mem_cons.mp hc' with rfl | hc'
      · cases Index.visit_cases hvisit with
        | skipped inaccessible => exact absurd hacc inaccessible
        | below accessible converts => exact converts
        | first accessible converts => exact converts
      · exact ih hrest c' hc' hacc

theorem indexReader_listsAll : indexReader.ListsAll := ⟨⟨rfl, rfl, rfl⟩, rfl, rfl⟩

theorem Tree.Searchable.visits {t : Tree} (h : t.Searchable) {root : WString} (hnames : t.Indexable root)
    (policy : RowidPolicy) (modifiedOnly : Bool) (t₀ : Tables) :
    ∃ idx, Index.visitAll policy modifiedOnly (callsOf (t.events indexReader root)) ⟨t₀, []⟩ =
      some idx := by
  have hroot : Index.Knows ⟨t₀, []⟩ [root] := .inr (Nat.le_refl _)
  have hpath : WellFormed root → WellFormed (joinPath [root]) := by
    rw [joinPath_singleton]
    exact id
  obtain ⟨idx, hvisit, -⟩ := h.dirs.visits indexReader_listsAll hnames policy modifiedOnly
    t.info.endError (List.cons_ne_nil _ _) hpath false hroot
  refine ⟨idx, ?_⟩
  simpa [Tree.events, DirInfo.events, h.root.opens] using hvisit

/-- A row that the run leaves in a table without marks has the path of an entry that had its callback. -/
theorem Recorded.name_matches {modifiedOnly : Bool} {t : Tree} {root : WString} {t₀ tables : Tables}
    (h : Recorded modifiedOnly (recordsOf root (callsOf (t.events indexReader root))) t₀ tables)
    (hpre : Preorder (recordsOf root (callsOf (t.events indexReader root))))
    (halive : ∀ r ∈ t₀.entries.rows, r.isAlive ≠ 0) {names : List WString} {name : WString}
    (hname : name ∈ names.getLast?) {r : EntryRow}
    (hrow : tables.sweep.entries.rowAt (root :: names) = some r) : matchesDotStar name = true := by
  obtain ⟨dir, rfl⟩ := List.getLast?_eq_some_iff.mp hname
  obtain ⟨rec, hrec, hpath⟩ := h.row_of_sweep hpre halive (Entries.rowAt_mem hrow)
  have hsame : rec.path = root :: (dir ++ [name]) := Entries.rowAt_injective hpath hrow
  rcases mem_recordsOf hrec with rfl | ⟨c, hc, -, rfl⟩
  · simp [Record.root, Record.path] at hsame
  · have hlast : c.name = name := by
      rw [← List.cons_append] at hsame
      exact List.cons.inj (List.append_inj_right' hsame rfl) |>.1
    rw [← hlast, ← indexReader_listsAll.matchName]
    exact t.calls_match indexReader root c hc

/-! ## The run -/

namespace Tree.Searchable

variable {t : Tree} {env : Env} {root : WString} {lastError : U32} {db db' : Db}

theorem passes (h : t.Searchable) (root : WString) {pre post : List Event} {e : Event}
    (hevents : t.events indexReader root = pre ++ e :: post) : e.Passes := by
  apply h.events_pass indexReader root
  rw [hevents]
  exact List.mem_append_right _ List.mem_cons_self

/-- A run over such a tree that returns has visited the whole tree. -/
theorem visited (h : t.Searchable) (hsql : env.sql.Throws) (hrun : ∀ i, env.shutdown i = false)
    (hresult : reindexed env t root lastError db = .ok () db') (hdb : db.snapshot = none) :
    ∃ idx, Visited env ⟨db.tables, []⟩ 0 (t.events indexReader root) idx ∧
      db'.committed = idx.tables.sweep := by
  have houtcome := reindexed_outcome hsql t root lastError hdb
  rw [hresult] at houtcome
  cases houtcome with
  | @completed pre post idx _ events visited ended swept tables =>
      cases ended with
      | through =>
          rw [List.append_nil] at events
          exact ⟨idx, events ▸ visited, tables⟩
      | vanished path post => exact (h.passes root events).elim
      | aborted c post shutdown =>
          rw [hrun] at shutdown
          cases shutdown

/-- Where the names of the accessible entries match, their texts have been converted in a walk over the
whole tree. -/
theorem indexable (h : t.Searchable) {t₀ : Tables} {idx : Index}
    (hvisited : Visited env ⟨t₀, []⟩ 0 (t.events indexReader root) idx)
    (hmatch : ∀ names node, t.entries.descend names = some node → node.accessible = true →
      ∀ name ∈ names.getLast?, matchesDotStar name = true) : t.Indexable root := by
  have hconverts : ∀ names node, t.entries.descend names = some node → node.accessible = true →
      ∃ c : Call, c.path = root :: names ∧ c.Converts := by
    intro names node hdescend hacc
    cases names with
    | nil => cases hdescend
    | cons n names =>
        obtain ⟨c, hc, hpath, rfl⟩ := Tree.calls_complete indexReader_listsAll.toDeep h.root.opens h.dirs.opens root
          hdescend fun last hlast =>
            (indexReader_listsAll.matchName last).trans (hmatch _ _ hdescend hacc last hlast)
        exact ⟨c, hpath, Index.visitAll_converts hvisited.visit c hc hacc⟩
  apply Forest.each_of_descend t.wf
  intro names node hdescend name hname hacc
  refine ⟨hmatch names node hdescend hacc name hname, ?_, ?_⟩
  · obtain ⟨dir, rfl⟩ := List.getLast?_eq_some_iff.mp hname
    obtain ⟨c, hpath, hwide, -⟩ := hconverts _ _ hdescend hacc
    rw [Call.path, ← List.cons_append] at hpath
    exact (List.cons.inj (List.append_inj_right' hpath rfl)).1 ▸ hwide
  · -- the first entry on the path is accessible, and its directory is the root
    cases names with
    | nil => cases hname
    | cons n names =>
        obtain ⟨first, hfind, hrest⟩ := Option.bind_eq_some_iff.mp hdescend
        have hfirst : t.entries.descend [n] = some first := by
          rw [Forest.descend, hfind]
          rfl
        have hacc' : first.accessible = true := by
          cases names with
          | nil => exact Option.some.inj hrest ▸ hacc
          | cons n' names =>
              cases first with
              | file info => cases hrest
              | dir info sub => exact (h.dirs.of_descend hfirst).1
        obtain ⟨c, hpath, -, hwide⟩ := hconverts [n] first hfirst hacc'
        have hparts : c.parts ++ [c.name] = [root] ++ [n] := hpath
        rw [(List.append_inj' hparts rfl).1, joinPath_singleton] at hwide
        exact hwide

/-- A run over such a tree returns when its entries can be indexed, no statement fails and no shutdown is
seen. -/
theorem returns (h : t.Searchable) (hnames : t.Indexable root) (hsql : env.sql.NoFault)
    (hrun : ∀ i, env.shutdown i = false) (lastError : U32) (hdb : db.snapshot = none) :
    ∃ db', reindexed env t root lastError db = .ok () db' := by
  obtain ⟨all, hall⟩ := h.visits hnames env.sql.policy env.modifiedOnly db.tables
  have houtcome := reindexed_outcome hsql.throws t root lastError hdb
  cases hresult : reindexed env t root lastError db with
  | ok _ db' => exact ⟨db', rfl⟩
  | error e db' =>
      rw [hresult] at houtcome
      cases houtcome with
      | notStarted fault => exact absurd hsql fault
      | sweepThrew events visited ended fault => exact absurd hsql fault
      | @walkThrew pre post idx _ _ events visited cause =>
          cases cause with
          | fault fault => exact absurd hsql fault
          | unknown c post visit =>
              -- the visit would fail in the whole walk as well
              rw [events, callsOf_append, callsOf_call, Index.visitAll_append, visited.visit,
                Option.bind_some] at hall
              simp only [Index.visitAll, List.foldlM_cons, visit] at hall
              cases hall
          | aborted c post shutdown =>
              rw [hrun] at shutdown
              cases shutdown
          | notOpened path post => exact (h.passes root events).elim
          | notRead path post err_ne => exact absurd (h.passes root events) err_ne

end Tree.Searchable

theorem Tree.Accessible.visited {t : Tree} (h : t.Accessible) {env : Env} {root : WString}
    {lastError : U32} {db db' : Db} (hsql : env.sql.Throws) (hrun : ∀ i, env.shutdown i = false)
    (hresult : reindexed env t root lastError db = .ok () db') (hdb : db.snapshot = none) :
    ∃ idx, Visited env ⟨db.tables, []⟩ 0 (t.events indexReader root) idx ∧
      db'.committed = idx.tables.sweep :=
  h.searchable.visited hsql hrun hresult hdb

theorem Tree.Accessible.returns {t : Tree} (h : t.Accessible) {root : WString} (hnames : t.Indexable root)
    {env : Env} {db : Db} (hsql : env.sql.NoFault) (hrun : ∀ i, env.shutdown i = false) (lastError : U32)
    (hdb : db.snapshot = none) : ∃ db', reindexed env t root lastError db = .ok () db' :=
  h.searchable.returns hnames hsql hrun lastError hdb

/-! ## Plain trees -/

/-- The data of an entry with a write time and a size. -/
def Stat.plain (mtime : FileTime) (size : U32) : Stat := ⟨0, size, ⟨0, 0⟩, ⟨0, 0⟩, mtime⟩

/-- A directory that opens and is read to its end. -/
def DirInfo.plain : DirInfo where
  stat := .plain ⟨0, 0⟩ 0
  dotdotStat := .plain ⟨0, 0⟩ 0
  accessible := true
  openError := none
  endError := ERROR_NO_MORE_FILES

theorem DirInfo.plain_readable : plain.Readable := ⟨rfl, rfl⟩

/-- A file that opens, with a write time and its content in one read. -/
def FileInfo.plain (mtime : FileTime) (content : Blob) : FileInfo where
  stat := .plain mtime (.ofNat 32 content.length)
  accessible := true
  content := some {
    chunks := if content = [] then [] else [content]
    failed := false
    nonempty := by
      intro chunk hchunk
      split at hchunk
      · cases hchunk
      · next hne =>
          rw [List.mem_singleton.mp hchunk]
          exact hne }

/-- A run in which nothing fails and no shutdown is seen. -/
def Env.plain (modifiedOnly : Bool) : Env where
  sql := .working .maxPlusOne
  modifiedOnly := modifiedOnly
  shutdown := fun _ => false
  register := fun _ lastError => lastError

/-- A directory that holds a file. -/
def plainTree : Tree where
  info := .plain
  entries := .dir ['d'] .plain (.file ['f'] (.plain ⟨0, 1⟩ [7]) .nil) .nil
  wf := by decide

theorem plainTree_accessible : plainTree.Accessible :=
  ⟨DirInfo.plain_readable, rfl, DirInfo.plain_readable, ⟨rfl, trivial⟩, trivial⟩

theorem plainTree_indexable : plainTree.Indexable (rootPath ['r']) :=
  ⟨fun _ => by decide, ⟨fun _ => by decide, trivial⟩, trivial⟩

/-- A plain run over the plain tree returns. -/
theorem plainTree_returns (modifiedOnly : Bool) (t : Tables) : ∃ db,
    Reindexes (.plain modifiedOnly) plainTree ['r'] ⟨[], 0⟩ (Db.connect t) (.ok () db) := by
  have hsql : (Env.plain modifiedOnly).sql.NoFault := Sqlite.working_noFault _
  have hdb : (Db.connect t).snapshot = none := rfl
  obtain ⟨db, hresult⟩ := plainTree_accessible.returns plainTree_indexable hsql (fun _ => rfl) 0 hdb
  exact ⟨db, reindexes_iff.mpr hresult.symm⟩

end Spacenet
