-- SUMMARY: `directory_reader::read` performs the events of its tree in order, whatever the callback does.
import Spacenet.Walk

/-!
# The walk refines its events

The machine of `read` follows the list of events: a piece of the list and a piece
of the run have the same end, and where the walk goes on, the machine stands at the
`FindNextFileW` of the same directory with the same stack. The induction is on the
directory tree; a subdirectory is one use of the statement for its own entries.
-/

namespace Spacenet

open Machine

variable {σ : Type}

/-! ## The tree behind the disk -/

/-- What `FindFirstFileW` answers for a directory of the tree. -/
def DirInfo.search (info : DirInfo) (entries : Forest) : Except U32 Listing :=
  match info.openError with
  | some err => .error err
  | none => .ok {
      first := ⟨['.'], true, info.stat⟩
      rest := ⟨['.', '.'], true, info.dotdotStat⟩ :: entries.listing
      endError := info.endError }

/-- The disk answers from the node for the path `parts`. -/
structure Disk.Has (disk : Disk) (parts : List WString) (node : Node) : Prop where
  access : ∀ mode, disk.access (joinPath parts) mode = if node.accessible then 0 else -1
  sopen : ∀ info, node = .file info → disk.sopen (joinPath parts) = info.content
  search : ∀ info entries, node = .dir info entries →
    disk.findFirst (joinPath parts) = info.search entries

/-- The disk answers from the entries of the forest for the paths below `parts`. -/
def Forest.Mounted (disk : Disk) : Forest → List WString → Prop
  | .nil, _ => True
  | .file name info rest, parts =>
      ValidName name ∧ disk.Has (parts ++ [name]) (.file info) ∧ rest.Mounted disk parts
  | .dir name info sub rest, parts =>
      ValidName name ∧ disk.Has (parts ++ [name]) (.dir info sub) ∧
        sub.Mounted disk (parts ++ [name]) ∧ rest.Mounted disk parts

theorem Node.descend_append (node : Node) (names names' : List WString) :
    node.descend (names ++ names') = (node.descend names).bind (·.descend names') := by
  induction names generalizing node with
  | nil => rfl
  | cons name names ih =>
      cases node with
      | file info => rfl
      | dir info entries =>
          simp only [List.cons_append, Node.descend]
          cases entries.find name with
          | none => rfl
          | some child => exact ih child

theorem Forest.mem_names_of_find {f : Forest} {name : WString} {node : Node}
    (h : f.find name = some node) : name ∈ f.names := by
  induction f with
  | nil => cases h
  | file n info rest ih =>
      simp only [Forest.find] at h
      split at h
      · simp [Forest.names, *]
      · exact List.mem_cons_of_mem _ (ih h)
  | dir n info sub rest _ ih =>
      simp only [Forest.find] at h
      split at h
      · simp [Forest.names, *]
      · exact List.mem_cons_of_mem _ (ih h)

theorem Tree.disk_has {root : WString} {t : Tree} {names : List WString} {node : Node}
    (hvalid : ∀ n ∈ names, ValidName n) (h : t.node.descend names = some node) :
    (t.disk root).Has (root :: names) node := by
  have hres : t.resolve root (joinPath (root :: names)) = some node := by
    rw [Tree.resolve_joinPath root t hvalid, h]
  refine ⟨fun mode => ?_, ?_, ?_⟩
  · simp only [Tree.disk, Tree.access, hres]
  · rintro info rfl
    simp only [Tree.disk, Tree.sopen, hres]
  · rintro info entries rfl
    simp only [Tree.disk, Tree.findFirst, hres]
    rfl

theorem Forest.mounted_of_descend {root : WString} {t : Tree} {f : Forest} {names : List WString}
    (hwf : f.Wf) (hvalid : ∀ n ∈ names, ValidName n)
    (h : ∀ name node, f.find name = some node → t.node.descend (names ++ [name]) = some node) :
    f.Mounted (t.disk root) (root :: names) := by
  induction f generalizing names with
  | nil => trivial
  | file name info rest ih =>
      obtain ⟨hname, hnotin, hrest⟩ := hwf
      have hvalid' : ∀ n ∈ names ++ [name], ValidName n := by
        simpa [or_imp, forall_and] using ⟨hvalid, hname⟩
      have hnode := h name (.file info) (by simp [Forest.find])
      refine ⟨hname, Tree.disk_has hvalid' hnode, ih hrest hvalid ?_⟩
      intro name' node hfind
      have hne : name ≠ name' := fun heq => hnotin (heq ▸ Forest.mem_names_of_find hfind)
      exact h name' node (by simpa [Forest.find, hne] using hfind)
  | dir name info sub rest ihs ihr =>
      obtain ⟨hname, hnotin, hsub, hrest⟩ := hwf
      have hvalid' : ∀ n ∈ names ++ [name], ValidName n := by
        simpa [or_imp, forall_and] using ⟨hvalid, hname⟩
      have hnode := h name (.dir info sub) (by simp [Forest.find])
      refine ⟨hname, Tree.disk_has hvalid' hnode, ?_, ihr hrest hvalid ?_⟩
      · refine @ihs (names ++ [name]) hsub hvalid' ?_
        intro name' node hfind
        rw [Node.descend_append, hnode, Option.bind_some]
        simp only [Node.descend, hfind, Option.bind_some]
      · intro name' node hfind
        have hne : name ≠ name' := fun heq => hnotin (heq ▸ Forest.mem_names_of_find hfind)
        exact h name' node (by simpa [Forest.find, hne] using hfind)

/-- A tree is mounted in its own disk. -/
theorem Tree.mounted (root : WString) (t : Tree) : t.entries.Mounted (t.disk root) [root] := by
  refine Forest.mounted_of_descend t.wf (by simp) ?_
  intro name node h
  simp only [List.nil_append, Tree.node, Node.descend, h, Option.bind_some]

/-! ## Following a piece of the walk -/

/-- The members of the reader that `read` does not write. -/
def DirectoryReader.options (dr : DirectoryReader) : DirectoryReader where
  mask := dr.mask
  exclude := dr.exclude
  maxLevel := dr.maxLevel
  listDot := dr.listDot
  listDotdot := dr.listDotdot
  listDirectories := dr.listDirectories
  recursive := dr.recursive

/-- The run from `x` ends as `w` says; where the walk goes on, the run comes to a point of `K`. -/
def Follows (disk : Disk) (m : Manipulator σ) (x : (Point × ReaderState σ) ⊕ ReadResult σ)
    (w : WalkEnd σ) (K : U32 → σ → (Point × ReaderState σ) ⊕ ReadResult σ → Prop) : Prop :=
  match w with
  | .through lastError user =>
      ∃ y, Leads (ReaderState.step disk (some m)) x y ∧ K lastError user y
  | .returned user =>
      ∃ st, Leads (ReaderState.step disk (some m)) x (.inr (.ok () st)) ∧ st.user = user
  | .threw e user =>
      ∃ st, Leads (ReaderState.step disk (some m)) x (.inr (.error e st)) ∧ st.user = user

section

variable {disk : Disk} {m : Manipulator σ} {x y : (Point × ReaderState σ) ⊕ ReadResult σ}
  {w : WalkEnd σ} {K K' : U32 → σ → (Point × ReaderState σ) ⊕ ReadResult σ → Prop}

theorem Follows.lead (h : Leads (ReaderState.step disk (some m)) x y) (h' : Follows disk m y w K) :
    Follows disk m x w K := by
  cases w with
  | through lastError user =>
      obtain ⟨z, hz, hK⟩ := h'
      exact ⟨z, h.trans hz, hK⟩
  | returned user =>
      obtain ⟨st, hst, hu⟩ := h'
      exact ⟨st, h.trans hst, hu⟩
  | threw e user =>
      obtain ⟨st, hst, hu⟩ := h'
      exact ⟨st, h.trans hst, hu⟩

theorem Follows.mono (h : Follows disk m x w K)
    (hK : ∀ lastError user y, K lastError user y → K' lastError user y) : Follows disk m x w K' := by
  cases w with
  | through lastError user =>
      obtain ⟨y, hy, hKy⟩ := h
      exact ⟨y, hy, hK _ _ _ hKy⟩
  | returned user => exact h
  | threw e user => exact h

theorem Follows.bind {f : U32 → σ → WalkEnd σ} (h : Follows disk m x w K)
    (hK : ∀ lastError user y, K lastError user y → Follows disk m y (f lastError user) K') :
    Follows disk m x (w.bind f) K' := by
  cases w with
  | through lastError user =>
      obtain ⟨y, hy, hKy⟩ := h
      exact (hK lastError user y hKy).lead hy
  | returned user => exact h
  | threw e user => exact h

end

/-! ## Steps of the machine -/

namespace ReaderState

/-- The state behind a `FindNextFileW` that left `rest` in the search. -/
def advance (st : ReaderState σ) (handle : Nat) (rest : List FindData) (endError : U32) :
    ReaderState σ :=
  { st with win := { st.win with
    searches := st.win.searches.set handle ⟨rest, endError, 0, false⟩ } }

theorem next_cons {st : ReaderState σ} {handle : Nat} {fdw : FindData} {rest : List FindData}
    {endError : U32} (hh : st.handle = some handle)
    (hs : st.win.searches[handle]? = some ⟨fdw :: rest, endError, 0, false⟩) :
    st.next = .inl (.inner fdw, st.advance handle rest endError) := by
  simp [next, hh, Win32.findNextFile, hs, advance]

theorem next_nil {st : ReaderState σ} {handle : Nat} {endError : U32}
    (hh : st.handle = some handle)
    (hs : st.win.searches[handle]? = some ⟨[], endError, 0, false⟩) :
    st.next = endOfLoop { st with win := { st.win with lastError := endError } } := by
  simp [next, hh, Win32.findNextFile, hs]

theorem advance_search {st : ReaderState σ} {handle : Nat} {s : Search} {rest : List FindData}
    {endError : U32} (hs : st.win.searches[handle]? = some s) :
    (st.advance handle rest endError).win.searches[handle]? = some ⟨rest, endError, 0, false⟩ := by
  have hlt : handle < st.win.searches.length := (List.getElem?_eq_some_iff.mp hs).1
  simp [advance, hlt]

theorem advance_search_ne {st : ReaderState σ} {handle h : Nat} {rest : List FindData}
    {endError : U32} (hne : h ≠ handle) :
    (st.advance handle rest endError).win.searches[h]? = st.win.searches[h]? := by
  simp [advance, List.getElem?_set_ne (Ne.symm hne)]

variable {disk : Disk} {m : Manipulator σ}
  {K : U32 → σ → (Point × ReaderState σ) ⊕ ReadResult σ → Prop}

/-- Behind the loop of a directory with `abort_` set, `read` is left. -/
theorem endOfLoop_abort (st : ReaderState σ) {handle : Nat} {parts : List WString}
    (hh : st.handle = some handle) (hp : st.dr.path = joinPath parts) (ha : st.dr.abort = true) :
    Follows disk m st.endOfLoop
      (if st.win.lastError = ERROR_NO_MORE_FILES then .returned st.user
        else .threw (failedToRead (joinPath parts) st.win.lastError) st.user) K := by
  by_cases herr : st.win.lastError = ERROR_NO_MORE_FILES
  · rw [if_pos herr]
    have hend : st.endOfLoop = .inl (.outer, st.closeHandle) := by
      simp [endOfLoop, herr]
    have hleave : step disk (some m) (.outer, st.closeHandle) = st.closeHandle.leave := by
      have : st.closeHandle.dr.abort = true := by simp [closeHandle, hh, ha]
      simp [step, outer, this]
    refine ⟨st.closeHandle.closeStack, ?_, by simp [closeStack, closeHandle, hh]⟩
    rw [hend]
    exact (Leads.of_state _).trans (Leads.of_eq hleave)
  · rw [if_neg herr]
    refine ⟨st.closeHandle.closeStack, Leads.of_eq ?_, by simp [closeStack, closeHandle, hh]⟩
    simp [endOfLoop, hh, herr, unwind, hp]

/-- An abort whose callback is followed by the `FindNextFileW` of its directory. -/
theorem next_abort {st : ReaderState σ} {handle : Nat} (c : Call) (rest : Forest) {endError : U32}
    (hh : st.handle = some handle) (hp : st.dr.path = joinPath c.parts) (ha : st.dr.abort = true)
    (hs : st.win.searches[handle]? = some ⟨rest.listing, endError, 0, false⟩)
    (hc : c.after = rest.after endError) :
    Follows disk m st.next (c.stop st.win.lastError st.user) K := by
  have more : ∀ fdw rest', rest.listing = fdw :: rest' → c.after = .next →
      Follows disk m st.next (c.stop st.win.lastError st.user) K := by
    intro fdw rest' hl hafter
    rw [next_cons hh (hl ▸ hs)]
    have hstep : step disk (some m) (.inner fdw, st.advance handle rest' endError) =
        (st.advance handle rest' endError).endOfLoop := by
      simp [step, inner, advance, ha]
    refine Follows.lead ((Leads.of_state _).trans (Leads.of_eq hstep)) ?_
    simp only [Call.stop, hafter]
    exact endOfLoop_abort (st.advance handle rest' endError) hh hp ha
  cases rest with
  | nil =>
      rw [next_nil hh hs]
      simp only [Call.stop, hc, Forest.after]
      exact endOfLoop_abort { st with win := { st.win with lastError := endError } } hh hp ha
  | file name info rest => exact more _ _ rfl hc
  | dir name info sub rest => exact more _ _ rfl hc

/-- A callback, where `k` is what `read` does behind it. -/
theorem callManipulator_follows {st : ReaderState σ} {o : DirectoryReader} {c : Call}
    {k : ReaderState σ → (Point × ReaderState σ) ⊕ ReadResult σ} (hdr : st.dr = c.reader o)
    (hgo : ∀ sh : Shared σ, sh.abort = false → K sh.lastError sh.user (k (st.afterCall sh)))
    (hstop : ∀ sh : Shared σ, sh.abort = true →
      Follows disk m (k (st.afterCall sh)) (c.stop sh.lastError sh.user) K) :
    Follows disk m (callManipulator (some m) st k)
      ((Event.call c).run o m st.win.lastError st.user) K := by
  have habort : st.dr.abort = false := by
    rw [hdr]
    rfl
  have harg : m st.dr ⟨st.dr.abort, st.win.lastError, st.user⟩ =
      m (c.reader o) ⟨false, st.win.lastError, st.user⟩ := by
    rw [habort, hdr]
  cases hm : m (c.reader o) ⟨false, st.win.lastError, st.user⟩ with
  | ok _ sh =>
      have hcall : callManipulator (some m) st k = k (st.afterCall sh) := by
        simp only [callManipulator, harg, hm]
      rw [hcall]
      cases ha : sh.abort with
      | false =>
          have hrun : (Event.call c).run o m st.win.lastError st.user =
              .through sh.lastError sh.user := by
            simp [Event.run, hm, ha]
          rw [hrun]
          exact ⟨_, Leads.refl _, hgo sh ha⟩
      | true =>
          have hrun : (Event.call c).run o m st.win.lastError st.user =
              c.stop sh.lastError sh.user := by
            simp [Event.run, hm, ha]
          rw [hrun]
          exact hstop sh ha
  | error e sh =>
      have hcall : callManipulator (some m) st k = (st.afterCall sh).unwind e := by
        simp only [callManipulator, harg, hm]
      have hrun : (Event.call c).run o m st.win.lastError st.user = .threw e sh.user := by
        simp [Event.run, hm]
      rw [hcall, hrun]
      refine ⟨(st.afterCall sh).closeHandle.closeStack, Leads.refl _, ?_⟩
      simp only [closeStack, closeHandle, afterCall]
      split <;> rfl

/-! ## Standing at a directory -/

/-- The machine is at the `FindNextFileW` of the directory `parts`, with the entries of `f` still
to come. -/
structure AtNext (o : DirectoryReader) (parts : List WString) (handle : Nat) (f : Forest)
    (endError : U32) (st : ReaderState σ) : Prop where
  options : st.dr.options = o.options
  path : st.dr.path = joinPath parts
  level : st.dr.level = parts.length
  goesOn : st.dr.abort = false
  opened : st.handle = some handle
  search : st.win.searches[handle]? = some ⟨f.listing, endError, 0, false⟩
  depth : st.stack.length + 1 = parts.length

/-- From `st` to `st'` the stack is the same, and so is every search but that of `handle`. -/
structure Kept (handle : Nat) (st st' : ReaderState σ) : Prop where
  stack : st'.stack = st.stack
  length : st.win.searches.length ≤ st'.win.searches.length
  search : ∀ h < st.win.searches.length, h ≠ handle →
    st'.win.searches[h]? = st.win.searches[h]?

theorem Kept.refl (handle : Nat) (st : ReaderState σ) : Kept handle st st :=
  ⟨rfl, Nat.le_refl _, fun _ _ _ => rfl⟩

theorem Kept.trans {handle : Nat} {st st' st'' : ReaderState σ} (h : Kept handle st st')
    (h' : Kept handle st' st'') : Kept handle st st'' where
  stack := h'.stack.trans h.stack
  length := h.length.trans h'.length
  search := fun i hi hne =>
    (h'.search i (Nat.lt_of_lt_of_le hi h.length) hne).trans (h.search i hi hne)

theorem publish_eq_reader {dr o : DirectoryReader} {c : Call} (ho : dr.options = o.options)
    (hp : dr.path = joinPath c.parts) (hl : dr.level = c.parts.length) (ha : dr.abort = false) :
    dr.publish (c.node.findData c.name) = c.reader o := by
  cases dr
  cases o
  simp only [DirectoryReader.options, DirectoryReader.mk.injEq] at ho
  simp_all [Call.reader, DirectoryReader.publish]

variable {o : DirectoryReader} {parts : List WString} {handle : Nat} {endError : U32}

/-- The state in which an entry has been published, with the search moved behind it. -/
def published (st : ReaderState σ) (o : DirectoryReader) (c : Call) (handle : Nat)
    (rest : List FindData) (endError : U32) : ReaderState σ :=
  { st.advance handle rest endError with dr := c.reader o }

/-- The entry at the head of the listing is published, and `k` says what becomes of it. -/
theorem next_entry {st : ReaderState σ} {f : Forest} (c : Call) (rest : Forest)
    (h : AtNext o c.parts handle f endError st) (hname : ValidName c.name)
    (hl : f.listing = c.node.findData c.name :: rest.listing) :
    Leads (step disk (some m)) st.next
      (let st' := st.published o c handle rest.listing endError
       if (c.node.findData c.name).directory then
         if o.listDirectories ∧ o.matchName c.name then callManipulator (some m) st' descend
         else st'.descend
       else if o.matchName c.name then callManipulator (some m) st' next else st'.next) := by
  have hcfile : (c.node.findData c.name).cFileName = c.name := by
    cases c.node <;> rfl
  obtain ⟨hne, -, hdot, hdotdot⟩ := hname
  have hs := h.search
  rw [hl] at hs
  rw [next_cons h.opened hs]
  refine (Leads.of_state _).trans (Leads.of_eq ?_)
  have hadv : (st.advance handle rest.listing endError).dr = st.dr := rfl
  have hpub : st.dr.publish (c.node.findData c.name) = c.reader o :=
    publish_eq_reader h.options h.path h.level h.goesOn
  have hmatch : (c.reader o).matchName c.name = o.matchName c.name := rfl
  have hlist : (c.reader o).listDirectories = o.listDirectories := rfl
  simp only [step, inner, hadv, h.goesOn, hcfile, hne, hdot, hdotdot, hpub, hmatch, hlist,
    Bool.false_eq_true, if_false, false_and]
  rfl

/-- What holds of the state behind the callback of an entry. -/
theorem atNext_published {st : ReaderState σ} {f : Forest} (c : Call) (rest : Forest)
    (h : AtNext o c.parts handle f endError st) (sh : Shared σ) (ha : sh.abort = false) :
    AtNext o c.parts handle rest endError
      ((st.published o c handle rest.listing endError).afterCall sh) where
  options := rfl
  path := rfl
  level := rfl
  goesOn := ha
  opened := h.opened
  search := advance_search h.search
  depth := h.depth

theorem kept_published (st : ReaderState σ) (o : DirectoryReader) (c : Call) (handle : Nat)
    (rest : List FindData) (endError : U32) (sh : Shared σ) :
    Kept handle st ((st.published o c handle rest endError).afterCall sh) where
  stack := rfl
  length := by simp [afterCall, published, advance]
  search := fun _ _ hne => advance_search_ne hne

theorem afterCall_self {st : ReaderState σ} (ha : st.dr.abort = false) :
    st.afterCall ⟨false, st.win.lastError, st.user⟩ = st := by
  unfold afterCall
  rw [← ha]

/-- An entry with or without its callback, where `k` is what `read` does behind it and `es` are the
events of that. -/
theorem entry_follows {st : ReaderState σ} (c : Call) {es : List Event}
    {k : ReaderState σ → (Point × ReaderState σ) ⊕ ReadResult σ} {called : Prop} [Decidable called]
    (hdr : st.dr = c.reader o)
    (hgo : ∀ sh : Shared σ, sh.abort = false →
      Follows disk m (k (st.afterCall sh)) (runEvents o m es sh.lastError sh.user) K)
    (hstop : ∀ (sh : Shared σ) K, sh.abort = true →
      Follows disk m (k (st.afterCall sh)) (c.stop sh.lastError sh.user) K) :
    Follows disk m (if called then callManipulator (some m) st k else k st)
      (runEvents o m ((if called then [.call c] else []) ++ es) st.win.lastError st.user) K := by
  split
  · simp only [List.singleton_append, runEvents]
    refine Follows.bind (callManipulator_follows hdr (K := fun le user y =>
      ∃ sh : Shared σ, sh.abort = false ∧ sh.lastError = le ∧ sh.user = user ∧
        y = k (st.afterCall sh)) ?_ (fun sh => hstop sh _)) ?_
    · intro sh ha
      exact ⟨sh, ha, rfl, rfl, rfl⟩
    · rintro _ _ _ ⟨sh, ha, rfl, rfl, rfl⟩
      exact hgo sh ha
  · have ha : st.dr.abort = false := by rw [hdr]; rfl
    have := hgo ⟨false, st.win.lastError, st.user⟩ rfl
    rwa [afterCall_self ha] at this

/-! ## Directories -/

/-- Behind the last entry of a directory. -/
def Passed (o : DirectoryReader) (parts : List WString) (handle : Nat) (endError : U32)
    (st : ReaderState σ) (lastError : U32) (user : σ)
    (y : (Point × ReaderState σ) ⊕ ReadResult σ) : Prop :=
  ∃ st', y = st'.next ∧ AtNext o parts handle .nil endError st' ∧ Kept handle st st' ∧
    st'.win.lastError = lastError ∧ st'.user = user

/-- Behind a directory: the machine is at the head of the `for(;;)` with a handle it has closed. -/
def Left (o : DirectoryReader) (st : ReaderState σ) (lastError : U32) (user : σ)
    (y : (Point × ReaderState σ) ⊕ ReadResult σ) : Prop :=
  ∃ st', y = .inl (.outer, st') ∧ st'.dr.options = o.options ∧ st'.dr.abort = false ∧
    st'.handle ≠ none ∧ st'.stack = st.stack ∧
    (∀ h < st.win.searches.length, st'.win.searches[h]? = st.win.searches[h]?) ∧
    st.win.searches.length ≤ st'.win.searches.length ∧
    st'.win.lastError = lastError ∧ st'.user = user

/-- The state behind a `FindFirstFileW` that succeeded. -/
def entered (st : ReaderState σ) (info : DirInfo) (entries : Forest) : ReaderState σ :=
  { st with
    win := { st.win with searches := st.win.searches ++
      [⟨⟨['.', '.'], true, info.dotdotStat⟩ :: entries.listing, info.endError, 0, false⟩] }
    dr := { st.dr with level := st.stack.length + 1 }
    handle := some st.win.searches.length }

/-- The state in which the search of a directory has listed its two dot entries. -/
def behindDots (st : ReaderState σ) (info : DirInfo) (entries : Forest) : ReaderState σ :=
  (st.entered info entries).advance st.win.searches.length entries.listing info.endError

theorem behindDots_search {st : ReaderState σ} {info : DirInfo} {entries : Forest} {h : Nat}
    (hlt : h < st.win.searches.length) :
    (st.behindDots info entries).win.searches[h]? = st.win.searches[h]? := by
  unfold behindDots
  rw [advance_search_ne (Nat.ne_of_lt hlt)]
  exact List.getElem?_append_left hlt

theorem behindDots_length (st : ReaderState σ) (info : DirInfo) (entries : Forest) :
    (st.behindDots info entries).win.searches.length = st.win.searches.length + 1 := by
  simp [behindDots, entered, advance]

theorem inner_dot {st : ReaderState σ} {stat : Stat} (ha : st.dr.abort = false)
    (hdot : st.dr.listDot = false) :
    st.inner (some m) ⟨['.'], true, stat⟩ = st.next := by
  simp [inner, ha, hdot]

theorem inner_dotdot {st : ReaderState σ} {stat : Stat} (ha : st.dr.abort = false)
    (hdotdot : st.dr.listDotdot = false) :
    st.inner (some m) ⟨['.', '.'], true, stat⟩ = st.next := by
  simp [inner, ha, hdotdot]

/-- `read` opens a directory. -/
theorem outer_opened {manipulator : Option (Manipulator σ)} {st : ReaderState σ} {info : DirInfo}
    {entries : Forest} (hsearch : disk.findFirst st.dr.path = info.search entries)
    (hopen : info.openError = none) (ha : st.dr.abort = false) (hh : st.handle = none) :
    step disk manipulator (.outer, st) =
      .inl (.inner ⟨['.'], true, info.stat⟩, st.entered info entries) := by
  simp only [DirInfo.search, hopen] at hsearch
  show st.outer disk = _
  unfold outer
  rw [if_neg (by simp [ha])]
  simp only [hh, Win32.findFirstFile, hsearch]
  rfl

theorem entered_next (st : ReaderState σ) (info : DirInfo) (entries : Forest) :
    (st.entered info entries).next =
      .inl (.inner ⟨['.', '.'], true, info.dotdotStat⟩, st.behindDots info entries) :=
  next_cons rfl List.getElem?_concat_length

/-- `read` opens a directory and skips its dot entries. -/
theorem outer_entered {st : ReaderState σ} {info : DirInfo} {entries : Forest}
    (hsearch : disk.findFirst st.dr.path = info.search entries) (hopen : info.openError = none)
    (ha : st.dr.abort = false) (hh : st.handle = none)
    (hdot : st.dr.listDot = false) (hdotdot : st.dr.listDotdot = false) :
    Leads (step disk (some m)) (.inl (.outer, st)) (st.behindDots info entries).next := by
  have hskip : step disk (some m) (.inner ⟨['.'], true, info.stat⟩, st.entered info entries) =
      (st.entered info entries).next := inner_dot ha hdot
  refine ((Leads.of_state _).trans (Leads.of_eq (outer_opened hsearch hopen ha hh))).trans ?_
  refine ((Leads.of_state _).trans (Leads.of_eq (hskip.trans (entered_next st info entries)))).trans ?_
  exact (Leads.of_state _).trans (Leads.of_eq (inner_dotdot ha hdotdot))

theorem findClose_search_ne {handle h : Nat} {w : Win32} (hne : h ≠ handle) :
    (w.findClose handle).searches[h]? = w.searches[h]? := by
  unfold Win32.findClose
  split
  · rfl
  · exact List.getElem?_set_ne (Ne.symm hne)

theorem findClose_length (handle : Nat) (w : Win32) :
    (w.findClose handle).searches.length = w.searches.length := by
  unfold Win32.findClose
  split
  · rfl
  · exact List.length_set

theorem findClose_lastError (handle : Nat) (w : Win32) :
    (w.findClose handle).lastError = w.lastError := by
  unfold Win32.findClose
  split <;> rfl

/-- Behind the last entry of a directory its handle is closed, unless the search ended badly. -/
theorem passed_left {st st' : ReaderState σ} {h : Nat}
    (hat : AtNext o parts h .nil endError st') (hnew : st.win.searches.length ≤ h)
    (hstack : st'.stack = st.stack) (hlen : st.win.searches.length ≤ st'.win.searches.length)
    (hkept : ∀ i < st.win.searches.length, st'.win.searches[i]? = st.win.searches[i]?) :
    Follows disk m st'.next
      (runEvents o m [.endOfDirectory (joinPath parts) endError] st'.win.lastError st'.user)
      (Left o st) := by
  rw [next_nil hat.opened hat.search]
  simp only [runEvents, Event.run]
  by_cases herr : endError = ERROR_NO_MORE_FILES
  · rw [if_pos herr]
    let closed : ReaderState σ :=
      { st' with win := Win32.findClose h { st'.win with lastError := endError } }
    have hend : endOfLoop { st' with win := { st'.win with lastError := endError } } =
        .inl (.outer, closed) := by
      simp only [endOfLoop, herr, ne_eq, not_true_eq_false, and_false, if_false, closeHandle,
        hat.opened, closed]
    rw [hend]
    refine ⟨_, Leads.refl _, closed, rfl, hat.options, hat.goesOn, ?_, hstack, ?_, ?_, ?_, rfl⟩
    · simp only [closed, hat.opened]
      exact Option.some_ne_none _
    · intro i hi
      have hne : i ≠ h := Nat.ne_of_lt (Nat.lt_of_lt_of_le hi hnew)
      exact (findClose_search_ne hne).trans (hkept i hi)
    · rw [findClose_length]
      exact hlen
    · exact findClose_lastError _ _
  · rw [if_neg herr]
    have hend : endOfLoop { st' with win := { st'.win with lastError := endError } } =
        unwind { st' with win := { st'.win with lastError := endError } }
          (failedToRead (joinPath parts) endError) := by
      simp [endOfLoop, herr, hat.opened, hat.path]
    refine ⟨_, Leads.of_eq hend, ?_⟩
    simp [closeStack, closeHandle, hat.opened]

/-- A directory that does not open. -/
theorem outer_openFailed {st : ReaderState σ} {err : U32}
    (hsearch : disk.findFirst (joinPath parts) = .error err) (hp : st.dr.path = joinPath parts)
    (ha : st.dr.abort = false) (hh : st.handle = none) :
    Follows disk m (.inl (.outer, st))
      (runEvents o m [.openFailed (joinPath parts) err] st.win.lastError st.user) K := by
  let failed : ReaderState σ :=
    { st with
      win := { st.win with lastError := err }
      dr := { st.dr with level := st.stack.length + 1 } }
  simp only [runEvents, Event.run]
  by_cases herr : err = ERROR_PATH_NOT_FOUND
  · rw [if_pos herr]
    refine ⟨failed.closeStack, (Leads.of_state _).trans (Leads.of_eq ?_), rfl⟩
    show st.outer disk = _
    unfold outer
    rw [if_neg (by simp [ha])]
    simp only [hh, Win32.findFirstFile, hp, hsearch, if_pos herr]
    simp [leave, failed, closeStack, hp, hh]
  · rw [if_neg herr]
    refine ⟨failed.closeStack, (Leads.of_state _).trans (Leads.of_eq ?_), rfl⟩
    show st.outer disk = _
    unfold outer
    rw [if_neg (by simp [ha])]
    simp only [hh, Win32.findFirstFile, hp, hsearch, if_neg herr]
    simp [failed, closeStack, hp, hh]

/-- A directory whose entries are followed is followed. -/
theorem dir_follows (st : ReaderState σ) {info : DirInfo} {entries : Forest} {inside : List Event}
    (hsearch : disk.findFirst (joinPath parts) = info.search entries)
    (ho : st.dr.options = o.options) (hp : st.dr.path = joinPath parts)
    (ha : st.dr.abort = false) (hh : st.handle = none) (hd : st.stack.length + 1 = parts.length)
    (hdot : o.listDot = false) (hdotdot : o.listDotdot = false)
    (hinside : ∀ (handle : Nat) (st' : ReaderState σ), AtNext o parts handle entries info.endError st' →
      Follows disk m st'.next (runEvents o m inside st'.win.lastError st'.user)
        (Passed o parts handle info.endError st')) :
    Follows disk m (.inl (.outer, st))
      (runEvents o m (info.events parts inside) st.win.lastError st.user) (Left o st) := by
  have hlistDot : st.dr.listDot = false := (congrArg DirectoryReader.listDot ho).trans hdot
  have hlistDotdot : st.dr.listDotdot = false :=
    (congrArg DirectoryReader.listDotdot ho).trans hdotdot
  cases hopen : info.openError with
  | some err =>
      rw [DirInfo.events_of_openError hopen]
      simp only [DirInfo.search, hopen] at hsearch
      exact outer_openFailed hsearch hp ha hh
  | none =>
      rw [DirInfo.events_of_open hopen, runEvents_append]
      have hat : AtNext o parts st.win.searches.length entries info.endError
          (st.behindDots info entries) :=
        { options := ho
          path := hp
          level := hd
          goesOn := ha
          opened := rfl
          search := advance_search (s := ⟨⟨['.', '.'], true, info.dotdotStat⟩ :: entries.listing,
            info.endError, 0, false⟩) List.getElem?_concat_length
          depth := hd }
      refine Follows.lead (outer_entered (hp ▸ hsearch) hopen ha hh hlistDot hlistDotdot) ?_
      refine Follows.bind (hinside _ _ hat) ?_
      rintro _ _ _ ⟨st', rfl, hat', hkept, rfl, rfl⟩
      have hlen := behindDots_length st info entries
      refine passed_left hat' (Nat.le_refl _) hkept.stack ?_ ?_
      · have := hkept.length
        omega
      · intro i hi
        exact (hkept.search i (by omega) (by omega)).trans (behindDots_search hi)

/-- The state in which `read` has gone into the directory of an entry. -/
def pushed (st : ReaderState σ) (handle : Nat) : ReaderState σ :=
  { st with
    stack := ⟨handle, st.dr.path⟩ :: st.stack
    dr := { st.dr with path := st.dr.path ++ pathDelimiter ++ st.dr.name }
    handle := none }

theorem descend_pushed {st : ReaderState σ} (hh : st.handle = some handle)
    (hrec : st.dr.recursive = true)
    (hmax : st.dr.maxLevel = 0 ∨ st.stack.length < st.dr.maxLevel) :
    st.descend = .inl (.outer, st.pushed handle) := by
  unfold descend
  rw [if_pos ⟨hrec, hmax⟩]
  simp only [hh]
  rfl

theorem descend_next {st : ReaderState σ}
    (h : ¬(st.dr.recursive = true ∧ (st.dr.maxLevel = 0 ∨ st.stack.length < st.dr.maxLevel))) :
    st.descend = st.next := by
  unfold descend
  rw [if_neg h]

/-- An abort in the callback of a directory that `read` goes into: it returns without a test of
the last error. -/
theorem pushed_abort {st : ReaderState σ} (ha : st.dr.abort = true) :
    Follows disk m (.inl (.outer, st.pushed handle)) (.returned st.user) K := by
  refine ⟨(st.pushed handle).closeStack, (Leads.of_state _).trans (Leads.of_eq ?_), rfl⟩
  show (st.pushed handle).outer disk = _
  unfold outer
  rw [if_pos (show (st.pushed handle).dr.abort = true from ha)]
  rfl

/-- Behind a directory, `read` takes its parent from the stack and goes on there. -/
theorem left_resumed {st st' : ReaderState σ} {f : Forest} {lastError : U32} {user : σ}
    {y : (Point × ReaderState σ) ⊕ ReadResult σ} (hat : AtNext o parts handle f endError st)
    (hkept : Kept handle st' st)
    (hlt : handle < st'.win.searches.length) (h : Left o (st.pushed handle) lastError user y) :
    ∃ st'', Leads (step disk (some m)) y st''.next ∧ AtNext o parts handle f endError st'' ∧
      Kept handle st' st'' ∧ st''.win.lastError = lastError ∧ st''.user = user := by
  obtain ⟨z, rfl, ho, ha, hh, hstack, hsearch, hlen, rfl, rfl⟩ := h
  let back : ReaderState σ :=
    { z with
      handle := some handle
      stack := st.stack
      dr := { z.dr with path := st.dr.path, level := st.stack.length + 1 } }
  have hpop : step disk (some m) (.outer, z) = .inl (.inner resumed, back) := by
    show z.outer disk = _
    unfold outer
    rw [if_neg (by simp [ha])]
    obtain ⟨i, hi⟩ := Option.ne_none_iff_exists'.mp hh
    simp only [hi, hstack, pushed]
    rfl
  have hskip : step disk (some m) (.inner resumed, back) = back.next := by
    simp [step, inner, resumed, back, ha]
  have hlt' : handle < st.win.searches.length := Nat.lt_of_lt_of_le hlt hkept.length
  refine ⟨back, ?_, ?_, ?_, rfl, rfl⟩
  · exact (Leads.of_state _).trans ((Leads.of_eq hpop).trans
      ((Leads.of_state _).trans (Leads.of_eq hskip)))
  · exact {
      options := ho
      path := hat.path
      level := hat.depth
      goesOn := ha
      opened := rfl
      search := (hsearch handle hlt').trans hat.search
      depth := hat.depth }
  · refine hkept.trans ⟨rfl, hlen, ?_⟩
    intro i hi _
    exact hsearch i hi

/-! ## Forests -/

theorem Passed.of_kept {st st' : ReaderState σ} {lastError : U32} {user : σ}
    {y : (Point × ReaderState σ) ⊕ ReadResult σ} (hkept : Kept handle st st')
    (h : Passed o parts handle endError st' lastError user y) :
    Passed o parts handle endError st lastError user y := by
  obtain ⟨z, hy, hat, hkept', hle, hu⟩ := h
  exact ⟨z, hy, hat, hkept.trans hkept', hle, hu⟩

theorem descends_iff (o : DirectoryReader) (st : ReaderState σ) (hd : st.stack.length + 1 = parts.length)
    (ho : st.dr.options = o.options) :
    o.descends parts = true ↔
      st.dr.recursive = true ∧ (st.dr.maxLevel = 0 ∨ st.stack.length < st.dr.maxLevel) := by
  have hrec : st.dr.recursive = o.recursive := by
    show st.dr.options.recursive = o.options.recursive
    rw [ho]
  have hmax : st.dr.maxLevel = o.maxLevel := by
    show st.dr.options.maxLevel = o.options.maxLevel
    rw [ho]
  have hlen : parts.length - 1 = st.stack.length := by omega
  simp only [DirectoryReader.descends, decide_eq_true_eq, hrec, hmax, hlen]

/-- The entries of a directory are followed. -/
theorem forest_follows (hdot : o.listDot = false) (hdotdot : o.listDotdot = false) (f : Forest) :
    ∀ (parts : List WString) (orphan : Bool) (handle : Nat) (endError : U32) (st : ReaderState σ),
      f.Mounted disk parts → AtNext o parts handle f endError st →
      Follows disk m st.next
        (runEvents o m (f.events o endError parts orphan) st.win.lastError st.user)
        (Passed o parts handle endError st) := by
  induction f with
  | nil =>
      intro parts orphan handle endError st _ hat
      exact ⟨_, Leads.refl _, st, rfl, hat, Kept.refl _ _, rfl, rfl⟩
  | file name info rest ih =>
      intro parts orphan handle endError st hmounted hat
      obtain ⟨hname, -, hrest⟩ := hmounted
      let c : Call := ⟨parts, name, .file info, orphan, rest.after endError⟩
      have hkind : (c.node.findData c.name).directory = false := rfl
      refine Follows.lead (next_entry c rest hat hname rfl) ?_
      simp only [hkind, Bool.false_eq_true, if_false]
      refine entry_follows c rfl ?_ ?_
      · intro sh ha
        exact (ih parts orphan handle endError _ hrest (atNext_published c rest hat sh ha)).mono
          (fun _ _ _ h => h.of_kept (kept_published st o c handle rest.listing endError sh))
      · intro sh K ha
        exact next_abort c rest hat.opened rfl ha (advance_search hat.search) rfl
  | dir name info sub rest ihs ihr =>
      intro parts orphan handle endError st hmounted hat
      obtain ⟨hname, hhas, hsub, hrest⟩ := hmounted
      let c : Call := ⟨parts, name, .dir info sub, orphan,
        if o.descends parts then .descend else rest.after endError⟩
      have hkind : (c.node.findData c.name).directory = true := rfl
      have hdesc (sh : Shared σ) := descends_iff o
        ((st.published o c handle rest.listing endError).afterCall sh) hat.depth rfl
      have hlt : handle < st.win.searches.length := (List.getElem?_eq_some_iff.mp hat.search).1
      have hparts : parts ≠ [] := List.ne_nil_of_length_pos (by have := hat.depth; omega)
      simp only [Forest.events, List.append_assoc]
      refine Follows.lead (next_entry c rest hat hname rfl) ?_
      simp only [hkind, if_true]
      refine entry_follows c rfl ?_ ?_
      · intro sh ha
        have hat' := atNext_published c rest hat sh ha
        have hkept := kept_published st o c handle rest.listing endError sh
        have hrestFollows := (ihr parts orphan handle endError _ hrest hat').mono
          (fun _ _ _ h => h.of_kept hkept)
        by_cases hd : o.descends parts = true
        · rw [descend_pushed hat'.opened ((hdesc sh).mp hd).1 ((hdesc sh).mp hd).2, if_pos hd,
            runEvents_append]
          have hpath : (((st.published o c handle rest.listing endError).afterCall sh).pushed
              handle).dr.path = joinPath (parts ++ [name]) := (joinPath_append_name hparts name).symm
          have hinto := dir_follows (m := m) (o := o)
            (((st.published o c handle rest.listing endError).afterCall sh).pushed handle)
            (hhas.search info sub rfl) rfl hpath ha rfl (by simp [pushed, afterCall, published,
              advance, hat.depth]) hdot hdotdot
            (fun h st' hin => ihs (parts ++ [name]) (orphan || !info.accessible) h info.endError st'
              hsub hin)
          refine Follows.bind hinto ?_
          intro lastError user y hleft
          obtain ⟨z, hz, hatz, hkeptz, rfl, rfl⟩ := left_resumed hat' hkept hlt hleft
          refine Follows.lead hz ?_
          exact (ihr parts orphan handle endError z hrest hatz).mono
            (fun _ _ _ h => h.of_kept hkeptz)
        · rw [descend_next (fun h => hd ((hdesc sh).mpr h)), if_neg hd, List.nil_append]
          exact hrestFollows
      · intro sh K ha
        have hopened : ((st.published o c handle rest.listing endError).afterCall sh).handle =
            some handle := hat.opened
        by_cases hd : o.descends parts = true
        · rw [descend_pushed hopened ((hdesc sh).mp hd).1 ((hdesc sh).mp hd).2]
          simp only [Call.stop, c, if_pos hd]
          exact pushed_abort ha
        · rw [descend_next (fun h => hd ((hdesc sh).mpr h))]
          refine next_abort c rest hat.opened rfl ha (advance_search hat.search) ?_
          exact if_neg hd

end ReaderState

/-! ## The whole walk -/

/-- The result of `read` is the end `w`: `read` returns also where the walk is through. -/
def WalkEnd.Gives (w : WalkEnd σ) (r : ReadResult σ) : Prop :=
  match w with
  | .through _ user | .returned user => ∃ st, r = .ok () st ∧ st.user = user
  | .threw e user => ∃ st, r = .error e st ∧ st.user = user

/-- `read` on a tree ends, with the result that the events of the tree have. -/
theorem DirectoryReader.read_follows (t : Tree) (o : DirectoryReader) (m : Manipulator σ)
    (path : WString) (win : Win32) (user : σ) (hdot : o.listDot = false)
    (hdotdot : o.listDotdot = false) :
    ∃ r, Halts (ReaderState.step (t.disk (rootPath path)) (some m)) (.outer, o.start path win user) r ∧
      (runEvents o m (t.events o (rootPath path)) win.lastError user).Gives r := by
  have hroot : (t.disk (rootPath path)).Has [rootPath path] t.node :=
    Tree.disk_has (fun _ h => absurd h List.not_mem_nil) (by rfl : t.node.descend [] = some t.node)
  have hfollows := ReaderState.dir_follows (m := m) (o := o) (o.start path win user)
    (hroot.search t.info t.entries rfl) rfl (by simp [start, joinPath, List.intercalate]) rfl rfl rfl
    hdot hdotdot
    (fun h st hat => ReaderState.forest_follows hdot hdotdot t.entries [rootPath path] false h _ st
      (Tree.mounted (rootPath path) t) hat)
  change Follows _ _ _ (runEvents o m (t.events o (rootPath path)) win.lastError user) _ at hfollows
  cases hend : runEvents o m (t.events o (rootPath path)) win.lastError user with
  | through lastError user' =>
      rw [hend] at hfollows
      obtain ⟨_, hlead, z, rfl, -, ha, hh, hstack, -, -, -, rfl⟩ := hfollows
      have hleave : ReaderState.step (t.disk (rootPath path)) (some m) (.outer, z) = z.leave := by
        show z.outer _ = _
        unfold ReaderState.outer
        rw [if_neg (by simp [ha])]
        obtain ⟨i, hi⟩ := Option.ne_none_iff_exists'.mp hh
        have hempty : z.stack = [] := hstack
        simp only [hi, hempty]
      exact ⟨_, hlead.trans ((Leads.of_state _).trans (Leads.of_eq hleave)), z.closeStack, rfl, rfl⟩
  | returned user' =>
      rw [hend] at hfollows
      obtain ⟨st, hlead, hu⟩ := hfollows
      exact ⟨_, hlead, st, rfl, hu⟩
  | threw e user' =>
      rw [hend] at hfollows
      obtain ⟨st, hlead, hu⟩ := hfollows
      exact ⟨_, hlead, st, rfl, hu⟩

/-- `read` ends on every tree: some fuel is enough. -/
theorem DirectoryReader.read_total (t : Tree) (o : DirectoryReader) (m : Manipulator σ)
    (path : WString) (win : Win32) (user : σ) (hdot : o.listDot = false)
    (hdotdot : o.listDotdot = false) :
    ∃ fuel, (o.read fuel (t.disk (rootPath path)) (some m) path win user).isSome := by
  obtain ⟨r, hhalts, -⟩ := DirectoryReader.read_follows t o m path win user hdot hdotdot
  obtain ⟨fuel, hrun⟩ := halts_iff.mp hhalts
  exact ⟨fuel, by simp only [DirectoryReader.read, hrun, Option.isSome_some]⟩

/-- Whatever the fuel, a result of `read` is the one of the events. -/
theorem DirectoryReader.read_gives {t : Tree} {o : DirectoryReader} {m : Manipulator σ}
    {path : WString} {win : Win32} {user : σ} {fuel : Nat} {r : ReadResult σ}
    (hdot : o.listDot = false) (hdotdot : o.listDotdot = false)
    (h : o.read fuel (t.disk (rootPath path)) (some m) path win user = some r) :
    (runEvents o m (t.events o (rootPath path)) win.lastError user).Gives r := by
  obtain ⟨r', hhalts, hgives⟩ := DirectoryReader.read_follows t o m path win user hdot hdotdot
  have : r = r' := Halts.unique (halts_iff.mpr ⟨fuel, h⟩) hhalts
  rwa [this]

end Spacenet
