-- SUMMARY: The walk ends unless it goes into the dot entries that it has been told to list.
import Spacenet.Correctness.Aborting

/-!
# Termination

`list_dot_` and `list_dotdot_` let the dot entries through the filter, and the
descent has no test of its own for them. With `recursive_` set, `read` goes into the
first dot entry of the root and of every directory that this leads to, which is the
root each time. Without `recursive_`, it ends with the listing of the root.
-/

namespace Spacenet

open Machine

variable {σ α : Type}

/-! ## Dot paths -/

/-- The name is that of a dot entry. -/
def IsDot (name : WString) : Prop := name = (['.'] : WString) ∨ name = (['.', '.'] : WString)

theorem resolveDots_dots {names : List WString} (h : ∀ n ∈ names, IsDot n) : resolveDots names = [] := by
  unfold resolveDots
  induction names with
  | nil => rfl
  | cons n names ih =>
      have hrest := ih fun n' hn' => h n' (List.mem_cons_of_mem _ hn')
      rw [List.foldl_cons]
      rcases h n List.mem_cons_self with rfl | rfl
      · exact hrest
      · exact hrest

/-- A path of dot components leads to the root. -/
theorem Tree.resolve_dots (root : WString) (t : Tree) {names : List WString} (h : ∀ n ∈ names, IsDot n) :
    t.resolve root (joinPath (root :: names)) = some t.node := by
  cases names with
  | nil => simp [resolve, joinPath, List.intercalate]
  | cons name names =>
      have hdelim : ∀ n ∈ name :: names, delimiterChar ∉ n := by
        intro n hn
        rcases h n hn with rfl | rfl
        · decide
        · decide
      have hsplit : (joinPath (name :: names)).splitOn delimiterChar = name :: names :=
        List.splitOn_intercalate delimiterChar hdelim (List.cons_ne_nil _ _)
      rw [joinPath_cons_cons, resolve, if_pos (by simp), List.drop_left]
      simp only [if_true, hsplit, resolveDots_dots h]
      rfl

namespace ReaderState

variable {m : Manipulator σ} {disk : Disk} {st : ReaderState σ} {handle : Nat}

/-! ## Going into dot entries -/

/-- The reader lists the dot entry `name`. -/
def ListsDot (o : DirectoryReader) (name : WString) : Prop :=
  name = (['.'] : WString) ∧ o.listDot = true ∨ name = (['.', '.'] : WString) ∧ o.listDotdot = true

/-- `read` goes into a dot entry that it lists. -/
theorem inner_dot_descends (hm : GoesOn m) (st : ReaderState σ) {name : WString} (stat : Stat)
    (hname : ListsDot st.dr name)
    (ha : st.dr.abort = false) (hrec : st.dr.recursive = true) (hmax : st.dr.maxLevel = 0)
    (hh : st.handle = some handle) :
    ∃ st', st.inner (some m) ⟨name, true, stat⟩ = .inl (.outer, st') ∧
      st'.dr.options = st.dr.options ∧ st'.dr.abort = false ∧ st'.handle = none ∧
      st'.dr.path = st.dr.path ++ pathDelimiter ++ name := by
  have hentry := @inner_entry _ st ⟨name, true, stat⟩ (some m) ha
    (by rcases hname with ⟨rfl, -⟩ | ⟨rfl, -⟩ <;> simp)
    (by rcases hname with ⟨rfl, h⟩ | ⟨rfl, -⟩ <;> simp [*])
    (by rcases hname with ⟨rfl, -⟩ | ⟨rfl, h⟩ <;> simp [*])
  have hdescend : ∀ st' : ReaderState σ, st'.dr.options = st.dr.options → st'.dr.abort = false →
      st'.handle = some handle → st'.dr.path = st.dr.path → st'.dr.name = name →
      ∃ st'', st'.descend = .inl (.outer, st'') ∧ st''.dr.options = st.dr.options ∧
        st''.dr.abort = false ∧ st''.handle = none ∧
        st''.dr.path = st.dr.path ++ pathDelimiter ++ name := by
    intro st' ho ha' hh' hp hn
    have hrec' : st'.dr.recursive = true := (congrArg DirectoryReader.recursive ho).trans hrec
    have hmax' : st'.dr.maxLevel = 0 := (congrArg DirectoryReader.maxLevel ho).trans hmax
    refine ⟨st'.pushed handle, descend_pushed hh' hrec' (.inl hmax'), ho, ha', rfl, ?_⟩
    rw [← hp, ← hn]
    rfl
  rw [hentry]
  simp only [if_true]
  split
  · obtain ⟨lastError, user, hcall⟩ := hm (st.dr.publish ⟨name, true, stat⟩) st.win.lastError st.user
    have harg : m (st.atCall ⟨name, true, stat⟩).dr ⟨(st.atCall ⟨name, true, stat⟩).dr.abort,
        (st.atCall ⟨name, true, stat⟩).win.lastError, (st.atCall ⟨name, true, stat⟩).user⟩ =
          .ok () ⟨false, lastError, user⟩ := by
      have ha' : (st.atCall ⟨name, true, stat⟩).dr.abort = false := ha
      rw [ha']
      exact hcall
    simp only [callManipulator, harg]
    exact hdescend _ rfl rfl hh rfl rfl
  · exact hdescend _ rfl ha hh rfl rfl

/-- `read` is about to open the directory at a path of dot components. -/
structure AtDot (o : DirectoryReader) (root : WString) (st : ReaderState σ) : Prop where
  options : st.dr.options = o.options
  goesOn : st.dr.abort = false
  unopened : st.handle = none
  path : ∃ names, st.dr.path = joinPath (root :: names) ∧ ∀ n ∈ names, IsDot n

/-- The path goes on with a dot entry. -/
theorem AtDot.into {o : DirectoryReader} {root name : WString} {st' : ReaderState σ} (h : AtDot o root st)
    (hname : ListsDot st.dr name) (ho : st'.dr.options = st.dr.options) (ha : st'.dr.abort = false)
    (hh : st'.handle = none) (hp : st'.dr.path = st.dr.path ++ pathDelimiter ++ name) : AtDot o root st' := by
  obtain ⟨names, hpath, hnames⟩ := h.path
  refine ⟨ho.trans h.options, ha, hh, names ++ [name], ?_, ?_⟩
  · rw [hp, hpath, ← List.cons_append, joinPath_append_name (List.cons_ne_nil root names)]
  · intro n hn
    rcases List.mem_append.mp hn with hn | hn
    · exact hnames n hn
    · rw [List.mem_singleton.mp hn]
      exact hname.imp And.left And.left

/-- The run goes on forever: behind each dot entry comes another. -/
theorem AtDot.proceeds {o : DirectoryReader} {root : WString} {t : Tree} (hm : GoesOn m)
    (hopen : t.info.openError = none) (hrec : o.recursive = true) (hmax : o.maxLevel = 0)
    (hdots : o.listDot = true ∨ o.listDotdot = true) (h : AtDot o root st) :
    ∃ st' : ReaderState σ, AtDot o root st' ∧
      Proceeds (step (t.disk root) (some m)) (.outer, st) (.outer, st') := by
  obtain ⟨names, hpath, hnames⟩ := h.path
  have hrec' : st.dr.recursive = true := (congrArg DirectoryReader.recursive h.options).trans hrec
  have hmax' : st.dr.maxLevel = 0 := (congrArg DirectoryReader.maxLevel h.options).trans hmax
  have hsearch : (t.disk root).findFirst st.dr.path = t.info.search t.entries := by
    show t.findFirst root st.dr.path = _
    rw [hpath]
    simp only [Tree.findFirst, t.resolve_dots root hnames, Tree.node]
    rfl
  have hopened : step (t.disk root) (some m) (.outer, st) =
      .inl (.inner ⟨['.'], true, t.info.stat⟩, st.entered t.info t.entries) :=
    outer_opened hsearch hopen h.goesOn h.unopened
  by_cases hdot : o.listDot = true
  · have hname : ListsDot st.dr ['.'] :=
      .inl ⟨rfl, (congrArg DirectoryReader.listDot h.options).trans hdot⟩
    obtain ⟨st', hinner, ho, ha, hh, hp⟩ :=
      inner_dot_descends hm (st.entered t.info t.entries) t.info.stat hname h.goesOn hrec' hmax' rfl
    exact ⟨st', h.into hname ho ha hh hp, .head hopened (.single hinner)⟩
  · have hdotdot : o.listDotdot = true := hdots.resolve_left hdot
    have hname : ListsDot st.dr ['.', '.'] :=
      .inr ⟨rfl, (congrArg DirectoryReader.listDotdot h.options).trans hdotdot⟩
    obtain ⟨st', hinner, ho, ha, hh, hp⟩ :=
      inner_dot_descends hm (st.behindDots t.info t.entries) t.info.dotdotStat hname h.goesOn hrec' hmax' rfl
    have ha' : (st.entered t.info t.entries).dr.abort = false := h.goesOn
    have hlist : (st.entered t.info t.entries).dr.listDot = false :=
      (congrArg DirectoryReader.listDot h.options).trans (Bool.eq_false_of_not_eq_true hdot)
    have hskip : step (t.disk root) (some m)
        (.inner ⟨['.'], true, t.info.stat⟩, st.entered t.info t.entries) =
          .inl (.inner ⟨['.', '.'], true, t.info.dotdotStat⟩, st.behindDots t.info t.entries) :=
      (inner_dot ha' hlist).trans (entered_next st t.info t.entries)
    exact ⟨st', h.into hname ho ha hh hp, .head hopened (.head hskip (.single hinner))⟩

/-! ## A walk that stays in the root -/

/-- Without `recursive_`, the machine reads the listing of the root. -/
structure Flat (root : WString) (handle : Nat) (rest : List FindData) (endError : U32)
    (st : ReaderState (σ × List Seen)) : Prop where
  flat : st.dr.recursive = false
  path : st.dr.path = root
  stack : st.stack = []
  opened : st.handle = some handle
  search : st.win.searches[handle]? = some ⟨rest, endError, 0, false⟩
  seen : ∀ seen ∈ st.user.2, seen.path = root

/-- The run ends, and every callback has been for an entry of the root. -/
def EndsFlat (disk : Disk) (m : Manipulator σ) (root : WString)
    (x : (Point × ReaderState (σ × List Seen)) ⊕ ReadResult (σ × List Seen)) : Prop :=
  ∃ r, Leads (step disk (some (observing DirectoryReader.seen m))) x (.inr r) ∧
    ∀ seen ∈ r.state.user.2, seen.path = root

theorem EndsFlat.lead {root : WString} {x y : (Point × ReaderState (σ × List Seen)) ⊕ ReadResult (σ × List Seen)}
    (h : Leads (step disk (some (observing DirectoryReader.seen m))) x y) (h' : EndsFlat disk m root y) :
    EndsFlat disk m root x := by
  obtain ⟨r, hr, hseen⟩ := h'
  exact ⟨r, h.trans hr, hseen⟩

namespace Flat

variable {root : WString} {rest : List FindData} {endError : U32} {st : ReaderState (σ × List Seen)}

theorem endOfLoop (h : Flat root handle rest endError st) : EndsFlat disk m root st.endOfLoop := by
  unfold ReaderState.endOfLoop
  split
  · exact ⟨_, Leads.refl _, fun seen hseen => h.seen seen (closeHandle_user st ▸ hseen)⟩
  · have hstack : st.closeHandle.stack = [] := by simp [closeHandle, h.opened, h.stack]
    have hhandle : st.closeHandle.handle = some handle := by simp [closeHandle, h.opened]
    have hleave : step disk (some (observing DirectoryReader.seen m)) (.outer, st.closeHandle) =
        st.closeHandle.leave := by
      show st.closeHandle.outer disk = _
      unfold outer
      split
      · rfl
      · simp only [hhandle, hstack]
    refine ⟨_, (Leads.of_state _).trans (Leads.of_eq hleave), ?_⟩
    exact fun seen hseen => h.seen seen (closeHandle_user st ▸ hseen)

/-- A callback, where the walk ends from what comes behind it. -/
theorem callManipulator (h : Flat root handle rest endError st)
    {k : ReaderState (σ × List Seen) → (Point × ReaderState (σ × List Seen)) ⊕ ReadResult (σ × List Seen)}
    (hk : ∀ st', Flat root handle rest endError st' → EndsFlat disk m root (k st')) :
    EndsFlat disk m root
      (ReaderState.callManipulator (some (observing DirectoryReader.seen m)) st k) := by
  have hseen : ∀ seen ∈ st.user.2 ++ [st.dr.seen], seen.path = root := by
    intro seen hmem
    rcases List.mem_append.mp hmem with hmem | hmem
    · exact h.seen seen hmem
    · rw [List.mem_singleton.mp hmem]
      exact h.path
  simp only [ReaderState.callManipulator, observing]
  cases m st.dr ⟨st.dr.abort, st.win.lastError, st.user.1⟩ with
  | ok _ sh =>
      exact hk _ ⟨h.flat, h.path, h.stack, h.opened, h.search, hseen⟩
  | error e sh =>
      refine ⟨_, Leads.refl _, ?_⟩
      intro seen hmem
      refine hseen seen ?_
      have hmem' := closeHandle_user (st.afterCall ⟨sh.abort, sh.lastError, sh.user, st.user.2 ++ [st.dr.seen]⟩) ▸
        hmem
      exact hmem'

theorem inner (h : Flat root handle rest endError st) (fdw : FindData)
    (hnext : ∀ st', Flat root handle rest endError st' → EndsFlat disk m root st'.next) :
    EndsFlat disk m root (st.inner (some (observing DirectoryReader.seen m)) fdw) := by
  have hdescend : ∀ st', Flat root handle rest endError st' → EndsFlat disk m root st'.descend := by
    intro st' h'
    rw [descend_next fun hrec => by simp [h'.flat] at hrec]
    exact hnext st' h'
  have hpublish : Flat root handle rest endError { st with dr := st.dr.publish fdw } :=
    ⟨h.flat, h.path, h.stack, h.opened, h.search, h.seen⟩
  unfold ReaderState.inner
  split
  · exact h.endOfLoop
  · split
    · exact hnext st h
    · split
      · exact hnext st h
      · split
        · exact hnext st h
        · simp only
          split
          · split
            · exact hpublish.callManipulator hdescend
            · exact hdescend _ hpublish
          · split
            · exact hpublish.callManipulator hnext
            · exact hnext _ hpublish

/-- The listing of the root is read to its end, by induction on what is left of it. -/
theorem next (h : Flat root handle rest endError st) : EndsFlat disk m root st.next := by
  induction rest generalizing st with
  | nil =>
      rw [next_nil h.opened h.search]
      have hended : Flat root handle [] endError { st with win := { st.win with lastError := endError } } :=
        ⟨h.flat, h.path, h.stack, h.opened, h.search, h.seen⟩
      exact hended.endOfLoop
  | cons fdw rest ih =>
      rw [next_cons h.opened h.search]
      have hadvance : Flat root handle rest endError (st.advance handle rest endError) :=
        ⟨h.flat, h.path, h.stack, h.opened, advance_search h.search, h.seen⟩
      exact EndsFlat.lead (Leads.of_state _) (hadvance.inner fdw fun st' h' => ih h')

end Flat

end ReaderState

/-! ## The walk -/

theorem GoesOn.observing {m : Manipulator σ} (hm : GoesOn m) (f : DirectoryReader → α) :
    GoesOn (observing f m) := by
  intro dr lastError user
  obtain ⟨lastError', user', hcall⟩ := hm dr lastError user.1
  exact ⟨lastError', (user', user.2 ++ [f dr]), by simp only [Spacenet.observing, hcall]⟩

variable {o : DirectoryReader} {m : Manipulator σ} {t : Tree} {root : WString}

/-- Every callback has been for an entry of a directory of the tree. -/
def ReadResult.StaysInTree (r : ReadResult (σ × List Seen)) (root : WString) : Prop :=
  ∀ seen ∈ r.state.user.2, ∃ parts, seen.path = joinPath parts ∧ InTree root parts

theorem ReadResult.staysInTree_of_gives {out : WalkEnd (σ × List Seen)} {r : ReadResult (σ × List Seen)}
    (hgives : out.Gives r) (h : ∀ seen ∈ out.user.2, ∃ parts, seen.path = joinPath parts ∧ InTree root parts) :
    r.StaysInTree root := by
  have huser : r.state.user = out.user := by
    cases out with
    | through lastError user | returned user =>
        obtain ⟨st, rfl, rfl⟩ := hgives
        rfl
    | threw e user =>
        obtain ⟨st, rfl, rfl⟩ := hgives
        rfl
  unfold StaysInTree
  rw [huser]
  exact h

/-- A walk that leaves the dot entries out stays in the tree. -/
theorem read_staysInTree_of_dots (hdot : o.listDot = false) (hdotdot : o.listDotdot = false)
    (path : WString) (win : Win32) (user : σ) :
    ∃ r, Halts (ReaderState.step (t.disk (rootPath path)) (some (observing DirectoryReader.seen m)))
        (.outer, o.start path win (user, [])) r ∧ r.StaysInTree (rootPath path) := by
  obtain ⟨r, hhalts, hgives⟩ :=
    DirectoryReader.read_follows t o (observing DirectoryReader.seen m) path win (user, []) hdot hdotdot
  refine ⟨r, hhalts, ReadResult.staysInTree_of_gives hgives ?_⟩
  intro seen hseen
  rcases runEvents_observing_mem _ _ _ _ seen hseen with hmem | hmem
  · cases hmem
  · obtain ⟨c, hc, rfl⟩ := List.mem_map.mp hmem
    exact ⟨c.parts, rfl, (t.calls_below o _ c hc).inTree_parts⟩

/-- A walk whose root does not open invokes no callback. -/
theorem read_staysInTree_of_openError {err : U32} (herr : t.info.openError = some err) (path : WString)
    (win : Win32) (user : σ) :
    ∃ r, Halts (ReaderState.step (t.disk (rootPath path)) (some (observing DirectoryReader.seen m)))
        (.outer, o.start path win (user, [])) r ∧ r.StaysInTree (rootPath path) := by
  have hroot : (t.disk (rootPath path)).Has [rootPath path] t.node :=
    Tree.disk_has (fun _ h => absurd h List.not_mem_nil) (by rfl : t.node.descend [] = some t.node)
  have hsearch := hroot.search t.info t.entries rfl
  simp only [DirInfo.search, herr] at hsearch
  have hpath : (o.start path win (user, ([] : List Seen))).dr.path = joinPath [rootPath path] := by
    simp [DirectoryReader.start, joinPath, List.intercalate]
  have hfollows := ReaderState.outer_openFailed (m := observing DirectoryReader.seen m) (o := o)
    (K := fun _ _ _ => False) hsearch hpath rfl rfl
  simp only [runEvents, Event.run] at hfollows
  split at hfollows
  · obtain ⟨st, hlead, huser⟩ := hfollows
    refine ⟨_, hlead, ?_⟩
    intro seen hseen
    have hnil : st.user.2 = [] := congrArg Prod.snd huser
    exact absurd (hnil ▸ hseen) List.not_mem_nil
  · obtain ⟨st, hlead, huser⟩ := hfollows
    refine ⟨_, hlead, ?_⟩
    intro seen hseen
    have hnil : st.user.2 = [] := congrArg Prod.snd huser
    exact absurd (hnil ▸ hseen) List.not_mem_nil

/-- A walk without `recursive_` stays in the root. -/
theorem read_staysInTree_of_flat (hrec : o.recursive = false) (hopen : t.info.openError = none)
    (path : WString) (win : Win32) (user : σ) :
    ∃ r, Halts (ReaderState.step (t.disk (rootPath path)) (some (observing DirectoryReader.seen m)))
        (.outer, o.start path win (user, [])) r ∧ r.StaysInTree (rootPath path) := by
  have hroot : (t.disk (rootPath path)).Has [rootPath path] t.node :=
    Tree.disk_has (fun _ h => absurd h List.not_mem_nil) (by rfl : t.node.descend [] = some t.node)
  have hpath : joinPath [rootPath path] = rootPath path := joinPath_singleton _
  have hsearch := hroot.search t.info t.entries rfl
  rw [hpath] at hsearch
  have hopened : ReaderState.step (t.disk (rootPath path)) (some (observing DirectoryReader.seen m))
      (.outer, o.start path win (user, [])) = .inl (.inner ⟨['.'], true, t.info.stat⟩,
        (o.start path win (user, ([] : List Seen))).entered t.info t.entries) :=
    ReaderState.outer_opened hsearch hopen rfl rfl
  have hflat : ReaderState.Flat (rootPath path) win.searches.length
      (⟨['.', '.'], true, t.info.dotdotStat⟩ :: t.entries.listing) t.info.endError
      ((o.start path win (user, ([] : List Seen))).entered t.info t.entries) :=
    { flat := hrec
      path := rfl
      stack := rfl
      opened := rfl
      search := List.getElem?_concat_length
      seen := fun _ h => absurd h List.not_mem_nil }
  obtain ⟨r, hlead, hseen⟩ : ReaderState.EndsFlat (t.disk (rootPath path)) m (rootPath path) _ :=
    hflat.inner ⟨['.'], true, t.info.stat⟩ fun st' h' => h'.next
  refine ⟨r, ?_, ?_⟩
  · exact (Leads.of_state _).trans ((Leads.of_eq hopened).trans ((Leads.of_state _).trans hlead))
  · intro seen hmem
    exact ⟨[rootPath path], (hseen seen hmem).trans hpath.symm, ⟨[], rfl, fun _ h => absurd h List.not_mem_nil⟩⟩

/-- A recursive walk that lists a dot entry never ends. -/
theorem read_diverges (hrec : o.recursive = true) (hmax : o.maxLevel = 0)
    (hdots : o.listDot = true ∨ o.listDotdot = true) (hopen : t.info.openError = none) (hm : GoesOn m)
    (path : WString) (win : Win32) (user : σ) (fuel : Nat) (r : ReadResult σ) :
    o.read fuel (t.disk (rootPath path)) (some m) path win user ≠ some r := by
  have hstart : ReaderState.AtDot o (rootPath path) (o.start path win user) :=
    { options := rfl
      goesOn := rfl
      unopened := rfl
      path := ⟨[], by simp [DirectoryReader.start, joinPath, List.intercalate],
        fun _ h => absurd h List.not_mem_nil⟩ }
  intro hread
  refine not_halts_of_proceeds (P := fun x => ∃ st, x = (.outer, st) ∧ ReaderState.AtDot o (rootPath path) st)
    ?_ ⟨_, rfl, hstart⟩ r (halts_iff.mpr ⟨fuel, hread⟩)
  rintro _ ⟨st, rfl, hst⟩
  obtain ⟨st', hst', hproceeds⟩ := hst.proceeds hm hopen hrec hmax hdots
  exact ⟨_, ⟨st', rfl, hst'⟩, hproceeds⟩

/-- Without a limit of the depth, `read` ends and stays in the tree if and only if it is not recursive,
or lists no dot entries, or cannot open the root. -/
theorem read_terminates_iff (hmax : o.maxLevel = 0) (hm : GoesOn m) (path : WString) (win : Win32) (user : σ) :
    (∃ fuel r, o.read fuel (t.disk (rootPath path)) (some (observing DirectoryReader.seen m)) path win
        (user, []) = some r ∧ r.StaysInTree (rootPath path)) ↔
    o.recursive = false ∨ (o.listDot = false ∧ o.listDotdot = false) ∨ t.info.openError ≠ none := by
  constructor
  · rintro ⟨fuel, r, hread, -⟩
    by_contra hnot
    simp only [not_or, not_and_or, Bool.not_eq_false, ne_eq, not_not] at hnot
    obtain ⟨hrec, hdots, hopen⟩ := hnot
    exact read_diverges hrec hmax hdots hopen (hm.observing DirectoryReader.seen) path win (user, []) fuel r hread
  · intro h
    have hends : ∃ r, Halts (ReaderState.step (t.disk (rootPath path))
        (some (observing DirectoryReader.seen m))) (.outer, o.start path win (user, [])) r ∧
          r.StaysInTree (rootPath path) := by
      cases herr : t.info.openError with
      | some err => exact read_staysInTree_of_openError herr path win user
      | none =>
          rcases h with hrec | ⟨hdot, hdotdot⟩ | hne
          · exact read_staysInTree_of_flat hrec herr path win user
          · exact read_staysInTree_of_dots hdot hdotdot path win user
          · exact absurd herr hne
    obtain ⟨r, hhalts, hstays⟩ := hends
    obtain ⟨fuel, hread⟩ := halts_iff.mp hhalts
    exact ⟨fuel, r, hread, hstays⟩

/-- The reader of the indexer with `list_dot_` set. -/
def dottedReader : DirectoryReader := { indexReader with listDot := true }

theorem read_terminates_iff_plainTree :
    (∃ fuel r, indexReader.read fuel (plainTree.disk (rootPath ['r']))
        (some (observing DirectoryReader.seen idle)) ['r'] ⟨[], 0⟩ ((), []) = some r ∧
      r.StaysInTree (rootPath ['r'])) ↔
    indexReader.recursive = false ∨ (indexReader.listDot = false ∧ indexReader.listDotdot = false) ∨
      plainTree.info.openError ≠ none :=
  read_terminates_iff rfl idle_goesOn ['r'] ⟨[], 0⟩ ()

/-- With `list_dot_` set, the recursive walk of the plain tree never ends. -/
theorem read_plainTree_diverges : ¬∃ fuel r,
    dottedReader.read fuel (plainTree.disk (rootPath ['r'])) (some (observing DirectoryReader.seen idle))
      ['r'] ⟨[], 0⟩ ((), []) = some r := by
  rintro ⟨fuel, r, hread⟩
  have hm := idle_goesOn.observing DirectoryReader.seen
  exact read_diverges (o := dottedReader) (t := plainTree) rfl rfl (.inl rfl) rfl hm ['r'] ⟨[], 0⟩ _ fuel r hread

end Spacenet
