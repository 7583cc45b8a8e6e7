-- SUMMARY: When an abort in the callback leaves the walk by return, and when the stale last error makes it throw.
import Spacenet.Handles
import Spacenet.Correctness.Depth

/-!
# Aborting the walk

`abort_` leaves the `do ... while`, and behind it `read` tests the thread's last
error as if `FindNextFileW` had failed. It has not, unless the directory was at its
end: the register is stale, and `read` throws whatever it holds.
-/

namespace Spacenet

open Machine

variable {σ : Type}

namespace ReaderState

/-! ## The callbacks of the loop -/

/-- The body of the `do ... while` invokes the callback for the data `fdw`. -/
structure Invokes (st : ReaderState σ) (fdw : FindData) : Prop where
  goesOn : st.dr.abort = false
  name : fdw.cFileName ≠ []
  dot : fdw.cFileName = (['.'] : WString) → st.dr.listDot = true
  dotdot : fdw.cFileName = (['.', '.'] : WString) → st.dr.listDotdot = true
  isMatch : st.dr.matchName fdw.cFileName = true
  listed : fdw.directory = true → st.dr.listDirectories = true

/-- The state in which the callback for `fdw` is invoked. -/
def atCall (st : ReaderState σ) (fdw : FindData) : ReaderState σ := { st with dr := st.dr.publish fdw }

variable {st : ReaderState σ} {fdw : FindData}

/-- What the body does with an entry that the dot filters let through. -/
theorem inner_entry (manipulator : Option (Manipulator σ)) (ha : st.dr.abort = false)
    (hname : fdw.cFileName ≠ []) (hdot : fdw.cFileName = (['.'] : WString) → st.dr.listDot = true)
    (hdotdot : fdw.cFileName = (['.', '.'] : WString) → st.dr.listDotdot = true) :
    st.inner manipulator fdw =
      if fdw.directory then
        if st.dr.listDirectories ∧ st.dr.matchName fdw.cFileName then
          callManipulator manipulator (st.atCall fdw) descend
        else (st.atCall fdw).descend
      else
        if st.dr.matchName fdw.cFileName then callManipulator manipulator (st.atCall fdw) next
        else (st.atCall fdw).next := by
  have h₁ : ¬(fdw.cFileName = (['.'] : WString) ∧ ¬st.dr.listDot = true) := fun h => h.2 (hdot h.1)
  have h₂ : ¬(fdw.cFileName = (['.', '.'] : WString) ∧ ¬st.dr.listDotdot = true) := fun h => h.2 (hdotdot h.1)
  unfold inner
  rw [if_neg (by simp [ha]), if_neg hname, if_neg h₁, if_neg h₂]
  rfl

theorem Invokes.inner_eq (h : st.Invokes fdw) (manipulator : Option (Manipulator σ)) :
    st.inner manipulator fdw =
      callManipulator manipulator (st.atCall fdw) (if fdw.directory then descend else next) := by
  rw [inner_entry manipulator h.goesOn h.name h.dot h.dotdot]
  cases hdir : fdw.directory with
  | true => simp [h.listed hdir, h.isMatch]
  | false => simp [h.isMatch]

/-- `read` goes into the directory that `fdw` names. -/
def GoesInto (st : ReaderState σ) (fdw : FindData) : Prop :=
  fdw.directory = true ∧ st.dr.recursive = true ∧
    (st.dr.maxLevel = 0 ∨ st.stack.length < st.dr.maxLevel)

instance (st : ReaderState σ) (fdw : FindData) : Decidable (st.GoesInto fdw) := by
  unfold GoesInto
  infer_instance

end ReaderState

/-! ## The last error behind an abort -/

/-- What the last error is behind the `FindNextFileW` of the search, when it was `lastError`. -/
def Search.errorBehind (s : Search) (lastError : U32) : U32 :=
  match s.rest with
  | [] => s.endError
  | _ :: _ => lastError

namespace ReaderState

variable {disk : Disk} {m : Manipulator σ} {st : ReaderState σ} {fdw : FindData} {handle : Nat} {s : Search}
  {K : U32 → σ → (Point × ReaderState σ) ⊕ ReadResult σ → Prop}

/-- How `read` ends behind an abort with an open handle, where the last error is `err`. -/
def abortEnd (st : ReaderState σ) (err : U32) : WalkEnd σ :=
  if err = ERROR_NO_MORE_FILES then .returned st.user
  else .threw (failedToRead st.dr.path err) st.user

theorem endOfLoop_abortEnd (hh : st.handle = some handle) (ha : st.dr.abort = true) :
    Follows disk m st.endOfLoop (st.abortEnd st.win.lastError) K := by
  have hpath : joinPath [st.dr.path] = st.dr.path := joinPath_singleton _
  have hend : Follows disk m st.endOfLoop (if st.win.lastError = ERROR_NO_MORE_FILES then .returned st.user
      else .threw (failedToRead (joinPath [st.dr.path]) st.win.lastError) st.user) K :=
    endOfLoop_abort st hh hpath.symm ha
  rw [hpath] at hend
  exact hend

theorem next_abortEnd (hh : st.handle = some handle) (ha : st.dr.abort = true)
    (hs : st.win.searches[handle]? = some s) (hopen : s.Open) :
    Follows disk m st.next (st.abortEnd (s.errorBehind st.win.lastError)) K := by
  obtain ⟨rest, endError, closes, used⟩ := s
  obtain ⟨rfl, rfl⟩ := hopen
  cases rest with
  | nil =>
      rw [next_nil hh hs]
      let ended : ReaderState σ := { st with win := { st.win with lastError := endError } }
      have hh' : ended.handle = some handle := hh
      exact endOfLoop_abortEnd hh' ha
  | cons fdw rest =>
      rw [next_cons hh hs]
      have hstep : step disk (some m) (.inner fdw, st.advance handle rest endError) =
          (st.advance handle rest endError).endOfLoop := by
        simp [step, inner, advance, ha]
      refine Follows.lead ((Leads.of_state _).trans (Leads.of_eq hstep)) ?_
      have hh' : (st.advance handle rest endError).handle = some handle := hh
      exact endOfLoop_abortEnd hh' ha

/-- How the walk ends behind a callback that sets `abort_` and leaves `sh`. -/
def abortedEnd (st : ReaderState σ) (fdw : FindData) (s : Search) (sh : Shared σ) : WalkEnd σ :=
  if st.GoesInto fdw then .returned sh.user
  else ((st.atCall fdw).afterCall sh).abortEnd (s.errorBehind sh.lastError)

theorem abortedEnd_user (st : ReaderState σ) (fdw : FindData) (s : Search) (sh : Shared σ) :
    (st.abortedEnd fdw s sh).user = sh.user := by
  unfold abortedEnd abortEnd
  split
  · rfl
  · split <;> rfl

theorem abortedEnd_returned_iff (st : ReaderState σ) (fdw : FindData) (s : Search) (sh : Shared σ) :
    (∃ u, st.abortedEnd fdw s sh = .returned u) ↔
      st.GoesInto fdw ∨ s.errorBehind sh.lastError = ERROR_NO_MORE_FILES := by
  unfold abortedEnd abortEnd
  split
  · next hinto => exact ⟨fun _ => .inl hinto, fun _ => ⟨_, rfl⟩⟩
  · next hinto =>
      split
      · next herr => exact ⟨fun _ => .inr herr, fun _ => ⟨_, rfl⟩⟩
      · next herr =>
          constructor
          · rintro ⟨u, hu⟩
            cases hu
          · exact fun h => (h.elim hinto herr).elim

/-- The step of a callback that sets `abort_`, and the steps behind it. -/
theorem Invokes.aborted {sh : Shared σ} (h : st.Invokes fdw) (hh : st.handle = some handle)
    (hs : st.win.searches[handle]? = some s) (hopen : s.Open)
    (hcall : m (st.dr.publish fdw) ⟨false, st.win.lastError, st.user⟩ = .ok () sh)
    (habort : sh.abort = true) :
    Follows disk m (.inl (.inner fdw, st)) (st.abortedEnd fdw s sh) K := by
  have harg : m (st.atCall fdw).dr
      ⟨(st.atCall fdw).dr.abort, (st.atCall fdw).win.lastError, (st.atCall fdw).user⟩ = .ok () sh := by
    have ha : (st.atCall fdw).dr.abort = false := h.goesOn
    rw [ha]
    exact hcall
  have hstep : step disk (some m) (.inner fdw, st) =
      (if fdw.directory then descend else next) ((st.atCall fdw).afterCall sh) := by
    show st.inner (some m) fdw = _
    rw [h.inner_eq]
    simp only [callManipulator, harg]
  refine Follows.lead ((Leads.of_state _).trans (Leads.of_eq hstep)) ?_
  have hh' : ((st.atCall fdw).afterCall sh).handle = some handle := hh
  have hnext : Follows disk m ((st.atCall fdw).afterCall sh).next
      (((st.atCall fdw).afterCall sh).abortEnd (s.errorBehind sh.lastError)) K :=
    next_abortEnd hh' habort hs hopen
  unfold abortedEnd
  by_cases hinto : st.GoesInto fdw
  · rw [if_pos hinto]
    obtain ⟨hdir, hrec, hmax⟩ := hinto
    rw [if_pos hdir]
    have hpushed : ((st.atCall fdw).afterCall sh).descend =
        .inl (.outer, ((st.atCall fdw).afterCall sh).pushed handle) := descend_pushed hh' hrec hmax
    have hleave : Follows disk m (.inl (.outer, ((st.atCall fdw).afterCall sh).pushed handle))
        (.returned sh.user) K := pushed_abort habort
    rw [hpushed]
    exact hleave
  · rw [if_neg hinto]
    by_cases hdir : fdw.directory = true
    · have hstay : ((st.atCall fdw).afterCall sh).descend = ((st.atCall fdw).afterCall sh).next :=
        descend_next fun hrec => hinto ⟨hdir, hrec⟩
      rw [if_pos hdir, hstay]
      exact hnext
    · rw [if_neg hdir]
      exact hnext

end ReaderState

/-! ## The walk -/

/-- The last error that `read` tests behind a callback for `fdw` that sets `abort_` and leaves the
register at `lastError`, if it tests it, is ERROR_NO_MORE_FILES. -/
def ReaderState.LeavesCleanly (st : ReaderState σ) (fdw : FindData) (lastError : U32) : Prop :=
  st.GoesInto fdw ∨ ∃ handle s, st.handle = some handle ∧ st.win.searches[handle]? = some s ∧
    s.errorBehind lastError = ERROR_NO_MORE_FILES

variable {disk : Disk} {m : Manipulator σ} {o : DirectoryReader} {path : WString} {win : Win32} {user : σ}

/-- A run of `read` that ends as `w` says has the user state of `w`, and returns when `w` does. -/
theorem Reaches.read_ends {x : Point × ReaderState σ} {w : WalkEnd σ}
    (hreach : Reaches (ReaderState.step disk (some m)) (.outer, o.start path win user) x)
    (hfollows : Follows disk m (.inl x) w (fun _ _ _ => False)) :
    ∃ fuel r, o.read fuel disk (some m) path win user = some r ∧ r.state.user = w.user ∧
      ((∃ st, r = .ok () st) ↔ ∃ u, w = .returned u) := by
  have ends : ∀ {r}, Leads (ReaderState.step disk (some m)) (.inl x) (.inr r) →
      ∃ fuel, o.read fuel disk (some m) path win user = some r :=
    fun hlead => halts_iff.mp (hreach.leads.trans hlead)
  cases w with
  | through lastError u =>
      obtain ⟨y, -, hfalse⟩ := hfollows
      exact hfalse.elim
  | returned u =>
      obtain ⟨st, hlead, huser⟩ := hfollows
      obtain ⟨fuel, hread⟩ := ends hlead
      exact ⟨fuel, _, hread, huser, fun _ => ⟨u, rfl⟩, fun _ => ⟨st, rfl⟩⟩
  | threw e u =>
      obtain ⟨st, hlead, huser⟩ := hfollows
      obtain ⟨fuel, hread⟩ := ends hlead
      refine ⟨fuel, _, hread, huser, ?_, ?_⟩
      · rintro ⟨st', hok⟩
        cases hok
      · rintro ⟨u', hu⟩
        cases hu

/-- Behind a callback that sets `abort_` the walk ends without another callback. -/
theorem read_aborted {fdw : FindData} {st : ReaderState (σ × List Seen)} {sh : Shared σ}
    (hreach : Reaches (ReaderState.step disk (some (observing DirectoryReader.seen m)))
      (.outer, o.start path win (user, [])) (.inner fdw, st))
    (hinvokes : st.Invokes fdw)
    (hcall : m (st.dr.publish fdw) ⟨false, st.win.lastError, st.user.1⟩ = .ok () sh)
    (habort : sh.abort = true) :
    ∃ fuel r, o.read fuel disk (some (observing DirectoryReader.seen m)) path win (user, []) = some r ∧
      r.state.user.2 = st.user.2 ++ [(st.dr.publish fdw).seen] ∧
      ((∃ st', r = .ok () st') ↔ st.LeavesCleanly fdw sh.lastError) := by
  obtain ⟨handle, hh, howned⟩ := DirectoryReader.reaches_owned hreach
  obtain ⟨s, hs, hopen⟩ := howned.opened handle List.mem_cons_self
  let seen := (st.dr.publish fdw).seen
  let sh' : Shared (σ × List Seen) := ⟨sh.abort, sh.lastError, sh.user, st.user.2 ++ [seen]⟩
  have hcall' : observing DirectoryReader.seen m (st.dr.publish fdw) ⟨false, st.win.lastError, st.user⟩ =
      .ok () sh' := by
    simp only [observing, hcall]
    rfl
  have hfollows : Follows disk (observing DirectoryReader.seen m) (.inl (.inner fdw, st))
      (st.abortedEnd fdw s sh') (fun _ _ _ => False) := hinvokes.aborted hh hs hopen hcall' habort
  have hclean : st.LeavesCleanly fdw sh.lastError ↔
      st.GoesInto fdw ∨ s.errorBehind sh.lastError = ERROR_NO_MORE_FILES := by
    refine or_congr_right ⟨?_, fun herr => ⟨handle, s, hh, hs, herr⟩⟩
    rintro ⟨handle', s', hh', hs', herr⟩
    obtain rfl := Option.some.inj (hh.symm.trans hh')
    obtain rfl := Option.some.inj (hs.symm.trans hs')
    exact herr
  obtain ⟨fuel, r, hread, huser, hret⟩ := Reaches.read_ends hreach hfollows
  rw [ReaderState.abortedEnd_user] at huser
  rw [ReaderState.abortedEnd_returned_iff] at hret
  exact ⟨fuel, r, hread, congrArg Prod.snd huser, hret.trans hclean.symm⟩

/-- After a callback that sets `abort_`, wherever it falls, `read` returns without another callback if
and only if it goes into a directory there, or finds ERROR_NO_MORE_FILES in the last error. -/
theorem read_abort_returns_iff {fdw : FindData} {st : ReaderState (σ × List Seen)} {sh : Shared σ}
    (hreach : Reaches (ReaderState.step disk (some (observing DirectoryReader.seen m)))
      (.outer, o.start path win (user, [])) (.inner fdw, st))
    (hinvokes : st.Invokes fdw)
    (hcall : m (st.dr.publish fdw) ⟨false, st.win.lastError, st.user.1⟩ = .ok () sh)
    (habort : sh.abort = true) :
    (∃ fuel st', o.read fuel disk (some (observing DirectoryReader.seen m)) path win (user, []) =
        some (.ok () st') ∧
      st'.user.2 = st.user.2 ++ [(st.dr.publish fdw).seen]) ↔
    st.LeavesCleanly fdw sh.lastError := by
  obtain ⟨fuel, r, hread, hlog, hiff⟩ := read_aborted hreach hinvokes hcall habort
  rw [← hiff]
  constructor
  · rintro ⟨fuel', st', hread', -⟩
    exact ⟨st', Halts.unique (halts_iff.mpr ⟨fuel, hread⟩) (halts_iff.mpr ⟨fuel', hread'⟩)⟩
  · rintro ⟨st', rfl⟩
    exact ⟨fuel, st', hread, hlog⟩

/-- The callback that sets `abort_` and leaves the last error as it is. -/
def aborting : Manipulator Unit := fun _ sh => .ok () { sh with abort := true }

/-- A directory with two files. -/
def siblingsTree : Tree where
  info := .plain
  entries := .file ['f'] (.plain ⟨0, 1⟩ [7]) (.file ['g'] (.plain ⟨0, 1⟩ [8]) .nil)
  wf := by decide

/-- The callback for the directory of the plain tree. -/
theorem read_abort_returns_iff_plainTree :
    ∃ fdw, ∃ st : ReaderState (Unit × List Seen), st.Invokes fdw ∧
      ((∃ fuel st', indexReader.read fuel (plainTree.disk (rootPath ['r']))
          (some (observing DirectoryReader.seen aborting)) ['r'] ⟨[], 0⟩ ((), []) = some (.ok () st') ∧
        st'.user.2 = st.user.2 ++ [(st.dr.publish fdw).seen]) ↔
      st.LeavesCleanly fdw 0) := by
  have hreach : ∃ st, Reaches (ReaderState.step (plainTree.disk (rootPath ['r']))
      (some (observing DirectoryReader.seen aborting))) (.outer, indexReader.start ['r'] ⟨[], 0⟩ ((), []))
      (.inner ⟨['d'], true, DirInfo.plain.stat⟩, st) ∧
      st.dr.abort = false ∧ st.dr.mask = none ∧ st.dr.exclude = none ∧ st.dr.listDirectories = true ∧
      st.win.lastError = 0 := by
    refine ⟨_, .head (by exact rfl) (.head (by exact rfl) (.head (by exact rfl) .refl)), ?_⟩
    exact ⟨rfl, rfl, rfl, rfl, rfl⟩
  obtain ⟨st, hreach, habort, hmask, hexclude, hlist, herr⟩ := hreach
  have hinvokes : st.Invokes ⟨['d'], true, DirInfo.plain.stat⟩ :=
    { goesOn := habort
      name := by decide
      dot := fun h => absurd h (by decide)
      dotdot := fun h => absurd h (by decide)
      isMatch := by
        rw [DirectoryReader.matchName, hmask, hexclude]
        decide
      listed := fun _ => hlist }
  have hiff := read_abort_returns_iff hreach hinvokes rfl rfl
  rw [herr] at hiff
  exact ⟨_, st, hinvokes, hiff⟩

/-- An abort at the first of two files makes `read` throw. -/
theorem read_siblingsTree_abort_throws :
    ∃ e st, indexReader.read 20 (siblingsTree.disk (rootPath ['r']))
      (some (observing DirectoryReader.seen aborting)) ['r'] ⟨[], 0⟩ ((), []) = some (.error e st) :=
  ⟨_, _, rfl⟩

end Spacenet
