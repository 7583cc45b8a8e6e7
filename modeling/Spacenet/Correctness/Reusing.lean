-- SUMMARY: A reader that has been used, in a process with other searches, reads as a fresh one does on its own.
import Spacenet.Library.Simulation
import Spacenet.WalkRefinement

/-!
# Readers that are used again

What `read` leaves in the members of its reader stays there until the next walk
publishes something else, and its searches get handles behind those of all searches
before them. Neither matters to a walk. It is compared with the one of a fresh
reader in a process without searches: the handles are shifted, nothing else is
different, and the other searches are left as they were.
-/

namespace Spacenet

open Prog Machine

/-! ## Other searches -/

namespace Win32

/-- The searches behind those of `others`. -/
def beside (others : List Search) (w : Win32) : Win32 := { w with searches := others ++ w.searches }

variable {others : List Search} {w : Win32} {handle : Nat}

theorem getElem?_beside : (w.beside others).searches[others.length + handle]? = w.searches[handle]? := by
  rw [beside, List.getElem?_append_right (Nat.le_add_right _ _), Nat.add_sub_cancel_left]

theorem set_beside (s : Search) :
    (w.beside others).searches.set (others.length + handle) s = others ++ w.searches.set handle s := by
  rw [beside, List.set_append_right _ _ (Nat.le_add_right _ _), Nat.add_sub_cancel_left]

theorem findClose_beside :
    (w.beside others).findClose (others.length + handle) = (w.findClose handle).beside others := by
  unfold findClose
  rw [getElem?_beside]
  cases w.searches[handle]? with
  | none => rfl
  | some s =>
      simp only [set_beside]
      rfl

theorem findNextFile_beside : (w.beside others).findNextFile (others.length + handle) =
    ((w.findNextFile handle).1, (w.findNextFile handle).2.beside others) := by
  unfold findNextFile
  rw [getElem?_beside]
  cases w.searches[handle]? with
  | none => rfl
  | some s =>
      simp only [set_beside]
      split
      · cases s.rest with
        | nil => rfl
        | cons fdw rest => rfl
      · rfl

theorem findFirstFile_beside (disk : Disk) (path : WString) : (w.beside others).findFirstFile disk path =
    ((w.findFirstFile disk path).1.map (Prod.map (others.length + ·) id),
      (w.findFirstFile disk path).2.beside others) := by
  unfold findFirstFile
  cases disk.findFirst path with
  | error err => rfl
  | ok l =>
      simp only [beside, List.length_append, List.append_assoc, Option.map_some]
      rfl

end Win32

/-! ## Members that a walk publishes -/

namespace DirectoryReader

/-- The reader without what a walk publishes in it. -/
def forget (dr : DirectoryReader) : DirectoryReader := { dr.options with path := dr.path, abort := dr.abort }

/-- An entry overwrites all that an earlier one has published, except the level. -/
theorem publish_congr {dr dr' : DirectoryReader} (h : dr.forget = dr'.forget) (hlevel : dr.level = dr'.level)
    (fdw : FindData) : dr.publish fdw = dr'.publish fdw := by
  cases dr
  cases dr'
  injection h
  subst_vars
  rfl

/-- The head of the loop sets the path and the level. -/
theorem forget_congr {dr dr' : DirectoryReader} (h : dr.forget = dr'.forget) (path : WString) (level : Nat) :
    { dr with path := path, level := level }.forget = { dr' with path := path, level := level }.forget :=
  congrArg (fun dr : DirectoryReader => { dr with path := path }) h

end DirectoryReader

/-! ## The walks -/

variable {σ : Type} {others : List Search}

/-- The entry with its handle behind `n` others. -/
def StackEntry.shift (n : Nat) (e : StackEntry) : StackEntry := { e with handle := n + e.handle }

/-- The walk with other searches before its own and with another reader. -/
def ReaderState.beside (others : List Search) (dr : DirectoryReader) (st : ReaderState σ) : ReaderState σ where
  dr := dr
  win := st.win.beside others
  stack := st.stack.map (StackEntry.shift others.length)
  handle := st.handle.map (others.length + ·)
  user := st.user

/-- The machines are at one place, and their readers differ in what they have published. The level
is published at the head of the outer loop. -/
def BesideAt (others : List Search) (x x' : Point × ReaderState σ) : Prop :=
  ∃ dr : DirectoryReader, dr.forget = x'.2.dr.forget ∧ (x'.1 = .outer ∨ dr.level = x'.2.dr.level) ∧
    x = (x'.1, x'.2.beside others dr)

/-- `read` returns in both walks, or throws the same exception. -/
def BesideEnd (others : List Search) (r r' : ReadResult σ) : Prop :=
  Related (fun _ st _ st' => st.win = st'.win.beside others ∧ st.user = st'.user)
    (fun st st' => st.win = st'.win.beside others ∧ st.user = st'.user) r r'

namespace ReaderState

variable (others : List Search) (dr : DirectoryReader) (st : ReaderState σ)

@[simp] theorem beside_dr : (st.beside others dr).dr = dr := rfl

@[simp] theorem beside_stack_length : (st.beside others dr).stack.length = st.stack.length := List.length_map _

theorem closeHandle_beside : (st.beside others dr).closeHandle = st.closeHandle.beside others dr := by
  obtain ⟨dr', win, stack, handle, user⟩ := st
  cases handle with
  | none => rfl
  | some handle => simp only [closeHandle, beside, Option.map_some, Win32.findClose_beside]

theorem closeStack_beside : (st.beside others dr).closeStack = st.closeStack.beside others dr := by
  have hclose : st.stack.foldl (fun w e => w.findClose (e.shift others.length).handle) (st.win.beside others) =
      (st.stack.foldl (fun w e => w.findClose e.handle) st.win).beside others :=
    List.foldl_hom (Win32.beside others) fun w e => Win32.findClose_beside
  simp only [closeStack, beside, List.foldl_map, List.map_nil, hclose]

theorem leave_beside : Sum.LiftRel (BesideAt others) (BesideEnd others) (st.beside others dr).leave st.leave := by
  rw [leave, closeStack_beside]
  exact .inr ⟨rfl, rfl⟩

theorem unwind_beside (e : Error) :
    Sum.LiftRel (BesideAt others) (BesideEnd others) ((st.beside others dr).unwind e) (st.unwind e) := by
  rw [unwind, closeHandle_beside, closeStack_beside]
  exact .inr ⟨rfl, rfl, rfl⟩

variable {others dr}

theorem endOfLoop_beside (h : dr.forget = st.dr.forget) :
    Sum.LiftRel (BesideAt others) (BesideEnd others) (st.beside others dr).endOfLoop st.endOfLoop := by
  have hpath : dr.path = st.dr.path := (congrArg DirectoryReader.path h :)
  have hnone : st.handle.map (others.length + ·) = none ↔ st.handle = none := Option.map_eq_none_iff
  unfold endOfLoop
  by_cases hfailed : st.handle ≠ none ∧ st.win.lastError ≠ ERROR_NO_MORE_FILES
  · rw [if_pos hfailed, if_pos ⟨hnone.not.mpr hfailed.1, hfailed.2⟩, ← hpath]
    exact unwind_beside _ _ _ _
  · rw [if_neg hfailed, if_neg fun hst => hfailed ⟨hnone.not.mp hst.1, hst.2⟩, closeHandle_beside]
    refine .inl ⟨dr, ?_, .inl rfl, rfl⟩
    unfold closeHandle
    split <;> exact h

theorem next_beside (h : dr.forget = st.dr.forget) (hlevel : dr.level = st.dr.level) :
    Sum.LiftRel (BesideAt others) (BesideEnd others) (st.beside others dr).next st.next := by
  obtain ⟨dr', win, stack, handle, user⟩ := st
  cases handle with
  | none => exact endOfLoop_beside ⟨dr', { win with lastError := ERROR_INVALID_HANDLE }, stack, none, user⟩ h
  | some handle =>
      simp only [next, beside, Option.map_some, Win32.findNextFile_beside]
      generalize win.findNextFile handle = x
      obtain ⟨found, win⟩ := x
      cases found with
      | none => exact endOfLoop_beside ⟨dr', win, stack, some handle, user⟩ h
      | some fdw => exact .inl ⟨dr, h, .inr hlevel, rfl⟩

/-- From here on both readers are the same: an entry has been published. -/
theorem descend_beside :
    Sum.LiftRel (BesideAt others) (BesideEnd others) (st.beside others st.dr).descend st.descend := by
  simp only [descend, beside_dr, beside_stack_length]
  by_cases hdescend : st.dr.recursive ∧ (st.dr.maxLevel = 0 ∨ st.stack.length < st.dr.maxLevel)
  · rw [if_pos hdescend, if_pos hdescend]
    obtain ⟨dr, win, stack, handle, user⟩ := st
    cases handle with
    | none => exact next_beside ⟨dr, win, stack, none, user⟩ rfl rfl
    | some handle =>
        exact endOfLoop_beside
          ⟨{ dr with path := dr.path ++ pathDelimiter ++ dr.name }, win, ⟨handle, dr.path⟩ :: stack, none, user⟩ rfl
  · rw [if_neg hdescend, if_neg hdescend]
    exact next_beside st rfl rfl

theorem callManipulator_beside (manipulator : Option (Manipulator σ))
    {k : ReaderState σ → (Point × ReaderState σ) ⊕ ReadResult σ}
    (hk : ∀ st, Sum.LiftRel (BesideAt others) (BesideEnd others) (k (st.beside others st.dr)) (k st)) :
    Sum.LiftRel (BesideAt others) (BesideEnd others) (callManipulator manipulator (st.beside others st.dr) k)
      (callManipulator manipulator st k) := by
  cases manipulator with
  | none => exact hk st
  | some m =>
      cases hrun : m st.dr ⟨st.dr.abort, st.win.lastError, st.user⟩ with
      | ok _ sh =>
          have hrun' : m (st.beside others st.dr).dr ⟨(st.beside others st.dr).dr.abort,
            (st.beside others st.dr).win.lastError, (st.beside others st.dr).user⟩ = .ok _ sh := hrun
          simp only [callManipulator, hrun, hrun']
          exact hk (st.afterCall sh)
      | error e sh =>
          have hrun' : m (st.beside others st.dr).dr ⟨(st.beside others st.dr).dr.abort,
            (st.beside others st.dr).win.lastError, (st.beside others st.dr).user⟩ = .error e sh := hrun
          simp only [callManipulator, hrun, hrun']
          exact unwind_beside others _ (st.afterCall sh) e

theorem inner_beside (manipulator : Option (Manipulator σ)) (fdw : FindData) (h : dr.forget = st.dr.forget)
    (hlevel : dr.level = st.dr.level) :
    Sum.LiftRel (BesideAt others) (BesideEnd others) ((st.beside others dr).inner manipulator fdw)
      (st.inner manipulator fdw) := by
  have habort : dr.abort = st.dr.abort := (congrArg DirectoryReader.abort h :)
  have hdot : dr.listDot = st.dr.listDot := (congrArg DirectoryReader.listDot h :)
  have hdotdot : dr.listDotdot = st.dr.listDotdot := (congrArg DirectoryReader.listDotdot h :)
  have hpublish : dr.publish fdw = st.dr.publish fdw := DirectoryReader.publish_congr h hlevel fdw
  simp only [inner, beside_dr, habort, hdot, hdotdot, hpublish]
  split
  · exact endOfLoop_beside st h
  split
  · exact next_beside st h hlevel
  split
  · exact next_beside st h hlevel
  split
  · exact next_beside st h hlevel
  · let published : ReaderState σ := { st with dr := st.dr.publish fdw }
    split
    · split
      · exact callManipulator_beside published manipulator fun st => descend_beside st
      · exact descend_beside published
    · split
      · exact callManipulator_beside published manipulator fun st => next_beside st rfl rfl
      · exact next_beside published rfl rfl

theorem outer_beside (disk : Disk) (h : dr.forget = st.dr.forget) :
    Sum.LiftRel (BesideAt others) (BesideEnd others) ((st.beside others dr).outer disk) (st.outer disk) := by
  have hstop : (st.beside others dr).dr.abort = st.dr.abort := (congrArg DirectoryReader.abort h :)
  have hpath : dr.path = st.dr.path := (congrArg DirectoryReader.path h :)
  unfold outer
  by_cases habort : st.dr.abort
  · rw [if_pos habort, if_pos (hstop.trans habort)]
    exact leave_beside others dr st
  · rw [if_neg habort, if_neg fun hdr => habort (hstop.symm.trans hdr)]
    obtain ⟨dr', win, stack, handle, user⟩ := st
    cases handle with
    | some handle =>
        cases stack with
        | nil => exact leave_beside others dr ⟨dr', win, [], some handle, user⟩
        | cons e stack =>
            refine .inl ⟨{ dr with path := e.path, level := stack.length + 1 }, ?_, .inr rfl, ?_⟩
            · exact DirectoryReader.forget_congr h _ _
            · simp only [beside, List.map_cons, List.length_map]
              rfl
    | none =>
        dsimp only at hpath
        simp only [beside, Option.map_none, List.length_map, Win32.findFirstFile_beside, hpath]
        generalize win.findFirstFile disk dr'.path = x
        obtain ⟨opened, win⟩ := x
        cases opened with
        | some search =>
            refine .inl ⟨{ dr with level := stack.length + 1 }, h, .inr rfl, ?_⟩
            simp only [beside, hpath]
            rfl
        | none =>
            have hclose := closeStack_beside others { dr with level := stack.length + 1 }
              ⟨{ dr' with level := stack.length + 1 }, win, stack, none, user⟩
            simp only [beside, Option.map_none, hpath] at hclose
            by_cases hlast : win.lastError = ERROR_PATH_NOT_FOUND
            · simp only [Win32.beside, hlast, if_true, leave] at hclose ⊢
              rw [hclose]
              exact .inr ⟨rfl, rfl⟩
            · simp only [Win32.beside, hlast, if_false] at hclose ⊢
              rw [hclose]
              exact .inr ⟨rfl, rfl, rfl⟩

theorem step_beside (disk : Disk) (manipulator : Option (Manipulator σ)) (x x' : Point × ReaderState σ)
    (h : BesideAt others x x') :
    Sum.LiftRel (BesideAt others) (BesideEnd others) (step disk manipulator x) (step disk manipulator x') := by
  obtain ⟨p, st⟩ := x'
  obtain ⟨dr, hdr, hlevel, rfl⟩ := h
  cases p with
  | outer => exact outer_beside st disk hdr
  | inner fdw => exact inner_beside st manipulator fdw hdr (hlevel.resolve_left Point.noConfusion)

end ReaderState

/-- A walk opens searches of its own and works on these only: with a reader that has been used, and
whatever searches there are in the process, it is the walk of a fresh reader with the same options
in a process without searches. The other searches stay as they are. -/
theorem DirectoryReader.read_fresh (fuel : Nat) (disk : Disk) (manipulator : Option (Manipulator σ))
    (dr : DirectoryReader) (path : WString) (win : Win32) (user : σ) :
    Option.Rel (BesideEnd win.searches) (dr.read fuel disk manipulator path win user)
      (dr.options.read fuel disk manipulator path ⟨[], win.lastError⟩ user) := by
  refine run_liftRel (ReaderState.step_beside disk manipulator) fuel
    ⟨{ dr with path := rootPath path, abort := false }, rfl, .inl rfl, ?_⟩
  simp only [start, ReaderState.beside, Win32.beside, List.append_nil, List.map_nil, Option.map_none]

end Spacenet
